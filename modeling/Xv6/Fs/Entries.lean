import Xv6.Fs.InodeTable
import Xv6.Fs.Calls

/-!
# Directory entries

A directory is an inode whose contents are read as records of sixteen bytes.
-/

namespace Xv6.Fs

open Command Bytes Ownership

def label (name : List UInt8) : List UInt8 := (name.take DIRSIZ).takeWhile (· ≠ 0)

theorem takeWhile_take_succ (n : Nat) (p : List UInt8) :
    (p.take (n + 1)).takeWhile (· ≠ 0) =
      if p.headD 0 = 0 then [] else p.headD 0 :: (p.tail.take n).takeWhile (· ≠ 0) := by
  cases p with
  | nil => rfl
  | cons x p =>
    by_cases zero : x = 0 <;> simp [zero]

theorem strncmp_eq_zero (n : Nat) (p q : List UInt8) :
    strncmp n p q = 0 ↔ (p.take n).takeWhile (· ≠ 0) = (q.take n).takeWhile (· ≠ 0) := by
  induction n generalizing p q with
  | zero => simp [strncmp]
  | succ n ih =>
    rw [takeWhile_take_succ, takeWhile_take_succ, strncmp]
    generalize p.headD 0 = x
    generalize q.headD 0 = y
    have difference : (x.toNat : Int) - y.toNat = 0 ↔ x = y := by
      rw [← UInt8.toNat_inj]
      omega
    by_cases same : x = y
    · by_cases zero : y = 0 <;> simp [same, zero, ih]
    · rw [if_neg (fun both => same both.2), difference]
      by_cases zero : x = 0
      · have other : y ≠ 0 := fun equal => same (zero.trans equal.symm)
        simp [zero, other, Ne.symm other]
      · by_cases other : y = 0 <;> simp [zero, other, same]

/-- `namecmp` compares labels. -/
theorem namecmp_eq_zero (s t : List UInt8) : namecmp s t = 0 ↔ label s = label t :=
  strncmp_eq_zero DIRSIZ s t

theorem strncpy_length (n : Nat) (t : List UInt8) : (strncpy n t).length = n := by
  induction n generalizing t with
  | zero => rfl
  | succ n ih =>
    rw [strncpy]
    split
    · simp
    · simp [ih]

theorem takeWhile_strncpy (n : Nat) (t : List UInt8) :
    (strncpy n t).takeWhile (· ≠ 0) = (t.take n).takeWhile (· ≠ 0) := by
  induction n generalizing t with
  | zero => simp [strncpy]
  | succ n ih =>
    rw [takeWhile_take_succ, strncpy]
    split
    · simp [List.replicate_succ]
    · rename_i nonzero
      rw [List.takeWhile_cons_of_pos (by simpa using nonzero), ih]

theorem direntName_dirent (name : List UInt8) (inum : Nat) :
    direntName (dirent name inum) = strncpy DIRSIZ name := by
  apply List.ext_getElem
  · simp [direntName, strncpy_length]
  · intro i left right
    simp only [direntName, dirent, store, List.getElem_map, List.getElem_range]
    rw [if_neg (by omega), Nat.add_sub_cancel_left, List.getD_eq_getElem?_getD,
      List.getElem?_eq_getElem right, Option.getD_some]

@[simp] theorem label_dirent (name : List UInt8) (inum : Nat) :
    label (direntName (dirent name inum)) = label name := by
  rw [direntName_dirent, label, List.take_of_length_le (by rw [strncpy_length]), takeWhile_strncpy,
    label]

@[simp] theorem direntInum_dirent (name : List UInt8) (inum : Nat) :
    direntInum (dirent name inum) = inum % 2 ^ 16 :=
  load_store_same ..

def entryBytes (sb : Superblock) (disk : Disk) (i k : Nat) : ByteMap :=
  fun j => fileByte sb disk i (16 * k + j)

def entryInum (sb : Superblock) (disk : Disk) (i k : Nat) : Nat :=
  direntInum (entryBytes sb disk i k)

def entryLabel (sb : Superblock) (disk : Disk) (i k : Nat) : List UInt8 :=
  label (direntName (entryBytes sb disk i k))

theorem direntInum_congr {left right : ByteMap} (agree : ∀ j, j < 16 → left j = right j) :
    direntInum left = direntInum right :=
  load_congr fun j _ inside => agree j (by omega)

theorem direntName_congr {left right : ByteMap} (agree : ∀ j, j < 16 → left j = right j) :
    direntName left = direntName right := by
  apply List.map_congr_left
  intro j inside
  have := List.mem_range.mp inside
  exact agree (2 + j) (by simp only [DIRSIZ] at this; omega)

variable {sb : Superblock} {stop : Panic → Prop} {fs : State} {dp : Nat}

theorem direntCount_spec {size : UInt32} {index : Nat} (inside : index < direntCount size) :
    16 * index < size.toNat := by
  simp only [direntCount] at inside
  omega

theorem Consistent.wp_readDirent (consistent : Consistent sb fs) (locked : Locked fs dp)
    {index : Nat} {short : Panic} {post : ByteMap → State → Prop}
    (inside : index < direntCount (fs.itable dp).d.size)
    (partly : (fs.itable dp).d.size.toNat % 16 ≠ 0 → stop short)
    (whole : ∀ bytes, 16 * index + 16 ≤ (fs.itable dp).d.size.toNat →
      (∀ j, j < 16 → bytes j = entryBytes sb fs.disk (fs.itable dp).inum index j) →
      post bytes fs) :
    wp (readDirent sb dp index short) post stop fs := by
  have position := direntCount_spec inside
  have bounded := locked.bounded consistent
  have small : MAXFILE * BSIZE + 16 < 2 ^ 32 := by decide
  have offset : (UInt32.ofNat (16 * index)).toNat = 16 * index := by
    rw [UInt32.toNat_ofNat']
    omega
  have sixteen : (16 : UInt32).toNat = 16 := rfl
  have accepted : ¬ ((fs.itable dp).d.size < UInt32.ofNat (16 * index) ∨
      UInt32.ofNat (16 * index) + 16 < UInt32.ofNat (16 * index)) := by
    simp only [UInt32.lt_iff_toNat_lt, UInt32.toNat_add, offset]
    omega
  have amount : readLength (fs.itable dp).d.size (UInt32.ofNat (16 * index)) 16 =
      min 16 ((fs.itable dp).d.size.toNat - 16 * index) := by
    rw [readLength, if_neg accepted, offset, sixteen]
  simp only [readDirent, wp_bind]
  refine wp_post (wp_readi (UInt32.ofNat (16 * index)) 16 (locked.mapped consistent) bounded) ?_
  rintro result after ⟨rfl, rfl⟩
  simp only [delivered, amount, Nat.min_le_left, ↓reduceIte, offset]
  split
  · rename_i notWhole
    rw [wp_throw]
    exact partly (by omega)
  · rename_i isWhole
    rw [wp_pure]
    refine whole _ (by omega) ?_
    intro j inEntry
    rw [copy_inside _ _ (Nat.zero_le j) (by omega), Nat.sub_zero, locked.bytes_eq consistent]
    rfl

def Names (sb : Superblock) (disk : Disk) (i k : Nat) (name : List UInt8) : Prop :=
  entryInum sb disk i k ≠ 0 ∧ entryLabel sb disk i k = label name

theorem Consistent.wp_dirlookup (consistent : Consistent sb fs) (locked : Locked fs dp)
    {name : List UInt8} {post : Option (Nat × Nat) → State → Prop}
    (notDir : (fs.itable dp).d.type ≠ T_DIR → stop .dirlookupNotDir)
    (partly : (fs.itable dp).d.size.toNat % 16 ≠ 0 → stop .dirlookupRead)
    (full : (∀ s, s < NINODE → (fs.itable s).ref ≠ 0) → stop .igetNoInodes)
    (absent : (fs.itable dp).d.type = T_DIR → (fs.itable dp).d.size.toNat % 16 = 0 →
      (∀ k, k < direntCount (fs.itable dp).d.size →
        ¬ Names sb fs.disk (fs.itable dp).inum k name) → post none fs)
    (found : ∀ k ip after, (fs.itable dp).d.type = T_DIR →
      k < direntCount (fs.itable dp).d.size → Names sb fs.disk (fs.itable dp).inum k name →
      (∀ j, j < k → ¬ Names sb fs.disk (fs.itable dp).inum j name) →
      Got fs (entryInum sb fs.disk (fs.itable dp).inum k) ip after →
      post (some (ip, 16 * k)) after) :
    wp (dirlookup sb dp name) post stop fs := by
  simp only [dirlookup, wp_bind, wp_inode]
  split
  · rename_i other
    rw [wp_throw]
    exact notDir other
  · rename_i isDir
    rw [not_not] at isDir
    refine wp_post (wp_searchRange
      (fun index current => current = fs ∧ 16 * index ≤ (fs.itable dp).d.size.toNat ∧
        ∀ k, k < index → ¬ Names sb fs.disk (fs.itable dp).inum k name)
      (fun result after => ∃ k ip, result = (ip, 16 * k) ∧
        k < direntCount (fs.itable dp).d.size ∧ Names sb fs.disk (fs.itable dp).inum k name ∧
        (∀ j, j < k → ¬ Names sb fs.disk (fs.itable dp).inum j name) ∧
        Got fs (entryInum sb fs.disk (fs.itable dp).inum k) ip after)
      stop _ 0 _ fs ?_ ⟨rfl, Nat.zero_le _, fun k below => absurd below (Nat.not_lt_zero k)⟩) ?_
    · rintro index current - upper ⟨rfl, -, before⟩
      rw [Nat.zero_add] at upper
      rw [wp_bind]
      refine consistent.wp_readDirent locked upper partly ?_
      intro bytes whole agree
      have number : direntInum bytes = entryInum sb current.disk (current.itable dp).inum index :=
        direntInum_congr agree
      have named : label (direntName bytes) =
          entryLabel sb current.disk (current.itable dp).inum index := by
        rw [direntName_congr agree]
        rfl
      have continues : ¬ Names sb current.disk (current.itable dp).inum index name →
          ∀ k, k < index + 1 → ¬ Names sb current.disk (current.itable dp).inum k name := by
        intro here k below
        rcases Nat.lt_succ_iff_lt_or_eq.mp below with earlier | rfl
        · exact before k earlier
        · exact here
      simp only [number, namecmp_eq_zero, named]
      split
      · rename_i free
        rw [wp_pure]
        exact ⟨by simp, fun _ => ⟨rfl, whole, continues fun names => names.1 free⟩⟩
      · rename_i inUse
        split
        · rename_i same
          rw [wp_bind]
          refine wp_iget full ?_
          intro ip after got
          rw [wp_pure]
          refine ⟨?_, by simp⟩
          intro result returned
          exact ⟨index, ip, (Option.some.inj returned).symm, upper, ⟨inUse, same.symm⟩, before, got⟩
        · rename_i different
          rw [wp_pure]
          exact ⟨by simp, fun _ => ⟨rfl, whole, continues fun names => different names.2.symm⟩⟩
    · rintro outcome after ⟨hit, miss⟩
      cases outcome with
      | some result =>
        obtain ⟨k, ip, rfl, inside, names, first, got⟩ := hit result rfl
        exact found k ip after isDir inside names first got
      | none =>
        obtain ⟨rfl, reached, all⟩ := miss rfl
        refine absent isDir ?_ fun k below => all k (by omega)
        simp only [direntCount] at reached
        omega

structure SameInUse (fs after : State) : Prop where
  disk : after.disk = fs.disk
  logged : after.logged = fs.logged
  history : after.freedInodes = fs.freedInodes
  ref : ∀ s, (after.itable s).ref = (fs.itable s).ref
  slot : ∀ s, 0 < (fs.itable s).ref → after.itable s = fs.itable s

theorem Got.not_freeing {inum ip : Nat} {middle : State} (got : Got fs inum ip middle) :
    ¬ Freeing middle ip := by
  rintro ⟨one, valid, -⟩
  rcases got.entry with ⟨positive, -, slot⟩ | ⟨-, -, slot⟩
  · simp only [slot, Function.update_self] at one
    omega
  · simp [slot] at valid

theorem Got.dropped {inum ip : Nat} {middle after : State} (got : Got fs inum ip middle)
    (same : after = middle.setSlot ip { middle.itable ip with
      ref := (middle.itable ip).ref - 1 }) : SameInUse fs after := by
  refine ⟨?_, ?_, ?_, ?_, ?_⟩
  · rw [same, setSlot_disk, got.disk]
  · rw [same, State.setSlot, got.logged]
  · rw [same, State.setSlot, got.history]
  · intro s
    by_cases here : s = ip
    · rw [same, here, setSlot_self, got.ref, if_pos rfl]
      simp
    · rw [same, setSlot_of_ne _ here, got.other here]
  · intro s positive
    by_cases here : s = ip
    · subst here
      rcases got.entry with ⟨-, -, slot⟩ | ⟨free, -, -⟩
      · simp [same, slot]
      · omega
    · rw [same, setSlot_of_ne _ here, got.other here]

theorem Got.wp_iput {inum ip : Nat} {middle : State} (got : Got fs inum ip middle)
    (consistent : Consistent sb fs) {post : PUnit → State → Prop}
    (dropped : ∀ after, SameInUse fs after → Consistent sb after → post ⟨⟩ after) :
    wp (iput sb ip) post stop middle := by
  have positive : 0 < (middle.itable ip).ref := by
    have before := consistent.counted ip got.slot
    rw [got.ref, if_pos rfl]
    omega
  refine (got.consistent consistent).wp_iput got.slot positive
    (fun freeing => absurd freeing got.not_freeing)
    (fun freeing => absurd freeing got.not_freeing) ?_
  intro _ after same kept
  exact dropped after (got.dropped same) kept

theorem Rewritten.refl (consistent : Consistent sb fs) (locked : Locked fs dp) :
    Rewritten sb fs dp (fs.itable dp).d (fileByte sb fs.disk (fs.itable dp).inum) fs := by
  refine ⟨consistent, (Function.update_eq_self dp fs.itable).symm,
    (locked.copy consistent).symm, fun _ _ _ => rfl, ?_, rfl⟩
  intro i k
  split
  · rename_i own
    rw [own]
  · rfl

def Entered (sb : Superblock) (fs : State) (dp k : Nat) (record : ByteMap) (after : State) :
    Prop :=
  ∃ addrs, Rewritten sb fs dp { (fs.itable dp).d with
      size := UInt32.ofNat (max (fs.itable dp).d.size.toNat (16 * k + 16)), addrs := addrs }
    (fun b => if 16 * k ≤ b ∧ b < 16 * k + 16 then record (b - 16 * k)
      else fileByte sb fs.disk (fs.itable dp).inum b) after ∧
    Spread sb fs (fs.itable dp).inum (Through (16 * k / BSIZE)) after

def Failed (sb : Superblock) (fs : State) (dp k : Nat) (after : State) : Prop :=
  ∃ addrs, Rewritten sb fs dp { (fs.itable dp).d with addrs := addrs }
      (fileByte sb fs.disk (fs.itable dp).inum) after ∧
    Spread sb fs (fs.itable dp).inum (Through (16 * k / BSIZE)) after

def EntryRoom (sb : Superblock) (fs : State) (dp k : Nat) (stop : Panic → Prop) : Prop :=
  ∀ after, Grown sb fs dp after → Confined sb fs dp (Through (16 * k / BSIZE)) after →
    Room stop after.logged

theorem Consistent.wp_overwriteDirent (consistent : Consistent sb fs) (locked : Locked fs dp)
    {k : Nat} {record : ByteMap} (inside : 16 * k < (fs.itable dp).d.size.toNat)
    (room : EntryRoom sb fs dp k stop) :
    wp (writei sb dp ⟨record, 16⟩ (UInt32.ofNat (16 * k)) 16) (fun written _ => written = 16) stop
      fs := by
  have bounded := locked.bounded consistent
  have largest : MAXFILE * BSIZE = 274432 := by decide
  have offset : (UInt32.ofNat (16 * k)).toNat = 16 * k := by
    rw [UInt32.toNat_ofNat']
    omega
  have sixteen : (16 : UInt32).toNat = 16 := rfl
  have total : (UInt32.ofNat (16 * k) + 16).toNat = 16 * k + 16 := by
    rw [UInt32.toNat_add, offset, sixteen]
    exact Nat.mod_eq_of_lt (by omega)
  obtain ⟨b, kept⟩ := locked.mapped consistent (16 * k / BSIZE) (by
    simp only [BSIZE]
    omega)
  have accepted : ¬ ((fs.itable dp).d.size < UInt32.ofNat (16 * k) ∨
      UInt32.ofNat (16 * k) + 16 < UInt32.ofNat (16 * k)) := by
    simp only [UInt32.lt_iff_toNat_lt, total, offset]
    omega
  have fits : ¬ MAXFILE * BSIZE < (UInt32.ofNat (16 * k) + 16).toNat := by omega
  have chunk : min (16 - 0) (BSIZE - 16 * k % BSIZE) = 16 := by
    simp only [BSIZE]
    omega
  simp only [writei, wp_bind, wp_inode, accepted, fits, ↓reduceIte, sixteen, offset]
  rw [writeRounds, if_pos (by decide), wp_bind]
  refine wp_bmap_mapped (by simp only [MAXFILE, BSIZE] at *; omega) kept ?_
  intro address nonzero value
  have opened := locked.opened consistent
  obtain ⟨grown, confined, -⟩ := (overwritten_setDisk address.toNat
    (copy (fs.disk address.toNat) (16 * k % BSIZE) record 0 16)).confined opened (value ▸ kept)
  have enough := room _ grown confined
  simp only [nonzero, ↓reduceIte, wp_bind, wp_bread, chunk, Nat.zero_add, Nat.le_refl]
  refine wp_logWrite (room fs (Grown.refl opened) Confined.refl) ?_
  simp only [writeRounds, Nat.lt_irrefl, ↓reduceIte, wp_pure]
  split
  · simp only [wp_bind, wp_setDinode]
    refine wp_iupdate enough ?_
    simp only [wp_pure, Nat.cast_ofNat]
  · rw [wp_bind]
    refine wp_iupdate enough ?_
    simp only [wp_pure, Nat.cast_ofNat]

theorem Consistent.wp_writeDirent (consistent : Consistent sb fs) (locked : Locked fs dp)
    {k : Nat} {record : ByteMap} {post : Int → State → Prop}
    (place : 16 * k ≤ (fs.itable dp).d.size.toNat) (room : EntryRoom sb fs dp k stop)
    (failed : ∀ written after, written ≠ 16 → (fs.itable dp).d.size.toNat = 16 * k →
      Full sb after ∨ MAXFILE * BSIZE < 16 * k + 16 →
      ¬ Extensible sb fs.disk (fs.itable dp).inum (16 * k) → Failed sb fs dp k after →
      post written after)
    (entered : ∀ after,
      16 * k < (fs.itable dp).d.size.toNat ∨ Extensible sb fs.disk (fs.itable dp).inum (16 * k) →
      Entered sb fs dp k record after → post 16 after) :
    wp (writei sb dp ⟨record, 16⟩ (UInt32.ofNat (16 * k)) 16) post stop fs := by
  have bounded := locked.bounded consistent
  have small : MAXFILE * BSIZE < 2 ^ 32 := by decide
  have offset : (UInt32.ofNat (16 * k)).toNat = 16 * k := by
    rw [UInt32.toNat_ofNat']
    omega
  have sixteen : (16 : UInt32).toNat = 16 := rfl
  -- An entry inside the directory is written, whatever else the law allows.
  have ends : ∀ {written : Int}, ((16 * k < (fs.itable dp).d.size.toNat) → written = 16) →
      written ≠ 16 → (fs.itable dp).d.size.toNat = 16 * k := by
    intro written inside short
    by_contra other
    exact short (inside (by omega))
  have enough : ∀ after, ¬ Rejected (fs.itable dp).d.size (UInt32.ofNat (16 * k)) 16 →
      Grown sb fs dp after →
      Confined sb fs dp (Stretch (UInt32.ofNat (16 * k)).toNat (16 : UInt32).toNat) after →
      Room stop after.logged := by
    intro after _ grown confined
    rw [offset, sixteen] at confined
    exact room after grown (confined.weaken fun p => Stretch.through (by simp only [BSIZE]; omega))
  have always : wp (writei sb dp ⟨record, 16⟩ (UInt32.ofNat (16 * k)) 16)
      (fun written _ => 16 * k < (fs.itable dp).d.size.toNat → written = 16) stop fs := by
    by_cases inside : 16 * k < (fs.itable dp).d.size.toNat
    · exact wp_post (consistent.wp_overwriteDirent locked inside room) fun _ _ whole _ => whole
    · refine consistent.wp_writei locked enough ?_ ?_
      · intro _ wrong
        exact absurd wrong inside
      · intro _ _ _ _ wrong
        exact absurd wrong inside
  suffices law : wp (writei sb dp ⟨record, 16⟩ (UInt32.ofNat (16 * k)) 16)
      (fun written after => (16 * k < (fs.itable dp).d.size.toNat → written = 16) →
        post written after) stop fs from
    wp_post (wp_and always law) fun _ _ both => both.2 both.1
  refine consistent.wp_writei locked enough ?_ ?_
  · intro rejected inside
    have beyond : MAXFILE * BSIZE < 16 * k + 16 := by
      rcases rejected with past | wraps | large
      · rw [UInt32.lt_iff_toNat_lt, offset] at past
        omega
      · rw [UInt32.lt_iff_toNat_lt, UInt32.toNat_add, offset, sixteen] at wraps
        omega
      · rw [UInt32.toNat_add, offset, sixteen] at large
        omega
    exact failed (-1) fs (by decide) (ends inside (by decide)) (Or.inr beyond)
      (fun place => absurd place.1 (Nat.not_le_of_lt beyond))
      ⟨_, Rewritten.refl consistent locked, Spread.refl⟩
  · intro t after fine accepted inside
    obtain ⟨extent, addrs, -, -, exactly, rewritten⟩ := accepted.effect
    rw [sixteen] at exactly
    have all : extent = t := exactly (Or.inl (Nat.le_refl 16))
    rw [all, offset] at rewritten
    have spread : Spread sb fs (fs.itable dp).inum (Through (16 * k / BSIZE)) after := by
      refine accepted.spread.weaken fun p inside => ?_
      rw [offset, sixteen] at inside
      exact inside.through (by simp only [BSIZE]; omega)
    have boundary := accepted.boundary
    have reported := accepted.reported
    rw [offset, sixteen] at boundary
    rw [sixteen] at reported
    have whole : t = 0 ∨ t = 16 := by
      simp only [BSIZE] at boundary
      omega
    rcases whole with rfl | rfl
    · obtain ⟨reason, starved⟩ := accepted.starved consistent locked (by decide)
        (by rw [sixteen])
      rw [offset] at starved
      refine failed 0 after (by decide) (ends inside (by decide)) (Or.inl reason)
        (fun place => absurd place.2 (Nat.not_le_of_lt starved)) ⟨addrs, ?_, spread⟩
      have size : UInt32.ofNat (max (fs.itable dp).d.size.toNat (16 * k + 0)) =
          (fs.itable dp).d.size := by
        rw [Nat.add_zero, Nat.max_eq_left place]
        simp
      have nothing : ∀ b, ¬ (16 * k ≤ b ∧ b < 16 * k + 0) := by
        intro b
        omega
      simpa only [size, nothing, ↓reduceIte] using rewritten
    · refine entered after (Or.inr ⟨?_, ?_⟩) ⟨addrs, rewritten, spread⟩
      · have range := (not_rejected fine).2
        rw [offset, sixteen] at range
        exact range
      · have enough : (lacking sb fs.disk (fs.itable dp).inum (UInt32.ofNat (16 * k)).toNat 0).card ≤
            (freeBlocks sb fs.disk).card := by
          refine accepted.card_lacking_le consistent fun bn upper => ?_
          refine accepted.mapped consistent locked fine ?_
          exact Nat.lt_of_lt_of_le ((block_le_iff ..).mp upper) (Nat.add_le_add_left (by decide) _)
        rw [offset] at enough
        exact enough

theorem Consistent.wp_searchDirents (consistent : Consistent sb fs) (locked : Locked fs dp)
    (wanted : Nat → Prop) [DecidablePred wanted] {first count : Nat} {short : Panic}
    {post : Option Nat → State → Prop}
    (inside : first + count ≤ direntCount (fs.itable dp).d.size)
    (partly : (fs.itable dp).d.size.toNat % 16 ≠ 0 → stop short)
    (absent : (∀ k, first ≤ k → k < first + count →
      ¬ wanted (entryInum sb fs.disk (fs.itable dp).inum k)) → post none fs)
    (found : ∀ k, first ≤ k → k < first + count →
      wanted (entryInum sb fs.disk (fs.itable dp).inum k) → post (some k) fs) :
    wp (searchRange first count fun index => do
      let entry ← readDirent sb dp index short
      if wanted (direntInum entry) then pure (some index) else pure none) post stop fs := by
  refine wp_post (wp_searchRange
    (fun index current => current = fs ∧ ∀ k, first ≤ k → k < index →
      ¬ wanted (entryInum sb fs.disk (fs.itable dp).inum k))
    (fun k after => after = fs ∧ first ≤ k ∧ k < first + count ∧
      wanted (entryInum sb fs.disk (fs.itable dp).inum k))
    stop _ first _ fs ?_ ⟨rfl, fun k lower upper => absurd lower (by omega)⟩) ?_
  · rintro index current lower upper ⟨rfl, before⟩
    rw [wp_bind]
    refine consistent.wp_readDirent locked (by omega) partly ?_
    intro bytes _ agree
    have number : direntInum bytes = entryInum sb current.disk (current.itable dp).inum index :=
      direntInum_congr agree
    rw [number]
    split
    · rename_i hit
      rw [wp_pure]
      refine ⟨?_, by simp⟩
      intro result returned
      rw [← Option.some.inj returned]
      exact ⟨rfl, lower, upper, hit⟩
    · rename_i miss
      rw [wp_pure]
      refine ⟨by simp, fun _ => ⟨rfl, ?_⟩⟩
      intro k low high
      rcases Nat.lt_succ_iff_lt_or_eq.mp high with earlier | rfl
      · exact before k low earlier
      · exact miss
  · rintro outcome after ⟨hit, miss⟩
    cases outcome with
    | some k =>
      obtain ⟨rfl, lower, upper, holds⟩ := hit k rfl
      exact found k lower upper holds
    | none =>
      obtain ⟨rfl, all⟩ := miss rfl
      exact absent all

theorem Consistent.wp_dirlink (consistent : Consistent sb fs) (locked : Locked fs dp)
    {name : List UInt8} {inum : Nat} {post : Int → State → Prop}
    (room : ∀ k, EntryRoom sb fs dp k stop)
    (notDir : (fs.itable dp).d.type ≠ T_DIR → stop .dirlookupNotDir)
    (partly : (fs.itable dp).d.size.toNat % 16 ≠ 0 → stop .dirlookupRead)
    (full : (∀ s, s < NINODE → (fs.itable s).ref ≠ 0) → stop .igetNoInodes)
    (present : ∀ k after, k < direntCount (fs.itable dp).d.size →
      Names sb fs.disk (fs.itable dp).inum k name → SameInUse fs after → Consistent sb after →
      post (-1) after)
    (failed : ∀ k after, (fs.itable dp).d.size.toNat = 16 * k →
      (∀ j, j < k → entryInum sb fs.disk (fs.itable dp).inum j ≠ 0) →
      Full sb after ∨ MAXFILE * BSIZE < 16 * k + 16 →
      ¬ Extensible sb fs.disk (fs.itable dp).inum (16 * k) → Failed sb fs dp k after →
      post (-1) after)
    (entered : ∀ k after, (fs.itable dp).d.type = T_DIR → (fs.itable dp).d.size.toNat % 16 = 0 →
      (∀ j, j < direntCount (fs.itable dp).d.size →
        ¬ Names sb fs.disk (fs.itable dp).inum j name) →
      k ≤ direntCount (fs.itable dp).d.size →
      (k < direntCount (fs.itable dp).d.size →
        entryInum sb fs.disk (fs.itable dp).inum k = 0) →
      k < direntCount (fs.itable dp).d.size ∨
        Extensible sb fs.disk (fs.itable dp).inum (16 * k) →
      Entered sb fs dp k (dirent name inum) after → post 0 after) :
    wp (dirlink sb dp name inum) post stop fs := by
  simp only [dirlink, wp_bind]
  refine consistent.wp_dirlookup locked notDir partly full ?_ ?_
  · intro isDir whole nowhere
    have inside : 0 + direntCount (fs.itable dp).d.size ≤ direntCount (fs.itable dp).d.size := by
      omega
    have write : ∀ k, k ≤ direntCount (fs.itable dp).d.size →
        (k < direntCount (fs.itable dp).d.size →
          entryInum sb fs.disk (fs.itable dp).inum k = 0) →
        ((fs.itable dp).d.size.toNat = 16 * k →
          ∀ j, j < k → entryInum sb fs.disk (fs.itable dp).inum j ≠ 0) →
        wp (do
          let written ← writei sb dp ⟨dirent name inum, 16⟩ (UInt32.ofNat (16 * k)) 16
          if written ≠ 16 then pure (-1) else pure 0) post stop fs := by
      intro k position free taken
      rw [wp_bind]
      refine consistent.wp_writeDirent locked ?_ (room k) ?_ ?_
      · simp only [direntCount] at position
        omega
      · intro written after short ends reason starved effect
        rw [if_pos short, wp_pure]
        exact failed k after ends (taken ends) reason starved effect
      · intro after space effect
        simp only [ne_eq, not_true_eq_false, ↓reduceIte, wp_pure]
        refine entered k after isDir whole nowhere position free (space.imp_left fun inside => ?_)
          effect
        rw [direntCount]
        omega
    simp only [wp_bind, wp_inode] at write ⊢
    refine consistent.wp_searchDirents locked (· = 0) inside
      (fun partly => absurd whole partly) ?_ ?_
    · intro allUsed
      exact write _ (Nat.le_refl _) (fun below => absurd below (Nat.lt_irrefl _))
        fun _ j below => allUsed j (Nat.zero_le j) (by rwa [Nat.zero_add])
    · intro k _ below free
      have within : k < direntCount (fs.itable dp).d.size := by omega
      have begins := direntCount_spec within
      exact write k (by omega) (fun _ => free) fun ends => absurd ends (by omega)
  · intro k ip middle _ inside names _ got
    simp only [wp_bind]
    refine got.wp_iput consistent ?_
    intro after same kept
    rw [wp_pure]
    exact present k after inside names same kept

theorem Consistent.wp_isdirempty (consistent : Consistent sb fs) (locked : Locked fs dp)
    {post : Bool → State → Prop}
    (partly : (fs.itable dp).d.size.toNat % 16 ≠ 0 → stop .isdiremptyReadi)
    (holds : ∀ empty, (empty = true ↔ ∀ k, 2 ≤ k → k < direntCount (fs.itable dp).d.size →
      entryInum sb fs.disk (fs.itable dp).inum k = 0) → post empty fs) :
    wp (isdirempty sb dp) post stop fs := by
  simp only [isdirempty, wp_bind, wp_inode]
  by_cases large : 2 ≤ direntCount (fs.itable dp).d.size
  · refine consistent.wp_searchDirents locked (· ≠ 0) (by omega) partly ?_ ?_
    · intro allFree
      rw [wp_pure]
      refine holds _ ⟨fun _ k lower upper => ?_, fun _ => rfl⟩
      exact not_not.mp (allFree k lower (by omega))
    · intro k lower upper inUse
      rw [wp_pure]
      refine holds _ ⟨fun wrong => absurd wrong (by simp), fun all => ?_⟩
      exact absurd (all k lower (by omega)) inUse
  · have nothing : direntCount (fs.itable dp).d.size - 2 = 0 := by omega
    rw [nothing, searchRange, wp_pure, wp_pure]
    exact holds _ ⟨fun _ k lower upper => absurd upper (by omega), fun _ => rfl⟩

end Xv6.Fs
