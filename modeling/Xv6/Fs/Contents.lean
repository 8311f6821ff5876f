import Xv6.Fs.Mapping

/-!
# Reading and writing contents

The loops of `readi` and `writei` go through the blocks of the open inode.
-/

namespace Xv6.Fs

open Command Bytes Ownership Function

variable {sb : Superblock} {stop : Panic → Prop} {fs : State} {ip : Nat}

def Mapped (sb : Superblock) (fs : State) (ip limit : Nat) : Prop :=
  ∀ bn, bn * BSIZE < limit →
    ∃ b, held sb fs ip ((fs.itable ip).inum, blockPointer bn) = some b

variable {after : State} {src : Source}

theorem Mapped.grown {limit : Nat} (mapped : Mapped sb fs ip limit) (grown : Grown sb fs ip after) :
    Mapped sb after ip limit := by
  intro bn below
  obtain ⟨b, kept⟩ := mapped bn below
  exact ⟨b, by rw [grown.inum]; exact grown.grows _ _ kept⟩

theorem Mapped.extend {limit off len b : Nat} (mapped : Mapped sb fs ip limit)
    (grown : Grown sb fs ip after)
    (kept : held sb after ip ((after.itable ip).inum, blockPointer (off / BSIZE)) = some b)
    (inside : off ≤ limit) (short : len ≤ BSIZE - off % BSIZE) :
    Mapped sb after ip (max limit (off + len)) := by
  intro bn below
  by_cases old : bn * BSIZE < limit
  · exact mapped.grown grown bn old
  · have same : bn = off / BSIZE := by
      simp only [BSIZE] at *
      omega
    rw [same]
    exact ⟨b, kept⟩

theorem block_offset (off step : Nat) (within : step < BSIZE - off % BSIZE) :
    (off + step) / BSIZE = off / BSIZE ∧ (off + step) % BSIZE = off % BSIZE + step := by
  simp only [BSIZE] at *
  omega

def delivered (content : ByteMap) (off len : Nat) (dst : Destination) : Int × ByteMap :=
  (if len ≤ dst.writable then len else -1, copy dst.byte 0 content off (min len dst.writable))

def readLength (size off n : UInt32) : Nat :=
  if size < off ∨ off + n < off then 0 else min n.toNat (size.toNat - off.toNat)

theorem readLength_eq (size off n : UInt32) : readLength size off n =
    if size.toNat < off.toNat ∨ 2 ^ 32 ≤ off.toNat + n.toNat then 0
    else min n.toNat (size.toNat - off.toNat) := by
  have left := off.toNat_lt
  have right := n.toNat_lt
  have turned : (size < off ∨ off + n < off) ↔
      (size.toNat < off.toNat ∨ 2 ^ 32 ≤ off.toNat + n.toNat) := by
    simp only [UInt32.lt_iff_toNat_lt, UInt32.toNat_add]
    omega
  simp only [readLength, turned]

theorem wp_readRounds {writable n limit : Nat} (mapped : Mapped sb fs ip limit)
    (bounded : limit ≤ MAXFILE * BSIZE) (rounds tot off : Nat) (out : ByteMap)
    (enough : n - tot ≤ rounds) (sofar : tot ≤ n) (fits : tot ≤ writable)
    (inside : off + (n - tot) ≤ limit) :
    wp (readRounds sb ip writable n rounds tot off out) (fun result after => after = fs ∧
      result = (if n ≤ writable then (n : Int) else -1,
        copy out tot (bytes sb fs ip (fs.itable ip).inum) off (min n writable - tot))) stop fs := by
  induction rounds generalizing tot off out with
  | zero =>
    have finished : tot = n := by omega
    subst finished
    rw [readRounds, wp_pure, Nat.min_eq_left fits, Nat.sub_self, copy_zero, if_pos fits]
    exact ⟨rfl, rfl⟩
  | succ rounds ih =>
    unfold readRounds
    split
    · rename_i more
      obtain ⟨b, kept⟩ := mapped (off / BSIZE) (by simp only [BSIZE] at *; omega)
      rw [wp_bind]
      refine wp_bmap_mapped (by simp only [BSIZE] at *; omega) kept ?_
      intro address nonzero value
      simp only [nonzero, ↓reduceIte, wp_bind, wp_bread, value]
      have positive : 0 < BSIZE - off % BSIZE := by
        simp only [BSIZE]
        omega
      -- What a round copies from the block are the next bytes of the file.
      have chunk : ∀ len, len ≤ BSIZE - off % BSIZE →
          copy out tot (fs.disk b) (off % BSIZE) len =
            copy out tot (bytes sb fs ip (fs.itable ip).inum) off len := by
        refine fun len short => copy_congr fun i below => ?_
        obtain ⟨sameBlock, offset⟩ := block_offset off i (by omega)
        rw [bytes_of_held (by rw [sameBlock]; exact kept), offset]
      split
      · rename_i room
        refine wp_post (ih (tot + min (n - tot) (BSIZE - off % BSIZE))
          (off + min (n - tot) (BSIZE - off % BSIZE)) _ (by omega) (by omega) room (by omega)) ?_
        rintro result after ⟨rfl, rfl⟩
        have rest : min (n - tot) (BSIZE - off % BSIZE) +
            (min n writable - (tot + min (n - tot) (BSIZE - off % BSIZE))) =
              min n writable - tot := by omega
        rw [chunk _ (Nat.min_le_right ..), copy_append, rest]
        exact ⟨rfl, rfl⟩
      · rename_i tight
        rw [wp_pure, if_neg (by omega), Nat.min_eq_right (by omega), chunk _ (by omega)]
        exact ⟨rfl, rfl⟩
    · rename_i exceeded
      have finished : tot = n := by omega
      subst finished
      rw [wp_pure, Nat.min_eq_left fits, Nat.sub_self, copy_zero, if_pos fits]
      exact ⟨rfl, rfl⟩

theorem wp_readi_mapped {dst : Destination} {limit : Nat} (off n : UInt32)
    (mapped : Mapped sb fs ip limit) (bounded : limit ≤ MAXFILE * BSIZE)
    (covers : min (off.toNat + n.toNat) (fs.itable ip).d.size.toNat ≤ limit) :
    wp (readi sb ip dst off n) (fun result after => after = fs ∧
      result = delivered (bytes sb fs ip (fs.itable ip).inum) off.toNat
        (readLength (fs.itable ip).d.size off n) dst) stop fs := by
  simp only [readi, wp_bind, wp_inode]
  split
  · rename_i rejected
    rw [wp_pure, readLength, if_pos rejected, delivered, Nat.zero_min, copy_zero,
      if_pos (Nat.zero_le _)]
    exact ⟨rfl, rfl⟩
  · rename_i accepted
    have inFile : off.toNat ≤ (fs.itable ip).d.size.toNat := by
      have := accepted
      simp only [not_or, UInt32.lt_iff_toNat_lt] at this
      omega
    have sum : (off + n).toNat = off.toNat + n.toNat := by
      have wrapped := accepted
      simp only [not_or, UInt32.lt_iff_toNat_lt, UInt32.toNat_add] at wrapped
      have left := off.toNat_lt
      have right := n.toNat_lt
      rw [UInt32.toNat_add]
      omega
    have count : (if (fs.itable ip).d.size < off + n then (fs.itable ip).d.size - off else n).toNat =
        min n.toNat ((fs.itable ip).d.size.toNat - off.toNat) := by
      split
      · rename_i beyond
        rw [UInt32.lt_iff_toNat_lt, sum] at beyond
        rw [UInt32.toNat_sub_of_le _ _ (UInt32.le_iff_toNat_le.mpr inFile)]
        omega
      · rename_i within
        rw [UInt32.lt_iff_toNat_lt, sum] at within
        omega
    rw [count, readLength, if_neg accepted]
    exact wp_readRounds mapped bounded _ 0 off.toNat _ (by omega) (by omega) (by omega) (by omega)

theorem wp_readi {dst : Destination} (off n : UInt32)
    (mapped : Mapped sb fs ip (fs.itable ip).d.size.toNat)
    (bounded : (fs.itable ip).d.size.toNat ≤ MAXFILE * BSIZE) :
    wp (readi sb ip dst off n) (fun result after => after = fs ∧
      result = delivered (bytes sb fs ip (fs.itable ip).inum) off.toNat
        (readLength (fs.itable ip).d.size off n) dst) stop fs :=
  wp_readi_mapped off n mapped bounded (Nat.min_le_right ..)

def State.recorded (fs : State) : Disk :=
  fun b => (fs.unlogged b).getD (fs.disk b)

def State.Settled (fs : State) : Prop :=
  ∀ b, fs.unlogged b = none

theorem State.Settled.recorded {fs : State} (settled : fs.Settled) : fs.recorded = fs.disk := by
  funext b
  simp only [State.recorded, settled b, Option.getD_none]

structure Overwritten (fs : State) (b : Nat) (contents : Block) (after : State) : Prop where
  disk : after.disk = update fs.disk b contents
  itable : after.itable = fs.itable
  logged : ∀ m ∈ after.logged, m ∈ fs.logged ∨ m = b
  history : after.freedInodes = fs.freedInodes
  settled : ∀ c, c ≠ b → fs.unlogged c = none → after.unlogged c = none

theorem overwritten_setDisk (b : Nat) (contents : Block) :
    Overwritten fs b contents (fs.setDisk (update fs.disk b contents) {b}) := by
  refine ⟨rfl, rfl, fun m member => ?_, rfl, fun _ _ => setDisk_settled _ _ _⟩
  simpa only [State.setDisk, Finset.mem_union, Finset.mem_singleton] using member

theorem recorded_setBuffer (b : Nat) (contents : Block) :
    (fs.setBuffer b contents).recorded = fs.recorded := by
  funext c
  by_cases own : c = b
  · simp only [State.recorded, State.setBuffer, own, update_self, Option.getD_some]
  · simp only [State.recorded, State.setBuffer, update_of_ne own]

theorem overwritten_setBuffer (b : Nat) (contents : Block) :
    Overwritten fs b contents (fs.setBuffer b contents) :=
  ⟨rfl, rfl, fun _ member => Or.inl member, rfl,
    fun _ other before => (update_of_ne other ..).trans before⟩

theorem Overwritten.held_eq {bn b : Nat} {contents : Block}
    (overwritten : Overwritten fs b contents after) (opened : Opened sb fs ip)
    (kept : held sb fs ip ((fs.itable ip).inum, blockPointer bn) = some b) :
    held sb after ip = held sb fs ip := by
  have data := (opened.sound.target kept).1
  refine pointers_frame (edited_congr overwritten.itable fun i range => ?_) ?_
  · rw [overwritten.disk]
    exact dinodeOf_update_data contents data range
  intro i t table
  rw [overwritten.disk]
  refine update_of_ne ?_ ..
  rintro rfl
  have one := opened.sound.books.single _ _ _ table kept
  exact blockPointer_ne_table bn (congrArg Prod.snd one).symm

theorem Overwritten.confined {bn b : Nat} {contents : Block}
    (overwritten : Overwritten fs b contents after) (opened : Opened sb fs ip)
    (kept : held sb fs ip ((fs.itable ip).inum, blockPointer bn) = some b) :
    Grown sb fs ip after ∧ Confined sb fs ip (Through bn) after ∧
      ∀ i k, bytes sb after ip i k =
        if i = (fs.itable ip).inum ∧ k / BSIZE = bn then contents (k % BSIZE)
        else bytes sb fs ip i k := by
  have data := (opened.sound.target kept).1
  have dinodes : ∀ i, i < sb.ninodes → dinodeOf sb after.disk i = dinodeOf sb fs.disk i := by
    intro i range
    rw [overwritten.disk]
    exact dinodeOf_update_data contents data range
  have marks : ∀ c, c < sb.size → used sb after.disk c = used sb fs.disk c := by
    intro c within
    rw [overwritten.disk]
    exact used_update_data contents data within
  have same := overwritten.held_eq opened kept
  have sound := opened.sound.frame marks same
  refine ⟨⟨⟨?_, ?_, sound⟩, ⟨(fs.itable ip).d.addrs, ?_⟩, dinodes, ?_, ?_, ?_,
    overwritten.history⟩, ⟨?_, ?_⟩, ?_⟩
  · rw [overwritten.itable]
    exact opened.inum
  · rw [overwritten.itable]
    exact opened.type
  · rw [overwritten.itable]
    exact (update_eq_self ip fs.itable).symm
  · intro place c before
    rw [same]
    exact before
  · intro i p _
    rw [same]
  · intro c within marked
    rw [marks c within, marked]
  · intro p
    exact Or.inr (congrFun same _)
  · intro m member
    refine (overwritten.logged m member).imp_right ?_
    rintro rfl
    exact ⟨blockPointer bn, m, Or.inr rfl, (congrFun same _).trans kept, Or.inl rfl⟩
  · intro i k
    split
    · rename_i here
      obtain ⟨rfl, rfl⟩ := here
      rw [bytes_of_held ((congrFun same _).trans kept), overwritten.disk, update_self]
    · rename_i elsewhere
      cases old : held sb fs ip (i, blockPointer (k / BSIZE)) with
      | none => rw [bytes_of_none ((congrFun same _).trans old), bytes_of_none old]
      | some c =>
        have different : c ≠ b := by
          rintro rfl
          have one := opened.sound.books.single _ _ _ old kept
          exact elsewhere ⟨congrArg Prod.fst one,
            blockPointer_injective (congrArg Prod.snd one)⟩
        rw [bytes_of_held ((congrFun same _).trans old), bytes_of_held old, overwritten.disk,
          update_of_ne different]

def Stretch (off len : Nat) (p : Pointer) : Prop :=
  ∃ bn, off / BSIZE ≤ bn ∧ bn * BSIZE < off + len ∧ Through bn p

theorem Through.stretch {off len : Nat} {p : Pointer} (nonempty : 0 < len)
    (through : Through (off / BSIZE) p) : Stretch off len p := by
  refine ⟨off / BSIZE, Nat.le_refl _, ?_, through⟩
  simp only [BSIZE] at *
  omega

theorem Stretch.widen {off off' len len' : Nat} {p : Pointer} (inside : Stretch off' len' p)
    (lower : off ≤ off') (upper : off' + len' ≤ off + len) : Stretch off len p := by
  obtain ⟨bn, first, last, through⟩ := inside
  exact ⟨bn, (Nat.div_le_div_right lower).trans first, by omega, through⟩

/-- A stretch inside one block. -/
theorem Stretch.through {off len : Nat} {p : Pointer} (short : len ≤ BSIZE - off % BSIZE)
    (inside : Stretch off len p) : Through (off / BSIZE) p := by
  obtain ⟨bn, first, last, through⟩ := inside
  have same : bn = off / BSIZE := by
    simp only [BSIZE] at *
    omega
  rw [← same]
  exact through

def Source.Whole (src : Source) (n tot off : Nat) : Prop :=
  n ≤ src.readable ∨ src.readable ≤ tot ∨ (off + (src.readable - tot)) % BSIZE = 0

inductive Ending (sb : Superblock) (fs : State) (ip : Nat) (src : Source) (n tot off : Nat)
    (result : Nat × Nat) (extent : Nat) (after : State) : Prop
  | all (whole : result.1 = n) (exactly : extent = result.1)
      (settled : ∀ b, fs.unlogged b = none → after.unlogged b = none)
  | full (full : Full sb after)
      (absent : held sb after ip ((fs.itable ip).inum, blockPointer (result.2 / BSIZE)) = none)
      (exactly : extent = result.1)
      (settled : ∀ b, fs.unlogged b = none → after.unlogged b = none)
  | cut (b : Nat) (short : src.readable < result.1 + min (n - result.1) (BSIZE - result.2 % BSIZE))
      (mapped : held sb after ip ((fs.itable ip).inum, blockPointer (result.2 / BSIZE)) = some b)
      (part : extent = result.1 + (src.readable - result.1))
      (settled : ∀ c, c ≠ b ∨ src.readable ≤ result.1 → fs.unlogged c = none →
        after.unlogged c = none)
      (record : fs.Settled → (after.recorded = after.disk ↔
        ∀ k, result.1 ≤ k → k < src.readable →
          src.byte k = bytes sb fs ip (fs.itable ip).inum (off + (k - tot))))

structure Wrote (sb : Superblock) (fs : State) (ip : Nat) (src : Source) (n limit tot off : Nat)
    (result : Nat × Nat) (after : State) : Prop where
  grown : Grown sb fs ip after
  confined : Confined sb fs ip (Stretch off (n - tot)) after
  visited : ∀ p, Stretch off (result.1 - tot + 1) p ∨
    held sb after ip ((fs.itable ip).inum, p) = held sb fs ip ((fs.itable ip).inum, p)
  lower : tot ≤ result.1
  upper : result.1 ≤ n
  read : result.1 ≤ max tot src.readable
  reached : result.2 = off + (result.1 - tot)
  mapped : Mapped sb after ip (max limit result.2)
  boundary : result.1 = tot ∨ result.1 = n ∨ result.2 % BSIZE = 0
  bytes : ∃ extent, Ending sb fs ip src n tot off result extent after ∧
    ∀ i k, bytes sb after ip i k =
      if i = (fs.itable ip).inum ∧ off ≤ k ∧ k < off + (extent - tot) then
        src.byte (tot + (k - off))
      else bytes sb fs ip i k

section Ending

variable {src : Source} {n tot off extent : Nat} {result : Nat × Nat} {after : State}

theorem Source.Whole.nothing (whole : src.Whole n tot off) (lower : tot ≤ result.1)
    (upper : result.1 ≤ n) (reached : result.2 = off + (result.1 - tot))
    (short : src.readable < result.1 + min (n - result.1) (BSIZE - result.2 % BSIZE)) :
    src.readable ≤ result.1 := by
  rcases whole with all | none | boundary
  · omega
  · omega
  · simp only [BSIZE] at *
    omega

theorem Ending.bounds (ending : Ending sb fs ip src n tot off result extent after)
    (upper : result.1 ≤ n) : result.1 ≤ extent ∧ extent ≤ n := by
  cases ending with
  | all _ exactly _ => omega
  | full _ _ exactly _ => omega
  | cut b short _ part _ _ => omega

theorem Ending.of_whole (ending : Ending sb fs ip src n tot off result extent after)
    (lower : tot ≤ result.1) (upper : result.1 ≤ n) (reached : result.2 = off + (result.1 - tot))
    (whole : src.Whole n tot off) :
    extent = result.1 ∧ ∀ b, fs.unlogged b = none → after.unlogged b = none := by
  cases ending with
  | all _ exactly settled => exact ⟨exactly, settled⟩
  | full _ _ exactly settled => exact ⟨exactly, settled⟩
  | cut b short _ part settled _ =>
    have nothing := whole.nothing lower upper reached short
    exact ⟨by omega, fun c => settled c (Or.inr nothing)⟩

theorem Ending.outcome (ending : Ending sb fs ip src n tot off result extent after)
    (upper : result.1 ≤ n) : result.1 = n ∨ Full sb after ∨ src.readable < n := by
  cases ending with
  | all whole _ _ => exact Or.inl whole
  | full full _ _ _ => exact Or.inr (Or.inl full)
  | cut b short _ _ _ _ => exact Or.inr (Or.inr (by omega))

theorem Ending.after_chunk {middle : State} {len : Nat} (inum : (middle.itable ip).inum =
    (fs.itable ip).inum) (settled : ∀ b, fs.unlogged b = none → middle.unlogged b = none)
    (lower : tot + len ≤ result.1)
    (same : ∀ k, off + len ≤ k → bytes sb middle ip (fs.itable ip).inum k =
      bytes sb fs ip (fs.itable ip).inum k)
    (ending : Ending sb middle ip src n (tot + len) (off + len) result extent after) :
    Ending sb fs ip src n tot off result extent after := by
  cases ending with
  | all whole exactly kept => exact .all whole exactly fun b before => kept b (settled b before)
  | full full absent exactly kept =>
    rw [inum] at absent
    exact .full full absent exactly fun b before => kept b (settled b before)
  | cut b short mapped part kept record =>
    rw [inum] at mapped record
    refine .cut b short mapped part (fun c apart before => kept c apart (settled c before)) ?_
    intro allSettled
    rw [record fun b => settled b (allSettled b)]
    refine forall_congr' fun k => forall_congr' fun first => forall_congr' fun last => ?_
    have position : off + len + (k - (tot + len)) = off + (k - tot) := by omega
    rw [position, same _ (by omega)]

end Ending

theorem Wrote.nothing {n limit tot off : Nat}
    (extended : Extended sb fs ip after) (confined : Confined sb fs ip (Stretch off (n - tot)) after)
    (visited : ∀ p, Stretch off 1 p ∨ held sb after ip ((fs.itable ip).inum, p) =
      held sb fs ip ((fs.itable ip).inum, p))
    (mapped : Mapped sb fs ip limit) (inside : off ≤ limit) (sofar : tot ≤ n)
    (ending : Ending sb fs ip src n tot off (tot, off) tot after) :
    Wrote sb fs ip src n limit tot off (tot, off) after := by
  refine ⟨extended.toGrown, confined, ?_, Nat.le_refl _, sofar, Nat.le_max_left .., by simp, ?_,
    Or.inl rfl, tot, ending, ?_⟩
  · rw [Nat.sub_self]
    exact visited
  · rw [Nat.max_eq_left inside]
    exact mapped.grown extended.toGrown
  · intro i k
    have empty : ¬ (i = (fs.itable ip).inum ∧ off ≤ k ∧ k < off + (tot - tot)) := by omega
    rw [if_neg empty, extended.bytes]

theorem Overwritten.write_chunk {tot b off len : Nat} {source : ByteMap}
    (overwritten : Overwritten fs b (copy (fs.disk b) (off % BSIZE) source tot len) after)
    (opened : Opened sb fs ip)
    (kept : held sb fs ip ((fs.itable ip).inum, blockPointer (off / BSIZE)) = some b)
    (inside : len ≤ BSIZE - off % BSIZE) :
    Grown sb fs ip after ∧ Confined sb fs ip (Through (off / BSIZE)) after ∧
    ∀ i k, bytes sb after ip i k =
      if i = (fs.itable ip).inum ∧ off ≤ k ∧ k < off + len then source (tot + (k - off))
      else bytes sb fs ip i k := by
  obtain ⟨grown, confined, changed⟩ := overwritten.confined opened kept
  refine ⟨grown, confined, fun i k => ?_⟩
  rw [changed]
  by_cases own : i = (fs.itable ip).inum ∧ k / BSIZE = off / BSIZE
  · obtain ⟨rfl, sameBlock⟩ := own
    simp only [sameBlock, and_self, ↓reduceIte, true_and]
    by_cases written : off ≤ k ∧ k < off + len
    · have position : k % BSIZE - off % BSIZE = k - off := by
        simp only [BSIZE] at *
        omega
      rw [if_pos written, copy_inside _ _ (by simp only [BSIZE] at *; omega)
        (by simp only [BSIZE] at *; omega), position]
    · rw [if_neg written, copy_outside _ _ (by simp only [BSIZE] at *; omega)]
      exact (bytes_of_held (by rw [sameBlock]; exact kept)).symm
  · have unwritten : ¬ (i = (fs.itable ip).inum ∧ off ≤ k ∧ k < off + len) := by
      rintro ⟨here, lower, upper⟩
      refine own ⟨here, ?_⟩
      simp only [BSIZE] at *
      omega
    rw [if_neg own, if_neg unwritten]

/-- A first chunk followed by the rest of the loop. -/
theorem Wrote.after_chunk {n limit tot off len : Nat} {middle after : State}
    {result : Nat × Nat} (grown : Grown sb fs ip middle)
    (confined : Confined sb fs ip (Stretch off (n - tot)) middle)
    (visited : ∀ p, Stretch off 1 p ∨ held sb middle ip ((fs.itable ip).inum, p) =
      held sb fs ip ((fs.itable ip).inum, p))
    (whole : tot + len = n ∨ (off + len) % BSIZE = 0) (fits : tot + len ≤ src.readable)
    (settled : ∀ b, fs.unlogged b = none → middle.unlogged b = none)
    (chunk : ∀ i k, Fs.bytes sb middle ip i k =
      if i = (fs.itable ip).inum ∧ off ≤ k ∧ k < off + len then src.byte (tot + (k - off))
      else Fs.bytes sb fs ip i k)
    (rest : Wrote sb middle ip src n (max limit (off + len)) (tot + len) (off + len) result after) :
    Wrote sb fs ip src n limit tot off result after := by
  obtain ⟨extent, ending, changed⟩ := rest.bytes
  have lower := rest.lower
  have upper := rest.upper
  have read := rest.read
  have reached := rest.reached
  have low := (ending.bounds upper).1
  have beyond : Confined sb middle ip (Stretch off (n - tot)) after :=
    rest.confined.weaken fun p inside => inside.widen (by omega) (by omega)
  refine ⟨grown.trans rest.grown, confined.trans grown beyond rest.grown, ?_, by omega, rest.upper,
    by omega, by omega, ?_, ?_, extent, ending.after_chunk grown.inum settled lower ?_, ?_⟩
  · intro p
    rcases rest.visited p with ahead | same
    · exact Or.inl (ahead.widen (by omega) (by omega))
    · rw [grown.inum] at same
      exact (visited p).imp (fun here => here.widen (Nat.le_refl _) (by omega)) same.trans
  · intro bn below
    exact rest.mapped bn (by omega)
  · rcases rest.boundary with stopped | finished | boundary
    · rcases whole with all | aligned
      · exact Or.inr (Or.inl (by omega))
      · have position : result.2 = off + len := by omega
        exact Or.inr (Or.inr (by rw [position]; exact aligned))
    · exact Or.inr (Or.inl finished)
    · exact Or.inr (Or.inr boundary)
  · intro k behind
    rw [chunk, if_neg fun inside => by omega]
  · intro i k
    rw [changed, chunk, grown.inum]
    by_cases own : i = (fs.itable ip).inum
    · simp only [own, true_and]
      by_cases later : off + len ≤ k ∧ k < off + len + (extent - (tot + len))
      · have whole : off ≤ k ∧ k < off + (extent - tot) := by omega
        have position : tot + len + (k - (off + len)) = tot + (k - off) := by omega
        rw [if_pos later, if_pos whole, position]
      · rw [if_neg later]
        by_cases first : off ≤ k ∧ k < off + len
        · have whole : off ≤ k ∧ k < off + (extent - tot) := by omega
          rw [if_pos first, if_pos whole]
        · have none : ¬ (off ≤ k ∧ k < off + (extent - tot)) := by omega
          rw [if_neg first, if_neg none]
    · simp only [own, false_and, ↓reduceIte]

theorem wp_copyPart {post : PUnit → State → Prop} {b position tot : Nat}
    (part : ∀ after, Overwritten fs b
        (copy (fs.disk b) position src.byte tot (src.readable - tot)) after →
      after.recorded = fs.recorded → (src.readable ≤ tot → after = fs) → post ⟨⟩ after) :
    wp (copyPart b (fs.disk b) position src tot) post stop fs := by
  unfold copyPart
  split
  · rename_i some
    rw [wp_bufWrite]
    exact part _ (overwritten_setBuffer b _) (recorded_setBuffer b _)
      fun none => absurd some (Nat.not_lt_of_le none)
  · rename_i none
    have nothing : copy (fs.disk b) position src.byte tot (src.readable - tot) = fs.disk b := by
      funext k
      exact copy_outside _ _ (by omega)
    rw [wp_pure]
    refine part fs ⟨?_, rfl, fun _ member => Or.inl member, rfl, fun _ _ before => before⟩ rfl
      fun _ => rfl
    rw [nothing, update_eq_self]

theorem Overwritten.record_iff {middle after : State} {tot b off len : Nat} {source : ByteMap}
    (overwritten : Overwritten middle b
      (copy (middle.disk b) (off % BSIZE) source tot len) after)
    (kept : held sb middle ip ((middle.itable ip).inum, blockPointer (off / BSIZE)) = some b)
    (inside : len ≤ BSIZE - off % BSIZE) (record : after.recorded = middle.recorded)
    (settled : middle.Settled) :
    after.recorded = after.disk ↔ ∀ k, tot ≤ k → k < tot + len →
      source k = bytes sb middle ip (middle.itable ip).inum (off + (k - tot)) := by
  have same : after.recorded = after.disk ↔
      copy (middle.disk b) (off % BSIZE) source tot len = middle.disk b := by
    rw [record, settled.recorded, overwritten.disk, eq_comm, update_eq_self_iff]
  have byte : ∀ j, j < len → bytes sb middle ip (middle.itable ip).inum (off + j) =
      middle.disk b (off % BSIZE + j) := by
    intro j below
    obtain ⟨sameBlock, offset⟩ := block_offset off j (by omega)
    rw [bytes_of_held (by rw [sameBlock]; exact kept), offset]
  rw [same, copy_eq_self_iff]
  constructor
  · intro agree k first last
    rw [byte _ (by omega), ← agree _ (by omega), Nat.add_sub_cancel' first]
  · intro agree j below
    rw [agree _ (by omega) (by omega), Nat.add_sub_cancel_left, byte j below]

theorem wp_writeRounds {n : Nat} (rounds : Nat) {limit tot off : Nat}
    (opened : Opened sb fs ip) (mapped : Mapped sb fs ip limit) (enough : n - tot ≤ rounds)
    (sofar : tot ≤ n) (inside : off ≤ limit) (range : off + (n - tot) ≤ MAXFILE * BSIZE)
    (room : ∀ after, Grown sb fs ip after → Confined sb fs ip (Stretch off (n - tot)) after →
      Room stop after.logged) :
    wp (writeRounds sb ip src n rounds tot off) (Wrote sb fs ip src n limit tot off) stop fs := by
  induction rounds generalizing fs limit tot off with
  | zero =>
    rw [writeRounds, wp_pure]
    exact Wrote.nothing (Extended.refl opened) Confined.refl (fun _ => Or.inr rfl) mapped inside
      sofar (.all (Nat.le_antisymm sofar (by omega)) rfl fun _ before => before)
  | succ rounds ih =>
    unfold writeRounds
    split
    · rename_i more
      rw [wp_bind]
      refine wp_bmap opened (by simp only [BSIZE] at *; omega) ?_ ?_ ?_
      · intro after extended confined
        exact room after extended.toGrown (confined.weaken fun p => Through.stretch (by omega))
      · intro after extended confined all absent
        simp only [↓reduceIte, wp_pure]
        exact Wrote.nothing extended (confined.weaken fun p => Through.stretch (by omega))
          (fun p => (confined.fresh p).imp_left (Through.stretch Nat.one_pos)) mapped inside sofar
          (.full all absent rfl extended.settled)
      · intro b middle nonzero extended confined kept
        have within : ∀ p, Through (off / BSIZE) p → Stretch off (n - tot) p :=
          fun p => Through.stretch (by omega)
        simp only [nonzero, ↓reduceIte, wp_bind, wp_bread]
        have here : held sb middle ip ((middle.itable ip).inum, blockPointer (off / BSIZE)) =
            some b.toNat := by
          rw [extended.inum]
          exact kept
        split
        · rename_i readable
          rw [wp_bind]
          refine wp_logWrite (room middle extended.toGrown (confined.weaken within)) ?_
          obtain ⟨grown, there, chunk⟩ := (overwritten_setDisk b.toNat _).write_chunk
            extended.opened here (Nat.min_le_right (n - tot) (BSIZE - off % BSIZE))
          have together := extended.toGrown.trans grown
          have both := (confined.trans extended.toGrown there grown).weaken within
          have still := mapped.extend together (grown.grows _ _ here) inside
            (Nat.min_le_right (n - tot) (BSIZE - off % BSIZE))
          have positive : 0 < BSIZE - off % BSIZE := by
            simp only [BSIZE]
            omega
          refine wp_post (ih together.opened still (by omega) (by omega) (by omega)
            (by simp only [BSIZE] at *; omega) ?_) ?_
          · intro after further beyond
            refine room after (together.trans further) (both.trans together ?_ further)
            exact beyond.weaken fun p ahead => ahead.widen (by omega) (by omega)
          intro result after rest
          have here := confined.trans extended.toGrown there grown
          refine Wrote.after_chunk together both
            (fun p => (here.fresh p).imp_left (Through.stretch Nat.one_pos)) ?_ readable ?_ ?_ rest
          · simp only [BSIZE] at *
            omega
          · intro c before
            exact setDisk_settled _ _ c (extended.settled c before)
          · intro i k
            rw [chunk, extended.inum, extended.bytes]
        · rename_i unreadable
          rw [wp_bind]
          refine wp_copyPart fun after overwritten record nothing => ?_
          rw [wp_pure]
          obtain ⟨grown, there, chunk⟩ := overwritten.write_chunk extended.opened here (by omega)
          have together := extended.toGrown.trans grown
          have both := confined.trans extended.toGrown there grown
          refine ⟨together, both.weaken within, ?_, Nat.le_refl _, sofar, Nat.le_max_left ..,
            by simp, ?_, Or.inl rfl, tot + (src.readable - tot),
            .cut b.toNat (Nat.lt_of_not_le unreadable) (grown.grows _ _ kept) rfl ?_ ?_, ?_⟩
          · rw [Nat.sub_self]
            exact fun p => (both.fresh p).imp_left (Through.stretch Nat.one_pos)
          · rw [Nat.max_eq_left inside]
            exact mapped.grown together
          · rintro c (other | none) before
            · exact overwritten.settled c other (extended.settled c before)
            · rw [nothing none]
              exact extended.settled c before
          · intro settled
            rw [overwritten.record_iff here (by omega) record
              fun c => extended.settled c (settled c), extended.inum]
            refine forall_congr' fun k => forall_congr' fun first => ?_
            rw [extended.bytes]
            exact ⟨fun agree below => agree (by omega), fun agree below => agree (by omega)⟩
          · intro i k
            rw [chunk, extended.inum, extended.bytes, Nat.add_sub_cancel_left]
    · rename_i exceeded
      rw [wp_pure]
      exact Wrote.nothing (Extended.refl opened) Confined.refl (fun _ => Or.inr rfl) mapped inside
        sofar (.all (Nat.le_antisymm sofar (by omega)) rfl fun _ before => before)

end Xv6.Fs
