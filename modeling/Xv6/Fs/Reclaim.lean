import Mathlib.Data.Finset.Card
import Xv6.Fs.BlockOwnership
import Xv6.Param

/-!
# Reclaiming orphaned inodes at boot

`ireclaim` goes over the inodes on disk before any process runs.
-/

namespace Xv6.Fs

open Command Bytes Ownership Function

/-- One round of `ireclaim`. -/
def reclaimInode (sb : Superblock) (inum : Nat) : FsM PUnit := do
  let data ← bread (IBLOCK sb inum)
  let dip := loadDinode data (inum % IPB)
  if dip.type ≠ 0 ∧ dip.nlink = 0 then
    let ip ← iget inum
    ilock sb ip
    iunlock ip
    iput sb ip
    endOp
  else pure ⟨⟩

def ireclaimRounds (sb : Superblock) (count : Nat) : FsM PUnit :=
  forRange 1 count (reclaimInode sb)

def ireclaim (sb : Superblock) : FsM PUnit :=
  ireclaimRounds sb (sb.ninodes - 1)

def Orphan (sb : Superblock) (disk : Disk) (i : Nat) : Prop :=
  0 < i ∧ i < sb.ninodes ∧ (dinodeOf sb disk i).type ≠ 0 ∧ (dinodeOf sb disk i).nlink = 0

def FitsLog (sb : Superblock) (disk : Disk) (i : Nat) : Prop :=
  ∃ groups : Finset Nat, groups.card + 1 < LOGBLOCKS ∧
    ∀ p b, refs sb disk (i, p) = some b → BBLOCK sb b ∈ groups

/-- No inode is referred to. -/
def EmptyTable (fs : State) : Prop :=
  ∀ s, s < NINODE → (fs.itable s).ref = 0

structure Booted (fs : State) : Prop where
  table : EmptyTable fs
  log : fs.logged = ∅

def Dinode.freed (d : Dinode) : Dinode := { d.truncated with type := 0 }

variable {sb : Superblock} {stop : Panic → Prop} {fs after : State} {ip inum : Nat}
  {post : PUnit → State → Prop} {disk : Disk}

theorem Opened.wp_iput_last (opened : Opened sb fs ip) (last : (fs.itable ip).ref = 1)
    (valid : (fs.itable ip).valid = true) (unlinked : (fs.itable ip).d.nlink = 0)
    (room : DrainRoom sb fs ip stop)
    (freed : ∀ empty after, Truncated sb fs ip empty → empty.logged.card < LOGBLOCKS →
      after.disk = putDinode sb empty.disk (fs.itable ip).inum (fs.itable ip).d.freed →
      after.itable = update fs.itable ip (fs.itable ip).released → post ⟨⟩ after) :
    wp (iput sb ip) post stop fs := by
  simp only [iput, wp_bind, wp_inode, last, valid, unlinked, and_self, ↓reduceIte, ifree, wp_get]
  refine wp_itrunc opened room ?_
  intro empty truncated
  have entry : empty.itable ip = { fs.itable ip with d := (fs.itable ip).d.truncated } := by
    rw [truncated.slot, update_self]
  rw [wp_setDinode, wp_iupdate_iff]
  split
  · rename_i full
    exact room empty.logged (fun m => (truncated.logged m).mp) full
  · rename_i fitting
    simp only [wp_setInode, wp_modify, State.setSlot, State.setDisk, saved,
      update_self, update_idem, entry, last, Int.sub_self]
    refine freed empty _ truncated (Nat.lt_of_not_le fitting) rfl ?_
    simp only [truncated.slot, update_idem]
    rfl

/-- What freeing one orphan does. -/
structure Frees (sb : Superblock) (fs : State) (inum : Nat) (after : State) : Prop where
  table : EmptyTable after
  sound : Sound sb after.disk (dinodeOf sb after.disk)
  dinode : dinodeOf sb after.disk inum = (dinodeOf sb fs.disk inum).freed
  dinodes : ∀ j, j < sb.ninodes → j ≠ inum → dinodeOf sb after.disk j = dinodeOf sb fs.disk j
  own : ∀ p, refs sb after.disk (inum, p) = none
  others : ∀ j p, j ≠ inum → refs sb after.disk (j, p) = refs sb fs.disk (j, p)
  data : ∀ c, IsData sb c → after.disk c = fs.disk c

def LogsFree (sb : Superblock) (disk : Disk) (inum m : Nat) : Prop :=
  m = IBLOCK sb inum ∨ ∃ p b, refs sb disk (inum, p) = some b ∧ m = BBLOCK sb b

theorem FitsLog.card_lt (fits : FitsLog sb disk inum) {blocks : Finset Nat}
    (logs : ∀ m ∈ blocks, LogsFree sb disk inum m) : blocks.card < LOGBLOCKS := by
  obtain ⟨groups, few, covered⟩ := fits
  have inside : blocks ⊆ insert (IBLOCK sb inum) groups := by
    intro m listed
    rw [Finset.mem_insert]
    rcases logs m listed with own | ⟨p, b, refers, isMap⟩
    · exact Or.inl own
    · exact Or.inr (isMap ▸ covered p b refers)
  calc blocks.card ≤ (insert (IBLOCK sb inum) groups).card := Finset.card_le_card inside
    _ ≤ groups.card + 1 := Finset.card_insert_le _ _
    _ < LOGBLOCKS := few

theorem FitsLog.of_card_lt (sound : Sound sb disk (dinodeOf sb disk)) (range : inum < sb.ninodes)
    {blocks : Finset Nat} (logs : ∀ m, m ∈ blocks ↔ LogsFree sb disk inum m)
    (few : blocks.card < LOGBLOCKS) :
    FitsLog sb disk inum := by
  have own : IBLOCK sb inum ∈ blocks := (logs _).mpr (Or.inl rfl)
  refine ⟨blocks.erase (IBLOCK sb inum), ?_, ?_⟩
  · rw [Finset.card_erase_add_one own]
    exact few
  · intro p b refers
    rw [Finset.mem_erase]
    exact ⟨(IBLOCK_ne_BBLOCK range (sound.target refers).1.2).symm, (logs _).mpr (Or.inr ⟨p, b, refers, rfl⟩)⟩

def Inode.loaded (entry : Inode) (inum : Nat) (d : Dinode) : Inode :=
  { entry with inum := inum, ref := 1, valid := true, d := d }

theorem wp_iput_orphan
    (sound : Sound sb fs.disk (dinodeOf sb fs.disk)) (table : EmptyTable fs)
    (orphan : Orphan sb fs.disk inum) {current : State} (disk : current.disk = fs.disk)
    (slot : current.itable = update fs.itable ip
      ((fs.itable ip).loaded inum (dinodeOf sb fs.disk inum)))
    (log : current.logged = ∅)
    (large : ¬ FitsLog sb fs.disk inum → stop .tooBigTransaction)
    (freed : ∀ after, Frees sb fs inum after → FitsLog sb fs.disk inum → post ⟨⟩ after) :
    wp (iput sb ip) post stop current := by
  obtain ⟨-, range, typed, unlinked⟩ := orphan
  have entry : current.itable ip = (fs.itable ip).loaded inum (dinodeOf sb fs.disk inum) := by
    rw [slot, update_self]
  have number : (current.itable ip).inum = inum := by rw [entry]; rfl
  have copy : (current.itable ip).d = dinodeOf sb fs.disk inum := by rw [entry]; rfl
  have stored : edited sb current ip = dinodeOf sb fs.disk := by
    rw [edited, number, copy, disk, update_eq_self]
  have kept : held sb current ip = refs sb fs.disk := by rw [held, refs, stored, disk]
  have opened : Opened sb current ip :=
    ⟨by rw [number]; exact range, by rw [copy]; exact typed, by rw [stored, disk]; exact sound⟩
  have listed : ∀ m, (m ∈ current.logged ∨ m = IBLOCK sb (current.itable ip).inum ∨
      ∃ p b, held sb current ip ((current.itable ip).inum, p) = some b ∧ m = BBLOCK sb b) ↔
      LogsFree sb fs.disk inum m := by
    intro m
    rw [log, number, kept, LogsFree]
    simp only [Finset.notMem_empty, false_or]
  refine opened.wp_iput_last (by rw [entry]; rfl) (by rw [entry]; rfl)
    (by rw [copy]; exact unlinked) ?_ ?_
  · intro blocks logs full
    refine large fun fits => Nat.not_lt_of_le full (fits.card_lt ?_)
    exact fun m member => (listed m).mp (logs m member)
  intro empty after truncated fitting stores released
  rw [number, copy] at stores
  have bare : ∀ p, refs sb empty.disk (inum, p) = none := by
    intro p
    apply pointers_of_zero
    rw [← number, truncated.dinode]
    exact Dinode.pointer_of_bare rfl _ p
  have same : refs sb after.disk = refs sb empty.disk := by
    rw [stores]
    exact truncated.sound.refs_putBare range rfl bare
  refine freed after ⟨?_, ?_, ?_, ?_, ?_, ?_, ?_⟩ ?_
  · intro s inside
    rw [released]
    by_cases own : s = ip
    · rw [own, update_self]
      rfl
    · rw [update_of_ne own, slot, update_of_ne own]
      exact table s inside
  · refine truncated.sound.frame (fun b inside => ?_) same
    rw [stores]
    exact used_putDinode _ range inside
  · rw [stores, dinodeOf_putDinode_same]
  · intro j inside different
    rw [stores, dinodeOf_putDinode_of_ne _ different,
      truncated.dinodes j inside (by rw [number]; exact different), disk]
  · intro p
    rw [same, bare p]
  · intro j p different
    rw [same, truncated.others j p (by rw [number]; exact different), kept]
  · intro c within
    rw [stores, putDinode_data _ range within, truncated.data c within, disk]
  · exact FitsLog.of_card_lt sound range (fun m => (truncated.logged m).trans (listed m)) fitting

theorem wp_reclaimInode_orphan
    (sound : Sound sb fs.disk (dinodeOf sb fs.disk)) (booted : Booted fs)
    (orphan : Orphan sb fs.disk inum)
    (large : ¬ FitsLog sb fs.disk inum → stop .tooBigTransaction)
    (freed : ∀ after, Frees sb fs inum after → after.logged = ∅ → FitsLog sb fs.disk inum →
      post ⟨⟩ after) :
    wp (reclaimInode sb inum) post stop fs := by
  obtain ⟨typed, unlinked⟩ := orphan.2.2
  have read : loadDinode (fs.disk (IBLOCK sb inum)) (inum % IPB) = dinodeOf sb fs.disk inum := rfl
  simp only [reclaimInode, wp_bind, wp_bread, read, typed, unlinked, ne_eq, not_false_eq_true,
    and_self, ↓reduceIte]
  refine wp_iget (fun full => absurd (booted.table 0 (by decide)) (full 0 (by decide))) ?_
  intro ip got isGot
  have unused := booted.table ip isGot.slot
  obtain ⟨free, -, slot⟩ : (fs.itable ip).ref = 0 ∧ _ ∧ _ :=
    isGot.entry.resolve_left fun found => absurd found.1 (by omega)
  have entry : got.itable ip = { fs.itable ip with inum := inum, ref := 1, valid := false } := by
    rw [slot, update_self]
  have loads : loadDinode (got.disk (IBLOCK sb inum)) (inum % IPB) = dinodeOf sb fs.disk inum := by
    rw [isGot.disk]
    rfl
  have counted : ¬ ((1 : Int) < 1) := by decide
  simp only [ilock, iunlock, wp_bind, wp_inode, wp_bread, wp_setInode, entry,
    counted, Bool.false_eq_true, ↓reduceIte, loads, typed, wp_pure, setSlot_self]
  refine wp_iput_orphan sound booted.table orphan isGot.disk ?_ ?_ large ?_
  · simp only [State.setSlot, slot, update_idem]
    rfl
  · exact isGot.logged.trans booted.log
  · intro after frees fits
    rw [wp_endOp]
    exact freed _ ⟨frees.table, frees.sound, frees.dinode, frees.dinodes, frees.own, frees.others,
      frees.data⟩ rfl fits

theorem wp_reclaimInode_other (positive : 0 < inum) (range : inum < sb.ninodes)
    (other : ¬ Orphan sb fs.disk inum) (same : post ⟨⟩ fs) :
    wp (reclaimInode sb inum) post stop fs := by
  have read : loadDinode (fs.disk (IBLOCK sb inum)) (inum % IPB) = dinodeOf sb fs.disk inum := rfl
  simp only [reclaimInode, wp_bind, wp_bread, read]
  split
  · rename_i found
    exact absurd ⟨positive, range, found.1, found.2⟩ other
  · rw [wp_pure]
    exact same

structure Progress (sb : Superblock) (fs : State) (i : Nat) (current : State) : Prop where
  booted : Booted current
  sound : Sound sb current.disk (dinodeOf sb current.disk)
  freed : ∀ j, Orphan sb fs.disk j → j < i →
    dinodeOf sb current.disk j = (dinodeOf sb fs.disk j).freed ∧
      ∀ p, refs sb current.disk (j, p) = none
  kept : ∀ j, j < sb.ninodes → ¬ (Orphan sb fs.disk j ∧ j < i) →
    dinodeOf sb current.disk j = dinodeOf sb fs.disk j ∧
      ∀ p, refs sb current.disk (j, p) = refs sb fs.disk (j, p)
  data : ∀ c, IsData sb c → current.disk c = fs.disk c
  fitted : ∀ j, Orphan sb fs.disk j → j < i → FitsLog sb fs.disk j

theorem Progress.start (sound : Sound sb fs.disk (dinodeOf sb fs.disk)) (booted : Booted fs) :
    Progress sb fs 1 fs := by
  have none : ∀ j, Orphan sb fs.disk j → ¬ j < 1 := by
    intro j orphan
    have := orphan.1
    omega
  exact ⟨booted, sound, fun j orphan below => absurd below (none j orphan),
    fun _ _ _ => ⟨rfl, fun _ => rfl⟩, fun _ _ => rfl,
    fun j orphan below => absurd below (none j orphan)⟩

section Progress

variable {i : Nat} {current : State} (progress : Progress sb fs i current)
include progress

theorem Progress.orphan_iff {j : Nat} (ahead : i ≤ j) :
    Orphan sb current.disk j ↔ Orphan sb fs.disk j := by
  by_cases range : j < sb.ninodes
  · have same := (progress.kept j range fun both => by omega).1
    rw [Orphan, Orphan, same]
  · exact ⟨fun orphan => absurd orphan.2.1 range, fun orphan => absurd orphan.2.1 range⟩

theorem Progress.fits_iff (orphan : Orphan sb fs.disk i) :
    FitsLog sb current.disk i ↔ FitsLog sb fs.disk i := by
  have same := (progress.kept i orphan.2.1 fun both => absurd both.2 (Nat.lt_irrefl i)).2
  simp only [FitsLog, same]

theorem Progress.free (orphan : Orphan sb fs.disk i) (fits : FitsLog sb fs.disk i)
    (frees : Frees sb current i after) (log : after.logged = ∅) :
    Progress sb fs (i + 1) after := by
  have before := progress.kept i orphan.2.1 fun both => absurd both.2 (Nat.lt_irrefl i)
  refine ⟨⟨frees.table, log⟩, frees.sound, ?_, ?_, fun c within => ?_, ?_⟩
  · intro j isOrphan below
    by_cases last : j = i
    · rw [last]
      exact ⟨by rw [frees.dinode, before.1], frees.own⟩
    · obtain ⟨stored, bare⟩ := progress.freed j isOrphan (by omega)
      exact ⟨by rw [frees.dinodes j isOrphan.2.1 last, stored],
        fun p => by rw [frees.others j p last, bare p]⟩
  · intro j range spared
    have different : j ≠ i := fun last => spared ⟨last ▸ orphan, by omega⟩
    obtain ⟨stored, pointers⟩ := progress.kept j range fun both => spared ⟨both.1, by omega⟩
    exact ⟨by rw [frees.dinodes j range different, stored],
      fun p => by rw [frees.others j p different, pointers p]⟩
  · rw [frees.data c within, progress.data c within]
  · intro j isOrphan below
    by_cases last : j = i
    · rw [last]
      exact fits
    · exact progress.fitted j isOrphan (by omega)

theorem Progress.skip (other : ¬ Orphan sb fs.disk i) : Progress sb fs (i + 1) current := by
  have below : ∀ j, Orphan sb fs.disk j → j < i + 1 → j < i := by
    intro j orphan bound
    have different : j ≠ i := fun last => other (last ▸ orphan)
    omega
  refine ⟨progress.booted, progress.sound,
    fun j orphan bound => progress.freed j orphan (below j orphan bound), ?_, progress.data,
    fun j orphan bound => progress.fitted j orphan (below j orphan bound)⟩
  intro j range spared
  exact progress.kept j range fun both => spared ⟨both.1, by omega⟩

end Progress

/-- The first rounds of `ireclaim`. -/
theorem wp_ireclaimRounds (sound : Sound sb fs.disk (dinodeOf sb fs.disk)) (booted : Booted fs)
    (large : ∀ i, Orphan sb fs.disk i → ¬ FitsLog sb fs.disk i → stop .tooBigTransaction)
    {count : Nat} (bounded : count ≤ sb.ninodes - 1) :
    wp (ireclaimRounds sb count) (fun _ after => Progress sb fs (1 + count) after) stop fs := by
  refine wp_forRange (Progress sb fs) stop _ 1 count fs ?_ (Progress.start sound booted)
  intro i current lower upper progress
  by_cases orphan : Orphan sb fs.disk i
  · refine wp_reclaimInode_orphan progress.sound progress.booted
      ((progress.orphan_iff (Nat.le_refl i)).mpr orphan) ?_ ?_
    · rw [progress.fits_iff orphan]
      exact large i orphan
    · intro after frees log fits
      exact progress.free orphan ((progress.fits_iff orphan).mp fits) frees log
  · exact wp_reclaimInode_other (by omega) (by omega)
      (fun now => orphan ((progress.orphan_iff (Nat.le_refl i)).mp now)) (progress.skip orphan)

theorem Progress.left {i : Nat} {current : State} (progress : Progress sb fs i current) {j : Nat}
    (orphan : Orphan sb current.disk j) :
    Orphan sb fs.disk j ∧ ∀ p, refs sb current.disk (j, p) = refs sb fs.disk (j, p) := by
  have spared : ¬ (Orphan sb fs.disk j ∧ j < i) := by
    rintro ⟨was, below⟩
    apply orphan.2.2.1
    rw [(progress.freed j was below).1]
    rfl
  obtain ⟨stored, pointers⟩ := progress.kept j orphan.2.1 spared
  rw [Orphan, stored] at orphan
  exact ⟨orphan, pointers⟩

theorem Progress.resume {i n : Nat} {stopped rebooted : State}
    (progress : Progress sb fs i stopped) (disk : rebooted.disk = stopped.disk)
    (further : Progress sb rebooted n after) (longer : i ≤ n) : Progress sb fs n after := by
  have still : ∀ j, Orphan sb fs.disk j → ¬ j < i → Orphan sb rebooted.disk j := by
    intro j orphan ahead
    rw [disk]
    exact (progress.orphan_iff (Nat.le_of_not_lt ahead)).mpr orphan
  refine ⟨further.booted, further.sound, ?_, ?_, fun c within => ?_, ?_⟩
  · intro j orphan below
    by_cases done : j < i
    · obtain ⟨stored, bare⟩ := progress.freed j orphan done
      have gone : ¬ Orphan sb rebooted.disk j := by
        intro still
        apply still.2.2.1
        rw [disk, stored]
        rfl
      obtain ⟨same, pointers⟩ := further.kept j orphan.2.1 fun both => gone both.1
      rw [disk] at same pointers
      exact ⟨by rw [same, stored], fun p => by rw [pointers p, bare p]⟩
    · have same := (progress.kept j orphan.2.1 fun both => done both.2).1
      obtain ⟨stored, bare⟩ := further.freed j (still j orphan done) below
      exact ⟨by rw [stored, disk, same], bare⟩
  · intro j range spared
    obtain ⟨same, pointers⟩ := progress.kept j range fun both => spared ⟨both.1, by omega⟩
    have other : ¬ (Orphan sb rebooted.disk j ∧ j < n) := by
      rintro ⟨orphan, below⟩
      rw [disk] at orphan
      exact spared ⟨(progress.left orphan).1, below⟩
    obtain ⟨same', pointers'⟩ := further.kept j range other
    rw [disk] at same' pointers'
    exact ⟨by rw [same', same], fun p => by rw [pointers' p, pointers p]⟩
  · rw [further.data c within, disk, progress.data c within]
  · intro j orphan below
    by_cases done : j < i
    · exact progress.fitted j orphan done
    · have same := (progress.kept j orphan.2.1 fun both => done both.2).2
      have fits := further.fitted j (still j orphan done) below
      rw [disk] at fits
      simpa only [FitsLog, same] using fits

structure SameFs (sb : Superblock) (left right : Disk) : Prop where
  dinodes : ∀ j, j < sb.ninodes → dinodeOf sb left j = dinodeOf sb right j
  marks : ∀ b, b < sb.size → used sb left b = used sb right b
  data : ∀ c, IsData sb c → left c = right c

/-- Marks follow pointers. -/
theorem Sound.used_iff (sound : Sound sb disk (dinodeOf sb disk)) {b : Nat} (data : IsData sb b) :
    used sb disk b = true ↔ ∃ place, refs sb disk place = some b :=
  ⟨fun taken => sound.books.covered b data taken,
    fun found => found.elim fun place refers => (sound.books.inside place b refers).2⟩

theorem Progress.sameFs {n : Nat} {left right : State} (one : Progress sb fs n left)
    (two : Progress sb fs n right) : SameFs sb left.disk right.disk := by
  have same : ∀ j, j < sb.ninodes → dinodeOf sb left.disk j = dinodeOf sb right.disk j := by
    intro j range
    by_cases freed : Orphan sb fs.disk j ∧ j < n
    · rw [(one.freed j freed.1 freed.2).1, (two.freed j freed.1 freed.2).1]
    · rw [(one.kept j range freed).1, (two.kept j range freed).1]
  have data : ∀ c, IsData sb c → left.disk c = right.disk c :=
    fun c within => by rw [one.data c within, two.data c within]
  have pointers : refs sb left.disk = refs sb right.disk :=
    pointers_frame same fun i t table => data t (two.sound.target table).1
  refine ⟨same, fun b inside => ?_, data⟩
  by_cases within : sb.dataStart ≤ b
  · rw [Bool.eq_iff_iff, one.sound.used_iff ⟨within, inside⟩, two.sound.used_iff ⟨within, inside⟩,
      pointers]
  · rw [one.sound.reserved b (by omega), two.sound.reserved b (by omega)]

structure Reclaimed (sb : Superblock) (before after : State) : Prop where
  linked : ∀ j, 0 < j → j < sb.ninodes → (dinodeOf sb after.disk j).type ≠ 0 →
    (dinodeOf sb after.disk j).nlink ≠ 0
  freed : ∀ j, Orphan sb before.disk j → (dinodeOf sb after.disk j).type = 0 ∧
    ∀ p b, refs sb before.disk (j, p) = some b → used sb after.disk b = false
  inodes : ∀ j, j < sb.ninodes → ¬ Orphan sb before.disk j →
    dinodeOf sb after.disk j = dinodeOf sb before.disk j
  pointers : ∀ j p, ¬ Orphan sb before.disk j →
    refs sb after.disk (j, p) = refs sb before.disk (j, p)
  contents : ∀ j k, ¬ Orphan sb before.disk j →
    fileByte sb after.disk j k = fileByte sb before.disk j k
  marks : ∀ b, b < sb.size →
    (∀ j p, Orphan sb before.disk j → refs sb before.disk (j, p) ≠ some b) →
    used sb after.disk b = used sb before.disk b
  table : EmptyTable after
  owned : OwnedOnce sb after.disk

theorem refs_out_of_range {j : Nat} (out : ¬ j < sb.ninodes) (p : Pointer) :
    refs sb disk (j, p) = none := by
  simp [refs, pointers, Live, out]

theorem Progress.reclaimed {n : Nat} (sound : Sound sb fs.disk (dinodeOf sb fs.disk))
    (progress : Progress sb fs n after) (all : sb.ninodes ≤ n) : Reclaimed sb fs after := by
  have kept : ∀ j p, ¬ Orphan sb fs.disk j →
      refs sb after.disk (j, p) = refs sb fs.disk (j, p) := by
    intro j p other
    by_cases range : j < sb.ninodes
    · exact (progress.kept j range fun both => other both.1).2 p
    · rw [refs_out_of_range range, refs_out_of_range range]
  have gone : ∀ j, Orphan sb fs.disk j → ∀ p, refs sb after.disk (j, p) = none :=
    fun j orphan => (progress.freed j orphan (Nat.lt_of_lt_of_le orphan.2.1 all)).2
  -- A pointer that is left was there before and is no orphan's.
  have was : ∀ j p b, refs sb after.disk (j, p) = some b →
      ¬ Orphan sb fs.disk j ∧ refs sb fs.disk (j, p) = some b := by
    intro j p b refers
    have other : ¬ Orphan sb fs.disk j := by
      intro orphan
      rw [gone j orphan p] at refers
      exact nomatch refers
    exact ⟨other, by rw [← kept j p other, refers]⟩
  refine ⟨?_, ?_, fun j range other => (progress.kept j range fun both => other both.1).1, kept, ?_,
    ?_, progress.booted.table, sound_iff_ownedOnce.mp progress.sound⟩
  · intro j positive range typed unlinked
    have orphan := (progress.left ⟨positive, range, typed, unlinked⟩).1
    rw [(progress.freed j orphan (by omega)).1] at typed
    exact typed rfl
  · intro j orphan
    refine ⟨by rw [(progress.freed j orphan (Nat.lt_of_lt_of_le orphan.2.1 all)).1]; rfl, ?_⟩
    intro p b refers
    rw [Bool.eq_false_iff]
    intro taken
    obtain ⟨⟨j', p'⟩, refers'⟩ := (progress.sound.used_iff (sound.target refers).1).mp taken
    obtain ⟨other, before⟩ := was j' p' b refers'
    have same := sound.books.single _ _ b before refers
    rw [Prod.mk.injEq] at same
    exact other (same.1 ▸ orphan)
  · intro j k other
    have look : pointers sb after.disk (dinodeOf sb after.disk) (j, blockPointer (k / BSIZE)) =
        pointers sb fs.disk (dinodeOf sb fs.disk) (j, blockPointer (k / BSIZE)) := kept j _ other
    simp only [fileByte, byteOf, look]
    cases old : pointers sb fs.disk (dinodeOf sb fs.disk) (j, blockPointer (k / BSIZE)) with
    | none => rfl
    | some b => simp only [progress.data b (sound.target old).1]
  · intro b inside spared
    by_cases within : sb.dataStart ≤ b
    · have data : IsData sb b := ⟨within, inside⟩
      rw [Bool.eq_iff_iff, progress.sound.used_iff data, sound.used_iff data]
      constructor
      · rintro ⟨⟨j, p⟩, refers⟩
        exact ⟨(j, p), (was j p b refers).2⟩
      · rintro ⟨⟨j, p⟩, refers⟩
        have other : ¬ Orphan sb fs.disk j := fun orphan => spared j p orphan refers
        exact ⟨(j, p), by rw [kept j p other, refers]⟩
    · rw [progress.sound.reserved b (by omega), sound.reserved b (by omega)]

def Reclaims (sb : Superblock) (fs : State) : Prop :=
  ∃ final, (ireclaim sb).run fs = .ok (⟨⟩, final) ∧ Reclaimed sb fs final ∧
    ∀ count, count ≤ sb.ninodes - 1 →
      ∃ stopped, (ireclaimRounds sb count).run fs = .ok (⟨⟩, stopped) ∧
        ∀ rebooted, rebooted.disk = stopped.disk → Booted rebooted →
          ∃ again, (ireclaim sb).run rebooted = .ok (⟨⟩, again) ∧ EmptyTable again ∧
            SameFs sb again.disk final.disk

theorem reclaims_of_fits (sound : Sound sb fs.disk (dinodeOf sb fs.disk)) (booted : Booted fs)
    (fits : ∀ i, Orphan sb fs.disk i → FitsLog sb fs.disk i) : Reclaims sb fs := by
  obtain ⟨_, final, ran, progress⟩ := wp_total (wp_ireclaimRounds sound booted
    (fun i orphan large => large (fits i orphan)) (Nat.le_refl (sb.ninodes - 1)))
  refine ⟨final, ran, progress.reclaimed sound (by omega), ?_⟩
  intro count bounded
  obtain ⟨_, stopped, ranPart, part⟩ := wp_total (wp_ireclaimRounds sound booted
    (fun i orphan large => large (fits i orphan)) bounded)
  refine ⟨stopped, ranPart, ?_⟩
  intro rebooted disk bootedThen
  have soundThen : Sound sb rebooted.disk (dinodeOf sb rebooted.disk) := by
    rw [disk]
    exact part.sound
  have fitsThen : ∀ i, Orphan sb rebooted.disk i → FitsLog sb rebooted.disk i := by
    intro i orphan
    rw [disk] at orphan ⊢
    obtain ⟨was, same⟩ := part.left orphan
    obtain ⟨groups, few, covered⟩ := fits i was
    exact ⟨groups, few, fun p b refers => covered p b (by rw [← same p, refers])⟩
  obtain ⟨_, again, ranAgain, further⟩ := wp_total (wp_ireclaimRounds soundThen bootedThen
    (fun i orphan large => large (fitsThen i orphan)) (Nat.le_refl (sb.ninodes - 1)))
  have whole := part.resume disk further (by omega)
  exact ⟨again, ranAgain, whole.booted.table, whole.sameFs progress⟩

theorem ireclaim_stops (sound : Sound sb fs.disk (dinodeOf sb fs.disk)) (booted : Booted fs)
    {i : Nat} (orphan : Orphan sb fs.disk i) (large : ¬ FitsLog sb fs.disk i) :
    (ireclaim sb).run fs = .error .tooBigTransaction := by
  have law : wp (ireclaim sb) (fun _ _ => False) (· = .tooBigTransaction) fs := by
    refine wp_mono (wp_ireclaimRounds sound booted (fun _ _ _ => rfl) (Nat.le_refl _)) ?_
      fun _ => Eq.symm
    intro _ after progress
    have range := orphan.2.1
    exact large (progress.fitted i orphan (by omega))
  obtain ⟨reason, stopped, rfl⟩ := wp_stops law
  exact stopped

/-- On every image whose blocks are owned once, a boot reclaims exactly the orphans, also
after a crash, if and only if every orphan fits the log. Otherwise it stops the
kernel. -/
theorem ireclaim_frees_orphans (sb : Superblock) (fs : State) (owned : OwnedOnce sb fs.disk)
    (booted : Booted fs) :
    (Reclaims sb fs ↔ ∀ i, Orphan sb fs.disk i → FitsLog sb fs.disk i) ∧
      ((∃ i, Orphan sb fs.disk i ∧ ¬ FitsLog sb fs.disk i) →
        (ireclaim sb).run fs = .error .tooBigTransaction) := by
  have sound := sound_iff_ownedOnce.mpr owned
  refine ⟨⟨?_, reclaims_of_fits sound booted⟩, ?_⟩
  · rintro ⟨final, ran, -⟩ i orphan
    by_contra large
    rw [ireclaim_stops sound booted orphan large] at ran
    exact nomatch ran
  · rintro ⟨i, orphan, large⟩
    exact ireclaim_stops sound booted orphan large

/-! ## A file spread over a large disk -/

def spreadSuperblock : Superblock :=
  { blankSuperblock with
    size := 32 * BPB
    nlog := 31
    inodestart := 33
    bmapstart := 34
    log := by decide
    inodes := by decide
    bitmap := by decide
    counted := by decide }

def spreadBlock (group : Nat) : Nat := group * BPB + 100

def spreadInode (n : Nat) : Dinode :=
  { Dinode.zero with
    type := T_FILE
    addrs := fun k => if (k : Nat) < n then UInt32.ofNat (spreadBlock k) else 0 }

def spreadTable (n : Nat) : Block :=
  storeWords (fun _ => 0) 0 4
    (fun j => if NDIRECT + 1 + j < n then spreadBlock (NDIRECT + 1 + j) else 0) NINDIRECT

def spreadDisk (n : Nat) : Disk :=
  markAll spreadSuperblock
    (putDinode spreadSuperblock
      (update (fun _ _ => 0) (spreadBlock NDIRECT) (spreadTable n)) ROOTINO
      (spreadInode n))
    (List.range spreadSuperblock.dataStart ++ (List.range n).map spreadBlock)

def Pointer.position : Pointer → Nat
  | .direct k => k
  | .table => NDIRECT
  | .entry j => NDIRECT + 1 + j

def Pointer.Fits : Pointer → Prop
  | .direct k => k < NDIRECT
  | .table => True
  | .entry j => j < NINDIRECT

theorem Pointer.position_injective {p q : Pointer} (left : p.Fits) (right : q.Fits)
    (same : p.position = q.position) : p = q := by
  cases p <;> cases q <;>
    simp only [Pointer.Fits, Pointer.position, NDIRECT, Pointer.direct.injEq, Pointer.entry.injEq,
      reduceCtorEq] at left right same ⊢ <;> omega

theorem Pointer.exists_position {g : Nat} (bound : g < 13 + NINDIRECT) :
    ∃ p : Pointer, p.Fits ∧ p.position = g := by
  by_cases direct : g < NDIRECT
  · exact ⟨.direct g, direct, rfl⟩
  · by_cases table : g = NDIRECT
    · exact ⟨.table, trivial, table.symm⟩
    · refine ⟨.entry (g - 13), ?_, ?_⟩
      · simp only [Pointer.Fits, NDIRECT] at direct table ⊢
        omega
      · simp only [Pointer.position, NDIRECT] at direct table ⊢
        omega

theorem spreadBlock_eq (g : Nat) : spreadBlock g = g * 8192 + 100 := rfl

theorem spreadSuperblock_size : spreadSuperblock.size = 262144 := rfl

theorem spreadSuperblock_dataStart : spreadSuperblock.dataStart = 67 := by decide

theorem spreadBlock_data {g : Nat} (below : g ≤ 31) : IsData spreadSuperblock (spreadBlock g) := by
  rw [IsData, spreadSuperblock_dataStart, spreadSuperblock_size, spreadBlock_eq]
  omega

theorem spreadBlock_bitmap (g : Nat) : BBLOCK spreadSuperblock (spreadBlock g) = g + 34 := by
  have group : (g * 8192 + 100) / 8192 = g := by omega
  exact congrArg (· + 34) group

theorem spreadBlock_toNat {g : Nat} (below : g ≤ 31) :
    (UInt32.ofNat (spreadBlock g)).toNat = spreadBlock g :=
  (spreadBlock_data below).small.1

theorem used_spreadDisk {n b : Nat} (inside : b < spreadSuperblock.size) :
    used spreadSuperblock (spreadDisk n) b = true ↔
      b < spreadSuperblock.dataStart ∨ ∃ g, g < n ∧ spreadBlock g = b := by
  have data : IsData spreadSuperblock (spreadBlock NDIRECT) := spreadBlock_data (by decide)
  have blank : used spreadSuperblock (fun _ _ => 0) b = false := by simp [used, bitSet]
  rw [spreadDisk, used_markAll, used_putDinode _ (by decide) inside,
    used_update_data _ data inside, blank]
  simp

section Spread

variable {n : Nat} (groups : n ≤ 31)
include groups

theorem spread_bound {g : Nat} (below : g < n) : g < 13 + NINDIRECT :=
  Nat.lt_of_lt_of_le (Nat.lt_of_lt_of_le below groups) (by decide)

theorem spread_inside (b : Nat)
    (listed : b ∈ List.range spreadSuperblock.dataStart ++ (List.range n).map spreadBlock) :
    b < spreadSuperblock.size := by
  rw [List.mem_append, List.mem_range, List.mem_map] at listed
  rcases listed with low | ⟨g, below, rfl⟩
  · exact Nat.lt_trans low (by decide)
  · rw [List.mem_range] at below
    exact (spreadBlock_data (by omega)).2

theorem dinodeOf_spreadDisk {i : Nat} (range : i < spreadSuperblock.ninodes) :
    dinodeOf spreadSuperblock (spreadDisk n) i =
      if i = ROOTINO then spreadInode n else Dinode.zero := by
  rw [spreadDisk, dinodeOf_markAll _ (spread_inside groups) range]
  by_cases own : i = ROOTINO
  · rw [own, dinodeOf_putDinode_same, if_pos rfl]
  · rw [dinodeOf_putDinode_of_ne _ own, dinodeOf_update_data _ (spreadBlock_data (by decide)) range,
      if_neg own]
    exact loadDinode_zero _

theorem spreadDisk_table : spreadDisk n (spreadBlock NDIRECT) = spreadTable n := by
  have data : IsData spreadSuperblock (spreadBlock NDIRECT) := spreadBlock_data (by decide)
  rw [spreadDisk, markAll_data _ (spread_inside groups) data, putDinode_data _ (by decide) data,
    update_self]

theorem spread_word {j : Nat} (entry : j < NINDIRECT) :
    (loadUint (spreadTable n) (4 * j)).toNat =
      if NDIRECT + 1 + j < n then spreadBlock (NDIRECT + 1 + j) else 0 := by
  have word := load_storeWords_inside (fun _ => 0) 0 4
    (fun j => if NDIRECT + 1 + j < n then spreadBlock (NDIRECT + 1 + j) else 0) entry
  rw [Nat.zero_add, ← spreadTable] at word
  rw [loadUint, word]
  split
  · rename_i below
    rw [Nat.mod_eq_of_lt (Nat.lt_trans (spreadBlock_data (by omega)).2 (by decide))]
    exact spreadBlock_toNat (by omega)
  · rfl

theorem spread_addr {k : Nat} (position : k ≤ NDIRECT) :
    ((spreadInode n).addr k).toNat = if k < n then spreadBlock k else 0 := by
  have value : ((Fin.ofNat (NDIRECT + 1) k : Fin (NDIRECT + 1)) : Nat) = k := by
    rw [Fin.val_ofNat]
    exact Nat.mod_eq_of_lt (by omega)
  simp only [Dinode.addr, spreadInode, value]
  split
  · exact spreadBlock_toNat (by omega)
  · rfl

theorem spread_pointer {p : Pointer} (fits : p.Fits) :
    (spreadInode n).pointer (spreadDisk n) p =
      if p.position < n then spreadBlock p.position else 0 := by
  cases p with
  | direct k =>
    have direct : k < NDIRECT := fits
    rw [Dinode.pointer, if_pos direct]
    exact spread_addr groups (Nat.le_of_lt direct)
  | table => exact spread_addr groups (Nat.le_refl _)
  | entry j =>
    have table := spread_addr groups (Nat.le_refl NDIRECT)
    by_cases present : NDIRECT < n
    · rw [if_pos present] at table
      have nonzero : (spreadInode n).addr NDIRECT ≠ 0 := by
        intro zero
        rw [zero] at table
        exact absurd table (by decide)
      rw [Dinode.pointer, if_pos ⟨nonzero, fits⟩, table, spreadDisk_table groups]
      exact spread_word groups fits
    · rw [if_neg present] at table
      have zero : (spreadInode n).addr NDIRECT = 0 := UInt32.toNat.inj table
      have beyond : ¬ (Pointer.entry j).position < n := by
        simp only [Pointer.position]
        omega
      rw [Dinode.pointer, if_neg fun both => both.1 zero, if_neg beyond]

theorem spread_refs {i b : Nat} {p : Pointer} :
    refs spreadSuperblock (spreadDisk n) (i, p) = some b ↔
      i = ROOTINO ∧ p.Fits ∧ p.position < n ∧ b = spreadBlock p.position := by
  rw [refs, pointers_eq_some]
  constructor
  · rintro ⟨⟨range, typed⟩, target, nonzero⟩
    have own : i = ROOTINO := by
      by_contra other
      rw [dinodeOf_spreadDisk groups range, if_neg other] at typed
      exact typed rfl
    rw [dinodeOf_spreadDisk groups range, if_pos own] at target
    have fits : p.Fits := by
      by_contra unfit
      cases p <;> simp only [Pointer.Fits, not_true_eq_false] at unfit
      · rw [Dinode.pointer, if_neg unfit] at target
        exact nonzero target.symm
      · rw [Dinode.pointer, if_neg fun both => unfit both.2] at target
        exact nonzero target.symm
    rw [spread_pointer groups fits] at target
    split at target
    · rename_i below
      exact ⟨own, fits, below, target.symm⟩
    · exact absurd target.symm nonzero
  · rintro ⟨rfl, fits, below, rfl⟩
    have range : ROOTINO < spreadSuperblock.ninodes := by decide
    rw [Live, dinodeOf_spreadDisk groups range, if_pos rfl, spread_pointer groups fits,
      if_pos below]
    have typed : T_FILE ≠ 0 := by decide
    exact ⟨⟨range, typed⟩, rfl, (spreadBlock_data (by omega)).small.2⟩

theorem spread_ownedOnce : OwnedOnce spreadSuperblock (spreadDisk n) := by
  apply sound_iff_ownedOnce.mp
  refine ⟨fun b below => (used_spreadDisk (Nat.lt_trans below (by decide))).mpr (Or.inl below),
    ?_, ?_, ?_⟩
  · rintro ⟨i, p⟩ b refers
    obtain ⟨-, -, below, rfl⟩ := (spread_refs groups).mp refers
    have data := spreadBlock_data (show p.position ≤ 31 by omega)
    exact ⟨data, (used_spreadDisk data.2).mpr (Or.inr ⟨_, below, rfl⟩)⟩
  · rintro ⟨i, p⟩ ⟨j, q⟩ b left right
    obtain ⟨rfl, fits, -, same⟩ := (spread_refs groups).mp left
    obtain ⟨rfl, fits', -, same'⟩ := (spread_refs groups).mp right
    have position : p.position = q.position := by
      rw [spreadBlock_eq] at same same'
      omega
    rw [Pointer.position_injective fits fits' position]
  · intro b data taken
    rcases (used_spreadDisk data.2).mp taken with low | ⟨g, below, rfl⟩
    · exact absurd data.1 (Nat.not_le_of_lt low)
    · obtain ⟨p, fits, rfl⟩ := Pointer.exists_position (spread_bound groups below)
      exact ⟨(ROOTINO, p), (spread_refs groups).mpr ⟨rfl, fits, below, rfl⟩⟩

theorem spread_fits (fits : FitsLog spreadSuperblock (spreadDisk n) ROOTINO) :
    n + 1 < LOGBLOCKS := by
  obtain ⟨blocks, few, covered⟩ := fits
  have listed : (Finset.range n).image (· + 34) ⊆ blocks := by
    intro m member
    obtain ⟨g, below, rfl⟩ := Finset.mem_image.mp member
    rw [Finset.mem_range] at below
    obtain ⟨p, fits, rfl⟩ := Pointer.exists_position (spread_bound groups below)
    rw [← spreadBlock_bitmap]
    exact covered p _ ((spread_refs groups).mpr ⟨rfl, fits, below, rfl⟩)
  have count : ((Finset.range n).image (· + 34)).card = n := by
    rw [Finset.card_image_of_injective _ (add_left_injective 34), Finset.card_range]
  have many := Finset.card_le_card listed
  omega

theorem spread_orphan {i : Nat} :
    Orphan spreadSuperblock (spreadDisk n) i ↔ i = ROOTINO := by
  constructor
  · rintro ⟨-, range, typed, -⟩
    by_contra other
    rw [dinodeOf_spreadDisk groups range, if_neg other] at typed
    exact typed rfl
  · rintro rfl
    have range : ROOTINO < spreadSuperblock.ninodes := by decide
    have typed : T_FILE ≠ 0 := by decide
    rw [Orphan, dinodeOf_spreadDisk groups range, if_pos rfl]
    exact ⟨by decide, range, typed, rfl⟩

end Spread

def spreadState (n : Nat) : State where
  disk := spreadDisk n
  itable := fun _ => ⟨0, 0, false, Dinode.zero⟩
  logged := ∅
  freedInodes := []

/-- A file of two blocks fits the log, so a boot frees it, also after a boot that was cut short. -/
theorem ireclaim_frees_two_blocks :
    Orphan spreadSuperblock (spreadState 2).disk ROOTINO ∧
      Reclaims spreadSuperblock (spreadState 2) := by
  refine ⟨(spread_orphan (by decide)).mpr rfl, (ireclaim_frees_orphans spreadSuperblock
    (spreadState 2) (spread_ownedOnce (by decide)) ⟨fun _ _ => rfl, rfl⟩).1.mpr ?_⟩
  intro i orphan
  rw [(spread_orphan (by decide)).mp orphan]
  refine ⟨{34, 35}, by decide, ?_⟩
  intro p b refers
  obtain ⟨-, -, below, rfl⟩ := (spread_refs (by decide)).mp refers
  rw [spreadBlock_bitmap, Finset.mem_insert, Finset.mem_singleton]
  omega

theorem ireclaim_spread {n : Nat} (groups : n ≤ 31) (many : LOGBLOCKS ≤ n + 1) :
    (ireclaim spreadSuperblock).run (spreadState n) = .error .tooBigTransaction :=
  ireclaim_stops (sound_iff_ownedOnce.mpr (spread_ownedOnce groups)) ⟨fun _ _ => rfl, rfl⟩
    ((spread_orphan groups).mpr rfl) fun fits => Nat.not_le_of_lt (spread_fits groups fits) many

/-- Twenty-nine blocks, each under another block of the free map, do not fit the log together with
the block of the inode: every boot stops the kernel, and the orphan stays. -/
theorem spread_orphan_stops_boot :
    OwnedOnce spreadSuperblock (spreadState 29).disk ∧ Booted (spreadState 29) ∧
      Orphan spreadSuperblock (spreadState 29).disk ROOTINO ∧
      (ireclaim spreadSuperblock).run (spreadState 29) = .error .tooBigTransaction :=
  ⟨spread_ownedOnce (by decide), ⟨fun _ _ => rfl, rfl⟩, (spread_orphan (by decide)).mpr rfl,
    ireclaim_spread (by decide) (by decide)⟩

end Xv6.Fs
