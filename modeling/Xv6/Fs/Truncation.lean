import Xv6.Fs.Mapping

/-!
# Truncating an inode

The law of `itrunc`.
-/

namespace Xv6.Fs

open Command Bytes Ownership Function

variable {sb : Superblock} {stop : Panic → Prop} {fs : State} {ip : Nat}

def Dinode.clearBelow (d : Dinode) (i : Nat) : Dinode :=
  { d with addrs := fun k => if (k : Nat) < i then 0 else d.addrs k }

theorem Dinode.addr_clearBelow (d : Dinode) {i k : Nat} (position : k ≤ NDIRECT) :
    (d.clearBelow i).addr k = if k < i then 0 else d.addr k := by
  have value : ((Fin.ofNat (NDIRECT + 1) k : Fin (NDIRECT + 1)) : Nat) = k := by
    rw [Fin.val_ofNat]
    exact Nat.mod_eq_of_lt (by omega)
  simp only [Dinode.addr, Dinode.clearBelow, value]

@[simp] theorem Dinode.clearBelow_zero (d : Dinode) : d.clearBelow 0 = d := by
  simp [Dinode.clearBelow]

theorem Dinode.clearBelow_succ (d : Dinode) {i : Nat} (position : i ≤ NDIRECT) :
    (d.clearBelow i).setAddr i 0 = d.clearBelow (i + 1) := by
  have value : ((Fin.ofNat (NDIRECT + 1) i : Fin (NDIRECT + 1)) : Nat) = i := by
    rw [Fin.val_ofNat]
    exact Nat.mod_eq_of_lt (by omega)
  simp only [Dinode.clearBelow, Dinode.setAddr, Dinode.mk.injEq, true_and]
  funext k
  by_cases same : k = Fin.ofNat (NDIRECT + 1) i
  · subst same
    rw [update_self, if_pos (by rw [value]; omega)]
  · have different : (k : Nat) ≠ i := fun equal => same (Fin.ext (equal.trans value.symm))
    simp only [update_of_ne same]
    split <;> split <;> first | rfl | omega

theorem Dinode.clearBelow_succ_of_zero (d : Dinode) {i : Nat} (position : i ≤ NDIRECT)
    (zero : d.addr i = 0) : d.clearBelow (i + 1) = d.clearBelow i := by
  have value : ((Fin.ofNat (NDIRECT + 1) i : Fin (NDIRECT + 1)) : Nat) = i := by
    rw [Fin.val_ofNat]
    exact Nat.mod_eq_of_lt (by omega)
  simp only [Dinode.clearBelow, Dinode.mk.injEq, true_and]
  funext k
  by_cases same : (k : Nat) = i
  · have here : k = Fin.ofNat (NDIRECT + 1) i := Fin.ext (same.trans value.symm)
    have none : d.addrs k = 0 := by
      rw [here]
      exact zero
    simp [none]
  · split <;> split <;> first | rfl | omega

def Dinode.truncated (d : Dinode) : Dinode := { d with size := 0, addrs := fun _ => 0 }

theorem Dinode.clearBelow_all (d : Dinode) :
    { d.clearBelow (NDIRECT + 1) with size := 0 } = d.truncated := by
  have all : ∀ k : Fin (NDIRECT + 1), (k : Nat) < NDIRECT + 1 := fun k => k.isLt
  simp only [Dinode.clearBelow, Dinode.truncated, all, ↓reduceIte]

theorem Dinode.pointer_of_bare {d : Dinode} (bare : d.addrs = fun _ => 0) (disk : Disk)
    (p : Pointer) : d.pointer disk p = 0 := by
  cases p <;> simp [Dinode.pointer, Dinode.addr, bare]

def Pointer.turn : Pointer → Nat
  | .direct k => k
  | .entry j => NDIRECT + j
  | .table => NDIRECT + NINDIRECT

def Pointer.InRange : Pointer → Prop
  | .direct k => k < NDIRECT
  | .entry j => j < NINDIRECT
  | .table => True

theorem held_inRange {x b : Nat} {p : Pointer} (holds : held sb fs ip (x, p) = some b) :
    p.InRange := by
  obtain ⟨-, target, nonzero⟩ := pointers_eq_some.mp holds
  by_contra outside
  apply nonzero
  rw [← target]
  cases p <;> simp only [Pointer.InRange, not_true_eq_false] at outside <;>
    simp only [Dinode.pointer, outside, and_false, ↓reduceIte]

theorem Pointer.turn_injective {p q : Pointer} (range : p.InRange) (range' : q.InRange)
    (same : p.turn = q.turn) : p = q := by
  cases p <;> cases q <;> simp only [Pointer.InRange, Pointer.turn] at * <;> grind

theorem Pointer.InRange.turn_le {p : Pointer} (range : p.InRange) :
    p.turn ≤ NDIRECT + NINDIRECT := by
  cases p <;> simp only [Pointer.InRange, Pointer.turn] at * <;> omega

def withoutFirst (kept : Nat × Pointer → Option Nat) (x n : Nat) (place : Nat × Pointer) :
    Option Nat :=
  if place.1 = x ∧ place.2.turn < n then none else kept place

theorem withoutFirst_congr {kept : Nat × Pointer → Option Nat} {x n m i : Nat} {p : Pointer}
    (same : ∀ b, i = x → kept (x, p) = some b → (p.turn < m ↔ p.turn < n)) :
    withoutFirst kept x m (i, p) = withoutFirst kept x n (i, p) := by
  by_cases own : i = x
  · subst own
    cases holds : kept (i, p) with
    | none => simp only [withoutFirst, holds, ite_self]
    | some b => simp only [withoutFirst, same b rfl holds]
  · simp only [withoutFirst, own, false_and]

structure Draining (sb : Superblock) (fs : State) (ip n : Nat) (d : Dinode) (current : State) :
    Prop where
  slot : current.itable = update fs.itable ip { fs.itable ip with d := d }
  data : ∀ c, IsData sb c → current.disk c = fs.disk c
  dinodes : ∀ i, i < sb.ninodes → dinodeOf sb current.disk i = dinodeOf sb fs.disk i
  reserved : ∀ b, b < sb.dataStart → used sb current.disk b = true
  books : Balanced (IsData sb) (fun b => used sb current.disk b = true)
    (withoutFirst (held sb fs ip) (fs.itable ip).inum n)
  logged : ∀ m, m ∈ current.logged ↔ m ∈ fs.logged ∨
    ∃ p b, p.turn < n ∧ held sb fs ip ((fs.itable ip).inum, p) = some b ∧ m = BBLOCK sb b
  history : current.freedInodes = fs.freedInodes

def DrainRoom (sb : Superblock) (fs : State) (ip : Nat) (stop : Panic → Prop) : Prop :=
  ∀ blocks : Finset Nat, (∀ m ∈ blocks, m ∈ fs.logged ∨ m = IBLOCK sb (fs.itable ip).inum ∨
    ∃ p b, held sb fs ip ((fs.itable ip).inum, p) = some b ∧ m = BBLOCK sb b) → Room stop blocks

section Draining

variable {n : Nat} {d : Dinode} {current : State} {p : Pointer}

theorem Draining.copy (draining : Draining sb fs ip n d current) :
    current.itable ip = { fs.itable ip with d := d } := by
  rw [draining.slot, update_self]

theorem Draining.skip (draining : Draining sb fs ip n d current) {m : Nat}
    (same : ∀ p b, held sb fs ip ((fs.itable ip).inum, p) = some b →
      (p.turn < m ↔ p.turn < n)) : Draining sb fs ip m d current := by
  refine ⟨draining.slot, draining.data, draining.dinodes, draining.reserved,
    draining.books.congr (fun _ _ => Iff.rfl) ?_, fun block => ?_, draining.history⟩
  · rintro ⟨i, p⟩
    exact withoutFirst_congr fun b _ => same p b
  · rw [draining.logged]
    refine or_congr_right (exists_congr fun p => exists_congr fun b => ?_)
    exact and_congr_left fun holds => (same p b holds.1).symm

/-- The turn of a pointer that holds a block frees the block. -/
theorem Draining.free (draining : Draining sb fs ip n d current) {b : Nat}
    (holds : held sb fs ip ((fs.itable ip).inum, p) = some b) (turn : p.turn = n) :
    used sb current.disk b = true ∧ Draining sb fs ip (n + 1) d
      (current.setDisk (markFree sb current.disk b) {BBLOCK sb b}) := by
  have next : ∀ q c, held sb fs ip ((fs.itable ip).inum, q) = some c → q ≠ p →
      (q.turn < n + 1 ↔ q.turn < n) := by
    intro q c other different
    have apart : q.turn ≠ p.turn := fun same =>
      different (Pointer.turn_injective (held_inRange other) (held_inRange holds) same)
    omega
  have listed : withoutFirst (held sb fs ip) (fs.itable ip).inum n ((fs.itable ip).inum, p) =
      some b := by
    simp [withoutFirst, turn, holds]
  obtain ⟨data, marked⟩ := draining.books.inside _ b listed
  refine ⟨marked, draining.slot, ?_, ?_, ?_, draining.books.give listed (by simp) ?_ ?_, ?_,
    draining.history⟩
  · intro c isData
    rw [setDisk_disk, markFree_data data.2 isData, draining.data c isData]
  · intro i range
    rw [setDisk_disk, dinodeOf_markFree data.2 range, draining.dinodes i range]
  · intro c below
    have different : c ≠ b := by
      have := data.1
      omega
    simp [different, draining.reserved c below]
  · simp [withoutFirst, turn]
  · rintro ⟨i, q⟩ different
    refine withoutFirst_congr fun c own other => next q c other ?_
    rintro rfl
    exact different (by rw [own])
  · intro m
    rw [State.setDisk, Finset.mem_union, Finset.mem_singleton, draining.logged, or_assoc]
    refine or_congr_right ⟨?_, ?_⟩
    · rintro (⟨q, c, early, rest⟩ | bitmap)
      · exact ⟨q, c, by omega, rest⟩
      · exact ⟨p, b, by omega, holds, bitmap⟩
    · rintro ⟨q, c, early, other, bitmap⟩
      by_cases same : q = p
      · subst same
        rw [Option.some.inj (other.symm.trans holds)] at bitmap
        exact Or.inr bitmap
      · exact Or.inl ⟨q, c, (next q c other same).mp early, other, bitmap⟩

theorem Draining.edit (draining : Draining sb fs ip n d current) (d' : Dinode) :
    Draining sb fs ip n d' (current.setSlot ip { fs.itable ip with d := d' }) :=
  ⟨by simp only [State.setSlot, draining.slot, update_idem], draining.data, draining.dinodes,
    draining.reserved, draining.books, draining.logged, draining.history⟩

theorem Draining.absent (draining : Draining sb fs ip n d current) (range : p.InRange)
    (turn : p.turn = n)
    (zero : (edited sb fs ip (fs.itable ip).inum).pointer fs.disk p = 0) :
    Draining sb fs ip (n + 1) d current := by
  refine draining.skip fun q b holds => ?_
  have different : q.turn ≠ p.turn := by
    intro same
    obtain rfl := Pointer.turn_injective (held_inRange holds) range same
    exact absurd ((pointers_of_zero zero).symm.trans holds) (by simp)
  omega

theorem Draining.room (draining : Draining sb fs ip n d current) (room : DrainRoom sb fs ip stop) :
    Room stop current.logged := by
  refine room _ fun m member => ?_
  exact ((draining.logged m).mp member).imp_right fun ⟨p, b, _, rest⟩ => Or.inr ⟨p, b, rest⟩

theorem Draining.wp_bfree (opened : Opened sb fs ip) (draining : Draining sb fs ip n d current)
    {addr : UInt32} {post : PUnit → State → Prop} (turn : p.turn = n)
    (value : (edited sb fs ip (fs.itable ip).inum).pointer fs.disk p = addr.toNat)
    (nonzero : addr ≠ 0) (room : DrainRoom sb fs ip stop)
    (freed : ∀ after, Draining sb fs ip (n + 1) d after → post ⟨⟩ after) :
    wp (bfree sb addr) post stop current := by
  have holds : held sb fs ip ((fs.itable ip).inum, p) = some addr.toNat :=
    pointers_eq_some.mpr ⟨opened.live, value, by simpa [← UInt32.toNat_inj] using nonzero⟩
  obtain ⟨marked, further⟩ := draining.free holds turn
  exact Fs.wp_bfree addr (draining.room room) marked (freed _ further)

end Draining

theorem Draining.direct_round (opened : Opened sb fs ip) {i : Nat} {current : State}
    (position : i < NDIRECT) (room : DrainRoom sb fs ip stop)
    (draining : Draining sb fs ip i ((fs.itable ip).d.clearBelow i) current) :
    wp (do
        let addr := (← inode ip).d.addr i
        if addr ≠ 0 then
          bfree sb addr
          setDinode ip fun d => d.setAddr i 0)
      (fun _ after => Draining sb fs ip (i + 1) ((fs.itable ip).d.clearBelow (i + 1)) after)
      stop current := by
  have value : (edited sb fs ip (fs.itable ip).inum).pointer fs.disk (.direct i) =
      ((fs.itable ip).d.addr i).toNat := by
    simp [Dinode.pointer, position]
  simp only [wp_bind, wp_inode, draining.copy, Dinode.addr_clearBelow _ (Nat.le_of_lt position),
    Nat.lt_irrefl, ↓reduceIte]
  by_cases zero : (fs.itable ip).d.addr i = 0
  · simp only [zero, ne_eq, not_true_eq_false, ↓reduceIte, wp_pure]
    rw [Dinode.clearBelow_succ_of_zero _ (Nat.le_of_lt position) zero]
    exact draining.absent (p := .direct i) position rfl (by rw [value, zero]; rfl)
  · simp only [ne_eq, zero, not_false_eq_true, ↓reduceIte, wp_bind]
    refine draining.wp_bfree opened rfl value zero room fun after freed => ?_
    rw [wp_setDinode, freed.copy, Dinode.clearBelow_succ _ (Nat.le_of_lt position)]
    exact freed.edit _

theorem Draining.entry_round (opened : Opened sb fs ip) {j : Nat} {d : Dinode} {current : State}
    (table : (fs.itable ip).d.addr NDIRECT ≠ 0) (inside : j < NINDIRECT)
    (room : DrainRoom sb fs ip stop) (draining : Draining sb fs ip (NDIRECT + j) d current) :
    wp (do
        let addr := loadUint (fs.disk ((fs.itable ip).d.addr NDIRECT).toNat) (4 * j)
        if addr ≠ 0 then bfree sb addr)
      (fun _ after => Draining sb fs ip (NDIRECT + (j + 1)) d after) stop current := by
  have value : (edited sb fs ip (fs.itable ip).inum).pointer fs.disk (.entry j) =
      (loadUint (fs.disk ((fs.itable ip).d.addr NDIRECT).toNat) (4 * j)).toNat := by
    rw [edited_self]
    simp [Dinode.pointer, table, inside]
  by_cases zero : loadUint (fs.disk ((fs.itable ip).d.addr NDIRECT).toNat) (4 * j) = 0
  · simp only [zero, ne_eq, not_true_eq_false, ↓reduceIte, wp_pure]
    exact draining.absent (p := .entry j) inside rfl (by rw [value, zero]; rfl)
  · simp only [ne_eq, zero, not_false_eq_true, ↓reduceIte]
    exact draining.wp_bfree opened rfl value zero room fun _ freed => freed

theorem Draining.indirect (opened : Opened sb fs ip) {current : State}
    (room : DrainRoom sb fs ip stop)
    (draining : Draining sb fs ip NDIRECT ((fs.itable ip).d.clearBelow NDIRECT) current) :
    wp (itruncIndirect sb ip)
      (fun _ after => Draining sb fs ip (NDIRECT + NINDIRECT + 1)
        ((fs.itable ip).d.clearBelow (NDIRECT + 1)) after) stop current := by
  have value : (edited sb fs ip (fs.itable ip).inum).pointer fs.disk .table =
      ((fs.itable ip).d.addr NDIRECT).toNat := by
    rw [edited_self]
    rfl
  simp only [itruncIndirect, wp_bind, wp_inode, draining.copy,
    Dinode.addr_clearBelow _ (Nat.le_refl _), Nat.lt_irrefl, ↓reduceIte]
  by_cases zero : (fs.itable ip).d.addr NDIRECT = 0
  · simp only [zero, ne_eq, not_true_eq_false, ↓reduceIte, wp_pure]
    rw [Dinode.clearBelow_succ_of_zero _ (Nat.le_refl _) zero]
    refine draining.skip fun p b holds => ?_
    obtain ⟨-, target, nonzero⟩ := pointers_eq_some.mp holds
    rw [edited_self] at target
    cases p with
    | direct k =>
      have small : k < NDIRECT := held_inRange holds
      simp only [Pointer.turn]
      omega
    | table => simp_all [Dinode.pointer]
    | entry j => simp_all [Dinode.pointer]
  · have listed : IsData sb ((fs.itable ip).d.addr NDIRECT).toNat :=
      (opened.sound.target (opened.table_held zero)).1
    simp only [ne_eq, zero, not_false_eq_true, ↓reduceIte, wp_bind, wp_bread,
      draining.data _ listed]
    refine wp_post (wp_forRange (fun j => Draining sb fs ip (NDIRECT + j) _) stop _ 0 NINDIRECT
      current ?_ draining) ?_
    · intro j middle _ upper draining
      exact draining.entry_round opened zero (by omega) room
    · intro _ middle emptied
      rw [Nat.zero_add] at emptied
      refine emptied.wp_bfree opened rfl value zero room fun after freed => ?_
      rw [wp_setDinode, freed.copy, Dinode.clearBelow_succ _ (Nat.le_refl _)]
      exact freed.edit _

structure Truncated (sb : Superblock) (fs : State) (ip : Nat) (after : State) : Prop where
  slot : after.itable = update fs.itable ip
    { fs.itable ip with d := (fs.itable ip).d.truncated }
  data : ∀ c, IsData sb c → after.disk c = fs.disk c
  dinode : dinodeOf sb after.disk (fs.itable ip).inum = (fs.itable ip).d.truncated
  dinodes : ∀ j, j < sb.ninodes → j ≠ (fs.itable ip).inum →
    dinodeOf sb after.disk j = dinodeOf sb fs.disk j
  sound : Sound sb after.disk (dinodeOf sb after.disk)
  others : ∀ j p, j ≠ (fs.itable ip).inum → refs sb after.disk (j, p) = held sb fs ip (j, p)
  logged : ∀ m, m ∈ after.logged ↔ m ∈ fs.logged ∨ m = IBLOCK sb (fs.itable ip).inum ∨
    ∃ p b, held sb fs ip ((fs.itable ip).inum, p) = some b ∧ m = BBLOCK sb b
  history : after.freedInodes = fs.freedInodes

theorem Draining.finish (opened : Opened sb fs ip) {last : State}
    (draining : Draining sb fs ip (NDIRECT + NINDIRECT + 1) (fs.itable ip).d.truncated last) :
    Sound sb last.disk (edited sb last ip) ∧ ∀ j p, j ≠ (fs.itable ip).inum →
      held sb last ip (j, p) = held sb fs ip (j, p) := by
  have inum : (last.itable ip).inum = (fs.itable ip).inum := by rw [draining.copy]
  have own : ∀ p, held sb last ip ((fs.itable ip).inum, p) = none := by
    intro p
    apply pointers_of_zero
    rw [edited_own inum, draining.copy]
    exact Dinode.pointer_of_bare rfl _ p
  have others : ∀ j p, j ≠ (fs.itable ip).inum →
      held sb last ip (j, p) = held sb fs ip (j, p) := by
    intro j p different
    by_cases range : j < sb.ninodes
    · have same : edited sb last ip j = edited sb fs ip j := by
        rw [edited_of_ne (by rwa [inum]), edited_of_ne different, draining.dinodes j range]
      exact pointers_congr p (by rw [same]) (by rw [same])
        fun t table => draining.data t (opened.sound.target table).1
    · simp [held, pointers, Live, range]
  refine ⟨⟨draining.reserved, draining.books.congr (fun _ _ => Iff.rfl) ?_⟩, others⟩
  rintro ⟨j, p⟩
  change held sb last ip (j, p) = _
  by_cases mine : j = (fs.itable ip).inum
  · subst mine
    rw [own p]
    cases holds : held sb fs ip ((fs.itable ip).inum, p) with
    | none => simp only [withoutFirst, holds, ite_self]
    | some b =>
      have early := (held_inRange holds).turn_le
      simp only [withoutFirst, true_and, Nat.lt_succ_iff, early, ↓reduceIte]
  · rw [others j p mine]
    simp only [withoutFirst, mine, false_and, ↓reduceIte]

/-- The law of `itrunc`: it never frees a free block. -/
theorem wp_itrunc {post : PUnit → State → Prop} (opened : Opened sb fs ip)
    (room : DrainRoom sb fs ip stop)
    (emptied : ∀ after, Truncated sb fs ip after → post ⟨⟩ after) :
    wp (itrunc sb ip) post stop fs := by
  have initially : Draining sb fs ip 0 ((fs.itable ip).d.clearBelow 0) fs := by
    refine ⟨?_, fun _ _ => rfl, fun _ _ => rfl, opened.sound.reserved,
      opened.sound.books.congr (fun _ _ => Iff.rfl) fun _ => ?_, by simp, rfl⟩
    · rw [Dinode.clearBelow_zero, update_eq_self]
    · simp [withoutFirst, held]
  simp only [itrunc, wp_bind]
  refine wp_post (wp_forRange (fun i => Draining sb fs ip i ((fs.itable ip).d.clearBelow i)) stop _
    0 NDIRECT fs ?_ initially) ?_
  · intro i current _ upper draining
    exact draining.direct_round opened (by omega) room
  · intro _ middle draining
    rw [Nat.zero_add] at draining
    refine wp_post (draining.indirect opened room) ?_
    intro _ bare freed
    simp only [wp_setDinode, freed.copy, Dinode.clearBelow_all]
    refine wp_iupdate (freed.room room) ?_
    have cleared := freed.edit (fs.itable ip).d.truncated
    generalize bare.setSlot ip { fs.itable ip with d := (fs.itable ip).d.truncated } = last
      at cleared
    obtain ⟨sound, others⟩ := cleared.finish opened
    have own : (last.itable ip).inum = (fs.itable ip).inum := by rw [cleared.copy]
    have inside : (last.itable ip).inum < sb.ninodes := by
      rw [own]
      exact opened.inum
    refine emptied _ ⟨cleared.slot, ?_, ?_, ?_, sound_saved inside sound, ?_, fun m => ?_,
      cleared.history⟩
    · intro c isData
      rw [setDisk_disk, saved, putDinode_data _ inside isData, cleared.data c isData]
    · rw [setDisk_disk, dinodeOf_saved, edited_own own, cleared.copy]
    · intro j range different
      rw [setDisk_disk, dinodeOf_saved, edited_of_ne (by rwa [own]), cleared.dinodes j range]
    · intro j p different
      rw [setDisk_disk, refs_saved inside sound, others j p different]
    · rw [State.setDisk, Finset.mem_union, cleared.logged m, own, Finset.mem_singleton, or_assoc,
        or_comm (b := m = _)]
      refine or_congr_right (or_congr_right ⟨?_, ?_⟩)
      · rintro ⟨p, b, -, rest⟩
        exact ⟨p, b, rest⟩
      · rintro ⟨p, b, holds, bitmap⟩
        exact ⟨p, b, Nat.lt_succ_of_le (held_inRange holds).turn_le, holds, bitmap⟩

end Xv6.Fs
