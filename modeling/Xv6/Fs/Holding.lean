import Xv6.Fs.Nodes

/-!
# What a call holds

While a call runs it holds references to inodes that it found or made, on top of the references
that were there when it began.
-/

namespace Xv6.Fs

open Command Bytes Ownership Function

/-- A reference that a call holds. -/
structure Handle where
  slot : Nat
  inum : Nat
  loaded : Bool

def taken (hands : List Handle) (s : Nat) : Nat := hands.countP fun h => h.slot = s

structure Holding (sb : Superblock) (base : State) (hands : List Handle)
    (freed : List (Nat × Disk)) (t : Nodes) (fs : State) : Prop where
  consistent : Consistent sb fs
  nodes : nodes sb fs.disk = t
  counted : ∀ s, s < NINODE → 0 ≤ (base.itable s).ref
  ref : ∀ s, s < NINODE → (fs.itable s).ref = (base.itable s).ref + taken hands s
  kept : ∀ s, s < NINODE → 0 < (base.itable s).ref →
    (fs.itable s).inum = (base.itable s).inum ∧
      ((base.itable s).valid = true → (fs.itable s).valid = true)
  held : ∀ h ∈ hands, h.slot < NINODE ∧ (fs.itable h.slot).inum = h.inum ∧
    h.inum < sb.ninodes ∧ (h.loaded = true → (fs.itable h.slot).valid = true)
  history : fs.freedInodes = freed ++ base.freedInodes

def Crowded (base : State) (hands : List Handle) : Prop :=
  ∀ s, s < NINODE → (base.itable s).ref = 0 → 0 < taken hands s

def Anchored (base : State) (hands : List Handle) (t : Nodes) : Prop :=
  ∀ i node, t i = some node → node.nlink = 0 →
    (∃ s, s < NINODE ∧ 0 < (base.itable s).ref ∧ (base.itable s).inum = i) ∨
      ∃ h ∈ hands, h.inum = i

variable {sb : Superblock} {stop : Panic → Prop} {base fs after : State} {hands : List Handle}
  {freed : List (Nat × Disk)} {t : Nodes} {ip i : Nat} {loaded : Bool} {node : Node}

@[simp] theorem taken_nil (s : Nat) : taken [] s = 0 := rfl

theorem taken_cons (h : Handle) (s : Nat) :
    taken (h :: hands) s = taken hands s + if h.slot = s then 1 else 0 := by
  simp [taken, List.countP_cons]

theorem taken_pos {h : Handle} (member : h ∈ hands) : 0 < taken hands h.slot :=
  List.countP_pos_iff.mpr ⟨h, member, by simp⟩

theorem exists_of_taken {s : Nat} (positive : 0 < taken hands s) : ∃ h ∈ hands, h.slot = s := by
  obtain ⟨h, member, same⟩ := List.countP_pos_iff.mp positive
  exact ⟨h, member, by simpa using same⟩

theorem Holding.start (consistent : Consistent sb fs) :
    Holding sb fs [] [] (Fs.nodes sb fs.disk) fs :=
  ⟨consistent, rfl, consistent.counted, fun s _ => by simp, fun _ _ _ => ⟨rfl, id⟩,
    fun _ member => absurd member List.not_mem_nil, rfl⟩

theorem Holding.perm {other : List Handle} (holding : Holding sb base hands freed t fs)
    (same : hands.Perm other) : Holding sb base other freed t fs := by
  refine ⟨holding.consistent, holding.nodes, holding.counted, ?_, holding.kept, ?_, holding.history⟩
  · intro s inside
    rw [holding.ref s inside, taken, taken, same.countP_eq]
  · intro h member
    exact holding.held h (same.mem_iff.mpr member)

theorem Holding.swap {g h : Handle} (holding : Holding sb base (g :: h :: hands) freed t fs) :
    Holding sb base (h :: g :: hands) freed t fs :=
  holding.perm (List.Perm.swap h g hands)

theorem Anchored.cons (anchored : Anchored base hands t) (h : Handle) :
    Anchored base (h :: hands) t := by
  intro i node there unlinked
  refine (anchored i node there unlinked).imp_right ?_
  rintro ⟨g, member, number⟩
  exact ⟨g, List.mem_cons_of_mem _ member, number⟩

theorem Anchored.update (anchored : Anchored base hands t) {new : Node}
    (fine : new.nlink = 0 → (∃ h ∈ hands, h.inum = i) ∨
      ∃ node, t i = some node ∧ node.nlink = 0) :
    Anchored base hands (update t i (some new)) := by
  intro j node there unlinked
  by_cases same : j = i
  · subst same
    rw [update_self, Option.some.injEq] at there
    subst there
    rcases fine unlinked with held | ⟨old, was, without⟩
    · exact Or.inr held
    · exact anchored j old was without
  · rw [update_of_ne same] at there
    exact anchored j node there unlinked

section Facts

variable (holding : Holding sb base hands freed t fs)
include holding

theorem Holding.positive {h : Handle} (member : h ∈ hands) : 0 < (fs.itable h.slot).ref := by
  have inside := (holding.held h member).1
  have before := holding.counted h.slot inside
  have here := taken_pos member
  rw [holding.ref h.slot inside]
  omega

theorem Holding.slot_eq {s : Nat} {h : Handle} (member : h ∈ hands) (inside : s < NINODE)
    (inUse : 0 < (fs.itable s).ref) (same : (fs.itable s).inum = h.inum) : s = h.slot := by
  obtain ⟨slot, number, -⟩ := holding.held h member
  exact holding.consistent.single s h.slot inside slot inUse (holding.positive member)
    (same.trans number.symm)

end Facts

section Head

variable (holding : Holding sb base (⟨ip, i, loaded⟩ :: hands) freed t fs)
include holding

theorem Holding.slot : ip < NINODE := (holding.held _ List.mem_cons_self).1

theorem Holding.number : (fs.itable ip).inum = i := (holding.held _ List.mem_cons_self).2.1

theorem Holding.range : i < sb.ninodes := (holding.held _ List.mem_cons_self).2.2.1

theorem Holding.used : 0 < (fs.itable ip).ref := holding.positive List.mem_cons_self

theorem Holding.unload : Holding sb base (⟨ip, i, false⟩ :: hands) freed t fs := by
  refine ⟨holding.consistent, holding.nodes, holding.counted, holding.ref, holding.kept, ?_,
    holding.history⟩
  intro h member
  rcases List.mem_cons.mp member with rfl | rest
  · exact ⟨holding.slot, holding.number, holding.range, fun wrong => absurd wrong (by simp)⟩
  · exact holding.held h (List.mem_cons_of_mem _ rest)

end Head

section Loaded

variable (holding : Holding sb base (⟨ip, i, true⟩ :: hands) freed t fs)
include holding

theorem Holding.locked : Locked fs ip :=
  ⟨holding.slot, holding.used, (holding.held _ List.mem_cons_self).2.2.2 rfl⟩

theorem Holding.node_eq : t i = some ((fs.itable ip).d.node (fileByte sb fs.disk i)) := by
  have there := holding.locked.node holding.consistent
  rw [holding.nodes, holding.number] at there
  exact there

theorem Holding.copy (there : t i = some node) :
    (fs.itable ip).d.node (fileByte sb fs.disk i) = node :=
  Option.some.inj (holding.node_eq.symm.trans there)

end Loaded

theorem Holding.stay (holding : Holding sb base hands freed t fs) (consistent : Consistent sb after)
    (disk : after.disk = fs.disk) (history : after.freedInodes = fs.freedInodes)
    (ref : ∀ s, s < NINODE → (after.itable s).ref = (fs.itable s).ref)
    (slot : ∀ s, s < NINODE → 0 < (fs.itable s).ref → (after.itable s).inum = (fs.itable s).inum ∧
      ((fs.itable s).valid = true → (after.itable s).valid = true)) :
    Holding sb base hands freed t after := by
  have positive : ∀ s, s < NINODE → 0 < (base.itable s).ref → 0 < (fs.itable s).ref := by
    intro s inside inUse
    rw [holding.ref s inside]
    omega
  refine ⟨consistent, by rw [disk, holding.nodes], holding.counted, ?_, ?_, ?_,
    history.trans holding.history⟩
  · intro s inside
    rw [ref s inside, holding.ref s inside]
  · intro s inside inUse
    obtain ⟨number, valid⟩ := slot s inside (positive s inside inUse)
    obtain ⟨before, validBefore⟩ := holding.kept s inside inUse
    exact ⟨number.trans before, fun was => valid (validBefore was)⟩
  · intro h member
    obtain ⟨inside, number, range, valid⟩ := holding.held h member
    obtain ⟨same, stays⟩ := slot h.slot inside (holding.positive member)
    exact ⟨inside, same.trans number, range, fun isLoaded => stays (valid isLoaded)⟩

theorem Holding.sameInUse (holding : Holding sb base hands freed t fs) (same : SameInUse fs after)
    (consistent : Consistent sb after) : Holding sb base hands freed t after := by
  refine holding.stay consistent same.disk same.history (fun s _ => same.ref s) ?_
  intro s _ inUse
  rw [same.slot s inUse]
  exact ⟨rfl, id⟩

theorem Holding.ended (holding : Holding sb base hands freed t fs) :
    Holding sb base hands freed t fs.ended :=
  holding.stay (holding.consistent.congr rfl rfl) rfl rfl (fun _ _ => rfl)
    fun _ _ _ => ⟨rfl, id⟩

theorem Holding.got (holding : Holding sb base hands freed t fs) (range : i < sb.ninodes)
    (got : Got fs i ip after) : Holding sb base (⟨ip, i, false⟩ :: hands) freed t after := by
  have positive : ∀ s, s < NINODE → 0 < (base.itable s).ref → 0 < (fs.itable s).ref := by
    intro s inside inUse
    rw [holding.ref s inside]
    omega
  refine ⟨got.consistent holding.consistent, by rw [got.disk, holding.nodes], holding.counted, ?_,
    ?_, ?_, got.history.trans holding.history⟩
  · intro s inside
    rw [got.ref, holding.ref s inside, taken_cons]
    by_cases same : s = ip
    · simp only [same, ↓reduceIte]
      omega
    · simp only [same, Ne.symm same, ↓reduceIte]
      omega
  · intro s inside inUse
    obtain ⟨number, valid, -⟩ := got.kept (positive s inside inUse)
    obtain ⟨before, validBefore⟩ := holding.kept s inside inUse
    exact ⟨number.trans before, fun was => valid.trans (validBefore was)⟩
  · intro h member
    rcases List.mem_cons.mp member with rfl | rest
    · exact ⟨got.slot, got.inum_eq, range, fun wrong => absurd wrong (by simp)⟩
    · obtain ⟨inside, number, inRange, valid⟩ := holding.held h rest
      obtain ⟨same, stays, -⟩ := got.kept (holding.positive rest)
      exact ⟨inside, same.trans number, inRange, fun isLoaded => stays.trans (valid isLoaded)⟩

/-- A table without a free slot. -/
theorem Holding.crowded (holding : Holding sb base hands freed t fs)
    (full : ∀ s, s < NINODE → (fs.itable s).ref ≠ 0) : Crowded base hands := by
  intro s inside unused
  have count := holding.ref s inside
  have positive := full s inside
  omega

theorem Holding.wp_iget (holding : Holding sb base hands freed t fs) (range : i < sb.ninodes)
    {post : Nat → State → Prop} (full : Crowded base hands → stop .igetNoInodes)
    (got : ∀ ip after, Holding sb base (⟨ip, i, false⟩ :: hands) freed t after →
      after.disk = fs.disk → post ip after) :
    wp (iget i) post stop fs :=
  Fs.wp_iget (fun none => full (holding.crowded none)) fun ip after isGot =>
    got ip after (holding.got range isGot) isGot.disk

theorem Holding.wp_idup (holding : Holding sb base hands freed t fs) (inside : ip < NINODE)
    (inUse : 0 < (base.itable ip).ref) (range : (base.itable ip).inum < sb.ninodes)
    {post : Nat → State → Prop}
    (copied : ∀ after, Holding sb base (⟨ip, (base.itable ip).inum, false⟩ :: hands) freed t after →
      after.disk = fs.disk → post ip after) :
    wp (idup ip) post stop fs := by
  have positive : 0 < (fs.itable ip).ref := by
    rw [holding.ref ip inside]
    omega
  refine holding.consistent.wp_idup inside positive ?_
  intro after got _
  rw [(holding.kept ip inside inUse).1] at got
  exact copied after (holding.got range got) got.disk

variable {post : PUnit → State → Prop}

theorem Holding.wp_ilock (holding : Holding sb base (⟨ip, i, loaded⟩ :: hands) freed t fs)
    (noType : t i = none → stop .ilockNoType)
    (locked : ∀ after node, t i = some node →
      Holding sb base (⟨ip, i, true⟩ :: hands) freed t after → after.disk = fs.disk →
      post ⟨⟩ after) :
    wp (ilock sb ip) post stop fs := by
  have number := holding.number
  refine holding.consistent.wp_ilock holding.slot holding.used (by rw [number]; exact holding.range)
    ?_ ?_
  · intro free
    refine noType ?_
    rw [← holding.nodes, nodes_eq_none]
    rw [number] at free
    exact fun live => live.2 free
  · intro after same consistent isLocked
    have stays : Holding sb base (⟨ip, i, loaded⟩ :: hands) freed t after := by
      refine holding.stay consistent (by rw [same, setSlot_disk]) (by rw [same]; rfl) ?_ ?_
      · intro s _
        by_cases here : s = ip
        · rw [same, here, setSlot_self]
        · rw [same, setSlot_of_ne _ here]
      · intro s _ _
        by_cases here : s = ip
        · rw [same, here, setSlot_self]
          exact ⟨rfl, fun _ => rfl⟩
        · rw [same, setSlot_of_ne _ here]
          exact ⟨rfl, id⟩
    have loads : Holding sb base (⟨ip, i, true⟩ :: hands) freed t after := by
      refine ⟨consistent, stays.nodes, stays.counted, stays.ref, stays.kept, ?_, stays.history⟩
      intro h member
      rcases List.mem_cons.mp member with rfl | rest
      · exact ⟨stays.slot, stays.number, stays.range, fun _ => isLocked.valid⟩
      · exact stays.held h (List.mem_cons_of_mem _ rest)
    exact locked after _ loads.node_eq loads (by rw [same, setSlot_disk])

theorem Holding.wp_iunlock (holding : Holding sb base (⟨ip, i, loaded⟩ :: hands) freed t fs)
    (unlocked : post ⟨⟩ fs) : wp (iunlock ip) post stop fs :=
  Fs.wp_iunlock holding.used unlocked

/-- A reference goes, and nothing else changes. -/
theorem Holding.drop (holding : Holding sb base (⟨ip, i, loaded⟩ :: hands) freed t fs)
    (consistent : Consistent sb after)
    (same : after = fs.setSlot ip { fs.itable ip with ref := (fs.itable ip).ref - 1 }) :
    Holding sb base hands freed t after := by
  have slot : ∀ s, (after.itable s).inum = (fs.itable s).inum ∧
      (after.itable s).valid = (fs.itable s).valid := by
    intro s
    by_cases here : s = ip
    · rw [same, here, setSlot_self]
      exact ⟨rfl, rfl⟩
    · rw [same, setSlot_of_ne _ here]
      exact ⟨rfl, rfl⟩
  refine ⟨consistent, by rw [same, setSlot_disk, holding.nodes], holding.counted, ?_, ?_, ?_, ?_⟩
  · intro s inside
    have before := holding.ref s inside
    rw [taken_cons] at before
    by_cases here : s = ip
    · rw [same, here, setSlot_self]
      simp only [here, ↓reduceIte] at before ⊢
      omega
    · rw [same, setSlot_of_ne _ here]
      simp only [Ne.symm here, ↓reduceIte] at before
      omega
  · intro s inside inUse
    rw [(slot s).1, (slot s).2]
    exact holding.kept s inside inUse
  · intro h member
    rw [(slot h.slot).1, (slot h.slot).2]
    exact holding.held h (List.mem_cons_of_mem _ member)
  · rw [same, State.setSlot]
    exact holding.history

theorem Holding.free (holding : Holding sb base (⟨ip, i, loaded⟩ :: hands) freed t fs)
    (alone : (base.itable ip).ref = 0 ∧ taken hands ip = 0) (isFreed : Freed sb fs ip after) :
    Holding sb base hands ((i, fs.disk) :: freed) (update t i none) after := by
  have number := holding.number
  have other : ∀ s, s ≠ ip → after.itable s = fs.itable s := by
    intro s different
    rw [isFreed.slot, update_of_ne different]
  refine ⟨isFreed.consistent, ?_, holding.counted, ?_, ?_, ?_, ?_⟩
  · rw [isFreed.nodes, holding.nodes, number]
  · intro s inside
    have before := holding.ref s inside
    rw [taken_cons] at before
    by_cases here : s = ip
    · rw [here, isFreed.slot, update_self, alone.1, alone.2]
      rfl
    · rw [other s here, before]
      simp only [Ne.symm here, ↓reduceIte]
      omega
  · intro s inside inUse
    have different : s ≠ ip := by
      rintro rfl
      omega
    rw [other s different]
    exact holding.kept s inside inUse
  · intro h member
    have different : h.slot ≠ ip := by
      intro here
      have positive := taken_pos member
      rw [here] at positive
      omega
    rw [other h.slot different]
    exact holding.held h (List.mem_cons_of_mem _ member)
  · rw [isFreed.history, holding.history, number]
    rfl

theorem Holding.wp_iput (holding : Holding sb base (⟨ip, i, loaded⟩ :: hands) freed t fs)
    (big : ∀ node, t i = some node → node.nlink = 0 → (base.itable ip).ref = 0 →
      taken hands ip = 0 → stop .tooBigTransaction)
    (isFreed : ∀ node after, t i = some node → node.nlink = 0 →
      (base.itable ip).ref = 0 → taken hands ip = 0 →
      Holding sb base hands ((i, fs.disk) :: freed) (update t i none) after →
      post ⟨⟩ after)
    (dropped : ∀ after, (loaded = true → ∀ node, t i = some node → node.nlink = 0 →
        ¬ ((base.itable ip).ref = 0 ∧ taken hands ip = 0)) →
      Holding sb base hands freed t after → after.disk = fs.disk → post ⟨⟩ after) :
    wp (iput sb ip) post stop fs := by
  have count := holding.ref ip holding.slot
  have before := holding.counted ip holding.slot
  rw [taken_cons] at count
  simp only [↓reduceIte] at count
  have last : Freeing fs ip → ∃ node, t i = some node ∧ node.nlink = 0 ∧
      (base.itable ip).ref = 0 ∧ taken hands ip = 0 := by
    rintro ⟨one, valid, unlinked⟩
    have isLocked : Locked fs ip := ⟨holding.slot, holding.used, valid⟩
    have there := isLocked.node holding.consistent
    rw [holding.nodes, holding.number] at there
    exact ⟨_, there, unlinked, by omega, by omega⟩
  refine holding.consistent.wp_iput holding.slot holding.used ?_ ?_ ?_
  · intro freeing blocks _
    obtain ⟨node, there, unlinked, nobody, alone⟩ := last freeing
    exact Room.of_stop (big node there unlinked nobody alone) blocks
  · intro freeing after effect
    obtain ⟨node, there, unlinked, nobody, alone⟩ := last freeing
    exact isFreed node after there unlinked nobody alone (holding.free ⟨nobody, alone⟩ effect)
  · intro other after same consistent
    refine dropped after ?_ (holding.drop consistent same) (by rw [same, setSlot_disk])
    rintro rfl node there unlinked alone
    have copy := holding.copy there
    refine other ⟨by omega, holding.locked.valid, ?_⟩
    rw [← unlinked, ← copy]
    rfl

theorem Holding.wp_iput_anchored
    (holding : Holding sb base (⟨ip, i, loaded⟩ :: hands) freed t fs)
    (anchored : Anchored base hands t)
    (dropped : ∀ after, Holding sb base hands freed t after → after.disk = fs.disk →
      post ⟨⟩ after) :
    wp (iput sb ip) post stop fs := by
  suffices kept : ∀ node, t i = some node → node.nlink = 0 → (base.itable ip).ref = 0 →
      taken hands ip = 0 → False from
    holding.wp_iput (fun node there unlinked alone nobody => (kept node there unlinked alone nobody).elim)
      (fun node _ there unlinked alone nobody _ => (kept node there unlinked alone nobody).elim)
      fun after _ => dropped after
  intro node there unlinked alone nobody
  have mine : (⟨ip, i, loaded⟩ : Handle) ∈ (⟨ip, i, loaded⟩ : Handle) :: hands :=
    List.mem_cons_self
  rcases anchored i node there unlinked with ⟨s, inside, inUse, number⟩ | ⟨h, member, number⟩
  · have positive : 0 < (fs.itable s).ref := by
      rw [holding.ref s inside]
      omega
    have same : s = ip := holding.slot_eq mine inside positive
      ((holding.kept s inside inUse).1.trans number)
    rw [same] at inUse
    omega
  · have also := List.mem_cons_of_mem (⟨ip, i, loaded⟩ : Handle) member
    have same : h.slot = ip := holding.slot_eq mine (holding.held h also).1
      (holding.positive also) ((holding.held h also).2.1.trans number)
    have positive := taken_pos member
    rw [same] at positive
    omega

theorem Holding.wp_iunlockput_anchored
    (holding : Holding sb base (⟨ip, i, loaded⟩ :: hands) freed t fs)
    (anchored : Anchored base hands t)
    (dropped : ∀ after, Holding sb base hands freed t after → after.disk = fs.disk →
      post ⟨⟩ after) :
    wp (iunlockput sb ip) post stop fs := by
  rw [iunlockput, wp_bind]
  exact holding.wp_iunlock (holding.wp_iput_anchored anchored dropped)

theorem Holding.rewrite (holding : Holding sb base (⟨ip, i, true⟩ :: hands) freed t fs)
    {d : Dinode} {contents : Nat → UInt8} (rewritten : Rewritten sb fs ip d contents after) :
    Holding sb base (⟨ip, i, true⟩ :: hands) freed
      (update t i (some (d.node contents))) after := by
  have slot : ∀ s, (after.itable s).ref = (fs.itable s).ref ∧
      (after.itable s).inum = (fs.itable s).inum ∧
      (after.itable s).valid = (fs.itable s).valid := by
    intro s
    by_cases here : s = ip
    · rw [rewritten.slot, here, update_self]
      exact ⟨rfl, rfl, rfl⟩
    · rw [rewritten.slot, update_of_ne here]
      exact ⟨rfl, rfl, rfl⟩
  refine ⟨rewritten.consistent, ?_, holding.counted, ?_, ?_, ?_,
    rewritten.history.trans holding.history⟩
  · rw [rewritten.nodes holding.locked, holding.nodes, holding.number]
  · intro s inside
    rw [(slot s).1]
    exact holding.ref s inside
  · intro s inside inUse
    rw [(slot s).2.1, (slot s).2.2]
    exact holding.kept s inside inUse
  · intro h member
    rw [(slot h.slot).2.1, (slot h.slot).2.2]
    exact holding.held h member

theorem Holding.wp_save (holding : Holding sb base (⟨ip, i, true⟩ :: hands) freed t fs)
    {change : Dinode → Dinode} (edit : Node → Node)
    (fields : ∀ d : Dinode, (change d).type = d.type ∧ (change d).size = d.size ∧
      (change d).addrs = d.addrs ∧ ∀ byte, (change d).node byte = edit (d.node byte))
    (there : t i = some node) (big : stop .tooBigTransaction)
    (saved : ∀ after, Holding sb base (⟨ip, i, true⟩ :: hands) freed
      (update t i (some (edit node))) after → SameBlocks sb fs.disk after.disk → post ⟨⟩ after) :
    wp (setDinode ip change) (fun _ middle => wp (iupdate sb ip) post stop middle) stop fs := by
  obtain ⟨type, size, addrs, same⟩ := fields (fs.itable ip).d
  rw [wp_setDinode]
  refine wp_iupdate (Room.of_stop big _) ?_
  have rewritten := holding.consistent.save_fields holding.locked rfl type size addrs
  have result := holding.rewrite rewritten
  rw [holding.number, same, holding.copy there] at result
  exact saved _ result (holding.locked.save_blocks holding.consistent rfl type addrs)

section Directories

variable {dp d : Nat} {dir : Node} {name : List UInt8}

theorem Holding.wp_dirlookup (holding : Holding sb base (⟨dp, d, true⟩ :: hands) freed t fs)
    (there : t d = some dir) (ranged : ∀ k, k < dir.count → dir.inum k < sb.ninodes)
    {post : Option (Nat × Nat) → State → Prop}
    (notDir : dir.type ≠ T_DIR → stop .dirlookupNotDir)
    (partly : dir.size.toNat % 16 ≠ 0 → stop .dirlookupRead)
    (full : Crowded base (⟨dp, d, true⟩ :: hands) → stop .igetNoInodes)
    (absent : dir.type = T_DIR → dir.size.toNat % 16 = 0 → dir.find name = none → post none fs)
    (found : ∀ k ip after, dir.type = T_DIR → dir.find name = some k →
      Holding sb base (⟨ip, dir.inum k, false⟩ :: ⟨dp, d, true⟩ :: hands) freed t after →
      after.disk = fs.disk → post (some (ip, 16 * k)) after) :
    wp (dirlookup sb dp name) post stop fs := by
  have copy := holding.copy there
  subst copy
  refine holding.consistent.wp_dirlookup holding.locked notDir partly
    (fun none => full (holding.crowded none)) ?_ ?_
  · intro isDir whole nowhere
    rw [holding.number] at nowhere
    exact absent isDir whole (Node.find_eq_none.mpr nowhere)
  · intro k ip after isDir inside names first got
    rw [holding.number] at names first got
    have isFound : ((fs.itable dp).d.node (fileByte sb fs.disk d)).find name = some k :=
      Node.find_eq_some.mpr ⟨inside, names, first⟩
    exact found k ip after isDir isFound (holding.got (ranged k inside) got) got.disk

theorem Holding.failed (holding : Holding sb base (⟨dp, d, true⟩ :: hands) freed t fs) {k : Nat}
    (isFailed : Failed sb fs dp k after) :
    Holding sb base (⟨dp, d, true⟩ :: hands) freed t after := by
  obtain ⟨addrs, rewritten, -⟩ := isFailed
  have result := holding.rewrite rewritten
  have same : ({ (fs.itable dp).d with addrs := addrs } : Dinode).node
      (fileByte sb fs.disk (fs.itable dp).inum) =
      (fs.itable dp).d.node (fileByte sb fs.disk d) := by
    rw [holding.number]
    rfl
  rw [same, ← holding.node_eq, update_eq_self] at result
  exact result

theorem Holding.entered (holding : Holding sb base (⟨dp, d, true⟩ :: hands) freed t fs)
    (there : t d = some dir) {k : Nat} {record : ByteMap}
    (isEntered : Entered sb fs dp k record after) :
    Holding sb base (⟨dp, d, true⟩ :: hands) freed (update t d (some (dir.put k record)))
      after := by
  obtain ⟨addrs, rewritten, -⟩ := isEntered
  have result := holding.rewrite rewritten
  rw [← holding.copy there]
  rw [holding.number] at result
  exact result

def Node.HasPlace (dir : Node) (sb : Superblock) (disk : Disk) (d : Nat) : Prop :=
  (∃ k, k < dir.count ∧ dir.inum k = 0) ∨ Extensible sb disk d dir.size.toNat

theorem Holding.wp_dirlink (holding : Holding sb base (⟨dp, d, true⟩ :: hands) freed t fs)
    (there : t d = some dir) {inum : Nat} {post : Int → State → Prop}
    (big : stop .tooBigTransaction) (notDir : dir.type ≠ T_DIR → stop .dirlookupNotDir)
    (partly : dir.size.toNat % 16 ≠ 0 → stop .dirlookupRead) (full : stop .igetNoInodes)
    (failed : ∀ after, dir.find name ≠ none ∨ ¬ dir.HasPlace sb fs.disk d →
      Holding sb base (⟨dp, d, true⟩ :: hands) freed t after → post (-1) after)
    (entered : ∀ k after, dir.type = T_DIR → dir.size.toNat % 16 = 0 → dir.find name = none →
      k ≤ dir.count → (k < dir.count → dir.inum k = 0) → dir.HasPlace sb fs.disk d →
      Holding sb base (⟨dp, d, true⟩ :: hands) freed
        (update t d (some (dir.put k (dirent name inum)))) after → post 0 after) :
    wp (dirlink sb dp name inum) post stop fs := by
  have copy := holding.copy there
  subst copy
  refine holding.consistent.wp_dirlink holding.locked (fun _ _ _ _ => Room.of_stop big _) notDir
    partly (fun _ => full) ?_ ?_ ?_
  · intro k after inside names same consistent
    rw [holding.number] at names
    refine failed after (Or.inl fun none => ?_) (holding.sameInUse same consistent)
    exact Node.find_eq_none.mp none k inside names
  · intro k after ends inUse _ starved isFailed
    rw [holding.number] at inUse starved
    refine failed after (Or.inr ?_) (holding.failed isFailed)
    rintro (⟨j, inside, free⟩ | place)
    · have within : j < direntCount (fs.itable dp).d.size := inside
      have begins := direntCount_spec within
      exact inUse j (by omega) free
    · rw [← ends] at starved
      exact starved place
  · intro k after isDir whole nowhere position free space isEntered
    rw [holding.number] at nowhere free space
    refine entered k after isDir whole (Node.find_eq_none.mpr nowhere) position free ?_
      (holding.entered there isEntered)
    by_cases inside : k < direntCount (fs.itable dp).d.size
    · exact Or.inl ⟨k, inside, free inside⟩
    · have ends : (fs.itable dp).d.size.toNat = 16 * k := by
        simp only [direntCount] at position inside
        omega
      refine Or.inr ?_
      rw [Dinode.node, ends]
      exact space.resolve_left inside

theorem Holding.wp_isdirempty (holding : Holding sb base (⟨dp, d, true⟩ :: hands) freed t fs)
    (there : t d = some dir) {post : Bool → State → Prop}
    (partly : dir.size.toNat % 16 ≠ 0 → stop .isdiremptyReadi)
    (holds : ∀ empty, (empty = true ↔ ∀ k, 2 ≤ k → k < dir.count → dir.inum k = 0) →
      post empty fs) :
    wp (isdirempty sb dp) post stop fs := by
  have copy := holding.copy there
  subst copy
  refine holding.consistent.wp_isdirempty holding.locked partly ?_
  intro empty all
  rw [holding.number] at all
  exact holds empty all

theorem Holding.wp_erase (holding : Holding sb base (⟨dp, d, true⟩ :: hands) freed t fs)
    (there : t d = some dir) {k : Nat} {record : ByteMap} {post : Int → State → Prop}
    (position : 16 * k ≤ dir.size.toNat) (big : stop .tooBigTransaction)
    (short : ∀ written after, written ≠ 16 →
      Holding sb base (⟨dp, d, true⟩ :: hands) freed t after → post written after)
    (written : ∀ after, Holding sb base (⟨dp, d, true⟩ :: hands) freed
      (update t d (some (dir.put k record))) after → post 16 after) :
    wp (writei sb dp ⟨record, 16⟩ (UInt32.ofNat (16 * k)) 16) post stop fs := by
  have copy := holding.copy there
  subst copy
  refine holding.consistent.wp_writeDirent holding.locked position
    (fun _ _ _ => Room.of_stop big _) ?_ ?_
  · intro count after isShort _ _ _ isFailed
    exact short count after isShort (holding.failed isFailed)
  · intro after _ isEntered
    exact written after (holding.entered there isEntered)

end Directories

theorem Holding.wp_itrunc (holding : Holding sb base (⟨ip, i, true⟩ :: hands) freed t fs)
    (there : t i = some node) (big : stop .tooBigTransaction)
    (emptied : ∀ after, Holding sb base (⟨ip, i, true⟩ :: hands) freed
      (update t i (some { node with size := 0, byte := fun _ => 0 })) after →
      post ⟨⟩ after) :
    wp (itrunc sb ip) post stop fs := by
  have copy := holding.copy there
  subst copy
  refine holding.consistent.wp_itrunc holding.locked (fun blocks _ => Room.of_stop big blocks) ?_
  intro after rewritten _
  exact emptied after (holding.rewrite rewritten)

theorem Holding.wp_ialloc (holding : Holding sb base hands freed t fs) {type : Int16}
    (typed : type ≠ 0)
    (live : ∀ s, s < NINODE → 0 < (base.itable s).ref → t (base.itable s).inum ≠ none)
    (heldLive : ∀ h ∈ hands, t h.inum ≠ none) {post : Option Nat → State → Prop}
    (big : stop .tooBigTransaction) (full : stop .igetNoInodes)
    (exhausted : (∀ i, 0 < i → i < sb.ninodes → t i ≠ none) → post none fs)
    (made : ∀ i ip after, 0 < i → i < sb.ninodes → t i = none → (base.itable ip).ref = 0 →
      taken hands ip = 0 → Holding sb base (⟨ip, i, false⟩ :: hands) freed
        (update t i (some (freshNode type))) after → SameBlocks sb fs.disk after.disk →
      post (some ip) after) :
    wp (ialloc sb type) post stop fs := by
  refine holding.consistent.wp_ialloc (Room.of_stop big _) full ?_ ?_
  · intro all
    refine exhausted fun i positive range none => ?_
    rw [← holding.nodes, nodes_eq_none] at none
    exact none ⟨range, all i positive range⟩
  · intro i ip after isMade
    obtain ⟨dead, tree⟩ := isMade.nodes typed
    rw [holding.nodes] at dead tree
    have got := isMade.got
    have before := holding.counted ip got.slot
    have count := holding.ref ip got.slot
    -- A slot in use would hold an allocated inode.
    have unused : (fs.itable ip).ref = 0 := by
      rcases got.entry with ⟨inUse, number, -⟩ | ⟨free, -, -⟩
      · simp only [setDisk_itable] at inUse number
        by_cases wasUsed : 0 < (base.itable ip).ref
        · have same := (holding.kept ip got.slot wasUsed).1
          exact absurd dead (by rw [← number, same]; exact live ip got.slot wasUsed)
        · obtain ⟨h, member, here⟩ := exists_of_taken (show 0 < taken hands ip by omega)
          have same := (holding.held h member).2.1
          rw [here, number] at same
          exact absurd dead (by rw [same]; exact heldLive h member)
      · exact free
    refine made i ip after isMade.positive isMade.range dead (by omega) (by omega) ?_ isMade.blocks
    have slot : ∀ s, s ≠ ip → after.itable s = fs.itable s := fun s different => got.other different
    refine ⟨isMade.consistent, tree, holding.counted, ?_, ?_, ?_,
      got.history.trans holding.history⟩
    · intro s inside
      rw [got.ref, setDisk_itable, holding.ref s inside, taken_cons]
      by_cases same : s = ip
      · simp only [same, ↓reduceIte]
        omega
      · simp only [same, Ne.symm same, ↓reduceIte]
        omega
    · intro s inside inUse
      have different : s ≠ ip := by
        rintro rfl
        omega
      rw [slot s different]
      exact holding.kept s inside inUse
    · intro h member
      rcases List.mem_cons.mp member with rfl | rest
      · exact ⟨got.slot, got.inum_eq, isMade.range, fun wrong => absurd wrong (by simp)⟩
      · have different : h.slot ≠ ip := by
          intro here
          have positive := taken_pos rest
          rw [here] at positive
          omega
        rw [slot h.slot different]
        exact holding.held h rest

end Xv6.Fs
