import Xv6.Vm.Tables

/-!
# Changing one entry

Page-table pages are distinct, so storing an entry moves only the paths that go through it.
-/

namespace Xv6.Vm

open Command Bytes Ownership Xv6.Tree Function

variable {pf : Platform} {s : Kernel} {pages : List Nat} {roots : Owner → Option Nat}
  {kept : Keeper → Option Nat} {mem mem' : ByteMap} {o o' : Owner} {r r' t q i v : Nat}
  {path path' : List Nat} {used : Nat → Prop} {stop : Panic → Prop}

section Entry

variable (balanced : Balanced (IsPage pf) used (held mem roots kept)) (owner : roots o = some r)
  (short : path.length ≤ 2) (reached : follow (child mem) r path = some t) (index : i < NPTE)

include balanced owner short reached index

theorem sameTables_store (owner' : roots o' = some r') (other : o' ≠ o) :
    SameTables mem (store mem (t + 8 * i) 8 v) fun _ => some r' := by
  refine (tables_of_balanced balanced owner').same (table_page balanced owner short reached).1.1
    (fun path' short' reached' => ?_) (changedIn_entry mem v index)
  exact other (table_unique balanced owner owner' short short' reached reached').1.symm

theorem follow_store (owner' : roots o' = some r') (short' : path'.length ≤ 3)
    (elsewhere : o' = o → ¬ path ++ [i] <+: path') :
    follow (child (store mem (t + 8 * i) 8 v)) r' path' = follow (child mem) r' path' := by
  by_cases other : o' = o
  · subst other
    obtain rfl : r = r' := Option.some.inj (owner.symm.trans owner')
    exact (tables_of_balanced balanced owner).follow_store short reached index short'
      (elsewhere rfl)
  · exact (sameTables_store balanced owner short reached index owner' other).follow_eq
      (o := .building) rfl short'

theorem held_store {kept' : Keeper → Option Nat} (elsewhere : o' = o → ¬ path ++ [i] <+: path') :
    held (store mem (t + 8 * i) 8 v) roots kept' (.page o' path') =
      held mem roots kept (.page o' path') := by
  by_cases owned : Owned path'
  · cases owner' : roots o' with
    | none => simp [held, owner']
    | some r' =>
      have short' : path'.length ≤ 3 := by
        rcases owned with low | ⟨exactly, -⟩ <;> omega
      rw [held_page owner' owned, held_page owner' owned,
        follow_store balanced owner short reached index owner' short' elsewhere]
  · simp [held, owned]

end Entry

theorem Books.store_entry (books : Books pf s pages roots kept) (owner : roots o = some r)
    (short : path.length ≤ 2) (reached : follow (child s.mem) r path = some t) (index : i < NPTE)
    {kept' : Keeper → Option Nat}
    (balanced : Balanced (IsPage pf) (fun q => q ∉ pages)
      (held (store s.mem (t + 8 * i) 8 v) roots kept'))
    (kind : hasFlag (v % 2 ^ 64) PTE_V = true →
      (hasFlag (v % 2 ^ 64) (PTE_R ||| PTE_W ||| PTE_X) = true ↔ path.length = 2))
    (below : ∀ path' t' j, path ++ [i] <+: path' → path'.length ≤ 2 →
      follow (child (store s.mem (t + 8 * i) 8 v)) r path' = some t' → j < NPTE →
      hasFlag (entry (store s.mem (t + 8 * i) 8 v) t' j) PTE_V = false) :
    Books pf { s with mem := store s.mem (t + 8 * i) 8 v } pages roots kept' := by
  obtain ⟨tablePage, inUse⟩ := table_page books.balanced owner short reached
  have changed := changedIn_entry (t := t) s.mem v index
  refine ⟨books.chain.congr ?_, books.nodup, books.inside, balanced, ?_⟩
  · intro free member
    refine changed.samePage tablePage.1 (books.inside free member).1 ?_
    rintro rfl
    exact inUse member
  · intro o' r' path' t' j owner' short' reached' inside valid
    simp only at reached' valid ⊢
    by_cases through : o' = o ∧ path ++ [i] <+: path'
    · obtain ⟨rfl, before⟩ := through
      obtain rfl : r = r' := Option.some.inj (owner.symm.trans owner')
      rw [below path' t' j before short' reached' inside] at valid
      simp at valid
    · rw [follow_store books.balanced owner short reached index owner' (by omega)
        fun same before => through ⟨same, before⟩] at reached'
      by_cases here : t' = t ∧ j = i
      · obtain ⟨rfl, rfl⟩ := here
        obtain ⟨rfl, rfl⟩ := table_unique books.balanced owner owner' short short' reached reached'
        rw [entry_store_same] at valid ⊢
        exact kind valid
      · have same : entry (store s.mem (t + 8 * i) 8 v) t' j = entry s.mem t' j := by
          by_cases page : t' = t
          · subst page
            exact entry_store_of_ne _ _ _ fun equal => here ⟨rfl, equal⟩
          · exact entry_congr (changed.samePage tablePage.1
              (table_page books.balanced owner' short' reached').1.1 page) inside
        rw [same] at valid ⊢
        exact books.shape o' r' path' t' j owner' short' reached' inside valid

structure Attached (mem mem' : ByteMap) (roots : Owner → Option Nat) (r q : Nat)
    (path : List Nat) : Prop where
  reached : follow (child mem') r path = some q
  leaves : ∀ o r va, roots o = some r → leaf mem' r va = leaf mem r va

variable {place : Place} {post : Option Nat → Kernel → Prop} {k : Keeper} {va : Nat}

theorem Books.attach_table (books : Books pf s pages roots kept) (owner : roots o = some r)
    (short : path.length < 2) (reached : follow (child s.mem) r path = some t) (index : i < NPTE)
    (invalid : hasFlag (entry s.mem t i) PTE_V = false) (hand : kept k = some q)
    (bare : ∀ j, j < NPTE → entry s.mem q j = 0) :
    Books pf { s with mem := store s.mem (t + 8 * i) 8 (PA2PTE q ||| PTE_V) } pages roots
        (update kept k none) ∧
      Attached s.mem (store s.mem (t + 8 * i) 8 (PA2PTE q ||| PTE_V)) roots r q (path ++ [i]) := by
  have low : path.length ≤ 2 := by omega
  obtain ⟨page, -⟩ := books.balanced.inside (.kept k) q hand
  have flag : PTE_V < 2 ^ 10 := by decide
  have word : (PA2PTE q ||| PTE_V) % 2 ^ 64 = PA2PTE q ||| PTE_V :=
    Nat.mod_eq_of_lt (pte_or_lt page.wide flag)
  have hung := (tables_of_balanced books.balanced owner).hang short reached index invalid page
    (fun _ short' reached' => kept_ne_table books.balanced hand owner short' reached' rfl) bare
  have bare' : ∀ j, j < NPTE →
      entry (store s.mem (t + 8 * i) 8 (PA2PTE q ||| PTE_V)) q j = 0 := by
    intro j inside
    have apart : q ≠ t := (kept_ne_table books.balanced hand owner low reached).symm
    rw [entry_congr ((changedIn_entry s.mem _ index).samePage
      (table_page books.balanced owner low reached).1.1 page.1 apart) inside, bare j inside]
  refine ⟨books.store_entry owner low reached index ?_ ?_ ?_, hung.reached, ?_⟩
  · have holds : held s.mem roots kept (.kept k) = some q := hand
    have owned : Owned (path ++ [i]) := owned_of_short (by simp; omega)
    have empty : held s.mem roots kept (.page o (path ++ [i])) = none := by
      rw [held_page owner owned, follow_invalid reached invalid (List.prefix_refl _)]
    have placed : held (store s.mem (t + 8 * i) 8 (PA2PTE q ||| PTE_V)) roots
        (update kept k none) (.page o (path ++ [i])) = some q := by
      rw [held_page owner owned, hung.reached]
    refine books.balanced.move holds empty (by simp [held]) placed ?_
    intro other notHand notTarget
    cases other with
    | kept k' =>
      have different : k' ≠ k := fun equal => notHand (by rw [equal])
      simp [held, different]
    | page o' path' =>
      by_cases through : o' = o ∧ path ++ [i] <+: path'
      · obtain ⟨rfl, before⟩ := through
        have gone : follow (child (store s.mem (t + 8 * i) 8 (PA2PTE q ||| PTE_V))) r path' =
            none := by
          cases passed : follow (child (store s.mem (t + 8 * i) 8 (PA2PTE q ||| PTE_V))) r path' with
          | none => rfl
          | some t' =>
            obtain ⟨rfl, -⟩ := hung.ends before passed
            exact absurd rfl notTarget
        simp [held, owner, gone, follow_invalid reached invalid before]
      · exact held_store books.balanced owner low reached index
          fun equal before => through ⟨equal, before⟩
  · intro _
    rw [word, hasFlag_pte q flag (by decide)]
    have : path.length ≠ 2 := by omega
    simp [this, hasFlag]
  · intro path' t' j before _ passed inside
    obtain ⟨-, rfl⟩ := hung.ends before passed
    rw [bare' j inside]
    rfl
  · intro o' r' va owner'
    by_cases other : o' = o
    · subst other
      obtain rfl : r = r' := Option.some.inj (owner.symm.trans owner')
      exact hung.leaves va
    · exact (sameTables_store books.balanced owner low reached index owner' other).leaf_eq
        (o := .building) rfl va

def Remapped (mem mem' : ByteMap) (roots : Owner → Option Nat) (o : Owner) (va v : Nat) : Prop :=
  ∀ o' r' va', roots o' = some r' →
    leaf mem' r' va' = if o' = o ∧ pathOf va' = pathOf va then v else leaf mem r' va'

theorem Remapped.here (remapped : Remapped mem mem' roots o va v) (owner : roots o = some r) :
    leaf mem' r va = v := by
  rw [remapped o r va owner]
  exact if_pos ⟨rfl, rfl⟩

theorem Remapped.elsewhere {va va' : Nat} (remapped : Remapped mem mem' roots o va v)
    (owner : roots o' = some r') (other : ¬ (o' = o ∧ pathOf va' = pathOf va)) :
    leaf mem' r' va' = leaf mem r' va' := by
  rw [remapped o' r' va' owner]
  exact if_neg other

section Leaf

variable {va : Nat} (balanced : Balanced (IsPage pf) used (held mem roots kept))
  (owner : roots o = some r) (reached : follow (child mem) r [PX 2 va, PX 1 va] = some t)

include balanced owner reached

theorem remapped_store (small : v < 2 ^ 64) :
    Remapped mem (store mem (t + 8 * PX 0 va) 8 v) roots o va v := by
  intro o' r' va' owner'
  by_cases other : o' = o
  · subst other
    obtain rfl : r = r' := Option.some.inj (owner.symm.trans owner')
    simp only [true_and]
    exact (tables_of_balanced balanced owner).leaf_store reached small va'
  · rw [if_neg fun both => other both.1]
    exact (sameTables_store balanced owner (by simp) reached (PX_lt 0 va) owner' other).leaf_eq
      (o := .building) rfl va'

theorem held_store_leaf {kept' : Keeper → Option Nat}
    (other : ¬ (o' = o ∧ path' = pathOf va)) :
    held (store mem (t + 8 * PX 0 va) 8 v) roots kept' (.page o' path') =
      held mem roots kept (.page o' path') := by
  by_cases owned : Owned path'
  · refine held_store balanced owner (by simp) reached (PX_lt 0 va) ?_
    intro same before
    have short' : path'.length ≤ 3 := by
      rcases owned with low | ⟨exactly, -⟩ <;> omega
    exact other ⟨same, (before.eq_of_length_le (by simpa using short')).symm⟩
  · simp [held, owned]

theorem held_store_other {k : Keeper} {x : Option Nat} {place : Place} (notKept : place ≠ .kept k)
    (notHere : place ≠ .page o (pathOf va)) :
    held (store mem (t + 8 * PX 0 va) 8 v) roots (update kept k x) place =
      held mem roots kept place := by
  cases place with
  | kept k' =>
    have different : k' ≠ k := fun equal => notKept (by rw [equal])
    simp [held, different]
  | page o' path' =>
    refine held_store_leaf balanced owner reached ?_
    rintro ⟨rfl, rfl⟩
    exact notHere rfl

end Leaf

section Mappings

variable {va : Nat} (books : Books pf s pages roots kept) (owner : roots o = some r)
  (reached : follow (child s.mem) r [PX 2 va, PX 1 va] = some t)

include books owner reached

theorem Books.store_leaf (small : v < 2 ^ 64) {kept' : Keeper → Option Nat}
    (balanced : Balanced (IsPage pf) (fun q => q ∉ pages)
      (held (store s.mem (t + 8 * PX 0 va) 8 v) roots kept'))
    (kind : hasFlag v PTE_V = true → hasFlag v (PTE_R ||| PTE_W ||| PTE_X) = true) :
    Books pf { s with mem := store s.mem (t + 8 * PX 0 va) 8 v } pages roots kept' := by
  refine books.store_entry owner (by simp) reached (PX_lt 0 va) balanced ?_ ?_
  · rw [Nat.mod_eq_of_lt small]
    exact fun valid => ⟨fun _ => rfl, fun _ => kind valid⟩
  · intro path' t' j before short
    exact absurd before (not_through_short (by simpa using short))

/-- Mapping a page in hand at a user address. -/
theorem Books.map_user {f : Nat} (invalid : hasFlag (leaf s.mem r va) PTE_V = false) {k : Keeper}
    (hand : kept k = some q) (user : Owned (pathOf va)) (flags : f < 2 ^ 10) (valid : hasFlag f PTE_V = true)
    (kind : hasFlag f (PTE_R ||| PTE_W ||| PTE_X) = true) :
    Books pf { s with mem := store s.mem (t + 8 * PX 0 va) 8 (PA2PTE q ||| f) } pages roots
        (update kept k none) ∧
      Remapped s.mem (store s.mem (t + 8 * PX 0 va) 8 (PA2PTE q ||| f)) roots o va
        (PA2PTE q ||| f) := by
  obtain ⟨page, -⟩ := books.balanced.inside (.kept k) q hand
  have bounded := page.small
  have small : PA2PTE q ||| f < 2 ^ 64 := pte_or_lt (by omega) flags
  have flag : ∀ g, g < 2 ^ 10 → hasFlag (PA2PTE q ||| f) g = hasFlag f g := by
    intro g low
    rw [hasFlag_low _ _ low, PTE_FLAGS_or q flags]
  have remapped := remapped_store books.balanced owner reached small
  refine ⟨books.store_leaf owner reached small ?_ ?_, remapped⟩
  · have holds : held s.mem roots kept (.kept k) = some q := hand
    have empty : held s.mem roots kept (.page o (pathOf va)) = none := by
      rw [held_page owner user, follow_pathOf, invalid]
      rfl
    have placed : held (store s.mem (t + 8 * PX 0 va) 8 (PA2PTE q ||| f)) roots
        (update kept k none) (.page o (pathOf va)) = some q := by
      rw [held_page owner user, follow_pathOf, remapped.here owner, flag PTE_V (by decide), valid,
        PTE2PA_or page.1 (by omega) flags]
      rfl
    exact books.balanced.move holds empty (by simp [held]) placed fun _ notHand notTarget =>
      held_store_other books.balanced owner reached notHand notTarget
  · intro _
    rw [flag _ (by decide)]
    exact kind

theorem Books.remap (small : v < 2 ^ 64)
    (kind : hasFlag v PTE_V = true → hasFlag v (PTE_R ||| PTE_W ||| PTE_X) = true)
    (here : Owned (pathOf va) → PTE2PA v = PTE2PA (leaf s.mem r va) ∧
      hasFlag v PTE_V = hasFlag (leaf s.mem r va) PTE_V) :
    Books pf { s with mem := store s.mem (t + 8 * PX 0 va) 8 v } pages roots kept ∧
      Remapped s.mem (store s.mem (t + 8 * PX 0 va) 8 v) roots o va v := by
  have remapped := remapped_store books.balanced owner reached small
  refine ⟨books.store_leaf owner reached small ?_ kind, remapped⟩
  refine books.balanced.congr (fun _ _ => Iff.rfl) fun place => ?_
  cases place with
  | kept k => rfl
  | page o' path' =>
    by_cases same : o' = o ∧ path' = pathOf va
    · obtain ⟨rfl, rfl⟩ := same
      by_cases owned : Owned (pathOf va)
      · rw [held_page owner owned, held_page owner owned, follow_pathOf, follow_pathOf,
          remapped.here owner, (here owned).1, (here owned).2]
      · simp [held, owned]
    · exact held_store_leaf books.balanced owner reached same

theorem Books.map_special (special : ¬ Owned (pathOf va)) (small : v < 2 ^ 64)
    (kind : hasFlag v PTE_V = true → hasFlag v (PTE_R ||| PTE_W ||| PTE_X) = true) :
    Books pf { s with mem := store s.mem (t + 8 * PX 0 va) 8 v } pages roots kept ∧
      Remapped s.mem (store s.mem (t + 8 * PX 0 va) 8 v) roots o va v :=
  books.remap owner reached small kind fun owned => absurd owned special

theorem Books.unmap_user (valid : hasFlag (leaf s.mem r va) PTE_V = true) (user : Owned (pathOf va))
    {k : Keeper} (hand : kept k = none) :
    Books pf { s with mem := store s.mem (t + 8 * PX 0 va) 8 0 } pages roots
        (update kept k (some (PTE2PA (leaf s.mem r va)))) ∧
      Remapped s.mem (store s.mem (t + 8 * PX 0 va) 8 0) roots o va 0 := by
  have remapped := remapped_store (v := 0) books.balanced owner reached (by decide)
  refine ⟨books.store_leaf owner reached (by decide) ?_ (by simp), remapped⟩
  have holds : held s.mem roots kept (.page o (pathOf va)) =
      some (PTE2PA (leaf s.mem r va)) := by
    rw [held_page owner user, follow_pathOf, valid]
    rfl
  have empty : held s.mem roots kept (.kept k) = none := hand
  have emptied : held (store s.mem (t + 8 * PX 0 va) 8 0) roots
      (update kept k (some (PTE2PA (leaf s.mem r va)))) (.page o (pathOf va)) = none := by
    rw [held_page owner user, follow_pathOf, remapped.here owner]
    simp
  exact books.balanced.move holds empty emptied (by simp [held]) fun _ notSource notHand =>
    held_store_other books.balanced owner reached notHand notSource

theorem Books.reflag (small : v < 2 ^ 64) (page : PTE2PA v = PTE2PA (leaf s.mem r va))
    (valid : hasFlag v PTE_V = hasFlag (leaf s.mem r va) PTE_V)
    (kind : hasFlag v PTE_V = true → hasFlag v (PTE_R ||| PTE_W ||| PTE_X) = true) :
    Books pf { s with mem := store s.mem (t + 8 * PX 0 va) 8 v } pages roots kept ∧
      Remapped s.mem (store s.mem (t + 8 * PX 0 va) 8 v) roots o va v :=
  books.remap owner reached small kind fun _ => ⟨page, valid⟩

end Mappings

theorem freed_store_comm (mem : ByteMap) (freelist : Nat) (aligned : q % PGSIZE = 0)
    (other : t % PGSIZE = 0) (apart : t ≠ q) (index : i < NPTE) :
    store (freed mem freelist q) (t + 8 * i) 8 v = freed (store mem (t + 8 * i) 8 v) freelist q := by
  funext a
  by_cases onPage : q ≤ a ∧ a < q + PGSIZE
  · have missed : ¬ (t + 8 * i ≤ a ∧ a < t + 8 * i + 8) := by
      simp only [PGSIZE, NPTE] at *
      omega
    by_cases link : q ≤ a ∧ a < q + 8 <;> simp [store, freed, fill, missed, onPage, link]
  · have notLink : ¬ (q ≤ a ∧ a < q + 8) := by
      simp only [PGSIZE] at *
      omega
    simp [store, freed, fill, onPage, notLink]

def Accounted (pf : Platform) (s : Kernel) (roots : Owner → Option Nat)
    (kept : Keeper → Option Nat) : Prop :=
  ∃ pages, Books pf s pages roots kept

structure SameMappings (pf : Platform) (s : Kernel) (roots : Owner → Option Nat)
    (kept : Keeper → Option Nat) (after : Kernel) : Prop where
  accounted : Accounted pf after roots kept
  leaves : ∀ o r va, roots o = some r → va < VASPACE → leaf after.mem r va = leaf s.mem r va
  processes : after.proc = s.proc
  first : after.initproc = s.initproc

def Spared (o : Owner) (region : Owner → Nat → Prop) : Place → Prop
  | .page o' path => o' ≠ o ∨ ∃ va, va < TRAPFRAME ∧ path = pathOf va ∧ ¬ region o va
  | .kept k => k ≠ .hand ∧ k ≠ .node

structure Within (pf : Platform) (s : Kernel) (roots : Owner → Option Nat)
    (kept : Keeper → Option Nat) (o : Owner) (region : Owner → Nat → Prop) (after : Kernel) :
    Prop where
  accounted : Accounted pf after roots kept
  leaves : ∀ o r va, roots o = some r → va < VASPACE → ¬ region o va →
    leaf after.mem r va = leaf s.mem r va
  frame : ∀ place q, Spared o region place → held s.mem roots kept place = some q →
    SamePage s.mem after.mem q
  outside : SameOutside pf s.mem after.mem
  processes : after.proc = s.proc
  first : after.initproc = s.initproc
  denied : s.denied ≤ after.denied

abbrev Quiet (pf : Platform) (s : Kernel) (roots : Owner → Option Nat)
    (kept : Keeper → Option Nat) (o : Owner) (after : Kernel) : Prop :=
  Within pf s roots kept o (fun _ _ => False) after

variable {region region' : Owner → Nat → Prop} {middle after : Kernel}

/-- Doing nothing is quiet. -/
theorem Quiet.refl (accounted : Accounted pf s roots kept) : Quiet pf s roots kept o s :=
  ⟨accounted, fun _ _ _ _ _ _ => rfl, fun _ q _ _ => SamePage.refl s.mem q,
    SameOutside.refl pf s.mem, rfl, rfl, Nat.le_refl _⟩

/-- `kalloc` has refused a page. -/
theorem Quiet.refused (books : Books pf s pages roots kept) :
    Quiet pf s roots kept o { s with asked := s.asked + 1, denied := s.denied + 1 } :=
  ⟨⟨pages, books.transport rfl rfl⟩, fun _ _ _ _ _ _ => rfl, fun _ q _ _ => SamePage.refl s.mem q,
    SameOutside.refl pf s.mem, rfl, rfl, Nat.le_succ _⟩

theorem Within.sameMappings (quiet : Quiet pf s roots kept o after) :
    SameMappings pf s roots kept after :=
  ⟨quiet.accounted, fun o r va owner low => quiet.leaves o r va owner low id, quiet.processes,
    quiet.first⟩

theorem Spared.not_table (spared : Spared o region place) (short : path.length ≤ 2)
    (same : place = .page o path) : False := by
  subst same
  rcases spared with other | ⟨va, -, rfl, -⟩
  · exact other rfl
  · simp [pathOf] at short

theorem Spared.mono (spared : Spared o region' place) (wider : ∀ o va, region o va → region' o va) :
    Spared o region place := by
  cases place with
  | kept k => exact spared
  | page o' path =>
    refine spared.imp_right ?_
    rintro ⟨va, user, rfl, outside⟩
    exact ⟨va, user, rfl, fun inside => outside (wider o va inside)⟩

theorem Within.mono (within : Within pf s roots kept o region after)
    (wider : ∀ o va, region o va → region' o va) : Within pf s roots kept o region' after :=
  ⟨within.accounted, fun o r va owner low outside =>
    within.leaves o r va owner low fun inside => outside (wider o va inside),
    fun place q spared holds => within.frame place q (spared.mono wider) holds, within.outside,
    within.processes, within.first, within.denied⟩

theorem Within.follow_eq (within : Within pf s roots kept o region after) (other : o' ≠ o)
    (owner : roots o' = some r) (short : path.length ≤ 3) :
    follow (child after.mem) r path = follow (child s.mem) r path := by
  apply follow_congr
  intro front index node before reached
  have length : front.length ≤ 2 := by
    have := before.length_le
    simp only [List.length_append, List.length_cons, List.length_nil] at this
    omega
  refine child_congr (within.frame (.page o' front) node (.inl other) ?_)
  rw [held_page owner (owned_of_short length), reached]

/-- A spared place keeps its page. -/
theorem Within.held_eq (within : Within pf s roots kept o region after)
    (spared : Spared o region place) :
    held after.mem roots kept place = held s.mem roots kept place := by
  cases place with
  | kept k => rfl
  | page o' path =>
    by_cases owned : Owned path
    · cases owner : roots o' with
      | none => simp [held, owner]
      | some r =>
        have short : path.length ≤ 3 := by
          rcases owned with low | ⟨exactly, -⟩ <;> omega
        rw [held_page owner owned, held_page owner owned]
        by_cases other : o' = o
        · obtain ⟨va, user, rfl, outside⟩ := spared.resolve_left (not_not.mpr other)
          have low : va < VASPACE := Nat.lt_trans user (by decide)
          subst other
          rw [follow_pathOf, follow_pathOf, within.leaves _ r va owner low outside]
        · exact within.follow_eq other owner short
    · simp [held, owned]

theorem Within.trans {kept' : Keeper → Option Nat}
    (first : Within pf s roots kept o region middle)
    (second : Within pf middle roots kept' o region after)
    (settled : ∀ k, k ≠ .hand → k ≠ .node → kept' k = kept k := by
      intro k notHand notNode; simp [notHand, notNode]) :
    Within pf s roots kept' o region after := by
  refine ⟨second.accounted, fun o r va owner low outside =>
    (second.leaves o r va owner low outside).trans (first.leaves o r va owner low outside), ?_,
    first.outside.trans second.outside, second.processes.trans first.processes, second.first.trans first.first,
    first.denied.trans second.denied⟩
  intro place q spared holds
  have same : ∀ mem, held mem roots kept' place = held mem roots kept place := by
    intro mem
    cases place with
    | page o' path => rfl
    | kept k => exact settled k spared.1 spared.2
  have before : held s.mem roots kept place = some q := by rw [← same, holds]
  refine (first.frame place q spared before).trans (second.frame place q spared ?_)
  rw [same, first.held_eq spared, before]

theorem Within.of_quiet (quiet : Quiet pf s roots kept o after) :
    Within pf s roots kept o region after :=
  quiet.mono fun _ _ impossible => impossible.elim

theorem Within.leaf_of_quiet (quiet : Quiet pf s roots kept o after) (owner : roots o' = some r)
    (low : va < VASPACE) : leaf after.mem r va = leaf s.mem r va :=
  quiet.leaves o' r va owner low id

theorem Books.frame_at (books : Books pf s pages roots kept)
    (holds : held s.mem roots kept place = some q) (changed : ChangedIn s.mem mem' q)
    {other : Place} {q' : Nat} (different : other ≠ place)
    (holds' : held s.mem roots kept other = some q') : SamePage s.mem mem' q' := by
  refine changed.samePage (books.balanced.inside place q holds).1.1
    (books.balanced.inside other q' holds').1.1 ?_
  rintro rfl
  exact different (books.balanced.single other place q' holds' holds)

theorem Accounted.scribble_at (accounted : Accounted pf s roots kept) (notTable : place.NotTable)
    (holds : held s.mem roots kept place = some q) (changed : ChangedIn s.mem mem' q) :
    SameMappings pf s roots kept { s with mem := mem' } := by
  obtain ⟨pages, books⟩ := accounted
  refine ⟨⟨pages, books.scribble_at notTable holds changed⟩, ?_, rfl, rfl⟩
  intro o r va owner _
  exact (books.sameTables notTable holds changed).leaf_eq owner va

theorem Accounted.scribble (accounted : Accounted pf s roots kept) (holds : kept k = some q)
    (changed : ChangedIn s.mem mem' q) :
    SameMappings pf s roots kept { s with mem := mem' } := by
  have atPlace : held s.mem roots kept (.kept k) = some q := holds
  exact accounted.scribble_at (Place.notTable_kept k) atPlace changed

theorem Accounted.scribble_hand (accounted : Accounted pf s roots kept)
    (holds : kept .hand = some q) (changed : ChangedIn s.mem mem' q) :
    Quiet pf s roots kept o { s with mem := mem' } := by
  have same := accounted.scribble holds changed
  obtain ⟨pages, books⟩ := accounted
  have atPlace : held s.mem roots kept (.kept .hand) = some q := holds
  refine ⟨same.accounted, fun o r va owner low _ => same.leaves o r va owner low, ?_,
    changed.sameOutside (books.balanced.inside _ q atPlace).1, rfl, rfl, Nat.le_refl _⟩
  intro place q' spared holds'
  refine books.frame_at atPlace changed ?_ holds'
  rintro rfl
  exact spared.1 rfl

theorem Books.frame_free {rest : List Nat} (books : Books pf s (q :: rest) roots kept)
    (changed : ChangedIn s.mem mem' q) {q' : Nat} (holds : held s.mem roots kept place = some q') :
    SamePage s.mem mem' q' := by
  obtain ⟨page, inUse⟩ := books.balanced.inside place q' holds
  refine changed.samePage (books.inside q (by simp)).1 page.1 ?_
  rintro rfl
  exact inUse (by simp)

theorem Books.sameTables_free {rest : List Nat} (books : Books pf s (q :: rest) roots kept)
    (changed : ChangedIn s.mem mem' q) : SameTables s.mem mem' roots := by
  intro o r path t owner short reached
  have holds : held s.mem roots kept (.page o path) = some t := by
    rw [held_page owner (owned_of_short short), reached]
  exact books.frame_free changed holds

/-- The law of `kalloc` in these terms. -/
theorem Accounted.wp_kalloc (accounted : Accounted pf s roots kept)
    (empty : kept k = none) {post : Nat → Kernel → Prop}
    (refused : ∀ after, SameMappings pf s roots kept after → post 0 after)
    (got : ∀ q after, IsPage pf q →
      SameMappings pf s roots (update kept k (some q)) after → post q after) :
    wp (kalloc pf) post stop s := by
  obtain ⟨pages, books⟩ := accounted
  refine books.wp_kalloc empty (refused _ ⟨⟨pages, books.transport rfl rfl⟩,
    fun _ _ _ _ _ => rfl, rfl, rfl⟩) ?_
  rintro q rest mem freelist rfl page changed taken
  refine got q _ page ⟨⟨rest, taken⟩, ?_, rfl, rfl⟩
  intro o r va owner _
  exact (books.sameTables_free changed).leaf_eq owner va

theorem Accounted.wp_kalloc_hand (accounted : Accounted pf s roots kept) (o : Owner)
    (empty : kept .hand = none) {post : Nat → Kernel → Prop}
    (refused : ∀ after, Quiet pf s roots kept o after → s.denied < after.denied → post 0 after)
    (got : ∀ q after, IsPage pf q →
      Quiet pf s roots (update kept .hand (some q)) o after → post q after) :
    wp (kalloc pf) post stop s := by
  obtain ⟨pages, books⟩ := accounted
  refine books.wp_kalloc empty (refused _ (Quiet.refused books) (Nat.lt_succ_self _)) ?_
  rintro q rest mem freelist rfl page changed taken
  refine got q _ page ⟨⟨rest, taken⟩, ?_, ?_, changed.sameOutside page, rfl, rfl, Nat.le_refl _⟩
  · intro o r va owner _ _
    exact (books.sameTables_free changed).leaf_eq owner va
  · intro place q' spared holds
    have before : held s.mem roots kept place = some q' := by
      rw [← holds]
      cases place with
      | page o' path => rfl
      | kept k => exact (update_of_ne spared.1 ..).symm
    exact books.frame_free changed before

theorem Accounted.free_kept (accounted : Accounted pf s roots kept) (hand : kept k = some q) :
    SameMappings pf s roots (update kept k none)
      { s with mem := freed s.mem s.freelist q, freelist := q } := by
  obtain ⟨pages, books⟩ := accounted
  have atPlace : held s.mem roots kept (.kept k) = some q := hand
  refine ⟨⟨q :: pages, books.free_hand hand⟩, ?_, rfl, rfl⟩
  intro o r va owner _
  exact (books.sameTables (Place.notTable_kept k) atPlace
    (changedIn_freed s.mem s.freelist q)).leaf_eq owner va

/-- Freeing the page in hand is quiet. -/
theorem Accounted.free_hand (accounted : Accounted pf s roots kept) (hand : kept .hand = some q) :
    Quiet pf s roots (update kept .hand none) o
      { s with mem := freed s.mem s.freelist q, freelist := q } := by
  have same := accounted.free_kept hand
  obtain ⟨pages, books⟩ := accounted
  have atPlace : held s.mem roots kept (.kept .hand) = some q := hand
  have freedPage := changedIn_freed s.mem s.freelist q
  refine ⟨same.accounted, fun o r va owner low _ => same.leaves o r va owner low, ?_,
    freedPage.sameOutside (books.balanced.inside _ q atPlace).1, rfl, rfl, Nat.le_refl _⟩
  intro place q' spared holds
  have before : held s.mem roots kept place = some q' := by
    rw [← holds]
    cases place with
    | page o' path => rfl
    | kept k => exact (update_of_ne spared.1 ..).symm
  refine books.frame_at atPlace freedPage ?_ before
  rintro rfl
  exact spared.1 rfl

/-- The law of `kfree` in these terms. -/
theorem Accounted.wp_kfree (accounted : Accounted pf s roots kept)
    (hand : kept k = some q) {post : PUnit → Kernel → Prop}
    (done : ∀ after, SameMappings pf s roots (update kept k none) after →
      post ⟨⟩ after) :
    wp (kfree pf q) post stop s := by
  obtain ⟨pages, books⟩ := accounted
  exact Vm.wp_kfree (books.balanced.inside (.kept k) q hand).1
    (done _ (Accounted.free_kept ⟨pages, books⟩ hand))

theorem Accounted.wp_kfree_hand (accounted : Accounted pf s roots kept) (o : Owner)
    (hand : kept .hand = some q) {post : PUnit → Kernel → Prop}
    (done : ∀ after, Quiet pf s roots (update kept .hand none) o after →
      post ⟨⟩ after) :
    wp (kfree pf q) post stop s := by
  obtain ⟨pages, books⟩ := accounted
  exact Vm.wp_kfree (books.balanced.inside (.kept .hand) q hand).1
    (done _ (Accounted.free_hand ⟨pages, books⟩ hand))

def SameHand (s : Kernel) (kept : Keeper → Option Nat) (after : Kernel) : Prop :=
  ∀ q, kept .hand = some q → SamePage s.mem after.mem q

theorem SameHand.refl (s : Kernel) (kept : Keeper → Option Nat) : SameHand s kept s :=
  fun q _ => SamePage.refl s.mem q

/-- The law of `walk` when it only looks. -/
theorem wp_walk_look (range : va < MAXVA)
    (absent : follow (child s.mem) r [PX 2 va, PX 1 va] = none → post none s)
    (present : ∀ t, follow (child s.mem) r [PX 2 va, PX 1 va] = some t →
      post (some (t + 8 * PX 0 va)) s) :
    wp (walk pf r va false) post stop s := by
  have inRange : ¬ MAXVA ≤ va := by omega
  have top : load s.mem (r + 8 * PX 2 va) 8 = entry s.mem r (PX 2 va) := rfl
  simp only [walk, inRange, ↓reduceIte, walkFrom, wp_bind, wp_loadWord, Nat.zero_add,
    Nat.reduceAdd, top]
  by_cases upper : hasFlag (entry s.mem r (PX 2 va)) PTE_V = true
  · have first : child s.mem r (PX 2 va) = some (PTE2PA (entry s.mem r (PX 2 va))) :=
      child_eq_some.mpr ⟨⟨PX_lt 2 va, upper⟩, rfl⟩
    generalize PTE2PA (entry s.mem r (PX 2 va)) = m at first ⊢
    have middle : load s.mem (m + 8 * PX 1 va) 8 = entry s.mem m (PX 1 va) := rfl
    simp only [upper, ↓reduceIte, wp_bind, wp_loadWord, middle]
    by_cases lower : hasFlag (entry s.mem m (PX 1 va)) PTE_V = true
    · have second : child s.mem m (PX 1 va) = some (PTE2PA (entry s.mem m (PX 1 va))) :=
        child_eq_some.mpr ⟨⟨PX_lt 1 va, lower⟩, rfl⟩
      simp only [lower, ↓reduceIte, wp_pure]
      exact present _ (by simp [follow_cons, first, second])
    · simp only [lower, Bool.false_eq_true, ↓reduceIte, wp_pure]
      have second := child_of_invalid (by simpa using lower : hasFlag (entry s.mem m (PX 1 va)) PTE_V = false)
      exact absent (by simp [follow_cons, first, second])
  · simp only [upper, Bool.false_eq_true, ↓reduceIte, wp_pure]
    have first := child_of_invalid (by simpa using upper : hasFlag (entry s.mem r (PX 2 va)) PTE_V = false)
    exact absent (by simp [follow_cons, first])

def above (va level : Nat) : List Nat := [PX 2 va, PX 1 va].take (2 - level)

theorem above_succ {va level : Nat} (inside : level < 2) :
    above va (level + 1) ++ [PX (level + 1) va] = above va level := by
  have cases : level = 0 ∨ level = 1 := by omega
  rcases cases with rfl | rfl <;> rfl

/-- The law of the rounds of `walk` when it may allocate. -/
theorem Accounted.wp_walkFrom (level : Nat) (inside : level ≤ 2)
    (owner : roots o = some r) (node : kept .node = none)
    (accounted : Accounted pf s roots kept)
    (reached : follow (child s.mem) r (above va level) = some t)
    (refused : ∀ after, Quiet pf s roots kept o after → s.denied < after.denied → post none after)
    (found : ∀ t after, Quiet pf s roots kept o after → SameHand s kept after →
      follow (child after.mem) r [PX 2 va, PX 1 va] = some t →
      post (some (t + 8 * PX 0 va)) after) :
    wp (walkFrom pf va true level t) post stop s := by
  induction level generalizing s t with
  | zero =>
    rw [walkFrom, wp_pure]
    exact found t s (Quiet.refl accounted) (SameHand.refl s kept) reached
  | succ level ih =>
    have loaded : load s.mem (t + 8 * PX (level + 1) va) 8 = entry s.mem t (PX (level + 1) va) :=
      rfl
    simp only [walkFrom, wp_bind, wp_loadWord, loaded]
    split
    · rename_i valid
      refine ih (by omega) accounted ?_ refused found
      rw [← above_succ (by omega), follow_snoc, reached, Option.bind_some, child_eq_some]
      exact ⟨⟨PX_lt _ va, valid⟩, rfl⟩
    · rename_i invalid
      simp only [Bool.true_eq_false, ↓reduceIte, wp_bind]
      obtain ⟨pages, books⟩ := accounted
      refine books.wp_kalloc node ?_ ?_
      · simp only [↓reduceIte, wp_pure]
        exact refused _ (Quiet.refused books) (Nat.lt_succ_self _)
      · rintro q rest mem freelist rfl page changed taken
        simp only [page.nonzero, ↓reduceIte, wp_bind, wp_memset, wp_storeWord]
        have cleared : ChangedIn s.mem (fill mem q PGSIZE 0) q :=
          changed.trans (changedIn_fill mem q 0)
        have tables : SameTables s.mem (fill mem q PGSIZE 0) roots := books.sameTables_free cleared
        have length : (above va (level + 1)).length < 2 := by
          simp only [above, List.length_take, List.length_cons, List.length_nil]
          omega
        have still : follow (child (fill mem q PGSIZE 0)) r (above va (level + 1)) = some t := by
          rw [tables.follow_eq owner (by omega), reached]
        have unset : hasFlag (entry (fill mem q PGSIZE 0) t (PX (level + 1) va)) PTE_V = false := by
          rw [entry_congr (tables o r _ t owner (by omega) reached) (PX_lt _ va)]
          simpa using invalid
        obtain ⟨hung, attached⟩ := (taken.scribble (k := .node) (by simp)
          (changedIn_fill mem q 0)).attach_table (k := .node) owner length still (PX_lt _ va) unset
          (by simp) (fun j below => entry_fill_zero mem q below)
        rw [update_idem, ← node, update_eq_self] at hung
        -- Only the new page and the page-table page above it have changed.
        have untouched : ∀ place q', place ≠ .page o (above va (level + 1)) →
            held s.mem roots kept place = some q' →
            SamePage s.mem (store (fill mem q PGSIZE 0) (t + 8 * PX (level + 1) va) 8
              (PA2PTE q ||| PTE_V)) q' := by
          intro place q' different holds
          refine (books.frame_free cleared holds).trans ?_
          refine (changedIn_entry _ _ (PX_lt _ va)).samePage
            (table_page books.balanced owner (by omega) reached).1.1
            (books.balanced.inside place q' holds).1.1 ?_
          rintro rfl
          exact different (books.balanced.single place (.page o (above va (level + 1))) q' holds
            (by rw [held_page owner (owned_of_short (by omega)), reached]))
        have quiet : Quiet pf s roots kept o { s with
            asked := s.asked + 1, freelist := freelist
            mem := store (fill mem q PGSIZE 0) (t + 8 * PX (level + 1) va) 8 (PA2PTE q ||| PTE_V) } := by
          refine ⟨⟨rest, hung⟩, fun o' r' va' owner' _ _ => (attached.leaves o' r' va' owner').trans
            (tables.leaf_eq owner' va'), ?_, (cleared.sameOutside page).trans
            ((changedIn_entry _ _ (PX_lt _ va)).sameOutside
              (table_page books.balanced owner (by omega) reached).1), rfl, rfl, Nat.le_refl _⟩
          intro place q' spared holds
          exact untouched place q' (fun same => spared.not_table (by omega) same) holds
        have hand : SameHand s kept { s with
            asked := s.asked + 1, freelist := freelist
            mem := store (fill mem q PGSIZE 0) (t + 8 * PX (level + 1) va) 8 (PA2PTE q ||| PTE_V) } :=
          fun q' holds => untouched (.kept .hand) q' (by simp) holds
        refine ih (by omega) quiet.accounted ?_
          (fun after later short => refused after (quiet.trans later) short)
          fun t after later laterHand =>
            found t after (quiet.trans later) fun q' holds => (hand q' holds).trans (laterHand q' holds)
        rw [← above_succ (by omega)]
        exact attached.reached

theorem Accounted.wp_walk (accounted : Accounted pf s roots kept) (range : va < MAXVA)
    (owner : roots o = some r) (node : kept .node = none)
    (refused : ∀ after, Quiet pf s roots kept o after → s.denied < after.denied → post none after)
    (found : ∀ t after, Quiet pf s roots kept o after → SameHand s kept after →
      follow (child after.mem) r [PX 2 va, PX 1 va] = some t →
      post (some (t + 8 * PX 0 va)) after) :
    wp (walk pf r va true) post stop s := by
  have inRange : ¬ MAXVA ≤ va := by omega
  simp only [walk, inRange, ↓reduceIte]
  exact accounted.wp_walkFrom 2 (Nat.le_refl 2) owner node rfl refused found

end Xv6.Vm
