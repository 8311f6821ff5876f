import Xv6.Vm.Books

/-!
# The tree of a page table

A page table is a tree of page-table pages.
-/

namespace Xv6.Vm

open Command Bytes Ownership Xv6.Tree

variable {pf : Platform} {used : Nat → Prop} {roots : Owner → Option Nat}
  {kept : Keeper → Option Nat} {mem mem' : ByteMap} {o : Owner} {r t q i v va : Nat}
  {path path' : List Nat}

abbrev VASPACE : Nat := 2 ^ 39

theorem lt_vaspace {va : Nat} (low : va < MAXVA) : va < VASPACE := by
  simp only [MAXVA, VASPACE] at *
  omega

theorem pathOf_eq {a b : Nat} (left : a < VASPACE) (right : b < VASPACE) :
    pathOf a = pathOf b ↔ a / PGSIZE = b / PGSIZE := by
  simp only [pathOf, PX, List.cons.injEq, and_true, NPTE, PGSIZE, VASPACE, Nat.reduceMul,
    Nat.reduceAdd, Nat.mul_zero, Nat.add_zero, Nat.mul_one, Nat.reducePow] at *
  omega

def leaf (mem : ByteMap) (r va : Nat) : Nat :=
  match follow (child mem) r [PX 2 va, PX 1 va] with
  | some t => entry mem t (PX 0 va)
  | none => 0

theorem leaf_of_table {va : Nat} (reached : follow (child mem) r [PX 2 va, PX 1 va] = some t) :
    leaf mem r va = entry mem t (PX 0 va) := by
  rw [leaf, reached]

theorem leaf_of_none {va : Nat} (absent : follow (child mem) r [PX 2 va, PX 1 va] = none) :
    leaf mem r va = 0 := by
  rw [leaf, absent]

theorem PX_lt (level va : Nat) : PX level va < NPTE := Nat.mod_lt _ (by decide)

theorem follow_pathOf (mem : ByteMap) (r va : Nat) :
    follow (child mem) r (pathOf va) =
      if hasFlag (leaf mem r va) PTE_V = true then some (PTE2PA (leaf mem r va)) else none := by
  have split : pathOf va = [PX 2 va, PX 1 va] ++ [PX 0 va] := rfl
  rw [split, follow_snoc]
  cases reached : follow (child mem) r [PX 2 va, PX 1 va] with
  | none => simp [leaf_of_none reached]
  | some t => simp [leaf_of_table reached, child, PX_lt]

theorem leaf_page {mem : ByteMap} {a b : Nat} (left : a < VASPACE) (right : b < VASPACE)
    (same : a / PGSIZE = b / PGSIZE) : leaf mem r a = leaf mem r b := by
  have path := (pathOf_eq left right).mpr same
  simp only [pathOf, List.cons.injEq, and_true] at path
  rw [leaf, leaf, path.1, path.2.1, path.2.2]

theorem child_of_invalid (invalid : hasFlag (entry mem t i) PTE_V = false) :
    child mem t i = none := by
  simp [child, invalid]

theorem follow_invalid (reached : follow (child mem) r path = some t)
    (invalid : hasFlag (entry mem t i) PTE_V = false) (before : path ++ [i] <+: path') :
    follow (child mem) r path' = none := by
  obtain ⟨rest, rfl⟩ := before
  rw [follow_append, follow_snoc, reached, Option.bind_some, child_of_invalid invalid,
    Option.bind_none]

theorem follow_bare (bare : ∀ j, j < NPTE → entry mem q j = 0) {path : List Nat} {t : Nat}
    (reached : follow (child mem) q path = some t) : path = [] ∧ t = q := by
  refine follow_leaf (fun j => ?_) reached
  by_cases inside : j < NPTE
  · exact child_of_invalid (by rw [bare j inside]; rfl)
  · simp [child, inside]

theorem not_through_short {i : Nat} (short : path'.length ≤ path.length) :
    ¬ path ++ [i] <+: path' := by
  intro before
  have := before.length_le
  simp only [List.length_append, List.length_cons, List.length_nil] at this
  omega

theorem SameTables.leaf_eq (same : SameTables mem mem' roots) (owner : roots o = some r)
    (va : Nat) : leaf mem' r va = leaf mem r va := by
  have table := same.follow_eq owner (show [PX 2 va, PX 1 va].length ≤ 3 by simp)
  cases passed : follow (child mem) r [PX 2 va, PX 1 va] with
  | none => rw [leaf_of_none passed, leaf_of_none (table.trans passed)]
  | some t =>
    rw [leaf_of_table passed, leaf_of_table (table.trans passed)]
    exact entry_congr (same o r _ t owner (by simp) passed) (PX_lt 0 va)

theorem child_store_of_ne {t' j : Nat} (aligned : t % PGSIZE = 0) (aligned' : t' % PGSIZE = 0)
    (index : i < NPTE) (away : t' ≠ t ∨ j ≠ i) :
    child (store mem (t + 8 * i) 8 v) t' j = child mem t' j := by
  by_cases here : t' = t
  · subst here
    have other : j ≠ i := away.resolve_left fun different => different rfl
    rw [child, child, entry_store_of_ne mem t' v other]
  · exact child_congr ((changedIn_entry mem v index).samePage aligned aligned' here)

structure Tables (pf : Platform) (used : Nat → Prop) (mem : ByteMap) (r : Nat) : Prop where
  inUse : ∀ path t, path.length ≤ 2 → follow (child mem) r path = some t → IsPage pf t ∧ used t
  single : ∀ path path' t, path.length ≤ 2 → path'.length ≤ 2 →
    follow (child mem) r path = some t → follow (child mem) r path' = some t → path = path'

theorem tables_of_balanced (balanced : Balanced (IsPage pf) used (held mem roots kept))
    (owner : roots o = some r) : Tables pf used mem r :=
  ⟨fun _ _ short reached => table_page balanced owner short reached,
    fun _ _ _ short short' reached reached' =>
      (table_unique balanced owner owner short short' reached reached').2⟩

theorem Tables.congr {used' : Nat → Prop} (tables : Tables pf used mem r)
    (follows : ∀ {path : List Nat}, path.length ≤ 2 →
      follow (child mem') r path = follow (child mem) r path)
    (kept : ∀ path t, path.length ≤ 2 → follow (child mem) r path = some t → used t → used' t) :
    Tables pf used' mem' r := by
  refine ⟨?_, ?_⟩
  · intro path t short reached
    rw [follows short] at reached
    obtain ⟨page, inUse⟩ := tables.inUse path t short reached
    exact ⟨page, kept path t short reached inUse⟩
  · intro path path' t short short' reached reached'
    rw [follows short] at reached
    rw [follows short'] at reached'
    exact tables.single path path' t short short' reached reached'

theorem Tables.same (tables : Tables pf used mem r) (aligned : q % PGSIZE = 0)
    (notTable : ∀ path, path.length ≤ 2 → follow (child mem) r path ≠ some q)
    (changed : ChangedIn mem mem' q) : SameTables mem mem' fun _ => some r := by
  intro _ root path t isRoot short reached
  obtain rfl := Option.some.inj isRoot
  refine changed.samePage aligned (tables.inUse path t short reached).1.1 ?_
  rintro rfl
  exact notTable path short reached

theorem Tables.follow_store (tables : Tables pf used mem r) (short : path.length ≤ 2)
    (reached : follow (child mem) r path = some t) (index : i < NPTE)
    (short' : path'.length ≤ 3) (elsewhere : ¬ path ++ [i] <+: path') :
    follow (child (store mem (t + 8 * i) 8 v)) r path' = follow (child mem) r path' := by
  refine follow_redirect (fun front shorter (passed : _ = some t) => ?_)
    (fun front node j shorter passed away => ?_) elsewhere
  · exact tables.single front path t (by omega) short passed reached
  · exact child_store_of_ne (tables.inUse path t short reached).1.1
      (tables.inUse front node (by omega) passed).1.1 index away

theorem Tables.follow_leaf (tables : Tables pf used mem r)
    (reached : follow (child mem) r [PX 2 va, PX 1 va] = some t) (short : path.length ≤ 2) :
    follow (child (store mem (t + 8 * PX 0 va) 8 v)) r path = follow (child mem) r path :=
  tables.follow_store (by simp) reached (PX_lt 0 va) (by omega) (not_through_short short)

/-- So it keeps the tree. -/
theorem Tables.keep_leaf (tables : Tables pf used mem r)
    (reached : follow (child mem) r [PX 2 va, PX 1 va] = some t) :
    Tables pf used (store mem (t + 8 * PX 0 va) 8 v) r :=
  tables.congr (fun short => tables.follow_leaf reached short) fun _ _ _ _ inUse => inUse

theorem Tables.leaf_store (tables : Tables pf used mem r)
    (reached : follow (child mem) r [PX 2 va, PX 1 va] = some t) (small : v < 2 ^ 64) (va' : Nat) :
    leaf (store mem (t + 8 * PX 0 va) 8 v) r va' =
      if pathOf va' = pathOf va then v else leaf mem r va' := by
  have table : follow (child (store mem (t + 8 * PX 0 va) 8 v)) r [PX 2 va', PX 1 va'] =
      follow (child mem) r [PX 2 va', PX 1 va'] :=
    tables.follow_leaf reached (by simp)
  cases passed : follow (child mem) r [PX 2 va', PX 1 va'] with
  | none =>
    have other : pathOf va' ≠ pathOf va := by
      intro same
      simp only [pathOf, List.cons.injEq, and_true] at same
      rw [same.1, same.2.1, reached] at passed
      simp at passed
    rw [if_neg other, leaf_of_none passed, leaf_of_none (table.trans passed)]
  | some t' =>
    rw [leaf_of_table passed, leaf_of_table (table.trans passed)]
    by_cases here : t' = t
    · subst here
      have same := tables.single _ _ t' (by simp) (by simp) passed reached
      simp only [List.cons.injEq, and_true] at same
      by_cases last : PX 0 va' = PX 0 va
      · rw [last, entry_store_same, Nat.mod_eq_of_lt small, if_pos]
        rw [pathOf, pathOf, last, same.1, same.2]
      · rw [entry_store_of_ne _ _ _ last, if_neg]
        intro equal
        simp only [pathOf, List.cons.injEq, and_true] at equal
        exact last equal.2.2
    · have other : pathOf va' ≠ pathOf va := by
        intro same
        simp only [pathOf, List.cons.injEq, and_true] at same
        rw [same.1, same.2.1, reached] at passed
        exact here (Option.some.inj passed).symm
      rw [if_neg other]
      exact entry_congr ((changedIn_entry mem v (PX_lt 0 va)).samePage
        (tables.inUse _ t (by simp) reached).1.1 (tables.inUse _ t' (by simp) passed).1.1 here)
        (PX_lt 0 va')

structure Hung (mem mem' : ByteMap) (r q : Nat) (path : List Nat) : Prop where
  reached : follow (child mem') r path = some q
  ends : ∀ {path' t'}, path <+: path' → follow (child mem') r path' = some t' →
    path' = path ∧ t' = q
  leaves : ∀ va, leaf mem' r va = leaf mem r va

/-- Hanging an empty page-table page below an invalid entry. -/
theorem Tables.hang (tables : Tables pf used mem r) (short : path.length < 2)
    (reached : follow (child mem) r path = some t) (index : i < NPTE)
    (invalid : hasFlag (entry mem t i) PTE_V = false) (page : IsPage pf q)
    (notTable : ∀ path, path.length ≤ 2 → follow (child mem) r path ≠ some q)
    (bare : ∀ j, j < NPTE → entry mem q j = 0) :
    Hung mem (store mem (t + 8 * i) 8 (PA2PTE q ||| PTE_V)) r q (path ++ [i]) := by
  have low : path.length ≤ 2 := by omega
  have tablePage := (tables.inUse path t low reached).1
  have apart : q ≠ t := by
    rintro rfl
    exact notTable path low reached
  have flag : PTE_V < 2 ^ 10 := by decide
  have follows : ∀ {path' : List Nat}, path'.length ≤ 3 → ¬ path ++ [i] <+: path' →
      follow (child (store mem (t + 8 * i) 8 (PA2PTE q ||| PTE_V))) r path' =
        follow (child mem) r path' := fun short' elsewhere =>
    tables.follow_store low reached index short' elsewhere
  have changed : ChangedIn mem (store mem (t + 8 * i) 8 (PA2PTE q ||| PTE_V)) t :=
    changedIn_entry mem _ index
  have stored : entry (store mem (t + 8 * i) 8 (PA2PTE q ||| PTE_V)) t i = PA2PTE q ||| PTE_V := by
    rw [entry_store_same, Nat.mod_eq_of_lt (pte_or_lt page.wide flag)]
  generalize store mem (t + 8 * i) 8 (PA2PTE q ||| PTE_V) = mem' at *
  have bare' : ∀ j, j < NPTE → entry mem' q j = 0 := by
    intro j inside
    rw [entry_congr (changed.samePage tablePage.1 page.1 apart) inside, bare j inside]
  have reached' : follow (child mem') r (path ++ [i]) = some q := by
    rw [follow_snoc, follows (by omega) (not_through_short (Nat.le_refl _)), reached,
      Option.bind_some, child_eq_some, stored]
    exact ⟨⟨index, by rw [hasFlag_pte q flag flag]; rfl⟩, PTE2PA_or page.1 page.wide flag⟩
  have ends : ∀ {path' : List Nat} {t' : Nat}, path ++ [i] <+: path' →
      follow (child mem') r path' = some t' → path' = path ++ [i] ∧ t' = q := by
    rintro path' t' ⟨rest, rfl⟩ passed
    rw [follow_append, reached', Option.bind_some] at passed
    obtain ⟨rfl, rfl⟩ := follow_bare bare' passed
    exact ⟨by simp, rfl⟩
  refine ⟨reached', ends, ?_⟩
  intro va
  by_cases through : path ++ [i] <+: [PX 2 va, PX 1 va]
  · rw [leaf_of_none (follow_invalid reached invalid through)]
    cases passed : follow (child mem') r [PX 2 va, PX 1 va] with
    | none => exact leaf_of_none passed
    | some t' =>
      obtain ⟨-, rfl⟩ := ends through passed
      rw [leaf_of_table passed, bare' _ (PX_lt 0 va)]
  · have table := follows (by simp) through
    cases passed : follow (child mem) r [PX 2 va, PX 1 va] with
    | none => rw [leaf_of_none passed, leaf_of_none (table.trans passed)]
    | some t' =>
      have other : t' ≠ t := by
        rintro rfl
        have same := tables.single _ _ t' low (by simp) reached passed
        rw [same] at short
        simp at short
      rw [leaf_of_table passed, leaf_of_table (table.trans passed)]
      exact entry_congr (changed.samePage tablePage.1
        (tables.inUse _ t' (by simp) passed).1.1 other) (PX_lt 0 va)

/-- With the new page the tree is one again. -/
theorem Tables.keep_hung (tables : Tables pf used mem r) (short : path.length < 2)
    (reached : follow (child mem) r path = some t) (index : i < NPTE) (page : IsPage pf q)
    (inUse : used q) (notTable : ∀ path, path.length ≤ 2 → follow (child mem) r path ≠ some q)
    (hung : Hung mem (store mem (t + 8 * i) 8 v) r q (path ++ [i])) :
    Tables pf used (store mem (t + 8 * i) 8 v) r := by
  -- A page-table page is the new one or it was there before, at the same path.
  have either : ∀ {path' : List Nat} {t' : Nat}, path'.length ≤ 2 →
      follow (child (store mem (t + 8 * i) 8 v)) r path' = some t' →
      path' = path ++ [i] ∧ t' = q ∨ t' ≠ q ∧ follow (child mem) r path' = some t' := by
    intro path' t' short' passed
    by_cases through : path ++ [i] <+: path'
    · exact .inl (hung.ends through passed)
    · rw [tables.follow_store (by omega) reached index (by omega) through] at passed
      refine .inr ⟨?_, passed⟩
      rintro rfl
      exact notTable path' short' passed
  refine ⟨?_, ?_⟩
  · intro path' t' short' passed
    rcases either short' passed with ⟨-, rfl⟩ | ⟨-, before⟩
    · exact ⟨page, inUse⟩
    · exact tables.inUse path' t' short' before
  · intro path₁ path₂ t' short₁ short₂ passed₁ passed₂
    rcases either short₁ passed₁ with ⟨rfl, rfl⟩ | ⟨old, before₁⟩
    · rcases either short₂ passed₂ with ⟨rfl, -⟩ | ⟨old, -⟩
      · rfl
      · exact absurd rfl old
    · rcases either short₂ passed₂ with ⟨-, rfl⟩ | ⟨-, before₂⟩
      · exact absurd rfl old
      · exact tables.single path₁ path₂ t' short₁ short₂ before₁ before₂

end Xv6.Vm
