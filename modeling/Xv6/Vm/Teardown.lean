import Mathlib.Logic.Equiv.Basic
import Xv6.Vm.Mapping

/-!
# Page tables as a whole

`freewalk` frees a page table from the leaves of its tree up.
-/

namespace Xv6.Vm

open Command Bytes Ownership Xv6.Tree Function

variable {pf : Platform} {s : Kernel} {pages : List Nat} {roots : Owner → Option Nat}
  {kept : Keeper → Option Nat} {mem : ByteMap} {o : Owner} {r t q : Nat} {stop : Panic → Prop}

structure Unmapped (pf : Platform) (mem : ByteMap) (pages : List Nat) (levels t : Nat) : Prop where
  page : ∀ path q, path.length < levels → follow (child mem) t path = some q →
    IsPage pf q ∧ q ∉ pages
  single : ∀ path path' q, path.length < levels → path'.length < levels →
    follow (child mem) t path = some q → follow (child mem) t path' = some q → path = path'
  inner : ∀ path q i, path.length < levels → follow (child mem) t path = some q → i < NPTE →
    hasFlag (entry mem q i) PTE_V = true →
    path.length + 1 < levels ∧ hasFlag (entry mem q i) (PTE_R ||| PTE_W ||| PTE_X) = false

structure Released (pf : Platform) (s : Kernel) (pages : List Nat) (gone touched : Nat → Prop)
    (after : Kernel) (pages' : List Nat) : Prop where
  chain : FreeChain after.mem after.freelist pages'
  nodup : pages'.Nodup
  inside : ∀ q, q ∈ pages' → IsPage pf q
  members : ∀ q, q ∈ pages' ↔ gone q ∨ q ∈ pages
  same : ∀ q, q % PGSIZE = 0 → ¬ touched q → SamePage s.mem after.mem q
  processes : after.proc = s.proc
  first : after.initproc = s.initproc
  denied : after.denied = s.denied

variable {pages' : List Nat} {levels i c : Nat}

theorem Released.sameOutside {gone touched : Nat → Prop} {after : Kernel}
    (released : Released pf s pages gone touched after pages')
    (inside : ∀ q, touched q → IsPage pf q) : SameOutside pf s.mem after.mem := by
  intro a outside
  have place : PGROUNDDOWN a ≤ a ∧ a < PGROUNDDOWN a + PGSIZE := by
    simp only [PGROUNDDOWN, PGSIZE]
    omega
  exact released.same (PGROUNDDOWN a) (Nat.mul_mod_left ..) (fun within => outside (inside _ within))
    a place.1 place.2

/-- The pages of a subtree. -/
def inSubtree (mem : ByteMap) (levels t q : Nat) : Prop :=
  ∃ path, path.length < levels ∧ follow (child mem) t path = some q

def belowEntries (mem : ByteMap) (levels t i q : Nat) : Prop :=
  ∃ j rest, j < i ∧ rest.length < levels ∧ follow (child mem) t (j :: rest) = some q

theorem belowEntries_succ_of_child (link : child mem t i = some c) :
    belowEntries mem levels t (i + 1) q ↔ belowEntries mem levels t i q ∨ inSubtree mem levels c q := by
  constructor
  · rintro ⟨j, rest, before, short, reached⟩
    by_cases last : j = i
    · subst last
      rw [follow_cons, link, Option.bind_some] at reached
      exact Or.inr ⟨rest, short, reached⟩
    · exact Or.inl ⟨j, rest, by omega, short, reached⟩
  · rintro (⟨j, rest, before, short, reached⟩ | ⟨path, short, reached⟩)
    · exact ⟨j, rest, by omega, short, reached⟩
    · exact ⟨i, path, by omega, short, by rw [follow_cons, link, Option.bind_some, reached]⟩

theorem belowEntries_succ_of_none {levels i : Nat} (link : child mem t i = none) :
    belowEntries mem levels t (i + 1) q ↔ belowEntries mem levels t i q := by
  constructor
  · rintro ⟨j, rest, before, short, reached⟩
    have other : j ≠ i := by
      rintro rfl
      simp [follow_cons, link] at reached
    exact ⟨j, rest, by omega, short, reached⟩
  · rintro ⟨j, rest, before, short, reached⟩
    exact ⟨j, rest, by omega, short, reached⟩

theorem inSubtree_succ {levels : Nat} :
    inSubtree mem (levels + 1) t q ↔ q = t ∨ belowEntries mem levels t NPTE q := by
  constructor
  · rintro ⟨_ | ⟨j, rest⟩, short, reached⟩
    · exact Or.inl (Option.some.inj reached).symm
    · have link := reached
      rw [follow_cons] at link
      obtain ⟨next, linked, -⟩ := Option.bind_eq_some_iff.mp link
      simp only [List.length_cons] at short
      exact Or.inr ⟨j, rest, (child_eq_some.mp linked).1.1, by omega, reached⟩
  · rintro (rfl | ⟨j, rest, -, short, reached⟩)
    · exact ⟨[], by simp, rfl⟩
    · exact ⟨j :: rest, by simp only [List.length_cons]; omega, reached⟩

theorem Unmapped.apart (tree : Unmapped pf mem pages (levels + 1) t) (link : child mem t i = some c)
    (below : inSubtree mem levels c q) :
    q ≠ t ∧ ¬ belowEntries mem levels t i q := by
  obtain ⟨path, short, reached⟩ := below
  have whole : follow (child mem) t (i :: path) = some q := by
    rw [follow_cons, link, Option.bind_some, reached]
  have length : (i :: path).length < levels + 1 := by
    simp only [List.length_cons]
    omega
  constructor
  · rintro rfl
    have same := tree.single [] (i :: path) q (by simp) length rfl whole
    simp at same
  · rintro ⟨j, rest, before, short', reached'⟩
    have same := tree.single (j :: rest) (i :: path) q (by simp only [List.length_cons]; omega)
      length reached' whole
    simp only [List.cons.injEq] at same
    omega

theorem Unmapped.below {mem' : ByteMap} (tree : Unmapped pf mem pages (levels + 1) t)
    (link : child mem t i = some c)
    (members : ∀ q, q ∈ pages' ↔ belowEntries mem levels t i q ∨ q ∈ pages)
    (same : ∀ q, q % PGSIZE = 0 → ¬ (belowEntries mem levels t i q ∨ q = t) → SamePage mem mem' q) :
    Unmapped pf mem' pages' levels c ∧
      ∀ q, inSubtree mem' levels c q ↔ inSubtree mem levels c q := by
  have extend : ∀ path q, follow (child mem) c path = some q →
      follow (child mem) t (i :: path) = some q := by
    intro path q reached
    rw [follow_cons, link, Option.bind_some, reached]
  have longer : ∀ path : List Nat, path.length < levels → (i :: path).length < levels + 1 := by
    intro path short
    simp only [List.length_cons]
    omega
  have unchanged : ∀ path q, path.length < levels → follow (child mem) c path = some q →
      SamePage mem mem' q := by
    intro path q short reached
    have apart := tree.apart link ⟨path, short, reached⟩
    refine same q (tree.page (i :: path) q (longer path short) (extend path q reached)).1.1 ?_
    rintro (earlier | itself)
    · exact apart.2 earlier
    · exact apart.1 itself
  have paths : ∀ path : List Nat, path.length < levels →
      follow (child mem') c path = follow (child mem) c path := by
    intro path short
    apply follow_congr
    intro front index node before reached
    have := before.length_le
    simp only [List.length_append, List.length_cons, List.length_nil] at this
    exact child_congr (unchanged front node (by omega) reached)
  refine ⟨⟨?_, ?_, ?_⟩, ?_⟩
  · intro path q short reached
    rw [paths path short] at reached
    obtain ⟨page, inUse⟩ := tree.page (i :: path) q (longer path short) (extend path q reached)
    refine ⟨page, fun listed => ?_⟩
    rcases (members q).mp listed with earlier | free
    · exact (tree.apart link ⟨path, short, reached⟩).2 earlier
    · exact inUse free
  · intro path path' q short short' reached reached'
    rw [paths path short] at reached
    rw [paths path' short'] at reached'
    have equal := tree.single (i :: path) (i :: path') q (longer path short) (longer path' short')
      (extend path q reached) (extend path' q reached')
    exact (List.cons.inj equal).2
  · intro path q j short reached index valid
    rw [paths path short] at reached
    rw [entry_congr (unchanged path q short reached) index] at valid ⊢
    obtain ⟨deeper, kind⟩ := tree.inner (i :: path) q j (longer path short) (extend path q reached)
      index valid
    simp only [List.length_cons] at deeper
    exact ⟨by omega, kind⟩
  · intro q
    constructor
    · rintro ⟨path, short, reached⟩
      exact ⟨path, short, (paths path short).symm.trans reached⟩
    · rintro ⟨path, short, reached⟩
      exact ⟨path, short, (paths path short).trans reached⟩

structure Freeing (pf : Platform) (s : Kernel) (pages : List Nat) (levels t i : Nat) (current : Kernel)
    (pages' : List Nat) : Prop where
  released : Released pf s pages (belowEntries s.mem levels t i)
    (fun q => belowEntries s.mem levels t i q ∨ q = t) current pages'
  later : ∀ j, i ≤ j → j < NPTE → entry current.mem t j = entry s.mem t j

/-- An invalid entry is passed over. -/
theorem Freeing.skip {levels i : Nat} {current : Kernel}
    (freeing : Freeing pf s pages levels t i current pages') (link : child s.mem t i = none) :
    Freeing pf s pages levels t (i + 1) current pages' := by
  obtain ⟨⟨chain, nodup, inside, members, same, processes, first, denied⟩, later⟩ := freeing
  refine ⟨⟨chain, nodup, inside, ?_, ?_, processes, first, denied⟩,
    fun j after => later j (by omega)⟩
  · intro q
    rw [members, belowEntries_succ_of_none link]
  · intro q aligned untouched
    rw [belowEntries_succ_of_none link] at untouched
    exact same q aligned untouched

theorem Freeing.clear {current after : Kernel} {pages' pages'' : List Nat}
    (tree : Unmapped pf s.mem pages (levels + 1) t)
    (freeing : Freeing pf s pages levels t i current pages')
    (index : i < NPTE) (link : child s.mem t i = some c)
    (released : Released pf current pages' (inSubtree s.mem levels c) (inSubtree s.mem levels c)
      after pages'') :
    Freeing pf s pages levels t (i + 1) { after with mem := store after.mem (t + 8 * i) 8 0 }
      pages'' := by
  obtain ⟨page, inUse⟩ := tree.page [] t (by simp) rfl
  have changed := changedIn_entry (t := t) after.mem 0 index
  have members : ∀ q, q ∈ pages'' ↔ belowEntries s.mem levels t (i + 1) q ∨ q ∈ pages := by
    intro q
    rw [released.members, freeing.released.members, belowEntries_succ_of_child link, or_comm,
      or_assoc, or_comm (a := q ∈ pages), or_assoc]
  have notBelow : ¬ inSubtree s.mem levels c t := fun below => (tree.apart link below).1 rfl
  have notListed : t ∉ pages'' := by
    intro listed
    rcases (members t).mp listed with ⟨j, rest, -, short, reached⟩ | free
    · have equal := tree.single [] (j :: rest) t (by simp) (by simp only [List.length_cons]; omega)
        rfl reached
      simp at equal
    · exact inUse free
  refine ⟨⟨?_, released.nodup, released.inside, members, ?_, ?_, ?_, ?_⟩, ?_⟩
  · refine released.chain.congr fun q listed => ?_
    refine changed.samePage page.1 (released.inside q listed).1 ?_
    rintro rfl
    exact notListed listed
  · intro q aligned untouched
    rw [belowEntries_succ_of_child link] at untouched
    have first := freeing.released.same q aligned fun before => untouched (by tauto)
    have second := released.same q aligned fun below => untouched (by tauto)
    exact (first.trans second).trans
      (changed.samePage page.1 aligned fun same => untouched (Or.inr same))
  · exact released.processes.trans freeing.released.processes
  · exact released.first.trans freeing.released.first
  · exact released.denied.trans freeing.released.denied
  · intro j after' inside
    have different : j ≠ i := by omega
    rw [entry_store_of_ne _ _ _ different, entry_congr (released.same t page.1 notBelow) inside]
    exact freeing.later j (by omega) inside

theorem Freeing.finish {levels : Nat} {current : Kernel}
    (tree : Unmapped pf s.mem pages (levels + 1) t)
    (freeing : Freeing pf s pages levels t NPTE current pages') :
    Released pf s pages (inSubtree s.mem (levels + 1) t) (inSubtree s.mem (levels + 1) t)
      { current with mem := freed current.mem current.freelist t, freelist := t } (t :: pages') := by
  obtain ⟨page, inUse⟩ := tree.page [] t (by simp) rfl
  obtain ⟨⟨chain, nodup, inside, members, same, processes, first, denied⟩, -⟩ := freeing
  have notListed : t ∉ pages' := by
    intro listed
    rcases (members t).mp listed with ⟨j, rest, -, short, reached⟩ | free
    · have equal := tree.single [] (j :: rest) t (by simp) (by simp only [List.length_cons]; omega)
        rfl reached
      simp at equal
    · exact inUse free
  refine ⟨chain.push inside page notListed, List.nodup_cons.mpr ⟨notListed, nodup⟩, ?_, ?_, ?_,
    processes, first, denied⟩
  · intro q listed
    rcases List.mem_cons.mp listed with rfl | old
    · exact page
    · exact inside q old
  · intro q
    rw [List.mem_cons, members, inSubtree_succ, or_assoc]
  · intro q aligned untouched
    rw [inSubtree_succ] at untouched
    exact (same q aligned fun before => untouched (by tauto)).trans
      ((changedIn_freed current.mem current.freelist t).samePage page.1 aligned
        fun itself => untouched (Or.inl itself))

/-- The law of `freewalk`. -/
theorem wp_freewalk (levels : Nat) (positive : 0 < levels)
    (chain : FreeChain s.mem s.freelist pages) (nodup : pages.Nodup)
    (inside : ∀ q, q ∈ pages → IsPage pf q) (tree : Unmapped pf s.mem pages levels t)
    {post : PUnit → Kernel → Prop}
    (done : ∀ after pages', Released pf s pages (inSubtree s.mem levels t)
      (inSubtree s.mem levels t) after pages' → post ⟨⟩ after) :
    wp (freewalk pf levels t) post stop s := by
  induction levels generalizing s t pages post with
  | zero => omega
  | succ levels ih =>
    simp only [freewalk, wp_bind]
    refine wp_post (wp_forRange
      (fun i current => ∃ pages', Freeing pf s pages levels t i current pages') stop _ 0 NPTE s
      ?_ ?_) ?_
    · rintro i current - upper ⟨pages', freeing⟩
      rw [Nat.zero_add] at upper
      have loaded : load current.mem (t + 8 * i) 8 = entry s.mem t i :=
        freeing.later i (Nat.le_refl i) upper
      simp only [wp_bind, wp_loadWord, loaded]
      by_cases valid : hasFlag (entry s.mem t i) PTE_V = true
      · have link : child s.mem t i = some (PTE2PA (entry s.mem t i)) :=
          child_eq_some.mpr ⟨⟨upper, valid⟩, rfl⟩
        obtain ⟨deeper, kind⟩ := tree.inner [] t i (by simp) rfl upper valid
        rw [List.length_nil, Nat.zero_add] at deeper
        obtain ⟨subtree, subpages⟩ :=
          tree.below link freeing.released.members freeing.released.same
        have positive' : 0 < levels := by omega
        simp only [valid, kind, Bool.not_false, Bool.and_self, ↓reduceIte, wp_bind]
        refine ih positive' freeing.released.chain freeing.released.nodup
          freeing.released.inside subtree ?_
        intro after pages'' released
        rw [wp_storeWord]
        refine ⟨pages'', freeing.clear tree upper link ?_⟩
        have sets : inSubtree current.mem levels (PTE2PA (entry s.mem t i)) =
            inSubtree s.mem levels (PTE2PA (entry s.mem t i)) := by
          funext q
          exact propext (subpages q)
        rwa [sets] at released
      · have invalid : hasFlag (entry s.mem t i) PTE_V = false := by simpa using valid
        simp only [invalid, Bool.false_and, Bool.false_eq_true, ↓reduceIte, wp_pure]
        exact ⟨pages', freeing.skip (child_of_invalid invalid)⟩
    · have none : ∀ q, ¬ belowEntries s.mem levels t 0 q := by
        rintro q ⟨j, rest, before, -⟩
        omega
      refine ⟨pages, ⟨chain, nodup, inside, ?_, fun q _ _ => SamePage.refl s.mem q, rfl, rfl,
        rfl⟩, fun _ _ _ => rfl⟩
      intro q
      simp only [none, false_or]
    · rintro _ current ⟨pages', freeing⟩
      rw [Nat.zero_add] at freeing
      obtain ⟨page, -⟩ := tree.page [] t (by simp) rfl
      exact Vm.wp_kfree page (done _ _ (freeing.finish tree))

theorem pathOf_surjective {a b c : Nat} (first : a < NPTE) (second : b < NPTE) (third : c < NPTE) :
    ∃ va, va < VASPACE ∧ va % PGSIZE = 0 ∧ pathOf va = [a, b, c] := by
  refine ⟨(a * 512 + b) * 2 ^ 21 + c * 2 ^ 12, ?_, ?_, ?_⟩
  · simp only [NPTE, VASPACE] at *
    omega
  · simp only [PGSIZE]
    omega
  · simp only [pathOf, PX, NPTE, List.cons.injEq, and_true, Nat.reduceMul, Nat.reduceAdd,
      Nat.mul_zero, Nat.add_zero, Nat.mul_one, Nat.reducePow] at *
    omega

theorem pathOf_of_follow {path : List Nat} (long : path.length = 3)
    (reached : follow (child mem) r path = some q) :
    ∃ va, va < VASPACE ∧ va % PGSIZE = 0 ∧ pathOf va = path := by
  match path, long with
  | [a, b, c], _ =>
    obtain ⟨t, first, rest⟩ := follow_front [a] reached
    obtain ⟨t', second, last⟩ := follow_front [b] rest
    have index : ∀ node i q, follow (child mem) node [i] = some q → i < NPTE := by
      intro node i q step
      rw [follow_cons] at step
      obtain ⟨next, linked, -⟩ := Option.bind_eq_some_iff.mp step
      exact (child_eq_some.mp linked).1.1
    exact pathOf_surjective (index r a t first) (index t b t' second) (index t' c q last)

theorem follow_unmapped (empty : ∀ va, va < VASPACE → hasFlag (leaf mem r va) PTE_V = false)
    {path : List Nat} (long : path.length = 3) : follow (child mem) r path = none := by
  cases reached : follow (child mem) r path with
  | none => rfl
  | some q =>
    obtain ⟨va, low, -, rfl⟩ := pathOf_of_follow long reached
    rw [follow_pathOf, empty va low] at reached
    simp at reached

theorem Within.returned {region : Owner → Nat → Prop} {after : Kernel}
    (within : Within pf s roots kept o region after) (accounted : Accounted pf s roots kept)
    (owner : roots o = some r)
    (gone : ∀ va, va < VASPACE → region o va → hasFlag (leaf after.mem r va) PTE_V = false)
    (free : OnFreeList s q) : OnFreeList after q ∨ IsTable after r q := by
  obtain ⟨pages, books⟩ := accounted
  obtain ⟨pages', books'⟩ := within.accounted
  rw [← books.mem_iff] at free
  rw [← books'.mem_iff]
  by_cases listed : q ∈ pages'
  · exact Or.inl listed
  right
  obtain ⟨place, holds⟩ := books'.balanced.covered q (books.inside q free) listed
  -- A place that held the page before would have kept it from the free list.
  have elsewhere : held s.mem roots kept place ≠ some q :=
    fun before => (books.balanced.inside place q before).2 free
  cases place with
  | kept k => exact absurd holds elsewhere
  | page o₁ path =>
    obtain ⟨owned, r₁, owner₁, reached⟩ : Owned path ∧ ∃ r₁, roots o₁ = some r₁ ∧
        follow (child after.mem) r₁ path = some q := by
      rw [held, Option.ite_none_right_eq_some] at holds
      exact holds.imp_right Option.bind_eq_some_iff.mp
    by_cases same : o₁ = o
    · subst same
      obtain rfl : r₁ = r := Option.some.inj (owner₁.symm.trans owner)
      rcases owned with short | ⟨long, -⟩
      · exact ⟨path, short, reached⟩
      · exfalso
        obtain ⟨va, range, -, rfl⟩ := pathOf_of_follow long reached
        have outside : ¬ region o₁ va := by
          intro inside
          rw [follow_pathOf, gone va range inside] at reached
          simp at reached
        refine elsewhere ?_
        rw [← holds, held, held, owner₁, Option.bind_some, Option.bind_some, follow_pathOf,
          follow_pathOf, within.leaves o₁ r₁ va owner range outside]
    · have spared : Spared o region (.page o₁ path) := .inl same
      exact absurd ((within.held_eq spared).symm.trans holds) elsewhere

theorem Books.unmapped (books : Books pf s pages roots kept) (owner : roots o = some r)
    (empty : ∀ va, va < VASPACE → hasFlag (leaf s.mem r va) PTE_V = false) :
    Unmapped pf s.mem pages 3 r := by
  refine ⟨?_, ?_, ?_⟩
  · intro path q short reached
    exact table_page books.balanced owner (by omega) reached
  · intro path path' q short short' reached reached'
    exact (table_unique books.balanced owner owner (by omega) (by omega) reached reached').2
  · intro path q i short reached index valid
    have notLast : path.length ≠ 2 := by
      intro last
      have step : follow (child s.mem) r (path ++ [i]) = some (PTE2PA (entry s.mem q i)) := by
        rw [follow_snoc, reached, Option.bind_some, child_eq_some]
        exact ⟨⟨index, valid⟩, rfl⟩
      rw [follow_unmapped empty (by simp [last])] at step
      simp at step
    have kind := books.shape o r path q i owner (by omega) reached index valid
    refine ⟨by omega, ?_⟩
    rw [← Bool.not_eq_true, kind]
    exact notLast

theorem Accounted.wp_freewalk (accounted : Accounted pf s roots kept) (owner : roots o = some r)
    (empty : ∀ va, va < VASPACE → hasFlag (leaf s.mem r va) PTE_V = false)
    {post : PUnit → Kernel → Prop}
    (done : ∀ after, Quiet pf s (update roots o none) kept o after → post ⟨⟩ after) :
    wp (freewalk pf 3 r) post stop s := by
  obtain ⟨pages, books⟩ := accounted
  have tree := books.unmapped owner empty
  refine Vm.wp_freewalk 3 (by omega) books.chain books.nodup books.inside tree ?_
  intro after pages' released
  apply done
  have others : ∀ {o' r'}, update roots o none o' = some r' →
      o' ≠ o ∧ roots o' = some r' := by
    intro o' r' owner'
    have different : o' ≠ o := by
      rintro rfl
      simp at owner'
    rw [update_of_ne different] at owner'
    exact ⟨different, owner'⟩
  -- Page-table pages of other owners are not freed.
  have tables : SameTables s.mem after.mem (update roots o none) := by
    intro o' r' path t owner' short reached
    obtain ⟨different, owner'⟩ := others owner'
    refine released.same t (table_page books.balanced owner' short reached).1.1 ?_
    rintro ⟨path', short', reached'⟩
    exact different (table_unique books.balanced owner owner' (by omega) short reached' reached).1.symm
  refine ⟨⟨pages', released.chain, released.nodup, released.inside, ?_, ?_⟩, ?_, ?_,
    released.sameOutside fun q below => ?_, released.processes, released.first,
    Nat.le_of_eq released.denied.symm⟩
  · refine books.balanced.giveAll (fun place => ∃ path, place = .page o path) ?_ ?_ ?_
    · intro q _
      rw [released.members, not_or, and_comm]
      refine and_congr_right fun _ => ?_
      constructor
      · rintro notGone place ⟨path, rfl⟩ holds
        have owned : Owned path := by
          by_contra missing
          simp [held, missing] at holds
        rw [held_page owner owned] at holds
        rcases owned with short | ⟨long, -⟩
        · exact notGone ⟨path, by omega, holds⟩
        · rw [follow_unmapped empty long] at holds
          simp at holds
      · rintro elsewhere ⟨path, short, reached⟩
        refine elsewhere (.page o path) ⟨path, rfl⟩ ?_
        rw [held_page owner (owned_of_short (by omega)), reached]
    · rintro place ⟨path, rfl⟩
      simp [held]
    · intro place other
      rw [tables.held_eq]
      cases place with
      | kept k => rfl
      | page o' path =>
        have different : o' ≠ o := by
          rintro rfl
          exact other ⟨path, rfl⟩
        simp [held, different]
  · intro o' r' path t i owner' short reached index
    rw [tables.follow_eq owner' (by omega)] at reached
    rw [entry_congr (tables o' r' path t owner' short reached) index]
    exact books.shape o' r' path t i (others owner').2 short reached index
  · intro o' r' va owner' _ _
    exact tables.leaf_eq owner' va
  · intro place q _ holds
    have before : held s.mem roots kept place = some q ∧ ∀ path, place ≠ .page o path := by
      cases place with
      | kept k => exact ⟨holds, fun _ => by simp⟩
      | page o' path =>
        have different : o' ≠ o := by
          rintro rfl
          simp [held] at holds
        refine ⟨?_, fun _ same => different (Place.page.inj same).1⟩
        rw [← holds, held, held, update_of_ne different]
    refine released.same q (books.balanced.inside place q before.1).1.1 ?_
    rintro ⟨path, short, reached⟩
    refine before.2 path (books.balanced.single place (.page o path) q before.1 ?_)
    rw [held_page owner (owned_of_short (by omega)), reached]
  · obtain ⟨path, short, reached⟩ := below
    exact (tree.page path q short reached).1

theorem Accounted.adopt (accounted : Accounted pf s roots kept) (unowned : roots o = none)
    {k : Keeper} (hand : kept k = some q) (bare : ∀ j, j < NPTE → entry s.mem q j = 0) :
    Accounted pf s (update roots o (some q)) (update kept k none) ∧
      ∀ va, leaf s.mem q va = 0 := by
  obtain ⟨pages, books⟩ := accounted
  have link : ∀ j, child s.mem q j = none := by
    intro j
    by_cases inside : j < NPTE
    · exact child_of_invalid (by rw [bare j inside]; rfl)
    · simp [child, inside]
  have others : ∀ {o' : Owner}, o' ≠ o → update roots o (some q) o' = roots o' :=
    fun different => update_of_ne different _ _
  refine ⟨⟨pages, books.chain, books.nodup, books.inside, ?_, ?_⟩, ?_⟩
  · have holds : held s.mem roots kept (.kept k) = some q := hand
    have empty : held s.mem roots kept (.page o []) = none := by simp [held, unowned]
    have placed : held s.mem (update roots o (some q)) (update kept k none)
        (.page o []) = some q := by
      rw [held_page (update_self o (some q) roots) (owned_of_short (by simp)), follow_nil]
    refine books.balanced.move holds empty (by simp [held]) placed ?_
    intro place notHand notRoot
    cases place with
    | kept k' =>
      have different : k' ≠ k := fun equal => notHand (by rw [equal])
      simp [held, different]
    | page o' path =>
      by_cases same : o' = o
      · subst same
        cases path with
        | nil => exact absurd rfl notRoot
        | cons i rest => simp [held, unowned, follow_cons, link]
      · simp [held, others same]
  · intro o' r' path t i owner' short reached index valid
    by_cases same : o' = o
    · subst same
      rw [update_self, Option.some.injEq] at owner'
      subst owner'
      obtain ⟨rfl, rfl⟩ := follow_bare bare reached
      rw [bare i index] at valid
      simp at valid
    · rw [others same] at owner'
      exact books.shape o' r' path t i owner' short reached index valid
  · intro va
    exact leaf_of_none (by simp [follow_cons, link])

def Place.rename (a b : Owner) : Place → Place
  | .page x path => .page (Equiv.swap a b x) path
  | .kept k => .kept k

theorem Accounted.swap (accounted : Accounted pf s roots kept) (a b : Owner) :
    Accounted pf s (fun x => roots (Equiv.swap a b x)) kept := by
  obtain ⟨pages, books⟩ := accounted
  -- The same pages at renamed places.
  have involutive : Function.Involutive (Place.rename a b) := by
    rintro (⟨x, path⟩ | k)
    · simp [Place.rename]
    · rfl
  have same : ∀ place, held s.mem (fun x => roots (Equiv.swap a b x)) kept place =
      held s.mem roots kept (place.rename a b) := by
    rintro (⟨x, path⟩ | k)
    · rfl
    · rfl
  refine ⟨pages, books.chain, books.nodup, books.inside, ?_, ?_⟩
  · exact (books.balanced.reindex involutive).congr (fun _ _ => Iff.rfl) same
  · intro x r path t i owner
    exact books.shape (Equiv.swap a b x) r path t i owner

end Xv6.Vm
