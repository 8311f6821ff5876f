import Xv6.Vm.Words

/-!
# Where every page is

Each owner of an address space has a root, and from it the entries of page-table pages lead to
further page-table pages and to user pages.
-/

namespace Xv6.Vm

open Command Bytes Ownership Xv6.Tree Function

inductive Owner where
  | proc (p : Nat)
  | building
  | loose (l : Nat)
  deriving DecidableEq

inductive Keeper where
  | trapframe (p : Nat)
  | hand
  | node
  | kernel (n : Nat)
  deriving DecidableEq

/-- The places of pages that are not free. -/
inductive Place where
  | page (o : Owner) (path : List Nat)
  | kept (k : Keeper)
  deriving DecidableEq

def child (mem : ByteMap) (t i : Nat) : Option Nat :=
  if i < NPTE ∧ hasFlag (entry mem t i) PTE_V = true then some (PTE2PA (entry mem t i)) else none

def pathOf (va : Nat) : List Nat := [PX 2 va, PX 1 va, PX 0 va]

def Owned (path : List Nat) : Prop :=
  path.length ≤ 2 ∨ path.length = 3 ∧ path ≠ pathOf TRAMPOLINE ∧ path ≠ pathOf TRAPFRAME

instance (path : List Nat) : Decidable (Owned path) := inferInstanceAs (Decidable (_ ∨ _))

/-- The page at a place. -/
def held (mem : ByteMap) (roots : Owner → Option Nat) (kept : Keeper → Option Nat) :
    Place → Option Nat
  | .page o path => if Owned path then (roots o).bind fun r => follow (child mem) r path else none
  | .kept k => kept k

structure Books (pf : Platform) (s : Kernel) (pages : List Nat) (roots : Owner → Option Nat)
    (kept : Keeper → Option Nat) : Prop where
  chain : FreeChain s.mem s.freelist pages
  nodup : pages.Nodup
  inside : ∀ q, q ∈ pages → IsPage pf q
  balanced : Balanced (IsPage pf) (fun q => q ∉ pages) (held s.mem roots kept)
  shape : ∀ o r path t i, roots o = some r → path.length ≤ 2 →
    follow (child s.mem) r path = some t → i < NPTE → hasFlag (entry s.mem t i) PTE_V = true →
    (hasFlag (entry s.mem t i) (PTE_R ||| PTE_W ||| PTE_X) = true ↔ path.length = 2)

variable {pf : Platform} {s : Kernel} {pages : List Nat} {roots : Owner → Option Nat}
  {kept : Keeper → Option Nat} {mem mem' : ByteMap} {o : Owner} {r t q i : Nat} {path : List Nat}
  {used : Nat → Prop}

def OnFreeList (s : Kernel) (q : Nat) : Prop :=
  ∃ pages, FreeChain s.mem s.freelist pages ∧ q ∈ pages

theorem FreeChain.unique {mem : ByteMap} {head : Nat} {pages pages' : List Nat}
    (chain : FreeChain mem head pages) (chain' : FreeChain mem head pages') : pages = pages' := by
  induction pages generalizing head pages' with
  | nil =>
    cases pages' with
    | nil => rfl
    | cons q rest => exact absurd (chain'.1.symm.trans chain) chain'.2.1
  | cons q rest ih =>
    cases pages' with
    | nil => exact absurd (chain.1.symm.trans chain') chain.2.1
    | cons q' rest' =>
      obtain ⟨rfl, -, links⟩ := chain
      obtain ⟨rfl, -, links'⟩ := chain'
      rw [ih links links']

theorem Books.mem_iff (books : Books pf s pages roots kept) :
    q ∈ pages ↔ OnFreeList s q := by
  refine ⟨fun listed => ⟨pages, books.chain, listed⟩, ?_⟩
  rintro ⟨pages', chain, listed⟩
  rwa [books.chain.unique chain]

/-- A page of a page table. -/
def IsTable (s : Kernel) (r q : Nat) : Prop :=
  ∃ path, path.length ≤ 2 ∧ follow (child s.mem) r path = some q

theorem owned_of_short (short : path.length ≤ 2) : Owned path := Or.inl short

theorem held_page (owner : roots o = some r) (owned : Owned path) :
    held mem roots kept (.page o path) = follow (child mem) r path := by
  simp only [held, owned, ↓reduceIte, owner, Option.bind_some]

theorem child_eq_some :
    child mem t i = some q ↔
      (i < NPTE ∧ hasFlag (entry mem t i) PTE_V = true) ∧ PTE2PA (entry mem t i) = q := by
  simp only [child, Option.ite_none_right_eq_some, Option.some.injEq]

theorem child_congr (same : SamePage mem mem' t) : child mem' t i = child mem t i := by
  by_cases inside : i < NPTE
  · rw [child, child, entry_congr same inside]
  · simp [child, inside]

theorem table_page (balanced : Balanced (IsPage pf) used (held mem roots kept))
    (owner : roots o = some r) (short : path.length ≤ 2)
    (reached : follow (child mem) r path = some t) : IsPage pf t ∧ used t :=
  balanced.inside (.page o path) t (by rw [held_page owner (owned_of_short short), reached])

theorem table_unique (balanced : Balanced (IsPage pf) used (held mem roots kept)) {o' : Owner}
    {r' : Nat} {path' : List Nat} (owner : roots o = some r) (owner' : roots o' = some r')
    (short : path.length ≤ 2) (short' : path'.length ≤ 2)
    (reached : follow (child mem) r path = some t)
    (reached' : follow (child mem) r' path' = some t) : o = o' ∧ path = path' := by
  have same := balanced.single (.page o path) (.page o' path') t
    (by rw [held_page owner (owned_of_short short), reached])
    (by rw [held_page owner' (owned_of_short short'), reached'])
  injection same with first second
  exact ⟨first, second⟩

def Place.NotTable : Place → Prop
  | .page _ path => 2 < path.length
  | .kept _ => True

theorem Place.notTable_kept (k : Keeper) : (Place.kept k).NotTable := trivial

theorem place_ne_table (balanced : Balanced (IsPage pf) used (held mem roots kept)) {place : Place}
    (notTable : place.NotTable) (holds : held mem roots kept place = some q)
    (owner : roots o = some r) (short : path.length ≤ 2)
    (reached : follow (child mem) r path = some t) : t ≠ q := by
  rintro rfl
  have same := balanced.single (.page o path) place t
    (by rw [held_page owner (owned_of_short short), reached]) holds
  subst same
  exact absurd short (Nat.not_le_of_lt notTable)

theorem kept_ne_table (balanced : Balanced (IsPage pf) used (held mem roots kept)) {k : Keeper}
    (holds : kept k = some q) (owner : roots o = some r) (short : path.length ≤ 2)
    (reached : follow (child mem) r path = some t) : t ≠ q := by
  have atPlace : held mem roots kept (.kept k) = some q := holds
  exact place_ne_table balanced (Place.notTable_kept k) atPlace owner short reached

def SameTables (mem mem' : ByteMap) (roots : Owner → Option Nat) : Prop :=
  ∀ o r path t, roots o = some r → path.length ≤ 2 → follow (child mem) r path = some t →
    SamePage mem mem' t

theorem SameTables.follow_eq (same : SameTables mem mem' roots) (owner : roots o = some r)
    (short : path.length ≤ 3) : follow (child mem') r path = follow (child mem) r path := by
  apply follow_congr
  intro front index node before reached
  have length : front.length ≤ 2 := by
    have := before.length_le
    simp only [List.length_append, List.length_cons, List.length_nil] at this
    omega
  exact child_congr (same o r front node owner length reached)

theorem SameTables.held_eq (same : SameTables mem mem' roots) (place : Place) :
    held mem' roots kept place = held mem roots kept place := by
  cases place with
  | kept k => rfl
  | page o path =>
    by_cases owned : Owned path
    · cases owner : roots o with
      | none => simp [held, owner]
      | some r =>
        have short : path.length ≤ 3 := by
          rcases owned with low | ⟨exactly, -⟩ <;> omega
        rw [held_page owner owned, held_page owner owned, same.follow_eq owner short]
    · simp [held, owned]

theorem Books.frame (books : Books pf s pages roots kept) (same : SameTables s.mem mem' roots)
    (free : ∀ q, q ∈ pages → SamePage s.mem mem' q) :
    Books pf { s with mem := mem' } pages roots kept := by
  refine ⟨books.chain.congr free, books.nodup, books.inside, ?_, ?_⟩
  · exact books.balanced.congr (fun _ _ => Iff.rfl) fun place => same.held_eq place
  · intro o r path t i owner short reached index
    simp only at reached ⊢
    rw [same.follow_eq owner (by omega)] at reached
    rw [entry_congr (same o r path t owner short reached) index]
    exact books.shape o r path t i owner short reached index

theorem Books.transport (books : Books pf s pages roots kept) {after : Kernel}
    (sameMem : after.mem = s.mem) (sameList : after.freelist = s.freelist) :
    Books pf after pages roots kept := by
  obtain ⟨chain, nodup, inside, balanced, shape⟩ := books
  rw [← sameMem] at chain balanced shape
  rw [← sameList] at chain
  exact ⟨chain, nodup, inside, balanced, shape⟩

theorem Books.sameTables (books : Books pf s pages roots kept) {place : Place}
    (notTable : place.NotTable) (holds : held s.mem roots kept place = some q)
    (changed : ChangedIn s.mem mem' q) : SameTables s.mem mem' roots := by
  intro o r path t owner short reached
  exact changed.samePage (books.balanced.inside place q holds).1.1
    (table_page books.balanced owner short reached).1.1
    (place_ne_table books.balanced notTable holds owner short reached)

/-- Nor does it concern the books. -/
theorem Books.scribble_at (books : Books pf s pages roots kept) {place : Place}
    (notTable : place.NotTable) (holds : held s.mem roots kept place = some q)
    (changed : ChangedIn s.mem mem' q) : Books pf { s with mem := mem' } pages roots kept := by
  obtain ⟨page, inUse⟩ := books.balanced.inside place q holds
  refine books.frame (books.sameTables notTable holds changed) ?_
  intro free member
  refine changed.samePage page.1 (books.inside free member).1 ?_
  rintro rfl
  exact inUse member

theorem Books.scribble (books : Books pf s pages roots kept) {k : Keeper} (holds : kept k = some q)
    (changed : ChangedIn s.mem mem' q) : Books pf { s with mem := mem' } pages roots kept := by
  have atPlace : held s.mem roots kept (.kept k) = some q := holds
  exact books.scribble_at (Place.notTable_kept k) atPlace changed

section Simple

variable {post : PUnit → Kernel → Prop} {stop : Panic → Prop}

/-- Reading a word of memory. -/
@[simp] theorem wp_loadWord {addr : Nat} {post : Nat → Kernel → Prop} :
    wp (loadWord addr) post stop s ↔ post (load s.mem addr 8) s := by
  simp only [loadWord, wp_bind, wp_get, wp_pure]

/-- Changing memory. -/
@[simp] theorem wp_setMem {change : ByteMap → ByteMap} :
    wp (setMem change) post stop s ↔ post ⟨⟩ { s with mem := change s.mem } := by
  simp only [setMem, wp_modify]

/-- Writing a word of memory. -/
@[simp] theorem wp_storeWord {addr value : Nat} :
    wp (storeWord addr value) post stop s ↔
      post ⟨⟩ { s with mem := store s.mem addr 8 value } := by
  simp only [storeWord, wp_setMem]

/-- Filling memory. -/
@[simp] theorem wp_memset {dst n : Nat} {c : UInt8} :
    wp (memset dst c n) post stop s ↔ post ⟨⟩ { s with mem := fill s.mem dst n c } := by
  simp only [memset, wp_setMem]

@[simp] theorem wp_setProc {p : Nat} {change : Proc → Proc} :
    wp (setProc p change) post stop s ↔
      post ⟨⟩ { s with proc := update s.proc p (change (s.proc p)) } := by
  simp only [setProc, wp_modify]

end Simple

variable {stop : Panic → Prop}

theorem wp_kfree {post : PUnit → Kernel → Prop} (page : IsPage pf q)
    (done : post ⟨⟩ { s with mem := freed s.mem s.freelist q, freelist := q }) :
    wp (kfree pf q) post stop s := by
  simp only [kfree, kfree_accepts page, ↓reduceIte, wp_bind, wp_memset, wp_get, wp_storeWord,
    wp_modify]
  exact done

/-- Putting the page in hand onto the free list. -/
theorem Books.free_hand (books : Books pf s pages roots kept) {k : Keeper} (hand : kept k = some q) :
    Books pf { s with mem := freed s.mem s.freelist q, freelist := q } (q :: pages) roots
      (update kept k none) := by
  obtain ⟨page, inUse⟩ := books.balanced.inside (.kept k) q hand
  have framed := books.scribble hand (changedIn_freed s.mem s.freelist q)
  refine ⟨?_, ?_, ?_, ?_, framed.shape⟩
  · exact books.chain.push books.inside page inUse
  · exact List.nodup_cons.mpr ⟨inUse, books.nodup⟩
  · intro other member
    rcases List.mem_cons.mp member with rfl | old
    · exact page
    · exact books.inside other old
  · have emptied : held (freed s.mem s.freelist q) roots (update kept k none)
        (.kept k) = none := by
      simp [held]
    have holds : held (freed s.mem s.freelist q) roots kept (.kept k) = some q := hand
    refine framed.balanced.give holds ?_ emptied ?_
    · intro other _
      simp only [List.mem_cons, not_or]
    · intro other different
      cases other with
      | page o path => rfl
      | kept k' =>
        have apart : k' ≠ k := fun same => different (by rw [same])
        simp [held, apart]

theorem wp_kalloc_list (chain : FreeChain s.mem s.freelist pages) (nodup : pages.Nodup)
    (inside : ∀ q, q ∈ pages → IsPage pf q) {post : Nat → Kernel → Prop}
    (refused : post 0 { s with asked := s.asked + 1, denied := s.denied + 1 })
    (got : ∀ q rest mem freelist, pages = q :: rest → IsPage pf q → ChangedIn s.mem mem q →
      FreeChain mem freelist rest →
      post q { s with asked := s.asked + 1, mem := mem, freelist := freelist }) :
    wp (kalloc pf) post stop s := by
  simp only [kalloc, wp_bind, wp_get]
  by_cases turnedDown : pf.refuse s.asked = true
  · simp only [turnedDown, ↓reduceIte, wp_bind, wp_set, wp_pure]
    exact refused
  · cases pages with
    | nil =>
      have none : s.freelist = 0 := chain
      simp only [turnedDown, Bool.false_eq_true, none, ↓reduceIte, wp_bind, wp_set, wp_pure]
      rw [none] at refused
      exact refused
    | cons q rest =>
      obtain ⟨first, nonzero, links⟩ := chain
      simp only [turnedDown, Bool.false_eq_true, first, nonzero, ↓reduceIte, wp_bind, wp_set,
        wp_memset, wp_pure]
      have page := inside q (by simp)
      obtain ⟨fresh, -⟩ := List.nodup_cons.mp nodup
      have changed := changedIn_fill s.mem q 5
      refine got q rest _ _ rfl page changed (links.congr fun p member => ?_)
      refine changed.samePage page.1 (inside p (List.mem_cons_of_mem q member)).1 ?_
      rintro rfl
      exact fresh member

/-- The law of `kalloc`: the page comes into the empty hand. -/
theorem Books.wp_kalloc (books : Books pf s pages roots kept) {k : Keeper} (hand : kept k = none)
    {post : Nat → Kernel → Prop}
    (refused : post 0 { s with asked := s.asked + 1, denied := s.denied + 1 })
    (got : ∀ q rest mem freelist, pages = q :: rest → IsPage pf q → ChangedIn s.mem mem q →
      Books pf { s with asked := s.asked + 1, mem := mem, freelist := freelist } rest roots
        (update kept k (some q)) →
      post q { s with asked := s.asked + 1, mem := mem, freelist := freelist }) :
    wp (kalloc pf) post stop s := by
  refine wp_kalloc_list books.chain books.nodup books.inside refused ?_
  rintro q rest mem freelist rfl page changed links
  obtain ⟨fresh, distinct⟩ := List.nodup_cons.mp books.nodup
  have tables : SameTables s.mem mem roots := by
    intro o r path t owner short reached
    obtain ⟨tablePage, inUse⟩ := table_page books.balanced owner short reached
    refine changed.samePage page.1 tablePage.1 ?_
    rintro rfl
    exact inUse (by simp)
  refine got q rest mem freelist rfl page changed ⟨links, distinct, ?_, ?_, ?_⟩
  · intro p member
    exact books.inside p (List.mem_cons_of_mem q member)
  · have placed : held mem roots (update kept k (some q)) (.kept k) = some q := by
      simp [held]
    have empty : held s.mem roots kept (.kept k) = none := hand
    refine books.balanced.take page (by simp) empty ?_ placed ?_
    · intro other _
      simp only [List.mem_cons, not_or]
      constructor
      · intro absent
        by_cases same : other = q
        · exact Or.inl same
        · exact Or.inr ⟨same, absent⟩
      · rintro (rfl | ⟨-, absent⟩)
        · exact fresh
        · exact absent
    · intro other different
      cases other with
      | page o path => exact tables.held_eq (.page o path)
      | kept k' =>
        have apart : k' ≠ k := fun same => different (by rw [same])
        simp [held, apart]
  · intro o r path t i owner short reached index
    simp only at reached ⊢
    rw [tables.follow_eq owner (by omega)] at reached
    rw [entry_congr (tables o r path t owner short reached) index]
    exact books.shape o r path t i owner short reached index

end Xv6.Vm
