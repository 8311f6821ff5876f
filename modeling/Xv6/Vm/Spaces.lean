import Xv6.Vm.Teardown

/-!
# Address spaces

An address space is a page table with the size of the user memory below it.
-/

namespace Xv6.Vm

open Command Bytes Ownership Xv6.Tree Function

structure AddressSpace where
  root : Nat
  sz : Nat
  trapframe : Nat

/-- An address space in order. -/
structure Space (pf : Platform) (mem : ByteMap) (a : AddressSpace) : Prop where
  bounded : a.sz ≤ TRAPFRAME
  below : ∀ va, va < VASPACE → hasFlag (leaf mem a.root va) PTE_V = true →
    va < PGROUNDUP a.sz ∨ TRAPFRAME ≤ va ∧ va < MAXVA
  trampoline : leaf mem a.root TRAMPOLINE = PA2PTE pf.trampoline ||| (PTE_R ||| PTE_X ||| PTE_V)
  trapframe : leaf mem a.root TRAPFRAME = PA2PTE a.trapframe ||| (PTE_R ||| PTE_W ||| PTE_V)

def rootsOf (spaces : Owner → Option AddressSpace) (o : Owner) : Option Nat :=
  (spaces o).map AddressSpace.root

structure Sane (pf : Platform) (s : Kernel) (spaces : Owner → Option AddressSpace)
    (kept : Keeper → Option Nat) : Prop where
  accounted : Accounted pf s (rootsOf spaces) kept
  space : ∀ o a, spaces o = some a → Space pf s.mem a

variable {pf : Platform} {s after : Kernel} {spaces : Owner → Option AddressSpace}
  {kept kept' : Keeper → Option Nat} {mem mem' : ByteMap} {o : Owner} {a : AddressSpace}
  {r q va sz : Nat} {region region' : Owner → Nat → Prop} {stop : Panic → Prop}

theorem rootsOf_some (owner : spaces o = some a) : rootsOf spaces o = some a.root := by
  rw [rootsOf, owner, Option.map_some]

theorem rootsOf_none (unowned : spaces o = none) : rootsOf spaces o = none := by
  rw [rootsOf, unowned, Option.map_none]

theorem rootsOf_update (spaces : Owner → Option AddressSpace) (o : Owner)
    (new : Option AddressSpace) :
    rootsOf (update spaces o new) =
      update (rootsOf spaces) o (new.map AddressSpace.root) := by
  funext x
  by_cases same : x = o
  · subst same
    simp [rootsOf]
  · simp [rootsOf, same]

theorem rootsOf_resize (owner : spaces o = some a) (sz : Nat) :
    rootsOf (update spaces o (some { a with sz := sz })) = rootsOf spaces := by
  rw [rootsOf_update, Option.map_some, ← rootsOf_some owner, update_eq_self]

theorem Space.congr (space : Space pf mem a)
    (same : ∀ va, va < VASPACE → leaf mem' a.root va = leaf mem a.root va) : Space pf mem' a := by
  refine ⟨space.bounded, ?_, ?_, ?_⟩
  · intro va low valid
    rw [same va low] at valid
    exact space.below va low valid
  · rw [same _ (by decide), space.trampoline]
  · rw [same _ (by decide), space.trapframe]

theorem Space.resize (space : Space pf mem a) (bounded : sz ≤ TRAPFRAME)
    (same : ∀ va, va < VASPACE → TRAPFRAME ≤ va → leaf mem' a.root va = leaf mem a.root va)
    (below : ∀ va, va < TRAPFRAME → hasFlag (leaf mem' a.root va) PTE_V = true →
      va < PGROUNDUP sz) : Space pf mem' { a with sz := sz } := by
  refine ⟨bounded, ?_, ?_, ?_⟩
  · intro va low valid
    by_cases user : va < TRAPFRAME
    · exact Or.inl (below va user valid)
    · have special := Nat.le_of_not_lt user
      rw [same va low special] at valid
      rcases space.below va low valid with under | upper
      · have := (PGROUNDUP_spec space.bounded).2.2.2
        exact absurd (Nat.lt_of_lt_of_le under this) user
      · exact Or.inr upper
  · exact (same _ (by decide) (by decide)).trans space.trampoline
  · exact (same _ (by decide) (by decide)).trans space.trapframe

theorem Within.recast {roots roots' : Owner → Option Nat} (quiet : Quiet pf s roots kept o after)
    (accounted : Accounted pf after roots' kept') (same : ∀ o', o' ≠ o → roots' o' = roots o')
    (settled : ∀ k, k ≠ .hand → k ≠ .node → kept' k = kept k) :
    Within pf s roots' kept' o (fun o' _ => o' = o) after := by
  refine ⟨accounted, fun o' r va owner low other => ?_, fun place q spared holds => ?_,
    quiet.outside, quiet.processes, quiet.first, quiet.denied⟩
  · rw [same o' other] at owner
    exact quiet.leaf_of_quiet owner low
  · refine quiet.frame place q (spared.mono fun _ _ impossible => impossible.elim) ?_
    rw [← holds]
    cases place with
    | kept k => exact (settled k spared.1 spared.2).symm
    | page o' path =>
      rcases spared with other | ⟨va, _, _, self⟩
      · rw [held, held, same o' other]
      · exact absurd rfl self

theorem Sane.change (sane : Sane pf s spaces kept)
    (within : Within pf s (rootsOf spaces) kept' o region after) (owner : spaces o = some a)
    (only : ∀ o' va, region o' va → o' = o) (space : Space pf after.mem { a with sz := sz }) :
    Sane pf after (update spaces o (some { a with sz := sz })) kept' := by
  refine ⟨?_, ?_⟩
  · rw [rootsOf_resize owner]
    exact within.accounted
  · intro o' a' owner'
    by_cases same : o' = o
    · subst same
      rw [update_self, Option.some.injEq] at owner'
      subst owner'
      exact space
    · rw [update_of_ne same] at owner'
      refine (sane.space o' a' owner').congr fun va low => ?_
      exact within.leaves o' a'.root va (rootsOf_some owner') low fun inside =>
        same (only o' va inside)

theorem Sane.touch (sane : Sane pf s spaces kept)
    (within : Within pf s (rootsOf spaces) kept' o region after) (owner : spaces o = some a)
    (only : ∀ o' va, region o' va → o' = o) (space : Space pf after.mem a) :
    Sane pf after spaces kept' := by
  have sameSize : Space pf after.mem { a with sz := a.sz } := space
  have changed := sane.change within owner only sameSize
  rwa [← owner, update_eq_self] at changed

theorem Sane.same (sane : Sane pf s spaces kept)
    (same : SameMappings pf s (rootsOf spaces) kept' after) : Sane pf after spaces kept' :=
  ⟨same.accounted, fun o a owner => (sane.space o a owner).congr fun va low =>
    same.leaves o a.root va (rootsOf_some owner) low⟩

theorem Sane.quiet (sane : Sane pf s spaces kept)
    (quiet : Quiet pf s (rootsOf spaces) kept' o after) : Sane pf after spaces kept' :=
  sane.same quiet.sameMappings

theorem user_lt_vaspace (user : va < TRAPFRAME) : va < VASPACE :=
  Nat.lt_trans user (by decide)

theorem Space.fresh (space : Space pf mem a) (above : PGROUNDUP a.sz ≤ va) (user : va < TRAPFRAME) :
    hasFlag (leaf mem a.root va) PTE_V = false := by
  rw [← Bool.not_eq_true]
  intro valid
  rcases space.below va (user_lt_vaspace user) valid with under | ⟨special, -⟩
  · omega
  · omega

theorem Space.filled (space : Space pf mem a) {new : Nat} (bounded : new ≤ TRAPFRAME)
    (larger : a.sz ≤ new)
    (same : ∀ va, va < VASPACE → ¬ (PGROUNDUP a.sz ≤ va ∧ va < PGROUNDUP new) →
      leaf mem' a.root va = leaf mem a.root va) : Space pf mem' { a with sz := new } := by
  obtain ⟨-, -, -, newBound⟩ := PGROUNDUP_spec bounded
  refine space.resize bounded ?_ ?_
  · intro va low special
    exact same va low fun inside => by omega
  · intro va user valid
    by_cases inside : PGROUNDUP a.sz ≤ va ∧ va < PGROUNDUP new
    · exact inside.2
    · rw [same va (user_lt_vaspace user) inside] at valid
      rcases space.below va (user_lt_vaspace user) valid with under | ⟨special, -⟩
      · exact Nat.lt_of_lt_of_le under (PGROUNDUP_mono larger bounded)
      · omega

theorem Space.cleared (space : Space pf mem a) {new high : Nat} (smaller : new ≤ a.sz)
    (high_le : high ≤ TRAPFRAME) (reaches : PGROUNDUP a.sz ≤ high ∨ PGROUNDUP a.sz ≤ PGROUNDUP new)
    (same : ∀ va, va < VASPACE → ¬ (PGROUNDUP new ≤ va ∧ va < high) →
      leaf mem' a.root va = leaf mem a.root va)
    (gone : ∀ va, PGROUNDUP new ≤ va → va < high → va < VASPACE →
      hasFlag (leaf mem' a.root va) PTE_V = false) : Space pf mem' { a with sz := new } := by
  refine space.resize (smaller.trans space.bounded) ?_ ?_
  · intro va low special
    exact same va low fun inside => by omega
  · intro va user valid
    by_cases inside : PGROUNDUP new ≤ va ∧ va < high
    · rw [gone va inside.1 inside.2 (user_lt_vaspace user)] at valid
      simp at valid
    · rw [same va (user_lt_vaspace user) inside] at valid
      rcases space.below va (user_lt_vaspace user) valid with under | ⟨special, -⟩
      · omega
      · omega

variable {roots : Owner → Option Nat} {post : Nat → Kernel → Prop}

theorem Sane.wp_uvmalloc (sane : Sane pf s spaces kept) (owner : spaces o = some a)
    {newsz xperm : Nat} (room : Roomy pf s (rootsOf spaces) kept o (PGROUNDUP a.sz)
      (PTE_R ||| PTE_U ||| xperm ||| PTE_V) newsz) (node : kept .node = none)
    (hand : kept .hand = none) (flags : LeafFlags (PTE_R ||| PTE_U ||| xperm ||| PTE_V))
    (smaller : newsz < a.sz → post a.sz s)
    (refused : ∀ after, Sane pf after spaces kept →
      Cleared pf s (rootsOf spaces) kept o (PGROUNDUP a.sz) TRAPFRAME after → post 0 after)
    (grown : ∀ after, a.sz ≤ newsz → newsz ≤ TRAPFRAME →
      Sane pf after (update spaces o (some { a with sz := newsz })) kept →
      Filled pf s (rootsOf spaces) kept o (PGROUNDUP a.sz) (PGROUNDUP newsz)
        (PTE_R ||| PTE_U ||| xperm ||| PTE_V) after → post newsz after) :
    wp (uvmalloc pf a.root a.sz newsz xperm) post stop s := by
  have space := sane.space o a owner
  have root := rootsOf_some owner
  refine sane.accounted.wp_uvmalloc root space.bounded node hand flags
    (fun va lower upper => space.fresh lower upper) room smaller ?_ ?_
  · intro after larger cleared _
    refine refused after ?_ cleared
    refine sane.touch cleared.within owner (fun _ _ inside => inside.1) ?_
    refine space.cleared (Nat.le_refl _) (Nat.le_refl _) (Or.inr (Nat.le_refl _)) ?_ ?_
    · intro va low outside
      exact cleared.within.leaves o a.root va root low fun inside => outside inside.2
    · intro va lower upper low
      exact cleared.gone a.root va root lower upper low
  · intro after larger bounded filled
    refine grown after larger bounded
      (sane.change filled.within owner (fun _ _ inside => inside.1) ?_) filled
    refine space.filled bounded larger ?_
    intro va low outside
    exact filled.within.leaves o a.root va root low fun inside => outside inside.2

theorem Sane.wp_uvmdealloc (sane : Sane pf s spaces kept) (owner : spaces o = some a) {newsz : Nat}
    (hand : kept .hand = none)
    (larger : a.sz ≤ newsz → post a.sz s)
    (shrunk : ∀ after, newsz < a.sz →
      Sane pf after (update spaces o (some { a with sz := newsz })) kept →
      Emptied pf s (rootsOf spaces) kept o (PGROUNDUP newsz) (PGROUNDUP a.sz) after →
      post newsz after) :
    wp (uvmdealloc pf a.root a.sz newsz) post stop s := by
  have space := sane.space o a owner
  have root := rootsOf_some owner
  obtain ⟨-, -, -, bound⟩ := PGROUNDUP_spec space.bounded
  refine sane.accounted.wp_uvmdealloc root space.bounded hand larger ?_
  intro after smaller cleared
  refine shrunk after smaller ?_ cleared
  refine sane.change cleared.within owner (fun _ _ inside => inside.1) ?_
  refine space.cleared (Nat.le_of_lt smaller) bound (Or.inl (Nat.le_refl _)) ?_ ?_
  · intro va low outside
    exact cleared.within.leaves o a.root va root low fun inside => outside inside.2
  · intro va lower upper low
    exact cleared.gone a.root va root lower upper low

theorem Books.leafFlags {pages : List Nat} {t : Nat} (books : Books pf s pages roots kept)
    (owner : roots o = some r) (reached : follow (child s.mem) r [PX 2 va, PX 1 va] = some t)
    (valid : hasFlag (leaf s.mem r va) PTE_V = true) :
    LeafFlags (PTE_FLAGS (leaf s.mem r va) ||| PTE_V) := by
  rw [leaf_of_table reached] at valid ⊢
  have kind := (books.shape o r _ t (PX 0 va) owner (by simp) reached (PX_lt 0 va) valid).mpr rfl
  rw [hasFlag_low _ _ (by decide)] at kind valid
  have bits : ∀ f, hasFlag (PTE_FLAGS (entry s.mem t (PX 0 va))) f = true →
      hasFlag (PTE_FLAGS (entry s.mem t (PX 0 va)) ||| PTE_V) f = true := by
    intro f set
    simp only [hasFlag, bne_iff_ne, ne_eq] at set ⊢
    rw [Nat.and_or_distrib_right]
    intro clear
    exact set (Nat.or_eq_zero_iff.mp clear).1
  exact ⟨Nat.or_lt_two_pow (Nat.mod_lt _ (by decide)) (by decide), bits _ valid, bits _ kind⟩

def SameBytes (mem : ByteMap) (q : Nat) (mem' : ByteMap) (q' : Nat) : Prop :=
  ∀ i, i < PGSIZE → mem' (q' + i) = mem (q + i)

theorem SameBytes.congr {mem'' : ByteMap} {q' : Nat} (bytes : SameBytes mem q mem' q')
    (same : SamePage mem' mem'' q') : SameBytes mem q mem'' q' := fun i inside =>
  (same _ (Nat.le_add_right ..) (by omega)).trans (bytes i inside)

theorem flags_valid {pte : Nat} (valid : hasFlag pte PTE_V = true) :
    PTE_FLAGS pte ||| PTE_V = PTE_FLAGS pte := by
  have bit : PTE_FLAGS pte &&& 1 ≠ 0 := by
    rw [hasFlag_low _ _ (by decide)] at valid
    simpa [hasFlag] using valid
  have odd : PTE_FLAGS pte % 2 = 1 := by
    rw [Nat.and_one_is_mod] at bit
    omega
  refine Nat.eq_of_testBit_eq fun i => ?_
  rw [Nat.testBit_or]
  cases i with
  | zero => simp [Nat.testBit_zero, odd]
  | succ i => simp [Nat.testBit_succ, show PTE_V / 2 = 0 from rfl]

theorem Accounted.wp_copyPage {o' : Owner} {r' : Nat}
    (accounted : Accounted pf s roots kept) (source : roots o = some r)
    (target : roots o' = some r') (user : va < TRAPFRAME) (aligned : va % PGSIZE = 0)
    (node : kept .node = none) (hand : kept .hand = none)
    (fresh : hasFlag (leaf s.mem r' va) PTE_V = false) {post : Bool → Kernel → Prop}
    (skipped : hasFlag (leaf s.mem r va) PTE_V = false → post true s)
    (refused : ∀ after, Quiet pf s roots kept o' after → s.denied < after.denied →
      post false after)
    (copied : ∀ q after, hasFlag (leaf s.mem r va) PTE_V = true → IsPage pf q →
      MappedAt pf s roots kept o' va (PA2PTE q ||| PTE_FLAGS (leaf s.mem r va)) after →
      SameBytes s.mem (PTE2PA (leaf s.mem r va)) after.mem q → post true after) :
    wp (copyPage pf r r' va) post stop s := by
  have low : va < MAXVA := Nat.lt_trans user (by decide)
  simp only [copyPage, wp_bind]
  refine wp_walk_look low ?_ ?_
  · intro absent
    rw [wp_pure]
    exact skipped (by rw [leaf_of_none absent, hasFlag_zero])
  · intro t reached
    have loaded : load s.mem (t + 8 * PX 0 va) 8 = leaf s.mem r va := (leaf_of_table reached).symm
    simp only [wp_bind, wp_loadWord, loaded]
    by_cases valid : hasFlag (leaf s.mem r va) PTE_V = true
    · have flags : LeafFlags (PTE_FLAGS (leaf s.mem r va) ||| PTE_V) := by
        obtain ⟨pages, books⟩ := accounted
        exact books.leafFlags source reached valid
      have different : o ≠ o' := by
        rintro rfl
        obtain rfl : r = r' := Option.some.inj (source.symm.trans target)
        exact absurd (fresh.symm.trans valid) (by simp)
      rw [if_neg (by simp [valid]), wp_bind]
      refine accounted.wp_kalloc_hand o' hand (fun after quiet short => ?_) ?_
      · simp only [↓reduceIte, wp_pure]
        exact refused after quiet short
      · intro q taken page quiet
        have inHand : update kept .hand (some q) .hand = some q := by simp
        have inside : 0 + PGSIZE ≤ PGSIZE := Nat.le_refl _
        have changed : ChangedIn taken.mem
            (copy taken.mem q taken.mem (PTE2PA (leaf s.mem r va)) PGSIZE) q :=
          changedIn_copy taken.mem taken.mem inside
        have filled := quiet.trans (quiet.accounted.scribble_hand (o := o') inHand changed)
        rw [if_neg page.nonzero, wp_bind, wp_setMem]
        refine filled.accounted.wp_map_or_free target user aligned node hand flags ?_ ?_ ?_
        · intro remapped
          rw [filled.leaf_of_quiet target (lt_vaspace low), fresh] at remapped
          simp at remapped
        · intro after failed short
          exact refused after (filled.trans failed) (Nat.lt_of_le_of_lt filled.denied short)
        · intro after mapped same
          have whole : MappedAt pf s roots kept o' va (PA2PTE q ||| PTE_FLAGS (leaf s.mem r va))
              after := by
            refine ⟨(Within.of_quiet filled).trans mapped.within, fun r'' owner => ?_⟩
            rw [mapped.here r'' owner, flags_valid valid]
          refine copied q after valid page whole (SameBytes.congr ?_ same)
          intro i inside
          have byte : copy taken.mem q taken.mem (PTE2PA (leaf s.mem r va)) PGSIZE (q + i) =
              taken.mem (PTE2PA (leaf s.mem r va) + (q + i - q)) :=
            copy_inside taken.mem taken.mem (Nat.le_add_right q i) (Nat.add_lt_add_left inside q)
          rw [Nat.add_sub_cancel_left] at byte
          refine byte.trans ?_
          exact quiet.frame (.page o (pathOf va)) _ (.inl different)
            (held_user source user valid) _ (Nat.le_add_right ..) (by omega)
    · have invalid : hasFlag (leaf s.mem r va) PTE_V = false := by simpa using valid
      simp only [invalid, ↓reduceIte, wp_pure]
      exact skipped invalid

theorem inRange_mono {low high low' high' : Nat} (left : low' ≤ low) (right : high ≤ high')
    (o' : Owner) (va : Nat) (inside : inRange o low high o' va) : inRange o low' high' o' va :=
  ⟨inside.1, left.trans inside.2.1, Nat.lt_of_lt_of_le inside.2.2 right⟩

theorem onPage_inRange {low high page : Nat} (aligned : page % PGSIZE = 0) (left : low ≤ page)
    (right : page + PGSIZE ≤ high) (o' : Owner) (va : Nat) (inside : onPage o page o' va) :
    inRange o low high o' va := by
  obtain ⟨same, samePage⟩ := inside
  refine ⟨same, ?_, ?_⟩
  · simp only [PGSIZE] at *
    omega
  · simp only [PGSIZE] at *
    omega

structure Copied (pf : Platform) (s : Kernel) (roots : Owner → Option Nat)
    (kept : Keeper → Option Nat) (o o' : Owner) (high : Nat) (after : Kernel) : Prop where
  within : Within pf s roots kept o' (inRange o' 0 high) after
  absent : ∀ r r' va, roots o = some r → roots o' = some r' → va < high → va < VASPACE →
    hasFlag (leaf s.mem r va) PTE_V = false → hasFlag (leaf after.mem r' va) PTE_V = false
  present : ∀ r r' va, roots o = some r → roots o' = some r' → va < high → va < VASPACE →
    hasFlag (leaf s.mem r va) PTE_V = true →
    ∃ q, IsPage pf q ∧ leaf after.mem r' va = PA2PTE q ||| PTE_FLAGS (leaf s.mem r va) ∧
      SameBytes s.mem (PTE2PA (leaf s.mem r va)) after.mem q

section Copying

variable {roots : Owner → Option Nat} {o' : Owner} {r' high : Nat} {current : Kernel}

theorem below_or_onPage {va' : Nat} (aligned : va % PGSIZE = 0) (below : va' < va + PGSIZE) :
    va' < va ∨ va' / PGSIZE = va / PGSIZE := by
  simp only [PGSIZE] at *
  omega

theorem Copied.skip (sofar : Copied pf s roots kept o o' va current)
    (aligned : va % PGSIZE = 0) (user : va < TRAPFRAME)
    (fresh : ∀ r', roots o' = some r' → hasFlag (leaf s.mem r' va) PTE_V = false)
    (absent : ∀ r, roots o = some r → hasFlag (leaf s.mem r va) PTE_V = false) :
    Copied pf s roots kept o o' (va + PGSIZE) current := by
  have range := user_lt_vaspace user
  refine ⟨sofar.within.mono (inRange_mono (Nat.le_refl 0) (Nat.le_add_right ..)), ?_, ?_⟩
  · intro r r' va' source target below low invalid
    rcases below_or_onPage aligned below with earlier | same
    · exact sofar.absent r r' va' source target earlier low invalid
    · rw [leaf_page low range same,
        sofar.within.leaves o' r' va target range fun inside => Nat.lt_irrefl _ inside.2.2]
      exact fresh r' target
  · intro r r' va' source target below low valid
    rcases below_or_onPage aligned below with earlier | same
    · exact sofar.present r r' va' source target earlier low valid
    · rw [leaf_page low range same, absent r source] at valid
      exact absurd valid (by simp)

theorem Copied.snoc (sofar : Copied pf s roots kept o o' va current)
    (aligned : va % PGSIZE = 0) (user : va < TRAPFRAME) (source : roots o = some r)
    (valid : hasFlag (leaf s.mem r va) PTE_V = true) (page : IsPage pf q)
    (mapped : MappedAt pf current roots kept o' va (PA2PTE q ||| PTE_FLAGS (leaf s.mem r va)) after)
    (bytes : SameBytes s.mem (PTE2PA (leaf s.mem r va)) after.mem q) :
    Copied pf s roots kept o o' (va + PGSIZE) after := by
  have range := user_lt_vaspace user
  have wider := sofar.within.mono (inRange_mono (Nat.le_refl 0) (Nat.le_add_right va PGSIZE))
  have added := mapped.within.mono
    (onPage_inRange aligned (Nat.zero_le _) (Nat.le_refl (va + PGSIZE)))
  refine ⟨wider.trans added, ?_, ?_⟩
  · intro r₁ r' va' source' target below low invalid
    obtain rfl : r₁ = r := Option.some.inj (source'.symm.trans source)
    rcases below_or_onPage aligned below with earlier | same
    · rw [mapped.within.leaves o' r' va' target low ?_]
      · exact sofar.absent r₁ r' va' source target earlier low invalid
      · rintro ⟨-, same⟩
        simp only [PGSIZE] at *
        omega
    · rw [leaf_page low range same, valid] at invalid
      exact absurd invalid (by simp)
  · intro r₁ r' va' source' target below low valid'
    obtain rfl : r₁ = r := Option.some.inj (source'.symm.trans source)
    rcases below_or_onPage aligned below with earlier | same
    · have outside : ¬ onPage o' va o' va' := by
        rintro ⟨-, same⟩
        simp only [PGSIZE] at *
        omega
      obtain ⟨q', page', stored, bytes'⟩ :=
        sofar.present r₁ r' va' source target earlier low valid'
      have flags : PTE_FLAGS (leaf s.mem r₁ va') < 2 ^ 10 := Nat.mod_lt _ (by decide)
      have valid'' : hasFlag (leaf current.mem r' va') PTE_V = true := by
        rw [stored, hasFlag_pte q' flags (by decide), ← hasFlag_low _ _ (by decide)]
        exact valid'
      have same := mapped.within.samePage target (by omega) outside valid''
      rw [stored, PTE2PA_or page'.1 page'.wide flags] at same
      rw [mapped.within.leaves o' r' va' target low outside]
      exact ⟨q', page', stored, bytes'.congr same⟩
    · rw [leaf_page low range same, leaf_page low range same]
      exact ⟨q, page, mapped.here r' target, bytes⟩

/-- The law of `uvmcopy` into a range without mappings. -/
theorem Accounted.wp_uvmcopy (accounted : Accounted pf s roots kept) (source : roots o = some r)
    (target : roots o' = some r') (bounded : sz ≤ TRAPFRAME) (node : kept .node = none)
    (hand : kept .hand = none)
    (fresh : ∀ va, va < PGROUNDUP sz → hasFlag (leaf s.mem r' va) PTE_V = false)
    {post : Int → Kernel → Prop}
    (refused : ∀ after, Cleared pf s roots kept o' 0 (PGROUNDUP sz) after →
      s.denied < after.denied → post (-1) after)
    (copied : ∀ after, Copied pf s roots kept o o' (PGROUNDUP sz) after → post 0 after) :
    wp (uvmcopy pf r r' sz) post stop s := by
  obtain ⟨aligned, lower, upper, bound⟩ := PGROUNDUP_spec bounded
  have reaches : (sz + PGSIZE - 1) / PGSIZE * PGSIZE = PGROUNDUP sz := by
    simp only [PGSIZE] at *
    omega
  have next : ∀ k, (k + 1) * PGSIZE = k * PGSIZE + PGSIZE := fun k => Nat.succ_mul k PGSIZE
  have sole : ∀ r'', roots o' = some r'' → r'' = r' :=
    fun r'' owner => Option.some.inj (owner.symm.trans target)
  rw [uvmcopy, wp_bind]
  refine wp_mono (wp_searchRange
    (fun k current => Copied pf s roots kept o o' (k * PGSIZE) current)
    (fun k current => k * PGSIZE ≤ PGROUNDUP sz ∧ s.denied < current.denied ∧
      Within pf s roots kept o' (inRange o' 0 (k * PGSIZE)) current) stop _ 0 _ s ?_ ?_)
    ?_ fun _ stopped => stopped
  · intro k current _ before sofar
    rw [Nat.zero_add] at before
    have inside : (k + 1) * PGSIZE ≤ PGROUNDUP sz := by
      rw [← reaches]
      exact Nat.mul_le_mul_right PGSIZE before
    rw [next] at inside
    have page : k * PGSIZE < PGROUNDUP sz :=
      Nat.lt_of_lt_of_le (Nat.lt_add_of_pos_right (by decide)) inside
    have user : k * PGSIZE < TRAPFRAME := Nat.lt_of_lt_of_le page bound
    have start : k * PGSIZE % PGSIZE = 0 := Nat.mul_mod_left k PGSIZE
    have parent : leaf current.mem r (k * PGSIZE) = leaf s.mem r (k * PGSIZE) :=
      sofar.within.leaves o r _ source (user_lt_vaspace user)
        fun within => Nat.lt_irrefl _ within.2.2
    rw [wp_bind]
    refine sofar.within.accounted.wp_copyPage source target user start node hand ?_ ?_ ?_ ?_
    · rw [sofar.within.leaves o' r' _ target (user_lt_vaspace user)
        fun within => Nat.lt_irrefl _ within.2.2]
      exact fresh _ page
    · intro absent
      simp only [↓reduceIte, wp_pure, reduceCtorEq, false_implies, implies_true, true_and,
        forall_const]
      rw [next]
      refine sofar.skip start user (fun r'' owner => ?_) fun r₁ owner => ?_
      · rw [sole r'' owner]
        exact fresh _ page
      · rw [parent] at absent
        rw [Option.some.inj (owner.symm.trans source)]
        exact absent
    · intro after quiet short
      simp only [Bool.false_eq_true, ↓reduceIte, wp_pure, Option.some.injEq, forall_eq',
        reduceCtorEq, false_implies, and_true]
      exact ⟨Nat.le_of_lt page, Nat.lt_of_le_of_lt sofar.within.denied short,
        sofar.within.trans (Within.of_quiet quiet)⟩
    · intro q after valid isPage mapped bytes
      simp only [↓reduceIte, wp_pure, reduceCtorEq, false_implies, implies_true, true_and,
        forall_const]
      rw [parent] at valid mapped bytes
      rw [next]
      have different : o ≠ o' := by
        rintro rfl
        obtain rfl : r = r' := Option.some.inj (source.symm.trans target)
        exact absurd ((fresh _ page).symm.trans valid) (by simp)
      refine sofar.snoc start user source valid isPage mapped fun i within => ?_
      have unchanged := sofar.within.frame (.page o (pathOf (k * PGSIZE))) _ (.inl different)
        (held_user source user valid)
      exact (bytes i within).trans (unchanged _ (Nat.le_add_right ..) (by omega))
  · rw [Nat.zero_mul]
    exact ⟨Within.of_quiet (Quiet.refl accounted), fun _ _ _ _ _ below => absurd below (by omega),
      fun _ _ _ _ _ below => absurd below (by omega)⟩
  · rintro (_ | k) after outcome
    · have done := outcome.2 rfl
      rw [Nat.zero_add, reaches] at done
      rw [wp_pure]
      exact copied after done
    · obtain ⟨inside, short, sofar⟩ := outcome.1 k rfl
      have user : 0 + k * PGSIZE ≤ TRAPFRAME := by
        rw [Nat.zero_add]
        exact inside.trans bound
      rw [wp_bind]
      refine sofar.accounted.wp_uvmunmap target user rfl hand ?_
      intro last cleared
      rw [Nat.zero_add] at cleared
      rw [wp_pure]
      have whole := sofar.trans cleared.within
      refine refused last ⟨whole.mono (inRange_mono (Nat.le_refl 0) inside), ?_⟩
        (Nat.lt_of_lt_of_le short cleared.within.denied)
      intro r'' va owner low high range
      obtain rfl := sole r'' owner
      by_cases touched : va < k * PGSIZE
      · exact cleared.gone r'' va owner low touched range
      · rw [whole.leaves o' r'' va owner range fun within => touched within.2.2]
        exact fresh va high

end Copying

theorem Sane.wp_uvmcopy {o' : Owner} {b : AddressSpace} (sane : Sane pf s spaces kept)
    (source : spaces o = some a) (target : spaces o' = some b) (empty : b.sz = 0)
    (bounded : sz ≤ TRAPFRAME) (node : kept .node = none) (hand : kept .hand = none)
    {post : Int → Kernel → Prop}
    (refused : ∀ after, Sane pf after spaces kept → after.proc = s.proc →
      after.initproc = s.initproc → post (-1) after)
    (copied : ∀ after, Sane pf after (update spaces o' (some { b with sz := sz })) kept →
      after.proc = s.proc → after.initproc = s.initproc → post 0 after) :
    wp (uvmcopy pf a.root b.root sz) post stop s := by
  have space := sane.space o' b target
  have root := rootsOf_some target
  have none : PGROUNDUP b.sz = 0 := by
    rw [empty]
    rfl
  obtain ⟨-, -, -, bound⟩ := PGROUNDUP_spec bounded
  refine sane.accounted.wp_uvmcopy (rootsOf_some source) root bounded node hand ?_ ?_ ?_
  · intro va under
    exact space.fresh (by omega) (by omega)
  · intro after cleared _
    refine refused after ?_ cleared.within.processes cleared.within.first
    refine sane.touch cleared.within target (fun _ _ inside => inside.1) ?_
    refine space.cleared (Nat.le_refl _) bound (Or.inr (Nat.le_refl _)) ?_ ?_
    · intro va low outside
      exact cleared.within.leaves o' b.root va root low fun inside =>
        outside ⟨by omega, inside.2.2⟩
    · intro va _ upper low
      exact cleared.gone b.root va root (Nat.zero_le va) upper low
  · intro after ⟨within, _, _⟩
    refine copied after ?_ within.processes within.first
    refine sane.change within target (fun _ _ inside => inside.1) ?_
    refine space.filled bounded (by omega) ?_
    intro va low outside
    exact within.leaves o' b.root va root low fun inside => outside ⟨by omega, inside.2.2⟩

theorem Within.forget {middle : Kernel}
    (within : Within pf s roots kept o region middle) (only : ∀ o' va, region o' va → o' = o)
    (freed : Quiet pf middle (update roots o none) kept' o after)
    (settled : ∀ k, k ≠ .hand → k ≠ .node → kept' k = kept k := by
      intro k notHand notNode; simp [notHand, notNode]) :
    Quiet pf s (update roots o none) kept' o after := by
  refine ⟨freed.accounted, ?_, ?_, within.outside.trans freed.outside,
    freed.processes.trans within.processes, freed.first.trans within.first,
    within.denied.trans freed.denied⟩
  · intro o' r' va owner low free
    have different : o' ≠ o := by
      rintro rfl
      simp at owner
    rw [freed.leaves o' r' va owner low free]
    rw [update_of_ne different] at owner
    exact within.leaves o' r' va owner low fun inside => different (only o' va inside)
  · intro place q spared holds
    -- The freed address space holds nothing, so the place is elsewhere.
    have elsewhere : Spared o region place ∧ held s.mem roots kept place = some q ∧
        ∀ mem, held mem (update roots o none) kept' place = held mem roots kept place := by
      cases place with
      | kept k => exact ⟨spared, (settled k spared.1 spared.2).symm.trans holds,
          fun _ => settled k spared.1 spared.2⟩
      | page o' path =>
        have different : o' ≠ o := by
          rintro rfl
          simp [held] at holds
        have same : ∀ mem, held mem (update roots o none) kept' (.page o' path) =
            held mem roots kept (.page o' path) := by
          intro mem
          rw [held, held, update_of_ne different]
        exact ⟨.inl different, (same s.mem).symm.trans holds, same⟩
    obtain ⟨spared', before, same⟩ := elsewhere
    refine (within.frame place q spared' before).trans (freed.frame place q spared ?_)
    rw [same, within.held_eq spared', before]

theorem Accounted.wp_uvmfree (accounted : Accounted pf s roots kept) (owner : roots o = some r)
    (bounded : sz ≤ TRAPFRAME) (hand : kept .hand = none)
    (below : ∀ va, va < VASPACE → hasFlag (leaf s.mem r va) PTE_V = true → va < PGROUNDUP sz)
    {post : PUnit → Kernel → Prop}
    (done : ∀ after, Quiet pf s (update roots o none) kept o after → post ⟨⟩ after) :
    wp (uvmfree pf r sz) post stop s := by
  obtain ⟨aligned, -, -, bound⟩ := PGROUNDUP_spec bounded
  rw [uvmfree]
  split
  · have whole : 0 + PGROUNDUP sz / PGSIZE * PGSIZE = PGROUNDUP sz := by
      rw [Nat.zero_add]
      exact Nat.div_mul_cancel (Nat.dvd_of_mod_eq_zero aligned)
    rw [wp_bind]
    refine accounted.wp_uvmunmap owner (by rw [whole]; exact bound) rfl hand ?_
    intro middle cleared
    rw [whole] at cleared
    refine cleared.within.accounted.wp_freewalk owner ?_ ?_
    · intro va low
      by_cases inside : va < PGROUNDUP sz
      · exact cleared.gone r va owner (Nat.zero_le va) inside low
      · rw [cleared.within.leaves o r va owner low fun within => inside within.2.2,
          ← Bool.not_eq_true]
        exact fun valid => inside (below va low valid)
    · intro after freed
      exact done after (cleared.within.forget (fun _ _ inside => inside.1) freed)
  · rename_i zero
    refine accounted.wp_freewalk owner ?_ done
    intro va low
    rw [← Bool.not_eq_true]
    intro valid
    have under := below va low valid
    have nothing : sz = 0 := by omega
    subst nothing
    exact absurd under (Nat.not_lt_zero va)

theorem special_pages (low : TRAPFRAME ≤ va) (high : va < MAXVA) :
    va / PGSIZE = TRAPFRAME / PGSIZE ∨ va / PGSIZE = TRAMPOLINE / PGSIZE := by
  simp only [TRAPFRAME, TRAMPOLINE, MAXVA, PGSIZE] at *
  omega

theorem pages_special (page : va / PGSIZE = TRAPFRAME / PGSIZE ∨ va / PGSIZE = TRAMPOLINE / PGSIZE) :
    TRAPFRAME ≤ va ∧ va < MAXVA := by
  simp only [TRAPFRAME, TRAMPOLINE, MAXVA, PGSIZE] at *
  omega

theorem Sane.wp_procFreepagetable (sane : Sane pf s spaces kept) (owner : spaces o = some a)
    (hand : kept .hand = none) {post : PUnit → Kernel → Prop}
    (done : ∀ after, Sane pf after (update spaces o none) kept →
      Quiet pf s (update (rootsOf spaces) o none) kept o after → post ⟨⟩ after) :
    wp (procFreepagetable pf a.root a.sz) post stop s := by
  have space := sane.space o a owner
  have root := rootsOf_some owner
  simp only [procFreepagetable, wp_bind]
  refine sane.accounted.wp_uvmunmap_special root (by decide) (by decide) not_owned_trampoline ?_
  intro first within noTrampoline
  refine within.accounted.wp_uvmunmap_special root (by decide) (by decide) not_owned_trapframe ?_
  intro second within' noTrapframe
  refine within'.accounted.wp_uvmfree root space.bounded hand ?_ ?_
  · intro va low valid
    have outside : ¬ onPage o TRAPFRAME o va := by
      rintro ⟨-, same⟩
      rw [leaf_page low (by decide) same, noTrapframe] at valid
      simp at valid
    rw [within'.leaves o a.root va root low outside] at valid
    have outside' : ¬ onPage o TRAMPOLINE o va := by
      rintro ⟨-, same⟩
      rw [leaf_page low (by decide) same, noTrampoline] at valid
      simp at valid
    rw [within.leaves o a.root va root low outside'] at valid
    rcases space.below va low valid with under | special
    · exact under
    · rcases special_pages special.1 special.2 with same | same
      · exact absurd ⟨rfl, same⟩ outside
      · exact absurd ⟨rfl, same⟩ outside'
  · intro after freed
    have quiet := within.forget (fun _ _ inside => inside.1)
      (within'.forget (fun _ _ inside => inside.1) freed)
    refine done after ⟨?_, ?_⟩ quiet
    · rw [rootsOf_update]
      exact quiet.accounted
    · intro o' a' owner'
      have different : o' ≠ o := by
        rintro rfl
        simp at owner'
      rw [update_of_ne different] at owner'
      refine (sane.space o' a' owner').congr fun va low => ?_
      refine quiet.leaves o' a'.root va ?_ low id
      rw [update_of_ne different, rootsOf_some owner']

theorem Accounted.wp_uvmcreate (accounted : Accounted pf s roots kept)
    (unowned : roots o = none) (hand : kept .hand = none)
    (refused : ∀ after, Quiet pf s roots kept o after → post 0 after)
    (created : ∀ r after, r ≠ 0 →
      Within pf s (update roots o (some r)) kept o (fun o' _ => o' = o) after →
      (∀ va, leaf after.mem r va = 0) → post r after) :
    wp (uvmcreate pf) post stop s := by
  rw [uvmcreate, wp_bind]
  refine accounted.wp_kalloc_hand o hand (fun after quiet _ => ?_) ?_
  · simp only [↓reduceIte, wp_pure]
    exact refused after quiet
  · intro q taken page quiet
    have inHand : update kept .hand (some q) .hand = some q := by simp
    have cleared := quiet.trans
      (quiet.accounted.scribble_hand (o := o) inHand (changedIn_fill taken.mem q 0))
    rw [if_neg page.nonzero, wp_bind, wp_memset, wp_pure]
    obtain ⟨adopted, bare⟩ := cleared.accounted.adopt unowned inHand
      fun j inside => entry_fill_zero taken.mem q inside
    rw [kept_restored hand] at adopted
    refine created q _ page.nonzero (cleared.recast adopted ?_ ?_) bare
    · exact fun o' different => update_of_ne different ..
    · exact fun k notHand _ => (update_of_ne notHand ..).symm

theorem Within.rollback {middle : Kernel} (unowned : roots o = none)
    (built : Within pf s (update roots o (some r)) kept o (fun o' _ => o' = o) middle)
    (freed : Quiet pf middle (update (update roots o (some r)) o none) kept
      o after) : Quiet pf s roots kept o after := by
  have quiet := built.forget (fun _ _ same => same) freed
  rwa [update_idem, ← unowned, update_eq_self] at quiet

theorem Sane.wp_procPagetable (sane : Sane pf s spaces kept) (unowned : spaces o = none)
    (node : kept .node = none) (hand : kept .hand = none) {p : Nat}
    (bounded : (s.proc p).trapframe < 2 ^ 32)
    (refused : ∀ after, Quiet pf s (rootsOf spaces) kept o after → post 0 after)
    (created : ∀ r after, r ≠ 0 →
      Sane pf after (update spaces o (some ⟨r, 0, (s.proc p).trapframe⟩)) kept →
      Within pf s (update (rootsOf spaces) o (some r)) kept o (fun o' _ => o' = o) after →
      post r after) :
    wp (procPagetable pf p) post stop s := by
  have noRoot := rootsOf_none unowned
  rw [procPagetable, wp_bind]
  refine sane.accounted.wp_uvmcreate noRoot hand ?_ ?_
  · intro after quiet
    simp only [↓reduceIte, wp_pure]
    exact refused after quiet
  · intro r empty nonzero created' bare
    have root : update (rootsOf spaces) o (some r) o = some r := by simp
    rw [if_neg nonzero, wp_bind]
    refine created'.accounted.wp_mappages_special root (by decide) (by decide) not_owned_trampoline
      node ?_ (by constructor <;> decide) ?_ ?_ ?_
    · have base := pf.text
      have ram := pf.ram
      simp only [PHYSTOP, KERNBASE, PGSIZE] at *
      omega
    · intro valid
      rw [bare, hasFlag_zero] at valid
      simp at valid
    · intro middle quiet _
      simp only [Int.reduceNeg, Int.reduceLT, ↓reduceIte, wp_bind]
      refine quiet.accounted.wp_uvmfree root (Nat.zero_le _) hand ?_ ?_
      · intro va low valid
        rw [quiet.leaf_of_quiet root low, bare, hasFlag_zero] at valid
        simp at valid
      · intro after freed
        rw [wp_pure]
        exact refused after (Within.rollback noRoot (created'.trans (Within.of_quiet quiet)) freed)
    · intro middle mapped
      have built := created'.trans (mapped.within.mono fun _ _ inside => inside.1)
      have others : ∀ va, va < VASPACE → ¬ onPage o TRAMPOLINE o va → leaf middle.mem r va = 0 := by
        intro va low outside
        rw [mapped.within.leaves o r va root low outside, bare]
      have sameFrame : (middle.proc p).trapframe = (s.proc p).trapframe := by rw [built.processes]
      simp only [Int.lt_irrefl, ↓reduceIte, wp_bind, wp_get, sameFrame]
      refine mapped.within.accounted.wp_mappages_special root (by decide) (by decide)
        not_owned_trapframe node bounded (by constructor <;> decide) ?_ ?_ ?_
      · intro valid
        rw [others TRAPFRAME (by decide) (by rintro ⟨-, same⟩; revert same; decide),
          hasFlag_zero] at valid
        simp at valid
      · intro failed quiet _
        simp only [Int.reduceNeg, Int.reduceLT, ↓reduceIte, wp_bind]
        refine quiet.accounted.wp_uvmunmap_special root (by decide) (by decide) not_owned_trampoline
          ?_
        intro unmapped within invalid
        refine within.accounted.wp_uvmfree root (Nat.zero_le _) hand ?_ ?_
        · intro va low valid
          have outside : ¬ onPage o TRAMPOLINE o va := by
            rintro ⟨-, same⟩
            rw [leaf_page low (by decide) same, invalid] at valid
            simp at valid
          rw [within.leaves o r va root low outside, quiet.leaf_of_quiet root low,
            others va low outside, hasFlag_zero] at valid
          simp at valid
        · intro after freed
          have whole := (built.trans (Within.of_quiet quiet)).trans
            (within.mono fun _ _ inside => inside.1)
          rw [wp_pure]
          exact refused after (Within.rollback noRoot whole freed)
      · intro after framed
        simp only [Int.lt_irrefl, ↓reduceIte, wp_pure]
        have whole := built.trans (framed.within.mono fun _ _ inside => inside.1)
        refine created r after nonzero ⟨?_, ?_⟩ whole
        · rw [rootsOf_update]
          exact whole.accounted
        · intro o' a' owner'
          by_cases same : o' = o
          · subst same
            rw [update_self, Option.some.injEq] at owner'
            subst owner'
            refine ⟨Nat.zero_le _, ?_, ?_, framed.here r root⟩
            · intro va low valid
              refine Or.inr ?_
              by_cases frame : onPage o' TRAPFRAME o' va
              · exact pages_special (Or.inl frame.2)
              · by_cases code : onPage o' TRAMPOLINE o' va
                · exact pages_special (Or.inr code.2)
                · rw [framed.within.leaves o' r va root low frame, others va low code,
                    hasFlag_zero] at valid
                  simp at valid
            · refine Eq.trans ?_ (mapped.here r root)
              refine framed.within.leaves o' r TRAMPOLINE root (by decide) ?_
              rintro ⟨-, same⟩
              revert same
              decide
          · rw [update_of_ne same] at owner'
            refine (sane.space o' a' owner').congr fun va low => ?_
            refine whole.leaves o' a'.root va ?_ low same
            rw [update_of_ne same, rootsOf_some owner']

end Xv6.Vm
