import Xv6.Vm.Spaces

/-!
# User memory seen from the kernel

The laws of `walkaddr`, `vmfault`, `copyin` and `copyout`.
-/

namespace Xv6.Vm

open Command Bytes Ownership Xv6.Tree

variable {pf : Platform} {s after : Kernel} {spaces : Owner → Option AddressSpace}
  {roots : Owner → Option Nat} {kept : Keeper → Option Nat} {mem : ByteMap} {o : Owner}
  {a : AddressSpace} {p r q va : Nat} {stop : Panic → Prop}

/-- A user address is mapped to a page. -/
structure UserPage (s : Kernel) (r va q : Nat) : Prop where
  user : va < TRAPFRAME
  valid : hasFlag (leaf s.mem r va) PTE_V = true
  page : PTE2PA (leaf s.mem r va) = q

theorem UserPage.held (mapped : UserPage s r va q) (owner : roots o = some r) :
    held s.mem roots kept (.page o (pathOf va)) = some q := by
  rw [held_page owner (owned_user mapped.user), follow_pathOf, mapped.valid, mapped.page]
  rfl

theorem UserPage.isPage (mapped : UserPage s r va q) (accounted : Accounted pf s roots kept)
    (owner : roots o = some r) : IsPage pf q := by
  obtain ⟨pages, books⟩ := accounted
  exact (books.balanced.inside _ q (mapped.held owner)).1

theorem Accounted.scribble_user {mem' : ByteMap} (accounted : Accounted pf s roots kept)
    (owner : roots o = some r) (mapped : UserPage s r va q) (changed : ChangedIn s.mem mem' q) :
    SameMappings pf s roots kept { s with mem := mem' } := by
  have long : (Place.page o (pathOf va)).NotTable := by simp [Place.NotTable, pathOf]
  exact accounted.scribble_at long (mapped.held owner) changed

theorem Accounted.scribble_page {mem' : ByteMap} (accounted : Accounted pf s roots kept)
    (owner : roots o = some r) (mapped : UserPage s r va q) (changed : ChangedIn s.mem mem' q) :
    Within pf s roots kept o (onPage o va) { s with mem := mem' } := by
  have same := accounted.scribble_user owner mapped changed
  obtain ⟨pages, books⟩ := accounted
  refine ⟨same.accounted, fun o r va owner low _ => same.leaves o r va owner low, ?_,
    changed.sameOutside (books.balanced.inside _ q (mapped.held owner)).1, rfl, rfl, Nat.le_refl _⟩
  intro place q' spared holds
  refine books.frame_at (mapped.held owner) changed ?_ holds
  rintro rfl
  rcases spared with other | ⟨va', user, paths, outside⟩
  · exact other rfl
  · exact outside ⟨rfl, ((pathOf_eq (user_lt_vaspace mapped.user) (user_lt_vaspace user)).mp
      paths).symm⟩

theorem wp_walkaddr {post : Nat → Kernel → Prop}
    (present : va < MAXVA → hasFlag (leaf s.mem r va) PTE_V = true →
      hasFlag (leaf s.mem r va) PTE_U = true → post (PTE2PA (leaf s.mem r va)) s)
    (absent : ¬ (va < MAXVA ∧ hasFlag (leaf s.mem r va) PTE_V = true ∧
      hasFlag (leaf s.mem r va) PTE_U = true) → post 0 s) :
    wp (walkaddr pf r va) post stop s := by
  rw [walkaddr]
  split
  · rename_i high
    rw [wp_pure]
    exact absent fun inside => Nat.not_le_of_lt inside.1 high
  · rename_i notHigh
    have low : va < MAXVA := Nat.lt_of_not_le notHigh
    rw [wp_bind]
    refine wp_walk_look low ?_ ?_
    · intro unreached
      rw [wp_pure]
      refine absent fun inside => ?_
      rw [leaf_of_none unreached, hasFlag_zero] at inside
      simp at inside
    · intro t reached
      have loaded : load s.mem (t + 8 * PX 0 va) 8 = leaf s.mem r va := (leaf_of_table reached).symm
      simp only [wp_bind, wp_loadWord, loaded]
      split
      · rename_i both
        rw [Bool.and_eq_true] at both
        rw [wp_pure]
        exact present low both.1 both.2
      · rename_i notBoth
        rw [Bool.and_eq_true] at notBoth
        rw [wp_pure]
        exact absent fun inside => notBoth inside.2

theorem wp_ismapped (low : va < MAXVA) {post : Bool → Kernel → Prop}
    (done : post (hasFlag (leaf s.mem r va) PTE_V) s) : wp (ismapped pf r va) post stop s := by
  rw [ismapped, wp_bind]
  refine wp_walk_look low ?_ ?_
  · intro unreached
    rw [wp_pure]
    rwa [leaf_of_none unreached, hasFlag_zero] at done
  · intro t reached
    have loaded : load s.mem (t + 8 * PX 0 va) 8 = leaf s.mem r va := (leaf_of_table reached).symm
    simp only [wp_bind, wp_loadWord, wp_pure, loaded]
    exact done

theorem Space.user (space : Space pf mem a) (low : va < MAXVA)
    (valid : hasFlag (leaf mem a.root va) PTE_V = true)
    (user : hasFlag (leaf mem a.root va) PTE_U = true) : va < TRAPFRAME := by
  have range := lt_vaspace low
  obtain ⟨-, -, -, bound⟩ := PGROUNDUP_spec space.bounded
  rcases space.below va range valid with under | special
  · exact Nat.lt_of_lt_of_le under bound
  · exfalso
    have small : PTE_U < 2 ^ 10 := by decide
    rcases special_pages special.1 special.2 with same | same
    · rw [leaf_page range (by decide) same, space.trapframe, hasFlag_low _ _ small,
        PTE_FLAGS_or _ (by decide)] at user
      revert user
      decide
    · rw [leaf_page range (by decide) same, space.trampoline, hasFlag_low _ _ small,
        PTE_FLAGS_or _ (by decide)] at user
      revert user
      decide

theorem onPage_lt {va' : Nat} (same : va' / PGSIZE = va / PGSIZE) (user : va < TRAPFRAME) :
    va' < TRAPFRAME := by
  simp only [TRAPFRAME, TRAMPOLINE, MAXVA, PGSIZE] at *
  omega

theorem onPage_lt_PGROUNDUP {va' sz : Nat} (bounded : sz ≤ TRAPFRAME)
    (same : va' / PGSIZE = va / PGSIZE) (below : va < sz) : va' < PGROUNDUP sz := by
  obtain ⟨aligned, lower, -, -⟩ := PGROUNDUP_spec bounded
  simp only [PGSIZE] at *
  omega

theorem Sane.wp_fault (sane : Sane pf s spaces kept) (owner : spaces o = some a)
    (table : (s.proc p).pagetable = a.root) (size : (s.proc p).sz = a.sz)
    (node : kept .node = none) (hand : kept .hand = none) {post : Nat → Kernel → Prop}
    (refused : ∀ after, Quiet pf s (rootsOf spaces) kept o after →
      a.sz ≤ va ∨ hasFlag (leaf s.mem a.root (PGROUNDDOWN va)) PTE_V = true ∨
        s.denied < after.denied → post 0 after)
    (faulted : ∀ q after, va < a.sz → hasFlag (leaf s.mem a.root (PGROUNDDOWN va)) PTE_V = false →
      IsPage pf q → MappedAt pf s (rootsOf spaces) kept o (PGROUNDDOWN va)
        (PA2PTE q ||| (PTE_W ||| PTE_U ||| PTE_R ||| PTE_V)) after →
      Zeroed after.mem q → post q after) :
    wp (vmfault pf p a.root va) post stop s := by
  have space := sane.space o a owner
  have root := rootsOf_some owner
  simp only [vmfault, wp_bind, wp_get, table, size]
  split
  · rename_i beyond
    rw [wp_pure]
    exact refused s (Quiet.refl sane.accounted) (.inl beyond)
  · rename_i notBeyond
    have inside : va < a.sz := Nat.lt_of_not_le notBeyond
    have down : PGROUNDDOWN va ≤ va := Nat.div_mul_le_self va PGSIZE
    have aligned : PGROUNDDOWN va % PGSIZE = 0 := Nat.mul_mod_left (va / PGSIZE) PGSIZE
    have user : PGROUNDDOWN va < TRAPFRAME :=
      Nat.lt_of_lt_of_le (Nat.lt_of_le_of_lt down inside) space.bounded
    rw [wp_bind]
    refine wp_ismapped (Nat.lt_trans user (by decide)) ?_
    by_cases valid : hasFlag (leaf s.mem a.root (PGROUNDDOWN va)) PTE_V = true
    · rw [if_pos valid, wp_pure]
      exact refused s (Quiet.refl sane.accounted) (.inr (.inl valid))
    · rw [if_neg valid, wp_bind]
      refine sane.accounted.wp_kalloc_hand o hand (fun after quiet short => ?_) ?_
      · simp only [↓reduceIte, wp_pure]
        exact refused after quiet (.inr (.inr short))
      · intro q taken page quiet
        have inHand : Function.update kept .hand (some q) .hand = some q := by simp
        have cleared := quiet.trans
          (quiet.accounted.scribble_hand (o := o) inHand (changedIn_fill taken.mem q 0))
        rw [if_neg page.nonzero, wp_bind, wp_memset]
        refine cleared.accounted.wp_map_or_free root user aligned node hand
          (by constructor <;> decide) ?_ ?_ ?_
        · intro remapped
          rw [cleared.leaf_of_quiet root (user_lt_vaspace user)] at remapped
          exact absurd remapped valid
        · intro after failed short
          exact refused after (cleared.trans failed)
            (.inr (.inr (Nat.lt_of_le_of_lt cleared.denied short)))
        · intro after mapped same
          exact faulted q after inside (by simpa using valid) page
            ⟨(Within.of_quiet cleared).trans mapped.within, mapped.here⟩
            ((zeroed_fill taken.mem q).congr same)

theorem Sane.mapped {v : Nat} (sane : Sane pf s spaces kept) (owner : spaces o = some a)
    (below : va < a.sz)
    (mapped : MappedAt pf s (rootsOf spaces) kept o (PGROUNDDOWN va) v after) :
    Sane pf after spaces kept := by
  have space := sane.space o a owner
  have root := rootsOf_some owner
  have down : PGROUNDDOWN va ≤ va := Nat.div_mul_le_self va PGSIZE
  have user : PGROUNDDOWN va < TRAPFRAME :=
    Nat.lt_of_lt_of_le (Nat.lt_of_le_of_lt down below) space.bounded
  refine sane.touch mapped.within owner (fun _ _ on => on.1) (space.resize space.bounded ?_ ?_)
  · intro va' low special
    refine mapped.within.leaves o a.root va' root low ?_
    rintro ⟨-, same⟩
    exact absurd (onPage_lt same user) (Nat.not_lt_of_le special)
  · intro va' user' valid'
    by_cases on : onPage o (PGROUNDDOWN va) o va'
    · exact onPage_lt_PGROUNDUP space.bounded on.2 (Nat.lt_of_le_of_lt down below)
    · rw [mapped.within.leaves o a.root va' root (user_lt_vaspace user') on] at valid'
      rcases space.below va' (user_lt_vaspace user') valid' with under | special
      · exact under
      · exact absurd user' (Nat.not_lt_of_le special.1)

theorem Sane.wp_vmfault (sane : Sane pf s spaces kept) (owner : spaces o = some a)
    (table : (s.proc p).pagetable = a.root) (size : (s.proc p).sz = a.sz)
    (node : kept .node = none) (hand : kept .hand = none) {post : Nat → Kernel → Prop}
    (refused : ∀ after, Sane pf after spaces kept → after.proc = s.proc →
      after.initproc = s.initproc → post 0 after)
    (faulted : ∀ q after, q ≠ 0 → Sane pf after spaces kept → after.proc = s.proc →
      after.initproc = s.initproc → UserPage after a.root (PGROUNDDOWN va) q → post q after) :
    wp (vmfault pf p a.root va) post stop s := by
  refine sane.wp_fault owner table size node hand ?_ ?_
  · intro after quiet _
    exact refused after (sane.quiet quiet) quiet.processes quiet.first
  · intro q after below _ page mapped _
    have user : PGROUNDDOWN va < TRAPFRAME := Nat.lt_of_le_of_lt (Nat.div_mul_le_self va PGSIZE)
      (Nat.lt_of_lt_of_le below (sane.space o a owner).bounded)
    refine faulted q after page.nonzero (sane.mapped owner below mapped) mapped.within.processes
      mapped.within.first ⟨user, ?_, ?_⟩
    · rw [mapped.here a.root (rootsOf_some owner), hasFlag_pte q (by decide) (by decide)]
      decide
    · rw [mapped.here a.root (rootsOf_some owner)]
      exact PTE2PA_or page.1 page.wide (by decide)

theorem PGROUNDDOWN_aligned (aligned : va % PGSIZE = 0) : PGROUNDDOWN va = va :=
  Nat.div_mul_cancel (Nat.dvd_of_mod_eq_zero aligned)

theorem Sane.wp_userPage (sane : Sane pf s spaces kept) (owner : spaces o = some a)
    (table : (s.proc p).pagetable = a.root) (size : (s.proc p).sz = a.sz)
    (node : kept .node = none) (hand : kept .hand = none) (aligned : va % PGSIZE = 0) :
    wp (userPage pf p a.root va) (fun q after =>
      (Sane pf after spaces kept ∧ after.proc = s.proc ∧ after.initproc = s.initproc) ∧
        (q ≠ 0 → UserPage after a.root va q)) stop s := by
  rw [userPage, wp_bind]
  refine wp_walkaddr ?_ ?_
  · intro low valid user
    have mapped : UserPage s a.root va (PTE2PA (leaf s.mem a.root va)) :=
      ⟨(sane.space o a owner).user low valid user, valid, rfl⟩
    rw [if_neg (mapped.isPage sane.accounted (rootsOf_some owner)).nonzero, wp_pure]
    exact ⟨⟨sane, rfl, rfl⟩, fun _ => mapped⟩
  · intro _
    rw [if_pos rfl]
    refine sane.wp_vmfault owner table size node hand ?_ ?_
    · intro after sane' processes first
      exact ⟨⟨sane', processes, first⟩, fun nonzero => absurd rfl nonzero⟩
    · intro q after _ sane' processes first mapped
      rw [PGROUNDDOWN_aligned aligned] at mapped
      exact ⟨⟨sane', processes, first⟩, fun _ => mapped⟩

section Loops

variable {invariant : Kernel → Prop}

theorem round_range {start : Nat} (len : Nat) (low : PGROUNDDOWN start < MAXVA) :
    PGROUNDDOWN start ≤ start ∧ start < PGROUNDDOWN start + PGSIZE ∧
      add64 (PGROUNDDOWN start) PGSIZE = PGROUNDDOWN start + PGSIZE ∧
      PGROUNDDOWN (PGROUNDDOWN start + PGSIZE) = PGROUNDDOWN start + PGSIZE ∧
      (len - min (PGSIZE - (start - PGROUNDDOWN start)) len ≠ 0 →
        PGROUNDDOWN start + PGSIZE + (len - min (PGSIZE - (start - PGROUNDDOWN start)) len) =
          start + len) := by
  simp only [PGROUNDDOWN, add64, PGSIZE, MAXVA] at *
  omega

theorem wp_copyoutRounds (src : ByteMap) (rounds dstva done len : Nat)
    (page : ∀ current va, invariant current → va % PGSIZE = 0 → PGROUNDDOWN dstva ≤ va →
      va < dstva + len → va < MAXVA →
      wp (userPage pf p r va) (fun q after => invariant after ∧ (q ≠ 0 → UserPage after r va q))
        stop current)
    (write : ∀ current va q mem', invariant current → UserPage current r va q →
      ChangedIn current.mem mem' q → invariant { current with mem := mem' })
    (initially : invariant s) :
    wp (copyoutRounds pf p r src rounds dstva done len) (fun _ after => invariant after) stop s := by
  induction rounds generalizing s dstva done len with
  | zero => simpa only [copyoutRounds, wp_pure] using initially
  | succ rounds ih =>
    rw [copyoutRounds]
    split
    · rw [wp_pure]
      exact initially
    · rename_i more
      by_cases high : MAXVA ≤ PGROUNDDOWN dstva
      · rw [if_pos high, wp_pure]
        exact initially
      · have low : PGROUNDDOWN dstva < MAXVA := Nat.lt_of_not_le high
        obtain ⟨down, up, next, nextAligned, rest⟩ := round_range len low
        rw [if_neg high, wp_bind]
        refine wp_post (page s _ initially (Nat.mul_mod_left _ PGSIZE) (Nat.le_refl _)
          (by omega) low) ?_
        rintro q after ⟨holds, mapped⟩
        by_cases nothing : q = 0
        · rw [if_pos nothing, wp_pure]
          exact holds
        · have mapped := mapped nothing
          rw [if_neg nothing, wp_bind]
          refine wp_walk_look low ?_ ?_
          · intro unreached
            have valid := mapped.valid
            rw [leaf_of_none unreached, hasFlag_zero] at valid
            simp at valid
          · intro t reached
            simp only [wp_bind, wp_loadWord]
            split
            · rw [wp_pure]
              exact holds
            · rw [wp_bind, wp_setMem, next]
              refine ih _ _ _ ?_ ?_
              · intro current va holds' aligned lower upper low'
                rw [nextAligned] at lower
                have left : len - min (PGSIZE - (dstva - PGROUNDDOWN dstva)) len ≠ 0 := by omega
                rw [rest left] at upper
                exact page current va holds' aligned (by omega) upper low'
              · exact write after _ q _ holds mapped
                  (changedIn_copy after.mem src (by omega))

theorem wp_copyinRounds (rounds srcva done len : Nat) (dst : ByteMap)
    (page : ∀ current va, invariant current → va % PGSIZE = 0 →
      wp (userPage pf p r va) (fun _ after => invariant after) stop current)
    (initially : invariant s) :
    wp (copyinRounds pf p r rounds srcva done len dst) (fun _ after => invariant after) stop s := by
  induction rounds generalizing s srcva done len dst with
  | zero => simpa only [copyinRounds, wp_pure] using initially
  | succ rounds ih =>
    rw [copyinRounds]
    split
    · rw [wp_pure]
      exact initially
    · rw [wp_bind]
      refine wp_post (page s _ initially (Nat.mul_mod_left _ PGSIZE)) ?_
      intro q after holds
      by_cases nothing : q = 0
      · rw [if_pos nothing, wp_pure]
        exact holds
      · rw [if_neg nothing, wp_bind, wp_get]
        exact ih _ _ _ _ holds

end Loops

theorem Sane.wp_copyout (sane : Sane pf s spaces kept) (owner : spaces o = some a)
    (table : (s.proc p).pagetable = a.root) (size : (s.proc p).sz = a.sz)
    (node : kept .node = none) (hand : kept .hand = none) (dstva : Nat) (src : ByteMap) (len : Nat) :
    wp (copyout pf p a.root dstva src len) (fun _ after =>
      Sane pf after spaces kept ∧ after.proc = s.proc ∧ after.initproc = s.initproc) stop s := by
  refine wp_copyoutRounds src len dstva 0 len ?_ ?_ ⟨sane, rfl, rfl⟩
  · rintro current va ⟨sane', processes, first⟩ aligned - - -
    rw [← processes] at table size
    refine wp_post (sane'.wp_userPage owner table size node hand aligned) ?_
    rintro q after ⟨⟨sane'', processes', first'⟩, mapped⟩
    exact ⟨⟨sane'', processes'.trans processes, first'.trans first⟩, mapped⟩
  · rintro current va q mem' ⟨sane', processes, first⟩ mapped changed
    have quiet := sane'.accounted.scribble_user (rootsOf_some owner) mapped changed
    exact ⟨sane'.same quiet, processes, first⟩

theorem Sane.wp_copyin (sane : Sane pf s spaces kept) (owner : spaces o = some a)
    (table : (s.proc p).pagetable = a.root) (size : (s.proc p).sz = a.sz)
    (node : kept .node = none) (hand : kept .hand = none) (srcva len : Nat) :
    wp (copyin pf p a.root srcva len) (fun _ after =>
      Sane pf after spaces kept ∧ after.proc = s.proc ∧ after.initproc = s.initproc) stop s := by
  refine wp_copyinRounds len srcva 0 len _ ?_ ⟨sane, rfl, rfl⟩
  rintro current va ⟨sane', processes, first⟩ aligned
  rw [← processes] at table size
  refine wp_post (sane'.wp_userPage owner table size node hand aligned) ?_
  rintro q after ⟨⟨sane'', processes', first'⟩, -⟩
  exact ⟨sane'', processes'.trans processes, first'.trans first⟩

end Xv6.Vm
