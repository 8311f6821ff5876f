import Xv6.Vm.AddressBound
import Xv6.Vm.UserView

/-!
# Lazy allocation seen from system calls

The eager twin of an address space has every page below the size mapped, those that were not to
pages of zeros.
-/

namespace Xv6.Vm

open Command Bytes Ownership Xv6.Tree

variable {pf pf' : Platform} {s s' after : Kernel} {spaces spaces' : Owner → Option AddressSpace}
  {kept kept' : Keeper → Option Nat} {o o' : Owner} {a a' b : AddressSpace} {p p' va : Nat}
  {v : View} {sz : Nat} {stop : Panic → Prop}

def View.Touched (v : View) (sz srcva max : Nat) : Prop :=
  ∀ k, k < max →
    (∀ j, j < k → ∃ page, v.userPage (srcva + j) = some page ∧
      page.bytes ((srcva + j) % PGSIZE) ≠ 0) →
    (srcva + k) / PGSIZE * PGSIZE < sz → v ((srcva + k) / PGSIZE) ≠ none

def View.Bounded (v : View) : Prop := ∀ n page, v n = some page → n * PGSIZE < TRAPFRAME

theorem view_bounded (mem : ByteMap) (r : Nat) : (view mem r).Bounded := by
  intro n page found
  by_contra above
  simp [view, above] at found

theorem copyString_passed {src : ByteMap} {length start : Nat} (done : Nat) (dst : ByteMap)
    (passed : (copyString src length start done dst).1 = false) :
    ∀ i, i < length → src (start + i) ≠ 0 := by
  induction length generalizing start done dst with
  | zero => exact fun i inside => absurd inside (Nat.not_lt_zero i)
  | succ length ih =>
    rw [copyString] at passed
    split at passed
    · exact absurd passed (by simp)
    · rename_i first
      intro i inside
      cases i with
      | zero => exact first
      | succ i =>
        have next := ih _ _ passed i (Nat.lt_of_succ_lt_succ inside)
        rwa [Nat.add_assoc, Nat.add_comm 1 i] at next

theorem copyString_ended {src : ByteMap} {length start : Nat} (done : Nat) (dst : ByteMap)
    (ended : (copyString src length start done dst).1 = true) :
    ∃ i, i < length ∧ src (start + i) = 0 := by
  induction length generalizing start done dst with
  | zero => exact absurd ended (by simp [copyString])
  | succ length ih =>
    rw [copyString] at ended
    split at ended
    · rename_i first
      exact ⟨0, Nat.succ_pos length, first⟩
    · obtain ⟨i, inside, zero⟩ := ih _ _ ended
      refine ⟨i + 1, Nat.succ_lt_succ inside, ?_⟩
      rwa [Nat.add_assoc, Nat.add_comm 1 i] at zero

theorem page_offset {srcva j : Nat} (inside : j < PGSIZE - (srcva - PGROUNDDOWN srcva)) :
    (srcva + j) / PGSIZE = srcva / PGSIZE ∧
      (srcva + j) % PGSIZE = srcva - PGROUNDDOWN srcva + j := by
  simp only [PGROUNDDOWN, PGSIZE] at *
  omega

theorem add64_next_page {srcva : Nat} (low : srcva / PGSIZE * PGSIZE < TRAPFRAME) :
    add64 (PGROUNDDOWN srcva) PGSIZE = srcva + (PGSIZE - (srcva - PGROUNDDOWN srcva)) := by
  simp only [PGROUNDDOWN, add64, PGSIZE, TRAPFRAME, TRAMPOLINE, MAXVA] at *
  omega

theorem View.Bounded.userPage_low (bounded : v.Bounded) {srcva : Nat} {page : PageView}
    (found : v.userPage srcva = some page) :
    v (srcva / PGSIZE) = some page ∧ srcva / PGSIZE * PGSIZE < TRAPFRAME := by
  rw [View.userPage, Option.filter_eq_some_iff] at found
  exact ⟨found.1, bounded _ _ found.1⟩

variable {srcva max : Nat}

theorem View.Touched.next {page : PageView} (touched : v.Touched sz srcva max)
    (bounded : v.Bounded) (found : v.userPage srcva = some page)
    (passed : ∀ i, i < min (PGSIZE - (srcva - PGROUNDDOWN srcva)) max →
      page.bytes (srcva - PGROUNDDOWN srcva + i) ≠ 0) :
    v.Touched sz (add64 (PGROUNDDOWN srcva) PGSIZE)
      (max - min (PGSIZE - (srcva - PGROUNDDOWN srcva)) max) := by
  intro k inside before below
  have next := add64_next_page (bounded.userPage_low found).2
  -- More is left, so the string goes on at the next page.
  have whole : min (PGSIZE - (srcva - PGROUNDDOWN srcva)) max =
      PGSIZE - (srcva - PGROUNDDOWN srcva) := by omega
  rw [whole] at inside passed
  rw [next] at below before ⊢
  rw [Nat.add_assoc] at below ⊢
  refine touched _ (by omega) ?_ below
  intro j earlier
  by_cases onPage : j < PGSIZE - (srcva - PGROUNDDOWN srcva)
  · obtain ⟨same, place⟩ := page_offset onPage
    refine ⟨page, ?_, ?_⟩
    · rw [View.userPage, same, ← found, View.userPage]
    · rw [place]
      exact passed j onPage
  · have later := before (j - (PGSIZE - (srcva - PGROUNDDOWN srcva))) (by omega)
    have position : srcva + (PGSIZE - (srcva - PGROUNDDOWN srcva)) +
        (j - (PGSIZE - (srcva - PGROUNDDOWN srcva))) = srcva + j := by omega
    rwa [position] at later

theorem View.Touched.of_next {page : PageView} (bounded : v.Bounded)
    (found : v.userPage srcva = some page)
    (rest : v.Touched sz (add64 (PGROUNDDOWN srcva) PGSIZE)
      (max - min (PGSIZE - (srcva - PGROUNDDOWN srcva)) max)) : v.Touched sz srcva max := by
  intro k inside before below
  obtain ⟨mapped, low⟩ := bounded.userPage_low found
  by_cases onPage : k < PGSIZE - (srcva - PGROUNDDOWN srcva)
  · rw [(page_offset onPage).1, mapped]
    exact Option.some_ne_none page
  · rw [add64_next_page low] at rest
    have position (i : Nat) (later : PGSIZE - (srcva - PGROUNDDOWN srcva) ≤ i) :
        srcva + (PGSIZE - (srcva - PGROUNDDOWN srcva)) +
          (i - (PGSIZE - (srcva - PGROUNDDOWN srcva))) = srcva + i := by omega
    have there := rest (k - (PGSIZE - (srcva - PGROUNDDOWN srcva))) (by omega) ?_ ?_
    · rwa [position k (by omega)] at there
    · intro j earlier
      have reached := before ((PGSIZE - (srcva - PGROUNDDOWN srcva)) + j) (by omega)
      rwa [← Nat.add_assoc] at reached
    · simpa only [position k (by omega)] using below

theorem View.Touched.string_eager (touched : v.Touched sz srcva max) (bounded : v.Bounded)
    (rounds done : Nat) (dst : ByteMap) :
    (v.eager sz).string rounds srcva done max dst = v.string rounds srcva done max dst := by
  induction rounds generalizing srcva done max dst with
  | zero => rfl
  | succ rounds ih =>
    rw [View.string, View.string]
    split
    · rfl
    · rename_i more
      have shown : sz ≤ srcva / PGSIZE * PGSIZE ∨ v (srcva / PGSIZE) ≠ none := by
        by_cases below : srcva / PGSIZE * PGSIZE < sz
        · exact .inr (touched 0 (Nat.pos_of_ne_zero more)
            (fun j none => absurd none (Nat.not_lt_zero j)) below)
        · exact .inl (Nat.le_of_not_lt below)
      simp only [View.userPage_down, View.userPage_eager shown]
      cases found : v.userPage srcva with
      | none => rfl
      | some page =>
        simp only
        split
        · rfl
        · rename_i notNull
          have passed := copyString_passed done dst (by simpa using notNull)
          exact ih (touched.next bounded found passed) _ _

theorem View.string_unmapped (unmapped : v (srcva / PGSIZE) = none) (rounds done : Nat)
    (dst : ByteMap) : (v.string rounds srcva done max dst).1 = -1 := by
  cases rounds with
  | zero => rfl
  | succ rounds =>
    have nothing : v.userPage srcva = none := by rw [View.userPage, unmapped, Option.filter_none]
    simp only [View.string, View.userPage_down, nothing]
    split <;> rfl

theorem View.string_zero (zero : v (srcva / PGSIZE) = some zeroPage) (positive : 0 < max)
    (rounds done : Nat) (dst : ByteMap) :
    (v.string (rounds + 1) srcva done max dst).1 = 0 := by
  have found : v.userPage srcva = some zeroPage := by
    rw [View.userPage, zero]
    rfl
  have offset := offset_lt srcva
  obtain ⟨n, count⟩ : ∃ n, min (PGSIZE - (srcva - PGROUNDDOWN srcva)) max = n + 1 :=
    ⟨min (PGSIZE - (srcva - PGROUNDDOWN srcva)) max - 1, by omega⟩
  simp only [View.string, View.userPage_down, found, count, copyString, zeroPage, ↓reduceIte,
    Nat.ne_of_gt positive]

theorem View.touched_of_string (bounded : v.Bounded) {rounds : Nat}
    (enough : max ≤ rounds) (done : Nat) (dst : ByteMap)
    (same : ((v.eager sz).string rounds srcva done max dst).1 =
      (v.string rounds srcva done max dst).1) : v.Touched sz srcva max := by
  induction rounds generalizing srcva done max dst with
  | zero => exact fun k inside => absurd inside (by omega)
  | succ rounds ih =>
    rcases Nat.eq_zero_or_pos max with nothing | more
    · exact fun k inside => absurd inside (by omega)
    · have shown : sz ≤ srcva / PGSIZE * PGSIZE ∨ v (srcva / PGSIZE) ≠ none := by
        by_contra hidden
        rw [not_or, Nat.not_le, not_not] at hidden
        rw [View.string_zero (View.eager_of_none hidden.1 hidden.2) more,
          View.string_unmapped hidden.2] at same
        exact absurd same (by decide)
      cases found : v.userPage srcva with
      | none =>
        -- Neither goes beyond this page, which is mapped if it is below the size.
        intro k _ before below
        cases k with
        | zero => exact shown.resolve_left (Nat.not_le_of_lt below)
        | succ k =>
          obtain ⟨page, there, -⟩ := before 0 (Nat.succ_pos k)
          rw [Nat.add_zero, found] at there
          exact absurd there (by simp)
      | some page =>
        have offset := offset_lt srcva
        cases ended : (copyString page.bytes (min (PGSIZE - (srcva - PGROUNDDOWN srcva)) max)
            (srcva - PGROUNDDOWN srcva) done dst).1 with
        | true =>
          obtain ⟨i, inside, zero⟩ := copyString_ended done dst ended
          have onPage : i < PGSIZE - (srcva - PGROUNDDOWN srcva) := by omega
          obtain ⟨page_i, place⟩ := page_offset onPage
          intro k _ before below
          by_cases earlier : i < k
          · obtain ⟨page', there, byte⟩ := before i earlier
            rw [View.userPage, page_i, ← View.userPage, found, Option.some.injEq] at there
            rw [← there, place, zero] at byte
            exact absurd rfl byte
          · have on_k : k < PGSIZE - (srcva - PGROUNDDOWN srcva) := by omega
            rw [(page_offset on_k).1, (bounded.userPage_low found).1]
            exact Option.some_ne_none page
        | false =>
          simp only [View.string, Nat.ne_of_gt more, View.userPage_down,
            View.userPage_eager shown, found, ended, Bool.false_eq_true, ↓reduceIte] at same
          exact View.Touched.of_next bounded found (ih (by omega) _ _ same)

theorem page_lt_PGROUNDUP {n : Nat} (bounded : sz ≤ TRAPFRAME) :
    n * PGSIZE < PGROUNDUP sz ↔ n * PGSIZE < sz := by
  obtain ⟨aligned, lower, upper, -⟩ := PGROUNDUP_spec bounded
  simp only [PGSIZE] at *
  omega

theorem Copied.view_eq {roots : Owner → Option Nat} {r r' n high : Nat}
    (copied : Copied pf s roots kept o o' high after) (source : roots o = some r)
    (target : roots o' = some r') (below : n * PGSIZE < high) :
    view after.mem r' n = view s.mem r n := by
  by_cases user : n * PGSIZE < TRAPFRAME
  · have range := user_lt_vaspace user
    rw [view_user user, view_user user]
    cases valid : hasFlag (leaf s.mem r (n * PGSIZE)) PTE_V with
    | false =>
      rw [pageView_invalid valid,
        pageView_invalid (copied.absent r r' _ source target below range valid)]
    | true =>
      obtain ⟨q, page, stored, bytes⟩ := copied.present r r' _ source target below range valid
      have small : PTE_FLAGS (leaf s.mem r (n * PGSIZE)) < 2 ^ 10 := Nat.mod_lt _ (by decide)
      have valid' : hasFlag (leaf after.mem r' (n * PGSIZE)) PTE_V = true := by
        rwa [stored, hasFlag_pte q small (by decide), ← hasFlag_low _ _ (by decide)]
      have same : window after.mem q = window s.mem (PTE2PA (leaf s.mem r (n * PGSIZE))) := by
        funext i
        by_cases inside : i < PGSIZE
        · rw [window_inside inside, window_inside inside, bytes i inside]
        · simp only [window, inside, ↓reduceIte]
      rw [pageView_valid valid, pageView_valid valid', stored, PTE_FLAGS_or q small,
        PTE2PA_or page.1 page.wide small, same]
  · simp only [view, user, ↓reduceIte]

theorem Space.view_beyond {mem : ByteMap} {n : Nat} (space : Space pf mem a)
    (beyond : ¬ n * PGSIZE < a.sz) : view mem a.root n = none := by
  by_cases user : n * PGSIZE < TRAPFRAME
  · rw [← page_lt_PGROUNDUP space.bounded] at beyond
    rw [view_user user, pageView_invalid (space.fresh (Nat.le_of_not_lt beyond) user)]
  · simp only [view, user, ↓reduceIte]

theorem Copied.seen_eq (copied : Copied pf s (rootsOf spaces) kept o o' (PGROUNDUP a.sz) after)
    (sane : Sane pf s spaces kept) (source : spaces o = some a) (target : spaces o' = some b)
    (empty : b.sz = 0) : view after.mem b.root = view s.mem a.root := by
  have parent := sane.space o a source
  have child := sane.space o' b target
  funext n
  by_cases below : n * PGSIZE < a.sz
  · exact copied.view_eq (rootsOf_some source) (rootsOf_some target)
      ((page_lt_PGROUNDUP parent.bounded).mpr below)
  · have outside : ¬ inRange o' 0 (PGROUNDUP a.sz) o' (n * PGSIZE) :=
      fun inside => below ((page_lt_PGROUNDUP parent.bounded).mp inside.2.2)
    rw [copied.within.view_eq (rootsOf_some target) outside, parent.view_beyond below,
      child.view_beyond (by omega)]

/-- As long as the allocator turns nothing down, `copyin` and `copyout` return the
same and move the same bytes in an address space and in its eager twin, and
`uvmcopy` returns zero with a child whose twin is the parent's. `copyinstr`
returns the same exactly if each page below the size that it comes to is mapped,
and then with the same bytes. -/
theorem lazy_allocation_transparent (running : Running pf spaces kept o a p s)
    (running' : Running pf' spaces' kept' o' a' p' s') (sameSize : a'.sz = a.sz)
    (twin : view s'.mem a'.root = (view s.mem a.root).eager a.sz) :
    (∀ srcva len, ∃ result after result' after',
      (copyin pf p a.root srcva len).run s = .ok (result, after) ∧
      (copyin pf' p' a'.root srcva len).run s' = .ok (result', after') ∧
      (after.denied = s.denied → after'.denied = s'.denied → result' = result)) ∧
    (∀ dstva src len, ∃ result after result' after',
      (copyout pf p a.root dstva src len).run s = .ok (result, after) ∧
      (copyout pf' p' a'.root dstva src len).run s' = .ok (result', after') ∧
      (after.denied = s.denied → after'.denied = s'.denied →
        result' = result ∧ a'.seen after' = a.seen after)) ∧
    (∀ srcva max, ∃ result result',
      (copyinstr pf a.root srcva max).run s = .ok (result, s) ∧
      (copyinstr pf' a'.root srcva max).run s' = .ok (result', s') ∧
      (result'.1 = result.1 ↔ (view s.mem a.root).Touched a.sz srcva max) ∧
      (result' = result ↔ (view s.mem a.root).Touched a.sz srcva max)) ∧
    (∀ o₁ b, o₁ ≠ o → spaces o₁ = some b → b.sz = 0 → ∃ result after,
      (uvmcopy pf a.root b.root a.sz).run s = .ok (result, after) ∧
      (after.denied = s.denied → result = 0 ∧ a.seen after = a.seen s ∧
        (view after.mem b.root).eager a.sz = a.seen s)) := by
  have same : a'.seen s' = a.seen s := by
    rw [AddressSpace.seen, twin, sameSize, View.eager_eager, AddressSpace.seen]
  refine ⟨?_, ?_, ?_, ?_⟩
  · intro srcva len
    obtain ⟨result, after, ran, -, moved⟩ :=
      wp_total (running.shows.wp_copyinRounds len srcva 0 len fun _ => 0)
    obtain ⟨result', after', ran', -, moved'⟩ :=
      wp_total (running'.shows.wp_copyinRounds len srcva 0 len fun _ => 0)
    refine ⟨result, after, result', after', ran, ran', fun enough enough' => ?_⟩
    rw [moved enough, moved' enough', same]
  · intro dstva src len
    obtain ⟨result, after, ran, -, -, moved⟩ :=
      wp_total (running.shows.wp_copyoutRounds src len dstva 0 len)
    obtain ⟨result', after', ran', -, -, moved'⟩ :=
      wp_total (running'.shows.wp_copyoutRounds src len dstva 0 len)
    refine ⟨result, after, result', after', ran, ran', fun enough enough' => ?_⟩
    have outcomes : (result', a'.seen after') = (result, a.seen after) := by
      rw [moved' enough', moved enough, same]
    exact Prod.mk.inj outcomes
  · intro srcva max
    obtain ⟨result, after, ran, rfl, read⟩ :=
      wp_total (running.wp_copyinstrRounds max srcva 0 max fun _ => 0)
    obtain ⟨result', after', ran', rfl, read'⟩ :=
      wp_total (running'.wp_copyinstrRounds max srcva 0 max fun _ => 0)
    rw [twin] at read'
    have agree (touched : (view after.mem a.root).Touched a.sz srcva max) : result' = result := by
      rw [read', read, touched.string_eager (view_bounded _ _)]
    have exact' (same : result'.1 = result.1) : (view after.mem a.root).Touched a.sz srcva max := by
      rw [read', read] at same
      exact View.touched_of_string (view_bounded _ _) le_rfl 0 _ same
    exact ⟨result, result', ran, ran', ⟨exact', fun touched => congrArg Prod.fst (agree touched)⟩,
      fun same => exact' (congrArg Prod.fst same), agree⟩
  · intro o₁ b different target empty
    have source := running.owner
    have parent := running.sane.space o a source
    refine wp_total (running.sane.accounted.wp_uvmcopy (rootsOf_some source) (rootsOf_some target)
      parent.bounded running.node running.hand ?_ ?_ ?_)
    · intro va below
      have user := Nat.lt_of_lt_of_le below (PGROUNDUP_spec parent.bounded).2.2.2
      refine (running.sane.space o₁ b target).fresh ?_ user
      rw [empty]
      exact Nat.zero_le va
    · intro after _ short enough
      omega
    · intro after copied _
      have others := copied.within.view_other (fun _ _ inside => inside.1) (rootsOf_some source)
        different.symm
      refine ⟨rfl, ?_, ?_⟩
      · rw [AddressSpace.seen, others, AddressSpace.seen]
      · rw [copied.seen_eq running.sane source target empty, AddressSpace.seen]

section Untouched

theorem Sound.running {h : Holdings} (sound : Sound pf h s) (live : (s.proc p).pagetable ≠ 0) :
    Running pf (spacesOf s.proc h) (keptOf s.proc h) (.proc p)
      ⟨(s.proc p).pagetable, (s.proc p).sz, (s.proc p).trapframe⟩ p s :=
  ⟨sound.sane, spacesOf_proc live, rfl, rfl, rfl, rfl⟩

def lazyPage (pf : Platform) : VmM Int := do
  let _ ← oneProcess pf
  sysSbrk pf 0 PGSIZE 2

def touchPage (pf : Platform) : VmM Nat := do
  let _ ← lazyPage pf
  vmfault pf 0 ((← get).proc 0).pagetable 0

theorem sound_lazyPage {mem : ByteMap} {n : Int} {v : Option Nat}
    (made : (oneProcess pf).run (beforeBoot mem) = .ok (v, s))
    (live : (s.proc 0).pagetable ≠ 0) (empty : (s.proc 0).sz = 0)
    (ran : (lazyPage pf).run (beforeBoot mem) = .ok (n, after)) : Sound pf noHoldings after := by
  have sound := sound_oneProcess made
  have ran' : (sysSbrk pf 0 PGSIZE 2).run s = .ok (n, after) := by
    rw [lazyPage, StateT.run_bind, made] at ran
    exact ran
  have fits : 0 ≤ (PGSIZE : Int) → ((s.proc 0).sz : Int) + PGSIZE ≤ TRAPFRAME := by
    intro _
    rw [empty]
    decide
  have law' : wp (sysSbrk pf 0 PGSIZE 2) (fun _ after => Sound pf noHoldings after)
      (fun _ => False) s := sound.wp_sysSbrk live fits
  have final := wp_returned law' ran'
  exact final

structure LazyPage (pf : Platform) (s after : Kernel) (q : Nat) : Prop where
  sound : Sound pf noHoldings s
  live : (s.proc 0).pagetable ≠ 0
  size : (s.proc 0).sz = PGSIZE
  unmapped : hasFlag (leaf s.mem (s.proc 0).pagetable 0) PTE_V = false
  touched : (vmfault pf 0 (s.proc 0).pagetable 0).run s = .ok (q, after)
  mapped : hasFlag (leaf after.mem (after.proc 0).pagetable 0) PTE_V = true

theorem exists_lazyPage (mem : ByteMap)
    (made : returns (fun k => (k.proc 0).pagetable ≠ 0 ∧ (k.proc 0).sz = 0)
      ((oneProcess pf).run (beforeBoot mem)) = true)
    (grown : returns (fun k => (k.proc 0).pagetable ≠ 0 ∧ (k.proc 0).sz = PGSIZE ∧
      hasFlag (leaf k.mem (k.proc 0).pagetable 0) PTE_V = false)
      ((lazyPage pf).run (beforeBoot mem)) = true)
    (touched : returns (fun k => hasFlag (leaf k.mem (k.proc 0).pagetable 0) PTE_V)
      ((touchPage pf).run (beforeBoot mem)) = true) : ∃ s after q, LazyPage pf s after q := by
  obtain ⟨_, s₁, ran₁, live₁⟩ := returns_elim made
  obtain ⟨n, s₂, ran₂, live₂⟩ := returns_elim grown
  rw [decide_eq_true_eq] at live₁ live₂
  rw [touchPage, StateT.run_bind, ran₂] at touched
  obtain ⟨q, after, ran₃, valid⟩ := returns_elim touched
  exact ⟨s₂, after, q, sound_lazyPage ran₁ live₁.1 live₁.2 ran₂, live₂.1, live₂.2.1, live₂.2.2,
    ran₃, valid⟩

theorem LazyPage.twin {q : Nat} (page : LazyPage pf s after q) :
    Running pf (spacesOf s.proc noHoldings) (keptOf s.proc noHoldings) (.proc 0)
        ⟨(s.proc 0).pagetable, (s.proc 0).sz, (s.proc 0).trapframe⟩ 0 after ∧
      view s.mem (s.proc 0).pagetable 0 = none ∧
      view after.mem (s.proc 0).pagetable 0 = some zeroPage ∧
      view after.mem (s.proc 0).pagetable =
        (view s.mem (s.proc 0).pagetable).eager (s.proc 0).sz := by
  have running := page.sound.running page.live
  have unmapped : view s.mem (s.proc 0).pagetable 0 = none :=
    (view_user (by decide)).trans (pageView_invalid page.unmapped)
  have law : wp (vmfault pf 0 (s.proc 0).pagetable 0) (fun _ after =>
      hasFlag (leaf after.mem (after.proc 0).pagetable 0) PTE_V = true →
      Running pf (spacesOf s.proc noHoldings) (keptOf s.proc noHoldings) (.proc 0)
        ⟨(s.proc 0).pagetable, (s.proc 0).sz, (s.proc 0).trapframe⟩ 0 after ∧
      view after.mem (s.proc 0).pagetable =
        Function.update (view s.mem (s.proc 0).pagetable) 0 (some zeroPage)) (fun _ => False) s := by
    refine running.sane.wp_fault running.owner rfl rfl rfl rfl ?_ ?_
    · intro after quiet _ valid
      have entry := quiet.leaf_of_quiet (rootsOf_some running.owner) (show 0 < VASPACE by decide)
      rw [quiet.processes, entry, page.unmapped] at valid
      exact absurd valid (by simp)
    · intro q after below invalid isPage mapped zeroed _
      exact ⟨running.move (running.sane.mapped running.owner below mapped) mapped.within.processes,
        (mapped.view_zero running rfl below invalid isPage zeroed).1⟩
  obtain ⟨running', changed⟩ := wp_returned law page.touched page.mapped
  refine ⟨running', unmapped, by rw [changed, Function.update_self], ?_⟩
  rw [changed, page.size]
  funext n
  cases n with
  | zero => exact (View.eager_of_none (by decide) unmapped).symm
  | succ n => exact (View.eager_of_le (by simp only [PGSIZE]; omega)).symm

/-- On the machine with eight pages a process has asked for a page and not touched it: `copyinstr`
fails there, and succeeds in the eager twin. -/
theorem copyinstr_tells_twins_apart : ∃ s s' spaces kept a result result',
    Running eightPages spaces kept (.proc 0) a 0 s ∧
    Running eightPages spaces kept (.proc 0) a 0 s' ∧
    view s'.mem a.root = (view s.mem a.root).eager a.sz ∧
    (copyinstr eightPages a.root 0 128).run s = .ok (result, s) ∧ result.1 = -1 ∧
    (copyinstr eightPages a.root 0 128).run s' = .ok (result', s') ∧ result'.1 = 0 := by
  obtain ⟨s, s', q, page⟩ : ∃ s after q, LazyPage eightPages s after q :=
    exists_lazyPage (fun _ => 0) (by decide +kernel) (by decide +kernel) (by decide +kernel)
  have running := page.sound.running page.live
  obtain ⟨running', unmapped, zero, twin⟩ := page.twin
  obtain ⟨result, after, ran, rfl, read⟩ :=
    wp_total (running.wp_copyinstrRounds 128 0 0 128 fun _ => 0)
  obtain ⟨result', after', ran', rfl, read'⟩ :=
    wp_total (running'.wp_copyinstrRounds 128 0 0 128 fun _ => 0)
  refine ⟨after, after', _, _, _, result, result', running, running', twin, ran, ?_, ran', ?_⟩
  · rw [read]
    exact View.string_unmapped unmapped ..
  · rw [read']
    exact View.string_zero zero (by decide) ..

/-- There the other system calls do not tell the two apart. -/
theorem lazy_page_transparent : ∃ s s' spaces kept a,
    Running eightPages spaces kept (.proc 0) a 0 s ∧
    Running eightPages spaces kept (.proc 0) a 0 s' ∧
    view s'.mem a.root = (view s.mem a.root).eager a.sz ∧
    ∃ result after result' after',
      (copyin eightPages 0 a.root 0 PGSIZE).run s = .ok (result, after) ∧
      (copyin eightPages 0 a.root 0 PGSIZE).run s' = .ok (result', after') ∧
      (after.denied = s.denied → after'.denied = s'.denied → result' = result) := by
  obtain ⟨s, s', q, page⟩ : ∃ s after q, LazyPage eightPages s after q :=
    exists_lazyPage (fun _ => 0) (by decide +kernel) (by decide +kernel) (by decide +kernel)
  have running := page.sound.running page.live
  obtain ⟨running', -, -, twin⟩ := page.twin
  exact ⟨s, s', _, _, _, running, running', twin,
    (lazy_allocation_transparent running running' rfl twin).1 0 PGSIZE⟩

end Untouched

end Xv6.Vm
