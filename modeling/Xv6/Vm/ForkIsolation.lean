import Xv6.Vm.AddressBound

/-!
# Fork gives the child memory of its own

`uvmcopy` copies the user memory of one page table into a new one.
-/

namespace Xv6.Vm

open Command Bytes Ownership Xv6.Tree Function

variable {pf : Platform} {s after : Kernel} {roots : Owner → Option Nat}
  {kept : Keeper → Option Nat} {o o' : Owner} {r r' q va sz : Nat}
  {region : Owner → Nat → Prop} {stop : Panic → Prop}

structure Untouched (s : Kernel) (r : Nat) (after : Kernel) : Prop where
  leaves : ∀ va, va < VASPACE → leaf after.mem r va = leaf s.mem r va
  bytes : ∀ va, va < TRAPFRAME → hasFlag (leaf s.mem r va) PTE_V = true →
    SamePage s.mem after.mem (PTE2PA (leaf s.mem r va))

theorem Within.untouched (within : Within pf s roots kept o region after)
    (only : ∀ o' va, region o' va → o' = o) (owner : roots o' = some r) (other : o' ≠ o) :
    Untouched s r after := by
  refine ⟨fun va low => within.leaves o' r va owner low fun inside => other (only o' va inside), ?_⟩
  intro va user valid
  exact within.frame (.page o' (pathOf va)) _ (.inl other) (held_user owner user valid)

def SpecialKept (pf : Platform) (mem : ByteMap) (roots : Owner → Option Nat)
    (kept : Keeper → Option Nat) : Prop :=
  ∀ o r va, roots o = some r → va = TRAMPOLINE ∨ va = TRAPFRAME →
    hasFlag (leaf mem r va) PTE_V = true →
    ¬ IsPage pf (PTE2PA (leaf mem r va)) ∨ ∃ k, kept k = some (PTE2PA (leaf mem r va))

theorem Accounted.mapped_once (accounted : Accounted pf s roots kept)
    (special : SpecialKept pf s.mem roots kept) (owner : roots o = some r) (user : va < TRAPFRAME)
    (valid : hasFlag (leaf s.mem r va) PTE_V = true) {va' : Nat} (owner' : roots o' = some r')
    (low : va' < VASPACE) (valid' : hasFlag (leaf s.mem r' va') PTE_V = true)
    (same : PTE2PA (leaf s.mem r' va') = PTE2PA (leaf s.mem r va)) :
    o' = o ∧ va' / PGSIZE = va / PGSIZE := by
  obtain ⟨pages, books⟩ := accounted
  have here : held s.mem roots kept (.page o (pathOf va)) = some (PTE2PA (leaf s.mem r va)) :=
    held_user owner user valid
  by_cases owned : Owned (pathOf va')
  · have there : held s.mem roots kept (.page o' (pathOf va')) =
        some (PTE2PA (leaf s.mem r va)) := by
      rw [held_page owner' owned, follow_pathOf, if_pos valid', same]
    have places := books.balanced.single _ _ _ there here
    injection places with owners paths
    exact ⟨owners, (pathOf_eq low (user_lt_vaspace user)).mp paths⟩
  · -- The trampoline or the trapframe, which lead elsewhere.
    exfalso
    have page : ∃ va₀, (va₀ = TRAMPOLINE ∨ va₀ = TRAPFRAME) ∧ va₀ < VASPACE ∧
        pathOf va' = pathOf va₀ := by
      by_contra none
      refine owned (Or.inr ⟨rfl, fun same => none ⟨_, Or.inl rfl, by decide, same⟩,
        fun same => none ⟨_, Or.inr rfl, by decide, same⟩⟩)
    obtain ⟨va₀, which, low₀, samePath⟩ := page
    have entry : leaf s.mem r' va' = leaf s.mem r' va₀ :=
      leaf_page low low₀ ((pathOf_eq low low₀).mp samePath)
    rw [entry] at valid' same
    rcases special o' r' va₀ owner' which valid' with outside | ⟨k, keeps⟩
    · rw [same] at outside
      exact outside (books.balanced.inside _ _ here).1
    · rw [same] at keeps
      have there : held s.mem roots kept (.kept k) = some (PTE2PA (leaf s.mem r va)) := keeps
      exact nomatch books.balanced.single _ _ _ there here

/-- What `uvmcopy` has made of the child. -/
structure Isolated (s : Kernel) (roots : Owner → Option Nat) (o' : Owner) (r r' sz : Nat)
    (after : Kernel) : Prop where
  mapped : ∀ va, va < PGROUNDUP sz →
    hasFlag (leaf after.mem r' va) PTE_V = hasFlag (leaf s.mem r va) PTE_V
  flags : ∀ va, va < PGROUNDUP sz → hasFlag (leaf s.mem r va) PTE_V = true →
    PTE_FLAGS (leaf after.mem r' va) = PTE_FLAGS (leaf s.mem r va)
  bytes : ∀ va, va < PGROUNDUP sz → hasFlag (leaf s.mem r va) PTE_V = true →
    SameBytes s.mem (PTE2PA (leaf s.mem r va)) after.mem (PTE2PA (leaf after.mem r' va))
  alone : ∀ va, va < PGROUNDUP sz → hasFlag (leaf s.mem r va) PTE_V = true →
    ∀ o₁ r₁ va₁, roots o₁ = some r₁ → va₁ < VASPACE → hasFlag (leaf after.mem r₁ va₁) PTE_V = true →
      PTE2PA (leaf after.mem r₁ va₁) = PTE2PA (leaf after.mem r' va) →
      o₁ = o' ∧ va₁ / PGSIZE = va / PGSIZE

structure Undone (s : Kernel) (r' : Nat) (after : Kernel) : Prop where
  unmapped : ∀ va, va < TRAPFRAME → hasFlag (leaf after.mem r' va) PTE_V = false
  returned : ∀ q, OnFreeList s q → OnFreeList after q ∨
    ∃ path, path.length ≤ 2 ∧ follow (child after.mem) r' path = some q

theorem SpecialKept.within (special : SpecialKept pf s.mem roots kept)
    (within : Within pf s roots kept o' region after)
    (user : ∀ o va, region o va → va < TRAPFRAME) : SpecialKept pf after.mem roots kept := by
  intro o r va owner which
  have outside : ¬ va < TRAPFRAME ∧ va < VASPACE := by
    rcases which with rfl | rfl <;> decide
  rw [within.leaves o r va owner outside.2 fun inside => outside.1 (user o va inside)]
  exact special o r va owner which

/-- A copy whose pages are accounted for is isolated. -/
theorem Copied.isolated (copied : Copied pf s roots kept o o' (PGROUNDUP sz) after)
    (source : roots o = some r) (target : roots o' = some r')
    (special : SpecialKept pf s.mem roots kept) (bounded : sz ≤ TRAPFRAME) :
    Isolated s roots o' r r' sz after := by
  have bound := (PGROUNDUP_spec bounded).2.2.2
  have range : ∀ va, va < PGROUNDUP sz → va < VASPACE :=
    fun va below => user_lt_vaspace (Nat.lt_of_lt_of_le below bound)
  have small : ∀ va, PTE_FLAGS (leaf s.mem r va) < 2 ^ 10 := fun va => Nat.mod_lt _ (by decide)
  have valid : ∀ va, va < PGROUNDUP sz → hasFlag (leaf s.mem r va) PTE_V = true →
      hasFlag (leaf after.mem r' va) PTE_V = true := by
    intro va below present
    obtain ⟨q, -, stored, -⟩ := copied.present r r' va source target below (range va below) present
    rwa [stored, hasFlag_pte q (small va) (by decide), ← hasFlag_low _ _ (by decide)]
  refine ⟨?_, ?_, ?_, ?_⟩
  · intro va below
    cases present : hasFlag (leaf s.mem r va) PTE_V with
    | true => exact valid va below present
    | false => exact copied.absent r r' va source target below (range va below) present
  · intro va below present
    obtain ⟨q, -, stored, -⟩ := copied.present r r' va source target below (range va below) present
    rw [stored, PTE_FLAGS_or q (small va)]
  · intro va below present
    obtain ⟨q, page, stored, bytes⟩ :=
      copied.present r r' va source target below (range va below) present
    rwa [stored, PTE2PA_or page.1 page.wide (small va)]
  · intro va below present o₁ r₁ va₁ owner₁ low₁ valid₁ same
    exact copied.within.accounted.mapped_once
      (special.within copied.within fun _ _ inside => Nat.lt_of_lt_of_le inside.2.2 bound) target
      (Nat.lt_of_lt_of_le below bound) (valid va below present) owner₁ low₁ valid₁ same

theorem Cleared.undone (cleared : Cleared pf s roots kept o' 0 (PGROUNDUP sz) after)
    (accounted : Accounted pf s roots kept) (target : roots o' = some r') (bounded : sz ≤ TRAPFRAME)
    (fresh : ∀ va, va < TRAPFRAME → hasFlag (leaf s.mem r' va) PTE_V = false) :
    Undone s r' after := by
  have bound := (PGROUNDUP_spec bounded).2.2.2
  have unmapped : ∀ va, va < TRAPFRAME → hasFlag (leaf after.mem r' va) PTE_V = false := by
    intro va user
    have range := user_lt_vaspace user
    by_cases below : va < PGROUNDUP sz
    · exact cleared.gone r' va target (Nat.zero_le va) below range
    · rw [cleared.within.leaves o' r' va target range fun inside => below inside.2.2]
      exact fresh va user
  refine ⟨unmapped, fun q free => cleared.within.returned accounted target ?_ free⟩
  rintro va range ⟨-, -, below⟩
  exact cleared.gone r' va target (Nat.zero_le va) below range

/-- For every parent and every size up to the trapframe, whichever allocations
are turned down, `uvmcopy` into a new page table returns: with zero and an
isolated copy, or with -1 and nothing left in the child. No other address space,
the parent's among them, has changed. -/
theorem fork_isolates_memory (accounted : Accounted pf s roots kept)
    (special : SpecialKept pf s.mem roots kept) (noNode : kept .node = none)
    (noHand : kept .hand = none) (parent : roots o = some r) (new : roots o' = some r')
    (empty : ∀ va, va < TRAPFRAME → hasFlag (leaf s.mem r' va) PTE_V = false)
    (bounded : sz ≤ TRAPFRAME) :
    ∃ result after, (uvmcopy pf r r' sz).run s = .ok (result, after) ∧
      (result = 0 ∧ Isolated s roots o' r r' sz after ∨ result = -1 ∧ Undone s r' after) ∧
      ∀ o₁ r₁, roots o₁ = some r₁ → o₁ ≠ o' → Untouched s r₁ after := by
  have bound := (PGROUNDUP_spec bounded).2.2.2
  refine wp_total (accounted.wp_uvmcopy parent new bounded noNode noHand ?_ ?_ ?_)
  · intro va below
    exact empty va (Nat.lt_of_lt_of_le below bound)
  · intro after cleared _
    refine ⟨Or.inr ⟨rfl, cleared.undone accounted new bounded empty⟩, ?_⟩
    intro o₁ r₁ owner₁ other
    exact cleared.within.untouched (fun _ _ inside => inside.1) owner₁ other
  · intro after copied
    refine ⟨Or.inl ⟨rfl, copied.isolated parent new special bounded⟩, ?_⟩
    intro o₁ r₁ owner₁ other
    exact copied.within.untouched (fun _ _ inside => inside.1) owner₁ other

section Witness

theorem Sound.specialKept {h : Holdings} (sound : Sound pf h s)
    (frames : ∀ l a, h.loose l = some a → ∃ p, a.trapframe = (s.proc p).trapframe) :
    SpecialKept pf s.mem (rootsOf (spacesOf s.proc h)) (keptOf s.proc h) := by
  intro o r va owner which _
  obtain ⟨a, space, rfl⟩ := Option.map_eq_some_iff.mp owner
  have shape := sound.sane.space o a space
  rcases which with rfl | rfl
  · left
    have text := pf.text
    have ram := pf.ram
    have wide : pf.trampoline < 2 ^ 64 := by
      simp only [PHYSTOP, KERNBASE] at ram
      omega
    rw [shape.trampoline, PTE2PA_or pf.aligned wide (by decide)]
    rintro ⟨-, above, -⟩
    simp only [PGSIZE] at text
    omega
  · obtain ⟨p, frame⟩ : ∃ p, a.trapframe = (s.proc p).trapframe := by
      cases o with
      | proc q =>
        have own : (s.proc q).space = some a := space
        rw [Proc.space] at own
        split at own
        · cases own
        · obtain rfl := Option.some.inj own
          exact ⟨q, rfl⟩
      | building => cases space
      | loose l => exact frames l a space
    rw [shape.trapframe, frame]
    by_cases none : (s.proc p).trapframe = 0
    · left
      rw [none, PTE2PA_or (by decide) (by decide) (by decide)]
      exact fun page => page.nonzero rfl
    · right
      have keeps : keptOf s.proc h (.trapframe p) = some (s.proc p).trapframe :=
        Proc.frame_some none
      obtain ⟨pages, books⟩ := sound.sane.accounted
      have page := (books.balanced.inside (.kept (.trapframe p)) _ keeps).1
      rw [PTE2PA_or page.1 page.wide (by decide)]
      exact ⟨.trapframe p, keeps⟩

def copiesPage (s : Kernel) : Bool :=
  (s.proc 0).pagetable ≠ 0 ∧ (s.proc 0).sz = 0 ∧
    wp (sysSbrk sixteenPages 0 PGSIZE SBRK_EAGER) (fun _ grown => (grown.proc 0).pagetable ≠ 0 ∧
      wp (procPagetable sixteenPages 0) (fun r' made => r' ≠ 0 ∧
        hasFlag (leaf made.mem (grown.proc 0).pagetable 0) PTE_V = true ∧
        wp (uvmcopy sixteenPages (grown.proc 0).pagetable r' PGSIZE) (fun result _ => result = 0)
          (fun _ => False) made) (fun _ => False) grown) (fun _ => False) s

/-- The page of the first process is copied to a new page table. -/
theorem one_page_copied : ∃ s r r' roots kept after,
    Accounted sixteenPages s roots kept ∧ roots (.proc 0) = some r ∧ roots (.loose 0) = some r' ∧
    hasFlag (leaf s.mem r 0) PTE_V = true ∧
    (uvmcopy sixteenPages r r' PGSIZE).run s = .ok (0, after) ∧
    Isolated s roots (.loose 0) r r' PGSIZE after ∧ Untouched s r after := by
  have starts : returns copiesPage ((oneProcess sixteenPages).run (beforeBoot fun _ => 0)) = true := by
    decide +kernel
  obtain ⟨_, s, ran, passed⟩ := returns_elim starts
  obtain ⟨live, empty, grows⟩ := of_decide_eq_true passed
  -- The process gets a page.
  obtain ⟨_, grown, asked, live', begins⟩ := wp_total grows
  have fits : 0 ≤ (PGSIZE : Int) → ((s.proc 0).sz : Int) + PGSIZE ≤ TRAPFRAME := by
    rw [empty]
    decide
  have keeps : wp (sysSbrk sixteenPages 0 PGSIZE SBRK_EAGER)
      (fun _ after => Sound sixteenPages noHoldings after) (fun _ => False) s :=
    (sound_oneProcess ran).wp_sysSbrk live fits
  have sound := wp_returned keeps asked
  -- A new page table is made beside it, which shares the trapframe.
  obtain ⟨r', made, table, nonzero, mapped, copies⟩ := wp_total begins
  have builds : wp (procPagetable sixteenPages 0) (fun r' after => r' ≠ 0 →
      Sound sixteenPages (noHoldings.setLoose 0 (some ⟨r', 0, (grown.proc 0).trapframe⟩)) after ∧
        after.proc = grown.proc) (fun _ => False) grown :=
    sound.sane.wp_procPagetable (o := .loose 0) rfl rfl rfl (sound.frame_small 0)
      (fun _ _ none => absurd rfl none)
      fun r' after _ sane within _ => ⟨sound.setLoose sane within.processes, within.processes⟩
  obtain ⟨sound', processes⟩ := wp_returned builds table nonzero
  have special := sound'.specialKept fun l a held => by
    have one : l = 0 := by
      by_contra other
      simp [Holdings.setLoose, noHoldings, other] at held
    subst one
    have same : a = ⟨r', 0, (grown.proc 0).trapframe⟩ := by
      simpa [Holdings.setLoose, eq_comm] using held
    exact ⟨0, by rw [same, processes]⟩
  have child : spacesOf made.proc (noHoldings.setLoose 0 (some ⟨r', 0, (grown.proc 0).trapframe⟩))
      (.loose 0) = some ⟨r', 0, (grown.proc 0).trapframe⟩ := by
    simp [spacesOf, Holdings.setLoose]
  have bare : ∀ va, va < TRAPFRAME → hasFlag (leaf made.mem r' va) PTE_V = false := by
    intro va user
    by_contra valid
    rw [Bool.not_eq_false] at valid
    have zero : PGROUNDUP 0 = 0 := by decide
    rcases (sound'.sane.space _ _ child).below va (user_lt_vaspace user) valid with low | ⟨high, -⟩
    · rw [zero] at low
      omega
    · omega
  have parent : (made.proc 0).pagetable ≠ 0 := by rwa [processes]
  obtain ⟨result, after, copied, outcome, others⟩ := fork_isolates_memory sound'.sane.accounted
    special rfl rfl (rootsOf_some (spacesOf_proc parent)) (rootsOf_some child) bare
    (show PGSIZE ≤ TRAPFRAME by decide)
  rw [← processes] at copies mapped
  have zero := wp_returned copies copied
  subst zero
  have isolated := (outcome.resolve_right fun failed => absurd failed.1 (by decide)).2
  exact ⟨made, _, r', _, _, after, sound'.sane.accounted, rootsOf_some (spacesOf_proc parent),
    rootsOf_some child, mapped, copied, isolated,
    others (.proc 0) _ (rootsOf_some (spacesOf_proc parent)) (by simp)⟩

end Witness

section Copies

open Transition

variable {spaces : Owner → Option AddressSpace} {a : AddressSpace} {p : Nat}

theorem Sane.wp_userPage_within (sane : Sane pf s spaces kept) (owner : spaces o = some a)
    (table : (s.proc p).pagetable = a.root) (size : (s.proc p).sz = a.sz)
    (node : kept .node = none) (hand : kept .hand = none) :
    wp (userPage pf p a.root va) (fun _ after =>
      Within pf s (rootsOf spaces) kept o (fun o' _ => o' = o) after) stop s := by
  have fault : wp (vmfault pf p a.root va) (fun _ after =>
      Within pf s (rootsOf spaces) kept o (fun o' _ => o' = o) after) stop s :=
    sane.wp_fault owner table size node hand (fun _ quiet _ => Within.of_quiet quiet)
      fun _ _ _ _ _ mapped _ => mapped.within.mono fun _ _ here => here.1
  rw [userPage, wp_bind]
  refine Vm.wp_walkaddr (fun _ _ _ => ?_) fun _ => fault
  split
  · exact fault
  · exact Within.of_quiet (Quiet.refl sane.accounted)

/-- Nor does `copyout`. -/
theorem Sane.wp_copyout_within (sane : Sane pf s spaces kept) (owner : spaces o = some a)
    (table : (s.proc p).pagetable = a.root) (size : (s.proc p).sz = a.sz)
    (node : kept .node = none) (hand : kept .hand = none) (dstva : Nat) (src : ByteMap) (len : Nat) :
    wp (copyout pf p a.root dstva src len) (fun _ after => Sane pf after spaces kept ∧
      Within pf s (rootsOf spaces) kept o (fun o' _ => o' = o) after) stop s := by
  have root := rootsOf_some owner
  refine wp_copyoutRounds src len dstva 0 len ?_ ?_
    ⟨sane, Within.of_quiet (Quiet.refl sane.accounted)⟩
  · rintro current va ⟨sane', within⟩ aligned - - -
    rw [← within.processes] at table size
    refine wp_post (wp_and (sane'.wp_userPage owner table size node hand aligned)
      (sane'.wp_userPage_within owner table size node hand)) ?_
    rintro q after ⟨⟨⟨sane'', -⟩, mapped⟩, next⟩
    exact ⟨⟨sane'', within.trans next⟩, mapped⟩
  · rintro current va q mem' ⟨sane', within⟩ mapped changed
    exact ⟨sane'.same (sane'.accounted.scribble_user root mapped changed), within.trans
      ((sane'.accounted.scribble_page root mapped changed).mono fun _ _ here => here.1)⟩

/-- In every state that a run from boot reaches, the kernel's writes to the memory of one
process, with the pages allocated on the way, leave that of all others as it was. -/
theorem copyout_isolated (pf : Platform) (mem : ByteMap) :
    ∃ booted, kinit pf (beforeBoot mem) = .ok (⟨⟩, booted) ∧
      ∀ m, Reaches (Step pf) ⟨booted, noHoldings⟩ m → ∀ p, m.Live p → ∀ dstva src len,
        ∃ result after,
          (copyout pf p (m.kernel.proc p).pagetable dstva src len).run m.kernel =
            .ok (result, after) ∧
          ∀ q, q ≠ p → m.Live q → Untouched m.kernel (m.kernel.proc q).pagetable after := by
  obtain ⟨booted, ran, runs⟩ := booted_sound pf mem
  refine ⟨booted, ran, fun m run p live dstva src len => ?_⟩
  obtain ⟨result, after, copied, -, within⟩ := wp_total ((runs m run).sane.wp_copyout_within
    (p := p) (spacesOf_proc live) rfl rfl rfl rfl dstva src len)
  exact ⟨result, after, copied, fun q other live' =>
    within.untouched (fun _ _ own => own) (rootsOf_some (spacesOf_proc live')) (by simpa)⟩

/-- The kernel writes a byte to the memory of the first process, for which it allocates the page,
and the second process keeps what it has. -/
theorem copyout_isolated_second : ∃ booted m after,
    kinit sixteenPages (beforeBoot fun _ => 0) = .ok (⟨⟩, booted) ∧
    Reaches (Step sixteenPages) ⟨booted, noHoldings⟩ m ∧ m.Live 0 ∧ m.Live 1 ∧
    (copyout sixteenPages 0 (m.kernel.proc 0).pagetable 0 (fun _ => 7) 1).run m.kernel =
      .ok (0, after) ∧
    Untouched m.kernel (m.kernel.proc 1).pagetable after := by
  have boots : bootsTo sixteenPages [.allocproc, .allocproc, .sbrk 0 PGSIZE 2] (fun m =>
      (m.kernel.proc 0).pagetable ≠ 0 ∧ (m.kernel.proc 1).pagetable ≠ 0 ∧
      wp (copyout sixteenPages 0 (m.kernel.proc 0).pagetable 0 (fun _ => 7) 1)
        (fun result _ => result = 0) (fun _ => False) m.kernel) = true := by
    decide +kernel
  obtain ⟨booted, m, ran, run, passed⟩ := bootsTo_elim boots
  obtain ⟨live, live', writes⟩ := of_decide_eq_true passed
  obtain ⟨booted', ran', holds⟩ := copyout_isolated sixteenPages fun _ => 0
  obtain ⟨-, rfl⟩ := Prod.mk.inj (Except.ok.inj (ran.symm.trans ran'))
  obtain ⟨result, after, copied, others⟩ := holds m run 0 live 0 (fun _ => 7) 1
  have zero := wp_returned writes copied
  subst zero
  exact ⟨booted, m, after, ran, run, live, live', copied, others 1 (by decide) live'⟩

end Copies

end Xv6.Vm
