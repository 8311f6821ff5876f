import Xv6.Vm.AddressBound

/-!
# Growing and shrinking user memory

The call `sbrk` for sizes up to the trapframe, whichever allocations are turned down.
-/

namespace Xv6.Vm

open Command Bytes Ownership

variable {pf : Platform} {h : Holdings} {s after : Kernel} {p va : Nat} {n t : Int}

def SameMapping (s : Kernel) (r : Nat) (after : Kernel) (va : Nat) : Prop :=
  hasFlag (leaf after.mem r va) PTE_V = hasFlag (leaf s.mem r va) PTE_V ∧
    (hasFlag (leaf s.mem r va) PTE_V = true → leaf after.mem r va = leaf s.mem r va ∧
      SamePage s.mem after.mem (PTE2PA (leaf s.mem r va)))

/-- A call that failed has had no effect on the process. -/
structure NoEffect (s : Kernel) (p : Nat) (after : Kernel) : Prop where
  processes : after.proc = s.proc
  mappings : ∀ va, va < TRAPFRAME → SameMapping s (s.proc p).pagetable after va
  returned : ∀ q, OnFreeList s q → OnFreeList after q ∨ IsTable after (s.proc p).pagetable q

structure Resized (pf : Platform) (s : Kernel) (p new : Nat) (eager : Prop) (after : Kernel) :
    Prop where
  processes : after.proc = Function.update s.proc p { s.proc p with sz := new }
  beyond : ∀ va, PGROUNDUP new ≤ va → va < TRAPFRAME →
    hasFlag (leaf after.mem (s.proc p).pagetable va) PTE_V = false
  freed : ∀ va, PGROUNDUP new ≤ va → va < TRAPFRAME →
    hasFlag (leaf s.mem (s.proc p).pagetable va) PTE_V = true →
    OnFreeList after (PTE2PA (leaf s.mem (s.proc p).pagetable va))
  below : ∀ va, va < PGROUNDUP (min (s.proc p).sz new) →
    SameMapping s (s.proc p).pagetable after va
  filled : eager → ∀ va, PGROUNDUP (s.proc p).sz ≤ va → va < PGROUNDUP new →
    ∃ q, IsPage pf q ∧ Zeroed after.mem q ∧
      leaf after.mem (s.proc p).pagetable va = PA2PTE q ||| (PTE_R ||| PTE_U ||| PTE_W ||| PTE_V)

theorem SameMapping.refl (s : Kernel) (r va : Nat) : SameMapping s r s va :=
  ⟨rfl, fun _ => ⟨rfl, SamePage.refl s.mem _⟩⟩

theorem Within.sameMapping {roots : Owner → Option Nat} {kept : Keeper → Option Nat} {o : Owner}
    {r : Nat} {region : Owner → Nat → Prop} (within : Within pf s roots kept o region after)
    (owner : roots o = some r) (user : va < TRAPFRAME) (outside : ¬ region o va) :
    SameMapping s r after va := by
  have entry := within.leaves o r va owner (user_lt_vaspace user) outside
  exact ⟨by rw [entry], fun valid => ⟨entry, within.samePage owner user outside valid⟩⟩

def newSize (sz : Nat) (n : Int) : Nat := if n < -sz then sz else (sz + n).toNat

theorem Sound.mapped_below (sound : Sound pf h s) (live : (s.proc p).pagetable ≠ 0)
    (user : va < TRAPFRAME) (valid : hasFlag (leaf s.mem (s.proc p).pagetable va) PTE_V = true) :
    va < PGROUNDUP (s.proc p).sz := by
  by_contra above
  have space := sound.sane.space _ _ (spacesOf_proc (h := h) live)
  rw [space.fresh (Nat.le_of_not_lt above) user] at valid
  simp at valid

theorem Sound.noEffect (sound : Sound pf h s) (live : (s.proc p).pagetable ≠ 0)
    (cleared : Cleared pf s (rootsOf (spacesOf s.proc h)) (keptOf s.proc h) (.proc p)
      (PGROUNDUP (s.proc p).sz) TRAPFRAME after) : NoEffect s p after := by
  have owner := rootsOf_some (spacesOf_proc (h := h) live)
  have space := sound.sane.space _ _ (spacesOf_proc (h := h) live)
  refine ⟨cleared.within.processes, ?_, ?_⟩
  · intro va user
    by_cases above : PGROUNDUP (s.proc p).sz ≤ va
    · have before := space.fresh above user
      have gone := cleared.gone _ va owner above user (user_lt_vaspace user)
      refine ⟨gone.trans before.symm, fun valid => absurd valid ?_⟩
      simp [before]
    · exact cleared.within.sameMapping owner user fun inside => above inside.2.1
  · intro q free
    refine cleared.within.returned sound.sane.accounted owner ?_ free
    rintro va range ⟨-, lower, upper⟩
    exact cleared.gone _ va owner lower upper range

/-- A growth that was not turned down. -/
theorem Sound.resized_grown (sound : Sound pf h s) (live : (s.proc p).pagetable ≠ 0) {new : Nat}
    (larger : (s.proc p).sz ≤ new) (bounded : new ≤ TRAPFRAME)
    (filled : Filled pf s (rootsOf (spacesOf s.proc h)) (keptOf s.proc h) (.proc p)
      (PGROUNDUP (s.proc p).sz) (PGROUNDUP new) (PTE_R ||| PTE_U ||| PTE_W ||| PTE_V) after) :
    Resized pf s p new True (after.setSize p new) := by
  have owner := rootsOf_some (spacesOf_proc (h := h) live)
  have space := sound.sane.space _ _ (spacesOf_proc (h := h) live)
  have order := PGROUNDUP_mono larger bounded
  obtain ⟨-, -, -, bound⟩ := PGROUNDUP_spec bounded
  refine ⟨?_, ?_, ?_, ?_, ?_⟩
  · rw [Kernel.setSize, filled.within.processes]
  · intro va above user
    have same := filled.within.leaves _ _ va owner (user_lt_vaspace user) fun inside =>
      absurd inside.2.2 (Nat.not_lt_of_le above)
    exact (congrArg (hasFlag · PTE_V) same).trans (space.fresh (order.trans above) user)
  · intro va above user valid
    rw [space.fresh (order.trans above) user] at valid
    simp at valid
  · intro va below
    rw [Nat.min_eq_left larger] at below
    have user : va < TRAPFRAME := by omega
    exact filled.within.sameMapping owner user fun inside =>
      absurd inside.2.1 (Nat.not_le_of_lt below)
  · intro _ va lower upper
    obtain ⟨q, page, entry, zeroed⟩ := filled.present _ va owner lower upper
      (user_lt_vaspace (Nat.lt_of_lt_of_le upper bound))
    exact ⟨q, page, zeroed, entry⟩

/-- A size that has become smaller. -/
theorem Sound.resized_shrunk (sound : Sound pf h s) (live : (s.proc p).pagetable ≠ 0) {new : Nat}
    {eager : Prop} (smaller : new < (s.proc p).sz)
    (emptied : Emptied pf s (rootsOf (spacesOf s.proc h)) (keptOf s.proc h) (.proc p)
      (PGROUNDUP new) (PGROUNDUP (s.proc p).sz) after) :
    Resized pf s p new eager (after.setSize p new) := by
  have owner := rootsOf_some (spacesOf_proc (h := h) live)
  have space := sound.sane.space _ _ (spacesOf_proc (h := h) live)
  have bounded : (s.proc p).sz ≤ TRAPFRAME := space.bounded
  have order := PGROUNDUP_mono (Nat.le_of_lt smaller) bounded
  obtain ⟨-, -, -, bound⟩ := PGROUNDUP_spec bounded
  refine ⟨?_, ?_, ?_, ?_, ?_⟩
  · rw [Kernel.setSize, emptied.within.processes]
  · intro va above user
    have range := user_lt_vaspace user
    by_cases below : va < PGROUNDUP (s.proc p).sz
    · exact emptied.gone _ va owner above below range
    · have same := emptied.within.leaves _ _ va owner range fun inside => below inside.2.2
      exact (congrArg (hasFlag · PTE_V) same).trans (space.fresh (Nat.le_of_not_lt below) user)
  · intro va above user valid
    exact emptied.freed _ va owner above (sound.mapped_below live user valid)
      (user_lt_vaspace user) valid
  · intro va below
    rw [Nat.min_eq_right (Nat.le_of_lt smaller)] at below
    have user : va < TRAPFRAME := by omega
    exact emptied.within.sameMapping owner user fun inside =>
      absurd inside.2.1 (Nat.not_le_of_lt below)
  · intro _ va lower upper
    omega

theorem Sound.resized_raised (sound : Sound pf h s) (live : (s.proc p).pagetable ≠ 0) {new : Nat}
    (eager : Prop) (larger : (s.proc p).sz ≤ new) (bounded : new ≤ TRAPFRAME)
    (lazily : eager → new = (s.proc p).sz) : Resized pf s p new eager (s.setSize p new) := by
  have space := sound.sane.space _ _ (spacesOf_proc (h := h) live)
  have order := PGROUNDUP_mono larger bounded
  refine ⟨rfl, fun va above user => space.fresh (order.trans above) user, ?_,
    fun va _ => SameMapping.refl s _ va, ?_⟩
  · intro va above user valid
    rw [space.fresh (order.trans above) user] at valid
    simp at valid
  · intro eager va lower upper
    rw [lazily eager] at upper
    omega

def SbrkEnded (pf : Platform) (s : Kernel) (p : Nat) (n t result : Int) (after : Kernel) : Prop :=
  result = -1 ∧ NoEffect s p after ∨
    result = (s.proc p).sz ∧ Resized pf s p (newSize (s.proc p).sz n) (t = SBRK_EAGER) after

theorem Resized.mono {new : Nat} {eager eager' : Prop} (resized : Resized pf s p new eager after)
    (weaker : eager' → eager) : Resized pf s p new eager' after :=
  ⟨resized.processes, resized.beyond, resized.freed, resized.below,
    fun now => resized.filled (weaker now)⟩

/-- The law of `growproc`, with the size that it has reached. -/
theorem Sound.wp_growproc_exact (sound : Sound pf h s) (live : (s.proc p).pagetable ≠ 0)
    (low : -2 ^ 31 ≤ n) (fits : ((s.proc p).sz : Int) + n ≤ TRAPFRAME) (eager : Prop)
    {stop : Panic → Prop} :
    wp (growproc pf p n) (fun result after => Sound pf h after ∧
      (result = -1 ∧ NoEffect s p after ∨
        result = 0 ∧ Resized pf s p (newSize (s.proc p).sz n) eager after)) stop s := by
  have bounded : (s.proc p).sz ≤ TRAPFRAME :=
    (sound.sane.space _ _ (spacesOf_proc (h := h) live)).bounded
  have small : (TRAPFRAME : Int) < 2 ^ 63 := by decide
  have sum : 0 ≤ ((s.proc p).sz : Int) + n →
      addInt (s.proc p).sz n = newSize (s.proc p).sz n := by
    intro nonnegative
    have exact := addInt_eq nonnegative (by omega)
    rw [newSize, if_neg (by omega)]
    omega
  -- A sum below zero wraps to a number beyond every size.
  have wraps : ((s.proc p).sz : Int) + n < 0 → (s.proc p).sz < addInt (s.proc p).sz n := by
    intro negative
    rw [addInt]
    omega
  refine sound.wp_growproc_cases live (fun _ => fits) ?_ ?_ ?_ ?_
  · intro after _ sound' cleared
    exact ⟨sound', .inl ⟨rfl, sound.noEffect live cleared⟩⟩
  · intro after grows sound' filled
    rw [sum (by omega)] at sound' filled ⊢
    have larger : (s.proc p).sz ≤ newSize (s.proc p).sz n ∧
        newSize (s.proc p).sz n ≤ TRAPFRAME := by
      rw [newSize, if_neg (by omega)]
      omega
    exact ⟨sound', .inr ⟨rfl,
      (sound.resized_grown live larger.1 larger.2 filled).mono fun _ => trivial⟩⟩
  · intro after shrinks smaller sound' emptied
    have nonnegative : 0 ≤ ((s.proc p).sz : Int) + n := by
      by_contra negative
      have := wraps (by omega)
      omega
    rw [sum nonnegative] at sound' emptied smaller ⊢
    exact ⟨sound', .inr ⟨rfl, sound.resized_shrunk live smaller emptied⟩⟩
  · intro reason
    have same : newSize (s.proc p).sz n = (s.proc p).sz := by
      rcases reason with rfl | ⟨shrinks, larger⟩
      · rw [newSize, if_neg (by omega)]
        omega
      · have negative : ((s.proc p).sz : Int) + n < 0 := by
          by_contra nonnegative
          have exact := addInt_eq (Int.not_lt.mp nonnegative) (by omega)
          omega
        rw [newSize, if_pos (by omega)]
    have stayed := sound.resized_raised live eager (Nat.le_refl _) bounded fun _ => rfl
    rw [Kernel.setSize_same] at stayed
    rw [same]
    exact ⟨sound, .inr ⟨rfl, stayed⟩⟩

/-- For every process and every `int` for which the sum does not exceed the
trapframe, and whichever allocations are turned down, `sbrk` has had no effect if
it returns -1, and otherwise it returns the old size and has changed the size as
asked. User mappings are below the size afterwards. -/
theorem sbrk_exact (sound : Sound pf h s) (live : (s.proc p).pagetable ≠ 0)
    (low : -2 ^ 31 ≤ n) (fits : ((s.proc p).sz : Int) + n ≤ TRAPFRAME) :
    ∃ result after, (sysSbrk pf p n t).run s = .ok (result, after) ∧
      SbrkEnded pf s p n t result after ∧
      ∀ va, va < TRAPFRAME → hasFlag (leaf after.mem (s.proc p).pagetable va) PTE_V = true →
        va < PGROUNDUP (after.proc p).sz := by
  suffices law : wp (sysSbrk pf p n t) (fun result after => Sound pf h after ∧
      SbrkEnded pf s p n t result after) (fun _ => False) s by
    obtain ⟨result, after, ran, sound', ended⟩ := wp_total law
    refine ⟨result, after, ran, ended, fun va user valid => ?_⟩
    have table : (after.proc p).pagetable = (s.proc p).pagetable := by
      rcases ended with ⟨-, unchanged⟩ | ⟨-, resized⟩
      · rw [unchanged.processes]
      · rw [resized.processes, Function.update_self]
    rw [← table] at live valid
    exact sound'.mapped_below live user valid
  simp only [sysSbrk, wp_bind, wp_get]
  by_cases eager : t = SBRK_EAGER ∨ n < 0
  · rw [if_pos eager, wp_bind]
    refine wp_post (sound.wp_growproc_exact live low fits (t = SBRK_EAGER)) ?_
    rintro result after ⟨sound', ⟨rfl, unchanged⟩ | ⟨rfl, resized⟩⟩
    · rw [if_pos (by decide), wp_pure]
      exact ⟨sound', .inl ⟨rfl, unchanged⟩⟩
    · rw [if_neg (by decide), wp_pure]
      exact ⟨sound', .inr ⟨rfl, resized⟩⟩
  · have grows : 0 ≤ n := by omega
    have small : (TRAPFRAME : Int) < 2 ^ 63 := by decide
    have sum : (addInt (s.proc p).sz n : Int) = (s.proc p).sz + n :=
      addInt_eq (by omega) (by omega)
    have new : newSize (s.proc p).sz n = addInt (s.proc p).sz n := by
      rw [newSize, if_neg (by omega)]
      omega
    have larger : (s.proc p).sz ≤ addInt (s.proc p).sz n := by omega
    rw [if_neg eager, if_neg (Nat.not_lt_of_le larger)]
    simp only [wp_bind, wp_setProc, wp_pure]
    refine ⟨sound.raise live grows fits, .inr ⟨rfl, ?_⟩⟩
    rw [new]
    exact sound.resized_raised live _ larger (by omega) fun now => absurd (.inl now) eager

/-- The first process of the machine with eight pages asks for a page and a byte, and gets them. -/
theorem sbrk_exact_first_process : ∃ s after, Sound eightPages noHoldings s ∧
    (s.proc 0).pagetable ≠ 0 ∧ (s.proc 0).sz = 0 ∧
    (sysSbrk eightPages 0 (PGSIZE + 1) SBRK_EAGER).run s = .ok (0, after) ∧
    SbrkEnded eightPages s 0 (PGSIZE + 1) SBRK_EAGER 0 after := by
  have low : (-2 ^ 31 : Int) ≤ PGSIZE + 1 := by decide
  have made : returns (fun k => (k.proc 0).pagetable ≠ 0 ∧ (k.proc 0).sz = 0 ∧
      wp (sysSbrk eightPages 0 (PGSIZE + 1) SBRK_EAGER) (fun result _ => result = 0)
        (fun _ => False) k)
      ((oneProcess eightPages).run (beforeBoot fun _ => 0)) = true := by
    decide +kernel
  obtain ⟨_, s, ran, passed⟩ := returns_elim made
  obtain ⟨live, empty, succeeds⟩ := of_decide_eq_true passed
  have sound := sound_oneProcess ran
  have fits : ((s.proc 0).sz : Int) + (PGSIZE + 1) ≤ TRAPFRAME := by
    rw [empty]
    decide
  obtain ⟨result, after, grown, ended, -⟩ := sbrk_exact (t := SBRK_EAGER) sound live low fits
  have zero := wp_returned succeeds grown
  subst zero
  exact ⟨s, after, sound, live, empty, grown, ended⟩

end Xv6.Vm
