import Xv6.Vm.PageConservation

/-!
# The size of user memory

A process's size stays at or below the trapframe's address, and the trampoline and trapframe
mappings stay as `proc_pagetable` made them, as long as no `sbrk` asks for more.
-/

namespace Xv6.Vm

open Command Bytes Transition

/-- The mappings and the size of a process are in bounds. -/
structure InBounds (pf : Platform) (mem : ByteMap) (proc : Proc) : Prop where
  size : proc.sz ≤ TRAPFRAME
  trampoline : leaf mem proc.pagetable TRAMPOLINE =
    PA2PTE pf.trampoline ||| (PTE_R ||| PTE_X ||| PTE_V)
  trapframe : leaf mem proc.pagetable TRAPFRAME =
    PA2PTE proc.trapframe ||| (PTE_R ||| PTE_W ||| PTE_V)

theorem Sound.inBounds {pf : Platform} {h : Holdings} {s : Kernel} {p : Nat}
    (sound : Sound pf h s) (live : (s.proc p).pagetable ≠ 0) : InBounds pf s.mem (s.proc p) := by
  have space := sound.sane.space _ _ (spacesOf_proc (h := h) live)
  exact ⟨space.bounded, space.trampoline, space.trapframe⟩

/-- In every run in which no `sbrk` asks for memory beyond the trapframe's
address, every process is in bounds, and a call stops the kernel only if it is
the exit of the first process. -/
theorem address_spaces_bounded (pf : Platform) (mem : ByteMap) :
    ∃ booted, kinit pf (beforeBoot mem) = .ok (⟨⟩, booted) ∧
      ∀ m, Reaches (Step pf) ⟨booted, noHoldings⟩ m →
        (∀ p, m.Live p → InBounds pf m.kernel.mem (m.kernel.proc p)) ∧
        ∀ call : Call, call.Permitted m → ∀ reason, call.run pf m m.kernel = .error reason →
          reason = .initExiting := by
  obtain ⟨booted, ran, sound⟩ := booted_sound pf mem
  exact ⟨booted, ran, fun m run => ⟨fun p live => (sound m run).inBounds live,
    fun call permitted reason stopped => (sound m run).only_init_stops permitted stopped⟩⟩

def returns {α : Type} (test : Kernel → Bool) : Except Panic (α × Kernel) → Bool
  | .ok (_, kernel) => test kernel
  | .error _ => false

theorem returns_elim {α : Type} {test : Kernel → Bool} {run : Except Panic (α × Kernel)}
    (passed : returns test run = true) : ∃ value kernel, run = .ok (value, kernel) ∧ test kernel := by
  match run with
  | .ok (value, kernel) => exact ⟨value, kernel, rfl, passed⟩
  | .error _ => simp [returns] at passed

def stops {α : Type} (expected : Panic) : Except Panic (α × Kernel) → Bool
  | .ok _ => false
  | .error reason => reason = expected

theorem stops_elim {α : Type} {expected : Panic} {run : Except Panic (α × Kernel)}
    (passed : stops expected run = true) : run = .error expected := by
  match run with
  | .ok _ => simp [stops] at passed
  | .error reason =>
    rw [stops, decide_eq_true_eq] at passed
    rw [passed]

def oneProcess (pf : Platform) : VmM (Option Nat) := do
  kinit pf
  allocproc pf

theorem wp_oneProcess (pf : Platform) (mem : ByteMap) {stop : Panic → Prop} :
    wp (oneProcess pf) (fun _ after => Sound pf noHoldings after) stop (beforeBoot mem) := by
  rw [oneProcess, wp_bind]
  refine wp_post (wp_kinit mem) fun _ booted sound => ?_
  exact sound.wp_allocproc (fun _ sound' _ _ _ => sound') fun _ _ _ sound' _ _ _ _ _ => sound'

theorem sound_oneProcess {pf : Platform} {mem : ByteMap} {v : Option Nat} {s : Kernel}
    (made : (oneProcess pf).run (beforeBoot mem) = .ok (v, s)) : Sound pf noHoldings s := by
  have law : wp (oneProcess pf) (fun _ after => Sound pf noHoldings after) (fun _ => False)
      (beforeBoot mem) := wp_oneProcess pf mem
  have sound := wp_returned law made
  exact sound

/-- The first process of the machine with eight pages asks for a page and is in bounds. -/
theorem first_process_bounded : ∃ booted m,
    kinit eightPages (beforeBoot fun _ => 0) = .ok (⟨⟩, booted) ∧
    Reaches (Step eightPages) ⟨booted, noHoldings⟩ m ∧ m.Live 0 ∧
    (m.kernel.proc 0).sz = PGSIZE ∧ InBounds eightPages m.kernel.mem (m.kernel.proc 0) := by
  have boots : bootsTo eightPages [.allocproc, .sbrk 0 PGSIZE SBRK_EAGER]
      (fun m => (m.kernel.proc 0).pagetable ≠ 0 ∧ (m.kernel.proc 0).sz = PGSIZE) = true := by
    decide +kernel
  obtain ⟨booted, m, ran, run, grown⟩ := bootsTo_elim boots
  obtain ⟨live, size⟩ := of_decide_eq_true grown
  obtain ⟨booted', ran', holds⟩ := address_spaces_bounded eightPages fun _ => 0
  obtain ⟨-, rfl⟩ := Prod.mk.inj (Except.ok.inj (ran.symm.trans ran'))
  exact ⟨booted, m, ran, run, live, size, (holds m run).1 0 live⟩

def lazySbrks (count : Nat) (rest : Int) : VmM PUnit := do
  kinit eightPages
  let _ ← allocproc eightPages
  forRange 0 count fun _ => do
    let _ ← sysSbrk eightPages 0 (2 ^ 31 - 1) 2
    pure ⟨⟩
  let _ ← sysSbrk eightPages 0 rest 2
  pure ⟨⟩

/-- Lazy calls take the size beyond the trapframe's address. If they take it to
that address, an eager call for one more page maps the page over the
trapframe. -/
theorem sbrk_beyond_trapframe :
    (∃ kernel, (lazySbrks 127 (2 ^ 31 - 1)).run (beforeBoot fun _ => 0) = .ok (⟨⟩, kernel) ∧
      TRAPFRAME < (kernel.proc 0).sz) ∧
    (do
      lazySbrks 127 (TRAPFRAME - 127 * (2 ^ 31 - 1))
      sysSbrk eightPages 0 PGSIZE SBRK_EAGER).run (beforeBoot fun _ => 0) =
        .error .mappagesRemap := by
  refine ⟨?_, stops_elim (by decide +kernel)⟩
  have grown : returns (fun kernel => TRAPFRAME < (kernel.proc 0).sz)
      ((lazySbrks 127 (2 ^ 31 - 1)).run (beforeBoot fun _ => 0)) = true := by
    decide +kernel
  obtain ⟨⟨⟩, kernel, ran, above⟩ := returns_elim grown
  exact ⟨kernel, ran, of_decide_eq_true above⟩

end Xv6.Vm
