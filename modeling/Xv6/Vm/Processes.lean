import Xv6.Vm.UserAccess

/-!
# Processes and their memory

The address spaces of a kernel state are those its process table refers to, together with page
tables that belong to no process; trapframes are kept by processes.
-/

namespace Xv6.Vm

open Command Bytes Ownership Xv6.Tree Function

structure Holdings where
  loose : Nat → Option AddressSpace
  other : Nat → Option Nat

def Proc.space (proc : Proc) : Option AddressSpace :=
  if proc.pagetable = 0 then none else some ⟨proc.pagetable, proc.sz, proc.trapframe⟩

def Proc.frame (proc : Proc) : Option Nat :=
  if proc.trapframe = 0 then none else some proc.trapframe

/-- All address spaces. -/
def spacesOf (proc : Nat → Proc) (h : Holdings) : Owner → Option AddressSpace
  | .proc p => (proc p).space
  | .building => none
  | .loose l => h.loose l

def keptOf (proc : Nat → Proc) (h : Holdings) : Keeper → Option Nat
  | .trapframe p => (proc p).frame
  | .hand => none
  | .node => none
  | .kernel n => h.other n

structure Proc.Ok (proc : Proc) : Prop where
  unused : proc.state = .UNUSED → proc.pagetable = 0 ∧ proc.trapframe = 0 ∧ proc.sz = 0
  framed : proc.pagetable ≠ 0 → proc.trapframe ≠ 0
  empty : proc.pagetable = 0 → proc.sz = 0

def Kernel.states (s : Kernel) (p : Nat) : ProcState := (s.proc p).state

/-- A sound kernel state between calls. -/
structure Sound (pf : Platform) (h : Holdings) (s : Kernel) : Prop where
  sane : Sane pf s (spacesOf s.proc h) (keptOf s.proc h)
  ok : ∀ p, (s.proc p).Ok

variable {pf : Platform} {h : Holdings} {s after : Kernel} {spaces : Owner → Option AddressSpace}
  {kept : Keeper → Option Nat} {proc : Nat → Proc} {o : Owner} {a : AddressSpace} {p q r va : Nat}
  {x : Proc} {stop : Panic → Prop}

theorem spacesOf_update (proc : Nat → Proc) (h : Holdings) (p : Nat) (x : Proc) :
    spacesOf (update proc p x) h = update (spacesOf proc h) (.proc p) x.space := by
  funext o
  cases o with
  | proc q =>
    by_cases same : q = p
    · subst same
      simp [spacesOf]
    · simp [spacesOf, same]
  | building => simp [spacesOf]
  | loose l => simp [spacesOf]

theorem keptOf_update (proc : Nat → Proc) (h : Holdings) (p : Nat) (x : Proc) :
    keptOf (update proc p x) h = update (keptOf proc h) (.trapframe p) x.frame := by
  funext k
  cases k with
  | trapframe q =>
    by_cases same : q = p
    · subst same
      simp [keptOf]
    · simp [keptOf, same]
  | hand => simp [keptOf]
  | node => simp [keptOf]
  | kernel n => simp [keptOf]

theorem spacesOf_same (same : x.space = (proc p).space) :
    spacesOf (update proc p x) h = spacesOf proc h := by
  rw [spacesOf_update, same]
  exact update_eq_self (Owner.proc p) (spacesOf proc h)

theorem keptOf_same (same : x.frame = (proc p).frame) :
    keptOf (update proc p x) h = keptOf proc h := by
  rw [keptOf_update, same]
  exact update_eq_self (Keeper.trapframe p) (keptOf proc h)

theorem Proc.space_some (table : x.pagetable ≠ 0) :
    x.space = some ⟨x.pagetable, x.sz, x.trapframe⟩ := if_neg table

theorem Proc.space_none (table : x.pagetable = 0) : x.space = none := if_pos table

theorem Proc.frame_some (page : x.trapframe ≠ 0) : x.frame = some x.trapframe := if_neg page

theorem Proc.frame_none (page : x.trapframe = 0) : x.frame = none := if_pos page

theorem Sane.transport (sane : Sane pf s spaces kept) (sameMem : after.mem = s.mem)
    (sameList : after.freelist = s.freelist) : Sane pf after spaces kept := by
  obtain ⟨⟨pages, books⟩, space⟩ := sane
  refine ⟨⟨pages, books.transport sameMem sameList⟩, ?_⟩
  rw [sameMem]
  exact space

theorem spacesOf_proc (table : (proc p).pagetable ≠ 0) :
    spacesOf proc h (.proc p) = some ⟨(proc p).pagetable, (proc p).sz, (proc p).trapframe⟩ :=
  Proc.space_some table

theorem Sound.inUse (sound : Sound pf h s) (table : (s.proc p).pagetable ≠ 0) :
    (s.proc p).state ≠ .UNUSED := fun unused => table ((sound.ok p).unused unused).1

theorem Sound.renew (sound : Sound pf h s)
    (sane : Sane pf after (spacesOf s.proc h) (keptOf s.proc h)) (processes : after.proc = s.proc) :
    Sound pf h after := by
  refine ⟨?_, ?_⟩
  · rw [processes]
    exact sane
  · rw [processes]
    exact sound.ok

theorem Sound.replace (sound : Sound pf h s) (ok : x.Ok)
    (sane : Sane pf after (update (spacesOf s.proc h) (.proc p) x.space)
      (update (keptOf s.proc h) (.trapframe p) x.frame))
    (processes : after.proc = update s.proc p x) : Sound pf h after := by
  refine ⟨?_, ?_⟩
  · rw [processes, spacesOf_update, keptOf_update]
    exact sane
  · intro q
    rw [processes]
    by_cases same : q = p
    · subst same
      rw [update_self]
      exact ok
    · rw [update_of_ne same]
      exact sound.ok q

theorem Sound.setProc (sound : Sound pf h s) (ok : x.Ok) (space : x.space = (s.proc p).space)
    (frame : x.frame = (s.proc p).frame) (processes : after.proc = update s.proc p x)
    (sameMem : after.mem = s.mem) (sameList : after.freelist = s.freelist) : Sound pf h after := by
  refine sound.replace ok ?_ processes
  rw [← spacesOf_update, ← keptOf_update, spacesOf_same space, keptOf_same frame]
  exact sound.sane.transport sameMem sameList

def Proc.free : Proc := ⟨.UNUSED, none, 0, 0, 0, 0⟩

theorem Proc.free_ok : Proc.free.Ok := ⟨fun _ => ⟨rfl, rfl, rfl⟩, fun table => absurd rfl table,
  fun _ => rfl⟩

variable {post : PUnit → Kernel → Prop}

theorem Sane.wp_freeTrapframe (sane : Sane pf s spaces kept)
    (frame : kept (.trapframe p) = (s.proc p).frame)
    (done : ∀ after, Sane pf after spaces (update kept (.trapframe p) none) →
      after.proc = s.proc → after.initproc = s.initproc → post ⟨⟩ after) :
    wp (freeTrapframe pf p) post stop s := by
  simp only [freeTrapframe, wp_bind, wp_get]
  by_cases page : (s.proc p).trapframe = 0
  · rw [if_neg (not_not_intro page), wp_pure]
    rw [Proc.frame_none page] at frame
    refine done s ?_ rfl rfl
    rw [← frame, update_eq_self]
    exact sane
  · rw [if_pos page]
    rw [Proc.frame_some page] at frame
    refine sane.accounted.wp_kfree frame fun after quiet => ?_
    exact done after (sane.same quiet) quiet.processes quiet.first

theorem Sane.wp_freePagetable (sane : Sane pf s spaces kept) (hand : kept .hand = none)
    (frame : Nat) (none : (s.proc p).pagetable = 0 → spaces (.proc p) = none)
    (some : (s.proc p).pagetable ≠ 0 →
      spaces (.proc p) = some ⟨(s.proc p).pagetable, (s.proc p).sz, frame⟩)
    (done : ∀ after, Sane pf after (update spaces (.proc p) Option.none) kept →
      after.proc = s.proc → after.initproc = s.initproc → post ⟨⟩ after) :
    wp (freePagetable pf p) post stop s := by
  simp only [freePagetable, wp_bind, wp_get]
  by_cases table : (s.proc p).pagetable = 0
  · rw [if_neg (not_not_intro table), wp_pure]
    refine done s ?_ rfl rfl
    rw [← none table, update_eq_self]
    exact sane
  · rw [if_pos table]
    exact sane.wp_procFreepagetable (some table) hand fun after sane' quiet =>
      done after sane' quiet.processes quiet.first

theorem Sound.wp_freeproc (sound : Sound pf h s) (p : Nat)
    (done : ∀ after, Sound pf h after → after.proc = update s.proc p Proc.free →
      after.initproc = s.initproc → post ⟨⟩ after) :
    wp (freeproc pf p) post stop s := by
  simp only [freeproc, wp_bind]
  refine sound.sane.wp_freeTrapframe rfl ?_
  intro first sane processes init
  rw [wp_setProc]
  generalize between : { first with proc := update first.proc p _ } = second
  have sameTable : (second.proc p).pagetable = (s.proc p).pagetable := by
    rw [← between]
    simp [processes]
  have sameSize : (second.proc p).sz = (s.proc p).sz := by
    rw [← between]
    simp [processes]
  have sane' : Sane pf second (spacesOf s.proc h)
      (update (keptOf s.proc h) (.trapframe p) none) :=
    sane.transport (by rw [← between]) (by rw [← between])
  refine sane'.wp_freePagetable (p := p) (by simp [keptOf]) (s.proc p).trapframe ?_ ?_ ?_
  · intro table
    rw [sameTable] at table
    exact Proc.space_none table
  · intro table
    rw [sameTable] at table
    rw [sameTable, sameSize]
    exact Proc.space_some table
  · intro third sane'' processes' init'
    have replaced : update third.proc p { third.proc p with
        pagetable := 0, sz := 0, parent := none, xstate := 0, state := .UNUSED } =
        update s.proc p Proc.free := by
      rw [processes', ← between, processes]
      simp [Proc.free]
    rw [wp_setProc, replaced]
    refine done _ (sound.replace (p := p) Proc.free_ok (sane''.transport rfl rfl) rfl) rfl ?_
    rw [init', ← between, init]

theorem Sound.install (sound : Sound pf h s) (ok : x.Ok)
    (sane : Sane pf after (update (spacesOf s.proc h) (.proc p) x.space)
      (update (keptOf s.proc h) (.trapframe p) x.frame))
    (processes : after.proc = s.proc) :
    Sound pf h { after with proc := update after.proc p x } :=
  sound.replace ok (sane.transport rfl rfl) (by rw [processes])

structure Draft (pf : Platform) (h : Holdings) (s : Kernel) (p frame : Nat) (current : Kernel) :
    Prop where
  sound : Sound pf h current
  unused : (s.proc p).state = .UNUSED
  others : ∀ q, q ≠ p → current.proc q = s.proc q
  init : current.initproc = s.initproc
  used : (current.proc p).state = .USED
  table : (current.proc p).pagetable = 0
  frame : (current.proc p).trapframe = frame

section Allocproc

variable {current : Kernel} {frame : Nat}

theorem Draft.update (draft : Draft pf h s p frame current) {page : Nat} {x : Proc}
    (used : x.state = .USED) (table : x.pagetable = 0) (size : x.sz = 0)
    (isFrame : x.trapframe = page)
    (sane : Sane pf after (spacesOf current.proc h)
      (update (keptOf current.proc h) (.trapframe p) x.frame))
    (processes : after.proc = current.proc) (init : after.initproc = current.initproc) :
    Draft pf h s p page { after with proc := update after.proc p x } := by
  have ok : x.Ok := by
    refine ⟨fun unused => ?_, fun some => absurd table some, fun _ => size⟩
    rw [used] at unused
    cases unused
  have noSpace : x.space = spacesOf current.proc h (.proc p) := by
    rw [Proc.space_none table, spacesOf, Proc.space_none draft.table]
  refine ⟨draft.sound.install ok ?_ processes, draft.unused, ?_, init.trans draft.init, ?_, ?_, ?_⟩
  · rwa [noSpace, update_eq_self]
  · intro q different
    exact (update_of_ne different ..).trans
      ((congrFun processes q).trans (draft.others q different))
  · simpa using used
  · simpa using table
  · simpa using isFrame

variable {post : Option Nat → Kernel → Prop}

theorem Draft.wp_undo (draft : Draft pf h s p frame current)
    (refused : ∀ after, Sound pf h after →
      (∀ q, (s.proc q).state ≠ .UNUSED → after.proc q = s.proc q) → after.states = s.states →
      after.initproc = s.initproc → post none after) :
    wp (do
      freeproc pf p
      pure none) post stop current := by
  rw [wp_bind]
  refine draft.sound.wp_freeproc p fun after sound processes init => ?_
  rw [wp_pure]
  refine refused after sound ?_ ?_ (init.trans draft.init)
  · intro q inUse
    have different : q ≠ p := by
      rintro rfl
      exact inUse draft.unused
    rw [processes, update_of_ne different, draft.others q different]
  · funext q
    simp only [Kernel.states, processes]
    by_cases same : q = p
    · rw [same, update_self, draft.unused]
      rfl
    · rw [update_of_ne same, draft.others q same]

theorem Draft.wp_pagetable (draft : Draft pf h s p frame current) (isPage : IsPage pf frame)
    (refused : ∀ after, Sound pf h after →
      (∀ q, (s.proc q).state ≠ .UNUSED → after.proc q = s.proc q) → after.states = s.states →
      after.initproc = s.initproc → post none after)
    (made : ∀ after, Sound pf h after → (∀ q, q ≠ p → after.proc q = s.proc q) →
      (after.proc p).state = .USED → (after.proc p).pagetable ≠ 0 → (after.proc p).sz = 0 →
      after.initproc = s.initproc → post (some p) after) :
    wp (do
      let pagetable ← procPagetable pf p
      setProc p fun proc => { proc with pagetable := pagetable }
      if pagetable = 0 then
        freeproc pf p
        pure none
      else pure (some p)) post stop current := by
  have size := (draft.sound.ok p).empty draft.table
  have framed : keptOf current.proc h (.trapframe p) = some frame := by
    rw [keptOf, Proc.frame_some (by rw [draft.frame]; exact isPage.nonzero), draft.frame]
  rw [wp_bind]
  refine draft.sound.sane.wp_procPagetable (o := .proc p) ?_ rfl rfl ?_ ?_ ?_
  · rw [spacesOf, Proc.space_none draft.table]
  · rw [draft.frame]
    exact isPage.small
  · intro after quiet
    have sane := draft.sound.sane.quiet quiet
    have processes := quiet.processes
    have init := quiet.first
    have here := congrFun processes p
    simp only [wp_bind, wp_setProc, ↓reduceIte]
    have undone : Draft pf h s p frame { after with
        proc := Function.update after.proc p { after.proc p with pagetable := 0 } } := by
      refine draft.update (by rw [here]; exact draft.used) rfl (by rw [here]; exact size)
        (by rw [here]; exact draft.frame) ?_ processes init
      rw [here]
      exact (update_eq_self (Keeper.trapframe p) (keptOf current.proc h)).symm ▸ sane
    rw [← wp_bind]
    exact undone.wp_undo refused
  · intro r after nonzero sane within
    have processes := within.processes
    have init := within.first
    have here := congrFun processes p
    simp only [wp_bind, wp_setProc, nonzero, ↓reduceIte, wp_pure]
    refine made _ (draft.sound.install ⟨?_, fun _ => ?_, fun none => absurd none nonzero⟩ ?_
      processes) ?_ ?_ ?_ ?_ (init.trans draft.init)
    · intro unused
      rw [here, draft.used] at unused
      cases unused
    · rw [here, draft.frame]
      exact isPage.nonzero
    · have space : ({ after.proc p with pagetable := r } : Proc).space =
          some ⟨r, 0, (current.proc p).trapframe⟩ := by
        rw [Proc.space_some nonzero, here, size]
      have frame' : ({ after.proc p with pagetable := r } : Proc).frame =
          keptOf current.proc h (.trapframe p) := by
        rw [here]
        rfl
      rw [space, frame', update_eq_self]
      exact sane
    · intro q different
      exact (update_of_ne different ..).trans
        ((congrFun processes q).trans (draft.others q different))
    · simpa [here] using draft.used
    · simpa using nonzero
    · simpa [here] using size

/-- The law of `allocproc`. -/
theorem Sound.wp_allocproc (sound : Sound pf h s)
    (refused : ∀ after, Sound pf h after →
      (∀ q, (s.proc q).state ≠ .UNUSED → after.proc q = s.proc q) → after.states = s.states →
      after.initproc = s.initproc → post none after)
    (made : ∀ p after, (s.proc p).state = .UNUSED → Sound pf h after →
      (∀ q, q ≠ p → after.proc q = s.proc q) → (after.proc p).state = .USED →
      (after.proc p).pagetable ≠ 0 → (after.proc p).sz = 0 → after.initproc = s.initproc →
      post (some p) after) :
    wp (allocproc pf) post stop s := by
  simp only [allocproc, wp_bind, wp_get]
  cases search : (List.range NPROC).find? fun p => (s.proc p).state = .UNUSED with
  | none =>
    rw [wp_pure]
    exact refused s sound (fun _ _ => rfl) rfl rfl
  | some p =>
    have unused : (s.proc p).state = .UNUSED := by simpa using List.find?_some search
    obtain ⟨noTable, noFrame, noSize⟩ := (sound.ok p).unused unused
    simp only [wp_bind, wp_setProc]
    have draft : Draft pf h s p 0 { s with
        proc := update s.proc p { s.proc p with state := .USED } } := by
      refine ⟨?_, unused, ?_, rfl, ?_, ?_, ?_⟩
      · have ok : ({ s.proc p with state := .USED } : Proc).Ok :=
          ⟨(by simp), fun some => absurd noTable some, fun _ => noSize⟩
        exact sound.setProc ok rfl rfl rfl rfl rfl
      · intro q different
        exact update_of_ne different ..
      · simp
      · simpa using noTable
      · simpa using noFrame
    generalize { s with
      proc := update s.proc p { s.proc p with state := .USED } } = current at draft
    have size := (draft.sound.ok p).empty draft.table
    have frameless : keptOf current.proc h (.trapframe p) = none := by
      rw [keptOf, Proc.frame_none draft.frame]
    refine draft.sound.sane.accounted.wp_kalloc frameless ?_ ?_
    · intro after quiet
      have here := congrFun quiet.processes p
      have undone : Draft pf h s p 0 { after with
          proc := update after.proc p { after.proc p with trapframe := 0 } } := by
        refine draft.update (by rw [here]; exact draft.used) (by rw [here]; exact draft.table)
          (by rw [here]; exact size) rfl ?_ quiet.processes quiet.first
        rw [Proc.frame_none rfl, ← frameless, update_eq_self]
        exact draft.sound.sane.same quiet
      rw [if_pos rfl]
      exact undone.wp_undo refused
    · intro page after isPage quiet
      have here := congrFun quiet.processes p
      have framed : Draft pf h s p page { after with
          proc := update after.proc p { after.proc p with trapframe := page } } := by
        refine draft.update (by rw [here]; exact draft.used) (by rw [here]; exact draft.table)
          (by rw [here]; exact size) rfl ?_ quiet.processes quiet.first
        rw [Proc.frame_some isPage.nonzero]
        exact draft.sound.sane.same quiet
      rw [if_neg isPage.nonzero]
      exact framed.wp_pagetable isPage refused fun after => made p after unused

end Allocproc

theorem Sound.resize (sound : Sound pf h s) (live : (s.proc p).pagetable ≠ 0) {sz : Nat}
    (sane : Sane pf after (update (spacesOf s.proc h) (.proc p)
      (some ⟨(s.proc p).pagetable, sz, (s.proc p).trapframe⟩)) (keptOf s.proc h))
    (processes : after.proc = s.proc) :
    Sound pf h { after with
      proc := update after.proc p { after.proc p with sz := sz } } := by
  have here := congrFun processes p
  have table : ({ after.proc p with sz := sz } : Proc).pagetable ≠ 0 := by
    rw [here]
    exact live
  refine sound.install ⟨?_, ?_, fun none => absurd none table⟩ ?_ processes
  · intro unused
    rw [here] at unused
    exact absurd unused (sound.inUse live)
  · intro _
    rw [here]
    exact (sound.ok p).framed live
  · have frame : ({ after.proc p with sz := sz } : Proc).frame = keptOf s.proc h (.trapframe p) := by
      rw [here]
      rfl
    rw [frame, update_eq_self, Proc.space_some table, here]
    exact sane

theorem addInt_eq {sz : Nat} {n : Int} (low : 0 ≤ (sz : Int) + n) (high : (sz : Int) + n < 2 ^ 64) :
    (addInt sz n : Int) = sz + n := by
  rw [addInt]
  omega

def Kernel.setSize (s : Kernel) (p sz : Nat) : Kernel :=
  { s with proc := update s.proc p { s.proc p with sz := sz } }

theorem Kernel.setSize_same (s : Kernel) (p : Nat) : s.setSize p (s.proc p).sz = s := by
  have same : update s.proc p { s.proc p with sz := (s.proc p).sz } = s.proc :=
    update_eq_self p s.proc
  rw [Kernel.setSize, same]

theorem Sound.wp_growproc_cases (sound : Sound pf h s) (live : (s.proc p).pagetable ≠ 0) {n : Int}
    (fits : 0 < n → ((s.proc p).sz : Int) + n ≤ TRAPFRAME) {post : Int → Kernel → Prop}
    (refused : ∀ after, 0 < n → Sound pf h after →
      Cleared pf s (rootsOf (spacesOf s.proc h)) (keptOf s.proc h) (.proc p)
        (PGROUNDUP (s.proc p).sz) TRAPFRAME after → post (-1) after)
    (grown : ∀ after, 0 < n →
      Sound pf h (after.setSize p (addInt (s.proc p).sz n)) →
      Filled pf s (rootsOf (spacesOf s.proc h)) (keptOf s.proc h) (.proc p)
        (PGROUNDUP (s.proc p).sz) (PGROUNDUP (addInt (s.proc p).sz n))
        (PTE_R ||| PTE_U ||| PTE_W ||| PTE_V) after →
      post 0 (after.setSize p (addInt (s.proc p).sz n)))
    (shrunk : ∀ after, n < 0 → addInt (s.proc p).sz n < (s.proc p).sz →
      Sound pf h (after.setSize p (addInt (s.proc p).sz n)) →
      Emptied pf s (rootsOf (spacesOf s.proc h)) (keptOf s.proc h) (.proc p)
        (PGROUNDUP (addInt (s.proc p).sz n)) (PGROUNDUP (s.proc p).sz) after →
      post 0 (after.setSize p (addInt (s.proc p).sz n)))
    (unchanged : n = 0 ∨ n < 0 ∧ (s.proc p).sz ≤ addInt (s.proc p).sz n → post 0 s) :
    wp (growproc pf p n) post stop s := by
  have owner := spacesOf_proc (h := h) live
  have space := sound.sane.space _ _ owner
  simp only [growproc, wp_bind, wp_get]
  by_cases grows : n > 0
  · have fits := fits grows
    have small : (TRAPFRAME : Int) < 2 ^ 64 := by decide
    have sum : (addInt (s.proc p).sz n : Int) = (s.proc p).sz + n := addInt_eq (by omega) (by omega)
    have bounded : addInt (s.proc p).sz n ≤ TRAPFRAME := by omega
    rw [if_pos grows, wp_bind]
    refine sound.sane.wp_uvmalloc owner (roomy_of_le bounded) rfl rfl (by constructor <;> decide)
      ?_ ?_ ?_
    · intro smaller
      have order : addInt (s.proc p).sz n < (s.proc p).sz := smaller
      omega
    · intro after sane cleared
      simp only [↓reduceIte, wp_pure]
      exact refused after grows (sound.renew sane cleared.within.processes) cleared
    · intro after _ _ sane filled
      have nonzero : addInt (s.proc p).sz n ≠ 0 := by omega
      simp only [nonzero, ↓reduceIte, wp_bind, wp_setProc, wp_pure]
      exact grown after grows (sound.resize live sane filled.within.processes) filled
  · rw [if_neg grows]
    by_cases shrinks : n < 0
    · rw [if_pos shrinks, wp_bind]
      refine sound.sane.wp_uvmdealloc owner rfl ?_ ?_
      · intro larger
        have settled := unchanged (.inr ⟨shrinks, larger⟩)
        rw [← s.setSize_same p] at settled
        simp only [wp_bind, wp_setProc, wp_pure]
        exact settled
      · intro after smaller sane emptied
        simp only [wp_bind, wp_setProc, wp_pure]
        exact shrunk after shrinks smaller (sound.resize live sane emptied.within.processes) emptied
    · rw [if_neg shrinks, wp_pure]
      exact unchanged (.inl (by omega))

theorem Sound.wp_growproc (sound : Sound pf h s) (live : (s.proc p).pagetable ≠ 0) {n : Int}
    (fits : 0 < n → ((s.proc p).sz : Int) + n ≤ TRAPFRAME) :
    wp (growproc pf p n) (fun _ after => Sound pf h after) stop s :=
  sound.wp_growproc_cases live fits (fun _ _ sound' _ => sound') (fun _ _ sound' _ => sound')
    (fun _ _ _ sound' _ => sound') fun _ => sound

theorem Sound.raise (sound : Sound pf h s) (live : (s.proc p).pagetable ≠ 0) {n : Int}
    (grows : 0 ≤ n) (fits : ((s.proc p).sz : Int) + n ≤ TRAPFRAME) :
    Sound pf h (s.setSize p (addInt (s.proc p).sz n)) := by
  have owner := spacesOf_proc (h := h) live
  have small : (TRAPFRAME : Int) < 2 ^ 64 := by decide
  have sum : (addInt (s.proc p).sz n : Int) = (s.proc p).sz + n := addInt_eq (by omega) (by omega)
  refine sound.resize live ?_ rfl
  refine sound.sane.change (Quiet.refl sound.sane.accounted) owner
    (fun _ _ nowhere => nowhere.elim) ?_
  have bounded : addInt (s.proc p).sz n ≤ TRAPFRAME := by omega
  have larger : (s.proc p).sz ≤ addInt (s.proc p).sz n := by omega
  exact (sound.sane.space _ _ owner).filled bounded larger fun _ _ _ => rfl

theorem Sound.wp_sysSbrk (sound : Sound pf h s) (live : (s.proc p).pagetable ≠ 0) {n t : Int}
    (fits : 0 ≤ n → ((s.proc p).sz : Int) + n ≤ TRAPFRAME) :
    wp (sysSbrk pf p n t) (fun _ after => Sound pf h after) stop s := by
  simp only [sysSbrk, wp_bind, wp_get]
  by_cases eager : t = SBRK_EAGER ∨ n < 0
  · rw [if_pos eager, wp_bind]
    refine wp_post (sound.wp_growproc live fun grows => fits (by omega)) ?_
    intro result after sound'
    split
    · rw [wp_pure]
      exact sound'
    · rw [wp_pure]
      exact sound'
  · rw [if_neg eager]
    split
    · rw [wp_pure]
      exact sound
    · have grows : 0 ≤ n := by omega
      simp only [wp_bind, wp_setProc, wp_pure]
      exact sound.raise live grows (fits grows)

theorem Sound.wp_vmfault (sound : Sound pf h s) (live : (s.proc p).pagetable ≠ 0) :
    wp (vmfault pf p (s.proc p).pagetable va) (fun _ after => Sound pf h after) stop s :=
  sound.sane.wp_vmfault (spacesOf_proc live) rfl rfl rfl rfl
    (fun _ sane processes _ => sound.renew sane processes)
    fun _ _ _ sane processes _ _ => sound.renew sane processes

theorem Sound.wp_copyout (sound : Sound pf h s) (live : (s.proc p).pagetable ≠ 0) (dstva : Nat)
    (src : ByteMap) (len : Nat) :
    wp (copyout pf p (s.proc p).pagetable dstva src len)
      (fun _ after => Sound pf h after ∧ after.proc = s.proc) stop s := by
  refine wp_post (sound.sane.wp_copyout (spacesOf_proc live) rfl rfl rfl rfl dstva src len) ?_
  rintro result after ⟨sane, processes, -⟩
  exact ⟨sound.renew sane processes, processes⟩

theorem Sound.wp_copyin (sound : Sound pf h s) (live : (s.proc p).pagetable ≠ 0)
    (srcva len : Nat) :
    wp (copyin pf p (s.proc p).pagetable srcva len) (fun _ after => Sound pf h after) stop s := by
  refine wp_post (sound.sane.wp_copyin (spacesOf_proc live) rfl rfl rfl rfl srcva len) ?_
  rintro result after ⟨sane, processes, -⟩
  exact sound.renew sane processes

theorem Sound.writeFrame (sound : Sound pf h s) (page : (s.proc p).trapframe ≠ 0) {mem : ByteMap}
    (changed : ChangedIn s.mem mem (s.proc p).trapframe) : Sound pf h { s with mem := mem } := by
  have holds : keptOf s.proc h (.trapframe p) = some (s.proc p).trapframe := Proc.frame_some page
  exact sound.renew (sound.sane.same (sound.sane.accounted.scribble holds changed)) rfl

theorem Sound.relabel (sound : Sound pf h s) {proc : Nat → Proc}
    (space : ∀ q, (proc q).space = (s.proc q).space)
    (frame : ∀ q, (proc q).frame = (s.proc q).frame) (ok : ∀ q, (proc q).Ok) :
    Sound pf h { s with proc := proc } := by
  have spaces : spacesOf proc h = spacesOf s.proc h := by
    funext o
    cases o with
    | proc q => exact space q
    | building => rfl
    | loose l => rfl
  have frames : keptOf proc h = keptOf s.proc h := by
    funext k
    cases k with
    | trapframe q => exact frame q
    | hand => rfl
    | node => rfl
    | kernel n => rfl
  refine ⟨?_, ok⟩
  rw [spaces, frames]
  exact sound.sane.transport rfl rfl

def Forked (s after : Kernel) (result : Option Nat) : Prop :=
  match result with
  | none => after.states = s.states
  | some np => s.states np = .UNUSED ∧ after.states = update s.states np .RUNNABLE

/-- The law of `kfork`. -/
theorem Sound.wp_kfork (sound : Sound pf h s) (live : (s.proc p).pagetable ≠ 0) :
    wp (kfork pf p) (fun result after => Sound pf h after ∧ Forked s after result) stop s := by
  rw [kfork, wp_bind]
  refine sound.wp_allocproc ?_ ?_
  · intro after sound' _ same _
    rw [wp_pure]
    exact ⟨sound', same⟩
  · intro np after unused sound' others used table size _
    have different : p ≠ np := by
      rintro rfl
      exact sound.inUse live unused
    have parent : after.proc p = s.proc p := others p different
    have live' : (after.proc p).pagetable ≠ 0 := by rwa [parent]
    have owner := spacesOf_proc (h := h) live'
    have child := spacesOf_proc (h := h) table
    have bounded := (sound'.sane.space _ _ owner).bounded
    simp only [wp_bind, wp_get]
    refine sound'.sane.wp_uvmcopy owner child size bounded rfl rfl ?_ ?_
    · intro failed sane processes _
      simp only [Int.reduceNeg, Int.reduceLT, ↓reduceIte, wp_bind]
      refine (sound'.renew sane processes).wp_freeproc np fun last sound'' freed _ => ?_
      rw [wp_pure]
      refine ⟨sound'', funext fun q => ?_⟩
      simp only [Kernel.states, freed]
      by_cases same : q = np
      · rw [same, update_self, unused]
        rfl
      · rw [update_of_ne same, processes, others q same]
    · intro copied sane processes _
      rw [if_neg (Int.lt_irrefl 0), wp_bind, wp_setProc]
      have resized := sound'.resize table sane processes
      have here : update copied.proc np { copied.proc np with sz := (after.proc p).sz } np =
          { after.proc np with sz := (after.proc p).sz } := by
        rw [processes]
        exact update_self ..
      have elsewhere : ∀ q, q ≠ np →
          update copied.proc np { copied.proc np with sz := (after.proc p).sz } q = s.proc q := by
        intro q other
        rw [update_of_ne other, processes, others q other]
      generalize shape : { copied with
        proc := update copied.proc np { copied.proc np with sz := (after.proc p).sz } } =
        current at resized
      have same : (current.proc np).trapframe = (after.proc np).trapframe := by
        rw [← shape]
        exact (congrArg Proc.trapframe here).trans rfl
      have live'' : (current.proc np).pagetable ≠ 0 := by
        rw [← shape]
        exact fun none => table ((congrArg Proc.pagetable here).symm.trans none)
      have sizes : 0 + trapframeSize ≤ PGSIZE ∧ trapframeA0 + 8 ≤ PGSIZE := by decide
      simp only [wp_bind, wp_setMem, wp_storeWord, wp_setProc, wp_pure]
      rw [← same]
      have copyChanged : ChangedIn current.mem (copy current.mem ((current.proc np).trapframe + 0)
          current.mem (after.proc p).trapframe trapframeSize) (current.proc np).trapframe :=
        changedIn_copy current.mem current.mem sizes.1
      have written := resized.writeFrame ((resized.ok np).framed live'')
        (copyChanged.trans (changedIn_store _ 0 sizes.2))
      have ok : ({ current.proc np with parent := some p, state := .RUNNABLE } : Proc).Ok :=
        ⟨(by simp), (resized.ok np).framed, (resized.ok np).empty⟩
      refine ⟨written.setProc ok rfl rfl rfl rfl rfl, unused, funext fun q => ?_⟩
      by_cases same : q = np
      · simp only [Kernel.states, same, update_self]
      · have unchanged : current.proc q = s.proc q := by
          rw [← shape]
          exact elsewhere q same
        simp only [Kernel.states, update_of_ne same, unchanged]

theorem Sound.wp_reparent (sound : Sound pf h s) (p : Nat) :
    wp (reparent p) (fun _ after => Sound pf h after ∧ after.states = s.states) stop s := by
  have adopted : ∀ q, ∃ parent, (if (s.proc q).parent = some p then
      { s.proc q with parent := s.initproc } else s.proc q) = { s.proc q with parent := parent } := by
    intro q
    split
    · exact ⟨_, rfl⟩
    · exact ⟨(s.proc q).parent, rfl⟩
  rw [reparent, wp_modify]
  refine ⟨sound.relabel ?_ ?_ ?_, funext fun q => ?_⟩
  · intro q
    obtain ⟨parent, same⟩ := adopted q
    rw [same]
    rfl
  · intro q
    obtain ⟨parent, same⟩ := adopted q
    rw [same]
    rfl
  · intro q
    obtain ⟨parent, same⟩ := adopted q
    rw [same]
    exact ⟨(sound.ok q).unused, (sound.ok q).framed, (sound.ok q).empty⟩
  · obtain ⟨parent, same⟩ := adopted q
    simp only [Kernel.states, same]

/-- The law of `kexit`. -/
theorem Sound.wp_kexit (sound : Sound pf h s) (p : Nat) (status : Int)
    (init : s.initproc = some p → stop .initExiting) :
    wp (kexit p status)
      (fun _ after => Sound pf h after ∧ after.states = update s.states p .ZOMBIE) stop s := by
  rw [kexit, wp_bind, wp_get]
  split
  · rename_i first
    rw [wp_throw]
    exact init first
  · rw [wp_bind]
    refine wp_post (sound.wp_reparent p) ?_
    rintro _ after ⟨sound', same⟩
    have ok : ({ after.proc p with xstate := status, state := .ZOMBIE } : Proc).Ok :=
      ⟨(by simp), (sound'.ok p).framed, (sound'.ok p).empty⟩
    rw [wp_setProc]
    refine ⟨sound'.setProc ok rfl rfl rfl rfl rfl, funext fun q => ?_⟩
    by_cases own : q = p
    · simp only [Kernel.states, own, update_self]
    · have unchanged := congrFun same q
      simp only [Kernel.states] at unchanged
      simp only [Kernel.states, update_of_ne own, unchanged]

def Waited (s after : Kernel) (result : Option Nat) : Prop :=
  match result with
  | none => after.states = s.states
  | some q => s.states q = .ZOMBIE ∧ after.states = update s.states q .UNUSED

theorem Waited.freed (exited : s.states q = .ZOMBIE)
    (processes : after.proc = update s.proc q Proc.free) : Waited s after (some q) := by
  refine ⟨exited, funext fun r => ?_⟩
  by_cases same : r = q
  · simp only [Kernel.states, processes, same, update_self]
    rfl
  · rw [update_of_ne same, Kernel.states, processes, update_of_ne same, Kernel.states]

/-- The law of one scan of `wait`. -/
theorem Sound.wp_kwait (sound : Sound pf h s) (live : (s.proc p).pagetable ≠ 0) (addr : Nat) :
    wp (kwait pf p addr) (fun result after => Sound pf h after ∧ Waited s after result) stop s := by
  simp only [kwait, wp_bind, wp_get]
  cases search : (List.range NPROC).find? fun q =>
      (s.proc q).parent = some p && (s.proc q).state = .ZOMBIE with
  | none =>
    rw [wp_pure]
    exact ⟨sound, rfl⟩
  | some q =>
    have exited : s.states q = .ZOMBIE := by
      have found := List.find?_some search
      simp only [Bool.and_eq_true, decide_eq_true_eq] at found
      exact found.2
    by_cases given : addr ≠ 0
    · simp only [given, ↓reduceIte, ne_eq, not_false_eq_true, wp_bind]
      refine wp_post (sound.wp_copyout live addr _ 4) ?_
      rintro stored after ⟨sound', processes⟩
      split
      · rw [wp_pure]
        exact ⟨sound', funext fun r => congrArg Proc.state (congrFun processes r)⟩
      · rw [wp_bind]
        refine sound'.wp_freeproc q fun last sound'' freed _ => ?_
        rw [wp_pure]
        exact ⟨sound'', Waited.freed exited (by rw [freed, processes])⟩
    · simp only [given, ↓reduceIte, wp_bind, wp_pure, Int.lt_irrefl]
      refine sound.wp_freeproc q fun last sound'' freed _ => ?_
      exact ⟨sound'', Waited.freed exited freed⟩

end Xv6.Vm
