import Xv6.Library.Transition
import Xv6.Vm.Exec

/-!
# No page is lost or shared

A machine is a kernel state together with the pages that callers keep outside the process table:
page tables that belong to no process, and pages of other parts of the kernel.
-/

namespace Xv6.Vm

open Command Bytes Ownership Xv6.Tree Transition Function

structure Machine where
  kernel : Kernel
  holdings : Holdings

def Machine.spaces (m : Machine) : Owner → Option AddressSpace := spacesOf m.kernel.proc m.holdings

def Holdings.setLoose (h : Holdings) (l : Nat) (a : Option AddressSpace) : Holdings :=
  { h with loose := update h.loose l a }

def Holdings.setOther (h : Holdings) (n : Nat) (page : Option Nat) : Holdings :=
  { h with other := update h.other n page }

/-- Calls of the procedures that take and give pages. -/
inductive Call where
  | allocproc
  | freeproc (p : Nat)
  | procPagetable (p l : Nat)
  | procFreepagetable (l : Nat)
  | uvmalloc (l newsz xperm : Nat)
  | uvmdealloc (l newsz : Nat)
  | uvmcopy (o : Owner) (l sz : Nat)
  | vmfault (p va : Nat)
  | copyin (p srcva len : Nat)
  | copyout (p dstva : Nat) (src : ByteMap) (len : Nat)
  | sbrk (p : Nat) (n t : Int)
  | fork (p : Nat)
  | exit (p : Nat) (status : Int)
  | wait (p addr : Nat)
  | exec (p : Nat) (file : Option Program) (argv : List (List UInt8))
  | kalloc (n : Nat)
  | kfree (n : Nat)

def Call.run (pf : Platform) (m : Machine) : Call → VmM Holdings
  | .allocproc => do
    let _ ← Vm.allocproc pf
    pure m.holdings
  | .freeproc p => do
    Vm.freeproc pf p
    pure m.holdings
  | .procPagetable p l => do
    let root ← Vm.procPagetable pf p
    if root = 0 then pure m.holdings
    else pure (m.holdings.setLoose l (some ⟨root, 0, (m.kernel.proc p).trapframe⟩))
  | .procFreepagetable l =>
    match m.holdings.loose l with
    | none => pure m.holdings
    | some a => do
      Vm.procFreepagetable pf a.root a.sz
      pure (m.holdings.setLoose l none)
  | .uvmalloc l newsz xperm =>
    match m.holdings.loose l with
    | none => pure m.holdings
    | some a => do
      let sz ← Vm.uvmalloc pf a.root a.sz newsz xperm
      if sz = 0 then pure m.holdings else pure (m.holdings.setLoose l (some { a with sz := sz }))
  | .uvmdealloc l newsz =>
    match m.holdings.loose l with
    | none => pure m.holdings
    | some a => do
      let sz ← Vm.uvmdealloc pf a.root a.sz newsz
      pure (m.holdings.setLoose l (some { a with sz := sz }))
  | .uvmcopy o l sz =>
    match m.spaces o, m.holdings.loose l with
    | some old, some new => do
      if (← Vm.uvmcopy pf old.root new.root sz) < 0 then pure m.holdings
      else pure (m.holdings.setLoose l (some { new with sz := sz }))
    | _, _ => pure m.holdings
  | .vmfault p va => do
    let _ ← Vm.vmfault pf p (m.kernel.proc p).pagetable va
    pure m.holdings
  | .copyin p srcva len => do
    let _ ← Vm.copyin pf p (m.kernel.proc p).pagetable srcva len
    pure m.holdings
  | .copyout p dstva src len => do
    let _ ← Vm.copyout pf p (m.kernel.proc p).pagetable dstva src len
    pure m.holdings
  | .sbrk p n t => do
    let _ ← sysSbrk pf p n t
    pure m.holdings
  | .fork p => do
    let _ ← kfork pf p
    pure m.holdings
  | .exit p status => do
    kexit p status
    pure m.holdings
  | .wait p addr => do
    let _ ← kwait pf p addr
    pure m.holdings
  | .exec p file argv => do
    let _ ← kexec pf p file argv
    pure m.holdings
  | .kalloc n => do
    let page ← Vm.kalloc pf
    pure (m.holdings.setOther n (if page = 0 then none else some page))
  | .kfree n =>
    match m.holdings.other n with
    | none => pure m.holdings
    | some page => do
      Vm.kfree pf page
      pure (m.holdings.setOther n none)

def Machine.Live (m : Machine) (p : Nat) : Prop := (m.kernel.proc p).pagetable ≠ 0

def Call.Permitted (m : Machine) : Call → Prop
  | .allocproc => True
  | .freeproc _ => True
  | .procPagetable _ l => m.holdings.loose l = none
  | .procFreepagetable _ => True
  | .uvmalloc _ newsz xperm => newsz ≤ TRAPFRAME ∧ xperm < 2 ^ 10
  | .uvmdealloc _ _ => True
  | .uvmcopy _ l sz => sz ≤ TRAPFRAME ∧ ∀ a, m.holdings.loose l = some a → a.sz = 0
  | .vmfault p _ => m.Live p
  | .copyin p _ _ => m.Live p
  | .copyout p _ _ _ => m.Live p
  | .sbrk p n _ => m.Live p ∧ (0 ≤ n → ((m.kernel.proc p).sz : Int) + n ≤ TRAPFRAME)
  | .fork p => m.Live p
  | .exit p _ => m.Live p
  | .wait p _ => m.Live p
  | .exec p _ argv => m.Live p ∧ argv.length ≠ MAXARG ∧ ∀ arg, arg ∈ argv → arg.length < PGSIZE
  | .kalloc n => m.holdings.other n = none
  | .kfree _ => True

structure Used (m : Machine) (mem : ByteMap) : Prop where
  tables : SameTables m.kernel.mem mem (rootsOf m.spaces)
  free : ∀ pages q, FreeChain m.kernel.mem m.kernel.freelist pages → q ∈ pages →
    SamePage m.kernel.mem mem q

/-- One step of a machine. -/
inductive Step (pf : Platform) : Machine → Machine → Prop
  | call {m : Machine} (call : Call) (permitted : call.Permitted m) {h : Holdings} {k : Kernel}
      (ran : call.run pf m m.kernel = .ok (h, k)) : Step pf m ⟨k, h⟩
  | use {m : Machine} {mem : ByteMap} (used : Used m mem) :
      Step pf m { m with kernel := { m.kernel with mem := mem } }

variable {pf : Platform} {m : Machine} {h : Holdings} {s after : Kernel} {proc : Nat → Proc}
  {stop : Panic → Prop} {l n : Nat}

theorem spacesOf_setLoose (proc : Nat → Proc) (h : Holdings) (l : Nat) (a : Option AddressSpace) :
    spacesOf proc (h.setLoose l a) = update (spacesOf proc h) (.loose l) a := by
  funext o
  cases o with
  | proc p => simp [spacesOf]
  | building => simp [spacesOf]
  | loose l' =>
    by_cases same : l' = l
    · subst same
      simp [spacesOf, Holdings.setLoose]
    · simp [spacesOf, Holdings.setLoose, same]

theorem keptOf_setOther (proc : Nat → Proc) (h : Holdings) (n : Nat) (page : Option Nat) :
    keptOf proc (h.setOther n page) = update (keptOf proc h) (.kernel n) page := by
  funext k
  cases k with
  | trapframe p => simp [keptOf]
  | hand => simp [keptOf]
  | node => simp [keptOf]
  | kernel n' =>
    by_cases same : n' = n
    · subst same
      simp [keptOf, Holdings.setOther]
    · simp [keptOf, Holdings.setOther, same]

theorem Sound.setLoose (sound : Sound pf h s) {a : Option AddressSpace}
    (sane : Sane pf after (update (spacesOf s.proc h) (.loose l) a) (keptOf s.proc h))
    (processes : after.proc = s.proc) : Sound pf (h.setLoose l a) after := by
  refine ⟨?_, ?_⟩
  · rw [processes, spacesOf_setLoose]
    exact sane
  · rw [processes]
    exact sound.ok

theorem Sound.setOther (sound : Sound pf h s) {page : Option Nat}
    (same : SameMappings pf s (rootsOf (spacesOf s.proc h))
      (update (keptOf s.proc h) (.kernel n) page) after) :
    Sound pf (h.setOther n page) after := by
  refine ⟨?_, ?_⟩
  · rw [same.processes, keptOf_setOther]
    exact sound.sane.same same
  · rw [same.processes]
    exact sound.ok

theorem Sound.frame_small (sound : Sound pf h s) (p : Nat) : (s.proc p).trapframe < 2 ^ 32 := by
  by_cases page : (s.proc p).trapframe = 0
  · rw [page]
    decide
  · obtain ⟨pages, books⟩ := sound.sane.accounted
    exact (books.balanced.inside (.kept (.trapframe p)) _ (Proc.frame_some page)).1.small

theorem leafFlags_user {xperm : Nat} (small : xperm < 2 ^ 10) :
    LeafFlags (PTE_R ||| PTE_U ||| xperm ||| PTE_V) := by
  refine ⟨?_, ?_, ?_⟩
  · exact Nat.or_lt_two_pow (Nat.or_lt_two_pow (by decide) small) (by decide)
  · have bit : hasFlag PTE_V PTE_V = true := by decide
    rw [hasFlag_or, bit, Bool.or_true]
  · have bit : hasFlag PTE_R (PTE_R ||| PTE_W ||| PTE_X) = true := by decide
    rw [hasFlag_or, hasFlag_or, hasFlag_or, bit, Bool.true_or, Bool.true_or, Bool.true_or]

section Loose

theorem Sound.wp_procPagetable (sound : Sound pf m.holdings m.kernel) (p : Nat)
    (unowned : m.holdings.loose l = none) :
    wp (Call.run pf m (.procPagetable p l)) (Sound pf) stop m.kernel := by
  rw [Call.run, wp_bind]
  refine sound.sane.wp_procPagetable (o := .loose l) unowned rfl rfl (sound.frame_small p) ?_ ?_
  · intro after quiet
    rw [if_pos rfl, wp_pure]
    exact sound.renew (sound.sane.quiet quiet) quiet.processes
  · intro r after nonzero sane within
    rw [if_neg nonzero, wp_pure]
    exact sound.setLoose sane within.processes

theorem Sound.wp_procFreepagetable (sound : Sound pf m.holdings m.kernel) (l : Nat) :
    wp (Call.run pf m (.procFreepagetable l)) (Sound pf) stop m.kernel := by
  simp only [Call.run]
  cases owner : m.holdings.loose l with
  | none =>
    rw [wp_pure]
    exact sound
  | some a =>
    rw [wp_bind]
    refine sound.sane.wp_procFreepagetable (o := .loose l) owner rfl ?_
    intro after sane quiet
    rw [wp_pure]
    exact sound.setLoose sane quiet.processes

theorem Sound.wp_uvmalloc (sound : Sound pf m.holdings m.kernel) (l : Nat) {newsz xperm : Nat}
    (bounded : newsz ≤ TRAPFRAME) (small : xperm < 2 ^ 10) :
    wp (Call.run pf m (.uvmalloc l newsz xperm)) (Sound pf) stop m.kernel := by
  simp only [Call.run]
  cases owner : m.holdings.loose l with
  | none =>
    rw [wp_pure]
    exact sound
  | some a =>
    have mine : spacesOf m.kernel.proc m.holdings (.loose l) = some a := owner
    rw [wp_bind]
    refine sound.sane.wp_uvmalloc mine (roomy_of_le bounded) rfl rfl (leafFlags_user small)
      ?_ ?_ ?_
    · intro smaller
      rw [if_neg (Nat.ne_of_gt (Nat.lt_of_le_of_lt (Nat.zero_le _) smaller)), wp_pure]
      refine sound.setLoose ?_ rfl
      rw [← mine, update_eq_self]
      exact sound.sane
    · intro after sane cleared
      rw [if_pos rfl, wp_pure]
      exact sound.renew sane cleared.within.processes
    · intro after larger _ sane filled
      have processes := filled.within.processes
      split
      · rename_i empty
        have unchanged : ({ a with sz := newsz } : AddressSpace) = a := by
          have none : a.sz = newsz := by omega
          rw [← none]
        rw [wp_pure]
        refine sound.renew ?_ processes
        rwa [unchanged, ← mine, update_eq_self] at sane
      · rw [wp_pure]
        exact sound.setLoose sane processes

theorem Sound.wp_uvmdealloc (sound : Sound pf m.holdings m.kernel) (l newsz : Nat) :
    wp (Call.run pf m (.uvmdealloc l newsz)) (Sound pf) stop m.kernel := by
  simp only [Call.run]
  cases owner : m.holdings.loose l with
  | none =>
    rw [wp_pure]
    exact sound
  | some a =>
    have mine : spacesOf m.kernel.proc m.holdings (.loose l) = some a := owner
    rw [wp_bind]
    refine sound.sane.wp_uvmdealloc mine rfl ?_ ?_
    · intro _
      rw [wp_pure]
      refine sound.setLoose ?_ rfl
      rw [← mine, update_eq_self]
      exact sound.sane
    · intro after _ sane emptied
      rw [wp_pure]
      exact sound.setLoose sane emptied.within.processes

theorem Sound.wp_uvmcopy (sound : Sound pf m.holdings m.kernel) (o : Owner) {sz : Nat}
    (bounded : sz ≤ TRAPFRAME) (empty : ∀ a, m.holdings.loose l = some a → a.sz = 0) :
    wp (Call.run pf m (.uvmcopy o l sz)) (Sound pf) stop m.kernel := by
  simp only [Call.run]
  split
  · rename_i old new source target
    rw [wp_bind]
    have loose : m.spaces (.loose l) = some new := target
    refine sound.sane.wp_uvmcopy source loose (empty new target) bounded rfl rfl ?_ ?_
    · intro after sane processes _
      rw [if_pos (by decide), wp_pure]
      exact sound.renew sane processes
    · intro after sane processes _
      rw [if_neg (by decide), wp_pure]
      exact sound.setLoose sane processes
  · rw [wp_pure]
    exact sound

theorem Sound.wp_kalloc (sound : Sound pf m.holdings m.kernel)
    (empty : m.holdings.other n = none) :
    wp (Call.run pf m (.kalloc n)) (Sound pf) stop m.kernel := by
  have none : keptOf m.kernel.proc m.holdings (.kernel n) = none := empty
  rw [Call.run, wp_bind]
  refine sound.sane.accounted.wp_kalloc none ?_ ?_
  · intro after quiet
    rw [wp_pure, if_pos rfl]
    refine sound.setOther ?_
    rwa [← none, update_eq_self]
  · intro q after page quiet
    rw [wp_pure, if_neg page.nonzero]
    exact sound.setOther quiet

theorem Sound.wp_kfree (sound : Sound pf m.holdings m.kernel) (n : Nat) :
    wp (Call.run pf m (.kfree n)) (Sound pf) stop m.kernel := by
  simp only [Call.run]
  cases owner : m.holdings.other n with
  | none =>
    rw [wp_pure]
    exact sound
  | some page =>
    have mine : keptOf m.kernel.proc m.holdings (.kernel n) = some page := owner
    rw [wp_bind]
    refine sound.sane.accounted.wp_kfree mine fun after quiet => ?_
    rw [wp_pure]
    exact sound.setOther quiet

end Loose

theorem Sound.wp_keep {α : Type} {command : VmM α}
    (law : wp command (fun _ after => Sound pf h after) stop s) :
    wp (do
      let _ ← command
      pure h) (Sound pf) stop s := by
  rw [wp_bind]
  refine wp_post law fun _ after sound => ?_
  rw [wp_pure]
  exact sound

/-- A permitted call in a sound state leaves a sound state. -/
theorem Sound.wp_call (sound : Sound pf m.holdings m.kernel) {call : Call}
    (permitted : call.Permitted m) :
    wp (call.run pf m) (Sound pf) (· = .initExiting) m.kernel := by
  cases call with
  | allocproc =>
    exact Sound.wp_keep (sound.wp_allocproc (fun _ sound' _ _ _ => sound')
      fun _ _ _ sound' _ _ _ _ _ => sound')
  | freeproc p => exact Sound.wp_keep (sound.wp_freeproc p fun _ sound' _ _ => sound')
  | procPagetable p l => exact sound.wp_procPagetable p permitted
  | procFreepagetable l => exact sound.wp_procFreepagetable l
  | uvmalloc l newsz xperm => exact sound.wp_uvmalloc l permitted.1 permitted.2
  | uvmdealloc l newsz => exact sound.wp_uvmdealloc l newsz
  | uvmcopy o l sz => exact sound.wp_uvmcopy o permitted.1 permitted.2
  | vmfault p va => exact Sound.wp_keep (sound.wp_vmfault permitted)
  | copyin p srcva len => exact Sound.wp_keep (sound.wp_copyin permitted srcva len)
  | copyout p dstva src len =>
    exact Sound.wp_keep (wp_post (sound.wp_copyout permitted dstva src len)
      fun _ _ sound' => sound'.1)
  | sbrk p n t => exact Sound.wp_keep (sound.wp_sysSbrk permitted.1 permitted.2)
  | fork p =>
    exact Sound.wp_keep (wp_post (sound.wp_kfork permitted) fun _ _ sound' => sound'.1)
  | exit p status =>
    exact Sound.wp_keep (wp_post (sound.wp_kexit p status fun _ => rfl) fun _ _ sound' => sound'.1)
  | wait p addr =>
    exact Sound.wp_keep (wp_post (sound.wp_kwait permitted addr) fun _ _ sound' => sound'.1)
  | exec p file argv =>
    obtain ⟨live, few, short⟩ := permitted
    exact Sound.wp_keep (sound.wp_kexec live file argv
      (fun arg member => Nat.lt_trans (short arg member) (by decide)) fun wrong => absurd wrong few)
  | kalloc n => exact sound.wp_kalloc permitted
  | kfree n => exact sound.wp_kfree n

theorem Sound.use (sound : Sound pf m.holdings m.kernel) {mem : ByteMap} (used : Used m mem) :
    Sound pf m.holdings { m.kernel with mem := mem } := by
  obtain ⟨pages, books⟩ := sound.sane.accounted
  refine sound.renew ⟨⟨pages, books.frame used.tables fun q => used.free pages q books.chain⟩, ?_⟩
    rfl
  intro o a owner
  refine (sound.sane.space o a owner).congr fun va _ => ?_
  exact used.tables.leaf_eq (rootsOf_some owner) va

theorem Sound.step {m' : Machine} (sound : Sound pf m.holdings m.kernel) (step : Step pf m m') :
    Sound pf m'.holdings m'.kernel := by
  cases step with
  | call call permitted ran => exact wp_returned (sound.wp_call permitted) ran
  | use used => exact sound.use used

section Boot

def beforeBoot (mem : ByteMap) : Kernel := ⟨mem, 0, 0, 0, fun _ => Proc.free, none⟩

def noHoldings : Holdings := ⟨fun _ => none, fun _ => none⟩

def bootPage (pf : Platform) (k : Nat) : Nat := PGROUNDUP pf.kernelEnd + k * PGSIZE

def bootPages (pf : Platform) : Nat := (PHYSTOP - PGROUNDUP pf.kernelEnd) / PGSIZE

def atBoot (pf : Platform) (from_ : Nat) : Keeper → Option Nat
  | .kernel k => if from_ ≤ k ∧ k < bootPages pf then some (bootPage pf k) else none
  | _ => none

theorem kernelEnd_round (pf : Platform) :
    PGROUNDUP pf.kernelEnd % PGSIZE = 0 ∧ pf.kernelEnd ≤ PGROUNDUP pf.kernelEnd ∧
      PGROUNDUP pf.kernelEnd < pf.kernelEnd + PGSIZE ∧ PGROUNDUP pf.kernelEnd ≤ PHYSTOP := by
  have ram := pf.ram
  simp only [PGROUNDUP, add64, PGSIZE, PHYSTOP, KERNBASE] at *
  omega

theorem isPage_iff_bootPage {q : Nat} :
    IsPage pf q ↔ ∃ k, k < bootPages pf ∧ q = bootPage pf k := by
  obtain ⟨aligned, lower, upper, bound⟩ := kernelEnd_round pf
  simp only [bootPages, bootPage, IsPage]
  generalize PGROUNDUP pf.kernelEnd = first at *
  simp only [PGSIZE, PHYSTOP, KERNBASE] at *
  constructor
  · rintro ⟨page, low, high⟩
    exact ⟨(q - first) / 4096, by omega, by omega⟩
  · rintro ⟨k, inside, rfl⟩
    omega

theorem bootPage_injective {j k : Nat} (same : bootPage pf j = bootPage pf k) : j = k := by
  simp only [bootPage, PGSIZE] at same
  omega

/-- Before `kinit` every page is with its keeper. -/
theorem accounted_beforeBoot (mem : ByteMap) :
    Accounted pf (beforeBoot mem) (fun _ => none) (atBoot pf 0) := by
  have place : ∀ place q, held mem (fun _ => none) (atBoot pf 0) place = some q →
      ∃ k, place = .kept (.kernel k) ∧ k < bootPages pf ∧ bootPage pf k = q := by
    intro place q holds
    cases place with
    | page o path => simp [held] at holds
    | kept keeper =>
      cases keeper with
      | kernel k =>
        simp only [held, atBoot, Option.ite_none_right_eq_some, Option.some.injEq] at holds
        exact ⟨k, rfl, holds.1.2, holds.2⟩
      | trapframe p | hand | node => simp [held, atBoot] at holds
  refine ⟨[], rfl, List.nodup_nil, by simp, ⟨?_, ?_, ?_⟩, by simp⟩
  · intro position q holds
    obtain ⟨k, -, inside, rfl⟩ := place position q holds
    exact ⟨isPage_iff_bootPage.mpr ⟨k, inside, rfl⟩, by simp⟩
  · intro left right q holds holds'
    obtain ⟨j, rfl, -, rfl⟩ := place left q holds
    obtain ⟨k, rfl, -, same⟩ := place right _ holds'
    rw [bootPage_injective same]
  · intro q page _
    obtain ⟨k, inside, rfl⟩ := isPage_iff_bootPage.mp page
    exact ⟨.kept (.kernel k), by simp [held, atBoot, inside]⟩

theorem atBoot_succ {k : Nat} :
    update (atBoot pf k) (.kernel k) none = atBoot pf (k + 1) := by
  funext keeper
  cases keeper with
  | kernel j =>
    by_cases same : j = k
    · subst same
      simp [atBoot]
    · have later : k ≤ j ↔ k + 1 ≤ j := by omega
      simp [atBoot, same, later]
  | trapframe p => simp [atBoot]
  | hand => simp [atBoot]
  | node => simp [atBoot]

theorem wp_kinit (mem : ByteMap) :
    wp (kinit pf) (fun _ after => Sound pf noHoldings after) stop (beforeBoot mem) := by
  have law := wp_forRange
    (fun k after => Accounted pf after (fun _ => none) (atBoot pf k) ∧
      after.proc = fun _ => Proc.free) stop
    (fun k => kfree pf (PGROUNDUP pf.kernelEnd + k * PGSIZE)) 0
    ((PHYSTOP - PGROUNDUP pf.kernelEnd) / PGSIZE) (beforeBoot mem)
  refine wp_post (law ?_ ⟨accounted_beforeBoot mem, rfl⟩) ?_
  · rintro k before _ inside ⟨accounted, processes⟩
    rw [Nat.zero_add] at inside
    have hand : atBoot pf k (.kernel k) = some (bootPage pf k) := by simp [atBoot, inside, bootPages]
    refine accounted.wp_kfree hand fun after quiet => ?_
    rw [atBoot_succ] at quiet
    exact ⟨quiet.accounted, quiet.processes.trans processes⟩
  · rintro _ after ⟨accounted, processes⟩
    have noSpaces : spacesOf after.proc noHoldings = fun _ => none := by
      rw [processes]
      funext o
      cases o <;> rfl
    have noPages : keptOf after.proc noHoldings = atBoot pf (0 + bootPages pf) := by
      rw [processes]
      funext k
      cases k with
      | kernel n =>
        simp [keptOf, atBoot, noHoldings]
      | trapframe p => rfl
      | hand => rfl
      | node => rfl
    refine ⟨⟨?_, ?_⟩, ?_⟩
    · rw [noSpaces, noPages]
      exact accounted
    · intro o a owner
      rw [noSpaces] at owner
      exact absurd owner (by simp)
    · intro p
      rw [processes]
      exact Proc.free_ok

end Boot

/-- A place where a page can be. -/
inductive Location where
  | free (i : Nat)
  | table (o : Owner) (path : List Nat)
  | user (o : Owner) (va : Nat)
  | trapframe (p : Nat)
  | kernel (n : Nat)

def Machine.pageAt (m : Machine) (free : List Nat) : Location → Option Nat
  | .free i => free[i]?
  | .table o path =>
    if path.length ≤ 2 then
      (m.spaces o).bind fun a => follow (child m.kernel.mem) a.root path
    else none
  | .user o va =>
    if va % PGSIZE = 0 ∧ va < TRAPFRAME then
      (m.spaces o).bind fun a =>
        if hasFlag (leaf m.kernel.mem a.root va) PTE_V then
          some (PTE2PA (leaf m.kernel.mem a.root va))
        else none
    else none
  | .trapframe p => (m.kernel.proc p).frame
  | .kernel n => m.holdings.other n

def Conserved (pf : Platform) (m : Machine) : Prop :=
  ∃ free, FreeChain m.kernel.mem m.kernel.freelist free ∧
    (∀ q, IsPage pf q → ∃! location, m.pageAt free location = some q) ∧
    ∀ location q, m.pageAt free location = some q → IsPage pf q

section Conservation

variable {free : List Nat} {q : Nat}

def Location.place : Location → Option Place
  | .free _ => none
  | .table o path => some (.page o path)
  | .user o va => some (.page o (pathOf va))
  | .trapframe p => some (.kept (.trapframe p))
  | .kernel n => some (.kept (.kernel n))

theorem Machine.pageAt_table {o : Owner} {path : List Nat} :
    m.pageAt free (.table o path) = some q ↔
      path.length ≤ 2 ∧ ∃ a, m.spaces o = some a ∧
        follow (child m.kernel.mem) a.root path = some q := by
  simp only [Machine.pageAt, Option.ite_none_right_eq_some, Option.bind_eq_some_iff]

theorem Machine.pageAt_user {o : Owner} {va : Nat} :
    m.pageAt free (.user o va) = some q ↔
      (va % PGSIZE = 0 ∧ va < TRAPFRAME) ∧ ∃ a, m.spaces o = some a ∧
        follow (child m.kernel.mem) a.root (pathOf va) = some q := by
  simp only [Machine.pageAt, Option.ite_none_right_eq_some, Option.bind_eq_some_iff, follow_pathOf]

theorem Machine.held_of_pageAt {location : Location} {place : Place}
    (isPlace : location.place = some place) (found : m.pageAt free location = some q) :
    held m.kernel.mem (rootsOf m.spaces) (keptOf m.kernel.proc m.holdings) place = some q := by
  cases location with
  | free i => simp [Location.place] at isPlace
  | table o path =>
    obtain ⟨short, a, owner, reached⟩ := Machine.pageAt_table.mp found
    obtain rfl := Option.some.inj isPlace
    rw [held_page (rootsOf_some owner) (owned_of_short short), reached]
  | user o va =>
    obtain ⟨⟨-, user⟩, a, owner, reached⟩ := Machine.pageAt_user.mp found
    obtain rfl := Option.some.inj isPlace
    rw [held_page (rootsOf_some owner) (owned_user user), reached]
  | trapframe p | kernel n =>
    obtain rfl := Option.some.inj isPlace
    exact found

/-- Different locations with a page are different places. -/
theorem Machine.place_injective {left right : Location} {place : Place} {q' : Nat}
    (isLeft : left.place = some place) (isRight : right.place = some place)
    (found : m.pageAt free left = some q) (found' : m.pageAt free right = some q') :
    left = right := by
  cases left with
  | free i => simp [Location.place] at isLeft
  | table o path =>
    obtain ⟨short, -⟩ := Machine.pageAt_table.mp found
    obtain rfl := Option.some.inj isLeft
    cases right with
    | table o' path' => simpa [Location.place, eq_comm] using isRight
    | user o' va =>
      simp only [Location.place, Option.some.injEq, Place.page.injEq] at isRight
      rw [← isRight.2] at short
      simp [pathOf] at short
    | _ => simp [Location.place] at isRight
  | user o va =>
    obtain ⟨⟨aligned, user⟩, -⟩ := Machine.pageAt_user.mp found
    obtain rfl := Option.some.inj isLeft
    cases right with
    | table o' path' =>
      obtain ⟨short, -⟩ := Machine.pageAt_table.mp found'
      simp only [Location.place, Option.some.injEq, Place.page.injEq] at isRight
      rw [isRight.2] at short
      simp [pathOf] at short
    | user o' va' =>
      obtain ⟨⟨aligned', user'⟩, -⟩ := Machine.pageAt_user.mp found'
      simp only [Location.place, Option.some.injEq, Place.page.injEq] at isRight
      have samePage := (pathOf_eq (user_lt_vaspace user') (user_lt_vaspace user)).mp isRight.2
      have same : va = va' := by
        simp only [PGSIZE] at aligned aligned' samePage
        omega
      rw [isRight.1, same]
    | _ => simp [Location.place] at isRight
  | trapframe p | kernel n =>
    obtain rfl := Option.some.inj isLeft
    cases right <;> simp_all [Location.place]

/-- A user page is mapped below the trapframe. -/
theorem Space.path_user {a : AddressSpace} {mem : ByteMap} {path : List Nat}
    (space : Space pf mem a) (owned : Owned path) (long : path.length = 3)
    (reached : follow (child mem) a.root path = some q) :
    ∃ va, va % PGSIZE = 0 ∧ va < TRAPFRAME ∧ pathOf va = path := by
  obtain ⟨va, low, aligned, rfl⟩ := pathOf_of_follow long reached
  have valid : hasFlag (leaf mem a.root va) PTE_V = true := by
    rw [follow_pathOf, Option.ite_none_right_eq_some] at reached
    exact reached.1
  refine ⟨va, aligned, ?_, rfl⟩
  rcases space.below va low valid with under | ⟨special, upper⟩
  · exact Nat.lt_of_lt_of_le under (PGROUNDUP_spec space.bounded).2.2.2
  · rcases special_pages special upper with same | same
    · rw [(pathOf_eq low (by decide)).mpr same] at owned
      exact absurd owned not_owned_trapframe
    · rw [(pathOf_eq low (by decide)).mpr same] at owned
      exact absurd owned not_owned_trampoline

theorem Sound.location (sound : Sound pf m.holdings m.kernel) {place : Place}
    (holds : held m.kernel.mem (rootsOf m.spaces) (keptOf m.kernel.proc m.holdings) place = some q) :
    ∃ location, m.pageAt free location = some q := by
  cases place with
  | kept k =>
    cases k with
    | trapframe p => exact ⟨.trapframe p, holds⟩
    | hand | node => exact absurd holds (by simp [held, keptOf])
    | kernel n => exact ⟨.kernel n, holds⟩
  | page o path =>
    rw [held, Option.ite_none_right_eq_some] at holds
    obtain ⟨owned, r, owner, reached⟩ := holds.imp_right Option.bind_eq_some_iff.mp
    obtain ⟨a, space, rfl⟩ := Option.map_eq_some_iff.mp owner
    by_cases short : path.length ≤ 2
    · exact ⟨.table o path, Machine.pageAt_table.mpr ⟨short, a, space, reached⟩⟩
    · have long : path.length = 3 := by
        rcases owned with low | ⟨exactly, -⟩
        · exact absurd low short
        · exact exactly
      obtain ⟨va, aligned, user, rfl⟩ :=
        (sound.sane.space o a space).path_user owned long reached
      exact ⟨.user o va, Machine.pageAt_user.mpr ⟨⟨aligned, user⟩, a, space, reached⟩⟩

/-- In a sound state every page is in exactly one place. -/
theorem Sound.conserved (sound : Sound pf m.holdings m.kernel) : Conserved pf m := by
  obtain ⟨pages, books⟩ := sound.sane.accounted
  have apart : ∀ location place q, location.place = some place →
      m.pageAt pages location = some q → IsPage pf q ∧ q ∉ pages :=
    fun location place q isPlace found =>
      books.balanced.inside place q (Machine.held_of_pageAt isPlace found)
  have kinds : ∀ location : Location, (∃ i, location = .free i) ∨ ∃ place, location.place = some place := by
    intro location
    cases location <;> simp [Location.place]
  refine ⟨pages, books.chain, ?_, ?_⟩
  · intro q page
    by_cases listed : q ∈ pages
    · obtain ⟨i, here⟩ := List.mem_iff_getElem?.mp listed
      refine ⟨.free i, here, fun other found => ?_⟩
      rcases kinds other with ⟨j, rfl⟩ | ⟨place, isPlace⟩
      · have inside : i < pages.length := (List.getElem?_eq_some_iff.mp here).1
        rw [(List.getElem?_inj inside books.nodup).mp (here.trans found.symm)]
      · exact absurd listed (apart other place q isPlace found).2
    · obtain ⟨place, holds⟩ := books.balanced.covered q page listed
      obtain ⟨location, here⟩ : ∃ location, m.pageAt pages location = some q :=
        sound.location holds
      refine ⟨location, here, fun other found => ?_⟩
      have inUse : ∀ loc, m.pageAt pages loc = some q → ∃ place, loc.place = some place := by
        intro loc found
        rcases kinds loc with ⟨j, rfl⟩ | some
        · exact absurd (List.mem_of_getElem? found) listed
        · exact some
      obtain ⟨place, isPlace⟩ := inUse other found
      obtain ⟨place', isPlace'⟩ := inUse location here
      obtain rfl := books.balanced.single place place' q
        (Machine.held_of_pageAt isPlace found) (Machine.held_of_pageAt isPlace' here)
      exact Machine.place_injective isPlace isPlace' found here
  · intro location q found
    rcases kinds location with ⟨j, rfl⟩ | ⟨place, isPlace⟩
    · exact books.inside q (List.mem_of_getElem? found)
    · exact (apart location place q isPlace found).1

end Conservation

theorem booted_sound (pf : Platform) (mem : ByteMap) :
    ∃ booted, kinit pf (beforeBoot mem) = .ok (⟨⟩, booted) ∧
      ∀ m, Reaches (Step pf) ⟨booted, noHoldings⟩ m → Sound pf m.holdings m.kernel := by
  have law : wp (kinit pf) (fun _ after => Sound pf noHoldings after) (fun _ => False)
    (beforeBoot mem) := wp_kinit mem
  obtain ⟨⟨⟩, booted, ran, sound⟩ := wp_total law
  exact ⟨booted, ran, fun m run =>
    run.keeps (fun m => Sound pf m.holdings m.kernel) (fun _ _ sound => sound.step) sound⟩

theorem Sound.only_init_stops (sound : Sound pf m.holdings m.kernel) {call : Call}
    (permitted : call.Permitted m) {reason : Panic}
    (stopped : call.run pf m m.kernel = .error reason) : reason = .initExiting := by
  have ran : (call.run pf m).run m.kernel = .error reason := stopped
  have only := wp_stopped (sound.wp_call permitted) ran
  exact only

/-! ## Small machines -/

theorem smallMachine_aligned : KERNBASE % PGSIZE = 0 := by decide

theorem smallMachine_text {pages : Nat} (few : pages ≤ 16) :
    KERNBASE + PGSIZE ≤ PHYSTOP - pages * PGSIZE := by
  simp only [KERNBASE, PHYSTOP, PGSIZE]
  omega

def smallMachine (pages : Nat) (few : pages ≤ 16) : Platform where
  kernelEnd := PHYSTOP - pages * PGSIZE
  trampoline := KERNBASE
  refuse := fun _ => false
  aligned := smallMachine_aligned
  base := Nat.le_refl KERNBASE
  text := smallMachine_text few
  ram := Nat.sub_le ..

def eightPages : Platform := smallMachine 8 (by decide)

def sixteenPages : Platform := smallMachine 16 (by decide)

instance (m : Machine) : (call : Call) → Decidable (call.Permitted m)
  | .allocproc | .freeproc _ | .procFreepagetable _ | .uvmdealloc _ _ | .kfree _ =>
    inferInstanceAs (Decidable True)
  | .procPagetable _ l => inferInstanceAs (Decidable (m.holdings.loose l = none))
  | .uvmalloc _ _ _ => inferInstanceAs (Decidable (_ ∧ _))
  | .uvmcopy _ l _ =>
    have : Decidable (∀ a, m.holdings.loose l = some a → a.sz = 0) :=
      match m.holdings.loose l with
      | none => .isTrue (by simp)
      | some a => decidable_of_iff (a.sz = 0) (by simp)
    inferInstanceAs (Decidable (_ ∧ _))
  | .vmfault _ _ | .copyin _ _ _ | .copyout _ _ _ _ | .fork _ | .exit _ _ | .wait _ _ =>
    inferInstanceAs (Decidable (_ ≠ _))
  | .sbrk _ _ _ | .exec _ _ _ => inferInstanceAs (Decidable (_ ≠ _ ∧ _))
  | .kalloc n => inferInstanceAs (Decidable (m.holdings.other n = none))

def replay (pf : Platform) : List Call → Machine → Option Machine
  | [], m => some m
  | call :: rest, m =>
    if call.Permitted m then
      match call.run pf m m.kernel with
      | .ok (h, kernel) => replay pf rest ⟨kernel, h⟩
      | .error _ => none
    else none

def bootsTo (pf : Platform) (calls : List Call) (test : Machine → Bool) : Bool :=
  match kinit pf (beforeBoot fun _ => 0) with
  | .ok (_, booted) => (replay pf calls ⟨booted, noHoldings⟩).any test
  | .error _ => false

theorem replay_reaches {calls : List Call} {last : Machine} (replayed : replay pf calls m = some last) :
    Reaches (Step pf) m last := by
  induction calls generalizing m with
  | nil =>
    obtain rfl := Option.some.inj replayed
    exact .refl
  | cons call rest ih =>
    rw [replay] at replayed
    split at replayed
    · rename_i permitted
      split at replayed
      · rename_i h kernel ran
        exact .head (.call call permitted ran) (ih replayed)
      · cases replayed
    · cases replayed

theorem bootsTo_elim {calls : List Call} {test : Machine → Bool}
    (boots : bootsTo pf calls test = true) : ∃ booted m,
      kinit pf (beforeBoot fun _ => 0) = .ok (⟨⟩, booted) ∧
      Reaches (Step pf) ⟨booted, noHoldings⟩ m ∧ test m = true := by
  unfold bootsTo at boots
  split at boots
  · rename_i booted ran
    obtain ⟨m, replayed, passed⟩ := (Option.any_eq_true _ _).mp boots
    exact ⟨booted, m, ran, replay_reaches replayed, passed⟩
  · cases boots

/-- After any number of calls and uses of memory, for every choice of the
allocations that are turned down, every page is in exactly one place, and a call
stops the kernel only if it is the exit of the first process. -/
theorem pages_conserved (pf : Platform) (mem : ByteMap) :
    ∃ booted, kinit pf (beforeBoot mem) = .ok (⟨⟩, booted) ∧
      ∀ m, Reaches (Step pf) ⟨booted, noHoldings⟩ m →
        Conserved pf m ∧
        ∀ call : Call, call.Permitted m → ∀ reason, call.run pf m m.kernel = .error reason →
          reason = .initExiting := by
  obtain ⟨booted, ran, sound⟩ := booted_sound pf mem
  exact ⟨booted, ran, fun m run => ⟨(sound m run).conserved,
    fun call permitted reason stopped => (sound m run).only_init_stops permitted stopped⟩⟩

/-- The first process of the machine with eight pages: every page is in one place. -/
theorem first_process_conserved : ∃ booted m,
    kinit eightPages (beforeBoot fun _ => 0) = .ok (⟨⟩, booted) ∧
    Reaches (Step eightPages) ⟨booted, noHoldings⟩ m ∧ m.Live 0 ∧ Conserved eightPages m := by
  have boots : bootsTo eightPages [.allocproc] (fun m => (m.kernel.proc 0).pagetable ≠ 0) = true := by
    decide +kernel
  obtain ⟨booted, m, ran, run, live⟩ := bootsTo_elim boots
  rw [decide_eq_true_eq] at live
  obtain ⟨booted', ran', holds⟩ := pages_conserved eightPages fun _ => 0
  obtain ⟨-, rfl⟩ := Prod.mk.inj (Except.ok.inj (ran.symm.trans ran'))
  exact ⟨booted, m, ran, run, live, (holds m run).1⟩

end Xv6.Vm
