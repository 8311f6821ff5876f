import Xv6.Vm.ExecImage

/-!
# The stack of a new image

Above the segments `exec` maps a page that the user may not touch and the pages of the stack.
-/

namespace Xv6.Vm

open Command Bytes Ownership Xv6.Tree

variable {pf : Platform} {s s₀ after : Kernel} {spaces : Owner → Option AddressSpace}
  {kept : Keeper → Option Nat} {v v' v'' : View} {argv args : List (List UInt8)}
  {addrs : List Nat} {p r va n frame sz sp low high top bottom base : Nat} {stop : Panic → Prop}

section Layout

def align16 (n : Nat) : Nat := (n + 15) / 16 * 16

def stringBytes (args : List (List UInt8)) : Nat :=
  (args.map fun arg => align16 (arg.length + 1)).sum

def stackNeed (argv : List (List UInt8)) : Nat :=
  stringBytes argv + align16 ((argv.length + 1) * 8)

def View.StringAt (v : View) (addr : Nat) (string : List UInt8) : Prop :=
  ∀ i, i ≤ string.length → v.byte (addr + i) = some (string.getD i 0)

def View.WordAt (v : View) (addr word : Nat) : Prop :=
  ∃ bytes : ByteMap, (∀ i, i < 8 → v.byte (addr + i) = some (bytes i)) ∧ load bytes 0 8 = word

structure ChangedBetween (v : View) (low high : Nat) (v' : View) : Prop where
  flags : ∀ va, v'.flags va = v.flags va
  bytes : ∀ va, va < low ∨ high ≤ va → v'.byte va = v.byte va

inductive Placed (v : View) : Nat → List (List UInt8) → List Nat → Nat → Prop
  | nil (top : Nat) : Placed v top [] [] top
  | cons {top addr bottom : Nat} {arg : List UInt8} {args : List (List UInt8)} {addrs : List Nat}
      (fits : addr + arg.length + 1 ≤ top) (string : v.StringAt addr arg)
      (rest : Placed v addr args addrs bottom) : Placed v top (arg :: args) (addr :: addrs) bottom

structure ArgumentStack (v : View) (top : Nat) (argv : List (List UInt8)) (addrs : List Nat)
    (sp : Nat) : Prop where
  aligned : sp % 16 = 0
  bottom : top ≤ sp + USERSTACK * PGSIZE
  inside : sp + 8 * (argv.length + 1) ≤ top
  count : addrs.length = argv.length
  words : ∀ i, i ≤ argv.length → v.WordAt (sp + 8 * i) (addrs.getD i 0)
  strings : ∀ i, i < argv.length → v.StringAt (addrs.getD i 0) (argv.getD i [])
  above : ∀ i, i < argv.length → sp + 8 * (argv.length + 1) ≤ addrs.getD i 0
  below : ∀ i, i < argv.length → addrs.getD i 0 + (argv.getD i []).length + 1 ≤ top
  disjoint : ∀ i j, i < j → j < argv.length →
    addrs.getD j 0 + (argv.getD j []).length + 1 ≤ addrs.getD i 0

theorem ChangedBetween.refl (v : View) (low high : Nat) : ChangedBetween v low high v :=
  ⟨fun _ => rfl, fun _ _ => rfl⟩

theorem ChangedBetween.trans {middle : Nat} (first : ChangedBetween v middle high v')
    (second : ChangedBetween v' low middle v'') (lower : low ≤ middle) (upper : middle ≤ high) :
    ChangedBetween v low high v'' := by
  refine ⟨fun va => (second.flags va).trans (first.flags va), fun va outside => ?_⟩
  rw [second.bytes va (by omega), first.bytes va (by omega)]

theorem Replaced.changedBetween {start : Nat} {src : ByteMap} (replaced : Replaced v start src n v')
    (upper : start + n ≤ high) : ChangedBetween v start high v' := by
  refine ⟨replaced.flags, fun va outside => ?_⟩
  rw [replaced.bytes, if_neg (by omega)]

theorem ChangedBetween.allows {flag : Nat} (changed : ChangedBetween v low high v')
    (allows : v.Allows flag va) : v'.Allows flag va := by
  rwa [View.Allows, changed.flags]

theorem ChangedBetween.stringAt {addr : Nat} {string : List UInt8}
    (changed : ChangedBetween v low high v') (placed : v.StringAt addr string)
    (outside : high ≤ addr) : v'.StringAt addr string := by
  intro i inside
  rw [changed.bytes _ (.inr (by omega))]
  exact placed i inside

theorem Replaced.stringAt {start : Nat} {arg : List UInt8}
    (replaced : Replaced v start (fun i => arg.getD i 0) (arg.length + 1) v') :
    v'.StringAt start arg := by
  intro i inside
  rw [replaced.bytes, if_pos (by omega), Nat.add_sub_cancel_left]

/-- Copying an array of words. -/
theorem Replaced.wordAt {start count : Nat} {word : Nat → Nat}
    (replaced : Replaced v start (storeWords (fun _ => 0) 0 8 word count) (count * 8) v') {i : Nat}
    (inside : i < count) (small : word i < 2 ^ 64) : v'.WordAt (start + 8 * i) (word i) := by
  refine ⟨fun j => storeWords (fun _ => 0) 0 8 word count (8 * i + j), fun j within => ?_, ?_⟩
  · rw [replaced.bytes, if_pos (by omega)]
    congr 2
    omega
  · have stored := load_storeWords_inside (fun _ => 0) 0 8 word inside
    rw [Nat.zero_add, Nat.mod_eq_of_lt (show word i < 256 ^ 8 from small)] at stored
    rw [← stored]
    exact load_shift fun j _ => by rw [Nat.zero_add]

theorem Placed.bottom_le (placed : Placed v top args addrs bottom) : bottom ≤ top := by
  induction placed with
  | nil => exact Nat.le_refl _
  | cons fits _ _ ih => omega

/-- Each string has one address. -/
theorem Placed.length_eq (placed : Placed v top args addrs bottom) :
    addrs.length = args.length := by
  induction placed with
  | nil => rfl
  | cons _ _ _ ih => simp only [List.length_cons, ih]

theorem Placed.each (placed : Placed v top args addrs bottom) {i : Nat} (inside : i < args.length) :
    v.StringAt (addrs.getD i 0) (args.getD i []) ∧ bottom ≤ addrs.getD i 0 ∧
      addrs.getD i 0 + (args.getD i []).length + 1 ≤ top := by
  induction placed generalizing i with
  | nil => simp at inside
  | cons fits string rest ih =>
    cases i with
    | zero => exact ⟨string, rest.bottom_le, fits⟩
    | succ i =>
      obtain ⟨here, lower, upper⟩ := ih (Nat.lt_of_succ_lt_succ inside)
      simp only [List.getD_cons_succ]
      exact ⟨here, lower, by omega⟩

theorem Placed.ordered (placed : Placed v top args addrs bottom) {i j : Nat} (order : i < j)
    (inside : j < args.length) :
    addrs.getD j 0 + (args.getD j []).length + 1 ≤ addrs.getD i 0 := by
  induction placed generalizing i j with
  | nil => simp at inside
  | cons fits string rest ih =>
    cases j with
    | zero => omega
    | succ j =>
      have within := Nat.lt_of_succ_lt_succ inside
      cases i with
      | zero => exact (rest.each within).2.2
      | succ i => exact ih (Nat.lt_of_succ_lt_succ order) within

theorem Placed.changed (placed : Placed v top args addrs bottom)
    (changed : ChangedBetween v low high v') (outside : high ≤ bottom) :
    Placed v' top args addrs bottom := by
  induction placed with
  | nil => exact .nil _
  | cons fits string rest ih =>
    exact .cons fits (changed.stringAt string (outside.trans rest.bottom_le)) (ih outside)

theorem stringBytes_cons (arg : List UInt8) (args : List (List UInt8)) :
    stringBytes (arg :: args) = align16 (arg.length + 1) + stringBytes args := rfl

theorem sub64_eq (room : n ≤ sp) (word : sp < 2 ^ 64) : sub64 sp n = sp - n := by
  rw [sub64]
  omega

theorem push_le (room : n ≤ sp) (word : sp < 2 ^ 64) : push sp n + n ≤ sp := by
  rw [push, sub64_eq room word]
  omega

theorem push_eq (aligned : sp % 16 = 0) (room : n ≤ sp) (word : sp < 2 ^ 64) :
    push sp n + align16 n = sp := by
  rw [push, sub64_eq room word, align16]
  omega

theorem push_wraps (short : n ≤ 2 ^ 63) (wraps : sp < n) : MAXVA ≤ PGROUNDDOWN (push sp n) := by
  have exact : sub64 sp n = sp + 2 ^ 64 - n := by
    rw [sub64]
    omega
  simp only [push, exact, PGROUNDDOWN, MAXVA, PGSIZE]
  omega

theorem align16_spec (n : Nat) : n ≤ align16 n ∧ align16 n % 16 = 0 := by
  rw [align16]
  omega

theorem copyout_beyond {dstva : Nat} (beyond : MAXVA ≤ PGROUNDDOWN dstva) (src : ByteMap)
    (len : Nat) : copyout pf p r dstva src (len + 1) = pure (-1) := by
  rw [copyout, copyoutRounds, if_neg (Nat.succ_ne_zero len)]
  simp only
  rw [if_pos beyond]

end Layout

section Laws

/-- Strings have been copied onto the stack. -/
structure PushedArgs (pf : Platform) (s₀ : Kernel) (spaces : Owner → Option AddressSpace)
    (kept : Keeper → Option Nat) (r frame sz base : Nat) (v : View) (args : List (List UInt8))
    (sp : Nat) (addrs : List Nat) (sp' : Nat) (v' : View) (after : Kernel) : Prop where
  image : Image pf s₀ spaces kept r frame sz v' after
  changed : ChangedBetween v sp' sp v'
  placed : Placed v' sp args addrs sp'
  lowered : sp' + stringBytes args = sp
  aligned : sp' % 16 = 0
  above : base ≤ sp'

def ArgsEnded (pf : Platform) (s₀ : Kernel) (spaces : Owner → Option AddressSpace)
    (kept : Keeper → Option Nat) (r frame sz base : Nat) (v : View) (args : List (List UInt8))
    (sp : Nat) (ustack : List Nat) (outcome : Option (Nat × List Nat)) (after : Kernel) : Prop :=
  (outcome = none ∧ Begun pf s₀ spaces kept r frame sz after ∧
    (ustack.length + args.length ≤ MAXARG → sp < base + stringBytes args)) ∨
  ∃ sp' addrs v', outcome = some (sp', ustack ++ addrs) ∧ ustack.length + args.length ≤ MAXARG ∧
    PushedArgs pf s₀ spaces kept r frame sz base v args sp addrs sp' v' after

theorem Image.wp_pushArgs (args : List (List UInt8))
    (short : ∀ arg, arg ∈ args → arg.length < 2 ^ 63) (sp : Nat) (ustack : List Nat)
    (aligned : sp % 16 = 0) (below : sp ≤ sz) (above : base ≤ sp)
    (count : ustack.length ≤ MAXARG) (user : ∀ va, base ≤ va → va < sz → v.Allows PTE_U va)
    (writable : ∀ va, base ≤ va → va < sz → v.Allows PTE_W va)
    (image : Image pf s₀ spaces kept r frame sz v s) :
    wp (pushArgs pf p r base args sp ustack)
      (ArgsEnded pf s₀ spaces kept r frame sz base v args sp ustack) stop s := by
  have bounded : sz ≤ TRAPFRAME :=
    (image.sane.space _ _ (building_owner spaces ⟨r, sz, frame⟩)).bounded
  induction args generalizing sp ustack v s with
  | nil =>
    rw [pushArgs, wp_pure]
    refine .inr ⟨sp, [], v, by rw [List.append_nil], by simpa using count, image,
      ChangedBetween.refl .., .nil sp, rfl, aligned, above⟩
  | cons arg rest ih =>
    have length : arg.length < 2 ^ 63 := short arg (by simp)
    have word : sp < 2 ^ 64 := by
      simp only [TRAPFRAME, TRAMPOLINE, MAXVA, PGSIZE] at *
      omega
    have rounded := align16_spec (arg.length + 1)
    rw [pushArgs]
    split
    · rw [wp_pure]
      refine .inl ⟨rfl, image.toBegun, fun few => ?_⟩
      rw [List.length_cons] at few
      omega
    · rename_i fewer
      simp only
      by_cases room : arg.length + 1 ≤ sp
      · have pushed := push_eq aligned room word
        generalize push sp (arg.length + 1) = sp' at pushed
        split
        · rw [wp_pure]
          refine .inl ⟨rfl, image.toBegun, fun _ => ?_⟩
          rw [stringBytes_cons]
          omega
        · rename_i notBelow
          have inside : base ≤ sp' := Nat.le_of_not_lt notBelow
          rw [wp_bind]
          refine wp_post (image.wp_copyout (fun i => arg.getD i 0)
            (fun va lower upper => user va (by omega) (by omega))
            fun va lower upper => writable va (by omega) (by omega)) ?_
          rintro result current ⟨rfl, v₁, replaced, image'⟩
          have changed : ChangedBetween v sp' sp v₁ := replaced.changedBetween (by omega)
          rw [if_neg (by decide), storeUstack, if_pos (Nat.lt_of_not_le fewer), pure_bind]
          refine wp_post (ih (fun other member => short other (List.mem_cons_of_mem arg member)) sp'
            (ustack ++ [sp']) (by omega) (by omega) inside
            (by simp only [List.length_append, List.length_cons, List.length_nil]; omega)
            (fun va lower upper => changed.allows (user va lower upper))
            (fun va lower upper => changed.allows (writable va lower upper)) image') ?_
          intro outcome last ended
          rcases ended with ⟨failed, begun, full⟩ | ⟨sp'', addrs, v₂, built, few, done⟩
          · refine .inl ⟨failed, begun, fun few => ?_⟩
            simp only [List.length_append, List.length_cons, List.length_nil] at full few
            have := full (by omega)
            rw [stringBytes_cons]
            omega
          · refine .inr ⟨sp'', sp' :: addrs, v₂, by simpa using built, ?_, done.image, ?_, ?_, ?_,
              done.aligned, done.above⟩
            · simp only [List.length_append, List.length_cons, List.length_nil] at few ⊢
              omega
            · exact changed.trans done.changed done.placed.bottom_le (by omega)
            · exact .cons (by omega) (done.changed.stringAt replaced.stringAt (Nat.le_refl _))
                done.placed
            · have := done.lowered
              rw [stringBytes_cons]
              omega
      · -- The pointer has wrapped around.
        have wrapped : ∀ after, Begun pf s₀ spaces kept r frame sz after →
            ArgsEnded pf s₀ spaces kept r frame sz base v (arg :: rest) sp ustack none after := by
          refine fun after begun => .inl ⟨rfl, begun, fun _ => ?_⟩
          rw [stringBytes_cons]
          omega
        split
        · rw [wp_pure]
          exact wrapped s image.toBegun
        · rw [wp_bind, copyout_beyond (push_wraps (by omega) (Nat.lt_of_not_le room)), wp_pure,
            if_pos (by decide), wp_pure]
          exact wrapped s image.toBegun

theorem getD_append_default (words : List Nat) (default i : Nat) :
    (words ++ [default]).getD i default = words.getD i default := by
  simp only [List.getD_eq_getElem?_getD, List.getElem?_append]
  split
  · rfl
  · rename_i beyond
    rw [List.getElem?_eq_none (Nat.le_of_not_lt beyond)]
    cases i - words.length <;> rfl

def StackEnded (pf : Platform) (s₀ : Kernel) (spaces : Owner → Option AddressSpace)
    (kept : Keeper → Option Nat) (r frame base sz : Nat) (v : View) (argv : List (List UInt8))
    (outcome : Option (Nat × Nat)) (after : Kernel) : Prop :=
  (outcome = none ∧ Begun pf s₀ spaces kept r frame sz after ∧
    (argv.length ≤ MAXARG → USERSTACK * PGSIZE < stackNeed argv)) ∨
  ∃ sp addrs v', outcome = some (sp, argv.length) ∧ stackNeed argv ≤ USERSTACK * PGSIZE ∧
    Image pf s₀ spaces kept r frame sz v' after ∧
    ChangedBetween v base sz v' ∧ ArgumentStack v' sz argv addrs sp

theorem Image.wp_pushStack (image : Image pf s₀ spaces kept r frame sz v s)
    (pages : base + USERSTACK * PGSIZE = sz) (guard : PGSIZE ≤ base) (aligned : sz % PGSIZE = 0)
    (argv : List (List UInt8)) (short : ∀ arg, arg ∈ argv → arg.length < 2 ^ 63)
    (overrun : argv.length = MAXARG → stop .ustack)
    (user : ∀ va, base ≤ va → va < sz → v.Allows PTE_U va)
    (writable : ∀ va, base ≤ va → va < sz → v.Allows PTE_W va) :
    wp (pushStack pf p r sz argv) (StackEnded pf s₀ spaces kept r frame base sz v argv) stop s := by
  have bounded : sz ≤ TRAPFRAME :=
    (image.sane.space _ _ (building_owner spaces ⟨r, sz, frame⟩)).bounded
  have wide : sz < 2 ^ 64 := by
    simp only [TRAPFRAME, TRAMPOLINE, MAXVA, PGSIZE] at *
    omega
  have stackbase : sub64 sz (USERSTACK * PGSIZE) = base := by
    rw [sub64_eq (by omega) wide]
    omega
  have spAligned : sz % 16 = 0 := by
    simp only [PGSIZE] at aligned
    omega
  simp only [pushStack, stackbase]
  rw [wp_bind]
  refine wp_post (image.wp_pushArgs argv short sz [] spAligned (Nat.le_refl sz) (by omega)
    (Nat.zero_le _) user writable) ?_
  intro outcome after ended
  rcases ended with ⟨failed, begun, full⟩ | ⟨bottom, addrs, v₁, built, few, done⟩
  · subst failed
    rw [wp_pure]
    refine .inl ⟨rfl, begun, fun few => ?_⟩
    have := full (by simpa using few)
    rw [stackNeed]
    omega
  · subst built
    have count := done.placed.length_eq
    have few : argv.length ≤ MAXARG := by simpa using few
    have lowered := done.lowered
    have inside := done.above
    have bottomAligned := done.aligned
    have room : (argv.length + 1) * 8 ≤ bottom := by
      simp only [MAXARG, PGSIZE] at *
      omega
    have pushed := push_eq bottomAligned room (by omega)
    have rounded := align16_spec ((argv.length + 1) * 8)
    simp only [List.nil_append, wp_bind, storeUstack, count]
    split
    swap
    · rename_i full
      rw [wp_throw]
      exact overrun (by omega)
    rw [wp_pure]
    have words : (fun i => (addrs ++ [0]).getD i 0) = fun i => addrs.getD i 0 := by
      funext i
      exact getD_append_default addrs 0 i
    rw [words]
    generalize push bottom ((argv.length + 1) * 8) = sp at pushed
    by_cases beneath : sp < base
    · rw [if_pos beneath, wp_pure]
      refine .inl ⟨rfl, done.image.toBegun, fun _ => ?_⟩
      rw [stackNeed]
      omega
    · have above : base ≤ sp := Nat.le_of_not_lt beneath
      have fits : stackNeed argv ≤ USERSTACK * PGSIZE := by
        rw [stackNeed]
        omega
      have reach : sz ≤ sp + USERSTACK * PGSIZE := by omega
      have under : sp + 8 * (argv.length + 1) ≤ sz := by
        have := done.placed.bottom_le
        omega
      rw [if_neg beneath, wp_bind]
      refine wp_post (done.image.wp_copyout _
        (fun va lower upper => done.changed.allows (user va (by omega) (by omega)))
        fun va lower upper => done.changed.allows (writable va (by omega) (by omega))) ?_
      rintro result last ⟨rfl, v₂, replaced, image'⟩
      have changed : ChangedBetween v₁ sp bottom v₂ := replaced.changedBetween (by omega)
      have placed := done.placed.changed changed (Nat.le_refl bottom)
      have each := fun i (within : i < argv.length) => placed.each within
      rw [if_neg (by decide), wp_pure]
      have all : ChangedBetween v (base) sz v₂ := by
        have whole := done.changed.trans changed (by omega) done.placed.bottom_le
        exact ⟨whole.flags, fun va outside => whole.bytes va (by omega)⟩
      refine .inr ⟨sp, addrs, v₂, rfl, fits, image', all, by omega, reach, under, count,
        fun i within => ?_, fun i within => (each i within).1, fun i within => ?_,
        fun i within => (each i within).2.2, fun i j order within => placed.ordered order within⟩
      · refine replaced.wordAt (by omega) ?_
        by_cases last : i < argv.length
        · have := (each i last).2.2
          omega
        · rw [List.getD_eq_default _ _ (by omega)]
          decide
      · have := (each i within).2.1
        omega

theorem Image.roundUp (image : Image pf s₀ spaces kept r frame sz v s) :
    Image pf s₀ spaces kept r frame (PGROUNDUP sz) v s := by
  have owner := building_owner spaces ⟨r, sz, frame⟩
  have space := image.sane.space _ _ owner
  obtain ⟨-, rounded, -, bound⟩ := PGROUNDUP_spec space.bounded
  have sane := image.sane.change (Quiet.refl image.sane.accounted) owner
    (fun _ _ nowhere => nowhere.elim) (space.filled bound rounded fun _ _ _ => rfl)
  rw [Function.update_idem] at sane
  exact ⟨⟨sane, image.within⟩, image.shows⟩

structure Stacked (v : View) (sz : Nat) (argv : List (List UInt8)) (sp : Nat) (v' : View) :
    Prop where
  below : ∀ va, va < sz → v'.byte va = v.byte va
  guard : ∀ va, sz ≤ va → va < sz + PGSIZE → ¬ v'.Allows PTE_U va
  usable : ∀ va, sz + PGSIZE ≤ va → va < sz + (USERSTACK + 1) * PGSIZE →
    v'.Allows PTE_U va ∧ v'.Allows PTE_R va ∧ v'.Allows PTE_W va
  arguments : ∃ addrs, ArgumentStack v' (sz + (USERSTACK + 1) * PGSIZE) argv addrs sp

def ExecStackEnded (pf : Platform) (s₀ : Kernel) (spaces : Owner → Option AddressSpace)
    (kept : Keeper → Option Nat) (r frame base : Nat) (v : View) (argv : List (List UInt8))
    (outcome : Nat × Option (Nat × Nat)) (after : Kernel) : Prop :=
  Begun pf s₀ spaces kept r frame outcome.1 after ∧
  (outcome = (base, none) ∨
    outcome = (base + (USERSTACK + 1) * PGSIZE, none) ∧
      (argv.length ≤ MAXARG → USERSTACK * PGSIZE < stackNeed argv) ∨
    ∃ sp v', outcome = (base + (USERSTACK + 1) * PGSIZE, some (sp, argv.length)) ∧
      stackNeed argv ≤ USERSTACK * PGSIZE ∧
      Image pf s₀ spaces kept r frame outcome.1 v' after ∧ Stacked v base argv sp v')

abbrev stackFlags : Nat := PTE_R ||| PTE_U ||| PTE_W ||| PTE_V

theorem Image.wp_execStack (image : Image pf s₀ spaces kept r frame sz v s)
    (user : ∀ va, va < PGROUNDUP sz → v.Allows PTE_U va) (node : kept .node = none)
    (hand : kept .hand = none) (argv : List (List UInt8))
    (short : ∀ arg, arg ∈ argv → arg.length < 2 ^ 63)
    (overrun : argv.length = MAXARG → stop .ustack) :
    wp (execStack pf p r sz argv)
      (ExecStackEnded pf s₀ spaces kept r frame (PGROUNDUP sz) v argv) stop s := by
  have bounded := (image.sane.space _ _ (building_owner spaces ⟨r, sz, frame⟩)).bounded
  obtain ⟨aligned, -, -, bound⟩ := PGROUNDUP_spec bounded
  have small := (image.building fun va (_ : 0 ≤ va) => user va).small
  have rounded := image.roundUp
  have same : PGROUNDUP (PGROUNDUP sz) = PGROUNDUP sz := PGROUNDUP_aligned aligned bound
  simp only [execStack]
  generalize PGROUNDUP sz = base at user small aligned rounded same
  have top : add64 base ((USERSTACK + 1) * PGSIZE) = base + (USERSTACK + 1) * PGSIZE := by
    simp only [add64, PGSIZE, USERSTACK] at *
    omega
  have guard : sub64 (base + (USERSTACK + 1) * PGSIZE) ((USERSTACK + 1) * PGSIZE) = base := by
    simp only [sub64, PGSIZE, USERSTACK] at *
    omega
  have high : base + (USERSTACK + 1) * PGSIZE ≤ TRAPFRAME := by
    simp only [PGSIZE, USERSTACK, TRAPFRAME, TRAMPOLINE, MAXVA] at *
    omega
  have topAligned : (base + (USERSTACK + 1) * PGSIZE) % PGSIZE = 0 := page_aligned aligned _
  have pages : base + PGSIZE + USERSTACK * PGSIZE = base + (USERSTACK + 1) * PGSIZE := by
    rw [Nat.add_mul USERSTACK 1 PGSIZE, Nat.one_mul, Nat.add_comm (USERSTACK * PGSIZE),
      Nat.add_assoc]
  rw [wp_bind, top]
  rw [← same] at user
  refine rounded.wp_uvmalloc user node hand (by constructor <;> decide) ?_ ?_ ?_
  · intro smaller
    exact absurd smaller (Nat.not_lt_of_le (Nat.le_add_right ..))
  · intro after begun
    rw [if_pos rfl, wp_pure]
    exact ⟨begun, .inl rfl⟩
  · intro after _ _ grown
    rw [same, PGROUNDUP_aligned topAligned high] at grown
    have nonzero : base + (USERSTACK + 1) * PGSIZE ≠ 0 := by
      simp only [PGSIZE, USERSTACK]
      omega
    have inside : base < PGROUNDUP (base + (USERSTACK + 1) * PGSIZE) := by
      rw [PGROUNDUP_aligned topAligned high]
      simp only [PGSIZE, USERSTACK]
      omega
    -- Every address of the new pages has the flags of the stack.
    have flags : ∀ va, base ≤ va → va < base + (USERSTACK + 1) * PGSIZE →
        (v.grow base (base + (USERSTACK + 1) * PGSIZE) stackFlags).flags va = some stackFlags := by
      intro va lower upper
      rw [View.flags_grow aligned topAligned, if_pos ⟨lower, upper⟩]
    rw [if_neg nonzero, wp_bind, guard]
    refine wp_post (grown.wp_uvmclear inside ⟨stackFlags, flags base (Nat.le_refl _) ?_, rfl⟩) ?_
    · simp only [PGSIZE, USERSTACK]
      omega
    intro _ cleared guarded
    have stack : ∀ va, base + PGSIZE ≤ va → va < base + (USERSTACK + 1) * PGSIZE →
        ((v.grow base (base + (USERSTACK + 1) * PGSIZE) stackFlags).guard base).flags va =
          some stackFlags := by
      intro va lower upper
      rw [View.flags_guard_other (by simp only [PGSIZE] at *; omega)]
      exact flags va (by omega) upper
    rw [wp_bind]
    refine wp_post (guarded.wp_pushStack pages (Nat.le_add_left ..) topAligned argv short overrun
      (fun va lower upper => ⟨_, stack va lower upper, rfl⟩)
      fun va lower upper => ⟨_, stack va lower upper, rfl⟩) ?_
    intro built last ended
    rw [wp_pure]
    rcases ended with ⟨failed, begun, full⟩ |
      ⟨sp, addrs, v', done, fits, image', changed, arguments⟩
    · subst failed
      exact ⟨begun, .inr (.inl ⟨rfl, full⟩)⟩
    · subst done
      refine ⟨image'.toBegun, .inr (.inr ⟨sp, v', rfl, fits, image', ?_, ?_, ?_, addrs, arguments⟩)⟩
      · intro va below
        rw [changed.bytes va (.inl (by omega)), View.byte_guard, View.byte_grow aligned topAligned,
          if_neg (by omega)]
      · intro va lower upper allows
        rw [View.Allows, changed.flags, View.flags_guard_same (by simp only [PGSIZE] at *; omega),
          flags va lower (by simp only [PGSIZE, USERSTACK] at *; omega)] at allows
        obtain ⟨f, masked, user⟩ := allows
        obtain rfl := Option.some.inj masked
        exact absurd user (by decide)
      · intro va lower upper
        have kept : v'.flags va = some stackFlags := (changed.flags va).trans (stack va lower upper)
        exact ⟨⟨_, kept, rfl⟩, ⟨_, kept, rfl⟩, ⟨_, kept, rfl⟩⟩

end Laws

end Xv6.Vm
