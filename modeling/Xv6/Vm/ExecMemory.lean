import Xv6.Vm.LazyAllocation

/-!
# The memory of a new program

What a program finds when `exec` has started it.
-/

namespace Xv6.Vm

open Command Bytes Ownership

variable {pf : Platform} {h : Holdings} {s after : Kernel} {p va : Nat} {file : Program}
  {argv : List (List UInt8)} {v : View} {content : ByteMap} {segments : List Proghdr}
  {ph : Proghdr}

section Machine

def oneSegment (off : Nat) : Program where
  word := by decide
  bytes := [(0, 4, ELF_MAGIC), (32, 8, 64), (56, 2, 1), (64, 4, ELF_PROG_LOAD), (72, 8, off),
    (96, 8, 1), (104, 8, 1)].foldl (fun bytes field => store bytes field.1 field.2.1 field.2.2)
      fun _ => 0
  size := 120

def buildsImage (pf : Platform) (file : Program) (argv : List (List UInt8)) (result : Int) : Bool :=
  match (oneProcess pf).run (beforeBoot fun _ => 0) with
  | .error _ => false
  | .ok (_, kernel) => (kernel.proc 0).pagetable ≠ 0 && file.isElf &&
    match (procPagetable pf 0).run kernel with
    | .error _ => false
    | .ok (r, made) => r ≠ 0 &&
      match (execImage pf 0 r file argv).run made with
      | .error _ => false
      | .ok (outcome, _) => imageResult outcome.2 = result

theorem buildsImage_elim (short : ∀ arg, arg ∈ argv → arg.length < 2 ^ 63)
    (few : argv.length ≠ MAXARG) {result : Int} (builds : buildsImage pf file argv result = true) :
    ∃ made s after, (oneProcess pf).run (beforeBoot fun _ => 0) = .ok (made, s) ∧
      Sound pf noHoldings s ∧ (s.proc 0).pagetable ≠ 0 ∧
      (kexec pf 0 (some file) argv).run s = .ok (result, after) := by
  unfold buildsImage at builds
  split at builds
  · simp at builds
  rename_i made kernel ran
  simp only [Bool.and_eq_true, decide_eq_true_eq] at builds
  obtain ⟨⟨live, elf⟩, builds⟩ := builds
  split at builds
  · simp at builds
  rename_i r empty table
  simp only [Bool.and_eq_true, decide_eq_true_eq] at builds
  obtain ⟨nonzero, builds⟩ := builds
  split at builds
  · simp at builds
  rename_i outcome image built
  rw [decide_eq_true_eq] at builds
  have sound := sound_oneProcess ran
  obtain ⟨after, done⟩ := sound.kexec_returns live short few elf nonzero table built
  rw [builds] at done
  exact ⟨made, kernel, after, ran, sound, live, done⟩

end Machine

section Arguments

structure ArgumentsPassed (p : Nat) (argv : List (List UInt8)) (after : Kernel) : Prop where
  large : (USERSTACK + 1) * PGSIZE ≤ (after.proc p).sz
  stack : ∃ sp addrs, load after.mem ((after.proc p).trapframe + trapframeA1) 8 = sp ∧
    load after.mem ((after.proc p).trapframe + trapframeSp) 8 = sp ∧
    ArgumentStack (view after.mem (after.proc p).pagetable) (after.proc p).sz argv addrs sp
  usable : ∀ va, (after.proc p).sz - USERSTACK * PGSIZE ≤ va → va < (after.proc p).sz →
    (view after.mem (after.proc p).pagetable).Allows PTE_U va ∧
    (view after.mem (after.proc p).pagetable).Allows PTE_R va ∧
    (view after.mem (after.proc p).pagetable).Allows PTE_W va
  guard : ∀ va, (after.proc p).sz - (USERSTACK + 1) * PGSIZE ≤ va →
    va < (after.proc p).sz - USERSTACK * PGSIZE →
    ¬ (view after.mem (after.proc p).pagetable).Allows PTE_U va

def pushes (argv : List (List UInt8)) : List Nat :=
  argv.map (fun arg => arg.length + 1) ++ [(argv.length + 1) * 8]

theorem stack_pages {base : Nat} :
    base + (USERSTACK + 1) * PGSIZE - (USERSTACK + 1) * PGSIZE = base ∧
      base + (USERSTACK + 1) * PGSIZE - USERSTACK * PGSIZE = base + PGSIZE := by
  simp only [PGSIZE, USERSTACK]
  omega

theorem Executed.arguments (executed : Executed s p file argv after) :
    ArgumentsPassed p argv after := by
  obtain ⟨r, sz, sp, v, committed, assembled⟩ := executed
  obtain ⟨loaded, -, stacked⟩ := assembled.memory
  obtain ⟨addrs, arguments⟩ := stacked.arguments
  have shown := committed.shows
  have process : after.proc p = { s.proc p with
      pagetable := r, sz := PGROUNDUP sz + (USERSTACK + 1) * PGSIZE } := by
    rw [committed.processes, Function.update_self]
  have size : (after.proc p).sz = PGROUNDUP sz + (USERSTACK + 1) * PGSIZE := by rw [process]
  have table : (after.proc p).pagetable = r := by rw [process]
  have frame : (after.proc p).trapframe = (s.proc p).trapframe := by rw [process]
  have word : sp < 2 ^ 64 := by
    have under := arguments.inside
    have bounded := (PGROUNDUP_spec assembled.bounded).2.2.2
    simp only [PGSIZE, USERSTACK, TRAPFRAME, TRAMPOLINE, MAXVA] at *
    omega
  refine ⟨by rw [size]; exact Nat.le_add_left .., ⟨sp, addrs, ?_, ?_, ?_⟩, ?_, ?_⟩
  · rw [frame, committed.a1, Nat.mod_eq_of_lt word]
  · rw [frame, committed.sp, Nat.mod_eq_of_lt word]
  · rw [table, size, shown]
    exact arguments
  · rw [table, size, shown, stack_pages.2]
    exact stacked.usable
  · rw [table, size, shown, stack_pages.1, stack_pages.2]
    exact stacked.guard

/-- `exec` builds a faithful argument stack. It returns -1, or the argument count
with the arguments passed. Once the pages of an image of whatever size and of its
stack are there, it fails if and only if the arguments do not fit. Lowering the
stack pointer never wraps around, since a page is below the stack, and every store into
`ustack` is inside it. -/
theorem exec_argument_stack (sound : Sound pf h s) (live : (s.proc p).pagetable ≠ 0)
    (file : Option Program) (argv : List (List UInt8)) (few : argv.length < MAXARG)
    (short : ∀ arg, arg ∈ argv → arg.length < PGSIZE) :
    (∃ result after, (kexec pf p file argv).run s = .ok (result, after) ∧
      (result = -1 ∨ result = argv.length ∧ ArgumentsPassed p argv after)) ∧
    (∀ r frame sz building, Building pf s (spacesOf s.proc h) (keptOf s.proc h) r frame 0 sz
        building →
      ∃ size built after, (execStack pf p r sz argv).run building = .ok ((size, built), after) ∧
        (size = PGROUNDUP sz ∧ built = none ∨
          size = PGROUNDUP sz + (USERSTACK + 1) * PGSIZE ∧
            (built = none ↔ USERSTACK * PGSIZE < stackNeed argv))) ∧
    (∀ stackbase sp n, PGSIZE ≤ stackbase → stackbase ≤ sp → sp < 2 ^ 64 → n ∈ pushes argv →
      push sp n + n ≤ sp) ∧
    ∀ ustack word kernel, ustack.length ≤ argv.length →
      (storeUstack ustack word).run kernel = .ok (ustack ++ [word], kernel) := by
  have inMemory : ∀ arg, arg ∈ argv → arg.length < 2 ^ 63 := fun arg member =>
    Nat.lt_trans (short arg member) (by decide)
  have terminated : argv.length = MAXARG → False := fun wrong => absurd wrong (Nat.ne_of_lt few)
  refine ⟨?_, ?_, ?_, ?_⟩
  · cases file with
    | none => exact ⟨-1, s, rfl, .inl rfl⟩
    | some program =>
      obtain ⟨result, after, ran, -, ended⟩ :=
        wp_total (sound.wp_kexec_cases live program argv inMemory terminated)
      exact ⟨result, after, ran, ended.imp And.left fun done => ⟨done.1, done.2.arguments⟩⟩
  · intro r frame sz image building
    obtain ⟨⟨size, built⟩, after, ran, -, ended⟩ := wp_total
      (building.toBegun.image.wp_execStack (p := p)
        (fun va below => building.allows (Nat.zero_le va) below) rfl rfl argv inMemory terminated)
    refine ⟨size, built, after, ran, ?_⟩
    rcases ended with denied | ⟨full, why⟩ | ⟨sp, v', done, fits, -⟩
    · exact .inl (Prod.mk.inj denied)
    · obtain ⟨rfl, rfl⟩ := Prod.mk.inj full
      exact .inr ⟨rfl, fun _ => why (Nat.le_of_lt few), fun _ => rfl⟩
    · obtain ⟨rfl, rfl⟩ := Prod.mk.inj done
      exact .inr ⟨rfl, fun none => by simp at none, fun beyond => absurd beyond (Nat.not_lt_of_le fits)⟩
  · intro stackbase sp n page above word member
    refine push_le ?_ word
    rw [pushes, List.mem_append, List.mem_map, List.mem_singleton] at member
    rcases member with ⟨arg, passed, rfl⟩ | rfl
    · have := short arg passed
      omega
    · simp only [PGSIZE, MAXARG] at *
      omega
  · intro ustack word kernel inside
    rw [storeUstack, if_pos (Nat.lt_of_le_of_lt inside few)]
    rfl

/-- The first process of the machine executes a program with one argument. -/
theorem exec_argument_stack_one : ∃ s after, Sound sixteenPages noHoldings s ∧
    (s.proc 0).pagetable ≠ 0 ∧
    (kexec sixteenPages 0 (some (oneSegment 0)) [[97]]).run s = .ok (1, after) ∧
    ArgumentsPassed 0 [[97]] after := by
  have short : ∀ arg, arg ∈ [[(97 : UInt8)]] → arg.length < PGSIZE := by decide
  have builds : buildsImage sixteenPages (oneSegment 0) [[97]] 1 = true := by decide +kernel
  obtain ⟨-, s, after, -, sound, live, ran⟩ := buildsImage_elim (by decide) (by decide) builds
  obtain ⟨⟨result, last, ran', ended⟩, -⟩ :=
    exec_argument_stack sound live (some (oneSegment 0)) [[97]] (by decide) short
  obtain ⟨rfl, rfl⟩ := Prod.mk.inj (Except.ok.inj (ran.symm.trans ran'))
  rcases ended with failed | ⟨-, passed⟩
  · exact absurd failed (by decide)
  · exact ⟨s, after, sound, live, ran, passed⟩

end Arguments

section Segments

def Program.described (file : Program) : List Proghdr :=
  file.segments file.phnum file.phoff

def Program.SmallOffsets (file : Program) : Prop :=
  (file.phnum = 0 ∨ file.phoff < 2 ^ 32) ∧
    ∀ ph, ph ∈ file.described → ph.filesz = 0 ∨ ph.off < 2 ^ 32

def Apart (left right : Proghdr) : Prop :=
  ∀ va, Covers left.vaddr left.memsz va → ¬ Covers right.vaddr right.memsz va

structure LoadsSegments (file : Program) (v : View) (guard : Nat) : Prop where
  headers : file.phnum ≠ 0 → file.phoff + file.phnum * 56 ≤ file.size
  bytes : ∀ ph, ph ∈ file.described → ∀ i, i < ph.filesz →
    ph.off + i < file.size ∧ v.byte (ph.vaddr + i) = some (file.bytes (ph.off + i))
  zeros : ∀ ph, ph ∈ file.described → ∀ i, ph.filesz ≤ i → i < ph.memsz →
    v.byte (ph.vaddr + i) = some 0
  rest : ∀ va, va < guard → (∀ ph, ph ∈ file.described → ¬ Covers ph.vaddr ph.memsz va) →
    v.byte va = some 0

theorem covers_inside {i : Nat} (inside : i < ph.memsz) :
    Covers ph.vaddr ph.memsz (ph.vaddr + i) := ⟨i, inside, rfl⟩

theorem place_other (short : ph.filesz ≤ ph.memsz) (other : ¬ Covers ph.vaddr ph.memsz va) :
    file.place content ph va = content va := by
  refine copy_outside _ _ ?_
  by_contra inside
  refine other ⟨va - ph.vaddr, by omega, ?_⟩
  congr 1
  omega

theorem foldl_place_other (short : ∀ ph, ph ∈ segments → ph.filesz ≤ ph.memsz)
    (other : ∀ ph, ph ∈ segments → ¬ Covers ph.vaddr ph.memsz va) :
    segments.foldl file.place content va = content va := by
  induction segments generalizing content with
  | nil => rfl
  | cons ph rest ih =>
    rw [List.foldl_cons, ih (fun next member => short next (List.mem_cons_of_mem ph member))
      fun next member => other next (List.mem_cons_of_mem ph member)]
    exact place_other (short ph (by simp)) (other ph (by simp))

theorem foldl_place_same (short : ∀ ph, ph ∈ segments → ph.filesz ≤ ph.memsz)
    (apart : segments.Pairwise Apart) (member : ph ∈ segments)
    (covers : Covers ph.vaddr ph.memsz va) :
    segments.foldl file.place content va = file.place content ph va := by
  induction segments generalizing content with
  | nil => simp at member
  | cons first rest ih =>
    rw [List.pairwise_cons] at apart
    have shorter := fun next inside => short next (List.mem_cons_of_mem first inside)
    rw [List.foldl_cons]
    rcases List.mem_cons.mp member with rfl | later
    · exact foldl_place_other shorter fun next inside => apart.1 next inside va covers
    · have untouched : file.place content first va = content va :=
        place_other (short first (by simp)) fun mine => apart.1 ph later va mine covers
      rw [ih shorter apart.2 later]
      generalize file.place content first = content' at untouched
      simp only [Program.place, copy, untouched]

theorem Program.SmallOffsets.loaded_eq (small : file.SmallOffsets) :
    file.loaded = file.described := by
  rcases small.1 with none | word
  · rw [Program.loaded, Program.described, none]
    rfl
  · rw [Program.loaded, Program.described, Nat.mod_eq_of_lt word]

theorem Assembled.loads {sz sp : Nat} (assembled : Assembled file argv sz sp v)
    (small : file.SmallOffsets) (apart : file.described.Pairwise Apart) :
    LoadsSegments file v (PGROUNDUP sz) := by
  obtain ⟨bounded, headers, segments, loaded, holds, stacked⟩ := assembled
  have rounded := (PGROUNDUP_spec bounded).2.1
  rw [small.loaded_eq] at segments holds
  have short := fun ph member => (segments ph member).short
  have byte : ∀ va, va < PGROUNDUP sz →
      v.byte va = some (file.described.foldl file.place (fun _ => 0) va) := by
    intro va below
    rw [stacked.below va below, holds.bytes va below]
  have inside : ∀ ph, ph ∈ file.described → ∀ i, i < ph.memsz →
      v.byte (ph.vaddr + i) = some (file.place (fun _ => 0) ph (ph.vaddr + i)) := by
    intro ph member i within
    have fits := (segments ph member).inImage
    rw [byte _ (by omega), foldl_place_same short apart member (covers_inside within)]
  refine ⟨fun some => ?_, fun ph member i within => ?_, fun ph member i beyond within => ?_,
    fun va below other => ?_⟩
  · have word : file.phoff < 2 ^ 32 := small.1.resolve_left some
    have := headers some
    rwa [Nat.mod_eq_of_lt word] at this
  · have segment := segments ph member
    have fits := segment.short
    have offset : ph.off % 2 ^ 32 = ph.off :=
      Nat.mod_eq_of_lt ((small.2 ph member).resolve_left (by omega))
    have inFile := segment.inFile (by omega)
    rw [offset] at inFile
    refine ⟨by omega, ?_⟩
    rw [inside ph member i (by omega), Program.place, offset,
      copy_inside _ _ (by omega) (by omega), Nat.add_sub_cancel_left]
  · rw [inside ph member i within, Program.place, copy_outside _ _ (by omega)]
  · rw [byte va below, foldl_place_other short other]

theorem LoadsSegments.small {guard : Nat} (loads : LoadsSegments file v guard) :
    file.SmallOffsets := by
  have word := file.word
  refine ⟨?_, fun ph member => ?_⟩
  · by_cases none : file.phnum = 0
    · exact .inl none
    · have := loads.headers none
      exact .inr (by omega)
  · by_cases none : ph.filesz = 0
    · exact .inl none
    · have := (loads.bytes ph member 0 (Nat.pos_of_ne_zero none)).1
      exact .inr (by omega)

/-- If no two segments of a file share a page, `exec` fails, or it loads what the file
describes exactly if the headers and the segments are at small offsets. -/
theorem exec_loads_segments (sound : Sound pf h s) (live : (s.proc p).pagetable ≠ 0)
    (file : Program) (argv : List (List UInt8))
    (inMemory : ∀ arg, arg ∈ argv → arg.length < 2 ^ 63) (few : argv.length ≠ MAXARG)
    (apart : file.described.Pairwise Apart) :
    ∃ result after, (kexec pf p (some file) argv).run s = .ok (result, after) ∧
      (result = -1 ∨ result = argv.length ∧
        (LoadsSegments file (view after.mem (after.proc p).pagetable)
          ((after.proc p).sz - (USERSTACK + 1) * PGSIZE) ↔ file.SmallOffsets)) := by
  obtain ⟨result, after, ran, -, ended⟩ := wp_total
    (sound.wp_kexec_cases live file argv inMemory fun wrong => few wrong)
  refine ⟨result, after, ran, ended.imp And.left fun done => ⟨done.1, ?_⟩⟩
  obtain ⟨r, sz, sp, v, committed, assembled⟩ := done.2
  have process : after.proc p = { s.proc p with
      pagetable := r, sz := PGROUNDUP sz + (USERSTACK + 1) * PGSIZE } := by
    rw [committed.processes, Function.update_self]
  have size : (after.proc p).sz = PGROUNDUP sz + (USERSTACK + 1) * PGSIZE := by rw [process]
  have table : (after.proc p).pagetable = r := by rw [process]
  rw [table, size, committed.shows, stack_pages.1]
  exact ⟨LoadsSegments.small, fun small => assembled.loads small apart⟩

theorem oneSegment_apart {segments : List Proghdr} (single : segments.length ≤ 1) :
    segments.Pairwise Apart := by
  cases segments with
  | nil => exact .nil
  | cons ph rest =>
    obtain rfl : rest = [] := List.length_eq_zero_iff.mp (by simpa using single)
    exact List.pairwise_singleton ..

/-- The first process of the machine executes a program whose segment is in the file. -/
theorem exec_loads_segments_one : ∃ s after, Sound sixteenPages noHoldings s ∧
    (s.proc 0).pagetable ≠ 0 ∧
    (kexec sixteenPages 0 (some (oneSegment 119)) []).run s = .ok (0, after) ∧
    LoadsSegments (oneSegment 119) (view after.mem (after.proc 0).pagetable)
      ((after.proc 0).sz - (USERSTACK + 1) * PGSIZE) := by
  have builds : buildsImage sixteenPages (oneSegment 119) [] 0 = true := by decide +kernel
  have headers : (oneSegment 119).phoff < 2 ^ 32 := by decide +kernel
  have offsets : ∀ ph, ph ∈ (oneSegment 119).described → ph.filesz = 0 ∨ ph.off < 2 ^ 32 := by
    decide +kernel
  have single : (oneSegment 119).described.length ≤ 1 := by decide +kernel
  obtain ⟨-, s, after, -, sound, live, ran⟩ := buildsImage_elim (by simp) (by decide) builds
  obtain ⟨result, last, ran', ended⟩ := exec_loads_segments sound live (oneSegment 119) []
    (by simp) (by decide) (oneSegment_apart single)
  obtain ⟨rfl, rfl⟩ := Prod.mk.inj (Except.ok.inj (ran.symm.trans ran'))
  rcases ended with failed | ⟨-, loaded⟩
  · exact absurd failed (by decide)
  · exact ⟨s, after, sound, live, ran, loaded.mpr ⟨.inr headers, offsets⟩⟩

/-- A segment at the offset 2 ^ 32 is not in a file of 120 bytes. Yet `exec` succeeds:
it loads the first byte of the file instead. -/
theorem segment_offset_truncated : ∃ s after, Sound sixteenPages noHoldings s ∧
    (s.proc 0).pagetable ≠ 0 ∧
    (kexec sixteenPages 0 (some (oneSegment (2 ^ 32))) []).run s = .ok (0, after) ∧
    (oneSegment (2 ^ 32)).described.Pairwise Apart ∧
    ¬ LoadsSegments (oneSegment (2 ^ 32)) (view after.mem (after.proc 0).pagetable)
      ((after.proc 0).sz - (USERSTACK + 1) * PGSIZE) := by
  have builds : buildsImage sixteenPages (oneSegment (2 ^ 32)) [] 0 = true := by decide +kernel
  have single : (oneSegment (2 ^ 32)).described.length ≤ 1 := by decide +kernel
  have outside : (oneSegment (2 ^ 32)).described.any
      (fun ph => 0 < ph.filesz && (oneSegment (2 ^ 32)).size ≤ ph.off) = true := by decide +kernel
  obtain ⟨-, s, after, -, sound, live, ran⟩ := buildsImage_elim (by simp) (by decide) builds
  refine ⟨s, after, sound, live, ran, oneSegment_apart single, fun loads => ?_⟩
  obtain ⟨ph, member, large⟩ := List.any_eq_true.mp outside
  rw [Bool.and_eq_true, decide_eq_true_eq, decide_eq_true_eq] at large
  have inFile := (loads.bytes ph member 0 large.1).1
  omega

end Segments

end Xv6.Vm
