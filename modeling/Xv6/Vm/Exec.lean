import Xv6.Vm.ExecSegments
import Xv6.Vm.ExecStack

/-!
# Replacing the image of a process

`exec` makes a new page table, loads the segments of the program and adds the stack.
-/

namespace Xv6.Vm

open Command Bytes Ownership Xv6.Tree Function

variable {pf : Platform} {h : Holdings} {s s₀ after : Kernel}
  {spaces : Owner → Option AddressSpace} {kept : Keeper → Option Nat} {o : Owner}
  {a : AddressSpace} {p q r frame sz va : Nat} {v : View} {stop : Panic → Prop}

theorem Sane.swap (sane : Sane pf s spaces kept) (x y : Owner) :
    Sane pf s (fun o => spaces (Equiv.swap x y o)) kept :=
  ⟨sane.accounted.swap x y, fun o a owner => sane.space (Equiv.swap x y o) a owner⟩

theorem Sane.commit (sane : Sane pf s
      (update (update spaces .building (some a)) (.proc p) none) kept)
    (unowned : spaces .building = none) :
    Sane pf s (update spaces (.proc p) (some a)) kept := by
  have swapped := sane.swap .building (.proc p)
  have same : (fun o => update (update spaces .building (some a)) (.proc p) none
      (Equiv.swap .building (.proc p) o)) = update spaces (.proc p) (some a) := by
    funext o
    by_cases new : o = .proc p
    · subst new
      rw [Equiv.swap_apply_right, update_of_ne (by simp), update_self,
        update_self]
    · by_cases old : o = .building
      · subst old
        rw [Equiv.swap_apply_left, update_self, update_of_ne new, unowned]
      · rw [Equiv.swap_apply_of_ne_of_ne old new, update_of_ne new,
          update_of_ne old, update_of_ne new]
  rwa [same] at swapped

theorem Sound.framePage (sound : Sound pf h s) (live : (s.proc p).pagetable ≠ 0) :
    IsPage pf (s.proc p).trapframe := by
  obtain ⟨pages, books⟩ := sound.sane.accounted
  exact (books.balanced.inside (.kept (.trapframe p)) _
    (Proc.frame_some ((sound.ok p).framed live))).1

theorem changedIn_frame (mem : ByteMap) (page value : Nat) {offset : Nat}
    (inside : offset + 8 ≤ trapframeSize) :
    ChangedIn mem (store mem (page + offset) 8 value) page :=
  changedIn_store mem value (inside.trans (by decide))

theorem Sound.wp_begin (sound : Sound pf h s) (live : (s.proc p).pagetable ≠ 0)
    {post : Nat → Kernel → Prop}
    (refused : ∀ after, Quiet pf s (rootsOf (spacesOf s.proc h)) (keptOf s.proc h) .building after →
      post 0 after)
    (begun : ∀ r after, r ≠ 0 → Begun pf s (spacesOf s.proc h) (keptOf s.proc h) r
      (s.proc p).trapframe 0 after → post r after) :
    wp (procPagetable pf p) post stop s := by
  refine sound.sane.wp_procPagetable (o := .building) (p := p) rfl rfl rfl
    (sound.framePage live).small refused ?_
  intro r after nonzero sane within
  exact begun r after nonzero ⟨sane, within⟩

theorem Begun.wp_giveUp (begun : Begun pf s₀ spaces kept r frame sz s)
    (unowned : spaces .building = none) (hand : kept .hand = none) {post : PUnit → Kernel → Prop}
    (done : ∀ after, Quiet pf s₀ (rootsOf spaces) kept .building after → post ⟨⟩ after) :
    wp (procFreepagetable pf r sz) post stop s := by
  refine begun.sane.wp_procFreepagetable (building_owner spaces ⟨r, sz, frame⟩) hand ?_
  intro after _ quiet
  rw [rootsOf_update, Option.map_some] at quiet
  exact done after (Within.rollback (rootsOf_none unowned) begun.within quiet)

theorem Accounted.view_kept {roots : Owner → Option Nat} {mem' : ByteMap} {k : Keeper}
    (accounted : Accounted pf s roots kept) (holds : kept k = some q)
    (changed : ChangedIn s.mem mem' q) (owner : roots o = some r) :
    view mem' r = view s.mem r := by
  have same := accounted.scribble holds changed
  obtain ⟨pages, books⟩ := accounted
  have place : held s.mem roots kept (.kept k) = some q := holds
  funext n
  refine view_congr (fun user => same.leaves o r _ owner (user_lt_vaspace user)) ?_
  intro user valid
  exact books.frame_at place changed (by simp) (held_user owner user valid)

structure Committed (s : Kernel) (p r sz sp entry : Nat) (v : View) (after : Kernel) :
    Prop where
  processes : after.proc = update s.proc p { s.proc p with pagetable := r, sz := sz }
  shows : view after.mem r = v
  a1 : load after.mem ((s.proc p).trapframe + trapframeA1) 8 = sp % 2 ^ 64
  sp : load after.mem ((s.proc p).trapframe + trapframeSp) 8 = sp % 2 ^ 64
  epc : load after.mem ((s.proc p).trapframe + trapframeEpc) 8 = entry % 2 ^ 64

def setRegisters (mem : ByteMap) (frame sp epc : Nat) : ByteMap :=
  store (store (store mem (frame + trapframeA1) 8 sp) (frame + trapframeEpc) 8 epc)
    (frame + trapframeSp) 8 sp

theorem changedIn_setRegisters (mem : ByteMap) (frame sp epc : Nat) :
    ChangedIn mem (setRegisters mem frame sp epc) frame :=
  ((changedIn_frame mem frame sp (by decide : trapframeA1 + 8 ≤ trapframeSize)).trans
    (changedIn_frame _ frame epc (by decide : trapframeEpc + 8 ≤ trapframeSize))).trans
    (changedIn_frame _ frame sp (by decide : trapframeSp + 8 ≤ trapframeSize))

theorem load_setRegisters (mem : ByteMap) (frame sp epc : Nat) :
    load (setRegisters mem frame sp epc) (frame + trapframeA1) 8 = sp % 2 ^ 64 ∧
      load (setRegisters mem frame sp epc) (frame + trapframeSp) 8 = sp % 2 ^ 64 ∧
      load (setRegisters mem frame sp epc) (frame + trapframeEpc) 8 = epc % 2 ^ 64 := by
  simp only [setRegisters, trapframeA1, trapframeSp, trapframeEpc]
  refine ⟨?_, load_store_same .., ?_⟩
  · rw [load_store_disjoint _ _ (by omega), load_store_disjoint _ _ (by omega)]
    exact load_store_same ..
  · rw [load_store_disjoint _ _ (by omega)]
    exact load_store_same ..

theorem Sound.wp_commitImage (sound : Sound pf h s) (live : (s.proc p).pagetable ≠ 0)
    {image : Kernel} {r sz sp : Nat} (nonzero : r ≠ 0) (entry : Nat)
    (built : Image pf s (spacesOf s.proc h) (keptOf s.proc h) r (s.proc p).trapframe sz v image) :
    wp (commitImage pf p r sz sp entry) (fun _ after => Sound pf h after ∧
      Committed s p r sz sp entry v after) stop image := by
  have owner := spacesOf_proc (h := h) live
  have framed := (sound.ok p).framed live
  have holds : keptOf s.proc h (.trapframe p) = some (s.proc p).trapframe := Proc.frame_some framed
  have here : image.proc p = s.proc p := congrFun built.within.processes p
  have root := rootsOf_some (building_owner (spacesOf s.proc h) ⟨r, sz, (s.proc p).trapframe⟩)
  -- The registers are set in the trapframe, which concerns no address space.
  have written := changedIn_setRegisters image.mem (s.proc p).trapframe sp entry
  have saved := built.sane.same (built.sane.accounted.scribble holds written)
  have seen := built.sane.accounted.view_kept holds written root
  have registers := load_setRegisters image.mem (s.proc p).trapframe sp entry
  simp only [commitImage, wp_bind, wp_get, wp_storeWord, wp_setProc, here]
  change wp _ _ _ { image with
    mem := setRegisters image.mem (s.proc p).trapframe sp entry
    proc := update image.proc p { s.proc p with pagetable := r, sz := sz } }
  have old : update (spacesOf s.proc h) .building
      (some ⟨r, sz, (s.proc p).trapframe⟩) (.proc p) =
      some ⟨(s.proc p).pagetable, (s.proc p).sz, (s.proc p).trapframe⟩ := by
    rw [update_of_ne (by simp)]
    exact owner
  refine Sane.wp_procFreepagetable (saved.transport ?_ ?_) old rfl ?_
  · rfl
  · rfl
  intro after sane quiet
  have frame := quiet.frame (.kept (.trapframe p)) _ ⟨by simp, by simp⟩ holds
  have register : ∀ {offset}, offset + 8 ≤ trapframeSize →
      load after.mem ((s.proc p).trapframe + offset) 8 =
        load (setRegisters image.mem (s.proc p).trapframe sp entry)
          ((s.proc p).trapframe + offset) 8 := by
    intro offset inside
    refine load_congr fun a lower upper => frame a (by omega) ?_
    simp only [trapframeSize, PGSIZE] at *
    omega
  have processes : after.proc =
      update s.proc p { s.proc p with pagetable := r, sz := sz } := by
    rw [quiet.processes, built.within.processes]
  refine ⟨?_, processes, ?_, ?_, ?_, ?_⟩
  · refine sound.replace (p := p) (x := { s.proc p with pagetable := r, sz := sz })
      ⟨fun unused => absurd unused (sound.inUse live), fun _ => framed,
        fun none => absurd none nonzero⟩ ?_ processes
    have sameFrame : ({ s.proc p with pagetable := r, sz := sz } : Proc).frame =
        keptOf s.proc h (.trapframe p) := rfl
    rw [sameFrame, update_eq_self, Proc.space_some nonzero]
    exact sane.commit rfl
  · have other : Owner.building ≠ .proc p := by simp
    exact (quiet.view_other (fun _ _ nowhere => nowhere.elim)
      ((update_of_ne other ..).trans root) other).trans (seen.trans built.shows)
  · rw [register (by decide), registers.1]
  · rw [register (by decide), registers.2.1]
  · rw [register (by decide), registers.2.2]

theorem Sound.quiet (sound : Sound pf h s)
    (quiet : Quiet pf s (rootsOf (spacesOf s.proc h)) (keptOf s.proc h) o after) :
    Sound pf h after :=
  sound.renew (sound.sane.quiet quiet) quiet.processes

def Program.loaded (file : Program) : List Proghdr :=
  file.segments file.phnum (file.phoff % 2 ^ 32)

structure Assembled (file : Program) (argv : List (List UInt8)) (sz sp : Nat) (v : View) :
    Prop where
  bounded : sz ≤ TRAPFRAME
  headers : file.phnum ≠ 0 → file.phoff % 2 ^ 32 + file.phnum * 56 ≤ file.size
  segments : ∀ ph, ph ∈ file.loaded → Segment file sz ph
  memory : ∃ loaded, Holds loaded sz (file.loaded.foldl file.place fun _ => 0) ∧
    Stacked loaded (PGROUNDUP sz) argv sp v

def ImageEnded (pf : Platform) (s₀ : Kernel) (spaces : Owner → Option AddressSpace)
    (kept : Keeper → Option Nat) (r frame : Nat) (file : Program) (argv : List (List UInt8))
    (outcome : Nat × Option (Nat × Nat)) (after : Kernel) : Prop :=
  Begun pf s₀ spaces kept r frame outcome.1 after ∧
  ∀ sp argc, outcome.2 = some (sp, argc) → argc = argv.length ∧
    ∃ sz v, outcome.1 = PGROUNDUP sz + (USERSTACK + 1) * PGSIZE ∧
      Image pf s₀ spaces kept r frame outcome.1 v after ∧ Assembled file argv sz sp v

theorem Begun.wp_execImage (begun : Begun pf s₀ spaces kept r frame 0 s) (node : kept .node = none)
    (hand : kept .hand = none) (file : Program) (argv : List (List UInt8))
    (short : ∀ arg, arg ∈ argv → arg.length < 2 ^ 63)
    (overrun : argv.length = MAXARG → stop .ustack) :
    wp (execImage pf p r file argv) (ImageEnded pf s₀ spaces kept r frame file argv) stop s := by
  rw [execImage, wp_bind]
  refine wp_post (begun.image.wp_loadHeaders file node hand _ _ (holds_nothing _)) ?_
  rintro ⟨sz, good⟩ current ⟨loaded, headers⟩
  cases good with
  | false =>
    simp only [↓reduceIte, wp_pure]
    exact ⟨loaded.begun, fun sp argc none => by simp at none⟩
  | true =>
    obtain ⟨v, image, holds⟩ := loaded.image rfl
    have bounded : sz ≤ TRAPFRAME :=
      (image.sane.space _ _ (building_owner spaces ⟨r, sz, frame⟩)).bounded
    simp only [Bool.true_eq_false, ↓reduceIte]
    refine wp_post (image.wp_execStack holds.user node hand argv short overrun) ?_
    rintro outcome last ⟨begun', ended⟩
    refine ⟨begun', fun sp argc done => ?_⟩
    rcases ended with rfl | ⟨rfl, -⟩ | ⟨sp', v', rfl, -, image', stacked⟩
    · simp at done
    · simp at done
    · obtain ⟨rfl, rfl⟩ := Prod.mk.inj (Option.some.inj done)
      exact ⟨rfl, sz, v', rfl, image', bounded, headers rfl, loaded.each rfl, v, holds, stacked⟩

def Executed (s : Kernel) (p : Nat) (file : Program) (argv : List (List UInt8)) (after : Kernel) :
    Prop :=
  ∃ r sz sp v, Committed s p r (PGROUNDUP sz + (USERSTACK + 1) * PGSIZE) sp
    (load file.bytes 24 8) v after ∧ Assembled file argv sz sp v

def KexecEnded (pf : Platform) (h : Holdings) (s : Kernel) (p : Nat) (file : Program)
    (args : List (List UInt8)) (result : Int) (after : Kernel) : Prop :=
  result = -1 ∧ Quiet pf s (rootsOf (spacesOf s.proc h)) (keptOf s.proc h) .building after ∨
    result = args.length ∧ Executed s p file args after

theorem Sound.wp_kexec_cases (sound : Sound pf h s) (live : (s.proc p).pagetable ≠ 0)
    (file : Program) (args : List (List UInt8))
    (short : ∀ arg, arg ∈ args → arg.length < 2 ^ 63)
    (overrun : args.length = MAXARG → stop .ustack) :
    wp (kexec pf p (some file) args) (fun result after => Sound pf h after ∧
      KexecEnded pf h s p file args result after) stop s := by
  simp only [kexec]
  split
  · rw [wp_pure]
    exact ⟨sound, .inl ⟨rfl, Quiet.refl sound.sane.accounted⟩⟩
  rw [wp_bind]
  refine sound.wp_begin live (fun after quiet => ?_) ?_
  · rw [if_pos rfl, wp_pure]
    exact ⟨sound.quiet quiet, .inl ⟨rfl, quiet⟩⟩
  intro r empty nonzero begun
  rw [if_neg nonzero, wp_bind]
  refine wp_post (begun.wp_execImage rfl rfl file args short overrun) ?_
  rintro ⟨sz, built⟩ last ⟨begun', filled⟩
  cases built with
  | none =>
    simp only [wp_bind]
    refine begun'.wp_giveUp rfl rfl fun after quiet => ?_
    rw [wp_pure]
    exact ⟨sound.quiet quiet, .inl ⟨rfl, quiet⟩⟩
  | some stack =>
    obtain ⟨count, size, v, rfl, image, assembled⟩ := filled stack.1 stack.2 rfl
    simp only [wp_bind, wp_pure, count]
    refine wp_post (sound.wp_commitImage live nonzero _ image) ?_
    rintro _ final ⟨sound', committed⟩
    exact ⟨sound', .inr ⟨rfl, r, size, stack.1, v, committed, assembled⟩⟩

def imageResult : Option (Nat × Nat) → Int
  | none => -1
  | some (_, argc) => argc

theorem Sound.kexec_returns (sound : Sound pf h s) (live : (s.proc p).pagetable ≠ 0)
    {file : Program} {args : List (List UInt8)}
    (short : ∀ arg, arg ∈ args → arg.length < 2 ^ 63) (few : args.length ≠ MAXARG)
    (elf : file.isElf = true)
    {made image : Kernel} {sz : Nat} {built : Option (Nat × Nat)} (nonzero : r ≠ 0)
    (table : (procPagetable pf p).run s = .ok (r, made))
    (filled : (execImage pf p r file args).run made = .ok ((sz, built), image)) :
    ∃ after, (kexec pf p (some file) args).run s = .ok (imageResult built, after) := by
  have begins : wp (procPagetable pf p) (fun r made => r ≠ 0 →
      Begun pf s (spacesOf s.proc h) (keptOf s.proc h) r (s.proc p).trapframe 0 made)
      (fun _ => False) s :=
    sound.wp_begin live (fun _ _ none => absurd rfl none) fun _ _ _ begun _ => begun
  have begun := wp_returned begins table nonzero
  have fills : wp (execImage pf p r file args) _ (fun _ => False) made :=
    begun.wp_execImage rfl rfl file args short fun wrong => few wrong
  obtain ⟨begun', assembled⟩ := wp_returned fills filled
  -- What is left is to free the new image or to commit to it, and both return.
  have law : wp (kexec pf p (some file) args) (fun result _ => result = imageResult built)
      (fun _ => False) s := by
    simp only [kexec, elf, Bool.true_eq_false, ↓reduceIte]
    rw [wp_bind]
    refine wp_of_run table ?_
    rw [if_neg nonzero, wp_bind]
    refine wp_of_run filled ?_
    cases built with
    | none =>
      simp only [wp_bind, wp_pure]
      exact begun'.wp_giveUp rfl rfl fun _ _ => rfl
    | some stack =>
      obtain ⟨-, size, v, -, image', -⟩ := assembled stack.1 stack.2 rfl
      simp only [wp_bind, wp_pure]
      exact wp_post (sound.wp_commitImage live nonzero _ image') fun _ _ _ => rfl
  obtain ⟨_, after, ran, rfl⟩ := wp_total law
  exact ⟨after, ran⟩

theorem Sound.wp_kexec (sound : Sound pf h s) (live : (s.proc p).pagetable ≠ 0)
    (file : Option Program) (args : List (List UInt8))
    (short : ∀ arg, arg ∈ args → arg.length < 2 ^ 63)
    (overrun : args.length = MAXARG → stop .ustack) :
    wp (kexec pf p file args) (fun _ after => Sound pf h after) stop s := by
  cases file with
  | none =>
    simp only [kexec, wp_pure]
    exact sound
  | some program =>
    exact wp_post (sound.wp_kexec_cases live program args short overrun) fun _ _ ended => ended.1

end Xv6.Vm
