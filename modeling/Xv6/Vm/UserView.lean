import Xv6.Vm.UserAccess

/-!
# What system calls see of user memory

A view shows of an address space what a copy between kernel and user memory can tell: for each
virtual page its flags and its bytes.
-/

namespace Xv6.Vm

open Command Bytes Ownership Xv6.Tree Function

variable {pf : Platform} {s after : Kernel} {spaces : Owner → Option AddressSpace}
  {roots : Owner → Option Nat} {kept : Keeper → Option Nat} {mem mem' : ByteMap} {o : Owner}
  {a : AddressSpace} {p r q n va : Nat} {stop : Panic → Prop}

section Views

/-- The flags and the bytes of a mapped page. -/
structure PageView where
  flags : Nat
  bytes : ByteMap

def window (mem : ByteMap) (q : Nat) : ByteMap := fun i => if i < PGSIZE then mem (q + i) else 0

/-- What an entry shows. -/
def pageView (mem : ByteMap) (pte : Nat) : Option PageView :=
  if hasFlag pte PTE_V then some ⟨PTE_FLAGS pte, window mem (PTE2PA pte)⟩ else none

abbrev View := Nat → Option PageView

def view (mem : ByteMap) (r : Nat) : View := fun n =>
  if n * PGSIZE < TRAPFRAME then pageView mem (leaf mem r (n * PGSIZE)) else none

/-- What `vmfault` maps. -/
def zeroPage : PageView := ⟨PTE_W ||| PTE_U ||| PTE_R ||| PTE_V, fun _ => 0⟩

def View.eager (v : View) (sz : Nat) : View := fun n =>
  if n * PGSIZE < sz then some ((v n).getD zeroPage) else v n

def View.userPage (v : View) (va : Nat) : Option PageView :=
  (v (va / PGSIZE)).filter fun page => hasFlag page.flags PTE_U

def Covers (start n va : Nat) : Prop := ∃ i, i < n ∧ (start + i) / PGSIZE = va / PGSIZE

def View.read (v : View) : Nat → Nat → Nat → Nat → ByteMap → Int × ByteMap
  | 0, _, _, _, dst => (0, dst)
  | rounds + 1, srcva, done, len, dst =>
    if len = 0 then (0, dst)
    else
      let va0 := PGROUNDDOWN srcva
      match v.userPage va0 with
      | none => (-1, dst)
      | some page =>
        let n := min (PGSIZE - (srcva - va0)) len
        v.read rounds (add64 va0 PGSIZE) (done + n) (len - n)
          (copy dst done page.bytes (srcva - va0) n)

def View.write (v : View) (src : ByteMap) : Nat → Nat → Nat → Nat → Int × View
  | 0, _, _, _ => (0, v)
  | rounds + 1, dstva, done, len =>
    if len = 0 then (0, v)
    else
      let va0 := PGROUNDDOWN dstva
      match v.userPage va0 with
      | none => (-1, v)
      | some page =>
        if hasFlag page.flags PTE_W = false then (-1, v)
        else
          let n := min (PGSIZE - (dstva - va0)) len
          View.write (update v (va0 / PGSIZE)
              (some { page with bytes := copy page.bytes (dstva - va0) src done n }))
            src rounds (add64 va0 PGSIZE) (done + n) (len - n)

def View.string (v : View) : Nat → Nat → Nat → Nat → ByteMap → Int × ByteMap
  | 0, _, _, _, dst => (-1, dst)
  | rounds + 1, srcva, done, max, dst =>
    if max = 0 then (-1, dst)
    else
      let va0 := PGROUNDDOWN srcva
      match v.userPage va0 with
      | none => (-1, dst)
      | some page =>
        let n := min (PGSIZE - (srcva - va0)) max
        let (gotNull, dst) := copyString page.bytes n (srcva - va0) done dst
        if gotNull then (0, dst)
        else v.string rounds (add64 va0 PGSIZE) (done + n) (max - n) dst

variable {v : View} {sz : Nat}

theorem View.eager_eager (v : View) (sz : Nat) : (v.eager sz).eager sz = v.eager sz := by
  funext n
  by_cases below : n * PGSIZE < sz <;> simp [View.eager, below]

theorem View.eager_of_le (beyond : sz ≤ n * PGSIZE) : v.eager sz n = v n :=
  if_neg (Nat.not_lt_of_le beyond)

theorem View.eager_of_some {page : PageView} (mapped : v n = some page) :
    v.eager sz n = some page := by
  by_cases below : n * PGSIZE < sz <;> simp [View.eager, below, mapped]

theorem View.eager_of_none (below : n * PGSIZE < sz) (unmapped : v n = none) :
    v.eager sz n = some zeroPage := by
  simp [View.eager, below, unmapped]

theorem View.eager_update (v : View) (sz n : Nat) (page : PageView) :
    View.eager (update v n (some page)) sz =
      update (v.eager sz) n (some page) := by
  funext m
  by_cases same : m = n
  · subst same
    rw [update_self]
    exact View.eager_of_some (update_self ..)
  · simp only [View.eager, update_of_ne same]

theorem window_inside {i : Nat} (inside : i < PGSIZE) : window mem q i = mem (q + i) :=
  if_pos inside

theorem window_congr (same : SamePage mem mem' q) : window mem' q = window mem q := by
  funext i
  by_cases inside : i < PGSIZE
  · rw [window_inside inside, window_inside inside]
    exact same _ (Nat.le_add_right ..) (by omega)
  · simp only [window, inside, ↓reduceIte]

theorem window_zeroed (zeroed : Zeroed mem q) : window mem q = fun _ => 0 := by
  funext i
  by_cases inside : i < PGSIZE
  · rw [window_inside inside]
    exact zeroed _ (Nat.le_add_right ..) (by omega)
  · simp only [window, inside, ↓reduceIte]

theorem window_copy (mem src : ByteMap) {q offset start length : Nat}
    (inside : offset + length ≤ PGSIZE) :
    window (copy mem (q + offset) src start length) q =
      copy (window mem q) offset src start length := by
  funext i
  by_cases within : offset ≤ i ∧ i < offset + length
  · rw [window_inside (by omega), copy_inside _ _ (by omega) (by omega),
      copy_inside _ _ within.1 within.2]
    congr 1
    omega
  · rw [copy_outside (window mem q) src (by omega)]
    by_cases onPage : i < PGSIZE
    · rw [window_inside onPage, window_inside onPage, copy_outside mem src (by omega)]
    · simp only [window, onPage, ↓reduceIte]

theorem pageView_valid {pte : Nat} (valid : hasFlag pte PTE_V = true) :
    pageView mem pte = some ⟨PTE_FLAGS pte, window mem (PTE2PA pte)⟩ :=
  if_pos valid

theorem pageView_invalid {pte : Nat} (invalid : hasFlag pte PTE_V = false) :
    pageView mem pte = none := by
  simp [pageView, invalid]

theorem view_user (user : n * PGSIZE < TRAPFRAME) :
    view mem r n = pageView mem (leaf mem r (n * PGSIZE)) :=
  if_pos user

theorem view_at (user : va < TRAPFRAME) :
    view mem r (va / PGSIZE) = pageView mem (leaf mem r va) := by
  have start : va / PGSIZE * PGSIZE < TRAPFRAME :=
    Nat.lt_of_le_of_lt (Nat.div_mul_le_self ..) user
  rw [view_user start, leaf_page (user_lt_vaspace start) (user_lt_vaspace user)
    (Nat.mul_div_cancel _ (by decide))]

theorem view_above (above : TRAPFRAME ≤ va) : view mem r (va / PGSIZE) = none := by
  refine if_neg ?_
  simp only [TRAPFRAME, TRAMPOLINE, MAXVA, PGSIZE] at *
  omega

theorem view_congr
    (entry : n * PGSIZE < TRAPFRAME → leaf mem' r (n * PGSIZE) = leaf mem r (n * PGSIZE))
    (bytes : n * PGSIZE < TRAPFRAME → hasFlag (leaf mem r (n * PGSIZE)) PTE_V = true →
      SamePage mem mem' (PTE2PA (leaf mem r (n * PGSIZE)))) :
    view mem' r n = view mem r n := by
  by_cases user : n * PGSIZE < TRAPFRAME
  · rw [view_user user, view_user user, entry user]
    cases valid : hasFlag (leaf mem r (n * PGSIZE)) PTE_V with
    | true => rw [pageView_valid valid, pageView_valid valid, window_congr (bytes user valid)]
    | false => rw [pageView_invalid valid, pageView_invalid valid]
  · simp only [view, user, ↓reduceIte]

theorem Within.view_eq {region : Owner → Nat → Prop}
    (within : Within pf s roots kept o region after) (owner : roots o = some r)
    (outside : ¬ region o (n * PGSIZE)) : view after.mem r n = view s.mem r n :=
  view_congr (fun user => within.leaves o r _ owner (user_lt_vaspace user) outside)
    fun user valid => within.samePage owner user outside valid

theorem Within.view_other {region : Owner → Nat → Prop} {o' : Owner}
    (within : Within pf s roots kept o' region after) (only : ∀ o va, region o va → o = o')
    (owner : roots o = some r) (other : o ≠ o') : view after.mem r = view s.mem r := by
  funext n
  refine view_congr (fun user => ?_) fun user valid => ?_
  · exact within.leaves o r _ owner (user_lt_vaspace user) fun inside => other (only _ _ inside)
  · exact within.frame (.page o (pathOf (n * PGSIZE))) _ (.inl other) (held_user owner user valid)

theorem Accounted.view_scribble (accounted : Accounted pf s roots kept) (owner : roots o = some r)
    (mapped : UserPage s r va q) (changed : ChangedIn s.mem mem' q) :
    view mem' r = update (view s.mem r) (va / PGSIZE)
      (some ⟨PTE_FLAGS (leaf s.mem r va), window mem' q⟩) := by
  have same := accounted.scribble_user owner mapped changed
  funext m
  by_cases here : m = va / PGSIZE
  · subst here
    have entry : leaf mem' r va = leaf s.mem r va :=
      same.leaves o r va owner (user_lt_vaspace mapped.user)
    rw [update_self, view_at mapped.user, entry, pageView_valid mapped.valid,
      mapped.page]
  · rw [update_of_ne here]
    refine view_congr (fun user => same.leaves o r _ owner (user_lt_vaspace user)) ?_
    intro user valid
    obtain ⟨pages, books⟩ := accounted
    refine books.frame_at (mapped.held owner) changed ?_ (held_user owner user valid)
    intro places
    injection places with _ paths
    have pages := (pathOf_eq (user_lt_vaspace user) (user_lt_vaspace mapped.user)).mp paths
    rw [Nat.mul_div_cancel m (by decide)] at pages
    exact here pages

def View.byte (v : View) (va : Nat) : Option UInt8 :=
  (v (va / PGSIZE)).map fun page => page.bytes (va % PGSIZE)

def View.flags (v : View) (va : Nat) : Option Nat := (v (va / PGSIZE)).map PageView.flags

structure Replaced (v : View) (start : Nat) (src : ByteMap) (n : Nat) (v' : View) : Prop where
  flags : ∀ va, v'.flags va = v.flags va
  bytes : ∀ va, v'.byte va =
    if start ≤ va ∧ va < start + n then some (src (va - start)) else v.byte va

theorem View.userPage_down (v : View) (va : Nat) : v.userPage (PGROUNDDOWN va) = v.userPage va := by
  rw [View.userPage, PGROUNDDOWN, Nat.mul_div_cancel _ (by decide), View.userPage]

theorem page_of (va : Nat) : PGROUNDDOWN va / PGSIZE = va / PGSIZE :=
  Nat.mul_div_cancel _ (by decide)

variable {v' : View} {src : ByteMap} {page : PageView} {start k : Nat}

theorem View.mapped_of_userPage (found : v.userPage va = some page) :
    v (va / PGSIZE) = some page := by
  rw [View.userPage, Option.filter_eq_some_iff] at found
  exact found.1

theorem offset_eq (va : Nat) : va - PGROUNDDOWN va = va % PGSIZE := by
  simp only [PGROUNDDOWN, PGSIZE]
  omega

theorem Replaced.refl (v : View) (start : Nat) (src : ByteMap) : Replaced v start src 0 v := by
  refine ⟨fun _ => rfl, fun va => ?_⟩
  rw [if_neg (by omega)]

/-- Writing the next bytes on their page. -/
theorem Replaced.write (replaced : Replaced v start src n v')
    (found : v'.userPage (start + n) = some page) (fits : (start + n) % PGSIZE + k ≤ PGSIZE) :
    Replaced v start src (n + k) (update v' ((start + n) / PGSIZE)
      (some { page with bytes := copy page.bytes ((start + n) % PGSIZE) src n k })) := by
  have mapped := View.mapped_of_userPage found
  constructor
  · intro va
    rw [← replaced.flags va]
    by_cases here : va / PGSIZE = (start + n) / PGSIZE
    · simp only [View.flags, here, update_self, mapped, Option.map_some]
    · simp only [View.flags, update_of_ne here]
  · intro va
    by_cases here : va / PGSIZE = (start + n) / PGSIZE
    · have byte : v'.byte va = some (page.bytes (va % PGSIZE)) := by
        rw [View.byte, here, mapped, Option.map_some]
      rw [View.byte, here, update_self, Option.map_some]
      dsimp only
      by_cases inside : (start + n) % PGSIZE ≤ va % PGSIZE ∧
          va % PGSIZE < (start + n) % PGSIZE + k
      · rw [copy_inside _ _ inside.1 inside.2, if_pos (by simp only [PGSIZE] at *; omega)]
        congr 2
        simp only [PGSIZE] at *
        omega
      · rw [copy_outside _ _ (by omega), ← byte, replaced.bytes va]
        by_cases old : start ≤ va ∧ va < start + n
        · rw [if_pos old, if_pos (by omega)]
        · rw [if_neg old, if_neg (by simp only [PGSIZE] at *; omega)]
    · have same : View.byte (update v' ((start + n) / PGSIZE)
          (some { page with bytes := copy page.bytes ((start + n) % PGSIZE) src n k })) va =
          v'.byte va := by
        simp only [View.byte, update_of_ne here]
      rw [same, replaced.bytes va]
      by_cases old : start ≤ va ∧ va < start + n
      · rw [if_pos old, if_pos (by omega)]
      · rw [if_neg old, if_neg (by simp only [PGSIZE] at *; omega)]

end Views

section Laws

/-- A process runs in an address space of a sane state. -/
structure Running (pf : Platform) (spaces : Owner → Option AddressSpace)
    (kept : Keeper → Option Nat) (o : Owner) (a : AddressSpace) (p : Nat) (s : Kernel) : Prop where
  sane : Sane pf s spaces kept
  owner : spaces o = some a
  table : (s.proc p).pagetable = a.root
  size : (s.proc p).sz = a.sz
  node : kept .node = none
  hand : kept .hand = none

theorem Running.move (running : Running pf spaces kept o a p s) (sane : Sane pf after spaces kept)
    (processes : after.proc = s.proc) : Running pf spaces kept o a p after :=
  ⟨sane, running.owner, by rw [processes, running.table], by rw [processes, running.size],
    running.node, running.hand⟩

def AddressSpace.seen (a : AddressSpace) (s : Kernel) : View := (view s.mem a.root).eager a.sz

structure Shows (pf : Platform) (spaces : Owner → Option AddressSpace)
    (kept : Keeper → Option Nat) (o : Owner) (a : AddressSpace) (p denied : Nat) (v : View)
    (after : Kernel) : Prop where
  running : Running pf spaces kept o a p after
  seen : a.seen after = v
  denied : denied ≤ after.denied

theorem Running.shows (running : Running pf spaces kept o a p s) :
    Shows pf spaces kept o a p s.denied (a.seen s) s :=
  ⟨running, rfl, Nat.le_refl _⟩

structure PageAt (s : Kernel) (r va q : Nat) (page : PageView) : Prop where
  mapped : UserPage s r va q
  page : page = ⟨PTE_FLAGS (leaf s.mem r va), window s.mem q⟩

variable {denied : Nat} {v : View} {page : PageView}

theorem View.userPage_eager {sz : Nat} (same : sz ≤ va / PGSIZE * PGSIZE ∨ v (va / PGSIZE) ≠ none) :
    (v.eager sz).userPage va = v.userPage va := by
  rcases same with beyond | mapped
  · rw [View.userPage, View.eager_of_le beyond, View.userPage]
  · obtain ⟨page, found⟩ := Option.ne_none_iff_exists'.mp mapped
    rw [View.userPage, View.eager_of_some found, View.userPage, found]

theorem Sane.wp_walkaddr (sane : Sane pf s spaces kept) (owner : spaces o = some a) (va : Nat) :
    wp (walkaddr pf a.root va) (fun q after => after = s ∧
      (q = 0 → (view s.mem a.root).userPage va = none) ∧
      (q ≠ 0 → ∃ page, (view s.mem a.root).userPage va = some page ∧
        PageAt s a.root va q page)) stop s := by
  refine Vm.wp_walkaddr ?_ ?_
  · intro low valid user
    have below := (sane.space o a owner).user low valid user
    have mapped : UserPage s a.root va (PTE2PA (leaf s.mem a.root va)) := ⟨below, valid, rfl⟩
    have nonzero := (mapped.isPage sane.accounted (rootsOf_some owner)).nonzero
    refine ⟨rfl, fun zero => absurd zero nonzero, fun _ => ⟨_, ?_, mapped, rfl⟩⟩
    have flag : hasFlag (PTE_FLAGS (leaf s.mem a.root va)) PTE_U = true := by
      rwa [← hasFlag_low _ _ (by decide)]
    simp [View.userPage, view_at below, pageView_valid valid, flag]
  · intro notUser
    refine ⟨rfl, fun _ => ?_, fun nonzero => absurd rfl nonzero⟩
    by_cases below : va < TRAPFRAME
    · rw [View.userPage, view_at below]
      cases valid : hasFlag (leaf s.mem a.root va) PTE_V with
      | false => rw [pageView_invalid valid, Option.filter_none]
      | true =>
        have kernelOnly : hasFlag (PTE_FLAGS (leaf s.mem a.root va)) PTE_U = false := by
          rw [← hasFlag_low _ _ (by decide), ← Bool.not_eq_true]
          exact fun user => notUser ⟨Nat.lt_trans below (by decide), valid, user⟩
        simp [pageView_valid valid, kernelOnly]
    · rw [View.userPage, view_above (Nat.le_of_not_lt below), Option.filter_none]

theorem MappedAt.view_zero (running : Running pf spaces kept o a p s) (aligned : va % PGSIZE = 0)
    (below : va < a.sz) (invalid : hasFlag (leaf s.mem a.root va) PTE_V = false)
    (isPage : IsPage pf q)
    (mapped : MappedAt pf s (rootsOf spaces) kept o va
      (PA2PTE q ||| (PTE_W ||| PTE_U ||| PTE_R ||| PTE_V)) after)
    (zeroed : Zeroed after.mem q) :
    view after.mem a.root = update (view s.mem a.root) (va / PGSIZE) (some zeroPage) ∧
      a.seen s (va / PGSIZE) = some zeroPage ∧ PageAt after a.root va q zeroPage := by
  have root := rootsOf_some running.owner
  have back : va / PGSIZE * PGSIZE = va := Nat.div_mul_cancel (Nat.dvd_of_mod_eq_zero aligned)
  have user : va < TRAPFRAME :=
    Nat.lt_of_lt_of_le below (running.sane.space o a running.owner).bounded
  have entry := mapped.here a.root root
  have valid : hasFlag (leaf after.mem a.root va) PTE_V = true := by
    rw [entry, hasFlag_pte q (by decide) (by decide)]
    decide
  have address : PTE2PA (leaf after.mem a.root va) = q := by
    rw [entry]
    exact PTE2PA_or isPage.1 isPage.wide (by decide)
  have page : zeroPage = ⟨PTE_FLAGS (leaf after.mem a.root va), window after.mem q⟩ := by
    rw [entry, PTE_FLAGS_or q (by decide), window_zeroed zeroed]
    rfl
  have changed : view after.mem a.root =
      update (view s.mem a.root) (va / PGSIZE) (some zeroPage) := by
    funext m
    by_cases here : m = va / PGSIZE
    · rw [here, update_self, view_at user, pageView_valid valid, address, page]
    · rw [update_of_ne here]
      refine mapped.within.view_eq root ?_
      rintro ⟨-, same⟩
      rw [Nat.mul_div_cancel m (by decide)] at same
      exact here same
  have completed : a.seen s (va / PGSIZE) = some zeroPage :=
    View.eager_of_none (by rw [back]; exact below)
      ((view_at user).trans (pageView_invalid invalid))
  exact ⟨changed, completed, ⟨user, valid, address⟩, page⟩

theorem Running.unmapped_above (running : Running pf spaces kept o a p s)
    (aligned : va % PGSIZE = 0) (above : TRAPFRAME ≤ va) : (a.seen s).userPage va = none := by
  have space := running.sane.space o a running.owner
  have back : va / PGSIZE * PGSIZE = va := Nat.div_mul_cancel (Nat.dvd_of_mod_eq_zero aligned)
  rw [AddressSpace.seen, View.userPage_eager (.inl (by rw [back]; exact space.bounded.trans above)),
    View.userPage, view, if_neg (by rw [back]; exact Nat.not_lt_of_le above), Option.filter_none]

theorem Shows.wp_userPage (shows : Shows pf spaces kept o a p denied v s)
    (aligned : va % PGSIZE = 0) :
    wp (userPage pf p a.root va) (fun q after => Shows pf spaces kept o a p denied v after ∧
      (q = 0 → after.denied = denied → v.userPage va = none) ∧
      (q ≠ 0 → ∃ page, v.userPage va = some page ∧ PageAt after a.root va q page)) stop s := by
  obtain ⟨running, rfl, counted⟩ := shows
  have back : va / PGSIZE * PGSIZE = va := Nat.div_mul_cancel (Nat.dvd_of_mod_eq_zero aligned)
  rw [userPage, wp_bind]
  refine wp_post (running.sane.wp_walkaddr running.owner _) ?_
  rintro q s ⟨rfl, absent, present⟩
  by_cases nothing : q = 0
  · rw [if_pos nothing]
    refine running.sane.wp_fault running.owner running.table running.size running.node running.hand
      ?_ ?_
    · intro after quiet reason
      have same : view after.mem a.root = view s.mem a.root :=
        funext fun n => quiet.view_eq (rootsOf_some running.owner) id
      refine ⟨⟨running.move (running.sane.quiet quiet) quiet.processes, ?_,
        counted.trans quiet.denied⟩, fun _ enough => ?_, fun nonzero => absurd rfl nonzero⟩
      · rw [AddressSpace.seen, AddressSpace.seen, same]
      · rw [PGROUNDDOWN_aligned aligned] at reason
        have shown : a.sz ≤ va / PGSIZE * PGSIZE ∨ view s.mem a.root (va / PGSIZE) ≠ none := by
          rw [back]
          by_cases below : va < TRAPFRAME
          · rcases reason with beyond | valid | short
            · exact .inl beyond
            · exact .inr (by rw [view_at below, pageView_valid valid]; simp)
            · omega
          · exact .inl ((running.sane.space o a running.owner).bounded.trans
              (Nat.le_of_not_lt below))
        rw [AddressSpace.seen, View.userPage_eager shown, absent nothing]
    · intro q after below invalid isPage mapped zeroed
      have sane := running.sane.mapped running.owner below mapped
      rw [PGROUNDDOWN_aligned aligned] at mapped invalid
      obtain ⟨changed, completed, at_⟩ :=
        mapped.view_zero running aligned below invalid isPage zeroed
      refine ⟨⟨running.move sane mapped.within.processes, ?_, counted.trans mapped.within.denied⟩,
        fun zero => absurd zero isPage.nonzero, fun _ => ⟨zeroPage, ?_, at_⟩⟩
      · rw [AddressSpace.seen, changed, View.eager_update]
        exact (update_eq_self_iff ..).mpr completed.symm
      · rw [View.userPage, completed]
        rfl
  · obtain ⟨page, found, at_⟩ := present nothing
    have mapped : view s.mem a.root (va / PGSIZE) ≠ none := by
      intro unmapped
      simp [View.userPage, unmapped] at found
    rw [if_neg nothing, wp_pure]
    refine ⟨⟨running, rfl, counted⟩, fun zero => absurd zero nothing, fun _ => ⟨page, ?_, at_⟩⟩
    rw [AddressSpace.seen, View.userPage_eager (.inr mapped), found]

theorem Shows.write (shows : Shows pf spaces kept o a p denied v s)
    (at_ : PageAt s a.root va q page) {src : ByteMap} {offset start length : Nat}
    (inside : offset + length ≤ PGSIZE) :
    Shows pf spaces kept o a p denied (update v (va / PGSIZE)
      (some { page with bytes := copy page.bytes offset src start length }))
      { s with mem := copy s.mem (q + offset) src start length } := by
  have root := rootsOf_some shows.running.owner
  have accounted := shows.running.sane.accounted
  have changed : ChangedIn s.mem (copy s.mem (q + offset) src start length) q :=
    changedIn_copy s.mem src inside
  refine ⟨shows.running.move (shows.running.sane.same
    (accounted.scribble_user root at_.mapped changed)) rfl, ?_, shows.denied⟩
  rw [← shows.seen, AddressSpace.seen, AddressSpace.seen,
    accounted.view_scribble root at_.mapped changed, View.eager_update,
    window_copy s.mem src inside, at_.page]

theorem PageAt.byte (found : PageAt s r va q page) {offset i : Nat} (inside : offset + i < PGSIZE) :
    page.bytes (offset + i) = s.mem (q + offset + i) := by
  rw [found.page, Nat.add_assoc]
  exact window_inside inside

theorem offset_lt (va : Nat) : va - PGROUNDDOWN va < PGSIZE := by
  simp only [PGROUNDDOWN, PGSIZE]
  omega

theorem PageAt.copy_eq (found : PageAt s r va q page) (dst : ByteMap) (done : Nat)
    {offset length : Nat} (inside : offset + length ≤ PGSIZE) :
    copy dst done s.mem (q + offset) length = copy dst done page.bytes offset length := by
  exact copy_congr fun i within => (found.byte (by omega)).symm

theorem Shows.wp_copyinRounds (rounds srcva done len : Nat) (dst : ByteMap)
    (shows : Shows pf spaces kept o a p denied v s) :
    wp (copyinRounds pf p a.root rounds srcva done len dst) (fun result after =>
      Shows pf spaces kept o a p denied v after ∧
      (after.denied = denied → result = v.read rounds srcva done len dst)) stop s := by
  induction rounds generalizing s srcva done len dst with
  | zero =>
    rw [copyinRounds, wp_pure]
    exact ⟨shows, fun _ => rfl⟩
  | succ rounds ih =>
    rw [copyinRounds, View.read]
    split
    · rw [wp_pure]
      exact ⟨shows, fun _ => rfl⟩
    · rw [wp_bind]
      refine wp_post (shows.wp_userPage (Nat.mul_mod_left _ PGSIZE)) ?_
      rintro q after ⟨shows', absent, present⟩
      by_cases nothing : q = 0
      · rw [if_pos nothing, wp_pure]
        refine ⟨shows', fun enough => ?_⟩
        simp only [absent nothing enough]
      · obtain ⟨page, found, at_⟩ := present nothing
        rw [if_neg nothing, wp_bind, wp_get]
        simp only [found]
        have range := offset_lt srcva
        rw [at_.copy_eq dst done (by omega)]
        exact ih _ _ _ _ shows'

theorem Shows.wp_copyoutRounds (src : ByteMap) (rounds dstva done len : Nat)
    (shows : Shows pf spaces kept o a p denied v s) :
    wp (copyoutRounds pf p a.root src rounds dstva done len) (fun result after =>
      Running pf spaces kept o a p after ∧ denied ≤ after.denied ∧
      (after.denied = denied →
        (result, a.seen after) = v.write src rounds dstva done len)) stop s := by
  induction rounds generalizing s v dstva done len with
  | zero =>
    rw [copyoutRounds, wp_pure]
    exact ⟨shows.running, shows.denied, fun _ => by rw [View.write, shows.seen]⟩
  | succ rounds ih =>
    rw [copyoutRounds, View.write]
    split
    · rw [wp_pure]
      exact ⟨shows.running, shows.denied, fun _ => by rw [shows.seen]⟩
    · have aligned : PGROUNDDOWN dstva % PGSIZE = 0 := Nat.mul_mod_left _ PGSIZE
      have range := offset_lt dstva
      by_cases high : MAXVA ≤ PGROUNDDOWN dstva
      · rw [if_pos high, wp_pure]
        have unmapped : v.userPage (PGROUNDDOWN dstva) = none := by
          rw [← shows.seen]
          exact shows.running.unmapped_above aligned (Nat.le_trans (by decide) high)
        exact ⟨shows.running, shows.denied, fun _ => by simp only [unmapped, shows.seen]⟩
      · have low : PGROUNDDOWN dstva < MAXVA := Nat.lt_of_not_le high
        rw [if_neg high, wp_bind]
        refine wp_post (shows.wp_userPage aligned) ?_
        rintro q after ⟨shows', absent, present⟩
        by_cases nothing : q = 0
        · rw [if_pos nothing, wp_pure]
          refine ⟨shows'.running, shows'.denied, fun enough => ?_⟩
          simp only [absent nothing enough, shows'.seen]
        · obtain ⟨page, found, at_⟩ := present nothing
          rw [if_neg nothing, wp_bind]
          simp only [found]
          refine wp_walk_look low ?_ ?_
          · intro unreached
            have valid := at_.mapped.valid
            rw [leaf_of_none unreached, hasFlag_zero] at valid
            exact absurd valid (by simp)
          · intro t reached
            have loaded : load after.mem (t + 8 * PX 0 (PGROUNDDOWN dstva)) 8 =
                leaf after.mem a.root (PGROUNDDOWN dstva) := (leaf_of_table reached).symm
            have flags : hasFlag page.flags PTE_W =
                hasFlag (leaf after.mem a.root (PGROUNDDOWN dstva)) PTE_W := by
              rw [at_.page, ← hasFlag_low _ _ (by decide)]
            simp only [wp_bind, wp_loadWord, loaded, flags]
            split
            · rw [wp_pure]
              exact ⟨shows'.running, shows'.denied, fun _ => by rw [shows'.seen]⟩
            · rw [wp_bind, wp_setMem]
              exact ih _ _ _ (shows'.write at_ (by omega))

theorem copyString_congr {src src' : ByteMap} {length start start' : Nat} (done : Nat)
    (dst : ByteMap) (agree : ∀ i, i < length → src (start + i) = src' (start' + i)) :
    copyString src length start done dst = copyString src' length start' done dst := by
  induction length generalizing start start' done dst with
  | zero => rfl
  | succ length ih =>
    have first : src start = src' start' := agree 0 (Nat.succ_pos _)
    have rest : ∀ i, i < length → src (start + 1 + i) = src' (start' + 1 + i) := by
      intro i inside
      have next := agree (i + 1) (Nat.succ_lt_succ inside)
      rwa [Nat.add_comm i 1, ← Nat.add_assoc, ← Nat.add_assoc] at next
    simp only [copyString, first, ih (done + 1) _ rest]

theorem PageAt.copyString_eq (found : PageAt s r va q page) (dst : ByteMap) (done : Nat)
    {offset length : Nat} (inside : offset + length ≤ PGSIZE) :
    copyString s.mem length (q + offset) done dst = copyString page.bytes length offset done dst :=
  copyString_congr done dst fun i within => (found.byte (by omega)).symm

theorem Running.wp_copyinstrRounds (running : Running pf spaces kept o a p s)
    (rounds srcva done max : Nat) (dst : ByteMap) :
    wp (copyinstrRounds pf a.root rounds srcva done max dst) (fun result after =>
      after = s ∧ result = (view s.mem a.root).string rounds srcva done max dst) stop s := by
  induction rounds generalizing srcva done max dst with
  | zero =>
    rw [copyinstrRounds, wp_pure]
    exact ⟨rfl, rfl⟩
  | succ rounds ih =>
    rw [copyinstrRounds, View.string]
    split
    · rw [wp_pure]
      exact ⟨rfl, rfl⟩
    · rw [wp_bind]
      refine wp_post (running.sane.wp_walkaddr running.owner _) ?_
      rintro q s ⟨rfl, absent, present⟩
      by_cases nothing : q = 0
      · rw [if_pos nothing, wp_pure]
        simp only [absent nothing, and_self]
      · obtain ⟨page, found, at_⟩ := present nothing
        have range := offset_lt srcva
        rw [if_neg nothing, wp_bind, wp_get]
        simp only [found, at_.copyString_eq dst done (show srcva - PGROUNDDOWN srcva +
          min (PGSIZE - (srcva - PGROUNDDOWN srcva)) max ≤ PGSIZE by omega)]
        split
        · rw [wp_pure]
          exact ⟨rfl, rfl⟩
        · exact ih _ _ _ _

end Laws

end Xv6.Vm
