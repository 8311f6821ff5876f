import Mathlib.Data.Finset.Card
import Mathlib.Order.Interval.Finset.Nat
import Xv6.Vm.Processes
import Xv6.Vm.UserView

/-!
# An image under construction

`exec` builds a new address space beside the old one.
-/

namespace Xv6.Vm

open Command Bytes Ownership Xv6.Tree
open Function (update update_idem update_of_ne update_self)

variable {pf : Platform} {s s₀ after : Kernel} {spaces : Owner → Option AddressSpace}
  {kept : Keeper → Option Nat} {o : Owner} {a : AddressSpace} {mem : ByteMap} {v v' : View}
  {page : PageView} {p q r f n va frame low high sz flag : Nat} {stop : Panic → Prop}

section Views

def View.Allows (v : View) (flag va : Nat) : Prop :=
  ∃ f, v.flags va = some f ∧ hasFlag f flag = true

def View.grow (v : View) (low high f : Nat) : View := fun n =>
  if low ≤ n * PGSIZE ∧ n * PGSIZE < high then some ⟨f, fun _ => 0⟩ else v n

def PageView.guarded (page : PageView) : PageView :=
  { page with flags := page.flags &&& (2 ^ 10 - 1 - PTE_U) }

def View.guard (v : View) (va : Nat) : View :=
  update v (va / PGSIZE) ((v (va / PGSIZE)).map PageView.guarded)

theorem View.grown_iff (lowAligned : low % PGSIZE = 0) (highAligned : high % PGSIZE = 0) :
    low ≤ va / PGSIZE * PGSIZE ∧ va / PGSIZE * PGSIZE < high ↔ low ≤ va ∧ va < high := by
  simp only [PGSIZE] at *
  omega

theorem View.flags_grow (lowAligned : low % PGSIZE = 0) (highAligned : high % PGSIZE = 0) :
    (v.grow low high f).flags va = if low ≤ va ∧ va < high then some f else v.flags va := by
  by_cases inside : low ≤ va ∧ va < high
  · rw [if_pos inside, View.flags, View.grow,
      if_pos ((View.grown_iff lowAligned highAligned).mpr inside), Option.map_some]
  · rw [if_neg inside, View.flags, View.grow,
      if_neg (mt (View.grown_iff lowAligned highAligned).mp inside), View.flags]

theorem View.byte_grow (lowAligned : low % PGSIZE = 0) (highAligned : high % PGSIZE = 0) :
    (v.grow low high f).byte va = if low ≤ va ∧ va < high then some 0 else v.byte va := by
  by_cases inside : low ≤ va ∧ va < high
  · rw [if_pos inside, View.byte, View.grow,
      if_pos ((View.grown_iff lowAligned highAligned).mpr inside), Option.map_some]
  · rw [if_neg inside, View.byte, View.grow,
      if_neg (mt (View.grown_iff lowAligned highAligned).mp inside), View.byte]

/-- A guard page keeps its bytes. -/
theorem View.byte_guard (v : View) (guard va : Nat) : (v.guard guard).byte va = v.byte va := by
  by_cases here : va / PGSIZE = guard / PGSIZE
  · rw [View.byte, View.guard, here, update_self, View.byte, here, Option.map_map]
    rfl
  · rw [View.byte, View.guard, update_of_ne here, View.byte]

theorem View.flags_guard_same {guard : Nat} (here : va / PGSIZE = guard / PGSIZE) :
    (v.guard guard).flags va = (v.flags va).map fun f => f &&& (2 ^ 10 - 1 - PTE_U) := by
  rw [View.flags, View.guard, here, update_self, View.flags, here, Option.map_map,
    Option.map_map]
  rfl

theorem View.flags_guard_other {guard : Nat} (elsewhere : va / PGSIZE ≠ guard / PGSIZE) :
    (v.guard guard).flags va = v.flags va := by
  rw [View.flags, View.guard, update_of_ne elsewhere, View.flags]

theorem View.Allows.replaced {start : Nat} {src : ByteMap} (allows : v.Allows flag va)
    (replaced : Replaced v start src n v') : v'.Allows flag va := by
  obtain ⟨f, flags, has⟩ := allows
  exact ⟨f, by rw [replaced.flags, flags], has⟩

theorem View.Allows.userPage (allows : v.Allows PTE_U va) :
    ∃ page, v.userPage va = some page ∧ v.flags va = some page.flags := by
  obtain ⟨f, flags, user⟩ := allows
  rw [View.flags, Option.map_eq_some_iff] at flags
  obtain ⟨page, found, rfl⟩ := flags
  refine ⟨page, ?_, by rw [View.flags, found, Option.map_some]⟩
  rw [View.userPage, found, Option.filter_some, if_pos user]

theorem view_allows (small : flag < 2 ^ 10) :
    (view mem r).Allows flag va ↔ va < TRAPFRAME ∧ hasFlag (leaf mem r va) PTE_V = true ∧
      hasFlag (leaf mem r va) flag = true := by
  by_cases user : va < TRAPFRAME
  · rw [View.Allows, View.flags, view_at user]
    cases valid : hasFlag (leaf mem r va) PTE_V with
    | false => simp [pageView_invalid valid]
    | true =>
      rw [hasFlag_low _ flag small]
      simp [pageView_valid valid, user]
  · rw [View.Allows, View.flags, view_above (Nat.le_of_not_lt user)]
    simp [user]

theorem Filled.view_eq {roots : Owner → Option Nat}
    (filled : Filled pf s roots kept o low high f after) (owner : roots o = some r) (bounded : high ≤ TRAPFRAME) (flags : LeafFlags f) :
    view after.mem r = (view s.mem r).grow low high f := by
  funext n
  by_cases inside : low ≤ n * PGSIZE ∧ n * PGSIZE < high
  · have user : n * PGSIZE < TRAPFRAME := Nat.lt_of_lt_of_le inside.2 bounded
    obtain ⟨q, isPage, entry, zeroed⟩ :=
      filled.present r (n * PGSIZE) owner inside.1 inside.2 (user_lt_vaspace user)
    have valid : hasFlag (leaf after.mem r (n * PGSIZE)) PTE_V = true := by
      rw [entry, hasFlag_pte q flags.small (by decide)]
      exact flags.valid
    rw [View.grow, if_pos inside, view_user user, pageView_valid valid, entry,
      PTE_FLAGS_or q flags.small, PTE2PA_or isPage.1 isPage.wide flags.small,
      window_zeroed zeroed]
  · rw [View.grow, if_neg inside]
    exact filled.within.view_eq owner fun range => inside range.2

end Views

structure Begun (pf : Platform) (s₀ : Kernel) (spaces : Owner → Option AddressSpace)
    (kept : Keeper → Option Nat) (r frame sz : Nat) (s : Kernel) : Prop where
  sane : Sane pf s (update spaces .building (some ⟨r, sz, frame⟩)) kept
  within : Within pf s₀ (update (rootsOf spaces) .building (some r)) kept .building
    (fun o _ => o = .building) s

structure Building (pf : Platform) (s₀ : Kernel) (spaces : Owner → Option AddressSpace)
    (kept : Keeper → Option Nat) (r frame low sz : Nat) (s : Kernel) : Prop
    extends Begun pf s₀ spaces kept r frame sz s where
  mapped : ∀ va, low ≤ va → va < PGROUNDUP sz →
    hasFlag (leaf s.mem r va) PTE_V = true ∧ hasFlag (leaf s.mem r va) PTE_U = true

theorem building_owner (spaces : Owner → Option AddressSpace) (a : AddressSpace) :
    update spaces .building (some a) .building = some a := update_self ..

theorem Begun.extend {region : Owner → Nat → Prop} (begun : Begun pf s₀ spaces kept r frame sz s)
    (next : Within pf s (rootsOf (update spaces .building (some ⟨r, sz, frame⟩))) kept
      .building region after) (only : ∀ o va, region o va → o = .building) :
    Within pf s₀ (update (rootsOf spaces) .building (some r)) kept .building
      (fun o _ => o = .building) after := by
  rw [rootsOf_update, Option.map_some] at next
  exact begun.within.trans (next.mono only)

structure Image (pf : Platform) (s₀ : Kernel) (spaces : Owner → Option AddressSpace)
    (kept : Keeper → Option Nat) (r frame sz : Nat) (v : View) (s : Kernel) : Prop
    extends Begun pf s₀ spaces kept r frame sz s where
  shows : view s.mem r = v

theorem Begun.image (begun : Begun pf s₀ spaces kept r frame sz s) :
    Image pf s₀ spaces kept r frame sz (view s.mem r) s := ⟨begun, rfl⟩

theorem Building.allows (building : Building pf s₀ spaces kept r frame low sz s) (lower : low ≤ va)
    (upper : va < PGROUNDUP sz) : (view s.mem r).Allows PTE_U va := by
  have space := building.sane.space _ _ (building_owner spaces ⟨r, sz, frame⟩)
  rw [view_allows (by decide)]
  exact ⟨Nat.lt_of_lt_of_le upper (PGROUNDUP_spec space.bounded).2.2.2,
    building.mapped va lower upper⟩

theorem Image.building (image : Image pf s₀ spaces kept r frame sz v s)
    (usable : ∀ va, low ≤ va → va < PGROUNDUP sz → v.Allows PTE_U va) :
    Building pf s₀ spaces kept r frame low sz s := by
  refine ⟨image.toBegun, fun va lower upper => ?_⟩
  have allows := usable va lower upper
  rw [← image.shows, view_allows (by decide)] at allows
  exact allows.2

theorem Accounted.mapped_small {roots : Owner → Option Nat} (accounted : Accounted pf s roots kept)
    (owner : roots o = some r) {high : Nat}
    (mapped : ∀ va, va < high → va < TRAPFRAME → hasFlag (leaf s.mem r va) PTE_V = true) :
    high ≤ 2 ^ 27 := by
  by_contra large
  obtain ⟨pages, books⟩ := accounted
  have place : ∀ k, k < 2 ^ 15 → k * PGSIZE < TRAPFRAME ∧
      held s.mem roots kept (.page o (pathOf (k * PGSIZE))) =
        some (PTE2PA (leaf s.mem r (k * PGSIZE))) := by
    intro k inside
    have user : k * PGSIZE < TRAPFRAME := by
      simp only [TRAPFRAME, TRAMPOLINE, MAXVA, PGSIZE] at *
      omega
    refine ⟨user, held_user owner user (mapped _ ?_ user)⟩
    simp only [PGSIZE] at *
    omega
  have isPage : ∀ k, k < 2 ^ 15 → IsPage pf (PTE2PA (leaf s.mem r (k * PGSIZE))) :=
    fun k inside => (books.balanced.inside _ _ (place k inside).2).1
  have fewer : (Finset.Ico (KERNBASE / PGSIZE + 1) (PHYSTOP / PGSIZE)).card <
      (Finset.range (2 ^ 15)).card := by
    rw [Nat.card_Ico, Finset.card_range]
    decide
  obtain ⟨j, jInside, k, kInside, different, same⟩ :=
    Finset.exists_ne_map_eq_of_card_lt_of_maps_to fewer
      (f := fun k => PTE2PA (leaf s.mem r (k * PGSIZE)) / PGSIZE) (by
        intro k inside
        obtain ⟨-, lower, upper⟩ := isPage k (by simpa using inside)
        have base := pf.base
        have text := pf.text
        simp only [Finset.coe_Ico, Set.mem_Ico, KERNBASE, PHYSTOP, PGSIZE] at *
        omega)
  rw [Finset.mem_range] at jInside kInside
  have samePage : PTE2PA (leaf s.mem r (j * PGSIZE)) = PTE2PA (leaf s.mem r (k * PGSIZE)) := by
    have left := (isPage j jInside).1
    have right := (isPage k kInside).1
    simp only [PGSIZE] at *
    omega
  have places := books.balanced.single _ _ _ (place j jInside).2
    ((place k kInside).2.trans (congrArg some samePage.symm))
  injection places with _ paths
  have pageNumbers := (pathOf_eq (user_lt_vaspace (place j jInside).1)
    (user_lt_vaspace (place k kInside).1)).mp paths
  rw [Nat.mul_div_cancel j (by decide), Nat.mul_div_cancel k (by decide)] at pageNumbers
  exact different pageNumbers

theorem Building.small (building : Building pf s₀ spaces kept r frame 0 sz s) :
    PGROUNDUP sz ≤ 2 ^ 27 :=
  building.sane.accounted.mapped_small (rootsOf_some (building_owner spaces ⟨r, sz, frame⟩))
    fun va below _ => (building.mapped va (Nat.zero_le va) below).1

/-- It cannot grow up to the trapframe. -/
theorem Building.roomy (building : Building pf s₀ spaces kept r frame 0 sz s) {f newsz : Nat}
    (flags : LeafFlags f) :
    Roomy pf s (rootsOf (update spaces .building (some ⟨r, sz, frame⟩))) kept .building
      (PGROUNDUP sz) f newsz := by
  have root := rootsOf_some (building_owner spaces ⟨r, sz, frame⟩)
  intro a current _ _ filled
  have small : a ≤ 2 ^ 27 := by
    refine filled.within.accounted.mapped_small root fun va below user => ?_
    have range := user_lt_vaspace user
    by_cases old : va < PGROUNDUP sz
    · rw [filled.within.leaves _ r va root range fun inside => Nat.not_lt_of_le inside.2.1 old]
      exact (building.mapped va (Nat.zero_le va) old).1
    · obtain ⟨q, -, stored, -⟩ := filled.present r va root (Nat.le_of_not_lt old) below range
      rw [stored, hasFlag_pte q flags.small (by decide)]
      exact flags.valid
  simp only [TRAPFRAME, TRAMPOLINE, MAXVA, PGSIZE]
  omega

theorem Image.wp_uvmalloc (image : Image pf s₀ spaces kept r frame sz v s)
    (usable : ∀ va, va < PGROUNDUP sz → v.Allows PTE_U va) {newsz xperm : Nat}
    (node : kept .node = none) (hand : kept .hand = none)
    (flags : LeafFlags (PTE_R ||| PTE_U ||| xperm ||| PTE_V))
    {post : Nat → Kernel → Prop} (smaller : newsz < sz → post sz s)
    (refused : ∀ after, Begun pf s₀ spaces kept r frame sz after → post 0 after)
    (grown : ∀ after, sz ≤ newsz → newsz ≤ TRAPFRAME → Image pf s₀ spaces kept r frame newsz
      (v.grow (PGROUNDUP sz) (PGROUNDUP newsz) (PTE_R ||| PTE_U ||| xperm ||| PTE_V)) after →
      post newsz after) :
    wp (uvmalloc pf r sz newsz xperm) post stop s := by
  have owner := building_owner spaces ⟨r, sz, frame⟩
  have building := image.building fun va (_ : 0 ≤ va) => usable va
  refine image.sane.wp_uvmalloc owner (building.roomy flags) node hand flags smaller ?_ ?_
  · intro after sane cleared
    exact refused after ⟨sane, image.extend cleared.within fun _ _ inside => inside.1⟩
  · intro after larger bounded sane filled
    rw [update_idem] at sane
    refine grown after larger bounded
      ⟨⟨sane, image.extend filled.within fun _ _ inside => inside.1⟩, ?_⟩
    rw [← image.shows]
    exact filled.view_eq (rootsOf_some owner) (PGROUNDUP_spec bounded).2.2.2 flags

theorem Image.write (image : Image pf s₀ spaces kept r frame sz v s) (at_ : PageAt s r va q page)
    (src : ByteMap) (start : Nat) {offset length : Nat} (inside : offset + length ≤ PGSIZE) :
    Image pf s₀ spaces kept r frame sz (update v (va / PGSIZE)
      (some { page with bytes := copy page.bytes offset src start length }))
      { s with mem := copy s.mem (q + offset) src start length } := by
  have root := rootsOf_some (building_owner spaces ⟨r, sz, frame⟩)
  have accounted := image.sane.accounted
  have changed : ChangedIn s.mem (copy s.mem (q + offset) src start length) q :=
    changedIn_copy s.mem src inside
  refine ⟨⟨image.sane.same (accounted.scribble_user root at_.mapped changed),
    image.extend (accounted.scribble_page root at_.mapped changed) fun _ _ on => on.1⟩, ?_⟩
  rw [← image.shows, accounted.view_scribble root at_.mapped changed,
    window_copy s.mem src inside, at_.page]

theorem Image.wp_walkaddr (image : Image pf s₀ spaces kept r frame sz v s)
    (allows : v.Allows PTE_U va) {post : Nat → Kernel → Prop}
    (found : ∀ q page, q ≠ 0 → v.userPage va = some page → PageAt s r va q page → post q s) :
    wp (walkaddr pf r va) post stop s := by
  have owner := building_owner spaces ⟨r, sz, frame⟩
  refine wp_post (image.sane.wp_walkaddr owner va) ?_
  rintro q s ⟨rfl, absent, present⟩
  rw [image.shows] at absent present
  obtain ⟨page, shown, -⟩ := allows.userPage
  by_cases nothing : q = 0
  · rw [absent nothing] at shown
    simp at shown
  · obtain ⟨page', shown', at_⟩ := present nothing
    exact found q page' nothing shown' at_

theorem onPage_lt_boundary {va' high : Nat} (same : va' / PGSIZE = va / PGSIZE)
    (inside : va < high) (boundary : high % PGSIZE = 0) : va' < high := by
  simp only [PGSIZE] at *
  omega

theorem Image.wp_uvmclear (image : Image pf s₀ spaces kept r frame sz v s)
    (inside : va < PGROUNDUP sz) (allows : v.Allows PTE_U va) :
    wp (uvmclear pf r va) (fun _ after => Image pf s₀ spaces kept r frame sz (v.guard va) after)
      stop s := by
  have owner := building_owner spaces ⟨r, sz, frame⟩
  have root := rootsOf_some owner
  have space := image.sane.space _ _ owner
  rw [← image.shows, view_allows (by decide)] at allows
  obtain ⟨user, valid, -⟩ := allows
  have low : va < MAXVA := Nat.lt_trans user (by decide)
  rw [uvmclear, wp_bind]
  refine wp_walk_look low ?_ ?_
  · intro absent
    rw [leaf_of_none absent, hasFlag_zero] at valid
    simp at valid
  · intro t reached
    have loaded : load s.mem (t + 8 * PX 0 va) 8 = leaf s.mem r va := (leaf_of_table reached).symm
    have word : leaf s.mem r va < 2 ^ 64 := by
      rw [← loaded]
      exact load_lt ..
    simp only [wp_bind, wp_loadWord, wp_storeWord, loaded]
    obtain ⟨pages, books⟩ := image.sane.accounted
    have kind := (books.leafFlags root reached valid).kind
    obtain ⟨done, remapped⟩ := books.reflag root reached
      (Nat.lt_of_le_of_lt Nat.and_le_left word) (PTE2PA_clear word)
      (hasFlag_clear _ (by decide)) (fun _ => by
        rw [hasFlag_clear _ (by decide), hasFlag_low _ _ (by decide)]
        simpa only [hasFlag_or, show hasFlag PTE_V (PTE_R ||| PTE_W ||| PTE_X) = false from rfl,
          Bool.or_false] using kind)
    have within := remapped.within books root reached low ⟨pages, done⟩
    refine ⟨⟨?_, image.extend within fun _ _ on => on.1⟩, ?_⟩
    · refine image.sane.touch within owner (fun _ _ on => on.1) (space.resize space.bounded ?_ ?_)
      · intro va' range special
        refine within.leaves _ r va' root range ?_
        rintro ⟨-, same⟩
        exact absurd (onPage_lt same user) (Nat.not_lt_of_le special)
      · intro va' user' valid'
        by_cases on : onPage .building va .building va'
        · exact onPage_lt_boundary on.2 inside (PGROUNDUP_spec space.bounded).1
        · rw [within.leaves _ r va' root (user_lt_vaspace user') on] at valid'
          rcases space.below va' (user_lt_vaspace user') valid' with under | special
          · exact under
          · exact absurd user' (Nat.not_lt_of_le special.1)
    · -- The entry is on a page-table page, so the bytes of the page stay.
      have table : held s.mem (rootsOf (update spaces .building (some ⟨r, sz, frame⟩)))
          kept (.page .building [PX 2 va, PX 1 va]) = some t := by
        rw [held_page root (owned_of_short (by simp)), reached]
      have bytes := books.frame_at table (changedIn_entry s.mem
        (leaf s.mem r va &&& (2 ^ 64 - 1 - PTE_U)) (PX_lt 0 va)) (by simp [pathOf])
        (held_user root user valid)
      funext n
      rw [← image.shows, View.guard]
      by_cases here : n = va / PGSIZE
      · subst here
        rw [update_self, view_at user, view_at user, pageView_valid valid, Option.map_some,
          remapped.here root, pageView_valid (by rw [hasFlag_clear _ (by decide), valid]),
          PTE_FLAGS_clear, PTE2PA_clear word, window_congr bytes]
        rfl
      · rw [update_of_ne here]
        refine within.view_eq root ?_
        rintro ⟨-, same⟩
        rw [Nat.mul_div_cancel n (by decide)] at same
        exact here same

theorem Image.wp_copyoutRounds {src : ByteMap} {start : Nat} (rounds dstva len : Nat)
    (image : Image pf s₀ spaces kept r frame sz v' s) (replaced : Replaced v start src n v')
    (enough : len ≤ rounds) (position : len ≠ 0 → dstva = start + n) {total : Nat}
    (whole : n + len = total) (user : ∀ va, start ≤ va → va < start + total → v.Allows PTE_U va)
    (writable : ∀ va, start ≤ va → va < start + total → v.Allows PTE_W va) :
    wp (copyoutRounds pf p r src rounds dstva n len) (fun result after => result = 0 ∧
      ∃ v'', Replaced v start src total v'' ∧ Image pf s₀ spaces kept r frame sz v'' after)
      stop s := by
  induction rounds generalizing s v' n dstva len with
  | zero =>
    obtain rfl : n = total := by omega
    rw [copyoutRounds, wp_pure]
    exact ⟨rfl, v', replaced, image⟩
  | succ rounds ih =>
    rw [copyoutRounds]
    by_cases none : len = 0
    · obtain rfl : n = total := by omega
      rw [if_pos none, wp_pure]
      exact ⟨rfl, v', replaced, image⟩
    obtain rfl := position none
    have here := page_of (start + n)
    have mayUse := (user (start + n) (by omega) (by omega)).replaced replaced
    have mayWrite := (writable (start + n) (by omega) (by omega)).replaced replaced
    have offset := offset_lt (start + n)
    have low : PGROUNDDOWN (start + n) < MAXVA := by
      rw [← image.shows, view_allows (by decide)] at mayUse
      exact Nat.lt_trans (Nat.lt_of_le_of_lt (Nat.div_mul_le_self ..) mayUse.1) (by decide)
    have down : v'.Allows PTE_U (PGROUNDDOWN (start + n)) := by
      rwa [View.Allows, View.flags, here]
    rw [if_neg none, if_neg (Nat.not_le_of_lt low), userPage]
    simp only [wp_bind]
    refine image.wp_walkaddr down ?_
    intro q page nonzero shown at_
    rw [if_neg nonzero, wp_pure, if_neg nonzero, wp_bind]
    refine wp_walk_look low ?_ ?_
    · intro unreached
      have valid := at_.mapped.valid
      rw [leaf_of_none unreached, hasFlag_zero] at valid
      exact absurd valid (by simp)
    intro t reached
    have loaded : load s.mem (t + 8 * PX 0 (PGROUNDDOWN (start + n))) 8 =
        leaf s.mem r (PGROUNDDOWN (start + n)) := (leaf_of_table reached).symm
    have write : hasFlag (leaf s.mem r (PGROUNDDOWN (start + n))) PTE_W = true := by
      have down' : (view s.mem r).Allows PTE_W (PGROUNDDOWN (start + n)) := by
        rw [image.shows, View.Allows, View.flags, here]
        exact mayWrite
      exact ((view_allows (by decide)).mp down').2.2
    obtain ⟨-, -, next, -, rest⟩ := round_range len low
    simp only [wp_bind, wp_loadWord, loaded, write, Bool.true_eq_false, ↓reduceIte, wp_setMem, next]
    rw [offset_eq] at rest offset ⊢
    generalize count : min (PGSIZE - (start + n) % PGSIZE) len = k at rest ⊢
    have fits : (start + n) % PGSIZE + k ≤ PGSIZE := by omega
    have written := image.write at_ src n fits
    rw [View.userPage_down] at shown
    rw [here] at written
    refine ih _ _ written (replaced.write shown fits) (by omega) (fun left => ?_) (by omega)
    have := rest left
    omega

theorem Image.wp_copyout (image : Image pf s₀ spaces kept r frame sz v s) {dstva len : Nat}
    (src : ByteMap) (user : ∀ va, dstva ≤ va → va < dstva + len → v.Allows PTE_U va)
    (writable : ∀ va, dstva ≤ va → va < dstva + len → v.Allows PTE_W va) :
    wp (copyout pf p r dstva src len) (fun result after => result = 0 ∧
      ∃ v', Replaced v dstva src len v' ∧ Image pf s₀ spaces kept r frame sz v' after) stop s := by
  exact image.wp_copyoutRounds len dstva len (Replaced.refl v dstva src) (Nat.le_refl len)
    (fun _ => rfl) (Nat.zero_add len) user writable

end Xv6.Vm
