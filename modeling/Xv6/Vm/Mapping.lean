import Xv6.Vm.Walk

/-!
# Mapping and unmapping ranges

The laws of `mappages` for one page and of `uvmunmap`, `uvmdealloc` and `uvmalloc`.
-/

namespace Xv6.Vm

open Command Bytes Ownership Xv6.Tree Function

variable {pf : Platform} {s : Kernel} {roots : Owner → Option Nat}
  {kept : Keeper → Option Nat} {o : Owner} {r q va : Nat} {stop : Panic → Prop}

theorem owned_user (user : va < TRAPFRAME) : Owned (pathOf va) := by
  have low : va < MAXVA := by
    simp only [TRAPFRAME, TRAMPOLINE, MAXVA, PGSIZE] at *
    omega
  refine Or.inr ⟨rfl, ?_, ?_⟩
  · rw [Ne, pathOf_eq (lt_vaspace low) (by decide)]
    simp only [TRAPFRAME, TRAMPOLINE, MAXVA, PGSIZE] at *
    omega
  · rw [Ne, pathOf_eq (lt_vaspace low) (by decide)]
    simp only [TRAPFRAME, TRAMPOLINE, MAXVA, PGSIZE] at *
    omega

theorem not_owned_trampoline : ¬ Owned (pathOf TRAMPOLINE) := by decide

theorem not_owned_trapframe : ¬ Owned (pathOf TRAPFRAME) := by decide

def onPage (o : Owner) (va : Nat) : Owner → Nat → Prop :=
  fun o' va' => o' = o ∧ va' / PGSIZE = va / PGSIZE

def inRange (o : Owner) (low high : Nat) : Owner → Nat → Prop :=
  fun o' va' => o' = o ∧ low ≤ va' ∧ va' < high

theorem Remapped.within {pages : List Nat} {kept' : Keeper → Option Nat} {t v : Nat}
    (books : Books pf s pages roots kept) (owner : roots o = some r)
    (reached : follow (child s.mem) r [PX 2 va, PX 1 va] = some t)
    (remapped : Remapped s.mem (store s.mem (t + 8 * PX 0 va) 8 v) roots o va v) (low : va < MAXVA)
    (accounted : Accounted pf { s with mem := store s.mem (t + 8 * PX 0 va) 8 v } roots kept')
    (settled : ∀ k, k ≠ .hand → k ≠ .node → kept' k = kept k := by
      intro k notHand notNode; simp [notHand, notNode]) :
    Within pf s roots kept' o (onPage o va)
      { s with mem := store s.mem (t + 8 * PX 0 va) 8 v } := by
  refine ⟨accounted, ?_, ?_, (changedIn_entry s.mem v (PX_lt 0 va)).sameOutside
    (table_page books.balanced owner (by simp) reached).1, rfl, rfl, Nat.le_refl _⟩
  · intro o' r' va' owner' low' outside
    refine remapped.elsewhere owner' ?_
    rintro ⟨rfl, same⟩
    exact outside ⟨rfl, (pathOf_eq low' (lt_vaspace low)).mp same⟩
  · intro place q spared holds
    have before : held s.mem roots kept place = some q := by
      rw [← holds]
      cases place with
      | page o' path => rfl
      | kept k => exact (settled k spared.1 spared.2).symm
    have table : held s.mem roots kept (.page o [PX 2 va, PX 1 va]) = some t := by
      rw [held_page owner (owned_of_short (by simp)), reached]
    refine books.frame_at table (changedIn_entry s.mem v (PX_lt 0 va)) ?_ before
    exact fun same => spared.not_table (by simp) same

theorem Accounted.wp_mappages (accounted : Accounted pf s roots kept) (owner : roots o = some r)
    (low : va < MAXVA) (aligned : va % PGSIZE = 0) (node : kept .node = none) {pa perm : Nat}
    {post : Int → Kernel → Prop}
    (remap : hasFlag (leaf s.mem r va) PTE_V = true → stop .mappagesRemap)
    (refused : ∀ after, Quiet pf s roots kept o after → s.denied < after.denied → post (-1) after)
    (stored : ∀ t middle, Quiet pf s roots kept o middle → SameHand s kept middle →
      follow (child middle.mem) r [PX 2 va, PX 1 va] = some t →
      hasFlag (leaf middle.mem r va) PTE_V = false →
      post 0 { middle with
        mem := store middle.mem (t + 8 * PX 0 va) 8 (PA2PTE pa ||| (perm ||| PTE_V)) }) :
    wp (mappages pf r va PGSIZE pa perm) post stop s := by
  have last : add64 va (PGSIZE - PGSIZE) = va := by
    simp only [add64, PGSIZE, MAXVA] at *
    omega
  have rounds : PGSIZE / PGSIZE = 0 + 1 := by decide
  have fits : ¬ PGSIZE % PGSIZE ≠ 0 := by decide
  have positive : ¬ PGSIZE = 0 := by decide
  simp only [mappages, aligned, fits, positive, ne_eq, not_true_eq_false, ↓reduceIte, last, rounds,
    mapRounds, wp_bind]
  refine accounted.wp_walk low owner node (fun after quiet short => ?_) ?_
  · rw [wp_pure]
    exact refused after quiet short
  · intro t middle quiet hand reached
    have loaded : load middle.mem (t + 8 * PX 0 va) 8 = leaf middle.mem r va :=
      (leaf_of_table reached).symm
    simp only [wp_bind, wp_loadWord, loaded]
    split
    · rename_i valid
      rw [wp_throw]
      exact remap (by rwa [quiet.leaf_of_quiet owner (lt_vaspace low)] at valid)
    · rename_i invalid
      simp only [wp_bind, wp_storeWord, wp_pure, Nat.or_assoc]
      exact stored t middle quiet hand reached (by simpa using invalid)

/-- Flags of a mapping that count as a leaf. -/
structure LeafFlags (f : Nat) : Prop where
  small : f < 2 ^ 10
  valid : hasFlag f PTE_V = true
  kind : hasFlag f (PTE_R ||| PTE_W ||| PTE_X) = true

/-- A mapping of one page has been made. -/
structure MappedAt (pf : Platform) (s : Kernel) (roots : Owner → Option Nat)
    (kept : Keeper → Option Nat) (o : Owner) (va v : Nat) (after : Kernel) : Prop where
  within : Within pf s roots kept o (onPage o va) after
  here : ∀ r, roots o = some r → leaf after.mem r va = v

theorem Accounted.wp_mappages_user (accounted : Accounted pf s roots kept)
    (owner : roots o = some r) (user : va < TRAPFRAME) (aligned : va % PGSIZE = 0)
    (node : kept .node = none) (hand : kept .hand = some q) {perm : Nat}
    (flags : LeafFlags (perm ||| PTE_V)) {post : Int → Kernel → Prop}
    (remap : hasFlag (leaf s.mem r va) PTE_V = true → stop .mappagesRemap)
    (refused : ∀ after, Quiet pf s roots kept o after → s.denied < after.denied → post (-1) after)
    (mapped : ∀ after, MappedAt pf s roots (update kept .hand none) o va
      (PA2PTE q ||| (perm ||| PTE_V)) after → SamePage s.mem after.mem q → post 0 after) :
    wp (mappages pf r va PGSIZE q perm) post stop s := by
  have low : va < MAXVA := by
    simp only [TRAPFRAME, TRAMPOLINE, MAXVA, PGSIZE] at *
    omega
  refine accounted.wp_mappages owner low aligned node remap refused ?_
  intro t middle quiet sameHand reached invalid
  obtain ⟨pages, books⟩ := quiet.accounted
  obtain ⟨done, remapped⟩ := books.map_user owner reached invalid hand (owned_user user) flags.small
    flags.valid flags.kind
  refine mapped _ ⟨(Within.of_quiet quiet).trans
    (remapped.within books owner reached low ⟨pages, done⟩), ?_⟩ ?_
  · intro r' owner'
    exact remapped.here owner'
  · have inHand : held middle.mem roots kept (.kept .hand) = some q := hand
    have table : held middle.mem roots kept (.page o [PX 2 va, PX 1 va]) = some t := by
      rw [held_page owner (owned_of_short (by simp)), reached]
    exact (sameHand q hand).trans
      (books.frame_at table (changedIn_entry middle.mem _ (PX_lt 0 va)) (by simp) inHand)

theorem Accounted.wp_mappages_special (accounted : Accounted pf s roots kept)
    (owner : roots o = some r) (low : va < MAXVA) (aligned : va % PGSIZE = 0)
    (special : ¬ Owned (pathOf va)) (node : kept .node = none) {pa perm : Nat} (bounded : pa < 2 ^ 32)
    (flags : LeafFlags (perm ||| PTE_V)) {post : Int → Kernel → Prop}
    (remap : hasFlag (leaf s.mem r va) PTE_V = true → stop .mappagesRemap)
    (refused : ∀ after, Quiet pf s roots kept o after → s.denied < after.denied → post (-1) after)
    (mapped : ∀ after, MappedAt pf s roots kept o va (PA2PTE pa ||| (perm ||| PTE_V)) after →
      post 0 after) :
    wp (mappages pf r va PGSIZE pa perm) post stop s := by
  refine accounted.wp_mappages owner low aligned node remap refused ?_
  intro t middle quiet _ reached _
  obtain ⟨pages, books⟩ := quiet.accounted
  have kind : hasFlag (PA2PTE pa ||| (perm ||| PTE_V)) (PTE_R ||| PTE_W ||| PTE_X) = true := by
    rw [hasFlag_low _ _ (by decide), PTE_FLAGS_or pa flags.small]
    exact flags.kind
  obtain ⟨done, remapped⟩ := books.map_special owner reached special
    (pte_or_lt (Nat.lt_trans bounded (by decide)) flags.small) fun _ => kind
  refine mapped _ ⟨(Within.of_quiet quiet).trans
    (remapped.within books owner reached low ⟨pages, done⟩), ?_⟩
  intro r' owner'
  exact remapped.here owner'

structure Cleared (pf : Platform) (s : Kernel) (roots : Owner → Option Nat)
    (kept : Keeper → Option Nat) (o : Owner) (low high : Nat) (after : Kernel) : Prop where
  within : Within pf s roots kept o (inRange o low high) after
  gone : ∀ r va, roots o = some r → low ≤ va → va < high → va < VASPACE →
    hasFlag (leaf after.mem r va) PTE_V = false

theorem Cleared.refl (accounted : Accounted pf s roots kept) (o : Owner) (low : Nat) :
    Cleared pf s roots kept o low low s :=
  ⟨Within.of_quiet (Quiet.refl accounted), fun _ _ _ lower upper => absurd lower (by omega)⟩

variable {post : PUnit → Kernel → Prop} {current after : Kernel}

theorem Cleared.trans {low middle high : Nat} (first : Cleared pf s roots kept o low middle current)
    (second : Cleared pf current roots kept o middle high after) (lower : low ≤ middle)
    (upper : middle ≤ high) : Cleared pf s roots kept o low high after := by
  have left : ∀ o' va', inRange o low middle o' va' → inRange o low high o' va' :=
    fun o' va' inside => ⟨inside.1, inside.2.1, by have := inside.2.2; omega⟩
  have right : ∀ o' va', inRange o middle high o' va' → inRange o low high o' va' :=
    fun o' va' inside => ⟨inside.1, by have := inside.2.1; omega, inside.2.2⟩
  refine ⟨(first.within.mono left).trans (second.within.mono right), ?_⟩
  intro r va owner above below range
  by_cases later : middle ≤ va
  · exact second.gone r va owner later below range
  · rw [second.within.leaves o r va owner range fun inside => later inside.2.1]
    exact first.gone r va owner above (by omega) range

structure Emptied (pf : Platform) (s : Kernel) (roots : Owner → Option Nat)
    (kept : Keeper → Option Nat) (o : Owner) (low high : Nat) (after : Kernel) : Prop extends
    Cleared pf s roots kept o low high after where
  returned : ∀ q, OnFreeList s q → OnFreeList after q
  freed : ∀ r va, roots o = some r → low ≤ va → va < high → va < VASPACE →
    hasFlag (leaf s.mem r va) PTE_V = true → OnFreeList after (PTE2PA (leaf s.mem r va))

theorem Emptied.refl (accounted : Accounted pf s roots kept) (o : Owner) (low : Nat) :
    Emptied pf s roots kept o low low s :=
  ⟨Cleared.refl accounted o low, fun _ free => free,
    fun _ _ _ lower upper => absurd lower (by omega)⟩

theorem Emptied.trans {low middle high : Nat} (first : Emptied pf s roots kept o low middle current)
    (second : Emptied pf current roots kept o middle high after) (lower : low ≤ middle)
    (upper : middle ≤ high) : Emptied pf s roots kept o low high after := by
  refine ⟨first.toCleared.trans second.toCleared lower upper,
    fun q free => second.returned q (first.returned q free), ?_⟩
  intro r va owner above below range valid
  by_cases later : middle ≤ va
  · have same := first.within.leaves o r va owner range fun inside =>
      absurd inside.2.2 (Nat.not_lt_of_le later)
    rw [← same] at valid ⊢
    exact second.freed r va owner later below range valid
  · exact second.returned _ (first.freed r va owner above (by omega) range valid)

theorem Accounted.wp_unmapPage (accounted : Accounted pf s roots kept) (owner : roots o = some r)
    (user : va < TRAPFRAME) (aligned : va % PGSIZE = 0) (hand : kept .hand = none)
    (cleared : ∀ after, Emptied pf s roots kept o va (va + PGSIZE) after → post ⟨⟩ after) :
    wp (unmapPage pf r va true) post stop s := by
  have low : va < MAXVA := by
    simp only [TRAPFRAME, TRAMPOLINE, MAXVA, PGSIZE] at *
    omega
  have onlyPage : ∀ o' va', onPage o va o' va' → inRange o va (va + PGSIZE) o' va' := by
    rintro o' va' ⟨same, page⟩
    simp only [PGSIZE] at *
    exact ⟨same, by omega, by omega⟩
  have keeps : ∀ r', roots o = some r' → r' = r :=
    fun r' owner' => Option.some.inj (owner'.symm.trans owner)
  -- It is enough to look at the entry of the page itself.
  have finish : ∀ after, Within pf s roots kept o (onPage o va) after →
      (∀ r, roots o = some r → hasFlag (leaf after.mem r va) PTE_V = false) →
      (∀ q, OnFreeList s q → OnFreeList after q) →
      (hasFlag (leaf s.mem r va) PTE_V = true → OnFreeList after (PTE2PA (leaf s.mem r va))) →
      post ⟨⟩ after := by
    intro after within invalid returned freed
    have entry : ∀ mem r' va', va ≤ va' → va' < va + PGSIZE → va' < VASPACE →
        leaf mem r' va' = leaf mem r' va := by
      intro mem r' va' lower upper range
      refine leaf_page range (lt_vaspace low) ?_
      simp only [PGSIZE] at *
      omega
    refine cleared after ⟨⟨within.mono onlyPage, ?_⟩, returned, ?_⟩
    · intro r' va' owner' lower upper range
      rw [entry _ _ _ lower upper range]
      exact invalid r' owner'
    · intro r' va' owner' lower upper range valid
      obtain rfl := keeps r' owner'
      rw [entry _ _ _ lower upper range] at valid ⊢
      exact freed valid
  simp only [unmapPage, wp_bind]
  refine wp_walk_look low ?_ ?_
  · intro absent
    rw [wp_pure]
    have invalid : hasFlag (leaf s.mem r va) PTE_V = false := by
      rw [leaf_of_none absent, hasFlag_zero]
    refine finish s (Within.of_quiet (Quiet.refl accounted)) (fun r' owner' => ?_)
      (fun _ free => free) fun valid => absurd valid (by simp [invalid])
    rw [keeps r' owner', invalid]
  · intro t reached
    have loaded : load s.mem (t + 8 * PX 0 va) 8 = leaf s.mem r va := (leaf_of_table reached).symm
    simp only [wp_bind, wp_loadWord, loaded]
    split
    · rename_i invalid
      rw [wp_pure]
      refine finish s (Within.of_quiet (Quiet.refl accounted)) (fun r' owner' => ?_)
        (fun _ free => free) fun valid => absurd valid (by simp [invalid])
      rw [keeps r' owner']
      exact invalid
    · rename_i notInvalid
      have valid : hasFlag (leaf s.mem r va) PTE_V = true := by simpa using notInvalid
      obtain ⟨pages, books⟩ := accounted
      obtain ⟨taken, remapped⟩ := books.unmap_user owner reached valid (owned_user user) hand
      have inHand : update kept .hand (some (PTE2PA (leaf s.mem r va))) .hand =
          some (PTE2PA (leaf s.mem r va)) := by simp
      obtain ⟨page, -⟩ := taken.balanced.inside (.kept .hand) _ inHand
      obtain ⟨tablePage, -⟩ := table_page books.balanced owner (by simp) reached
      have apart : t ≠ PTE2PA (leaf s.mem r va) := by
        rintro same
        have holds : held s.mem roots kept (.page o (pathOf va)) = some t := by
          rw [held_page owner (owned_user user), follow_pathOf, valid, same]
          rfl
        have table : held s.mem roots kept (.page o [PX 2 va, PX 1 va]) = some t := by
          rw [held_page owner (owned_of_short (by simp)), reached]
        have places := books.balanced.single _ _ t holds table
        simp [pathOf] at places
      simp only [↓reduceIte, wp_bind]
      refine Vm.wp_kfree page ?_
      simp only [wp_storeWord]
      rw [freed_store_comm s.mem s.freelist page.1 tablePage.1 apart (PX_lt 0 va)]
      have quiet := Accounted.free_hand (o := o) ⟨pages, taken⟩ inHand
      rw [update_idem, ← hand, update_eq_self] at quiet
      have chain := (taken.free_hand inHand).chain
      refine finish _ ((remapped.within books owner reached low ⟨pages, taken⟩).trans
        (Within.of_quiet quiet)) ?_ ?_ fun _ => ⟨_, chain, List.mem_cons_self⟩
      · intro r' owner'
        rw [quiet.leaf_of_quiet owner' (lt_vaspace low)]
        exact (congrArg (hasFlag · PTE_V) (remapped.here owner')).trans (hasFlag_zero PTE_V)
      · intro q free
        exact ⟨_, chain, List.mem_cons_of_mem _ (books.mem_iff.mpr free)⟩

theorem page_le_range (low : Nat) {k n : Nat} (inside : k < n) :
    low + k * PGSIZE + PGSIZE ≤ low + n * PGSIZE := by
  simp only [PGSIZE]
  omega

theorem page_succ (low k : Nat) : low + (k + 1) * PGSIZE = low + k * PGSIZE + PGSIZE := by
  rw [Nat.succ_mul, Nat.add_assoc]

theorem page_aligned {low : Nat} (aligned : low % PGSIZE = 0) (k : Nat) :
    (low + k * PGSIZE) % PGSIZE = 0 := by
  rw [Nat.add_mul_mod_self_right, aligned]

theorem Accounted.wp_uvmunmap (accounted : Accounted pf s roots kept) (owner : roots o = some r)
    {npages : Nat} (user : va + npages * PGSIZE ≤ TRAPFRAME) (aligned : va % PGSIZE = 0)
    (hand : kept .hand = none)
    (cleared : ∀ after, Emptied pf s roots kept o va (va + npages * PGSIZE) after →
      post ⟨⟩ after) :
    wp (uvmunmap pf r va npages true) post stop s := by
  have rounds : (add64 va (npages * PGSIZE) - va) / PGSIZE = npages := by
    simp only [add64, TRAPFRAME, TRAMPOLINE, MAXVA, PGSIZE] at *
    omega
  simp only [uvmunmap, aligned, ne_eq, not_true_eq_false, ↓reduceIte, rounds]
  refine wp_post (wp_forRange
    (fun k current => Emptied pf s roots kept o va (va + k * PGSIZE) current) stop _ 0 npages s
    ?_ ?_) ?_
  · intro k current _ upper sofar
    rw [Nat.zero_add] at upper
    have inside : va + k * PGSIZE < TRAPFRAME := Nat.lt_of_lt_of_le
      (Nat.lt_add_of_pos_right (by decide)) ((page_le_range va upper).trans user)
    refine sofar.within.accounted.wp_unmapPage owner inside (page_aligned aligned k) hand ?_
    intro after next
    rw [page_succ]
    exact sofar.trans next (Nat.le_add_right ..) (Nat.le_add_right ..)
  · rw [Nat.zero_mul, Nat.add_zero]
    exact Emptied.refl accounted o va
  · intro _ after done
    rw [Nat.zero_add] at done
    exact cleared after done

theorem Accounted.wp_uvmunmap_special (accounted : Accounted pf s roots kept)
    (owner : roots o = some r) (low : va < MAXVA) (aligned : va % PGSIZE = 0)
    (special : ¬ Owned (pathOf va))
    (removed : ∀ after, Within pf s roots kept o (onPage o va) after →
      hasFlag (leaf after.mem r va) PTE_V = false → post ⟨⟩ after) :
    wp (uvmunmap pf r va 1 false) post stop s := by
  have rounds : (add64 va (1 * PGSIZE) - va) / PGSIZE = 0 + 1 := by
    simp only [add64, MAXVA, PGSIZE] at *
    omega
  simp only [uvmunmap, aligned, ne_eq, not_true_eq_false, ↓reduceIte, rounds, forRange, unmapPage,
    Nat.zero_mul, Nat.add_zero, wp_bind]
  refine wp_walk_look low ?_ ?_
  · intro absent
    simp only [wp_pure]
    refine removed s (Within.of_quiet (Quiet.refl accounted)) ?_
    rw [leaf_of_none absent, hasFlag_zero]
  · intro t reached
    have loaded : load s.mem (t + 8 * PX 0 va) 8 = leaf s.mem r va := (leaf_of_table reached).symm
    simp only [wp_bind, wp_loadWord, loaded]
    split
    · rename_i invalid
      simp only [wp_pure]
      exact removed s (Within.of_quiet (Quiet.refl accounted)) invalid
    · obtain ⟨pages, books⟩ := accounted
      simp only [Bool.false_eq_true, ↓reduceIte, wp_storeWord, wp_pure]
      obtain ⟨done, remapped⟩ := books.map_special (v := 0) owner reached special (by decide)
        (by simp)
      refine removed _ (remapped.within books owner reached low ⟨pages, done⟩) ?_
      exact (congrArg (hasFlag · PTE_V) (remapped.here owner)).trans (hasFlag_zero PTE_V)

theorem PGROUNDUP_spec {sz : Nat} (bounded : sz ≤ TRAPFRAME) :
    PGROUNDUP sz % PGSIZE = 0 ∧ sz ≤ PGROUNDUP sz ∧ PGROUNDUP sz < sz + PGSIZE ∧
      PGROUNDUP sz ≤ TRAPFRAME := by
  simp only [PGROUNDUP, add64, TRAPFRAME, TRAMPOLINE, MAXVA, PGSIZE] at *
  omega

theorem PGROUNDUP_mono {old new : Nat} (order : old ≤ new) (bounded : new ≤ TRAPFRAME) :
    PGROUNDUP old ≤ PGROUNDUP new := by
  simp only [PGROUNDUP, add64, TRAPFRAME, TRAMPOLINE, MAXVA, PGSIZE] at *
  omega

/-- Whole pages are not rounded. -/
theorem PGROUNDUP_aligned {sz : Nat} (aligned : sz % PGSIZE = 0) (bounded : sz ≤ TRAPFRAME) :
    PGROUNDUP sz = sz := by
  obtain ⟨rounded, low, high, -⟩ := PGROUNDUP_spec bounded
  simp only [PGSIZE] at *
  omega

theorem throughInt_small {n : Nat} (small : n < 2 ^ 31) : throughInt n = n := by
  rw [throughInt, Nat.mod_eq_of_lt (by omega), if_pos small]

theorem Accounted.wp_uvmdealloc (accounted : Accounted pf s roots kept) (owner : roots o = some r)
    {oldsz newsz : Nat} (bounded : oldsz ≤ TRAPFRAME) (hand : kept .hand = none)
    {post : Nat → Kernel → Prop} (larger : oldsz ≤ newsz → post oldsz s)
    (smaller : ∀ after, newsz < oldsz →
      Emptied pf s roots kept o (PGROUNDUP newsz) (PGROUNDUP oldsz) after → post newsz after) :
    wp (uvmdealloc pf r oldsz newsz) post stop s := by
  rw [uvmdealloc]
  split
  · rename_i grows
    rw [wp_pure]
    exact larger grows
  · rename_i shrinks
    obtain ⟨oldAligned, oldLow, oldHigh, oldBound⟩ := PGROUNDUP_spec bounded
    have smallerSize : newsz ≤ TRAPFRAME := by omega
    obtain ⟨newAligned, newLow, newHigh, newBound⟩ := PGROUNDUP_spec smallerSize
    split
    · rename_i pagesGo
      have count : (PGROUNDUP oldsz - PGROUNDUP newsz) / PGSIZE * PGSIZE =
          PGROUNDUP oldsz - PGROUNDUP newsz := by
        simp only [PGSIZE] at *
        omega
      have asInt : throughInt ((PGROUNDUP oldsz - PGROUNDUP newsz) / PGSIZE) =
          (PGROUNDUP oldsz - PGROUNDUP newsz) / PGSIZE := by
        apply throughInt_small
        simp only [TRAPFRAME, TRAMPOLINE, MAXVA, PGSIZE] at *
        omega
      simp only [wp_bind, asInt]
      refine accounted.wp_uvmunmap owner (by rw [count]; omega) newAligned hand ?_
      intro after done
      rw [wp_pure]
      refine smaller after (by omega) ?_
      rw [count, Nat.add_sub_cancel' (by omega)] at done
      exact done
    · rename_i samePages
      have same : PGROUNDUP newsz = PGROUNDUP oldsz := by
        simp only [PGROUNDUP, add64, TRAPFRAME, TRAMPOLINE, MAXVA, PGSIZE] at *
        omega
      rw [wp_pure]
      refine smaller s (by omega) ?_
      rw [same]
      exact Emptied.refl accounted o _

def Zeroed (mem : ByteMap) (q : Nat) : Prop := ∀ a, q ≤ a → a < q + PGSIZE → mem a = 0

theorem Zeroed.congr {mem mem' : ByteMap} (zeroed : Zeroed mem q) (same : SamePage mem mem' q) :
    Zeroed mem' q :=
  fun a low high => (same a low high).trans (zeroed a low high)

theorem zeroed_fill (mem : ByteMap) (q : Nat) : Zeroed (fill mem q PGSIZE 0) q := by
  intro a low high
  simp [fill, low, high]

theorem held_user (owner : roots o = some r) (user : va < TRAPFRAME)
    (valid : hasFlag (leaf s.mem r va) PTE_V = true) :
    held s.mem roots kept (.page o (pathOf va)) = some (PTE2PA (leaf s.mem r va)) := by
  rw [held_page owner (owned_user user), follow_pathOf, valid]
  rfl

theorem Within.samePage {region : Owner → Nat → Prop} {after : Kernel}
    (within : Within pf s roots kept o region after) (owner : roots o = some r)
    (user : va < TRAPFRAME) (outside : ¬ region o va)
    (valid : hasFlag (leaf s.mem r va) PTE_V = true) :
    SamePage s.mem after.mem (PTE2PA (leaf s.mem r va)) :=
  within.frame (.page o (pathOf va)) _ (.inr ⟨va, user, rfl, outside⟩) (held_user owner user valid)

structure Filled (pf : Platform) (s : Kernel) (roots : Owner → Option Nat)
    (kept : Keeper → Option Nat) (o : Owner) (low high f : Nat) (after : Kernel) : Prop where
  within : Within pf s roots kept o (inRange o low high) after
  present : ∀ r va, roots o = some r → low ≤ va → va < high → va < VASPACE →
    ∃ q, IsPage pf q ∧ leaf after.mem r va = PA2PTE q ||| f ∧ Zeroed after.mem q

theorem Filled.refl (accounted : Accounted pf s roots kept) (o : Owner) (low f : Nat) :
    Filled pf s roots kept o low low f s :=
  ⟨Within.of_quiet (Quiet.refl accounted), fun _ _ _ lower upper => absurd lower (by omega)⟩

theorem Filled.snoc {low f : Nat} (sofar : Filled pf s roots kept o low va f current)
    (order : low ≤ va) (aligned : va % PGSIZE = 0) (user : va < TRAPFRAME) (page : IsPage pf q)
    (flags : LeafFlags f) (mapped : MappedAt pf current roots kept o va (PA2PTE q ||| f) after)
    (zeroed : Zeroed after.mem q) :
    Filled pf s roots kept o low (va + PGSIZE) f after := by
  have range : va < VASPACE := Nat.lt_trans user (by decide)
  have left : ∀ o' va', inRange o low va o' va' → inRange o low (va + PGSIZE) o' va' :=
    fun o' va' inside => ⟨inside.1, inside.2.1, by have := inside.2.2; omega⟩
  have right : ∀ o' va', onPage o va o' va' → inRange o low (va + PGSIZE) o' va' := by
    rintro o' va' ⟨same, page⟩
    simp only [PGSIZE] at *
    exact ⟨same, by omega, by omega⟩
  refine ⟨(sofar.within.mono left).trans (mapped.within.mono right), ?_⟩
  intro r va' owner lower upper low'
  by_cases last : va ≤ va'
  · have same : va' / PGSIZE = va / PGSIZE := by
      simp only [PGSIZE] at *
      omega
    rw [leaf_page low' range same, mapped.here r owner]
    exact ⟨q, page, rfl, zeroed⟩
  · have outside : ¬ onPage o va o va' := by
      rintro ⟨-, same⟩
      simp only [PGSIZE] at *
      omega
    obtain ⟨q', page', stored, zeroed'⟩ := sofar.present r va' owner lower (by omega) low'
    have valid : hasFlag (leaf current.mem r va') PTE_V = true := by
      rw [stored, hasFlag_pte q' flags.small (by decide)]
      exact flags.valid
    have same := mapped.within.samePage owner (by omega) outside valid
    rw [stored, PTE2PA_or page'.1 page'.wide flags.small] at same
    rw [mapped.within.leaves o r va' owner low' outside]
    exact ⟨q', page', stored, zeroed'.congr same⟩

theorem kept_restored {k : Keeper} (hand : kept k = none) (q : Nat) :
    update (update kept k (some q)) k none = kept := by
  rw [update_idem, ← hand, update_eq_self]

theorem Accounted.wp_map_or_free {β : Type} {yes no : β}
    (accounted : Accounted pf s roots (update kept .hand (some q)))
    (owner : roots o = some r) (user : va < TRAPFRAME) (aligned : va % PGSIZE = 0)
    (node : kept .node = none) (hand : kept .hand = none) {perm : Nat}
    (flags : LeafFlags (perm ||| PTE_V)) {post : β → Kernel → Prop}
    (remap : hasFlag (leaf s.mem r va) PTE_V = true → stop .mappagesRemap)
    (refused : ∀ after, Quiet pf s roots kept o after → s.denied < after.denied → post no after)
    (mapped : ∀ after, MappedAt pf s roots kept o va (PA2PTE q ||| (perm ||| PTE_V)) after →
      SamePage s.mem after.mem q → post yes after) :
    wp (do
      if (← mappages pf r va PGSIZE q perm) ≠ 0 then
        kfree pf q
        pure no
      else pure yes) post stop s := by
  have inHand : update kept .hand (some q) .hand = some q := by simp
  rw [wp_bind]
  refine accounted.wp_mappages_user owner user aligned (by simp [node]) inHand flags remap ?_ ?_
  · intro after failed short
    simp only [Int.reduceNeg, ne_eq, Int.neg_eq_zero, one_ne_zero, not_false_eq_true, ↓reduceIte,
      wp_bind]
    refine failed.accounted.wp_kfree_hand o inHand ?_
    intro last given
    rw [kept_restored hand] at given
    rw [wp_pure]
    exact refused last (failed.trans given) (Nat.lt_of_lt_of_le short given.denied)
  · intro after done
    rw [kept_restored hand] at done
    simp only [ne_eq, not_true_eq_false, ↓reduceIte, wp_pure]
    exact mapped after done

theorem Accounted.wp_growPage (accounted : Accounted pf s roots kept) (owner : roots o = some r)
    (user : va < TRAPFRAME) (aligned : va % PGSIZE = 0) (node : kept .node = none)
    (hand : kept .hand = none) {xperm : Nat}
    (flags : LeafFlags (PTE_R ||| PTE_U ||| xperm ||| PTE_V)) {post : Bool → Kernel → Prop}
    (remap : hasFlag (leaf s.mem r va) PTE_V = true → stop .mappagesRemap)
    (refused : ∀ after, Quiet pf s roots kept o after → s.denied < after.denied →
      post false after)
    (grown : ∀ q after, IsPage pf q → MappedAt pf s roots kept o va
      (PA2PTE q ||| (PTE_R ||| PTE_U ||| xperm ||| PTE_V)) after → Zeroed after.mem q →
      post true after) :
    wp (growPage pf r va xperm) post stop s := by
  have low : va < VASPACE := Nat.lt_trans user (by decide)
  rw [growPage, wp_bind]
  refine accounted.wp_kalloc_hand o hand (fun after quiet short => ?_) ?_
  · simp only [↓reduceIte, wp_pure]
    exact refused after quiet short
  · intro q taken page quiet
    have inHand : update kept .hand (some q) .hand = some q := by simp
    have cleared := quiet.trans
      (quiet.accounted.scribble_hand (o := o) inHand (changedIn_fill taken.mem q 0))
    rw [if_neg page.nonzero, wp_bind, wp_memset]
    refine cleared.accounted.wp_map_or_free owner user aligned node hand flags ?_ ?_ ?_
    · intro valid
      rw [cleared.leaf_of_quiet owner low] at valid
      exact remap valid
    · intro after failed short
      exact refused after (cleared.trans failed) (Nat.lt_of_le_of_lt cleared.denied short)
    · intro after mapped same
      exact grown q after page ⟨(Within.of_quiet cleared).trans mapped.within, mapped.here⟩
        ((zeroed_fill taken.mem q).congr same)

theorem Filled.wp_round {low high a xperm : Nat} {current : Kernel}
    (sofar : Filled pf s roots kept o low a (PTE_R ||| PTE_U ||| xperm ||| PTE_V) current)
    (owner : roots o = some r) (node : kept .node = none) (hand : kept .hand = none)
    (flags : LeafFlags (PTE_R ||| PTE_U ||| xperm ||| PTE_V)) (lowAligned : low % PGSIZE = 0)
    (aligned : a % PGSIZE = 0) (order : low ≤ a) (inside : a < high) (user : a < TRAPFRAME)
    (fresh : ∀ va, low ≤ va → va < high → hasFlag (leaf s.mem r va) PTE_V = false) :
    wp (do
      if ← growPage pf r a xperm then pure none
      else
        let _ ← uvmdealloc pf r a low
        pure (some ()))
      (fun outcome after =>
        (∀ result, outcome = some result → Cleared pf s roots kept o low high after ∧
          s.denied < after.denied) ∧
        (outcome = none → Filled pf s roots kept o low (a + PGSIZE)
          (PTE_R ||| PTE_U ||| xperm ||| PTE_V) after)) stop current := by
  have range : a < VASPACE := by
    simp only [TRAPFRAME, TRAMPOLINE, MAXVA, PGSIZE, VASPACE] at *
    omega
  simp only [wp_bind]
  refine sofar.within.accounted.wp_growPage owner user aligned node hand flags ?_ ?_ ?_
  · intro valid
    rw [sofar.within.leaves o r a owner range fun within => Nat.lt_irrefl _ within.2.2,
      fresh a order inside] at valid
    simp at valid
  · intro after quiet short
    simp only [Bool.false_eq_true, ↓reduceIte, wp_bind]
    have sofar' := sofar.within.trans (Within.of_quiet quiet)
    -- What was mapped before the failure is unmapped again.
    have finish : ∀ last, Cleared pf after roots kept o low a last →
        Cleared pf s roots kept o low high last ∧ s.denied < last.denied := by
      intro last cleared
      have wider : ∀ o' va', inRange o low a o' va' → inRange o low high o' va' :=
        fun o' va' within => ⟨within.1, within.2.1, Nat.lt_trans within.2.2 inside⟩
      have whole := sofar'.trans cleared.within
      refine ⟨⟨whole.mono wider, ?_⟩, Nat.lt_of_lt_of_le
        (Nat.lt_of_le_of_lt sofar.within.denied short) cleared.within.denied⟩
      intro r' va' owner' lower upper low'
      obtain rfl : r' = r := Option.some.inj (owner'.symm.trans owner)
      by_cases touched : va' < a
      · exact cleared.gone r' va' owner' lower touched low'
      · rw [whole.leaves o r' va' owner' low' fun within => touched within.2.2]
        exact fresh va' lower upper
    refine quiet.accounted.wp_uvmdealloc owner (Nat.le_of_lt user) hand ?_ ?_
    · intro noneMapped
      obtain rfl : a = low := Nat.le_antisymm noneMapped order
      simp only [wp_pure, reduceCtorEq, false_implies, and_true]
      exact fun _ _ => finish after (Cleared.refl quiet.accounted o a)
    · intro last _ cleared
      simp only [wp_pure, reduceCtorEq, false_implies, and_true]
      rw [PGROUNDUP_aligned lowAligned (order.trans (Nat.le_of_lt user)),
        PGROUNDUP_aligned aligned (Nat.le_of_lt user)] at cleared
      exact fun _ _ => finish last cleared.toCleared
  · intro q after page mapped zeroed
    simp only [↓reduceIte, wp_pure, reduceCtorEq, false_implies, implies_true, true_and,
      forall_const]
    exact sofar.snoc order aligned user page flags mapped zeroed

def Roomy (pf : Platform) (s : Kernel) (roots : Owner → Option Nat) (kept : Keeper → Option Nat)
    (o : Owner) (low f newsz : Nat) : Prop :=
  ∀ a current, a % PGSIZE = 0 → a < newsz + PGSIZE → Filled pf s roots kept o low a f current →
    a ≤ TRAPFRAME ∧ (newsz ≤ TRAPFRAME ∨ a < TRAPFRAME)

theorem roomy_of_le {low f newsz : Nat} (bounded : newsz ≤ TRAPFRAME) :
    Roomy pf s roots kept o low f newsz := by
  intro a current aligned below _
  refine ⟨?_, Or.inl bounded⟩
  simp only [TRAPFRAME, TRAMPOLINE, MAXVA, PGSIZE] at *
  omega

/-- The law of `uvmalloc`. -/
theorem Accounted.wp_uvmalloc (accounted : Accounted pf s roots kept) (owner : roots o = some r)
    {oldsz newsz xperm : Nat} (bounded : oldsz ≤ TRAPFRAME) (node : kept .node = none)
    (hand : kept .hand = none) (flags : LeafFlags (PTE_R ||| PTE_U ||| xperm ||| PTE_V))
    (fresh : ∀ va, PGROUNDUP oldsz ≤ va → va < TRAPFRAME → hasFlag (leaf s.mem r va) PTE_V = false)
    (room : Roomy pf s roots kept o (PGROUNDUP oldsz) (PTE_R ||| PTE_U ||| xperm ||| PTE_V) newsz)
    {post : Nat → Kernel → Prop} (smaller : newsz < oldsz → post oldsz s)
    (refused : ∀ after, oldsz ≤ newsz → Cleared pf s roots kept o (PGROUNDUP oldsz) TRAPFRAME after →
      s.denied < after.denied → post 0 after)
    (grown : ∀ after, oldsz ≤ newsz → newsz ≤ TRAPFRAME →
      Filled pf s roots kept o (PGROUNDUP oldsz) (PGROUNDUP newsz)
        (PTE_R ||| PTE_U ||| xperm ||| PTE_V) after → post newsz after) :
    wp (uvmalloc pf r oldsz newsz xperm) post stop s := by
  rw [uvmalloc]
  split
  · rename_i shrinks
    rw [wp_pure]
    exact smaller shrinks
  · rename_i notSmaller
    have grows : oldsz ≤ newsz := Nat.le_of_not_lt notSmaller
    obtain ⟨lowAligned, oldLow, oldHigh, oldBound⟩ := PGROUNDUP_spec bounded
    have last : newsz ≤ PGROUNDUP oldsz + (newsz - PGROUNDUP oldsz + PGSIZE - 1) / PGSIZE * PGSIZE ∧
        PGROUNDUP oldsz + (newsz - PGROUNDUP oldsz + PGSIZE - 1) / PGSIZE * PGSIZE <
          newsz + PGSIZE := by
      simp only [PGSIZE] at *
      omega
    simp only [wp_bind]
    refine wp_mono (wp_searchRange
      (fun k current => Filled pf s roots kept o (PGROUNDUP oldsz) (PGROUNDUP oldsz + k * PGSIZE)
        (PTE_R ||| PTE_U ||| xperm ||| PTE_V) current)
      (fun _ current => Cleared pf s roots kept o (PGROUNDUP oldsz) TRAPFRAME current ∧
        s.denied < current.denied) stop
      _ 0 _ s ?_ ?_) ?_ fun _ stopped => stopped
    · intro k current _ upper sofar
      rw [Nat.zero_add] at upper
      have inside : PGROUNDUP oldsz + k * PGSIZE < newsz := by
        simp only [PGSIZE] at *
        omega
      have user : PGROUNDUP oldsz + k * PGSIZE < TRAPFRAME := by
        have := room _ current (page_aligned lowAligned k) (Nat.lt_add_right _ inside) sofar
        omega
      rw [page_succ]
      exact sofar.wp_round owner node hand flags lowAligned (page_aligned lowAligned k)
        (Nat.le_add_right ..) user user fresh
    · rw [Nat.zero_mul, Nat.add_zero]
      exact Filled.refl accounted o _ _
    · rintro (_ | _) after outcome
      · have done := outcome.2 rfl
        rw [Nat.zero_add] at done
        have ends := room _ after (page_aligned lowAligned _) last.2 done
        have low : newsz ≤ TRAPFRAME := by omega
        have reaches : PGROUNDUP oldsz + (newsz - PGROUNDUP oldsz + PGSIZE - 1) / PGSIZE * PGSIZE =
            PGROUNDUP newsz := by
          obtain ⟨newAligned, newLow, newHigh, -⟩ := PGROUNDUP_spec low
          simp only [PGSIZE] at *
          omega
        rw [reaches] at done
        rw [wp_pure]
        exact grown after grows low done
      · obtain ⟨cleared, short⟩ := outcome.1 _ rfl
        rw [wp_pure]
        exact refused after grows cleared short

end Xv6.Vm
