import Xv6.Vm.Walk

/-!
# A page table as a partial map

Seen from outside, a page table is a partial map from virtual pages to physical pages with
flags.
-/

namespace Xv6.Vm

open Command Bytes Ownership Xv6.Tree Function

abbrev PageMap := Nat → Option (Nat × Nat)

def PageMap.map (m : PageMap) (first count pa flags : Nat) : PageMap := fun n =>
  if first ≤ n ∧ n < first + count then
    some (PGROUNDDOWN (add64 pa ((n - first) * PGSIZE)), flags)
  else m n

def PageMap.unmap (m : PageMap) (first count : Nat) : PageMap := fun n =>
  if first ≤ n ∧ n < first + count then none else m n

def PageMap.clear (m : PageMap) (page : Nat) : PageMap :=
  update m page ((m page).map fun x => (x.1, x.2 &&& (2 ^ 10 - 1 - PTE_U)))

def translate (pte : Nat) : Option (Nat × Nat) :=
  if hasFlag pte PTE_V = true then some (PTE2PA pte, PTE_FLAGS pte) else none

def pageMap (mem : ByteMap) (r : Nat) : PageMap := fun n =>
  if n * PGSIZE < MAXVA then translate (leaf mem r (n * PGSIZE)) else none

def leafEntry (mem : ByteMap) (r va : Nat) : Option Nat :=
  (follow (child mem) r [PX 2 va, PX 1 va]).map fun t => t + 8 * PX 0 va

structure FreeList (pf : Platform) (s : Kernel) (pages : List Nat) : Prop where
  chain : FreeChain s.mem s.freelist pages
  nodup : pages.Nodup
  inside : ∀ q, q ∈ pages → IsPage pf q

def Built (pf : Platform) (s : Kernel) (r : Nat) : Prop :=
  ∃ pages, FreeList pf s pages ∧ Tables pf (fun q => q ∉ pages) s.mem r

variable {pf : Platform} {s after : Kernel} {pages : List Nat} {mem mem' : ByteMap}
  {m : PageMap} {r t q v va first last count pa flags perm : Nat} {stop : Panic → Prop}

section Maps

@[simp] theorem PageMap.map_none : m.map first 0 pa flags = m := by
  funext n
  exact if_neg (by omega)

@[simp] theorem PageMap.unmap_none : m.unmap first 0 = m := by
  funext n
  exact if_neg (by omega)

theorem add64_comm_page (pa k : Nat) :
    add64 (add64 pa PGSIZE) (k * PGSIZE) = add64 pa ((k + 1) * PGSIZE) := by
  simp only [add64, PGSIZE]
  omega

theorem PageMap.map_succ (wide : pa < 2 ^ 64) :
    m.map first (count + 1) pa flags =
      PageMap.map (update m first (some (PGROUNDDOWN pa, flags))) (first + 1) count
        (add64 pa PGSIZE) flags := by
  funext n
  by_cases here : n = first
  · subst here
    have whole : add64 pa 0 = pa := Nat.mod_eq_of_lt wide
    have out : ¬ (n + 1 ≤ n ∧ n < n + 1 + count) := by omega
    simp [PageMap.map, whole]
  · rw [PageMap.map, PageMap.map, update_of_ne here]
    by_cases inside : first ≤ n ∧ n < first + (count + 1)
    · have later : first + 1 ≤ n ∧ n < first + 1 + count := by omega
      have steps : n - first = n - (first + 1) + 1 := by omega
      rw [if_pos inside, if_pos later, add64_comm_page, steps]
    · rw [if_neg inside, if_neg (by omega)]

theorem PageMap.unmap_succ :
    m.unmap first (count + 1) = update (m.unmap first count) (first + count) none := by
  funext n
  by_cases here : n = first + count
  · subst here
    simp [PageMap.unmap]
  · rw [update_of_ne here, PageMap.unmap, PageMap.unmap]
    by_cases inside : first ≤ n ∧ n < first + count
    · rw [if_pos inside, if_pos (by omega)]
    · rw [if_neg inside, if_neg (by omega)]

end Maps

section Entries

theorem translate_zero : translate 0 = none := rfl

theorem translate_pte (wide : pa < 2 ^ 64) (small : flags < 2 ^ 10)
    (valid : hasFlag flags PTE_V = true) :
    translate (PA2PTE pa ||| flags) = some (PGROUNDDOWN pa, flags) := by
  rw [translate, hasFlag_pte pa small (by decide), if_pos valid, PTE2PA_page wide small,
    PTE_FLAGS_or pa small]

theorem translate_clear {pte : Nat} (bounded : pte < 2 ^ 64) :
    translate (pte &&& (2 ^ 64 - 1 - PTE_U)) =
      (translate pte).map fun x => (x.1, x.2 &&& (2 ^ 10 - 1 - PTE_U)) := by
  rw [translate, translate, hasFlag_clear pte (by decide), PTE2PA_clear bounded, PTE_FLAGS_clear]
  by_cases valid : hasFlag pte PTE_V = true
  · simp only [valid, ↓reduceIte, Option.map_some]
  · simp only [valid, Bool.false_eq_true, ↓reduceIte, Option.map_none]

theorem pageMap_at {n : Nat} (low : n * PGSIZE < MAXVA) :
    pageMap mem r n = translate (leaf mem r (n * PGSIZE)) := if_pos low

theorem pageMap_congr (leaves : ∀ va, leaf mem' r va = leaf mem r va) :
    pageMap mem' r = pageMap mem r := by
  funext n
  rw [pageMap, pageMap, leaves]

theorem pageMap_of (low : va < MAXVA) :
    pageMap mem r (va / PGSIZE) = translate (leaf mem r va) := by
  have start : va / PGSIZE * PGSIZE < MAXVA := by
    have := Nat.div_mul_le_self va PGSIZE
    omega
  rw [pageMap_at start]
  congr 1
  exact leaf_page (lt_vaspace start) (lt_vaspace low) (Nat.mul_div_cancel _ (by decide))

end Entries

section Tree

theorem FreeList.mem_iff (list : FreeList pf s pages) : q ∈ pages ↔ OnFreeList s q := by
  refine ⟨fun listed => ⟨pages, list.chain, listed⟩, ?_⟩
  rintro ⟨pages', chain, listed⟩
  rwa [list.chain.unique chain]

theorem FreeList.frame (list : FreeList pf s pages) (page : q % PGSIZE = 0) (inUse : q ∉ pages)
    (changed : ChangedIn s.mem mem' q) : FreeList pf { s with mem := mem' } pages := by
  refine ⟨list.chain.congr fun free member => ?_, list.nodup, list.inside⟩
  refine changed.samePage page (list.inside free member).1 ?_
  rintro rfl
  exact inUse member

theorem Built.keep_leaf (built : Built pf s r)
    (reached : follow (child s.mem) r [PX 2 va, PX 1 va] = some t) :
    Built pf { s with mem := store s.mem (t + 8 * PX 0 va) 8 v } r := by
  obtain ⟨pages, list, tables⟩ := built
  obtain ⟨page, inUse⟩ := tables.inUse _ t (by simp) reached
  exact ⟨pages, list.frame page.1 inUse (changedIn_entry s.mem v (PX_lt 0 va)),
    tables.keep_leaf reached⟩

/-- It changes the map at one page. -/
theorem Built.pageMap_store (built : Built pf s r) (low : va < MAXVA)
    (reached : follow (child s.mem) r [PX 2 va, PX 1 va] = some t) (small : v < 2 ^ 64) :
    pageMap (store s.mem (t + 8 * PX 0 va) 8 v) r =
      update (pageMap s.mem r) (va / PGSIZE) (translate v) := by
  obtain ⟨pages, list, tables⟩ := built
  funext n
  by_cases below : n * PGSIZE < MAXVA
  · rw [pageMap_at below, tables.leaf_store reached small]
    have same := pathOf_eq (lt_vaspace below) (lt_vaspace low)
    rw [Nat.mul_div_cancel n (by decide)] at same
    by_cases here : n = va / PGSIZE
    · rw [if_pos (same.mpr here), here, update_self]
    · rw [if_neg fun equal => here (same.mp equal), update_of_ne here, pageMap_at below]
  · have away : n ≠ va / PGSIZE := by
      rintro rfl
      have := Nat.div_mul_le_self va PGSIZE
      omega
    rw [update_of_ne away, pageMap, pageMap, if_neg below, if_neg below]

theorem Built.leafEntry_ne (built : Built pf s r) {va' entry entry' : Nat} (low : va < MAXVA)
    (low' : va' < MAXVA) (pages : va / PGSIZE ≠ va' / PGSIZE)
    (here : leafEntry s.mem r va = some entry) (there : leafEntry s.mem r va' = some entry') :
    entry ≠ entry' := by
  obtain ⟨free, list, tables⟩ := built
  simp only [leafEntry, Option.map_eq_some_iff] at here there
  obtain ⟨t, reached, rfl⟩ := here
  obtain ⟨t', reached', rfl⟩ := there
  intro same
  have index := PX_lt 0 va
  have index' := PX_lt 0 va'
  have aligned := (tables.inUse _ t (by simp) reached).1.1
  have aligned' := (tables.inUse _ t' (by simp) reached').1.1
  obtain ⟨table, last⟩ : t = t' ∧ PX 0 va = PX 0 va' := by
    generalize PX 0 va = i at *
    generalize PX 0 va' = i' at *
    simp only [PGSIZE, NPTE] at *
    omega
  subst table
  have upper := tables.single _ _ t (by simp) (by simp) reached reached'
  refine pages ((pathOf_eq (lt_vaspace low) (lt_vaspace low')).mp ?_)
  simp only [List.cons.injEq, and_true] at upper
  rw [pathOf, pathOf, upper.1, upper.2, last]

end Tree

structure Unchanged (pf : Platform) (s : Kernel) (r : Nat) (after : Kernel) : Prop where
  built : Built pf after r
  leaves : ∀ va, leaf after.mem r va = leaf s.mem r va

theorem Unchanged.pageMap_eq (same : Unchanged pf s r after) :
    pageMap after.mem r = pageMap s.mem r :=
  pageMap_congr same.leaves

theorem Tables.take {rest : List Nat} (tables : Tables pf (fun p => p ∉ q :: rest) mem r)
    (page : IsPage pf q) (changed : ChangedIn mem mem' q) :
    (∀ path, path.length ≤ 2 → follow (child mem') r path ≠ some q) ∧
      Tables pf (fun p => p ∉ rest) mem' r ∧ ∀ va, leaf mem' r va = leaf mem r va := by
  have notTable : ∀ path, path.length ≤ 2 → follow (child mem) r path ≠ some q :=
    fun path short reached => (tables.inUse path q short reached).2 (by simp)
  have same := tables.same page.1 notTable changed
  have follows : ∀ {path : List Nat}, path.length ≤ 2 →
      follow (child mem') r path = follow (child mem) r path := fun short =>
    same.follow_eq (o := .building) rfl (by omega)
  refine ⟨fun path short => ?_, tables.congr follows fun _ _ _ _ out member => ?_, fun va => ?_⟩
  · rw [follows short]
    exact notTable path short
  · exact out (List.mem_cons_of_mem q member)
  · exact same.leaf_eq (o := .building) rfl va

theorem Tables.grow (after : Kernel) {path rest : List Nat} {i freelist : Nat}
    (list : FreeList pf s (q :: rest)) (tables : Tables pf (fun p => p ∉ q :: rest) s.mem r)
    (short : path.length < 2) (reached : follow (child s.mem) r path = some t) (index : i < NPTE)
    (invalid : hasFlag (entry s.mem t i) PTE_V = false) (changed : ChangedIn s.mem mem q)
    (chain : FreeChain mem freelist rest)
    (memory : after.mem = store (fill mem q PGSIZE 0) (t + 8 * i) 8 (PA2PTE q ||| PTE_V))
    (head : after.freelist = freelist) :
    Unchanged pf s r after ∧ follow (child after.mem) r (path ++ [i]) = some q := by
  have low : path.length ≤ 2 := by omega
  have page := list.inside q (by simp)
  obtain ⟨fresh, distinct⟩ := List.nodup_cons.mp list.nodup
  have others : ∀ free, free ∈ rest → IsPage pf free := fun free member =>
    list.inside free (List.mem_cons_of_mem q member)
  obtain ⟨tablePage, inUse⟩ := tables.inUse path t low reached
  have apart : t ≠ q := by
    rintro rfl
    exact inUse (by simp)
  have filled : ChangedIn s.mem (fill mem q PGSIZE 0) q := changed.trans (changedIn_fill mem q 0)
  have same := tables.same page.1
    (fun path short' reached' => (tables.inUse path q short' reached').2 (by simp)) filled
  have emptied : FreeChain (fill mem q PGSIZE 0) freelist rest := by
    refine chain.congr fun free member => ?_
    refine (changedIn_fill mem q 0).samePage page.1 (others free member).1 ?_
    rintro rfl
    exact fresh member
  obtain ⟨notTable, tables', leaves⟩ := tables.take page filled
  have reached' : follow (child (fill mem q PGSIZE 0)) r path = some t := by
    rw [← reached]
    exact same.follow_eq (o := .building) rfl (by omega)
  have invalid' : hasFlag (entry (fill mem q PGSIZE 0) t i) PTE_V = false := by
    rwa [entry_congr (filled.samePage page.1 tablePage.1 apart) index]
  have hung := tables'.hang short reached' index invalid' page notTable
    fun j inside => entry_fill_zero mem q inside
  refine ⟨⟨⟨rest, ⟨?_, distinct, others⟩, ?_⟩, fun va => ?_⟩, ?_⟩
  · rw [memory, head]
    refine emptied.congr fun free member => ?_
    refine (changedIn_entry _ _ index).samePage tablePage.1 (others free member).1 ?_
    rintro rfl
    exact inUse (List.mem_cons_of_mem q member)
  · rw [memory]
    exact tables'.keep_hung short reached' index page fresh notTable hung
  · rw [memory, hung.leaves va, leaves va]
  · rw [memory]
    exact hung.reached

/-- The law of the rounds of `walk` when it may allocate. -/
theorem Built.wp_walkFrom (level : Nat) (inside : level ≤ 2) {post : Option Nat → Kernel → Prop}
    (built : Built pf s r) (reached : follow (child s.mem) r (above va level) = some t)
    (refused : ∀ after, Unchanged pf s r after → post none after)
    (found : ∀ t after, Unchanged pf s r after →
      follow (child after.mem) r [PX 2 va, PX 1 va] = some t →
      post (some (t + 8 * PX 0 va)) after) :
    wp (walkFrom pf va true level t) post stop s := by
  induction level generalizing s t with
  | zero =>
    rw [walkFrom, wp_pure]
    exact found t s ⟨built, fun _ => rfl⟩ reached
  | succ level ih =>
    have loaded : load s.mem (t + 8 * PX (level + 1) va) 8 = entry s.mem t (PX (level + 1) va) :=
      rfl
    simp only [walkFrom, wp_bind, wp_loadWord, loaded]
    by_cases valid : hasFlag (entry s.mem t (PX (level + 1) va)) PTE_V = true
    · simp only [valid, ↓reduceIte]
      refine ih (by omega) built ?_ refused found
      rw [← above_succ (by omega), follow_snoc, reached, Option.bind_some, child_eq_some]
      exact ⟨⟨PX_lt _ va, valid⟩, rfl⟩
    · simp only [valid, Bool.false_eq_true, Bool.true_eq_false, ↓reduceIte, wp_bind]
      obtain ⟨pages, list, tables⟩ := built
      refine wp_kalloc_list list.chain list.nodup list.inside ?_ ?_
      · simp only [↓reduceIte, wp_pure]
        exact refused _ ⟨⟨pages, ⟨list.chain, list.nodup, list.inside⟩, tables⟩, fun _ => rfl⟩
      · rintro q rest mem freelist rfl page changed chain
        simp only [page.nonzero, ↓reduceIte, wp_bind, wp_memset, wp_storeWord]
        have short : (above va (level + 1)).length < 2 := by
          simp only [above, List.length_take, List.length_cons, List.length_nil]
          omega
        generalize hung : Kernel.mk _ _ _ _ _ _ = next
        have grown := Tables.grow next list tables short reached (PX_lt _ va)
          (by simpa using valid) changed chain (by rw [← hung]) (by rw [← hung])
        obtain ⟨same, reached'⟩ := grown
        rw [above_succ (by omega)] at reached'
        have onward : ∀ {later : Kernel}, Unchanged pf next r later → Unchanged pf s r later :=
          fun step => ⟨step.built, fun va => (step.leaves va).trans (same.leaves va)⟩
        exact ih (by omega) same.built reached' (fun later step => refused later (onward step))
          fun t later step => found t later (onward step)

theorem Built.wp_walk (built : Built pf s r) (low : va < MAXVA) {post : Option Nat → Kernel → Prop}
    (refused : ∀ after, Unchanged pf s r after → post none after)
    (found : ∀ t after, Unchanged pf s r after →
      follow (child after.mem) r [PX 2 va, PX 1 va] = some t →
      post (some (t + 8 * PX 0 va)) after) :
    wp (walk pf r va true) post stop s := by
  have inRange : ¬ MAXVA ≤ va := by omega
  simp only [walk, inRange, ↓reduceIte]
  exact built.wp_walkFrom 2 (Nat.le_refl 2) rfl refused found

/-- A mapping is there. -/
def Present (s : Kernel) (r n : Nat) : Prop := pageMap s.mem r n ≠ none

def MappedPages (m : PageMap) (first count pa flags : Nat) (result : Int) (m' : PageMap) : Prop :=
  result = 0 ∧ m' = m.map first count pa flags ∨
    result = -1 ∧ ∃ k, k < count ∧ m' = m.map first k pa flags

theorem Built.wp_mapRounds (last perm rounds first pa : Nat) (built : Built pf s r)
    (fits : (first + rounds) * PGSIZE ≤ MAXVA) (final : first + rounds = last + 1)
    (more : 0 < rounds) (wide : pa < 2 ^ 64) (small : perm ||| PTE_V < 2 ^ 10) :
    wp (mapRounds pf r (last * PGSIZE) perm rounds (first * PGSIZE) pa)
      (fun result after => Built pf after r ∧ MappedPages (pageMap s.mem r) first rounds pa
        (perm ||| PTE_V) result (pageMap after.mem r))
      (fun reason => reason = .mappagesRemap ∧
        ∃ n, first ≤ n ∧ n < first + rounds ∧ Present s r n) s := by
  induction rounds generalizing s first pa with
  | zero => omega
  | succ rounds ih =>
    have low : first * PGSIZE < MAXVA := by
      simp only [PGSIZE, MAXVA] at *
      omega
    have onPage : first * PGSIZE / PGSIZE = first := Nat.mul_div_cancel first (by decide)
    rw [mapRounds, wp_bind]
    refine built.wp_walk low ?_ ?_
    · intro after same
      rw [wp_pure]
      exact ⟨same.built, .inr ⟨rfl, 0, by omega, by rw [PageMap.map_none, same.pageMap_eq]⟩⟩
    · intro t middle same reached
      have loaded : load middle.mem (t + 8 * PX 0 (first * PGSIZE)) 8 =
          leaf s.mem r (first * PGSIZE) := by
        rw [← same.leaves, leaf_of_table reached, entry]
      simp only [wp_bind, wp_loadWord, loaded]
      by_cases valid : hasFlag (leaf s.mem r (first * PGSIZE)) PTE_V = true
      · simp only [valid, ↓reduceIte, wp_throw]
        refine ⟨trivial, first, Nat.le_refl _, by omega, ?_⟩
        rw [Present, pageMap_at low, translate, if_pos valid]
        simp
      · simp only [valid, Bool.false_eq_true, ↓reduceIte, wp_bind, wp_storeWord, Nat.or_assoc]
        have built' := same.built.keep_leaf (v := PA2PTE pa ||| (perm ||| PTE_V)) reached
        have mapped := same.built.pageMap_store low reached (pte_or_lt wide small)
        rw [onPage, same.pageMap_eq, translate_pte wide small (by
          rw [hasFlag_or]
          simp [hasFlag])] at mapped
        by_cases atEnd : first = last
        · obtain rfl : rounds = 0 := by omega
          simp only [atEnd, ↓reduceIte, wp_pure]
          subst atEnd
          refine ⟨built', .inl ⟨rfl, ?_⟩⟩
          rw [PageMap.map_succ wide, PageMap.map_none, mapped]
        · have further : first * PGSIZE ≠ last * PGSIZE := fun equal =>
            atEnd (Nat.eq_of_mul_eq_mul_right (by decide) equal)
          have next : add64 (first * PGSIZE) PGSIZE = (first + 1) * PGSIZE := by
            simp only [add64, PGSIZE, MAXVA] at *
            omega
          simp only [further, ↓reduceIte, next]
          have fits' : (first + 1 + rounds) * PGSIZE ≤ MAXVA := by
            rw [Nat.add_assoc, Nat.add_comm 1 rounds]
            exact fits
          have rest := ih (first + 1) (add64 pa PGSIZE) built' fits' (by omega) (by omega)
            (Nat.mod_lt _ (by decide))
          refine wp_mono rest ?_ ?_
          · rintro result after ⟨done, outcome⟩
            refine ⟨done, ?_⟩
            rw [mapped] at outcome
            rcases outcome with ⟨zero, all⟩ | ⟨failed, k, fewer, some⟩
            · exact .inl ⟨zero, by rw [PageMap.map_succ wide, all]⟩
            · exact .inr ⟨failed, k + 1, by omega, by rw [PageMap.map_succ wide, some]⟩
          · rintro reason ⟨remap, n, low', high, present⟩
            refine ⟨remap, n, by omega, by omega, ?_⟩
            rw [Present, mapped, update_of_ne (by omega)] at present
            exact present

theorem Built.wp_mappages {size : Nat} (built : Built pf s r) (fits : va + size ≤ MAXVA)
    (wide : pa < 2 ^ 64) (small : perm < 2 ^ 10) :
    wp (mappages pf r va size pa perm)
      (fun result after => Built pf after r ∧ MappedPages (pageMap s.mem r) (va / PGSIZE)
        (size / PGSIZE) pa (perm ||| PTE_V) result (pageMap after.mem r))
      (fun reason => reason = .mappagesVa ∧ va % PGSIZE ≠ 0 ∨
        reason = .mappagesSize ∧ size % PGSIZE ≠ 0 ∨ reason = .mappagesZero ∧ size = 0 ∨
        reason = .mappagesRemap ∧ ∃ n, va / PGSIZE ≤ n ∧ n < va / PGSIZE + size / PGSIZE ∧
          Present s r n) s := by
  rw [mappages]
  by_cases start : va % PGSIZE = 0
  · by_cases whole : size % PGSIZE = 0
    · by_cases zero : size = 0
      · simp [start, zero]
      · have first : va / PGSIZE * PGSIZE = va := Nat.div_mul_cancel (Nat.dvd_of_mod_eq_zero start)
        have count : size / PGSIZE * PGSIZE = size :=
          Nat.div_mul_cancel (Nat.dvd_of_mod_eq_zero whole)
        have more : 0 < size / PGSIZE := by
          simp only [PGSIZE] at *
          omega
        have last : add64 va (size - PGSIZE) = (va / PGSIZE + size / PGSIZE - 1) * PGSIZE := by
          simp only [add64, PGSIZE, MAXVA] at *
          omega
        have law := built.wp_mapRounds (va / PGSIZE + size / PGSIZE - 1) perm
          (size / PGSIZE) (va / PGSIZE) pa (by rw [Nat.add_mul, first, count]; exact fits)
          (Nat.sub_add_cancel (Nat.le_add_left_of_le more)).symm more wide
          (Nat.or_lt_two_pow small (by decide))
        rw [first] at law
        simp only [start, ne_eq, not_true_eq_false, ↓reduceIte, whole, zero, last]
        exact wp_mono law (fun _ _ done => done) fun reason stopped =>
          .inr (.inr (.inr stopped))
    · simp [start, whole]
  · simp [start]

structure Freeable (pf : Platform) (s : Kernel) (r first last : Nat) : Prop where
  inUse : ∀ n f flags, first ≤ n → n < last → pageMap s.mem r n = some (f, flags) →
    IsPage pf f ∧ ¬ OnFreeList s f ∧ ¬ IsTable s r f
  distinct : ∀ n n' f flags flags', first ≤ n → n < last → first ≤ n' → n' < last →
    pageMap s.mem r n = some (f, flags) → pageMap s.mem r n' = some (f, flags') → n = n'

theorem Freeable.rest (freeable : Freeable pf s r first last)
    (sameMap : pageMap after.mem r = update (pageMap s.mem r) first none)
    (sameTables : ∀ f, IsTable after r f → IsTable s r f)
    (taken : ∀ f, OnFreeList after f → OnFreeList s f ∨
      ∃ flags, pageMap s.mem r first = some (f, flags)) (inside : first < last) :
    Freeable pf after r (first + 1) last := by
  have before : ∀ {n : Nat} {x : Nat × Nat}, first + 1 ≤ n → pageMap after.mem r n = some x →
      pageMap s.mem r n = some x := by
    intro n x low there
    rwa [sameMap, update_of_ne (by omega)] at there
  refine ⟨?_, ?_⟩
  · intro n f flags low high there
    obtain ⟨page, notFree, notTable⟩ := freeable.inUse n f flags (by omega) high (before low there)
    refine ⟨page, fun listed => ?_, fun table => notTable (sameTables f table)⟩
    rcases taken f listed with old | ⟨flags', here⟩
    · exact notFree old
    · have := freeable.distinct n first f flags flags' (by omega) high (Nat.le_refl _) inside
        (before low there) here
      omega
  · intro n n' f flags flags' low high low' high' there there'
    exact freeable.distinct n n' f flags flags' (by omega) high (by omega) high'
      (before low there) (before low' there')

theorem Built.free (built : Built pf s r) (page : IsPage pf q) (notFree : ¬ OnFreeList s q)
    (notTable : ¬ IsTable s r q)
    (isAfter : after = { s with mem := freed s.mem s.freelist q, freelist := q }) :
    Unchanged pf s r after ∧
      (∀ path, path.length ≤ 2 → follow (child after.mem) r path = follow (child s.mem) r path) ∧
      ∀ f, OnFreeList after f → OnFreeList s f ∨ f = q := by
  subst isAfter
  obtain ⟨pages, list, tables⟩ := built
  have fresh : q ∉ pages := fun member => notFree (list.mem_iff.mp member)
  have same := tables.same page.1 (fun path short reached => notTable ⟨path, short, reached⟩)
    (changedIn_freed s.mem s.freelist q)
  have follows : ∀ {path : List Nat}, path.length ≤ 2 →
      follow (child (freed s.mem s.freelist q)) r path = follow (child s.mem) r path :=
    fun short => same.follow_eq (o := .building) rfl (by omega)
  have list' : FreeList pf { s with mem := freed s.mem s.freelist q, freelist := q }
      (q :: pages) := by
    refine ⟨list.chain.push list.inside page fresh, List.nodup_cons.mpr ⟨fresh, list.nodup⟩, ?_⟩
    intro other member
    rcases List.mem_cons.mp member with rfl | old
    · exact page
    · exact list.inside other old
  refine ⟨⟨⟨q :: pages, list', tables.congr follows fun path t short reached out member => ?_⟩,
    fun va => same.leaf_eq (o := .building) rfl va⟩, fun path short => follows short, ?_⟩
  · rcases List.mem_cons.mp member with rfl | old
    · exact notTable ⟨path, short, reached⟩
    · exact out old
  · intro f listed
    rcases List.mem_cons.mp (list'.mem_iff.mpr listed) with here | old
    · exact .inr here
    · exact .inl (list.mem_iff.mp old)

structure Dropped (pf : Platform) (s : Kernel) (r first last : Nat) (doFree : Bool)
    (after : Kernel) : Prop where
  built : Built pf after r
  pages : pageMap after.mem r = update (pageMap s.mem r) first none
  owned : doFree = true → Freeable pf after r (first + 1) last

variable {doFree : Bool}

theorem Built.dropped (built : Built pf s r) (low : first * PGSIZE < MAXVA) (inside : first < last)
    (owned : doFree = true → Freeable pf s r first last)
    (absent : hasFlag (leaf s.mem r (first * PGSIZE)) PTE_V = false) :
    Dropped pf s r first last doFree s := by
  have nothing : pageMap s.mem r first = none := by
    rw [pageMap_at low, translate, absent]
    rfl
  have same : pageMap s.mem r = update (pageMap s.mem r) first none := by
    rw [← nothing, update_eq_self]
  exact ⟨built, same, fun free =>
    (owned free).rest same (fun _ table => table) (fun _ listed => .inl listed) inside⟩

theorem Built.dropped_store (unchanged : Unchanged pf s r after)
    (low : first * PGSIZE < MAXVA) (inside : first < last)
    (owned : doFree = true → Freeable pf s r first last)
    (follows : ∀ path, path.length ≤ 2 →
      follow (child after.mem) r path = follow (child s.mem) r path)
    (taken : ∀ f, OnFreeList after f → OnFreeList s f ∨
      ∃ flags, pageMap s.mem r first = some (f, flags))
    (reached : follow (child after.mem) r [PX 2 (first * PGSIZE), PX 1 (first * PGSIZE)] = some t) :
    Dropped pf s r first last doFree
      { after with mem := store after.mem (t + 8 * PX 0 (first * PGSIZE)) 8 0 } := by
  have built := unchanged.built
  have cleared := built.pageMap_store (v := 0) low reached (by decide)
  rw [unchanged.pageMap_eq, Nat.mul_div_cancel first (by decide), translate_zero] at cleared
  refine ⟨built.keep_leaf reached, cleared, fun free => (owned free).rest cleared ?_ ?_ inside⟩
  · rintro f ⟨path, short, table⟩
    obtain ⟨pages, list, tables⟩ := built
    rw [tables.follow_leaf reached short, follows path short] at table
    exact ⟨path, short, table⟩
  · intro f listed
    obtain ⟨pages, list, tables⟩ := built
    obtain ⟨page, inUse⟩ := tables.inUse _ t (by simp) reached
    have list' := list.frame page.1 inUse (changedIn_entry after.mem 0 (PX_lt 0 (first * PGSIZE)))
    exact taken f (list.mem_iff.mp (list'.mem_iff.mpr listed))

theorem Built.wp_unmapPage (first last : Nat) (built : Built pf s r) (low : first * PGSIZE < MAXVA)
    (inside : first < last) (owned : doFree = true → Freeable pf s r first last) :
    wp (unmapPage pf r (first * PGSIZE) doFree)
      (fun _ after => Dropped pf s r first last doFree after) stop s := by
  rw [unmapPage, wp_bind]
  refine wp_walk_look low ?_ ?_
  · intro missing
    rw [wp_pure]
    exact built.dropped low inside owned (by rw [leaf_of_none missing, hasFlag_zero])
  · intro t reached
    have loaded : load s.mem (t + 8 * PX 0 (first * PGSIZE)) 8 = leaf s.mem r (first * PGSIZE) := by
      rw [leaf_of_table reached, entry]
    simp only [wp_bind, wp_loadWord, loaded]
    cases valid : hasFlag (leaf s.mem r (first * PGSIZE)) PTE_V with
    | false =>
      simp only [↓reduceIte, wp_pure]
      exact built.dropped low inside owned valid
    | true =>
      have there : pageMap s.mem r first = some (PTE2PA (leaf s.mem r (first * PGSIZE)),
          PTE_FLAGS (leaf s.mem r (first * PGSIZE))) := by
        rw [pageMap_at low, translate, if_pos valid]
      cases doFree with
      | false =>
        simp only [Bool.true_eq_false, Bool.false_eq_true, ↓reduceIte, wp_storeWord]
        exact Built.dropped_store ⟨built, fun _ => rfl⟩ low inside owned (fun _ _ => rfl)
          (fun _ listed => .inl listed) reached
      | true =>
        obtain ⟨page, notFree, notTable⟩ :=
          (owned rfl).inUse first _ _ (Nat.le_refl _) inside there
        simp only [Bool.true_eq_false, ↓reduceIte, wp_bind]
        refine wp_kfree page ?_
        rw [wp_storeWord]
        obtain ⟨same, follows, taken⟩ := built.free page notFree notTable rfl
        refine Built.dropped_store same low inside owned follows (fun f listed => ?_)
          ((follows _ (by simp)).trans reached)
        refine (taken f listed).imp_right ?_
        rintro rfl
        exact ⟨_, there⟩

theorem Built.wp_uvmunmap {npages : Nat} (built : Built pf s r)
    (fits : va + npages * PGSIZE ≤ MAXVA)
    (owned : doFree = true → Freeable pf s r (va / PGSIZE) (va / PGSIZE + npages)) :
    wp (uvmunmap pf r va npages doFree)
      (fun _ after => Built pf after r ∧
        pageMap after.mem r = (pageMap s.mem r).unmap (va / PGSIZE) npages)
      (fun reason => reason = .uvmunmap ∧ va % PGSIZE ≠ 0) s := by
  rw [uvmunmap]
  by_cases start : va % PGSIZE = 0
  · have first : va / PGSIZE * PGSIZE = va := Nat.div_mul_cancel (Nat.dvd_of_mod_eq_zero start)
    have count : (add64 va (npages * PGSIZE) - va) / PGSIZE = npages := by
      simp only [add64, PGSIZE, MAXVA] at *
      omega
    simp only [start, ne_eq, not_true_eq_false, ↓reduceIte, count]
    refine wp_post (wp_forRange (fun k after => Built pf after r ∧
      pageMap after.mem r = (pageMap s.mem r).unmap (va / PGSIZE) k ∧
      (doFree = true → Freeable pf after r (va / PGSIZE + k) (va / PGSIZE + npages)))
      _ _ 0 npages s ?_ ⟨built, by rw [PageMap.unmap_none], owned⟩) ?_
    · rintro k before - inside ⟨built', sofar, owned'⟩
      rw [Nat.zero_add] at inside
      have page : va + k * PGSIZE = (va / PGSIZE + k) * PGSIZE := by rw [Nat.add_mul, first]
      have low : (va / PGSIZE + k) * PGSIZE < MAXVA := by
        rw [← page]
        simp only [PGSIZE] at *
        omega
      rw [page]
      refine wp_post (built'.wp_unmapPage (va / PGSIZE + k) (va / PGSIZE + npages) low
        (Nat.add_lt_add_left inside _) owned') ?_
      rintro - after dropped
      exact ⟨dropped.built, by rw [PageMap.unmap_succ, ← sofar, dropped.pages], dropped.owned⟩
    · rintro - after ⟨built', all, -⟩
      rw [Nat.zero_add] at all
      exact ⟨built', all⟩
  · simp [start]

theorem Built.wp_uvmclear (built : Built pf s r) (low : va < MAXVA) :
    wp (uvmclear pf r va)
      (fun _ after => Built pf after r ∧
        pageMap after.mem r = (pageMap s.mem r).clear (va / PGSIZE))
      (fun reason => reason = .uvmclear ∧ leafEntry s.mem r va = none) s := by
  rw [uvmclear, wp_bind]
  refine wp_walk_look low ?_ ?_
  · intro missing
    rw [wp_throw, leafEntry, missing]
    exact ⟨rfl, rfl⟩
  · intro t reached
    have loaded : load s.mem (t + 8 * PX 0 va) 8 = leaf s.mem r va := by
      rw [leaf_of_table reached, entry]
    simp only [wp_bind, wp_loadWord, wp_storeWord, loaded]
    have bounded : leaf s.mem r va < 2 ^ 64 := loaded ▸ load_lt s.mem _ 8
    have cleared := built.pageMap_store low reached
      (Nat.lt_of_le_of_lt (Nat.and_le_left (m := 2 ^ 64 - 1 - PTE_U)) bounded)
    refine ⟨built.keep_leaf reached, ?_⟩
    rw [cleared, translate_clear bounded, PageMap.clear, pageMap_of low]

/-- The law of `uvmcreate`: an empty page table, or zero. -/
theorem FreeList.wp_uvmcreate (list : FreeList pf s pages) :
    wp (uvmcreate pf)
      (fun r after => r ≠ 0 → Built pf after r ∧ pageMap after.mem r = fun _ => none) stop s := by
  rw [uvmcreate, wp_bind]
  refine wp_kalloc_list list.chain list.nodup list.inside ?_ ?_
  · simp only [↓reduceIte, wp_pure]
    exact fun nonzero => absurd rfl nonzero
  · rintro q rest mem freelist rfl page changed chain
    simp only [page.nonzero, ↓reduceIte, wp_bind, wp_memset, wp_pure]
    intro _
    obtain ⟨fresh, distinct⟩ := List.nodup_cons.mp list.nodup
    have bare : ∀ j, j < NPTE → entry (fill mem q PGSIZE 0) q j = 0 := fun j inside =>
      entry_fill_zero mem q inside
    refine ⟨⟨rest, ⟨chain.congr fun free member => ?_, distinct, fun free member =>
      list.inside free (List.mem_cons_of_mem q member)⟩, ?_, ?_⟩, ?_⟩
    · refine (changedIn_fill mem q 0).samePage page.1
        (list.inside free (List.mem_cons_of_mem q member)).1 ?_
      rintro rfl
      exact fresh member
    · intro path t _ reached
      obtain ⟨-, rfl⟩ := follow_bare bare reached
      exact ⟨page, fresh⟩
    · intro path path' t _ _ reached reached'
      rw [(follow_bare bare reached).1, (follow_bare bare reached').1]
    · funext n
      have nowhere : follow (child (fill mem q PGSIZE 0)) q
          [PX 2 (n * PGSIZE), PX 1 (n * PGSIZE)] = none := by
        cases passed : follow (child (fill mem q PGSIZE 0)) q
            [PX 2 (n * PGSIZE), PX 1 (n * PGSIZE)] with
        | none => rfl
        | some t => exact absurd (follow_bare bare passed).1 (by simp)
      rw [pageMap, leaf_of_none nowhere, translate_zero, ite_self]

end Xv6.Vm
