import Xv6.Library.Transition
import Xv6.Vm.AddressBound
import Xv6.Vm.PageMap

/-!
# The life of a page table

A page table that `uvmcreate` made stays in order through any number of calls of `mappages`,
`uvmunmap` and `uvmclear`, with other work of the kernel in between, and each call updates the
partial map that the table stands for.
-/

namespace Xv6.Vm

open Command Bytes Ownership Transition Xv6.Tree

variable {pf : Platform} {s after : Kernel} {r : Nat}

/-- The calls that change a page table. -/
inductive TableCall where
  | mappages (va size pa perm : Nat)
  | uvmunmap (va npages : Nat) (doFree : Bool)
  | uvmclear (va : Nat)
  deriving DecidableEq, Repr

namespace TableCall

def run (pf : Platform) (r : Nat) : TableCall → VmM Int
  | mappages va size pa perm => Vm.mappages pf r va size pa perm
  | uvmunmap va npages doFree => do
    Vm.uvmunmap pf r va npages doFree
    pure 0
  | uvmclear va => do
    Vm.uvmclear pf r va
    pure 0

def Below : TableCall → Prop
  | mappages va size pa perm => va + size ≤ MAXVA ∧ pa < 2 ^ 64 ∧ perm < 2 ^ 10
  | uvmunmap va npages _ => va + npages * PGSIZE ≤ MAXVA
  | uvmclear va => va < MAXVA

instance : DecidablePred Below
  | mappages _ _ _ _ => inferInstanceAs (Decidable (_ ∧ _))
  | uvmunmap _ _ _ => inferInstanceAs (Decidable (_ ≤ _))
  | uvmclear _ => inferInstanceAs (Decidable (_ < _))

def Owns (pf : Platform) (s : Kernel) (r : Nat) : TableCall → Prop
  | uvmunmap va npages true => Freeable pf s r (va / PGSIZE) (va / PGSIZE + npages)
  | _ => True

def Updates (m : PageMap) (result : Int) (m' : PageMap) : TableCall → Prop
  | mappages va size pa perm =>
    (result = 0 ∨ result = -1) ∧
    (result = 0 → m' = m.map (va / PGSIZE) (size / PGSIZE) pa (perm ||| PTE_V)) ∧
    (result = -1 → ∃ k, k < size / PGSIZE ∧ m' = m.map (va / PGSIZE) k pa (perm ||| PTE_V)) ∧
    (result = -1 → size = PGSIZE → m' = m)
  | uvmunmap va npages _ => m' = m.unmap (va / PGSIZE) npages
  | uvmclear va => m' = m.clear (va / PGSIZE)

def Stops (s : Kernel) (r : Nat) (reason : Panic) : TableCall → Prop
  | mappages va size _ _ =>
    reason = .mappagesVa ∧ va % PGSIZE ≠ 0 ∨ reason = .mappagesSize ∧ size % PGSIZE ≠ 0 ∨
      reason = .mappagesZero ∧ size = 0 ∨
      reason = .mappagesRemap ∧ ∃ n, va / PGSIZE ≤ n ∧ n < va / PGSIZE + size / PGSIZE ∧
        Present s r n
  | uvmunmap va _ _ => reason = .uvmunmap ∧ va % PGSIZE ≠ 0
  | uvmclear va => reason = .uvmclear ∧ leafEntry s.mem r va = none

end TableCall

theorem Built.wp_call (built : Built pf s r) (call : TableCall) (below : call.Below)
    (owns : call.Owns pf s r) :
    wp (call.run pf r)
      (fun result after => Built pf after r ∧
        call.Updates (pageMap s.mem r) result (pageMap after.mem r))
      (fun reason => call.Stops s r reason) s := by
  cases call with
  | mappages va size pa perm =>
    refine wp_post (built.wp_mappages below.1 below.2.1 below.2.2) ?_
    rintro result after ⟨built', ⟨rfl, all⟩ | ⟨rfl, k, fewer, part⟩⟩
    · exact ⟨built', .inl rfl, fun _ => all, by simp, by simp⟩
    · refine ⟨built', .inr rfl, by simp, fun _ => ⟨k, fewer, part⟩, ?_⟩
      rintro - rfl
      obtain rfl : k = 0 := Nat.lt_one_iff.mp fewer
      rw [part, PageMap.map_none]
  | uvmunmap va npages doFree =>
    have owned : doFree = true → Freeable pf s r (va / PGSIZE) (va / PGSIZE + npages) := by
      rintro rfl
      exact owns
    rw [TableCall.run, wp_bind]
    refine wp_post (built.wp_uvmunmap below owned) ?_
    rintro - after done
    rw [wp_pure]
    exact done
  | uvmclear va =>
    rw [TableCall.run, wp_bind]
    refine wp_post (built.wp_uvmclear below) ?_
    rintro - after done
    rw [wp_pure]
    exact done

structure LeavesAlone (pf : Platform) (s : Kernel) (r : Nat) (after : Kernel) : Prop where
  tables : ∀ t, IsTable s r t → SamePage s.mem after.mem t
  list : ∃ pages, FreeList pf after pages ∧ ∀ t, IsTable s r t → t ∉ pages

theorem Built.leftAlone (built : Built pf s r) (alone : LeavesAlone pf s r after) :
    Built pf after r := by
  obtain ⟨pages, list, tables⟩ := built
  obtain ⟨pages', list', out⟩ := alone.list
  have same : SameTables s.mem after.mem fun _ => some r := by
    intro _ root path t isRoot short reached
    obtain rfl := Option.some.inj isRoot
    exact alone.tables t ⟨path, short, reached⟩
  exact ⟨pages', list', tables.congr (fun short => same.follow_eq (o := .building) rfl (by omega))
    fun path t short reached _ => out t ⟨path, short, reached⟩⟩

inductive TableStep (pf : Platform) (r : Nat) : Kernel → Kernel → Prop
  | call {s after : Kernel} {result : Int} (call : TableCall) (below : call.Below)
      (owns : call.Owns pf s r) (returned : (call.run pf r).run s = .ok (result, after)) :
      TableStep pf r s after
  | other {s after : Kernel} (alone : LeavesAlone pf s r after) : TableStep pf r s after

theorem Built.step (built : Built pf s r) (step : TableStep pf r s after) : Built pf after r := by
  cases step with
  | call call below owns returned => exact (wp_returned (built.wp_call call below owns) returned).1
  | other alone => exact built.leftAlone alone

structure IsPageMap (pf : Platform) (r : Nat) (s : Kernel) : Prop where
  calls : ∀ call : TableCall, call.Below → call.Owns pf s r →
    wp (call.run pf r) (fun result after =>
      call.Updates (pageMap s.mem r) result (pageMap after.mem r))
      (fun reason => call.Stops s r reason) s
  entries : ∀ va va' entry entry', va < MAXVA → va' < MAXVA → va / PGSIZE ≠ va' / PGSIZE →
    leafEntry s.mem r va = some entry → leafEntry s.mem r va' = some entry' → entry ≠ entry'

theorem Built.isPageMap (built : Built pf s r) : IsPageMap pf r s :=
  ⟨fun call below owns => wp_post (built.wp_call call below owns) fun _ _ done => done.2,
    fun _ _ _ _ low low' pages here there => built.leafEntry_ne low low' pages here there⟩

/-- A page table that `uvmcreate` made is an empty partial map and behaves as a
partial map ever after. -/
theorem page_table_is_partial_map (pf : Platform) (s made : Kernel) (pages : List Nat) (r : Nat)
    (list : FreeList pf s pages) (created : (uvmcreate pf).run s = .ok (r, made)) (got : r ≠ 0) :
    (pageMap made.mem r = fun _ => none) ∧
      ∀ after, Reaches (TableStep pf r) made after → IsPageMap pf r after := by
  have law : wp (uvmcreate pf) (fun r after =>
      r ≠ 0 → Built pf after r ∧ pageMap after.mem r = fun _ => none) (fun _ => True) s :=
    list.wp_uvmcreate
  obtain ⟨built, empty⟩ := wp_returned law created got
  refine ⟨empty, fun after run => ?_⟩
  exact Built.isPageMap (run.keeps (fun s => Built pf s r) (fun _ _ built step => built.step step)
    built)

theorem freeList_booted {booted : Kernel} {mem : ByteMap}
    (ran : (kinit pf).run (beforeBoot mem) = .ok (⟨⟩, booted)) :
    ∃ pages, FreeList pf booted pages := by
  have law : wp (kinit pf) (fun _ after => Sound pf noHoldings after) (fun _ => False)
    (beforeBoot mem) := wp_kinit mem
  obtain ⟨pages, books⟩ := (wp_returned law ran).sane.accounted
  exact ⟨pages, books.chain, books.nodup, books.inside⟩

/-- On a machine with eight pages, a page table maps one page. -/
theorem page_table_is_partial_map_one :
    ∃ booted made after : Kernel,
      (kinit eightPages).run (beforeBoot fun _ => 0) = .ok (⟨⟩, booted) ∧
      (uvmcreate eightPages).run booted = .ok (PHYSTOP - PGSIZE, made) ∧
      Reaches (TableStep eightPages (PHYSTOP - PGSIZE)) made after ∧
      pageMap after.mem (PHYSTOP - PGSIZE) = PageMap.map (fun _ => none) 1 1 KERNBASE 3 ∧
      IsPageMap eightPages (PHYSTOP - PGSIZE) after := by
  obtain ⟨booted, started, makes⟩ : ∃ booted,
      (kinit eightPages).run (beforeBoot fun _ => 0) = .ok (⟨⟩, booted) ∧
      wp (uvmcreate eightPages) (fun r made => r = PHYSTOP - PGSIZE ∧
        wp ((TableCall.mappages PGSIZE PGSIZE KERNBASE PTE_R).run eightPages (PHYSTOP - PGSIZE))
          (fun result _ => result = 0 ∧ True) (fun _ => False) made) (fun _ => False) booted :=
    wp_result (by decide +kernel)
  obtain ⟨made, created, maps⟩ := wp_result makes
  obtain ⟨after, mapped, -⟩ := wp_result maps
  obtain ⟨pages, list⟩ := freeList_booted started
  obtain ⟨empty, always⟩ := page_table_is_partial_map eightPages booted made pages
    (PHYSTOP - PGSIZE) list created (by decide)
  have step : TableStep eightPages (PHYSTOP - PGSIZE) made after :=
    .call (.mappages PGSIZE PGSIZE KERNBASE PTE_R) (by decide) trivial mapped
  have update := wp_returned ((always made .refl).calls
    (.mappages PGSIZE PGSIZE KERNBASE PTE_R) (by decide) trivial) mapped
  refine ⟨booted, made, after, started, created, .single step, ?_, always after (.single step)⟩
  rw [update.2.1 rfl, empty]
  rfl

def Disturbs (r own n : Nat) (s : Kernel) : Prop :=
  wp ((TableCall.mappages 0 PGSIZE own PTE_R).run eightPages r)
    (fun result before => result = 0 ∧
      wp (uvmunmap eightPages r 0 1 true)
        (fun value after => value = ⟨⟩ ∧ pageMap before.mem r n = some (KERNBASE, 3) ∧
          pageMap after.mem r n ≠ pageMap before.mem r n) (fun _ => False) before)
    (fun _ => False) s

instance (r own n : Nat) (s : Kernel) : Decidable (Disturbs r own n s) :=
  inferInstanceAs (Decidable (wp _ _ _ _))

/-- If a page table maps one of its own page-table pages, unmapping that page and freeing it changes
the mapping of another page. -/
theorem freed_table_changes_mapping :
    ∃ booted made before after : Kernel,
      (kinit eightPages).run (beforeBoot fun _ => 0) = .ok (⟨⟩, booted) ∧
      (uvmcreate eightPages).run booted = .ok (PHYSTOP - PGSIZE, made) ∧
      Reaches (TableStep eightPages (PHYSTOP - PGSIZE)) made before ∧
      (uvmunmap eightPages (PHYSTOP - PGSIZE) 0 1 true).run before = .ok (⟨⟩, after) ∧
      pageMap before.mem (PHYSTOP - PGSIZE) 1 = some (KERNBASE, 3) ∧
      pageMap after.mem (PHYSTOP - PGSIZE) 1 ≠ pageMap before.mem (PHYSTOP - PGSIZE) 1 := by
  obtain ⟨booted, started, makes⟩ : ∃ booted,
      (kinit eightPages).run (beforeBoot fun _ => 0) = .ok (⟨⟩, booted) ∧
      wp (uvmcreate eightPages) (fun r made => r = PHYSTOP - PGSIZE ∧
        wp ((TableCall.mappages PGSIZE PGSIZE KERNBASE PTE_R).run eightPages (PHYSTOP - PGSIZE))
          (fun result one => result = 0 ∧
            Disturbs (PHYSTOP - PGSIZE) (PHYSTOP - 3 * PGSIZE) 1 one)
          (fun _ => False) made) (fun _ => False) booted :=
    wp_result (by decide +kernel)
  obtain ⟨made, created, maps⟩ := wp_result makes
  obtain ⟨one, mapped, mapsTable⟩ := wp_result maps
  obtain ⟨before, mappedTable, unmaps⟩ := wp_result mapsTable
  obtain ⟨after, unmapped, there, changed⟩ := wp_result unmaps
  have first : TableStep eightPages (PHYSTOP - PGSIZE) made one :=
    .call (.mappages PGSIZE PGSIZE KERNBASE PTE_R) (by decide) trivial mapped
  have second : TableStep eightPages (PHYSTOP - PGSIZE) one before :=
    .call (.mappages 0 PGSIZE (PHYSTOP - 3 * PGSIZE) PTE_R) (by decide) trivial mappedTable
  exact ⟨booted, made, before, after, started, created, .tail (.single first) second, unmapped,
    there, changed⟩

end Xv6.Vm
