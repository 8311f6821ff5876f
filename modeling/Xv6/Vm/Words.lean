import Mathlib.Data.Nat.Bitwise
import Xv6.Library.Ownership
import Xv6.Library.Tree
import Xv6.Vm.Process

/-!
# Pages, entries and the free list in memory

Two memories may agree on a page or differ inside one page only.
-/

namespace Xv6.Vm

open Command Bytes Ownership Xv6.Tree

def IsPage (pf : Platform) (q : Nat) : Prop :=
  q % PGSIZE = 0 ∧ pf.kernelEnd ≤ q ∧ q < PHYSTOP

variable {pf : Platform} {mem mem' mem'' : ByteMap} {q t : Nat}

theorem IsPage.nonzero (page : IsPage pf q) : q ≠ 0 := by
  have base := pf.base
  have text := pf.text
  obtain ⟨-, low, -⟩ := page
  simp only [PGSIZE, KERNBASE] at *
  omega

theorem IsPage.small (page : IsPage pf q) : q < 2 ^ 32 := by
  obtain ⟨-, -, high⟩ := page
  simp only [PHYSTOP, KERNBASE] at high
  omega

theorem IsPage.wide (page : IsPage pf q) : q < 2 ^ 64 := Nat.lt_trans page.small (by decide)

theorem kfree_accepts (page : IsPage pf q) :
    ¬ (q % PGSIZE ≠ 0 ∨ q < pf.kernelEnd ∨ PHYSTOP ≤ q) := by
  obtain ⟨aligned, low, high⟩ := page
  omega

def SamePage (mem mem' : ByteMap) (q : Nat) : Prop := ∀ a, q ≤ a → a < q + PGSIZE → mem' a = mem a

def ChangedIn (mem mem' : ByteMap) (q : Nat) : Prop :=
  ∀ a, a < q ∨ q + PGSIZE ≤ a → mem' a = mem a

theorem SamePage.refl (mem : ByteMap) (q : Nat) : SamePage mem mem q := fun _ _ _ => rfl

theorem SamePage.trans (first : SamePage mem mem' q) (second : SamePage mem' mem'' q) :
    SamePage mem mem'' q :=
  fun a low high => (second a low high).trans (first a low high)

theorem ChangedIn.trans (first : ChangedIn mem mem' q) (second : ChangedIn mem' mem'' q) :
    ChangedIn mem mem'' q :=
  fun a outside => (second a outside).trans (first a outside)

theorem ChangedIn.samePage (changed : ChangedIn mem mem' q) (aligned : q % PGSIZE = 0)
    (other : t % PGSIZE = 0) (different : t ≠ q) : SamePage mem mem' t := by
  intro a low high
  apply changed
  simp only [PGSIZE] at *
  omega

def SameOutside (pf : Platform) (mem mem' : ByteMap) : Prop :=
  ∀ a, ¬ IsPage pf (PGROUNDDOWN a) → mem' a = mem a

theorem SameOutside.refl (pf : Platform) (mem : ByteMap) : SameOutside pf mem mem := fun _ _ => rfl

theorem SameOutside.trans (first : SameOutside pf mem mem') (second : SameOutside pf mem' mem'') :
    SameOutside pf mem mem'' :=
  fun a outside => (second a outside).trans (first a outside)

theorem ChangedIn.sameOutside (changed : ChangedIn mem mem' q) (page : IsPage pf q) :
    SameOutside pf mem mem' := by
  intro a outside
  apply changed
  by_contra inside
  have same : PGROUNDDOWN a = q := by
    have aligned := page.1
    simp only [PGROUNDDOWN, PGSIZE] at *
    omega
  rw [same] at outside
  exact outside page

theorem changedIn_fill (mem : ByteMap) (q : Nat) (c : UInt8) :
    ChangedIn mem (fill mem q PGSIZE c) q := by
  intro a outside
  have missed : ¬ (q ≤ a ∧ a < q + PGSIZE) := by omega
  simp only [fill, missed, ↓reduceIte]

theorem changedIn_store (mem : ByteMap) {offset width : Nat} (value : Nat)
    (inside : offset + width ≤ PGSIZE) : ChangedIn mem (store mem (q + offset) width value) q := by
  intro a outside
  have missed : ¬ (q + offset ≤ a ∧ a < q + offset + width) := by omega
  simp only [store, missed, ↓reduceIte]

theorem changedIn_copy (mem source : ByteMap) {offset start length : Nat}
    (inside : offset + length ≤ PGSIZE) :
    ChangedIn mem (copy mem (q + offset) source start length) q := by
  intro a outside
  exact copy_outside mem source (by omega)

def entry (mem : ByteMap) (t i : Nat) : Nat := load mem (t + 8 * i) 8

theorem entry_congr {i : Nat} (same : SamePage mem mem' t) (inside : i < NPTE) :
    entry mem' t i = entry mem t i := by
  apply load_congr
  intro a low high
  apply same
  · omega
  · simp only [NPTE, PGSIZE] at *
    omega

theorem changedIn_entry (mem : ByteMap) {i : Nat} (value : Nat) (inside : i < NPTE) :
    ChangedIn mem (store mem (t + 8 * i) 8 value) t :=
  changedIn_store mem value (by simp only [NPTE, PGSIZE] at *; omega)

theorem entry_store_same (mem : ByteMap) (t i value : Nat) :
    entry (store mem (t + 8 * i) 8 value) t i = value % 2 ^ 64 :=
  load_store_same ..

theorem entry_store_of_ne (mem : ByteMap) (t value : Nat) {i j : Nat} (different : j ≠ i) :
    entry (store mem (t + 8 * i) 8 value) t j = entry mem t j :=
  load_store_disjoint mem value (by omega)

theorem entry_fill_zero (mem : ByteMap) (t : Nat) {i : Nat} (inside : i < NPTE) :
    entry (fill mem t PGSIZE 0) t i = 0 := by
  apply load_zero
  intro a low high
  have within : t ≤ a ∧ a < t + PGSIZE := by
    simp only [NPTE, PGSIZE] at *
    omega
  simp only [fill, within, and_self, ↓reduceIte]

theorem hasFlag_low (pte flag : Nat) (small : flag < 2 ^ 10) :
    hasFlag pte flag = hasFlag (PTE_FLAGS pte) flag := by
  have whole : pte &&& flag < 2 ^ 10 := Nat.and_lt_two_pow _ small
  have same : pte &&& flag = PTE_FLAGS pte &&& flag := by
    rw [← Nat.mod_eq_of_lt whole, Nat.and_mod_two_pow, Nat.mod_eq_of_lt small, PTE_FLAGS]
  simp only [hasFlag, same]

@[simp] theorem hasFlag_zero (flag : Nat) : hasFlag 0 flag = false := by
  simp [hasFlag]

theorem hasFlag_or (a b flag : Nat) : hasFlag (a ||| b) flag = (hasFlag a flag || hasFlag b flag) := by
  rw [Bool.eq_iff_iff]
  simp only [hasFlag, Nat.and_or_distrib_right, bne_iff_ne, ne_eq, Nat.or_eq_zero_iff,
    Bool.or_eq_true, not_and_or]

theorem pte_or (pa flags : Nat) (small : flags < 2 ^ 10) :
    PA2PTE pa ||| flags = pa / PGSIZE * 2 ^ 10 + flags := by
  rw [PA2PTE, Nat.mul_comm, ← Nat.two_pow_add_eq_or_of_lt small]

theorem PTE2PA_page {pa flags : Nat} (bounded : pa < 2 ^ 64) (small : flags < 2 ^ 10) :
    PTE2PA (PA2PTE pa ||| flags) = PGROUNDDOWN pa := by
  rw [pte_or pa flags small, PTE2PA, PGROUNDDOWN]
  simp only [PGSIZE] at *
  omega

theorem PTE2PA_or {pa flags : Nat} (aligned : pa % PGSIZE = 0) (bounded : pa < 2 ^ 64)
    (small : flags < 2 ^ 10) : PTE2PA (PA2PTE pa ||| flags) = pa := by
  rw [PTE2PA_page bounded small, PGROUNDDOWN]
  exact Nat.div_mul_cancel (Nat.dvd_of_mod_eq_zero aligned)

theorem PTE_FLAGS_or (pa : Nat) {flags : Nat} (small : flags < 2 ^ 10) :
    PTE_FLAGS (PA2PTE pa ||| flags) = flags := by
  rw [pte_or pa flags small, PTE_FLAGS]
  omega

theorem hasFlag_pte (pa : Nat) {flags flag : Nat} (small : flags < 2 ^ 10) (low : flag < 2 ^ 10) :
    hasFlag (PA2PTE pa ||| flags) flag = hasFlag flags flag := by
  rw [hasFlag_low _ _ low, PTE_FLAGS_or pa small]

theorem pte_or_lt {pa flags : Nat} (bounded : pa < 2 ^ 64) (small : flags < 2 ^ 10) :
    PA2PTE pa ||| flags < 2 ^ 64 := by
  rw [pte_or pa flags small]
  simp only [PGSIZE] at *
  omega

theorem PTE2PA_clear {pte : Nat} (bounded : pte < 2 ^ 64) :
    PTE2PA (pte &&& (2 ^ 64 - 1 - PTE_U)) = PTE2PA pte := by
  have high : (2 ^ 64 - 1 - PTE_U) / 2 ^ 10 = 2 ^ 54 - 1 := by decide
  have small : pte / 2 ^ 10 < 2 ^ 54 := by omega
  rw [PTE2PA, PTE2PA, Nat.and_div_two_pow, high, Nat.and_two_pow_sub_one_eq_mod,
    Nat.mod_eq_of_lt small]

theorem hasFlag_clear (pte : Nat) {flag : Nat} (other : (2 ^ 64 - 1 - PTE_U) &&& flag = flag) :
    hasFlag (pte &&& (2 ^ 64 - 1 - PTE_U)) flag = hasFlag pte flag := by
  rw [hasFlag, hasFlag, Nat.and_assoc, other]

theorem PTE_FLAGS_clear (pte : Nat) :
    PTE_FLAGS (pte &&& (2 ^ 64 - 1 - PTE_U)) = PTE_FLAGS pte &&& (2 ^ 10 - 1 - PTE_U) := by
  have low : (2 ^ 64 - 1 - PTE_U) % 2 ^ 10 = 2 ^ 10 - 1 - PTE_U := by decide
  rw [PTE_FLAGS, PTE_FLAGS, Nat.and_mod_two_pow, low]

def FreeChain (mem : ByteMap) : Nat → List Nat → Prop
  | head, [] => head = 0
  | head, q :: rest => head = q ∧ q ≠ 0 ∧ FreeChain mem (load mem q 8) rest

theorem FreeChain.congr {head : Nat} {pages : List Nat} (chain : FreeChain mem head pages)
    (same : ∀ q, q ∈ pages → SamePage mem mem' q) : FreeChain mem' head pages := by
  induction pages generalizing head with
  | nil => exact chain
  | cons q rest ih =>
    obtain ⟨first, nonzero, links⟩ := chain
    have link : load mem' q 8 = load mem q 8 := by
      apply load_congr
      intro a low high
      exact same q (by simp) a low (by simp only [PGSIZE]; omega)
    refine ⟨first, nonzero, ?_⟩
    rw [link]
    exact ih links fun other member => same other (List.mem_cons_of_mem q member)

def freed (mem : ByteMap) (freelist q : Nat) : ByteMap := store (fill mem q PGSIZE 1) q 8 freelist

theorem changedIn_freed (mem : ByteMap) (freelist q : Nat) :
    ChangedIn mem (freed mem freelist q) q := by
  have inside : 0 + 8 ≤ PGSIZE := by decide
  exact (changedIn_fill mem q 1).trans (changedIn_store _ freelist inside)

theorem FreeChain.push {head : Nat} {pages : List Nat} (chain : FreeChain mem head pages)
    (inside : ∀ p, p ∈ pages → IsPage pf p) (page : IsPage pf q) (fresh : q ∉ pages) :
    FreeChain (freed mem head q) q (q :: pages) := by
  have small : head < 2 ^ 64 := by
    cases pages with
    | nil =>
      rw [chain]
      decide
    | cons p rest =>
      have bounded := (inside p (by simp)).small
      obtain ⟨first, -, -⟩ := chain
      omega
  have link : load (freed mem head q) q 8 = head := by
    rw [freed, load_store_same]
    exact Nat.mod_eq_of_lt small
  refine ⟨rfl, page.nonzero, ?_⟩
  rw [link]
  refine chain.congr fun p member => (changedIn_freed mem head q).samePage page.1 (inside p member).1 ?_
  rintro rfl
  exact fresh member

end Xv6.Vm
