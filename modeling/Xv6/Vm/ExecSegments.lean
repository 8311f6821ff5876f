import Xv6.Vm.ExecImage

/-!
# Loading the segments of a program

`exec` reads the program headers one after the other.
-/

namespace Xv6.Vm

open Command Bytes Ownership Xv6.Tree

variable {pf : Platform} {s s₀ after : Kernel} {spaces : Owner → Option AddressSpace}
  {kept : Keeper → Option Nat} {v v' : View} {content src : ByteMap} {file : Program}
  {ph : Proghdr} {n r va frame sz newsz : Nat} {stop : Panic → Prop}

section Contents

def Program.phoff (file : Program) : Nat := load file.bytes 32 8

def Program.phnum (file : Program) : Nat := load file.bytes 56 2

def Program.headers (file : Program) : Nat → Nat → List Proghdr
  | 0, _ => []
  | remaining + 1, off => file.proghdr off :: file.headers remaining (off + 56)

def Program.segments (file : Program) (remaining off : Nat) : List Proghdr :=
  (file.headers remaining off).filter fun ph => ph.type = ELF_PROG_LOAD

def Program.place (file : Program) (content : ByteMap) (ph : Proghdr) : ByteMap :=
  copy content ph.vaddr file.bytes (ph.off % 2 ^ 32) ph.filesz

structure Holds (v : View) (sz : Nat) (content : ByteMap) : Prop where
  user : ∀ va, va < PGROUNDUP sz → v.Allows PTE_U va
  bytes : ∀ va, va < PGROUNDUP sz → v.byte va = some (content va)
  blank : ∀ va, PGROUNDUP sz ≤ va → content va = 0

structure Segment (file : Program) (sz : Nat) (ph : Proghdr) : Prop where
  aligned : ph.vaddr % PGSIZE = 0
  short : ph.filesz ≤ ph.memsz
  inImage : ph.vaddr + ph.memsz ≤ sz
  inFile : ph.filesz ≠ 0 → ph.off % 2 ^ 32 + ph.filesz ≤ file.size

theorem Segment.mono (segment : Segment file sz ph) (larger : sz ≤ newsz) :
    Segment file newsz ph :=
  ⟨segment.aligned, segment.short, segment.inImage.trans larger, segment.inFile⟩

/-- A new image holds nothing. -/
theorem holds_nothing (v : View) : Holds v 0 fun _ => 0 := by
  have zero : PGROUNDUP 0 = 0 := by decide
  refine ⟨fun va below => ?_, fun va below => ?_, fun _ _ => rfl⟩ <;>
  · rw [zero] at below
    omega

theorem Holds.grow (holds : Holds v sz content) (larger : sz ≤ newsz) (bounded : newsz ≤ TRAPFRAME)
    {f : Nat} (user : hasFlag f PTE_U = true) :
    Holds (v.grow (PGROUNDUP sz) (PGROUNDUP newsz) f) newsz content := by
  have lowAligned := (PGROUNDUP_spec (larger.trans bounded)).1
  have highAligned := (PGROUNDUP_spec bounded).1
  refine ⟨fun va below => ?_, fun va below => ?_, fun va beyond => ?_⟩
  · rw [View.Allows, View.flags_grow lowAligned highAligned]
    by_cases old : va < PGROUNDUP sz
    · rw [if_neg (fun new => absurd new.1 (Nat.not_le_of_lt old))]
      exact holds.user va old
    · rw [if_pos ⟨Nat.le_of_not_lt old, below⟩]
      exact ⟨f, rfl, user⟩
  · rw [View.byte_grow lowAligned highAligned]
    by_cases old : va < PGROUNDUP sz
    · rw [if_neg (fun new => absurd new.1 (Nat.not_le_of_lt old))]
      exact holds.bytes va old
    · rw [if_pos ⟨Nat.le_of_not_lt old, below⟩, holds.blank va (Nat.le_of_not_lt old)]
  · exact holds.blank va ((PGROUNDUP_mono larger bounded).trans beyond)

theorem Holds.replaced {start offset : Nat} (holds : Holds v sz content)
    (replaced : Replaced v start (fun i => src (offset + i)) n v')
    (inside : start + n ≤ PGROUNDUP sz) : Holds v' sz (copy content start src offset n) := by
  refine ⟨fun va below => (holds.user va below).replaced replaced, fun va below => ?_,
    fun va beyond => ?_⟩
  · rw [replaced.bytes]
    by_cases within : start ≤ va ∧ va < start + n
    · rw [if_pos within, copy_inside _ _ within.1 within.2]
    · rw [if_neg within, copy_outside _ _ (by omega)]
      exact holds.bytes va below
  · rw [copy_outside _ _ (by omega)]
    exact holds.blank va beyond

end Contents

section Laws

theorem Program.count_eq {off n : Nat} (positive : n ≠ 0) (all : file.count off n = n) :
    off + n < 2 ^ 32 ∧ off + n ≤ file.size := by
  rw [Program.count] at all
  split at all <;> omega

theorem Image.wp_loadseg (image : Image pf s₀ spaces kept r frame sz v s) (file : Program)
    {vaddr offset filesz : Nat} (aligned : vaddr % PGSIZE = 0)
    (bounded : vaddr + filesz ≤ TRAPFRAME) (word : offset < 2 ^ 32)
    (user : ∀ va, vaddr ≤ va → va < vaddr + filesz → v.Allows PTE_U va) :
    wp (loadseg pf r vaddr file offset filesz) (fun result after =>
      Begun pf s₀ spaces kept r frame sz after ∧
      (0 ≤ result → ∃ v', Image pf s₀ spaces kept r frame sz v' after ∧
        Replaced v vaddr (fun i => file.bytes (offset + i)) filesz v' ∧
        (filesz ≠ 0 → offset + filesz ≤ file.size))) stop s := by
  rw [loadseg, wp_bind]
  refine wp_post (wp_searchRange
    (fun k current => ∃ v', Image pf s₀ spaces kept r frame sz v' current ∧
      Replaced v vaddr (fun i => file.bytes (offset + i)) (min (k * PGSIZE) filesz) v' ∧
      (min (k * PGSIZE) filesz ≠ 0 → offset + min (k * PGSIZE) filesz < 2 ^ 32 ∧
        offset + min (k * PGSIZE) filesz ≤ file.size))
    (fun _ current => Begun pf s₀ spaces kept r frame sz current) stop _ 0 _ s ?_ ?_) ?_
  · rintro k current - upper ⟨v', image', replaced, read⟩
    have start : k * PGSIZE < filesz := by
      simp only [PGSIZE] at *
      omega
    have address : add64 vaddr (k * PGSIZE) = vaddr + k * PGSIZE := by
      simp only [add64, PGSIZE, TRAPFRAME, TRAMPOLINE, MAXVA] at *
      omega
    rw [Nat.min_eq_left (Nat.le_of_lt start)] at replaced read
    have wide : offset + k * PGSIZE < 2 ^ 32 := by
      by_cases first : k * PGSIZE = 0
      · omega
      · exact (read first).1
    have onPage : (vaddr + k * PGSIZE) % PGSIZE = 0 := page_aligned aligned k
    have next : min ((k + 1) * PGSIZE) filesz = k * PGSIZE + min (filesz - k * PGSIZE) PGSIZE := by
      simp only [PGSIZE] at *
      omega
    rw [wp_bind, address, next, Nat.mod_eq_of_lt wide]
    refine image'.wp_walkaddr ((user _ (by omega) (by omega)).replaced replaced) ?_
    intro q page nonzero shown at_
    have positive : min (filesz - k * PGSIZE) PGSIZE ≠ 0 := by
      simp only [PGSIZE] at *
      omega
    have fits : min (filesz - k * PGSIZE) PGSIZE ≤ PGSIZE := Nat.min_le_right ..
    generalize min (filesz - k * PGSIZE) PGSIZE = n at positive fits
    have counted : 0 + file.count (offset + k * PGSIZE) n ≤ PGSIZE := by
      rw [Program.count, Nat.zero_add]
      split <;> omega
    have written := image'.write at_ file.bytes (offset + k * PGSIZE) counted
    simp only [nonzero, ↓reduceIte, wp_bind, wp_setMem]
    split
    · rw [wp_pure]
      exact ⟨fun _ _ => written.toBegun, fun none => by simp at none⟩
    · rename_i all
      have all : file.count (offset + k * PGSIZE) n = n := by simpa using all
      rw [wp_pure]
      refine ⟨fun _ none => by simp at none, fun _ => ⟨_, written, ?_, ?_⟩⟩
      · have whole : (vaddr + k * PGSIZE) % PGSIZE + n ≤ PGSIZE := by omega
        have placed := replaced.write shown whole
        have bytes : copy page.bytes 0 file.bytes (offset + k * PGSIZE) n =
            copy page.bytes 0 (fun i => file.bytes (offset + i)) (k * PGSIZE) n :=
          copy_congr fun i _ => by rw [Nat.add_assoc]
        rw [onPage] at placed
        rw [all, bytes]
        exact placed
      · obtain ⟨narrow, inFile⟩ := Program.count_eq positive all
        rw [Nat.add_assoc] at narrow inFile
        exact fun _ => ⟨narrow, inFile⟩
  · rw [Nat.zero_mul, Nat.zero_min]
    exact ⟨v, image, Replaced.refl .., fun impossible => absurd rfl impossible⟩
  · intro outcome after done
    rw [wp_pure]
    cases outcome with
    | some result => exact ⟨done.1 result rfl, fun good => by simp at good⟩
    | none =>
      obtain ⟨v', image', replaced, read⟩ := done.2 rfl
      have everything : min ((0 + (filesz + PGSIZE - 1) / PGSIZE) * PGSIZE) filesz = filesz := by
        simp only [PGSIZE]
        omega
      rw [everything] at replaced read
      exact ⟨image'.toBegun, fun _ => ⟨v', image', replaced, fun some => (read some).2⟩⟩

theorem flags2perm_leaf (flags : Nat) :
    LeafFlags (PTE_R ||| PTE_U ||| flags2perm flags ||| PTE_V) := by
  rw [flags2perm]
  split <;> split <;> constructor <;> decide

theorem grown_user (xperm : Nat) : hasFlag (PTE_R ||| PTE_U ||| xperm ||| PTE_V) PTE_U = true := by
  have user : hasFlag PTE_U PTE_U = true := rfl
  simp [hasFlag_or, user]

structure Loaded (pf : Platform) (s₀ : Kernel) (spaces : Owner → Option AddressSpace)
    (kept : Keeper → Option Nat) (r frame sz : Nat) (file : Program) (content : ByteMap)
    (segments : List Proghdr) (outcome : Nat × Bool) (s : Kernel) : Prop where
  begun : Begun pf s₀ spaces kept r frame outcome.1 s
  image : outcome.2 = true → ∃ v, Image pf s₀ spaces kept r frame outcome.1 v s ∧
    Holds v outcome.1 (segments.foldl file.place content)
  larger : outcome.2 = true → sz ≤ outcome.1
  each : outcome.2 = true → ∀ ph, ph ∈ segments → Segment file outcome.1 ph

theorem Begun.notLoaded (begun : Begun pf s₀ spaces kept r frame newsz s)
    (segments : List Proghdr) :
    Loaded pf s₀ spaces kept r frame sz file content segments (newsz, false) s :=
  ⟨begun, fun good => by simp at good, fun good => by simp at good, fun good => by simp at good⟩

theorem Image.wp_loadHeader (image : Image pf s₀ spaces kept r frame sz v s)
    (holds : Holds v sz content) (file : Program) {off : Nat} (node : kept .node = none)
    (hand : kept .hand = none) :
    wp (loadHeader pf r file off sz) (fun outcome after =>
      Loaded pf s₀ spaces kept r frame sz file content (file.segments 1 off) outcome after ∧
      (outcome.2 = true → off + 56 < 2 ^ 32 ∧ off + 56 ≤ file.size)) stop s := by
  have words : (file.proghdr off).vaddr < 2 ^ 64 ∧ (file.proghdr off).memsz < 2 ^ 64 :=
    ⟨load_lt .., load_lt ..⟩
  have single : file.segments 1 off =
      if (file.proghdr off).type = ELF_PROG_LOAD then [file.proghdr off] else [] := by
    simp [Program.segments, Program.headers, List.filter_cons]
  rw [single]
  generalize isHeader : file.proghdr off = ph at words
  simp only [loadHeader, isHeader]
  have fails : ∀ segments, wp (pure (sz, false)) (fun outcome after =>
      Loaded pf s₀ spaces kept r frame sz file content segments outcome after ∧
      (outcome.2 = true → off + 56 < 2 ^ 32 ∧ off + 56 ≤ file.size)) stop s := by
    intro segments
    rw [wp_pure]
    exact ⟨image.toBegun.notLoaded segments, fun good => by simp at good⟩
  split
  · exact fails _
  rename_i complete
  have narrow : off + 56 < 2 ^ 32 ∧ off + 56 ≤ file.size :=
    Program.count_eq (by decide) (by simpa using complete)
  split
  · rename_i skipped
    rw [wp_pure]
    exact ⟨⟨image.toBegun, fun _ => ⟨v, image, holds⟩, fun _ => Nat.le_refl sz,
      fun _ ph member => by simp at member⟩, fun _ => narrow⟩
  rename_i loadable
  have isLoad : ph.type = ELF_PROG_LOAD := by simpa using loadable
  rw [if_pos isLoad]
  split
  · exact fails _
  split
  · exact fails _
  split
  · exact fails _
  rename_i fileFits noWrap misaligned
  have sizes : ph.filesz ≤ ph.memsz := Nat.le_of_not_lt fileFits
  have aligned : ph.vaddr % PGSIZE = 0 := by simpa using misaligned
  have sum : add64 ph.vaddr ph.memsz = ph.vaddr + ph.memsz := by
    rw [add64] at noWrap ⊢
    omega
  rw [sum, wp_bind]
  -- Whatever size `uvmalloc` reports, it covers the segment.
  have load : ∀ {sz' current v'}, Image pf s₀ spaces kept r frame sz' v' current →
      Holds v' sz' content → sz ≤ sz' → ph.vaddr + ph.memsz ≤ sz' →
      wp (do
        let loaded ← loadseg pf r ph.vaddr file (ph.off % 2 ^ 32) (ph.filesz % 2 ^ 32)
        pure (sz', decide (0 ≤ loaded))) (fun outcome after =>
          Loaded pf s₀ spaces kept r frame sz file content [ph] outcome after ∧
          (outcome.2 = true → off + 56 < 2 ^ 32 ∧ off + 56 ≤ file.size)) stop current := by
    intro sz' current v' image' holds' larger covers
    have bounded : sz' ≤ TRAPFRAME :=
      (image'.sane.space _ _ (building_owner spaces ⟨r, sz', frame⟩)).bounded
    have rounded := (PGROUNDUP_spec bounded).2.1
    have small : PGROUNDUP sz' ≤ 2 ^ 27 :=
      (image'.building fun va (_ : 0 ≤ va) => holds'.user va).small
    have width : ph.filesz % 2 ^ 32 = ph.filesz := Nat.mod_eq_of_lt (by omega)
    rw [wp_bind, width]
    refine wp_post (image'.wp_loadseg file aligned (by omega) (Nat.mod_lt _ (by decide))
      fun va _ upper => holds'.user va (by omega)) ?_
    rintro loaded last ⟨begun, placed⟩
    rw [wp_pure]
    refine ⟨⟨begun, fun good => ?_, fun _ => larger, fun good ph' member => ?_⟩, fun _ => narrow⟩
    · obtain ⟨v'', image'', replaced, -⟩ := placed (by simpa using good)
      exact ⟨v'', image'', holds'.replaced replaced (by omega)⟩
    · obtain ⟨-, -, -, inFile⟩ := placed (by simpa using good)
      obtain rfl : ph' = ph := by simpa using member
      exact ⟨aligned, sizes, covers, inFile⟩
  refine image.wp_uvmalloc holds.user node hand (flags2perm_leaf ph.flags) ?_ ?_ ?_
  · intro smaller
    rw [if_neg (by omega)]
    exact load image holds (Nat.le_refl sz) (Nat.le_of_lt smaller)
  · intro after begun
    rw [if_pos rfl, wp_pure]
    exact ⟨begun.notLoaded _, fun good => by simp at good⟩
  · intro after larger bounded image'
    by_cases zero : ph.vaddr + ph.memsz = 0
    · rw [if_pos zero, wp_pure]
      obtain rfl : sz = 0 := by omega
      rw [zero] at image'
      exact ⟨image'.toBegun.notLoaded _, fun good => by simp at good⟩
    · rw [if_neg zero]
      exact load image' (holds.grow larger bounded (grown_user _)) larger (Nat.le_refl _)

theorem Image.wp_loadHeaders (file : Program) (node : kept .node = none)
    (hand : kept .hand = none) (remaining off : Nat)
    (image : Image pf s₀ spaces kept r frame sz v s) (holds : Holds v sz content) :
    wp (loadHeaders pf r file remaining off sz) (fun outcome after =>
      Loaded pf s₀ spaces kept r frame sz file content (file.segments remaining off) outcome after ∧
      (outcome.2 = true → remaining ≠ 0 → off + remaining * 56 ≤ file.size)) stop s := by
  induction remaining generalizing off sz v content s with
  | zero =>
    rw [loadHeaders, wp_pure]
    exact ⟨⟨image.toBegun, fun _ => ⟨v, image, holds⟩, fun _ => Nat.le_refl sz,
      fun _ ph member => by simp [Program.segments, Program.headers] at member⟩,
      fun _ none => absurd rfl none⟩
  | succ remaining ih =>
    have split : file.segments (remaining + 1) off =
        file.segments 1 off ++ file.segments remaining (off + 56) :=
      List.filter_append [file.proghdr off] (file.headers remaining (off + 56))
    rw [loadHeaders, wp_bind, split]
    refine wp_post (image.wp_loadHeader holds file node hand) ?_
    rintro ⟨sz', good⟩ after ⟨loaded, narrow⟩
    cases good with
    | false =>
      simp only [Bool.false_eq_true, ↓reduceIte, wp_pure]
      exact ⟨loaded.begun.notLoaded _, fun good => by simp at good⟩
    | true =>
      obtain ⟨v', image', holds'⟩ := loaded.image rfl
      simp only [↓reduceIte]
      obtain ⟨word, inFile⟩ := narrow rfl
      rw [Nat.mod_eq_of_lt word]
      refine wp_post (ih _ image' holds') ?_
      rintro outcome last ⟨rest, headers⟩
      refine ⟨⟨rest.begun, fun done => ?_, fun done => (loaded.larger rfl).trans (rest.larger done),
        fun done ph member => ?_⟩, fun done _ => ?_⟩
      · rw [List.foldl_append]
        exact rest.image done
      · rcases List.mem_append.mp member with first | later
        · exact (loaded.each rfl ph first).mono (rest.larger done)
        · exact rest.each done ph later
      · by_cases more : remaining = 0
        · rw [more]
          omega
        · have := headers done more
          omega

end Laws

end Xv6.Vm
