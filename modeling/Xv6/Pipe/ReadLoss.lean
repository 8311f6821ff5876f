import Xv6.Pipe.Fifo

/-!
# Reads from a pipe into bad memory

`piperead` copies one byte at a time to the user's memory, and each copy may fail.
-/

namespace Xv6.Pipes

open RingBuffer Function

def Pipe.unread (pi : Pipe) : Nat := (pi.ring.nwrite + (WRAP - pi.ring.nread)) % WRAP

def Pipe.skip (pi : Pipe) (count : Nat) : Pipe :=
  { pi with ring := { pi.ring with nread := (pi.ring.nread + count) % WRAP } }

def Pipe.byteAt (pi : Pipe) (index : Nat) : UInt8 :=
  pi.ring.data ((pi.ring.nread + index) % PIPESIZE)

/-- The counters are 32-bit words. -/
structure Pipe.Counted (pi : Pipe) : Prop where
  nread : pi.ring.nread < WRAP
  nwrite : pi.ring.nwrite < WRAP

/-- How a stretch ends. -/
inductive Stretch where
  | sleeps
  | returns (value : Int) (pi : Pipe) (dst : Nat → UInt8)

def copyLoop (writable : Nat → Bool) (n : Int) :
    Nat → Nat → Pipe → (Nat → UInt8) → Nat × Pipe × (Nat → UInt8)
  | 0, i, pi, dst => (i, pi, dst)
  | rounds + 1, i, pi, dst =>
    if (i : Int) < n then
      if pi.empty then (i, pi, dst)
      else
        let ch := pi.next
        let pi := pi.advance
        if writable i then copyLoop writable n rounds (i + 1) pi (update dst i ch)
        else (i, pi, dst)
    else (i, pi, dst)

def piperead (killed : Bool) (writable : Nat → Bool) (n : Int) (pi : Pipe) (dst : Nat → UInt8) :
    Stretch :=
  if pi.empty ∧ pi.writeopen = true then
    if killed then .returns (-1) pi dst else .sleeps
  else
    let (i, pi, dst) := copyLoop writable n n.toNat 0 pi dst
    .returns i pi dst

variable {pi : Pipe}

theorem Pipe.Counted.advance (counted : pi.Counted) (some : ¬ pi.empty) :
    pi.advance.Counted ∧ pi.advance.unread + 1 = pi.unread := by
  have reads := counted.nread
  have writes := counted.nwrite
  have inside : (pi.ring.nread + 1) % WRAP < WRAP := Nat.mod_lt _ (by decide)
  refine ⟨⟨inside, writes⟩, ?_⟩
  simp only [Pipe.empty, Pipe.unread, Pipe.advance, drop, WRAP] at *
  omega

theorem Pipe.skip_advance (pi : Pipe) (count : Nat) :
    pi.advance.skip count = pi.skip (count + 1) := by
  simp only [Pipe.skip, Pipe.advance, drop, Nat.mod_add_mod]
  rw [Nat.add_assoc, Nat.add_comm 1 count]

theorem Pipe.byteAt_advance (pi : Pipe) (index : Nat) :
    pi.advance.byteAt index = pi.byteAt (index + 1) := by
  have divides : PIPESIZE ∣ WRAP := by decide
  simp only [Pipe.byteAt, Pipe.advance, drop]
  rw [Nat.add_mod, wrapped_index divides, ← Nat.add_mod, Nat.add_assoc, Nat.add_comm 1 index]

structure Copied (writable : Nat → Bool) (n : Int) (i : Nat) (pi : Pipe) (dst : Nat → UInt8)
    (outcome : Nat × Pipe × (Nat → UInt8)) (lost : Nat) : Prop where
  forward : i ≤ outcome.1
  wanted : outcome.1 = i ∨ (outcome.1 : Int) ≤ n
  pipe : outcome.2.1 = pi.skip (outcome.1 - i + lost)
  stored : ∀ k, outcome.2.2 k =
    if i ≤ k ∧ k < outcome.1 then pi.byteAt (k - i) else dst k
  failed : (lost = 0 ∧ ∀ k, i ≤ k → (k : Int) < n → k - i < pi.unread → writable k = true) ∨
    (lost = 1 ∧ i ≤ outcome.1 ∧ (outcome.1 : Int) < n ∧ outcome.1 - i < pi.unread ∧
      writable outcome.1 = false)

theorem Copied.nothing (counted : pi.Counted) (writable : Nat → Bool) {n : Int} {i : Nat}
    (dst : Nat → UInt8) (drained : (i : Int) < n → pi.unread = 0) :
    Copied writable n i pi dst (i, pi, dst) 0 := by
  refine ⟨Nat.le_refl i, Or.inl rfl, ?_, ?_, Or.inl ⟨rfl, ?_⟩⟩
  · simp [Pipe.skip, Nat.mod_eq_of_lt counted.nread]
  · intro k
    rw [if_neg (by simp only; omega)]
  · intro k lower wanted unread
    have none := drained (by omega)
    omega

theorem Pipe.Counted.unread_empty (counted : pi.Counted) (nothing : pi.empty) :
    pi.unread = 0 := by
  have reads := counted.nread
  simp only [Pipe.empty, Pipe.unread, WRAP] at *
  omega

theorem copyLoop_copied (writable : Nat → Bool) (n : Int) (rounds i : Nat) (pi : Pipe)
    (dst : Nat → UInt8) (counted : pi.Counted) (enough : n ≤ i + rounds) :
    ∃ lost, Copied writable n i pi dst (copyLoop writable n rounds i pi dst) lost := by
  induction rounds generalizing i pi dst with
  | zero => exact ⟨0, .nothing counted writable dst (by omega)⟩
  | succ rounds ih =>
    rw [copyLoop]
    split
    · rename_i more
      split
      · rename_i nothing
        exact ⟨0, .nothing counted writable dst fun _ => counted.unread_empty nothing⟩
      · rename_i some
        obtain ⟨counted', fewer⟩ := counted.advance some
        simp only
        split
        · rename_i good
          obtain ⟨lost, copied⟩ :=
            ih (i + 1) pi.advance (update dst i pi.next) counted' (by push_cast; omega)
          obtain ⟨forward, wanted, pipe, stored, failed⟩ := copied
          refine ⟨lost, by omega, Or.inr (by omega), ?_, ?_, ?_⟩
          · rw [pipe, Pipe.skip_advance]
            congr 1
            omega
          · intro k
            rw [stored]
            by_cases first : k = i
            · subst first
              rw [if_neg (by omega), update_self, if_pos (by omega), Nat.sub_self]
              rfl
            · rw [update_of_ne first, Pipe.byteAt_advance]
              by_cases inside : i + 1 ≤ k ∧ k < (copyLoop writable n rounds (i + 1) pi.advance
                  (update dst i pi.next)).1
              · have offset : k - (i + 1) + 1 = k - i := by omega
                rw [if_pos inside, if_pos (by omega), offset]
              · rw [if_neg inside, if_neg (by omega)]
          · rcases failed with ⟨none, all⟩ | ⟨one, later, short, left, bad⟩
            · refine Or.inl ⟨none, fun k lower upper unread => ?_⟩
              by_cases first : k = i
              · rw [first]
                exact good
              · exact all k (by omega) upper (by omega)
            · exact Or.inr ⟨one, by omega, short, by omega, bad⟩
        · rename_i bad
          refine ⟨1, Nat.le_refl i, Or.inl rfl, ?_, ?_,
            Or.inr ⟨rfl, Nat.le_refl i, more, ?_, by simpa using bad⟩⟩
          · simp [Pipe.skip, Pipe.advance, drop]
          · intro k
            rw [if_neg (by simp only; omega)]
          · simp only
            omega
    · exact ⟨0, .nothing counted writable dst (by omega)⟩

theorem Pipe.skip_succ_ne (pi : Pipe) (count : Nat) : pi.skip (count + 1) ≠ pi.skip count := by
  intro same
  have counters : (pi.ring.nread + (count + 1)) % WRAP = (pi.ring.nread + count) % WRAP :=
    congrArg (fun pipe => pipe.ring.nread) same
  simp only [WRAP] at counters
  omega

theorem piperead_within {killed : Bool} {writable : Nat → Bool} {n value : Int}
    {pi' : Pipe} {dst dst' : Nat → UInt8} (counted : pi.Counted)
    (returned : piperead killed writable n pi dst = .returns value pi' dst') :
    ∀ k, n.toNat ≤ k → dst' k = dst k := by
  intro k beyond
  rw [piperead] at returned
  split at returned
  · split at returned
    · injection returned with _ _ isDst
      rw [isDst]
    · exact absurd returned (by simp)
  · obtain ⟨lost, copied⟩ := copyLoop_copied writable n n.toNat 0 pi dst counted (by omega)
    injection returned with _ _ isDst
    have wanted := copied.wanted
    rw [← isDst, copied.stored, if_neg (by omega)]

structure Delivers (n value : Int) (pi pi' : Pipe) (dst dst' : Nat → UInt8) : Prop where
  taken : pi' = pi.skip value.toNat
  result : value = -1 ∨ 0 ≤ value
  wanted : value ≤ max n 0
  stored : ∀ k, dst' k = if k < value.toNat then pi.byteAt k else dst k

/-- A `piperead` that returns has taken from the pipe exactly the bytes it delivers
if and only if `copyout` can store every byte that it comes to: those asked for that
the pipe holds. A copy that fails takes its byte with it, so the counter of the pipe
is then one ahead of the count returned. -/
theorem piperead_takes_delivered (killed : Bool) (writable : Nat → Bool) (n value : Int)
    (pi pi' : Pipe) (dst dst' : Nat → UInt8) (counted : pi.Counted)
    (returned : piperead killed writable n pi dst = .returns value pi' dst') :
    Delivers n value pi pi' dst dst' ↔
      ∀ i : Nat, (i : Int) < n → i < pi.unread → writable i = true := by
  rw [piperead] at returned
  split at returned
  · rename_i waits
    split at returned
    · injection returned with isValue isPipe isDst
      subst isValue isPipe isDst
      have none := counted.unread_empty waits.1
      refine ⟨fun _ i _ unread => by omega, fun _ => ⟨?_, Or.inl rfl, by omega, fun k => by simp⟩⟩
      simp [Pipe.skip, Nat.mod_eq_of_lt counted.nread]
    · exact absurd returned (by simp)
  · obtain ⟨lost, copied⟩ := copyLoop_copied writable n n.toNat 0 pi dst counted (by omega)
    generalize copyLoop writable n n.toNat 0 pi dst = outcome at copied returned
    obtain ⟨count, pi₁, dst₁⟩ := outcome
    obtain ⟨-, wanted, pipe, stored, failed⟩ := copied
    injection returned with isValue isPipe isDst
    subst isValue isPipe isDst
    simp only [Nat.sub_zero, Nat.zero_le, true_and, forall_const] at wanted pipe stored failed
    rcases failed with ⟨none, all⟩ | ⟨one, short, left, bad⟩
    · refine ⟨fun _ => all, fun _ => ?_⟩
      exact ⟨by rw [pipe, none]; rfl, Or.inr (Int.natCast_nonneg count), by omega,
        fun k => by simp [stored]⟩
    · constructor
      · intro delivers
        have taken := delivers.taken
        rw [pipe, one, Int.toNat_natCast] at taken
        exact absurd taken (pi.skip_succ_ne count)
      · intro good
        rw [good count short left] at bad
        exact absurd bad (by decide)

def nearWrap : Pipe := ⟨⟨fun index => UInt8.ofNat index, WRAP - 1, 1⟩, true, true⟩

/-- Two bytes are read across the wrap of the counters. -/
theorem piperead_near_wrap :
    ∃ pi' dst', piperead false (fun _ => true) 5 nearWrap (fun _ => 9) = .returns 2 pi' dst' ∧
      pi' = nearWrap.skip 2 ∧ dst' 0 = 255 ∧ dst' 1 = 0 ∧ dst' 2 = 9 := by
  have counted : nearWrap.Counted := ⟨by decide, by decide⟩
  have returned : piperead false (fun _ => true) 5 nearWrap (fun _ => 9) = .returns 2
      (copyLoop (fun _ => true) 5 5 0 nearWrap fun _ => 9).2.1
      (copyLoop (fun _ => true) 5 5 0 nearWrap fun _ => 9).2.2 := rfl
  obtain ⟨taken, -, -, stored⟩ := (piperead_takes_delivered false (fun _ => true) 5 2 nearWrap _
    (fun _ => 9) _ counted returned).mpr fun _ _ _ => rfl
  exact ⟨_, _, returned, taken, by rw [stored]; decide, by rw [stored]; decide,
    by rw [stored]; decide⟩

/-- The byte at which a copy fails is taken from the pipe and not delivered. -/
theorem failed_copy_loses_byte :
    ∃ pi', piperead false (fun _ => false) 1 nearWrap (fun _ => 9) = .returns 0 pi' (fun _ => 9) ∧
      pi' = nearWrap.skip 1 ∧ pi'.unread + 1 = nearWrap.unread :=
  ⟨nearWrap.advance, rfl, rfl, by decide⟩

end Xv6.Pipes
