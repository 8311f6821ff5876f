import Xv6.Strings.ShellGrammar

/-!
# Terminating the words of a command line

`nulterminate` writes a null byte at the end of every word of a tree, into the line that all
words share.
-/

namespace Xv6.Shell

open Bytes (ch)
open Command

def offset (s p : Ptr) : Nat := s.length - p.length

/-- `*p = 0` -/
def terminate (s : Ptr) (buf : List UInt8) (p : Ptr) : List UInt8 := buf.set (offset s p) 0

def nulterminate (s : Ptr) : Tree → List UInt8 → List UInt8
  | .exec argv, buf => argv.foldl (fun buf arg => terminate s buf arg.2) buf
  | .redir cmd r, buf => terminate s (nulterminate s cmd buf) r.efile
  | .pipe left right, buf => nulterminate s right (nulterminate s left buf)
  | .list left right, buf => nulterminate s right (nulterminate s left buf)
  | .back cmd, buf => nulterminate s cmd buf

def cstring (s : Ptr) (buf : List UInt8) (p : Ptr) : List UInt8 :=
  (buf.drop (offset s p)).takeWhile (· ≠ 0)

def Tree.words : Tree → List (Ptr × Ptr)
  | .exec argv => argv
  | .redir cmd r => cmd.words ++ [(r.file, r.efile)]
  | .pipe left right | .list left right => left.words ++ right.words
  | .back cmd => cmd.words

def terminateAll (s : Ptr) (words : List (Ptr × Ptr)) (buf : List UInt8) : List UInt8 :=
  words.foldl (fun buf word => terminate s buf word.2) buf

theorem nulterminate_eq (s : Ptr) (cmd : Tree) (buf : List UInt8) :
    nulterminate s cmd buf = terminateAll s cmd.words buf := by
  induction cmd generalizing buf with
  | exec argv => rfl
  | redir cmd r ih => simp [nulterminate, Tree.words, terminateAll, ih]
  | pipe left right ihl ihr | list left right ihl ihr =>
    simp [nulterminate, Tree.words, terminateAll, ihl, ihr]
  | back cmd ih => exact ih buf

section Terminators

variable {s : Ptr} {words : List (Ptr × Ptr)} {buf : List UInt8} {i : Nat}

theorem terminateAll_other (others : ∀ word, word ∈ words → offset s word.2 ≠ i) :
    (terminateAll s words buf)[i]? = buf[i]? := by
  induction words generalizing buf with
  | nil => rfl
  | cons word words ih =>
    obtain ⟨first, others⟩ := List.forall_mem_cons.mp others
    rw [terminateAll, List.foldl_cons, ← terminateAll, ih others, terminate,
      List.getElem?_set_ne first]

theorem terminateAll_end (inside : i < buf.length)
    (ends : buf[i]? = some 0 ∨ ∃ word, word ∈ words ∧ offset s word.2 = i) :
    (terminateAll s words buf)[i]? = some 0 := by
  induction words generalizing buf with
  | nil =>
    rw [terminateAll, List.foldl_nil]
    simpa using ends
  | cons word words ih =>
    rw [terminateAll, List.foldl_cons, ← terminateAll]
    refine ih (by simpa [terminate] using inside) ?_
    by_cases first : offset s word.2 = i
    · subst first
      exact Or.inl (List.getElem?_set_self inside)
    · rw [terminate, List.getElem?_set_ne first]
      refine ends.imp_right ?_
      rintro ⟨other, member, same⟩
      rcases List.mem_cons.mp member with rfl | later
      · exact absurd same first
      · exact ⟨other, later, same⟩

end Terminators

/-! ### The words of a tree are words of the line -/

def IsToken (ts : List Token) (word : Ptr × Ptr) : Prop :=
  ∃ t, t ∈ ts ∧ t.kind = .word ∧ word = (t.q, t.eq)

section Tokens

variable {ts ts' : List Token} {word : Ptr × Ptr}

theorem IsToken.mono (isToken : IsToken ts word) (more : ts ⊆ ts') : IsToken ts' word := by
  obtain ⟨t, member, kind, same⟩ := isToken
  exact ⟨t, more member, kind, same⟩

theorem mem_words_wrap {cmd : Tree} {rs : List Redir} :
    word ∈ (wrap cmd rs).words ↔ word ∈ cmd.words ∨ ∃ r, r ∈ rs ∧ word = (r.file, r.efile) := by
  induction rs generalizing cmd with
  | nil => simp [wrap]
  | cons r rs ih =>
    rw [wrap, List.foldl_cons, ← wrap, ih]
    simp [Tree.words, or_assoc]

theorem isToken_of_redirs {rs : List Redir} (derived : Redirs ts rs) {r : Redir} (member : r ∈ rs) :
    IsToken ts (r.file, r.efile) := by
  induction derived with
  | nil => cases member
  | @cons op word mode fd ts rs known isWord derived ih =>
    rcases List.mem_cons.mp member with rfl | later
    · exact ⟨word, by simp, isWord, rfl⟩
    · exact (ih later).mono fun t member => List.mem_cons_of_mem _ (List.mem_cons_of_mem _ member)

theorem isToken_of_words {argv : List (Ptr × Ptr)} {rs : List Redir} (derived : Words ts argv rs) :
    (∀ word, word ∈ argv → IsToken ts word) ∧ ∀ r, r ∈ rs → IsToken ts (r.file, r.efile) := by
  induction derived with
  | nil => simp
  | @cons first ts ts' rs rs' argv isWord redirections words ih =>
    have left : ts ⊆ first :: (ts ++ ts') := by simp
    have right : ts' ⊆ first :: (ts ++ ts') := by simp
    refine ⟨fun word member => ?_, fun r member => ?_⟩
    · rcases List.mem_cons.mp member with rfl | later
      · exact ⟨first, by simp, isWord, rfl⟩
      · exact (ih.1 word later).mono right
    · rcases List.mem_append.mp member with here | later
      · exact (isToken_of_redirs redirections here).mono left
      · exact (ih.2 r later).mono right

theorem isToken_of_derives {nonterminal : Nonterminal} {cmd : Tree}
    (derived : Derives nonterminal ts cmd) (member : word ∈ cmd.words) : IsToken ts word := by
  have backs : ∀ {cmd cmd' : Tree} {amps : List Token}, Backs cmd amps cmd' →
      cmd'.words = cmd.words := by
    intro cmd cmd' amps derived
    induction derived with
    | nil => rfl
    | cons _ _ ih => exact ih
  induction derived with
  | line _ derived pipe =>
    rw [backs derived] at member
    exact (pipe member).mono fun t member => by simp [member]
  | list _ derived _ _ pipe line =>
    rw [Tree.words, backs derived] at member
    rcases List.mem_append.mp member with left | right
    · exact (pipe left).mono fun t member => by simp [member]
    · exact (line right).mono fun t member => by simp [member]
  | exec _ exec => exact exec member
  | pipe _ _ _ exec pipe =>
    rcases List.mem_append.mp member with left | right
    · exact (exec left).mono fun t member => by simp [member]
    · exact (pipe right).mono fun t member => by simp [member]
  | block _ _ _ redirections line =>
    rcases mem_words_wrap.mp member with inner | ⟨r, redirection, rfl⟩
    · exact (line inner).mono fun t member => by simp [member]
    · exact (isToken_of_redirs redirections redirection).mono fun t member => by simp [member]
  | words redirections words =>
    rcases mem_words_wrap.mp member with inner | ⟨r, redirection, rfl⟩
    · exact ((isToken_of_words words).1 word inner).mono fun t member => by simp [member]
    · rcases List.mem_append.mp redirection with early | late
      · exact (isToken_of_redirs redirections early).mono fun t member => by simp [member]
      · exact ((isToken_of_words words).2 r late).mono fun t member => by simp [member]

structure Delimited (s : Ptr) (q eq word : List UInt8) : Prop where
  place : ∃ before, s = before ++ (word ++ eq)
  start : q = word ++ eq
  each : ∀ c, c ∈ word → isWord c
  last : ∀ c, eq.head? = some c → isWord c = false

theorem delimited_of_tokenized {s : Ptr} (tokenized : Tokenized s ts) (isToken : IsToken ts word) :
    ∃ text, Delimited s word.1 word.2 text := by
  obtain ⟨t, member, kind, rfl⟩ := isToken
  -- the line of a later token begins after the first one
  have later : ∀ {pre rest : Ptr}, (∃ text, Delimited rest t.q t.eq text) →
      ∃ text, Delimited (pre ++ rest) t.q t.eq text := by
    rintro pre rest ⟨text, ⟨before, split⟩, start, each, last⟩
    exact ⟨text, ⟨pre ++ before, by rw [split]; simp⟩, start, each, last⟩
  induction tokenized with
  | nil => cases member
  | @operator blank eq op ts _ nonempty _ _ ih =>
    rcases List.mem_cons.mp member with rfl | after
    · cases kind
      exact absurd rfl nonempty
    · exact later (later (ih after))
  | @word blank text eq ts _ _ each last _ ih =>
    rcases List.mem_cons.mp member with rfl | after
    · exact ⟨text, ⟨blank, rfl⟩, rfl, each, last⟩
    · exact later (later (ih after))

end Tokens

/-- Where a word stands in the line. -/
theorem Delimited.at {s q eq text : List UInt8} (word : Delimited s q eq text) :
    offset s eq = offset s q + text.length ∧ s[offset s eq]? = eq.head? ∧
      ∀ k, k < text.length → s[offset s q + k]? = text[k]? := by
  obtain ⟨⟨before, split⟩, start, -, -⟩ := word
  have here : offset s q = before.length := by
    rw [offset, split, start]
    simp
  have there : offset s eq = before.length + text.length := by
    rw [offset, split]
    simp only [List.length_append]
    omega
  refine ⟨by omega, ?_, fun k inside => ?_⟩
  · rw [there, split, List.head?_eq_getElem?, ← List.append_assoc,
      List.getElem?_append_right (by simp)]
    simp
  · rw [here, split, List.getElem?_append_right (by omega), Nat.add_sub_cancel_left,
      List.getElem?_append_left inside]

theorem takeWhile_of_bytes {bytes text : List UInt8} (nonzero : 0 ∉ text)
    (each : ∀ k, k < text.length → bytes[k]? = text[k]?) (last : bytes[text.length]? = some 0) :
    bytes.takeWhile (· ≠ 0) = text := by
  induction text generalizing bytes with
  | nil =>
    obtain ⟨rest, rfl⟩ := List.head?_eq_some_iff.mp (List.head?_eq_getElem? ▸ last)
    rfl
  | cons c text ih =>
    obtain ⟨rest, rfl⟩ := List.head?_eq_some_iff.mp
      (List.head?_eq_getElem? ▸ each 0 (Nat.succ_pos _))
    simp only [List.mem_cons, not_or] at nonzero
    rw [List.takeWhile_cons, if_pos (by simpa using Ne.symm nonzero.1), ih nonzero.2 ?_ last]
    exact fun k inside => each (k + 1) (Nat.succ_lt_succ inside)

/-- After `nulterminate` every word of an accepted line is the C string that its pointer
denotes, and no terminator is written inside a word. -/
theorem nulterminate_preserves_words (s : Ptr) (text : 0 ∉ s) (n : Nat)
    (enough : 4 * s.length + 4 ≤ n) (cmd : Tree) (s' : Ptr)
    (ran : (parsecmd n).run s = .ok (cmd, s')) (word : Ptr × Ptr)
    (member : word ∈ cmd.words) :
    ∃ found, Delimited s word.1 word.2 found ∧
      cstring s (nulterminate s cmd (s ++ [0])) word.1 = found ∧
      ∀ other, other ∈ cmd.words →
        ¬ (offset s word.1 ≤ offset s other.2 ∧ offset s other.2 < offset s word.2) := by
  have delimited : ∀ word, word ∈ cmd.words → ∃ found, Delimited s word.1 word.2 found := by
    intro word member
    have short := length_tokens s
    have derived := wp_returned (parsecmd_sound (n := n) (by omega)) ran
    exact delimited_of_tokenized (tokens_tokenized s) (isToken_of_derives derived member)
  obtain ⟨found, here⟩ := delimited word member
  obtain ⟨length, atEnd, inside⟩ := here.at
  -- a word byte is not the byte at which another word ends
  have apart : ∀ other, other ∈ cmd.words → ∀ k, k < found.length →
      offset s other.2 ≠ offset s word.1 + k := by
    intro other listed k less same
    obtain ⟨_, there⟩ := delimited other listed
    have byte := there.at.2.1
    rw [same, inside k less, List.getElem?_eq_getElem less] at byte
    have isWord := here.each _ (List.getElem_mem less)
    rw [there.last _ byte.symm] at isWord
    cases isWord
  refine ⟨found, here, ?_, fun other listed between => ?_⟩
  · rw [cstring, nulterminate_eq]
    have bound : offset s word.2 ≤ s.length := Nat.sub_le _ _
    refine takeWhile_of_bytes ?_ (fun k less => ?_) ?_
    · obtain ⟨before, split⟩ := here.place
      intro zero
      exact text (by rw [split]; simp [zero])
    · rw [List.getElem?_drop, terminateAll_other fun other listed => apart other listed k less,
        List.getElem?_append_left (by omega), inside k less]
    · rw [List.getElem?_drop, ← length]
      refine terminateAll_end (by simp; omega) (Or.inr ⟨word, member, rfl⟩)
  · exact apart other listed (offset s other.2 - offset s word.1) (by omega) (by omega)

/-- The line `a<b`: both words are terminated in place of the operator and of the end. -/
theorem nulterminate_preserves_words_two :
    ∃ found, Delimited [ch 'a', ch '<', ch 'b'] [ch 'a', ch '<', ch 'b'] [ch '<', ch 'b'] found ∧
      cstring [ch 'a', ch '<', ch 'b'] (nulterminate [ch 'a', ch '<', ch 'b']
        (.redir (.exec [([ch 'a', ch '<', ch 'b'], [ch '<', ch 'b'])]) ⟨[ch 'b'], [], 0, 0⟩)
        [ch 'a', ch '<', ch 'b', 0]) [ch 'a', ch '<', ch 'b'] = found := by
  obtain ⟨found, delimited, read, -⟩ := nulterminate_preserves_words [ch 'a', ch '<', ch 'b']
    (by decide) 16 (by decide)
    (.redir (.exec [([ch 'a', ch '<', ch 'b'], [ch '<', ch 'b'])]) ⟨[ch 'b'], [], 0, 0⟩) []
    (by decide +kernel) ([ch 'a', ch '<', ch 'b'], [ch '<', ch 'b']) (by simp [Tree.words])
  exact ⟨found, delimited, read⟩

end Xv6.Shell
