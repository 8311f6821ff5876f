import Mathlib.Data.List.TakeWhile
import Xv6.Library.Bytes
import Xv6.Library.Command

/-!
# The parser of the shell

A pointer into the command line is modelled by the bytes from it to the terminator, so that the
empty list is the pointer `es` and a null byte stands nowhere else.
-/

namespace Xv6.Shell

open Bytes (ch)
open Command

abbrev Ptr := List UInt8

def MAXARGS : Nat := 10
def O_RDONLY : Nat := 0x000
def O_WRONLY : Nat := 0x001
def O_CREATE : Nat := 0x200
def O_TRUNC : Nat := 0x400

/-- What `redircmd` stores besides the command. -/
structure Redir where
  file : Ptr
  efile : Ptr
  mode : Nat
  fd : Nat
deriving DecidableEq

inductive Tree
  | exec (argv : List (Ptr × Ptr))
  | redir (cmd : Tree) (r : Redir)
  | pipe (left right : Tree)
  | list (left right : Tree)
  | back (cmd : Tree)
deriving DecidableEq

inductive Kind
  | eof | word | input | output | append | bar | amp | semi | lparen | rparen
deriving DecidableEq

structure Token where
  kind : Kind
  q : Ptr
  eq : Ptr

inductive Panic
  | missingFile | parseblock | missingParen | badToken | tooManyArgs
deriving DecidableEq

inductive Stop
  | panic (why : Panic)
  | endless
deriving DecidableEq

abbrev Parser := Cmd Ptr Stop

/-- The string `whitespace`. -/
def whitespace : List UInt8 := [ch ' ', ch '\t', ch '\r', ch '\n', 11]

/-- The string `symbols`. -/
def symbols : List UInt8 := [ch '<', ch '|', ch '>', ch '&', ch ';', ch '(', ch ')']

def skip (s : Ptr) : Ptr := s.dropWhile (· ∈ whitespace)

/-- A byte of a word. -/
def isWord (c : UInt8) : Bool := c ∉ whitespace ∧ c ∉ symbols

def token (c : UInt8) (s : Ptr) : Kind × Ptr :=
  if c = ch '|' then (.bar, s)
  else if c = ch '(' then (.lparen, s)
  else if c = ch ')' then (.rparen, s)
  else if c = ch ';' then (.semi, s)
  else if c = ch '&' then (.amp, s)
  else if c = ch '<' then (.input, s)
  else if c = ch '>' then if s.head? = some (ch '>') then (.append, s.tail) else (.output, s)
  else (.word, (c :: s).dropWhile isWord)

def lex (s : Ptr) : Token × Ptr :=
  match skip s with
  | [] => (⟨.eof, [], []⟩, [])
  | c :: t => (⟨(token c t).1, c :: t, (token c t).2⟩, skip (token c t).2)

def gettoken : Parser Token := do
  let s ← get
  set (lex s).2
  return (lex s).1

def peek (toks : List UInt8) : Parser Bool := do
  let s ← get
  set (skip s)
  return (skip s).head?.any (· ∈ toks)

def Kind.redirection : Kind → Option (Nat × Nat)
  | .input => some (O_RDONLY, 0)
  | .output => some (O_WRONLY ||| O_CREATE ||| O_TRUNC, 1)
  | .append => some (O_WRONLY ||| O_CREATE, 1)
  | _ => none

def parseredirs : Nat → Parser (List Redir)
  | 0 => throw .endless
  | n + 1 => do
    if ← peek [ch '<', ch '>'] then
      let tok ← gettoken
      let word ← gettoken
      if word.kind = .word then
        match tok.kind.redirection with
        | some (mode, fd) => return ⟨word.q, word.eq, mode, fd⟩ :: (← parseredirs n)
        | none => parseredirs n
      else throw (.panic .missingFile)
    else return []

def wrap (cmd : Tree) (redirs : List Redir) : Tree := redirs.foldl .redir cmd

/-- The loop of `parseexec`. -/
def parseargs : Nat → List (Ptr × Ptr) → List Redir → Parser Tree
  | 0, _, _ => throw .endless
  | n + 1, argv, redirs => do
    if ← peek [ch '|', ch ')', ch '&', ch ';'] then return wrap (.exec argv) redirs
    else
      let tok ← gettoken
      if tok.kind = .eof then return wrap (.exec argv) redirs
      else if tok.kind ≠ .word then throw (.panic .badToken)
      else if argv.length + 1 ≥ MAXARGS then throw (.panic .tooManyArgs)
      else
        let more ← parseredirs n
        parseargs n (argv ++ [(tok.q, tok.eq)]) (redirs ++ more)

def parseback : Nat → Tree → Parser Tree
  | 0, _ => throw .endless
  | n + 1, cmd => do
    if ← peek [ch '&'] then
      let _ ← gettoken
      parseback n (.back cmd)
    else return cmd

mutual

def parseline : Nat → Parser Tree
  | 0 => throw .endless
  | n + 1 => do
    let cmd ← parseback n (← parsepipe n)
    if ← peek [ch ';'] then
      let _ ← gettoken
      return .list cmd (← parseline n)
    else return cmd

def parsepipe : Nat → Parser Tree
  | 0 => throw .endless
  | n + 1 => do
    let cmd ← parseexec n
    if ← peek [ch '|'] then
      let _ ← gettoken
      return .pipe cmd (← parsepipe n)
    else return cmd

def parseexec : Nat → Parser Tree
  | 0 => throw .endless
  | n + 1 => do
    if ← peek [ch '('] then parseblock n
    else parseargs n [] (← parseredirs n)

def parseblock : Nat → Parser Tree
  | 0 => throw .endless
  | n + 1 => do
    if ← peek [ch '('] then
      let _ ← gettoken
      let cmd ← parseline n
      if ← peek [ch ')'] then
        let _ ← gettoken
        return wrap cmd (← parseredirs n)
      else throw (.panic .missingParen)
    else throw (.panic .parseblock)

end

def parsecmd (n : Nat) : Parser Tree := do
  let cmd ← parseline n
  let _ ← peek []
  if (← get) = [] then return cmd else throw (.panic .badToken)

/-! ### The tokens of a line -/

theorem skip_skip (s : Ptr) : skip (skip s) = skip s := by
  induction s with
  | nil => rfl
  | cons c s ih =>
    simp only [skip, List.dropWhile_cons] at ih ⊢
    split
    · exact ih
    · rename_i start
      rw [List.dropWhile_cons, if_neg start]

variable {c : UInt8} {s : Ptr}

theorem skip_cons {s t : Ptr} (rest : skip s = c :: t) : c ∉ whitespace := by
  have first := List.head?_dropWhile_not (· ∈ whitespace) s
  rw [← skip, rest] at first
  simpa using first

def Kind.text : Kind → List UInt8
  | .eof | .word => []
  | .input => [ch '<']
  | .output => [ch '>']
  | .append => [ch '>', ch '>']
  | .bar => [ch '|']
  | .amp => [ch '&']
  | .semi => [ch ';']
  | .lparen => [ch '(']
  | .rparen => [ch ')']

/-- A token is an operator or a word. -/
theorem token_cases (s : Ptr) (start : c ∉ whitespace) :
    ((token c s).1.text.head? = some c ∧ c :: s = (token c s).1.text ++ (token c s).2 ∧
        ((token c s).1 = .output → (token c s).2.head? ≠ some (ch '>'))) ∨
      ((token c s).1 = .word ∧ isWord c ∧ c ∉ symbols ∧
        (token c s).2 = (c :: s).dropWhile isWord) := by
  by_cases operator : c ∈ symbols
  · left
    by_cases output : c = ch '>'
    · have isOutput : token c s =
          if s.head? = some (ch '>') then (.append, s.tail) else (.output, s) := by
        subst output
        rfl
      rw [isOutput, output]
      split
      · rename_i twice
        obtain ⟨rest, rfl⟩ := List.head?_eq_some_iff.mp twice
        exact ⟨rfl, rfl, by simp⟩
      · rename_i once
        exact ⟨rfl, rfl, fun _ => once⟩
    · simp only [symbols, List.mem_cons, List.not_mem_nil, or_false, output, false_or] at operator
      rcases operator with rfl | rfl | rfl | rfl | rfl | rfl
      all_goals exact ⟨rfl, rfl, fun isOutput => by cases isOutput⟩
  · have others := operator
    simp only [symbols, List.mem_cons, List.not_mem_nil, or_false, not_or] at others
    obtain ⟨h1, h2, h3, h4, h5, h6, h7⟩ := others
    have word : token c s = (.word, (c :: s).dropWhile isWord) := by
      simp only [token, h1, h2, h3, h4, h5, h6, h7, if_false]
    rw [word]
    exact Or.inr ⟨rfl, by simp [isWord, start, operator], operator, rfl⟩

theorem token_ne_eof (start : c ∉ whitespace) : (token c s).1 ≠ .eof := by
  intro ended
  rcases token_cases s start with ⟨operator, -⟩ | ⟨word, -⟩
  · rw [ended] at operator
    cases operator
  · rw [ended] at word
    cases word

theorem token_suffix (start : c ∉ whitespace) : (token c s).2 <:+ s := by
  rcases token_cases s start with ⟨first, whole, -⟩ | ⟨-, word, -, rest⟩
  · obtain ⟨text, more⟩ := List.head?_eq_some_iff.mp first
    rw [more] at whole
    exact ⟨text, (List.cons.inj whole).2.symm⟩
  · rw [rest, List.dropWhile_cons, if_pos word]
    exact List.dropWhile_suffix _

theorem lex_nil (ended : skip s = []) : lex s = (⟨.eof, [], []⟩, []) := by
  rw [lex, ended]

theorem lex_cons {s t : Ptr} (more : skip s = c :: t) :
    lex s = (⟨(token c t).1, c :: t, (token c t).2⟩, skip (token c t).2) := by
  rw [lex, more]

theorem lex_eof_iff (s : Ptr) : (lex s).1.kind = .eof ↔ skip s = [] := by
  cases rest : skip s with
  | nil => simp [lex_nil rest]
  | cons c t => simp [lex_cons rest, token_ne_eof (skip_cons rest)]

theorem lex_shorter (more : (lex s).1.kind ≠ .eof) : (lex s).2.length < s.length := by
  rw [ne_eq, lex_eof_iff] at more
  obtain ⟨c, t, rest⟩ := List.exists_cons_of_ne_nil more
  have before : (skip s).length ≤ s.length := (List.dropWhile_suffix _).length_le
  have after := (token_suffix (s := t) (skip_cons rest)).length_le
  have last : (skip (token c t).2).length ≤ (token c t).2.length :=
    (List.dropWhile_suffix _).length_le
  rw [rest, List.length_cons] at before
  rw [lex_cons rest]
  exact Nat.lt_of_le_of_lt last (by omega)

def tokens (s : Ptr) : List Token :=
  if _ : (lex s).1.kind = .eof then [] else (lex s).1 :: tokens (lex s).2
termination_by s.length
decreasing_by exact lex_shorter ‹_›

theorem length_tokens (s : Ptr) : (tokens s).length ≤ s.length := by
  induction s using tokens.induct with
  | case1 s ended =>
    rw [tokens, dif_pos ended]
    exact Nat.zero_le _
  | case2 s more ih =>
    have shorter := lex_shorter more
    rw [tokens, dif_neg more, List.length_cons]
    omega

def headKind : List Token → Kind
  | [] => .eof
  | t :: _ => t.kind

theorem tokens_eq_nil : tokens s = [] ↔ skip s = [] := by
  rw [tokens, ← lex_eof_iff]
  split <;> simp [*]

theorem tokens_skip (s : Ptr) : tokens (skip s) = tokens s := by
  have same : lex (skip s) = lex s := by rw [lex, lex, skip_skip]
  rw [tokens.eq_1 (skip s), same, ← tokens.eq_1 s]

def Kind.begins (kind : Kind) (toks : List UInt8) : Bool := kind.text.head?.any (· ∈ toks)

theorem head_skip (s : Ptr) {toks : List UInt8} (operators : toks ⊆ symbols) :
    (skip s).head?.any (· ∈ toks) = (headKind (tokens s)).begins toks := by
  rw [tokens]
  cases rest : skip s with
  | nil => simp [lex_nil rest, headKind, Kind.begins, Kind.text]
  | cons c t =>
    have start := skip_cons rest
    simp only [lex_cons rest, token_ne_eof start, dite_false, headKind, Kind.begins]
    rcases token_cases t start with ⟨operator, -⟩ | ⟨word, -, plain, -⟩
    · rw [operator]
      rfl
    · have absent : c ∉ toks := fun member => plain (operators member)
      simp [word, Kind.text, absent]

inductive Tokenized : Ptr → List Token → Prop
  | nil {blank : Ptr} : (∀ c, c ∈ blank → c ∈ whitespace) → Tokenized blank []
  | operator {blank eq : Ptr} {kind : Kind} {ts : List Token} :
      (∀ c, c ∈ blank → c ∈ whitespace) → kind.text ≠ [] →
      (kind = .output → eq.head? ≠ some (ch '>')) → Tokenized eq ts →
      Tokenized (blank ++ (kind.text ++ eq)) (⟨kind, kind.text ++ eq, eq⟩ :: ts)
  | word {blank word eq : Ptr} {ts : List Token} :
      (∀ c, c ∈ blank → c ∈ whitespace) → word ≠ [] → (∀ c, c ∈ word → isWord c) →
      (∀ c, eq.head? = some c → isWord c = false) → Tokenized eq ts →
      Tokenized (blank ++ (word ++ eq)) (⟨.word, word ++ eq, eq⟩ :: ts)

theorem skip_eq (s : Ptr) : ∃ blank, (∀ c, c ∈ blank → c ∈ whitespace) ∧ s = blank ++ skip s :=
  ⟨s.takeWhile (· ∈ whitespace), fun _ member => by simpa using List.mem_takeWhile_imp member,
    List.takeWhile_append_dropWhile.symm⟩

theorem Tokenized.after_blank {blank s : Ptr} {ts : List Token}
    (white : ∀ c, c ∈ blank → c ∈ whitespace) (rest : Tokenized s ts) :
    Tokenized (blank ++ s) ts := by
  have both : ∀ {more : Ptr}, (∀ c, c ∈ more → c ∈ whitespace) →
      ∀ c, c ∈ blank ++ more → c ∈ whitespace := fun white' c member =>
    (List.mem_append.mp member).elim (white c) (white' c)
  cases rest with
  | nil white' => exact .nil (both white')
  | operator white' text single rest =>
    rw [← List.append_assoc]
    exact .operator (both white') text single rest
  | word white' text each last rest =>
    rw [← List.append_assoc]
    exact .word (both white') text each last rest

theorem tokens_tokenized (s : Ptr) : Tokenized s (tokens s) := by
  obtain ⟨blank, white, split⟩ := skip_eq s
  induction s using tokens.induct generalizing blank with
  | case1 s ended =>
    have none := (lex_eof_iff s).mp ended
    rw [none, List.append_nil] at split
    rw [tokens_eq_nil.mpr none, split]
    exact .nil white
  | case2 s more ih =>
    rw [tokens, dif_neg more]
    rw [lex_eof_iff] at more
    obtain ⟨c, t, rest⟩ := List.exists_cons_of_ne_nil more
    obtain ⟨blank', white', split'⟩ := skip_eq (token c t).2
    obtain ⟨blank'', white'', split''⟩ := skip_eq (lex s).2
    have later := ih blank'' white'' split''
    rw [lex_cons rest] at later ⊢
    have after : Tokenized (token c t).2 (tokens (skip (token c t).2)) := by
      nth_rewrite 1 [split']
      exact later.after_blank white'
    rw [split, rest]
    rcases token_cases t (skip_cons rest) with ⟨first, whole, single⟩ | ⟨isWord', first, -, tail⟩
    · rw [whole]
      refine .operator white (fun none => ?_) single after
      rw [none] at first
      cases first
    · have text : c :: t = (c :: t).takeWhile isWord ++ (token c t).2 := by
        rw [tail]
        exact List.takeWhile_append_dropWhile.symm
      rw [text, isWord']
      refine .word white ?_ (fun _ member => List.mem_takeWhile_imp member) (fun d next => ?_) after
      · rw [List.takeWhile_cons, if_pos first]
        exact List.cons_ne_nil _ _
      · have last := List.head?_dropWhile_not isWord (c :: t)
        rw [← tail, next] at last
        exact last

section Laws

variable {s : Ptr} {α : Type} {stop : Stop → Prop}

theorem wp_peek {toks : List UInt8} (operators : toks ⊆ symbols) {post : Bool → Ptr → Prop}
    (after : ∀ s', tokens s' = tokens s → post ((headKind (tokens s)).begins toks) s') :
    wp (peek toks) post stop s := by
  simp only [peek, wp_bind, wp_get, wp_set, wp_pure]
  rw [head_skip s operators]
  exact after _ (tokens_skip s)

/-- `gettoken` takes the first token. -/
theorem wp_gettoken {post : Token → Ptr → Prop}
    (ended : ∀ t s', tokens s = [] → t.kind = .eof → tokens s' = [] → post t s')
    (next : ∀ t s', tokens s = t :: tokens s' → t.kind ≠ .eof → post t s') :
    wp gettoken post stop s := by
  simp only [gettoken, wp_bind, wp_get, wp_set, wp_pure]
  have unfolded := tokens.eq_1 s
  split at unfolded
  · rename_i last
    refine ended _ _ unfolded last ?_
    rw [lex_nil ((lex_eof_iff s).mp last), tokens_eq_nil]
    rfl
  · rename_i more
    exact next _ _ unfolded more

theorem wp_accept {toks : List UInt8} {Asked : Kind → Prop} (operators : toks ⊆ symbols)
    (means : ∀ kind : Kind, kind.begins toks = true ↔ Asked kind) {next : Token → Parser α}
    {otherwise : Parser α} {post : α → Ptr → Prop}
    (taken : ∀ t s', tokens s = t :: tokens s' → Asked t.kind → wp (next t) post stop s')
    (left : ∀ s', tokens s' = tokens s → ¬ Asked (headKind (tokens s)) →
      wp otherwise post stop s') :
    wp (peek toks >>= fun found => if found = true then gettoken >>= next else otherwise)
      post stop s := by
  rw [wp_bind]
  refine wp_peek operators fun s₁ same => ?_
  split
  · rename_i found
    rw [means] at found
    rw [wp_bind]
    refine wp_gettoken (fun t s₂ none _ _ => ?_) fun t s₂ first _ => ?_
    · rw [← same, none, ← means] at found
      cases found
    · rw [same] at first
      rw [first] at found
      exact taken t s₂ first found
  · rename_i found
    rw [means] at found
    exact left s₁ same found

end Laws

end Xv6.Shell
