import Xv6.Strings.Shell

/-!
# The grammar of the shell

The parser accepts exactly the lines whose tokens derive from the grammar.
-/

namespace Xv6.Shell

open Bytes (ch)
open Command

inductive Redirs : List Token → List Redir → Prop
  | nil : Redirs [] []
  | cons {op word : Token} {mode fd : Nat} {ts : List Token} {rs : List Redir} :
      op.kind.redirection = some (mode, fd) → word.kind = .word → Redirs ts rs →
      Redirs (op :: word :: ts) (⟨word.q, word.eq, mode, fd⟩ :: rs)

/-- Words, each with the redirections after it. -/
inductive Words : List Token → List (Ptr × Ptr) → List Redir → Prop
  | nil : Words [] [] []
  | cons {word : Token} {ts ts' : List Token} {rs rs' : List Redir} {argv : List (Ptr × Ptr)} :
      word.kind = .word → Redirs ts rs → Words ts' argv rs' →
      Words (word :: (ts ++ ts')) ((word.q, word.eq) :: argv) (rs ++ rs')

/-- A command with one `&` after the other. -/
inductive Backs : Tree → List Token → Tree → Prop
  | nil (cmd : Tree) : Backs cmd [] cmd
  | cons {amp : Token} {ts : List Token} {cmd cmd' : Tree} :
      amp.kind = .amp → Backs (.back cmd) ts cmd' → Backs cmd (amp :: ts) cmd'

inductive Nonterminal
  | line | pipe | exec

inductive Derives : Nonterminal → List Token → Tree → Prop
  | line {ts amps : List Token} {cmd cmd' : Tree} :
      Derives .pipe ts cmd → Backs cmd amps cmd' → Derives .line (ts ++ amps) cmd'
  | list {ts amps ts' : List Token} {semi : Token} {cmd cmd' right : Tree} :
      Derives .pipe ts cmd → Backs cmd amps cmd' → semi.kind = .semi → Derives .line ts' right →
      Derives .line (ts ++ amps ++ semi :: ts') (.list cmd' right)
  | exec {ts : List Token} {cmd : Tree} : Derives .exec ts cmd → Derives .pipe ts cmd
  | pipe {ts ts' : List Token} {bar : Token} {left right : Tree} :
      Derives .exec ts left → bar.kind = .bar → Derives .pipe ts' right →
      Derives .pipe (ts ++ bar :: ts') (.pipe left right)
  | block {lparen rparen : Token} {ts ts' : List Token} {cmd : Tree} {rs : List Redir} :
      lparen.kind = .lparen → Derives .line ts cmd → rparen.kind = .rparen → Redirs ts' rs →
      Derives .exec (lparen :: (ts ++ rparen :: ts')) (wrap cmd rs)
  | words {ts ts' : List Token} {rs rs' : List Redir} {argv : List (Ptr × Ptr)} :
      Redirs ts rs → Words ts' argv rs' → argv.length < MAXARGS →
      Derives .exec (ts ++ ts') (wrap (.exec argv) (rs ++ rs'))

/-! ### What the parser asks for -/

def Kind.isRedir (kind : Kind) : Prop := kind.redirection.isSome

def Kind.endsWords (kind : Kind) : Prop := kind ∈ [Kind.bar, .rparen, .amp, .semi]

theorem begins_isRedir (kind : Kind) : kind.begins [ch '<', ch '>'] = true ↔ kind.isRedir := by
  cases kind <;> simp only [Kind.isRedir] <;> decide

theorem begins_endsWords (kind : Kind) :
    kind.begins [ch '|', ch ')', ch '&', ch ';'] = true ↔ kind.endsWords := by
  cases kind <;> simp only [Kind.endsWords] <;> decide

theorem begins_amp (kind : Kind) : kind.begins [ch '&'] = true ↔ kind = .amp := by
  cases kind <;> decide

theorem begins_semi (kind : Kind) : kind.begins [ch ';'] = true ↔ kind = .semi := by
  cases kind <;> decide

theorem begins_bar (kind : Kind) : kind.begins [ch '|'] = true ↔ kind = .bar := by
  cases kind <;> decide

theorem begins_lparen (kind : Kind) : kind.begins [ch '('] = true ↔ kind = .lparen := by
  cases kind <;> decide

theorem begins_rparen (kind : Kind) : kind.begins [ch ')'] = true ↔ kind = .rparen := by
  cases kind <;> decide

/-! ### One round of each loop -/

section Rounds

variable {s : Ptr} {n : Nat} {stop : Stop → Prop}

theorem wp_parseredirs {post : List Redir → Ptr → Prop}
    (none : ∀ s', tokens s' = tokens s → ¬ (headKind (tokens s)).isRedir → post [] s')
    (one : ∀ op word s' mode fd, tokens s = op :: word :: tokens s' →
      op.kind.redirection = some (mode, fd) → word.kind = .word →
      wp (parseredirs n) (fun rs => post (⟨word.q, word.eq, mode, fd⟩ :: rs)) stop s')
    (bad : ∀ op ts, tokens s = op :: ts → op.kind.isRedir → headKind ts ≠ .word →
      stop (.panic .missingFile)) :
    wp (parseredirs (n + 1)) post stop s := by
  rw [parseredirs]
  refine wp_accept (by decide) begins_isRedir (fun op s₁ first isRedir => ?_) none
  rw [wp_bind]
  refine wp_gettoken (fun word s₂ ended eof _ => ?_) fun word s₂ second _ => ?_
  · rw [if_neg (by rw [eof]; decide), wp_throw]
    exact bad op _ first isRedir (by rw [ended]; decide)
  · split
    · rename_i isWord
      obtain ⟨⟨mode, fd⟩, known⟩ := Option.isSome_iff_exists.mp isRedir
      simp only [known, wp_bind, wp_pure]
      exact one op word s₂ mode fd (by rw [first, second]) known isWord
    · rename_i notWord
      exact bad op _ first isRedir (by rwa [second])

variable {post : Tree → Ptr → Prop}

theorem wp_parseargs {argv : List (Ptr × Ptr)} {redirs : List Redir}
    (ended : ∀ s', tokens s' = tokens s →
      headKind (tokens s) = .eof ∨ (headKind (tokens s)).endsWords →
      post (wrap (.exec argv) redirs) s')
    (one : ∀ word s', tokens s = word :: tokens s' → word.kind = .word →
      argv.length + 1 < MAXARGS →
      wp (parseredirs n) (fun more => wp (parseargs n (argv ++ [(word.q, word.eq)])
        (redirs ++ more)) post stop) stop s')
    (bad : headKind (tokens s) ≠ .eof → ¬ (headKind (tokens s)).endsWords →
      headKind (tokens s) ≠ .word → stop (.panic .badToken))
    (full : headKind (tokens s) = .word → MAXARGS ≤ argv.length + 1 →
      stop (.panic .tooManyArgs)) :
    wp (parseargs (n + 1) argv redirs) post stop s := by
  rw [parseargs, wp_bind]
  refine wp_peek (by decide) fun s₁ same => ?_
  split
  · rename_i found
    rw [wp_pure]
    exact ended s₁ same (Or.inr ((begins_endsWords _).mp found))
  rename_i found
  rw [begins_endsWords] at found
  rw [wp_bind]
  refine wp_gettoken (fun t s₂ none eof after => ?_) fun t s₂ first notEof => ?_
  · rw [same] at none
    rw [if_pos eof, wp_pure]
    exact ended s₂ (after.trans none.symm) (Or.inl (by rw [none]; rfl))
  · rw [same] at first
    rw [first] at found bad full
    rw [if_neg notEof]
    split
    · rename_i notWord
      exact bad notEof found notWord
    rename_i isWord
    rw [not_not] at isWord
    split
    · rename_i tooMany
      exact full isWord tooMany
    · rename_i room
      rw [wp_bind]
      exact one t s₂ first isWord (by omega)

theorem wp_parseback {cmd : Tree}
    (none : ∀ s', tokens s' = tokens s → headKind (tokens s) ≠ .amp → post cmd s')
    (one : ∀ amp s', tokens s = amp :: tokens s' → amp.kind = .amp →
      wp (parseback n (.back cmd)) post stop s') :
    wp (parseback (n + 1) cmd) post stop s := by
  rw [parseback]
  exact wp_accept (by decide) begins_amp one none

theorem wp_parseline
    (run : wp (parsepipe n) (fun cmd => wp (parseback n cmd) (fun cmd' s₁ =>
      (∀ s', tokens s' = tokens s₁ → headKind (tokens s₁) ≠ .semi → post cmd' s') ∧
      ∀ semi s', tokens s₁ = semi :: tokens s' → semi.kind = .semi →
        wp (parseline n) (fun right => post (.list cmd' right)) stop s') stop) stop s) :
    wp (parseline (n + 1)) post stop s := by
  rw [parseline, wp_bind]
  refine wp_post run fun cmd s₀ backs => ?_
  rw [wp_bind]
  refine wp_post backs fun cmd' s₁ next => ?_
  refine wp_accept (by decide) begins_semi (fun semi s' first kind => ?_) next.1
  simp only [wp_bind, wp_pure]
  exact next.2 semi s' first kind

theorem wp_parsepipe
    (run : wp (parseexec n) (fun cmd s₁ =>
      (∀ s', tokens s' = tokens s₁ → headKind (tokens s₁) ≠ .bar → post cmd s') ∧
      ∀ bar s', tokens s₁ = bar :: tokens s' → bar.kind = .bar →
        wp (parsepipe n) (fun right => post (.pipe cmd right)) stop s') stop s) :
    wp (parsepipe (n + 1)) post stop s := by
  rw [parsepipe, wp_bind]
  refine wp_post run fun cmd s₁ next => ?_
  refine wp_accept (by decide) begins_bar (fun bar s' first kind => ?_) next.1
  simp only [wp_bind, wp_pure]
  exact next.2 bar s' first kind

theorem wp_parseexec
    (block : ∀ s', tokens s' = tokens s → headKind (tokens s) = .lparen →
      wp (parseblock n) post stop s')
    (words : ∀ s', tokens s' = tokens s → headKind (tokens s) ≠ .lparen →
      wp (parseredirs n) (fun rs => wp (parseargs n [] rs) post stop) stop s') :
    wp (parseexec (n + 1)) post stop s := by
  rw [parseexec, wp_bind]
  refine wp_peek (by decide) fun s₁ same => ?_
  split
  · rename_i found
    exact block s₁ same ((begins_lparen _).mp found)
  · rename_i found
    rw [begins_lparen] at found
    rw [wp_bind]
    exact words s₁ same found

theorem wp_parseblock {lparen : Token} {ts : List Token}
    (first : tokens s = lparen :: ts) (kind : lparen.kind = .lparen)
    (run : ∀ s₀, tokens s₀ = ts → wp (parseline n) (fun cmd s₁ =>
      (headKind (tokens s₁) ≠ .rparen → stop (.panic .missingParen)) ∧
      ∀ rparen s', tokens s₁ = rparen :: tokens s' → rparen.kind = .rparen →
        wp (parseredirs n) (fun rs => post (wrap cmd rs)) stop s') stop s₀) :
    wp (parseblock (n + 1)) post stop s := by
  rw [parseblock]
  refine wp_accept (by decide) begins_lparen (fun t s₀ read _ => ?_) fun s' same other => ?_
  · rw [wp_bind]
    refine wp_post (run s₀ (List.cons.inj (read.symm.trans first)).2) fun cmd s₁ next => ?_
    refine wp_accept (by decide) begins_rparen (fun rparen s' second isRparen => ?_)
      fun s' same other => next.1 other
    simp only [wp_bind, wp_pure]
    exact next.2 rparen s' second isRparen
  · rw [first] at other
    exact absurd kind other

end Rounds

/-! ### What the parser returns derives from the grammar -/

section Sound

variable {s : Ptr} {n : Nat}

def Reads {α : Type} (s : Ptr) (G : List Token → α → Prop) (result : α) (s' : Ptr) : Prop :=
  ∃ used, tokens s = used ++ tokens s' ∧ G used result

def Panics (why : Stop) : Prop := why ≠ .endless

theorem panics (why : Panic) : Panics (.panic why) := by simp [Panics]

theorem parseredirs_sound (enough : (tokens s).length < n) :
    wp (parseredirs n) (Reads s Redirs) Panics s := by
  induction n generalizing s with
  | zero => omega
  | succ n ih =>
    refine wp_parseredirs (fun s' same _ => ⟨[], same.symm, .nil⟩) ?_ fun _ _ _ _ _ => panics _
    intro op word s' mode fd first known isWord
    have shorter := congrArg List.length first
    simp only [List.length_cons] at shorter
    refine wp_post (ih (by omega)) ?_
    rintro rs s'' ⟨used, rest, derived⟩
    exact ⟨op :: word :: used, by rw [first, rest]; rfl, .cons known isWord derived⟩

theorem parseargs_sound {argv : List (Ptr × Ptr)} {redirs : List Redir}
    (enough : (tokens s).length < n) (few : argv.length < MAXARGS) :
    wp (parseargs n argv redirs) (fun cmd s' => ∃ used argv' rs, tokens s = used ++ tokens s' ∧
      Words used argv' rs ∧ (argv ++ argv').length < MAXARGS ∧
      cmd = wrap (.exec (argv ++ argv')) (redirs ++ rs)) Panics s := by
  induction n generalizing s argv redirs with
  | zero => omega
  | succ n ih =>
    refine wp_parseargs (fun s' same _ => ?_) ?_ (fun _ _ _ => panics _) fun _ _ => panics _
    · exact ⟨[], [], [], same.symm, .nil, by simpa using few, by simp⟩
    intro word s₁ first isWord room
    have shorter := congrArg List.length first
    simp only [List.length_cons] at shorter
    refine wp_post (parseredirs_sound (by omega)) ?_
    rintro rs s₂ ⟨used, rest, redirections⟩
    have less := congrArg List.length rest
    simp only [List.length_append] at less
    refine wp_post (ih (by omega) (by simpa using room)) ?_
    rintro cmd s₃ ⟨used', argv', rs', rest', words, few', rfl⟩
    refine ⟨word :: (used ++ used'), (word.q, word.eq) :: argv', rs ++ rs', ?_,
      .cons isWord redirections words, ?_, ?_⟩
    · rw [first, rest, rest']
      simp
    · simpa using few'
    · simp

theorem parseback_sound {cmd : Tree} (enough : (tokens s).length < n) :
    wp (parseback n cmd) (Reads s (Backs cmd)) Panics s := by
  induction n generalizing s cmd with
  | zero => omega
  | succ n ih =>
    refine wp_parseback (fun s' same _ => ⟨[], same.symm, .nil cmd⟩) ?_
    intro amp s' first kind
    have shorter := congrArg List.length first
    simp only [List.length_cons] at shorter
    refine wp_post (ih (by omega)) ?_
    rintro cmd' s'' ⟨used, rest, derived⟩
    exact ⟨amp :: used, by rw [first, rest]; rfl, .cons kind derived⟩

theorem parser_sound (n : Nat) :
    (∀ s, 4 * (tokens s).length + 4 ≤ n →
      wp (parseline n) (Reads s (Derives .line)) Panics s) ∧
    (∀ s, 4 * (tokens s).length + 3 ≤ n →
      wp (parsepipe n) (Reads s (Derives .pipe)) Panics s) ∧
    (∀ s, 4 * (tokens s).length + 2 ≤ n →
      wp (parseexec n) (Reads s (Derives .exec)) Panics s) ∧
    ∀ s lparen ts, 4 * (tokens s).length + 1 ≤ n → tokens s = lparen :: ts →
      lparen.kind = .lparen → wp (parseblock n) (Reads s (Derives .exec)) Panics s := by
  induction n with
  | zero =>
    refine ⟨?_, ?_, ?_, ?_⟩ <;> intros <;> omega
  | succ n ih =>
    obtain ⟨line, pipe, exec, block⟩ := ih
    refine ⟨fun s enough => ?_, fun s enough => ?_, fun s enough => ?_, ?_⟩
    · refine wp_parseline (wp_post (pipe s (by omega)) ?_)
      rintro cmd s₁ ⟨used, rest, derived⟩
      have less := congrArg List.length rest
      simp only [List.length_append] at less
      refine wp_post (parseback_sound (by omega)) ?_
      rintro cmd' s₂ ⟨amps, rest', backs⟩
      refine ⟨fun s' same _ => ⟨used ++ amps, ?_, .line derived backs⟩, ?_⟩
      · rw [rest, rest', same, List.append_assoc]
      intro semi s₃ first kind
      have fewer := congrArg List.length (rest'.trans (congrArg (amps ++ ·) first))
      simp only [List.length_append, List.length_cons] at fewer
      refine wp_post (line s₃ (by omega)) ?_
      rintro right s₄ ⟨used', last, derived'⟩
      refine ⟨used ++ amps ++ semi :: used', ?_, .list derived backs kind derived'⟩
      rw [rest, rest', first, last]
      simp
    · refine wp_parsepipe (wp_post (exec s (by omega)) ?_)
      rintro cmd s₁ ⟨used, rest, derived⟩
      refine ⟨fun s' same _ => ⟨used, by rw [rest, same], .exec derived⟩, ?_⟩
      intro bar s₂ first kind
      have fewer := congrArg List.length (rest.trans (congrArg (used ++ ·) first))
      simp only [List.length_append, List.length_cons] at fewer
      refine wp_post (pipe s₂ (by omega)) ?_
      rintro right s₃ ⟨used', last, derived'⟩
      refine ⟨used ++ bar :: used', ?_, .pipe derived kind derived'⟩
      rw [rest, first, last]
      simp
    · refine wp_parseexec (fun s' same isBlock => ?_) fun s' same _ => ?_
      · cases first : tokens s with
        | nil =>
          rw [first] at isBlock
          cases isBlock
        | cons lparen ts =>
          rw [first] at isBlock
          have law := block s' lparen ts (by rw [same]; omega) (same.trans first) isBlock
          refine wp_post law ?_
          rintro cmd s₁ ⟨used, rest, derived⟩
          exact ⟨used, same ▸ rest, derived⟩
      · rw [← same] at enough
        refine wp_post (parseredirs_sound (by omega)) ?_
        rintro rs s₁ ⟨used, rest, redirections⟩
        have less := congrArg List.length rest
        simp only [List.length_append] at less
        refine wp_post (parseargs_sound (by omega) (by decide)) ?_
        rintro cmd s₂ ⟨used', argv, rs', rest', words, few, rfl⟩
        exact ⟨used ++ used', by rw [← same, rest, rest', List.append_assoc],
          .words redirections words few⟩
    · intro s lparen ts enough first kind
      rw [first, List.length_cons] at enough
      refine wp_parseblock first kind fun s₀ start => ?_
      refine wp_post (line s₀ (by rw [start]; omega)) ?_
      rintro cmd s₁ ⟨used, rest, derived⟩
      refine ⟨fun _ => panics _, fun rparen s₂ second isRparen => ?_⟩
      have fewer := congrArg List.length (rest.trans (congrArg (used ++ ·) second))
      rw [start] at fewer
      simp only [List.length_append, List.length_cons] at fewer
      refine wp_post (parseredirs_sound (by omega)) ?_
      rintro rs s₃ ⟨used', last, redirections⟩
      refine ⟨lparen :: (used ++ rparen :: used'), ?_, .block kind derived isRparen redirections⟩
      rw [first, ← start, rest, second, last]
      simp

end Sound

/-! ### What derives from the grammar is returned -/

section Complete

variable {s : Ptr} {n : Nat} {ts rest : List Token} {rs : List Redir} {argv : List (Ptr × Ptr)}

def Returns {α : Type} (result : α) (rest : List Token) (value : α) (s' : Ptr) : Prop :=
  value = result ∧ tokens s' = rest

def Nonterminal.follow : Nonterminal → List Kind
  | .line => [.eof, .rparen]
  | .pipe => [.eof, .rparen, .amp, .semi]
  | .exec => [.eof, .rparen, .amp, .semi, .bar]

theorem not_isRedir_of_follow {kind : Kind} (follows : kind ∈ Nonterminal.exec.follow) :
    ¬ kind.isRedir := by
  revert follows
  cases kind <;> simp only [Kind.isRedir] <;> decide

theorem parseredirs_complete (derived : Redirs ts rs) (enough : ts.length < n)
    (split : tokens s = ts ++ rest) (ends : ¬ (headKind rest).isRedir) :
    wp (parseredirs n) (Returns rs rest) (fun _ => False) s := by
  induction derived generalizing n s with
  | nil =>
    obtain ⟨n, rfl⟩ : ∃ m, n = m + 1 := ⟨n - 1, by omega⟩
    have here : tokens s = rest := split
    rw [← here] at ends
    refine wp_parseredirs (fun s' same _ => ⟨rfl, same.trans split⟩) ?_ ?_
    · intro op word s' mode fd first known
      rw [first] at ends
      exact absurd (by simp [headKind, Kind.isRedir, known]) ends
    · intro op ts first isRedir
      rw [first] at ends
      exact absurd isRedir ends
  | @cons op word mode fd ts rs known isWord derived ih =>
    obtain ⟨n, rfl⟩ : ∃ m, n = m + 1 := ⟨n - 1, by omega⟩
    simp only [List.length_cons] at enough
    refine wp_parseredirs (fun s' same other => ?_) ?_ ?_
    · rw [split] at other
      exact absurd (by simp [headKind, Kind.isRedir, known]) other
    · intro op' word' s' mode' fd' first known' _
      obtain ⟨rfl, tail⟩ := List.cons.inj (first.symm.trans split)
      obtain ⟨rfl, left⟩ := List.cons.inj tail
      obtain ⟨rfl, rfl⟩ := Prod.mk.inj (Option.some.inj (known'.symm.trans known))
      refine wp_post (ih (by omega) left) ?_
      rintro rs' s'' ⟨rfl, after⟩
      exact ⟨rfl, after⟩
    · intro op' ts' first _ notWord
      rw [(List.cons.inj (first.symm.trans split)).2] at notWord
      exact notWord isWord

theorem headKind_redirs (derived : Redirs ts rs) (rest : List Token) :
    (headKind (ts ++ rest)).isRedir ∨ headKind (ts ++ rest) = headKind rest := by
  cases derived with
  | nil => exact Or.inr rfl
  | cons known => exact Or.inl (by simp [headKind, Kind.isRedir, known])

theorem headKind_words (derived : Words ts argv rs) (rest : List Token) :
    headKind (ts ++ rest) = .word ∨ headKind (ts ++ rest) = headKind rest := by
  cases derived with
  | nil => exact Or.inr rfl
  | cons isWord => exact Or.inl isWord

theorem words_not_isRedir (derived : Words ts argv rs)
    (follows : headKind rest ∈ Nonterminal.exec.follow) : ¬ (headKind (ts ++ rest)).isRedir := by
  rcases headKind_words derived rest with word | same
  · rw [word]
    simp [Kind.isRedir, Kind.redirection]
  · rw [same]
    exact not_isRedir_of_follow follows

theorem parseargs_complete (derived : Words ts argv rs) {before : List (Ptr × Ptr)}
    {redirs : List Redir} (enough : ts.length < n) (few : (before ++ argv).length < MAXARGS)
    (split : tokens s = ts ++ rest) (follows : headKind rest ∈ Nonterminal.exec.follow) :
    wp (parseargs n before redirs) (Returns (wrap (.exec (before ++ argv)) (redirs ++ rs)) rest)
      (fun _ => False) s := by
  induction derived generalizing n s before redirs with
  | nil =>
    obtain ⟨n, rfl⟩ : ∃ m, n = m + 1 := ⟨n - 1, by omega⟩
    have here : tokens s = rest := split
    rw [← here] at follows
    have notWord : headKind (tokens s) ≠ .word := by
      intro word
      rw [word] at follows
      exact absurd follows (by decide)
    refine wp_parseargs (fun s' same _ => ⟨by simp, same.trans here⟩) ?_ ?_ ?_
    · intro word s' first isWord
      rw [first] at notWord
      exact absurd isWord notWord
    · intro notEof notEnd _
      revert follows notEof notEnd
      cases headKind (tokens s) <;> simp only [Kind.endsWords] <;> decide
    · exact fun word => absurd word notWord
  | @cons word ts ts' rs rs' argv isWord redirections words ih =>
    obtain ⟨n, rfl⟩ : ∃ m, n = m + 1 := ⟨n - 1, by omega⟩
    simp only [List.length_cons, List.length_append] at enough few
    have head : headKind (tokens s) = .word := by
      rw [split]
      exact isWord
    refine wp_parseargs ?_ ?_ ?_ ?_
    · intro s' _ ended
      rw [head] at ended
      exact absurd ended (by simp [Kind.endsWords])
    · intro word' s' first _ _
      rw [List.cons_append, List.append_assoc] at split
      obtain ⟨rfl, left⟩ := List.cons.inj (first.symm.trans split)
      have notRedir := words_not_isRedir words follows
      refine wp_post (parseredirs_complete redirections (by omega) left notRedir) ?_
      rintro more s'' ⟨rfl, after⟩
      refine wp_post (ih (by omega) (by simp; omega) after) ?_
      rintro cmd s₃ ⟨rfl, last⟩
      exact ⟨by simp, last⟩
    · exact fun _ _ notWord => notWord head
    · intro _ tooMany
      omega

theorem parseback_complete {cmd cmd' : Tree} (derived : Backs cmd ts cmd') (enough : ts.length < n)
    (split : tokens s = ts ++ rest) (ends : headKind rest ≠ .amp) :
    wp (parseback n cmd) (Returns cmd' rest) (fun _ => False) s := by
  induction derived generalizing n s with
  | nil cmd =>
    obtain ⟨n, rfl⟩ : ∃ m, n = m + 1 := ⟨n - 1, by omega⟩
    refine wp_parseback (fun s' same _ => ⟨rfl, same.trans split⟩) fun amp s' first kind => ?_
    rw [show tokens s = rest from split] at first
    rw [first] at ends
    exact absurd kind ends
  | cons kind derived ih =>
    obtain ⟨n, rfl⟩ : ∃ m, n = m + 1 := ⟨n - 1, by omega⟩
    simp only [List.length_cons] at enough
    refine wp_parseback (fun s' same other => ?_) fun amp' s' first _ => ?_
    · rw [split] at other
      exact absurd kind other
    · exact ih (by omega) (List.cons.inj (first.symm.trans split)).2

def Nonterminal.parser : Nonterminal → Nat → Parser Tree
  | .line => parseline
  | .pipe => parsepipe
  | .exec => parseexec

def Nonterminal.cost : Nonterminal → Nat
  | .line => 4
  | .pipe => 3
  | .exec => 2

theorem backs_follow {cmd cmd' : Tree} {amps : List Token} (derived : Backs cmd amps cmd')
    (follows : headKind rest ∈ Nonterminal.pipe.follow) :
    headKind (amps ++ rest) ∈ Nonterminal.pipe.follow := by
  cases derived with
  | nil => exact follows
  | cons kind =>
    rw [List.cons_append, headKind, kind]
    decide

theorem parser_complete {nonterminal : Nonterminal} {cmd : Tree}
    (derived : Derives nonterminal ts cmd) (enough : 4 * ts.length + nonterminal.cost ≤ n)
    (split : tokens s = ts ++ rest) (follows : headKind rest ∈ nonterminal.follow) :
    wp (nonterminal.parser n) (Returns cmd rest) (fun _ => False) s := by
  induction derived generalizing n s rest with
  | line _ backs pipe =>
    simp only [Nonterminal.cost, List.length_append] at enough
    obtain ⟨n, rfl⟩ : ∃ m, n = m + 1 := ⟨n - 1, by omega⟩
    have follows' : headKind rest ∈ Nonterminal.pipe.follow := List.mem_append_left [_, _] follows
    rw [List.append_assoc] at split
    refine wp_parseline (wp_post (pipe (by simp only [Nonterminal.cost]; omega) split
      (backs_follow backs follows')) ?_)
    rintro cmd s₁ ⟨rfl, after⟩
    have notAmp : headKind rest ≠ .amp := by
      intro amp
      rw [amp] at follows
      exact absurd follows (by decide)
    refine wp_post (parseback_complete backs (by omega) after notAmp) ?_
    rintro cmd' s₂ ⟨rfl, here⟩
    refine ⟨fun s' same _ => ⟨rfl, same.trans here⟩, fun semi s' first kind => ?_⟩
    rw [← here, first, headKind, kind] at follows
    exact absurd follows (by decide)
  | @list ts amps ts' semi cmd cmd' right _ backs kind _ pipe line =>
    simp only [Nonterminal.cost, List.length_append, List.length_cons] at enough
    obtain ⟨n, rfl⟩ : ∃ m, n = m + 1 := ⟨n - 1, by omega⟩
    have isSemi : headKind (semi :: (ts' ++ rest)) = .semi := kind
    rw [List.append_assoc, List.append_assoc, List.cons_append] at split
    refine wp_parseline (wp_post (pipe (by simp only [Nonterminal.cost]; omega) split
      (backs_follow backs (by rw [isSemi]; decide))) ?_)
    rintro cmd s₁ ⟨rfl, after⟩
    refine wp_post (parseback_complete backs (by omega) after (by rw [isSemi]; decide)) ?_
    rintro cmd' s₂ ⟨rfl, here⟩
    refine ⟨fun s' _ other => ?_, fun semi' s' first _ => ?_⟩
    · rw [here] at other
      exact absurd isSemi other
    · have left := (List.cons.inj (first.symm.trans here)).2
      refine wp_post (line (by simp only [Nonterminal.cost]; omega) left follows) ?_
      rintro right s₃ ⟨rfl, last⟩
      exact ⟨rfl, last⟩
  | exec _ exec =>
    simp only [Nonterminal.cost] at enough
    obtain ⟨n, rfl⟩ : ∃ m, n = m + 1 := ⟨n - 1, by omega⟩
    refine wp_parsepipe (wp_post (exec (by simp only [Nonterminal.cost]; omega) split
      (List.mem_append_left [_] follows)) ?_)
    rintro cmd s₁ ⟨rfl, after⟩
    refine ⟨fun s' same _ => ⟨rfl, same.trans after⟩, fun bar s' first kind => ?_⟩
    rw [← after, first, headKind, kind] at follows
    exact absurd follows (by decide)
  | @pipe ts ts' bar left right _ kind _ exec pipe =>
    simp only [Nonterminal.cost, List.length_append, List.length_cons] at enough
    obtain ⟨n, rfl⟩ : ∃ m, n = m + 1 := ⟨n - 1, by omega⟩
    have isBar : headKind (bar :: (ts' ++ rest)) = .bar := kind
    rw [List.append_assoc, List.cons_append] at split
    refine wp_parsepipe (wp_post (exec (by simp only [Nonterminal.cost]; omega) split
      (by rw [isBar]; decide)) ?_)
    rintro cmd s₁ ⟨rfl, after⟩
    refine ⟨fun s' _ other => ?_, fun bar' s' first _ => ?_⟩
    · rw [after] at other
      exact absurd isBar other
    · have tail := (List.cons.inj (first.symm.trans after)).2
      refine wp_post (pipe (by simp only [Nonterminal.cost]; omega) tail follows) ?_
      rintro right s₂ ⟨rfl, last⟩
      exact ⟨rfl, last⟩
  | @block lparen rparen ts ts' cmd rs kind _ isRparen redirections line =>
    simp only [Nonterminal.cost, List.length_append, List.length_cons] at enough
    obtain ⟨n, rfl⟩ : ∃ m, n = m + 1 + 1 := ⟨n - 2, by omega⟩
    have isClose : headKind (rparen :: (ts' ++ rest)) = .rparen := isRparen
    rw [List.cons_append, List.append_assoc, List.cons_append] at split
    refine wp_parseexec (fun s' same _ => ?_) fun s' same other => ?_
    · refine wp_parseblock (same.trans split) kind fun s₀ start => ?_
      refine wp_post (line (by simp only [Nonterminal.cost]; omega) start
        (by rw [isClose]; decide)) ?_
      rintro cmd s₁ ⟨rfl, after⟩
      refine ⟨fun other => ?_, fun rparen' s₂ first _ => ?_⟩
      · rw [after] at other
        exact other isClose
      · have tail := (List.cons.inj (first.symm.trans after)).2
        refine wp_post (parseredirs_complete redirections (by omega) tail
          (not_isRedir_of_follow follows)) ?_
        rintro rs s₃ ⟨rfl, last⟩
        exact ⟨rfl, last⟩
    · rw [split] at other
      exact absurd kind other
  | @words ts ts' rs rs' argv redirections words few =>
    simp only [Nonterminal.cost, List.length_append] at enough
    obtain ⟨n, rfl⟩ : ∃ m, n = m + 1 := ⟨n - 1, by omega⟩
    rw [List.append_assoc] at split
    refine wp_parseexec (fun s' same isBlock => ?_) fun s' same _ => ?_
    · -- neither a redirection nor a word nor what follows is a parenthesis
      rw [split] at isBlock
      exfalso
      rcases headKind_redirs redirections (ts' ++ rest) with redir | same
      · rw [isBlock] at redir
        cases redir
      rw [same] at isBlock
      rcases headKind_words words rest with word | same
      · rw [word] at isBlock
        cases isBlock
      · rw [← same, isBlock] at follows
        exact absurd follows (by decide)
    · refine wp_post (parseredirs_complete redirections (by omega) (same.trans split)
        (words_not_isRedir words follows)) ?_
      rintro rs s₁ ⟨rfl, after⟩
      exact parseargs_complete words (by omega) few after follows

end Complete

theorem parsecmd_complete {s : Ptr} {cmd : Tree} (derived : Derives .line (tokens s) cmd) {n : Nat}
    (enough : 4 * (tokens s).length + 4 ≤ n) :
    wp (parsecmd n) (Returns cmd []) (fun _ => False) s := by
  rw [parsecmd, wp_bind]
  refine wp_post (parser_complete derived enough (List.append_nil _).symm (by decide)) ?_
  rintro cmd s₁ ⟨rfl, after⟩
  have blank := tokens_eq_nil.mp after
  simp only [wp_bind, peek, wp_get, wp_set, wp_pure]
  rw [if_pos blank, wp_pure]
  exact ⟨rfl, by rw [tokens_skip, after]⟩

theorem parsecmd_sound {s : Ptr} {n : Nat} (enough : 4 * (tokens s).length + 4 ≤ n) :
    wp (parsecmd n) (fun cmd _ => Derives .line (tokens s) cmd) Panics s := by
  rw [parsecmd, wp_bind]
  refine wp_post ((parser_sound n).1 s enough) ?_
  rintro cmd s₁ ⟨used, rest, derived⟩
  simp only [wp_bind, peek, wp_get, wp_set, wp_pure]
  split
  · rename_i blank
    rw [wp_pure, rest, tokens_eq_nil.mpr blank, List.append_nil]
    exact derived
  · exact panics _

/-- The parser returns a tree exactly for the lines of the grammar, the tree is the one of
the derivation, and it panics on every other line. -/
theorem parser_accepts_grammar (s : Ptr) : Tokenized s (tokens s) ∧ ∃ enough, ∀ n, enough ≤ n →
    (∀ cmd, (∃ s', (parsecmd n).run s = .ok (cmd, s')) ↔ Derives .line (tokens s) cmd) ∧
    ((¬ ∃ cmd, Derives .line (tokens s) cmd) → ∃ why, (parsecmd n).run s = .error (.panic why)) := by
  refine ⟨tokens_tokenized s, 4 * (tokens s).length + 4, fun n enough => ?_⟩
  have sound := parsecmd_sound enough
  refine ⟨fun cmd => ⟨?_, fun derived => ?_⟩, ?_⟩
  · rintro ⟨s', ran⟩
    have derived := wp_returned sound ran
    exact derived
  · obtain ⟨_, s', ran, rfl, -⟩ := wp_total (parsecmd_complete derived enough)
    exact ⟨s', ran⟩
  · intro none
    cases ran : (parsecmd n).run s with
    | ok result =>
      have derived := wp_returned sound ran
      exact absurd ⟨result.1, derived⟩ none
    | error why =>
      cases why with
      | panic why => exact ⟨why, rfl⟩
      | endless =>
        have panic := wp_stopped sound ran
        exact absurd rfl panic

end Xv6.Shell
