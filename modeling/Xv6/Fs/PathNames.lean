import Xv6.Fs.Holding

/-!
# Path names

What a path means: it is cut into its elements, and each element is looked up in the directory
that the elements before it lead to.
-/

namespace Xv6.Fs

open Command Bytes

def elements (path : List UInt8) : List (List UInt8) :=
  ((path.splitOn slash).filter (· ≠ [])).map (·.take DIRSIZ)

def lookup (t : Nodes) (i : Nat) (name : List UInt8) : Option Nat :=
  match t i with
  | none => none
  | some dir => if dir.type = T_DIR then (dir.find name).map dir.inum else none

def resolve (t : Nodes) : Nat → List (List UInt8) → Option Nat
  | i, [] => some i
  | i, name :: rest =>
    match lookup t i name with
    | none => none
    | some j => resolve t j rest

def resolveParent (t : Nodes) (i : Nat) (names : List (List UInt8)) :
    Option (Nat × List UInt8) :=
  match names.getLast? with
  | none => none
  | some name =>
    match resolve t i names.dropLast with
    | none => none
    | some d =>
      match t d with
      | none => none
      | some dir => if dir.type = T_DIR then some (d, name) else none

def Dangles (t : Nodes) (i : Nat) (names : List (List UInt8)) : Prop :=
  ∃ front back j, names = front ++ back ∧ back ≠ [] ∧ resolve t i front = some j ∧ t j = none

def Cut (t : Nodes) (i : Nat) (names : List (List UInt8)) : Prop :=
  ∃ front back j dir, names = front ++ back ∧ back ≠ [] ∧ resolve t i front = some j ∧
    t j = some dir ∧ dir.type = T_DIR ∧ dir.size.toNat % 16 ≠ 0

def Scarce (base : State) (hands : List Handle) : Prop :=
  ∃ last, ∀ s, s < NINODE → (base.itable s).ref = 0 → s = last ∨ 0 < taken hands s

/-- Where a path begins. -/
def startOf (base : State) (cwd : Nat) (path : List UInt8) : Nat :=
  if path.head? = some slash then ROOTINO else (base.itable cwd).inum

structure Referred (sb : Superblock) (base : State) (s : Nat) : Prop where
  slot : s < NINODE
  ref : 0 < (base.itable s).ref
  range : (base.itable s).inum < sb.ninodes

def Ranged (sb : Superblock) (t : Nodes) : Prop :=
  ∀ d dir, t d = some dir → dir.type = T_DIR → ∀ k, k < dir.count → dir.inum k < sb.ninodes

/-! ## Elements -/

theorem head_of_dropWhile {drops : UInt8 → Bool} {path rest : List UInt8} {byte : UInt8}
    (left : path.dropWhile drops = byte :: rest) : drops byte = false := by
  have stops := List.head?_dropWhile_not drops path
  rwa [left] at stops

theorem splitOn_slash (path : List UInt8) :
    path.splitOn slash = path.takeWhile (· ≠ slash) ::
      (match path.dropWhile (· ≠ slash) with
      | [] => []
      | _ :: rest => rest.splitOn slash) := by
  induction path with
  | nil => rfl
  | cons byte path ih =>
    rw [List.splitOn, List.splitOnP_cons_eq_if_modifyHead, ← List.splitOn]
    by_cases isSlash : byte = slash
    · simp [isSlash]
    · rw [ih]
      simp [isSlash]

theorem elements_slash (path : List UInt8) : elements (slash :: path) = elements path := by
  rw [elements, splitOn_slash]
  simp [elements]

theorem elements_dropWhile (path : List UInt8) :
    elements (path.dropWhile (· = slash)) = elements path := by
  induction path with
  | nil => rfl
  | cons byte path ih =>
    by_cases isSlash : byte = slash
    · rw [List.dropWhile_cons_of_pos (by simpa using isSlash), ih, isSlash, elements_slash]
    · rw [List.dropWhile_cons_of_neg (by simpa using isSlash)]

variable {path : List UInt8}

theorem elements_word {byte : UInt8} (word : byte ≠ slash) :
    elements (byte :: path) = ((byte :: path).takeWhile (· ≠ slash)).take DIRSIZ ::
      elements ((byte :: path).dropWhile (· ≠ slash)) := by
  have first : (byte :: path).takeWhile (· ≠ slash) ≠ [] := by simp [word]
  rw [elements, splitOn_slash, List.filter_cons_of_pos (by simpa using first), List.map_cons]
  congr 1
  cases left : (byte :: path).dropWhile (· ≠ slash) with
  | nil => rfl
  | cons next rest =>
    have isSlash : next = slash := by simpa using head_of_dropWhile left
    rw [isSlash, elements_slash]
    rfl

theorem elements_eq_nil_iff :
    elements (path.dropWhile (· = slash)) = [] ↔ path.dropWhile (· = slash) = [] := by
  cases start : path.dropWhile (· = slash) with
  | nil => simp [elements]
  | cons byte rest =>
    have word : byte ≠ slash := by simpa using head_of_dropWhile start
    simp [elements_word word]

theorem elements_of_skipelem_none (done : skipelem path = none) :
    elements path = [] := by
  rw [← elements_dropWhile]
  unfold skipelem at done
  split at done
  · rename_i empty
    rw [empty]
    rfl
  · exact absurd done (by simp)

theorem elements_of_skipelem {path name rest : List UInt8}
    (next : skipelem path = some (name, rest)) :
    elements path = name :: elements rest ∧ rest.length < path.length ∧
      (rest = [] ↔ elements rest = []) := by
  have shorter : (path.dropWhile (· = slash)).length ≤ path.length := (List.dropWhile_sublist _).length_le
  rw [← elements_dropWhile path]
  unfold skipelem at next
  cases start : path.dropWhile (· = slash) with
  | nil => simp [start] at next
  | cons byte tail =>
    have word : byte ≠ slash := by simpa using head_of_dropWhile start
    rw [start] at next shorter
    simp only [Option.some.injEq, Prod.mk.injEq] at next
    obtain ⟨rfl, rfl⟩ := next
    rw [elements_word word, elements_dropWhile]
    refine ⟨rfl, ?_, ?_⟩
    · have first : ((byte :: tail).dropWhile (· ≠ slash)).length ≤ tail.length := by
        rw [List.dropWhile_cons_of_pos (by simpa using word)]
        exact (List.dropWhile_sublist _).length_le
      have second : (((byte :: tail).dropWhile (· ≠ slash)).dropWhile (· = slash)).length ≤
          ((byte :: tail).dropWhile (· ≠ slash)).length := (List.dropWhile_sublist _).length_le
      rw [List.length_cons] at shorter
      omega
    · rw [← elements_dropWhile, elements_eq_nil_iff]

/-! ## Resolution -/

section Resolution

variable {t : Nodes} {i j : Nat} {name : List UInt8} {names : List (List UInt8)} {dir : Node}

theorem lookup_of_find {k : Nat} (there : t i = some dir) (isDir : dir.type = T_DIR)
    (found : dir.find name = some k) : lookup t i name = some (dir.inum k) := by
  simp [lookup, there, isDir, found]

theorem lookup_of_absent (there : t i = some dir) (absent : dir.find name = none) :
    lookup t i name = none := by
  simp [lookup, there, absent]

theorem lookup_of_not_dir (there : t i = some dir) (notDir : dir.type ≠ T_DIR) :
    lookup t i name = none := by
  simp [lookup, there, notDir]

theorem resolve_of_none (missing : lookup t i name = none) : resolve t i (name :: names) = none := by
  simp [resolve, missing]

theorem resolve_of_some (found : lookup t i name = some j) :
    resolve t i (name :: names) = resolve t j names := by
  simp [resolve, found]

theorem resolve_append (front back : List (List UInt8)) (reached : resolve t i front = some j) :
    resolve t i (front ++ back) = resolve t j back := by
  induction front generalizing i with
  | nil =>
    rw [resolve, Option.some.injEq] at reached
    rw [reached, List.nil_append]
  | cons name rest ih =>
    rw [resolve] at reached
    split at reached
    · exact absurd reached (by simp)
    · rename_i next found
      rw [List.cons_append, resolve_of_some found, ih reached]

theorem resolveParent_nil : resolveParent t i [] = none := rfl

theorem resolveParent_of_none (more : names ≠ []) (missing : lookup t i name = none) :
    resolveParent t i (name :: names) = none := by
  unfold resolveParent
  rw [List.dropLast_cons_of_ne_nil more, resolve_of_none missing]
  split <;> rfl

theorem resolveParent_of_not_dir (there : t i = some dir) (notDir : dir.type ≠ T_DIR) :
    resolveParent t i (name :: names) = none := by
  cases names with
  | nil => simp [resolveParent, resolve, there, notDir]
  | cons next rest =>
    exact resolveParent_of_none (by simp) (lookup_of_not_dir there notDir)

theorem resolveParent_last (there : t i = some dir) (isDir : dir.type = T_DIR) :
    resolveParent t i [name] = some (i, name) := by
  simp [resolveParent, resolve, there, isDir]

theorem resolveParent_of_some (more : names ≠ []) (found : lookup t i name = some j) :
    resolveParent t i (name :: names) = resolveParent t j names := by
  simp [resolveParent, List.dropLast_cons_of_ne_nil more, resolve_of_some found,
    List.getLast?_cons_of_ne_nil more]

theorem Dangles.here (free : t i = none) (more : names ≠ []) : Dangles t i names :=
  ⟨[], names, i, rfl, more, rfl, free⟩

theorem Dangles.cons (found : lookup t i name = some j) (dangles : Dangles t j names) :
    Dangles t i (name :: names) := by
  obtain ⟨front, back, last, rfl, more, leads, free⟩ := dangles
  exact ⟨name :: front, back, last, rfl, more, by rw [resolve_of_some found, leads], free⟩

theorem Cut.here (there : t i = some dir) (isDir : dir.type = T_DIR) (more : names ≠ [])
    (partly : dir.size.toNat % 16 ≠ 0) : Cut t i names :=
  ⟨[], names, i, dir, rfl, more, rfl, there, isDir, partly⟩

theorem Cut.cons (found : lookup t i name = some j) (cut : Cut t j names) :
    Cut t i (name :: names) := by
  obtain ⟨front, back, last, dir, rfl, more, leads, rest⟩ := cut
  exact ⟨name :: front, back, last, dir, rfl, more, by rw [resolve_of_some found, leads], rest⟩

theorem Crowded.scarce {base : State} {hands : List Handle} {h : Handle}
    (crowded : Crowded base (h :: hands)) : Scarce base hands := by
  refine ⟨h.slot, fun s inside unused => ?_⟩
  have taken := crowded s inside unused
  rw [taken_cons] at taken
  split at taken
  · rename_i same
    exact Or.inl same.symm
  · exact Or.inr (by omega)

end Resolution

section Namex

variable {sb : Superblock} {stop : Panic → Prop} {base fs : State} {hands : List Handle}
  {freed : List (Nat × Disk)} {t : Nodes}
  (ranged : Ranged sb t) (anchored : Anchored base hands t)
  (full : Scarce base hands → stop .igetNoInodes)
include ranged anchored full

variable {post : Option (Nat × List UInt8) → State → Prop} {path : List UInt8}

/-- The rounds of `namex` follow the elements of the path. -/
theorem Holding.wp_namexRounds (parent : Bool)
    {rounds ip i : Nat} {loaded : Bool} {path last : List UInt8} (enough : path.length < rounds)
    (holding : Holding sb base (⟨ip, i, loaded⟩ :: hands) freed t fs)
    (dangling : Dangles t i (elements path) → stop .ilockNoType)
    (partly : Cut t i (elements path) → stop .dirlookupRead)
    (missing : ∀ after, (parent = true → resolveParent t i (elements path) = none) →
      (parent = false → resolve t i (elements path) = none) →
      Holding sb base hands freed t after → after.disk = fs.disk → post none after)
    (found : ∀ jp j name after, (parent = true → resolveParent t i (elements path) = some (j, name)) →
      (parent = false → resolve t i (elements path) = some j) →
      Holding sb base (⟨jp, j, false⟩ :: hands) freed t after → after.disk = fs.disk →
      post (some (jp, name)) after) :
    wp (namexRounds sb parent rounds ip path last) post stop fs := by
  induction rounds generalizing ip i loaded path last fs with
  | zero => exact absurd enough (Nat.not_lt_zero _)
  | succ rounds ih =>
    unfold namexRounds
    split
    · rename_i done
      have empty := elements_of_skipelem_none done
      rw [empty] at missing found
      split
      · rename_i isParent
        rw [wp_bind]
        refine holding.wp_iput_anchored anchored ?_
        intro after dropped same
        rw [wp_pure]
        refine missing after (fun _ => resolveParent_nil) (fun wrong => ?_) dropped same
        exact absurd (isParent.symm.trans wrong) (by simp)
      · rename_i notParent
        rw [wp_pure]
        exact found ip i last fs (fun isParent => absurd isParent notParent) (fun _ => rfl)
          holding.unload rfl
    · rename_i name rest next
      obtain ⟨split, shorter, emptyIff⟩ := elements_of_skipelem next
      rw [split] at missing found dangling partly
      rw [wp_bind]
      refine holding.wp_ilock (fun free => dangling (Dangles.here free (by simp))) ?_
      intro middle dir there loads sameLocked
      rw [← sameLocked] at missing found
      have copy := loads.copy there
      have type : (middle.itable ip).d.type = dir.type := by
        rw [← copy]
        rfl
      simp only [wp_bind, wp_inode, type]
      split
      · rename_i notDir
        simp only [wp_bind]
        refine loads.wp_iunlockput_anchored anchored ?_
        intro after dropped same
        rw [wp_pure]
        exact missing after (fun _ => resolveParent_of_not_dir there notDir)
          (fun _ => resolve_of_none (lookup_of_not_dir there notDir)) dropped same
      · rename_i notNot
        have isDir : dir.type = T_DIR := not_not.mp notNot
        split
        · rename_i atLast
          obtain ⟨isParent, noRest⟩ := atLast
          have noMore := emptyIff.mp noRest
          simp only [wp_bind]
          refine loads.wp_iunlock ?_
          rw [wp_pure]
          refine found ip i name middle (fun _ => ?_) (fun wrong => ?_) loads.unload rfl
          · rw [noMore]
            exact resolveParent_last there isDir
          · exact absurd (isParent.symm.trans wrong) (by simp)
        · rename_i notLast
          have more : parent = true → elements rest ≠ [] :=
            fun isParent none => notLast ⟨isParent, emptyIff.mpr none⟩
          simp only [wp_bind]
          refine loads.wp_dirlookup there (ranged i dir there isDir)
            (fun notDir => absurd isDir notDir)
            (fun cut => partly (.here there isDir (by simp) cut))
            (fun crowded => full crowded.scarce) ?_ ?_
          · intro _ _ absent
            have nothing : lookup t i name = none := lookup_of_absent there absent
            simp only [wp_bind]
            refine loads.wp_iunlockput_anchored anchored ?_
            intro after dropped same
            rw [wp_pure]
            exact missing after (fun isParent => resolveParent_of_none (more isParent) nothing)
              (fun _ => resolve_of_none nothing) dropped same
          · intro k jp holdsBoth _ hit both sameBoth
            have leads : lookup t i name = some (dir.inum k) := lookup_of_find there isDir hit
            simp only [wp_bind]
            refine both.swap.wp_iunlockput_anchored (anchored.cons _) ?_
            intro after holdsNext sameNext
            rw [← sameBoth, ← sameNext] at missing found
            refine ih (by omega) holdsNext (fun dangles => dangling (dangles.cons leads))
              (fun cut => partly (cut.cons leads)) ?_ ?_
            · intro final none none' dropped same
              refine missing final (fun isParent => ?_) (fun notParent => ?_) dropped same
              · rw [resolveParent_of_some (more isParent) leads, none isParent]
              · rw [resolve_of_some leads, none' notParent]
            · intro lp l last' final some some' holdsLast same
              refine found lp l last' final (fun isParent => ?_) (fun notParent => ?_) holdsLast same
              · rw [resolveParent_of_some (more isParent) leads, some isParent]
              · rw [resolve_of_some leads, some' notParent]

variable (root : ROOTINO < sb.ninodes) {cwd : Nat} (here : Referred sb base cwd)
include root here

theorem Holding.wp_namex (parent : Bool)
    (holding : Holding sb base hands freed t fs)
    (dangling : Dangles t (startOf base cwd path) (elements path) → stop .ilockNoType)
    (partly : Cut t (startOf base cwd path) (elements path) → stop .dirlookupRead)
    (missing : ∀ after,
      (parent = true → resolveParent t (startOf base cwd path) (elements path) = none) →
      (parent = false → resolve t (startOf base cwd path) (elements path) = none) →
      Holding sb base hands freed t after → after.disk = fs.disk → post none after)
    (found : ∀ jp j name after,
      (parent = true → resolveParent t (startOf base cwd path) (elements path) = some (j, name)) →
      (parent = false → resolve t (startOf base cwd path) (elements path) = some j) →
      Holding sb base (⟨jp, j, false⟩ :: hands) freed t after → after.disk = fs.disk →
      post (some (jp, name)) after) :
    wp (namex sb cwd path parent) post stop fs := by
  have rounds : ∀ ip after, Holding sb base (⟨ip, startOf base cwd path, false⟩ :: hands) freed t
      after → after.disk = fs.disk →
      wp (namexRounds sb parent (path.length + 1) ip path []) post stop after := by
    intro ip after taken same
    rw [← same] at missing found
    exact taken.wp_namexRounds ranged anchored full parent (Nat.lt_succ_self _) dangling partly
      missing found
  rw [namex]
  by_cases absolute : path.head? = some slash
  · rw [if_pos absolute, wp_bind]
    refine holding.wp_iget root (fun crowded => full ⟨0, ?_⟩) ?_
    · intro s inside unused
      exact Or.inr (crowded s inside unused)
    intro ip after taken same
    refine rounds ip after ?_ same
    rw [startOf, if_pos absolute]
    exact taken
  · rw [if_neg absolute, wp_bind]
    refine holding.wp_idup here.slot here.ref here.range ?_
    intro after taken same
    refine rounds cwd after ?_ same
    rw [startOf, if_neg absolute]
    exact taken

theorem Holding.wp_namei {post : Option Nat → State → Prop}
    (holding : Holding sb base hands freed t fs)
    (dangling : Dangles t (startOf base cwd path) (elements path) → stop .ilockNoType)
    (partly : Cut t (startOf base cwd path) (elements path) → stop .dirlookupRead)
    (missing : ∀ after, resolve t (startOf base cwd path) (elements path) = none →
      Holding sb base hands freed t after → after.disk = fs.disk → post none after)
    (found : ∀ ip i after, resolve t (startOf base cwd path) (elements path) = some i →
      Holding sb base (⟨ip, i, false⟩ :: hands) freed t after → after.disk = fs.disk →
      post (some ip) after) :
    wp (namei sb cwd path) post stop fs := by
  rw [namei, wp_bind]
  refine holding.wp_namex ranged anchored full root here false dangling partly ?_ ?_
  · intro after _ none dropped same
    rw [wp_pure]
    exact missing after (none rfl) dropped same
  · intro ip i name after _ leads taken same
    rw [wp_pure]
    exact found ip i after (leads rfl) taken same

theorem Holding.wp_nameiparent
    (holding : Holding sb base hands freed t fs)
    (dangling : Dangles t (startOf base cwd path) (elements path) → stop .ilockNoType)
    (partly : Cut t (startOf base cwd path) (elements path) → stop .dirlookupRead)
    (missing : ∀ after, resolveParent t (startOf base cwd path) (elements path) = none →
      Holding sb base hands freed t after → after.disk = fs.disk → post none after)
    (found : ∀ dp d name after,
      resolveParent t (startOf base cwd path) (elements path) = some (d, name) →
      Holding sb base (⟨dp, d, false⟩ :: hands) freed t after → after.disk = fs.disk →
      post (some (dp, name)) after) :
    wp (nameiparent sb cwd path) post stop fs := by
  rw [nameiparent]
  refine holding.wp_namex ranged anchored full root here true dangling partly ?_ ?_
  · intro after none _ dropped same
    exact missing after (none rfl) dropped same
  · intro dp d name after leads _ taken same
    exact found dp d name after (leads rfl) taken same

end Namex

end Xv6.Fs
