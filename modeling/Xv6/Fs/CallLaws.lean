import Xv6.Fs.PathNames

/-!
# What the calls do to the file tree

The calls of `sysfile.c` that work on names, as steps of the file tree.
-/

namespace Xv6.Fs

open Command Bytes Function

def Proper (t : Nodes) : Prop :=
  ∀ d dir k, t d = some dir → dir.type = T_DIR → k < dir.count → dir.inum k = d → d ≠ 0 →
    dir.label k = label [dot] ∨ dir.label k = label [dot, dot]

/-- What holds between calls. -/
structure Stable (sb : Superblock) (fs : State) : Prop where
  consistent : Consistent sb fs
  root : ROOTINO < sb.ninodes
  live : ∀ s, s < NINODE → 0 < (fs.itable s).ref → nodes sb fs.disk (fs.itable s).inum ≠ none
  orphans : ∀ i node, nodes sb fs.disk i = some node → node.nlink = 0 →
    ∃ s, s < NINODE ∧ 0 < (fs.itable s).ref ∧ (fs.itable s).inum = i ∧ (fs.itable s).valid = true
  ranged : Ranged sb (nodes sb fs.disk)
  proper : Proper (nodes sb fs.disk)

def DeadEnd (t : Nodes) (i : Nat) (names : List (List UInt8)) : Prop :=
  ∃ front back j, names = front ++ back ∧ resolve t i front = some j ∧ t j = none

/-- A directory with a place for a new name. -/
structure Place (dir : Node) (name : List UInt8) (k : Nat) : Prop where
  type : dir.type = T_DIR
  whole : dir.size.toNat % 16 = 0
  absent : dir.find name = none
  position : k ≤ dir.count
  free : k < dir.count → dir.inum k = 0

def Node.linked (node : Node) : Node := { node with nlink := node.nlink + 1 }

def Node.unlinked (node : Node) : Node := { node with nlink := node.nlink - 1 }

inductive Reaping (sb : Superblock) (base : State) (earlier : List (Nat × Disk)) (t : Nodes) :
    List (Nat × Disk) → Nodes → Prop
  | done : Reaping sb base earlier t earlier t
  | free {freed : List (Nat × Disk)} {t' : Nodes} {i : Nat} {node : Node} {disk : Disk}
      (before : Reaping sb base earlier t freed t') (there : t' i = some node) (unlinked : node.nlink = 0)
      (nobody : ∀ s, s < NINODE → 0 < (base.itable s).ref → (base.itable s).inum ≠ i)
      (found : nodes sb disk = t') :
      Reaping sb base earlier t ((i, disk) :: freed) (update t' i none)

def Leaves (sb : Superblock) (base : State) (hands : List Handle) (t : Nodes) (after : State) :
    Prop :=
  ∃ freed t', Reaping sb base [] t freed t' ∧ Holding sb base hands freed t' after

def SameNames (t t' : Nodes) : Prop :=
  ∀ i, (t i = none ∧ t' i = none) ∨ ∃ a b, t i = some a ∧ t' i = some b ∧
    b.type = a.type ∧ b.size = a.size ∧ b.byte = a.byte

section SameNames

variable {t t' : Nodes}

theorem sameNames_update {i : Nat} {a b : Node} (there : t i = some a) (type : b.type = a.type)
    (size : b.size = a.size) (byte : b.byte = a.byte) :
    SameNames t (update t i (some b)) := by
  intro j
  by_cases same : j = i
  · rw [same, update_self]
    exact Or.inr ⟨a, b, there, rfl, type, size, byte⟩
  · rw [update_of_ne same]
    cases here : t j with
    | none => exact Or.inl ⟨rfl, rfl⟩
    | some c => exact Or.inr ⟨c, c, rfl, rfl, rfl, rfl, rfl⟩

variable (same : SameNames t t')
include same

theorem SameNames.lookup_eq (i : Nat) (name : List UInt8) : lookup t' i name = lookup t i name := by
  rcases same i with ⟨none, none'⟩ | ⟨a, b, some, some', type, size, byte⟩
  · simp [lookup, none, none']
  · obtain ⟨-, inum, -, find⟩ := Node.same_entries size byte
    simp only [lookup, some, some', type, inum, find]

theorem SameNames.resolve_eq (i : Nat) (names : List (List UInt8)) :
    resolve t' i names = resolve t i names := by
  induction names generalizing i with
  | nil => rfl
  | cons name rest ih =>
    simp only [resolve, same.lookup_eq]
    split
    · rfl
    · exact ih _

theorem SameNames.resolveParent_eq (i : Nat) (names : List (List UInt8)) :
    resolveParent t' i names = resolveParent t i names := by
  simp only [resolveParent, same.resolve_eq]
  split
  · rfl
  · split
    · rfl
    · rename_i d _
      rcases same d with ⟨none, none'⟩ | ⟨a, b, some, some', type, -, -⟩
      · simp [none, none']
      · simp [some, some', type]

theorem SameNames.none_iff (i : Nat) : t' i = none ↔ t i = none := by
  rcases same i with ⟨none, none'⟩ | ⟨a, b, some, some', -⟩
  · simp [none, none']
  · simp [some, some']

theorem SameNames.ranged {sb : Superblock} (ranged : Ranged sb t) : Ranged sb t' := by
  intro d dir there isDir k inside
  rcases same d with ⟨none, none'⟩ | ⟨a, b, some, some', type, size, byte⟩
  · exact absurd (none'.symm.trans there) (by simp)
  · have equal := Option.some.inj (some'.symm.trans there)
    subst equal
    obtain ⟨count, inum, -, -⟩ := Node.same_entries size byte
    rw [count] at inside
    rw [inum]
    exact ranged d a some (type.symm.trans isDir) k inside

end SameNames

variable {earlier freed : List (Nat × Disk)} {names : List (List UInt8)} {node : Node}

theorem Dangles.deadEnd {t : Nodes} {i : Nat} (dangles : Dangles t i names) :
    DeadEnd t i names := by
  obtain ⟨front, back, j, split, -, leads, free⟩ := dangles
  exact ⟨front, back, j, split, leads, free⟩

theorem deadEnd_of_resolve {t : Nodes} {i j : Nat} (leads : resolve t i names = some j)
    (free : t j = none) : DeadEnd t i names :=
  ⟨names, [], j, by simp, leads, free⟩

theorem resolveParent_eq_some {t : Nodes} {i d : Nat} {name : List UInt8}
    (leads : resolveParent t i names = some (d, name)) :
    ∃ front dir, names = front ++ [name] ∧ resolve t i front = some d ∧ t d = some dir ∧
      dir.type = T_DIR := by
  unfold resolveParent at leads
  split at leads
  · exact absurd leads (by simp)
  · rename_i last isLast
    split at leads
    · exact absurd leads (by simp)
    · rename_i j reached
      split at leads
      · exact absurd leads (by simp)
      · rename_i dir there
        split at leads
        · rename_i isDir
          simp only [Option.some.injEq, Prod.mk.injEq] at leads
          obtain ⟨rfl, rfl⟩ := leads
          exact ⟨names.dropLast, dir, (List.dropLast_append_getLast? _ isLast).symm, reached, there,
            isDir⟩
        · exact absurd leads (by simp)

variable {sb : Superblock} {stop : Panic → Prop} {base fs after : State} {t : Nodes}

theorem Stable.start (stable : Stable sb fs) :
    Holding sb fs [] [] (nodes sb fs.disk) fs :=
  Holding.start stable.consistent

theorem Stable.anchored (stable : Stable sb fs) (hands : List Handle) :
    Anchored fs hands (nodes sb fs.disk) := by
  intro i node there unlinked
  obtain ⟨s, inside, inUse, number, -⟩ := stable.orphans i node there unlinked
  exact Or.inl ⟨s, inside, inUse, number⟩

theorem Stable.referred (stable : Stable sb fs) {s : Nat} (inside : s < NINODE)
    (inUse : 0 < (fs.itable s).ref) : Referred sb fs s := by
  refine ⟨inside, inUse, ?_⟩
  by_contra out
  apply stable.live s inside inUse
  rw [nodes_eq_none]
  exact fun live => out live.1

inductive Linked (t : Nodes) (start start' : Nat) (old new : List UInt8) : Nodes → Prop
  | mk {i d k : Nat} {node dir : Node} {name : List UInt8}
      (target : resolve t start (elements old) = some i) (there : t i = some node)
      (notDir : node.type ≠ T_DIR)
      (parent : resolveParent t start' (elements new) = some (d, name)) (isDir : t d = some dir)
      (place : Place dir name k) :
      Linked t start start' old new (update (update t i (some node.linked)) d
        (some (dir.put k (dirent name i))))

/-- Dropping a reference at the end of a call. -/
theorem Holding.wp_iput_reaping {hands : List Handle}
    {t t' : Nodes}
    {ip i : Nat} {loaded : Bool}
    (holding : Holding sb base (⟨ip, i, loaded⟩ :: hands) freed t' fs)
    (reaping : Reaping sb base earlier t freed t') (big : stop .tooBigTransaction)
    {post : PUnit → State → Prop}
    (left : ∀ freed' t'' after, Reaping sb base earlier t freed' t'' →
      Holding sb base hands freed' t'' after →
      (t'' = t' ∨ t'' = update t' i none) → post ⟨⟩ after) :
    wp (iput sb ip) post stop fs := by
  refine holding.wp_iput (fun _ _ _ _ _ => big) ?_
    fun after _ dropped _ => left _ _ after reaping dropped (Or.inl rfl)
  intro node after there unlinked alone _ effect
  refine left _ _ after (reaping.free there unlinked ?_ holding.nodes) effect (Or.inr rfl)
  intro s inside inUse number
  have positive : 0 < (fs.itable s).ref := by
    rw [holding.ref s inside]
    omega
  have same : s = ip := holding.slot_eq List.mem_cons_self inside positive
    ((holding.kept s inside inUse).1.trans number)
  rw [same] at inUse
  omega

theorem Reaping.there {t t' : Nodes} {j : Nat} (reaping : Reaping sb base earlier t freed t')
    (left : t' j = some node) : t j = some node := by
  induction reaping with
  | done => exact left
  | @free freed t'' i other disk _ _ _ _ _ ih =>
    by_cases same : j = i
    · rw [same, update_self] at left
      exact absurd left (by simp)
    · rw [update_of_ne same] at left
      exact ih left

/-- An inode with links is not freed. -/
theorem Reaping.linked {t t' : Nodes} {j : Nat} (reaping : Reaping sb base earlier t freed t')
    (there : t j = some node) (links : node.nlink ≠ 0) : t' j = some node := by
  induction reaping with
  | done => exact there
  | @free freed t'' i other disk _ isThere unlinked _ _ ih =>
    by_cases same : j = i
    · rw [← same, ih, Option.some.injEq] at isThere
      exact absurd (isThere ▸ unlinked) links
    · rw [update_of_ne same, ih]

theorem Reaping.trans {earlier freed later : List (Nat × Disk)} {t t' t'' : Nodes}
    (first : Reaping sb base earlier t freed t') (second : Reaping sb base freed t' later t'') :
    Reaping sb base earlier t later t'' := by
  induction second with
  | done => exact first
  | free _ there unlinked nobody found ih => exact .free ih there unlinked nobody found

theorem Reaping.eq_of_anchored {t t' : Nodes} (anchored : Anchored base [] t)
    (reaping : Reaping sb base earlier t freed t') :
    freed = earlier ∧ t' = t := by
  induction reaping with
  | done => exact ⟨rfl, rfl⟩
  | free _ there unlinked nobody _ ih =>
    obtain ⟨-, rfl⟩ := ih
    rcases anchored _ _ there unlinked with ⟨s, inside, inUse, number⟩ | ⟨h, member, -⟩
    · exact absurd number (nobody s inside inUse)
    · exact absurd member List.not_mem_nil

theorem Stable.wp_unlink_again (stable : Stable sb base) {post : Int → State → Prop} {i ip : Nat}
    {loaded : Bool} (there : nodes sb base.disk i = some node) (big : stop .tooBigTransaction)
    (holding : Holding sb base [⟨ip, i, loaded⟩] []
      (update (nodes sb base.disk) i (some node.linked)) fs)
    (undone : ∀ after, Holding sb base [] [] (nodes sb base.disk) after → post (-1) after) :
    wp (do
      ilock sb ip
      setDinode ip fun d => { d with nlink := d.nlink - 1 }
      iupdate sb ip
      iunlockput sb ip
      pure (-1)) post stop fs := by
  have isThere : update (nodes sb base.disk) i (some node.linked) i = some node.linked :=
    update_self ..
  simp only [wp_bind]
  refine holding.wp_ilock (fun free => absurd (isThere.symm.trans free) (by simp)) ?_
  intro middle _ _ loads _
  refine loads.wp_save Node.unlinked ?_ isThere big ?_
  · intro d
    exact ⟨rfl, rfl, rfl, fun _ => rfl⟩
  · intro saved restored _
    have same : update (update (nodes sb base.disk) i (some node.linked)) i
        (some node.linked.unlinked) = nodes sb base.disk := by
      have equal : node.linked.unlinked = node := by simp [Node.linked, Node.unlinked]
      rw [update_idem, equal, ← there, update_eq_self]
    rw [same] at restored
    refine restored.wp_iunlockput_anchored (stable.anchored _) ?_
    intro after dropped _
    rw [wp_pure]
    exact undone after dropped

/-- The entry that `unlink` removes. -/
structure Removable (t : Nodes) (start : Nat) (path : List UInt8) (d i k : Nat) (dir node : Node)
    (name : List UInt8) : Prop where
  parent : resolveParent t start (elements path) = some (d, name)
  isDir : t d = some dir
  proper : label name ≠ label [dot] ∧ label name ≠ label [dot, dot]
  found : dir.find name = some k
  number : dir.inum k = i
  there : t i = some node
  other : i ≠ d

def Node.without (dir : Node) (k : Nat) (isDir : Prop) [Decidable isDir] : Node :=
  if isDir then (dir.put k fun _ => 0).unlinked else dir.put k fun _ => 0

inductive Unlinks (sb : Superblock) (base : State) (start : Nat) (path : List UInt8)
    (after : State) : Prop
  | mk {d i k : Nat} {dir node : Node} {name : List UInt8} {freed freed' : List (Nat × Disk)}
      {t t' : Nodes}
      (removable : Removable (nodes sb base.disk) start path d i k dir node name)
      (links : 1 ≤ node.nlink)
      (empty : node.type = T_DIR → ∀ j, 2 ≤ j → j < node.count → node.inum j = 0)
      (first : Reaping sb base [] (update (nodes sb base.disk) d
        (some (dir.without k (node.type = T_DIR)))) freed t)
      (second : Reaping sb base freed (update t i (some node.unlinked)) freed' t')
      (left : Holding sb base [] freed' t' after)

/-- The end of `unlink`, with the entry gone. -/
theorem Removable.wp_unlink_last {path name : List UInt8} {post : Int → State → Prop}
    {start d i k dp ip : Nat} {dir node : Node}
    (removable : Removable (nodes sb base.disk) start path d i k dir node name)
    (big : stop .tooBigTransaction) (links : 1 ≤ node.nlink)
    (empty : node.type = T_DIR → ∀ j, 2 ≤ j → j < node.count → node.inum j = 0)
    (holding : Holding sb base [⟨dp, d, true⟩, ⟨ip, i, true⟩] []
      (update (nodes sb base.disk) d (some (dir.without k (node.type = T_DIR)))) fs)
    (removed : ∀ after, Unlinks sb base start path after → post 0 after) :
    wp (do
      iunlockput sb dp
      setDinode ip fun d => { d with nlink := d.nlink - 1 }
      iupdate sb ip
      iunlockput sb ip
      pure 0) post stop fs := by
  simp only [iunlockput, wp_bind]
  refine holding.wp_iunlock (holding.wp_iput_reaping .done big ?_)
  intro freed t' middle first rest trees
  have there : t' i = some node := by
    have before : update (nodes sb base.disk) d
        (some (dir.without k (node.type = T_DIR))) i = some node := by
      rw [update_of_ne removable.other, removable.there]
    rcases trees with rfl | rfl
    · exact before
    · rw [update_of_ne removable.other, before]
  refine rest.wp_save Node.unlinked ?_ there big ?_
  · intro d
    exact ⟨rfl, rfl, rfl, fun _ => rfl⟩
  intro saved fewer _
  refine fewer.wp_iunlock (fewer.wp_iput_reaping .done big ?_)
  intro freed' t'' after second left _
  rw [wp_pure]
  exact removed after (.mk removable links empty first second left)

def newNode (type major minor : Int16) : Node :=
  { freshNode type with major := major, minor := minor, nlink := 1 }

inductive NewNode (type major minor : Int16) (i d : Nat) : Node → Prop
  | plain (notDir : type ≠ T_DIR) : NewNode type major minor i d (newNode type major minor)
  | directory {k k' : Nat} (isDir : type = T_DIR)
      (self : Place (newNode type major minor) [dot] k)
      (up : Place ((newNode type major minor).put k (dirent [dot] i)) [dot, dot] k') :
      NewNode type major minor i d
        (((newNode type major minor).put k (dirent [dot] i)).put k' (dirent [dot, dot] d))

def Node.entering (dir : Node) (k : Nat) (name : List UInt8) (i : Nat) (isDir : Prop)
    [Decidable isDir] : Node :=
  if isDir then (dir.put k (dirent name i)).linked else dir.put k (dirent name i)

/-- What a `create` that makes an inode does. -/
inductive Creates (t : Nodes) (start : Nat) (path : List UInt8) (type major minor : Int16) (i : Nat) :
    Nodes → Prop
  | mk {d k : Nat} {dir new : Node} {name : List UInt8}
      (parent : resolveParent t start (elements path) = some (d, name)) (isDir : t d = some dir)
      (positive : 0 < i) (fresh : t i = none) (made : NewNode type major minor i d new)
      (place : Place dir name k) :
      Creates t start path type major minor i (update (update t i (some new)) d
        (some (dir.entering k name i (type = T_DIR))))

theorem Creates.there {t t' : Nodes} {start i : Nat} {path : List UInt8} {type major minor : Int16}
    (creates : Creates t start path type major minor i t') :
    t i = none ∧ ∃ d new, NewNode type major minor i d new ∧ t' i = some new := by
  cases creates with
  | @mk d _ _ new _ _ isDir _ fresh made _ =>
    have different : i ≠ d := by
      rintro rfl
      exact absurd (fresh.symm.trans isDir) (by simp)
    refine ⟨fresh, d, new, made, ?_⟩
    rw [update_of_ne different, update_self]

def CanCreate (sb : Superblock) (disk : Disk) (start : Nat) (path : List UInt8) : Prop :=
  ∃ d dir name, resolveParent (nodes sb disk) start (elements path) = some (d, name) ∧
    nodes sb disk d = some dir ∧ dir.find name = none ∧
    (∃ i, 0 < i ∧ i < sb.ninodes ∧ nodes sb disk i = none) ∧ dir.HasPlace sb disk d

theorem canCreate_iff {disk : Disk} {start d : Nat} {path name : List UInt8} {dir : Node}
    (parent : resolveParent (nodes sb disk) start (elements path) = some (d, name))
    (isThere : nodes sb disk d = some dir) :
    CanCreate sb disk start path ↔ dir.find name = none ∧
      (∃ i, 0 < i ∧ i < sb.ninodes ∧ nodes sb disk i = none) ∧ dir.HasPlace sb disk d := by
  constructor
  · rintro ⟨d', dir', name', leads, there, rest⟩
    simp only [parent, Option.some.injEq, Prod.mk.injEq] at leads
    obtain ⟨rfl, rfl⟩ := leads
    obtain rfl : dir' = dir := Option.some.inj (there.symm.trans isThere)
    exact rest
  · exact fun rest => ⟨d, dir, name, parent, isThere, rest⟩

theorem CanCreate.absent {disk : Disk} {start : Nat} {path : List UInt8}
    (can : CanCreate sb disk start path) :
    resolve (nodes sb disk) start (elements path) = none := by
  obtain ⟨d, dir, name, parent, isThere, free, -, -⟩ := can
  obtain ⟨front, _, split, reached, -, -⟩ := resolveParent_eq_some parent
  have missing : lookup (nodes sb disk) d name = none := by simp [lookup, isThere, free]
  rw [split, resolve_append front [name] reached, resolve, missing]

/-- What a `create` that finds a file does. -/
structure Finds (t : Nodes) (start : Nat) (path : List UInt8) (type : Int16) (i : Nat) (node : Node) :
    Prop where
  file : type = T_FILE
  target : resolve t start (elements path) = some i
  there : t i = some node
  kind : node.type = T_FILE ∨ node.type = T_DEVICE

inductive Undoes (sb : Superblock) (base : State) (after : State) : Prop
  | nothing (left : Holding sb base [] [] (nodes sb base.disk) after)
  | freed {i : Nat} {orphan : Node} {disk : Disk} (fresh : nodes sb base.disk i = none)
      (unlinked : orphan.nlink = 0)
      (found : nodes sb disk = update (nodes sb base.disk) i (some orphan))
      (left : Holding sb base [] [(i, disk)] (nodes sb base.disk) after)

theorem Stable.wp_create_fail (stable : Stable sb base) (big : stop .tooBigTransaction)
    {post : Option Nat → State → Prop} {i ip d dp : Nat} (fresh : nodes sb base.disk i = none)
    (unused : (base.itable ip).ref = 0) (alone : taken [⟨dp, d, true⟩] ip = 0)
    (holding : Holding sb base [⟨ip, i, true⟩, ⟨dp, d, true⟩] []
      (update (nodes sb base.disk) i (some node)) fs)
    (failed : ∀ after, Undoes sb base after → post none after) :
    wp (do
      setDinode ip fun d => { d with nlink := 0 }
      iupdate sb ip
      iunlockput sb ip
      iunlockput sb dp
      pure none) post stop fs := by
  simp only [wp_bind]
  refine holding.wp_save (fun node => { node with nlink := 0 }) ?_ (update_self ..) big ?_
  · intro d
    exact ⟨rfl, rfl, rfl, fun _ => rfl⟩
  intro saved orphaned _
  rw [update_idem] at orphaned
  simp only [iunlockput, wp_bind]
  refine orphaned.wp_iunlock (orphaned.wp_iput (fun _ _ _ _ _ => big) ?_ ?_)
  · intro _ middle _ _ _ _ rest
    have same : update (update (nodes sb base.disk) i
        (some { node with nlink := 0 })) i none = nodes sb base.disk := by
      rw [update_idem, ← fresh, update_eq_self]
    rw [same] at rest
    refine rest.wp_iunlock (rest.wp_iput_anchored (stable.anchored _) ?_)
    intro after left _
    rw [wp_pure]
    exact failed after (.freed fresh rfl orphaned.nodes left)
  · intro _ kept _ _
    exact absurd ⟨unused, alone⟩ (kept rfl _ (update_self ..) rfl)

section Calls

variable (stable : Stable sb base) {cwd : Nat} (here : Referred sb base cwd)
  (big : stop .tooBigTransaction) (full : stop .igetNoInodes) (partly : stop .dirlookupRead)
include stable here big full partly

/-- The law of `link`. -/
theorem Stable.wp_link {old new : List UInt8} {post : Int → State → Prop}
    (noType : DeadEnd (nodes sb base.disk) (startOf base cwd old) (elements old) ∨
      DeadEnd (nodes sb base.disk) (startOf base cwd new) (elements new) → stop .ilockNoType)
    (failed : ∀ after, Holding sb base [] [] (nodes sb base.disk) after → post (-1) after)
    (linked : ∀ t after, Linked (nodes sb base.disk) (startOf base cwd old) (startOf base cwd new)
      old new t → Leaves sb base [] t after → post 0 after) :
    wp (link sb cwd old new) post stop base := by
  simp only [link, wp_bind]
  refine stable.start.wp_namei stable.ranged (stable.anchored _) (fun _ => full) stable.root here
    (fun dangles => noType (Or.inl dangles.deadEnd)) (fun _ => partly) ?_ ?_
  · intro after _ dropped _
    rw [wp_pure]
    exact failed after dropped
  intro ip i found target holds _
  simp only [wp_bind]
  refine holds.wp_ilock (fun free => noType (Or.inl (deadEnd_of_resolve target free))) ?_
  intro locked node there loads _
  have type : (locked.itable ip).d.type = node.type := by
    rw [← loads.copy there]
    rfl
  simp only [wp_inode, type]
  split
  · simp only [wp_bind]
    refine loads.wp_iunlockput_anchored (stable.anchored _) ?_
    intro after dropped _
    rw [wp_pure]
    exact failed after dropped
  rename_i notDir
  simp only [wp_bind]
  refine loads.wp_save Node.linked ?_ there big ?_
  · intro d
    exact ⟨rfl, rfl, rfl, fun _ => rfl⟩
  intro saved more _
  have names : SameNames (nodes sb base.disk)
      (update (nodes sb base.disk) i (some node.linked)) :=
    sameNames_update there rfl rfl rfl
  have anchored : Anchored base [⟨ip, i, true⟩]
      (update (nodes sb base.disk) i (some node.linked)) :=
    (stable.anchored _).update fun _ => Or.inl ⟨_, List.mem_cons_self, rfl⟩
  refine more.wp_iunlock ?_
  refine more.wp_nameiparent (names.ranged stable.ranged) anchored (fun _ => full) stable.root here
    ?_ (fun _ => partly) ?_ ?_
  · intro dangles
    refine noType (Or.inr ?_)
    obtain ⟨front, back, j, split, -, leads, free⟩ := dangles
    rw [names.resolve_eq] at leads
    exact ⟨front, back, j, split, leads, (names.none_iff j).mp free⟩
  · intro after _ holding _
    exact stable.wp_unlink_again there big holding failed
  intro dp d name found' parent both _
  rw [names.resolveParent_eq] at parent
  obtain ⟨-, dir, -, -, isThere, isDir⟩ := resolveParent_eq_some parent
  have different : d ≠ i := by
    rintro rfl
    rw [there, Option.some.injEq] at isThere
    exact notDir (isThere ▸ isDir)
  have stillThere : update (nodes sb base.disk) i (some node.linked) d = some dir := by
    rw [update_of_ne different, isThere]
  simp only [wp_bind]
  refine both.wp_ilock (fun free => absurd (stillThere.symm.trans free) (by simp)) ?_
  intro lockedBoth _ _ loadsBoth _
  have number : (lockedBoth.itable ip).inum = i := loadsBoth.swap.number
  simp only [wp_inode, number]
  refine loadsBoth.wp_dirlink stillThere big (fun notDir => absurd isDir notDir) (fun _ => partly) full
    ?_ ?_
  · intro tried _ holding
    simp only [Int.reduceNeg, Int.reduceLT, ↓reduceIte, wp_bind]
    refine holding.wp_iunlockput_anchored anchored ?_
    intro after holds _
    exact stable.wp_unlink_again there big holds failed
  · intro k entered _ whole absent position free _ holding
    simp only [Int.lt_irrefl, ↓reduceIte, wp_bind]
    have anchored' := anchored.update fun unlinked : (dir.put k (dirent name i)).nlink = 0 =>
      Or.inr ⟨dir, stillThere, unlinked⟩
    refine holding.wp_iunlockput_anchored anchored' ?_
    intro dropped last _
    refine last.wp_iput_reaping .done big ?_
    intro freed t' after reaping left _
    simp only [wp_pure, ↓reduceIte]
    exact linked _ after (.mk target there notDir parent isThere ⟨isDir, whole, absent, position,
      free⟩) ⟨freed, t', reaping, left⟩

/-- The law of `unlink`. -/
theorem Stable.wp_unlink {path : List UInt8} {post : Int → State → Prop}
    (cut : stop .isdiremptyReadi) (short : stop .unlinkWritei)
    (noType : DeadEnd (nodes sb base.disk) (startOf base cwd path) (elements path) →
      stop .ilockNoType)
    (noLinks : ∀ d i k dir node name, Removable (nodes sb base.disk) (startOf base cwd path) path
      d i k dir node name → node.nlink < 1 → stop .unlinkNlink)
    (failed : ∀ after, Holding sb base [] [] (nodes sb base.disk) after → post (-1) after)
    (removed : ∀ after, Unlinks sb base (startOf base cwd path) path after → post 0 after) :
    wp (unlink sb cwd path) post stop base := by
  simp only [unlink, wp_bind]
  refine stable.start.wp_nameiparent stable.ranged (stable.anchored _) (fun _ => full) stable.root
    here (fun dangles => noType dangles.deadEnd) (fun _ => partly) ?_ ?_
  · intro after _ dropped _
    rw [wp_pure]
    exact failed after dropped
  intro dp d name found parent holds _
  obtain ⟨front, dir, split, reached, isThere, isDir⟩ := resolveParent_eq_some parent
  simp only [wp_bind]
  refine holds.wp_ilock (fun free => absurd (isThere.symm.trans free) (by simp)) ?_
  intro locked _ _ loads _
  simp only [namecmp_eq_zero]
  split
  · simp only [wp_bind]
    refine loads.wp_iunlockput_anchored (stable.anchored _) ?_
    intro after dropped _
    rw [wp_pure]
    exact failed after dropped
  rename_i notDots
  rw [not_or] at notDots
  simp only [wp_bind]
  refine loads.wp_dirlookup isThere (stable.ranged d dir isThere isDir)
    (fun notDir => absurd isDir notDir) (fun _ => partly) (fun _ => full) ?_ ?_
  · intro _ _ _
    simp only [wp_bind]
    refine loads.wp_iunlockput_anchored (stable.anchored _) ?_
    intro after dropped _
    rw [wp_pure]
    exact failed after dropped
  intro k ip both _ hit holdsBoth _
  obtain ⟨inside, ⟨inUse, named⟩, -⟩ := Node.find_eq_some.mp hit
  have other : dir.inum k ≠ d := by
    intro self
    rcases stable.proper d dir k isThere isDir inside self (self ▸ inUse) with isDot | isDots
    · exact notDots.1 (named.symm.trans isDot)
    · exact notDots.2 (named.symm.trans isDots)
  simp only [wp_bind]
  refine holdsBoth.wp_ilock (fun free => noType ?_) ?_
  · have target : resolve (nodes sb base.disk) (startOf base cwd path) (front ++ [name]) =
        some (dir.inum k) := by
      rw [resolve_append front [name] reached, resolve_of_some (lookup_of_find isThere isDir hit)]
      rfl
    rw [split]
    exact deadEnd_of_resolve target free
  intro lockedBoth node there loadsBoth _
  have removable : Removable (nodes sb base.disk) (startOf base cwd path) path d (dir.inum k) k dir
      node name := ⟨parent, isThere, notDots, hit, rfl, there, other⟩
  have copy := loadsBoth.copy there
  have links : (lockedBoth.itable ip).d.nlink = node.nlink := by rw [← copy]; rfl
  have type : (lockedBoth.itable ip).d.type = node.type := by rw [← copy]; rfl
  simp only [wp_inode, links]
  split
  · rename_i none
    rw [wp_throw]
    exact noLinks _ _ _ _ _ _ removable none
  rename_i some
  rw [Int16.not_lt] at some
  have position : 16 * k ≤ dir.size.toNat := Nat.le_of_lt (direntCount_spec inside)
  simp only [wp_bind, wp_inode, type]
  by_cases directory : node.type = T_DIR
  · simp only [directory, decide_true, ↓reduceIte, wp_bind, true_and]
    refine loadsBoth.wp_isdirempty there (fun _ => cut) ?_
    intro empty isEmpty
    split
    · simp only [wp_bind]
      refine loadsBoth.wp_iunlockput_anchored (stable.anchored _) ?_
      intro middle rest _
      refine rest.wp_iunlockput_anchored (stable.anchored _) ?_
      intro after dropped _
      rw [wp_pure]
      exact failed after dropped
    · rename_i notNot
      have allFree := isEmpty.mp (by simpa using notNot)
      simp only [wp_bind]
      refine loadsBoth.swap.wp_erase isThere position big ?_ ?_
      · intro written middle isShort _
        rw [if_pos isShort, wp_throw]
        exact short
      · intro middle erased
        simp only [ne_eq, not_true_eq_false, ↓reduceIte, wp_bind]
        refine erased.wp_save Node.unlinked ?_ (update_self ..) big ?_
        · intro d
          exact ⟨rfl, rfl, rfl, fun _ => rfl⟩
        intro saved fewer _
        rw [update_idem] at fewer
        have law := removable.wp_unlink_last big some (fun _ => allFree)
          (by simpa only [Node.without, directory, ↓reduceIte] using fewer) removed
        simpa only [wp_bind] using law
  · simp only [directory, decide_false, Bool.false_eq_true, ↓reduceIte, wp_bind, false_and, wp_pure]
    refine loadsBoth.swap.wp_erase isThere position big ?_ ?_
    · intro written middle isShort _
      rw [if_pos isShort, wp_throw]
      exact short
    · intro middle erased
      simp only [ne_eq, not_true_eq_false, ↓reduceIte, wp_bind]
      have law := removable.wp_unlink_last big some (fun wrong => absurd wrong directory)
        (by simpa only [Node.without, directory, ↓reduceIte] using erased) removed
      simpa only [wp_bind] using law

omit here in
/-- The end of `create`: the new inode gets its name. -/
theorem Stable.wp_create_enter {path name : List UInt8} {type major minor : Int16}
    {post : Option Nat → State → Prop} {start i ip d dp : Nat} {dir new : Node}
    (parent : resolveParent (nodes sb base.disk) start (elements path) = some (d, name))
    (isThere : nodes sb base.disk d = some dir) (isDir : dir.type = T_DIR) (positive : 0 < i)
    (range : i < sb.ninodes) (fresh : nodes sb base.disk i = none)
    (unused : (base.itable ip).ref = 0) (alone : taken [⟨dp, d, true⟩] ip = 0)
    (made : NewNode type major minor i d new)
    (same : type ≠ T_DIR → SameBlocks sb base.disk fs.disk)
    (holding : Holding sb base [⟨ip, i, true⟩, ⟨dp, d, true⟩] []
      (update (nodes sb base.disk) i (some new)) fs)
    (failed : ∀ after, (type ≠ T_DIR → ¬ CanCreate sb base.disk start path) →
      Undoes sb base after → post none after)
    (created : ∀ t after, Creates (nodes sb base.disk) start path type major minor i t →
      (type ≠ T_DIR → CanCreate sb base.disk start path) → Leaves sb base [⟨ip, i, true⟩] t after → post (some ip) after) :
    wp (do
      let entered ← dirlink sb dp name i
      if entered < 0 then
        setDinode ip fun d => { d with nlink := 0 }
        iupdate sb ip
        iunlockput sb ip
        iunlockput sb dp
        pure none
      else if type = T_DIR then
        setDinode dp fun d => { d with nlink := d.nlink + 1 }
        iupdate sb dp
        iunlockput sb dp
        pure (some ip)
      else
        iunlockput sb dp
        pure (some ip)) post stop fs := by
  have different : d ≠ i := by
    rintro rfl
    exact absurd (fresh.symm.trans isThere) (by simp)
  have stillThere : update (nodes sb base.disk) i (some new) d = some dir := by
    rw [update_of_ne different, isThere]
  -- An inode without entries has taken no block, so the directory finds what was free before.
  have able : type ≠ T_DIR → (CanCreate sb base.disk start path ↔
      dir.find name = none ∧ dir.HasPlace sb fs.disk d) := by
    intro plain
    rw [canCreate_iff parent isThere, Node.HasPlace, Node.HasPlace, (same plain).extensible_iff]
    exact ⟨fun can => ⟨can.1, can.2.2⟩, fun can => ⟨can.1, ⟨i, positive, range, fresh⟩, can.2⟩⟩
  rw [wp_bind]
  refine holding.swap.wp_dirlink stillThere big (fun notDir => absurd isDir notDir) (fun _ => partly)
    full ?_ ?_
  · intro tried reason rest
    simp only [Int.reduceNeg, Int.reduceLT, ↓reduceIte]
    refine stable.wp_create_fail big fresh unused alone rest.swap fun after => failed after ?_
    intro plain can
    obtain ⟨absent, space⟩ := (able plain).mp can
    rcases reason with present | noPlace
    · exact present absent
    · exact noPlace space
  · intro k entered _ whole absent position free space rest
    have can : type ≠ T_DIR → CanCreate sb base.disk start path :=
      fun plain => (able plain).mpr ⟨absent, space⟩
    have place : Place dir name k := ⟨isDir, whole, absent, position, free⟩
    have effect := Creates.mk parent isThere positive fresh made place
    simp only [Int.lt_irrefl, ↓reduceIte]
    split
    · rename_i directory
      simp only [iunlockput, wp_bind]
      refine rest.wp_save Node.linked ?_ (update_self ..) big ?_
      · intro d
        exact ⟨rfl, rfl, rfl, fun _ => rfl⟩
      intro saved more _
      rw [update_idem] at more
      refine more.wp_iunlock (more.wp_iput_reaping .done big ?_)
      intro freed t' after reaping left _
      rw [wp_pure]
      refine created _ after effect can ⟨freed, t', ?_, left⟩
      rw [Node.entering, if_pos directory]
      exact reaping
    · rename_i plain
      simp only [iunlockput, wp_bind]
      refine rest.wp_iunlock (rest.wp_iput_reaping .done big ?_)
      intro freed t' after reaping left _
      rw [wp_pure]
      refine created _ after effect can ⟨freed, t', ?_, left⟩
      rw [Node.entering, if_neg plain]
      exact reaping

theorem Stable.wp_create {path : List UInt8} {type major minor : Int16} (typed : type ≠ 0)
    {post : Option Nat → State → Prop}
    (noType : DeadEnd (nodes sb base.disk) (startOf base cwd path) (elements path) →
      stop .ilockNoType)
    (failed : ∀ after,
      (type ≠ T_DIR → ¬ CanCreate sb base.disk (startOf base cwd path) path) →
      Undoes sb base after → post none after)
    (existing : ∀ ip i node after,
      Finds (nodes sb base.disk) (startOf base cwd path) path type i node →
      Holding sb base [⟨ip, i, true⟩] [] (nodes sb base.disk) after → post (some ip) after)
    (created : ∀ ip i t after,
      Creates (nodes sb base.disk) (startOf base cwd path) path type major minor i t →
      (base.itable ip).ref = 0 →
      (type ≠ T_DIR → CanCreate sb base.disk (startOf base cwd path) path) →
      Leaves sb base [⟨ip, i, true⟩] t after → post (some ip) after) :
    wp (create sb cwd path type major minor) post stop base := by
  simp only [create, wp_bind]
  refine stable.start.wp_nameiparent stable.ranged (stable.anchored _) (fun _ => full) stable.root
    here (fun dangles => noType dangles.deadEnd) (fun _ => partly) ?_ ?_
  · intro after missing dropped _
    rw [wp_pure]
    refine failed after (fun _ => ?_) (.nothing dropped)
    rintro ⟨_, _, _, leads, -⟩
    exact absurd (missing.symm.trans leads) (by simp)
  intro dp d name found parent holds foundSame
  obtain ⟨front, dir, split, reached, isThere, isDir⟩ := resolveParent_eq_some parent
  simp only [wp_bind]
  refine holds.wp_ilock (fun free => absurd (isThere.symm.trans free) (by simp)) ?_
  intro locked _ _ loads lockedSame
  refine loads.wp_dirlookup isThere (stable.ranged d dir isThere isDir)
    (fun notDir => absurd isDir notDir) (fun _ => partly) (fun _ => full) ?_ ?_
  · intro _ whole absent
    simp only [wp_bind]
    refine loads.wp_ialloc typed stable.live ?_ big full ?_ ?_
    · intro h member
      rw [List.mem_singleton.mp member]
      simp [isThere]
    · intro none
      simp only [wp_bind]
      refine loads.wp_iunlockput_anchored (stable.anchored _) ?_
      intro after dropped _
      rw [wp_pure]
      refine failed after (fun _ => ?_) (.nothing dropped)
      rintro ⟨_, _, _, -, -, -, ⟨i, positive, range, free⟩, -⟩
      exact none i positive range free
    intro i ip allocated positive range fresh unused alone holdsBoth allocatedSame
    simp only [wp_bind]
    refine holdsBoth.wp_ilock
      (fun free => absurd ((update_self ..).symm.trans free) (by simp)) ?_
    intro lockedBoth _ _ loadsBoth lockedBothSame
    refine loadsBoth.wp_save (fun node => { node with major := major, minor := minor, nlink := 1 })
      ?_ (update_self ..) big ?_
    · intro d
      exact ⟨rfl, rfl, rfl, fun _ => rfl⟩
    intro saved made savedSame
    rw [update_idem] at made
    have same : SameBlocks sb base.disk saved.disk :=
      ((SameBlocks.of_eq (lockedSame.trans foundSame)).trans allocatedSame).trans
        ((SameBlocks.of_eq lockedBothSame).trans savedSame)
    have finish : ∀ {new current}, NewNode type major minor i d new →
        (type ≠ T_DIR → SameBlocks sb base.disk current.disk) →
        Holding sb base [⟨ip, i, true⟩, ⟨dp, d, true⟩] []
          (update (nodes sb base.disk) i (some new)) current → _ :=
      fun shape same holding => stable.wp_create_enter big full partly parent isThere isDir positive
        range fresh unused alone shape same holding failed fun t after effect can left =>
          created ip i t after effect unused can left
    have undo : ∀ {node fs}, type = T_DIR →
        Holding sb base [⟨ip, i, true⟩, ⟨dp, d, true⟩] []
          (update (nodes sb base.disk) i (some node)) fs → _ :=
      fun directory holding => stable.wp_create_fail big fresh unused alone holding
        fun after => failed after fun plain => absurd directory plain
    by_cases directory : type = T_DIR
    · simp only [directory, ↓reduceIte, wp_bind, wp_inode, made.number]
      refine made.wp_dirlink (update_self ..) big (fun notDir => absurd directory notDir)
        (fun _ => partly) full ?_ ?_
      · intro tried _ rest
        simp only [Int.reduceNeg, Int.reduceLT, ↓reduceIte, wp_bind, wp_pure, Bool.false_eq_true]
        have law := undo directory rest
        simpa only [wp_bind, wp_pure] using law
      intro k withDot _ wholeSelf absentSelf positionSelf freeSelf _ dotted
      rw [update_idem] at dotted
      simp only [Int.lt_irrefl, ↓reduceIte, wp_bind, wp_inode, dotted.swap.number]
      refine dotted.wp_dirlink (update_self ..) big (fun notDir => absurd directory notDir)
        (fun _ => partly) full ?_ ?_
      · intro tried _ rest
        simp only [Int.reduceNeg, Int.reduceLT, ↓reduceIte, wp_bind, wp_pure, Bool.false_eq_true]
        have law := undo directory rest
        simpa only [wp_bind, wp_pure] using law
      intro k' withBoth _ wholeUp absentUp positionUp freeUp _ dots
      rw [update_idem] at dots
      have law := finish (.directory directory
        ⟨directory, wholeSelf, absentSelf, positionSelf, freeSelf⟩
        ⟨directory, wholeUp, absentUp, positionUp, freeUp⟩) (fun plain => absurd directory plain)
        dots
      simp only [directory, Int.lt_irrefl, ↓reduceIte, wp_bind, wp_pure, Bool.true_eq_false, wp_inode,
        dots.number] at law ⊢
      exact law
    · have law := finish (.plain directory) (fun _ => same) made
      simp only [directory, ↓reduceIte, wp_bind, wp_pure, Bool.true_eq_false, wp_inode,
        made.number] at law ⊢
      exact law
  · intro k ip both _ hit holdsBoth _
    have target : resolve (nodes sb base.disk) (startOf base cwd path) (elements path) =
        some (dir.inum k) := by
      rw [split, resolve_append front [name] reached,
        resolve_of_some (lookup_of_find isThere isDir hit)]
      rfl
    simp only [wp_bind]
    refine holdsBoth.swap.wp_iunlockput_anchored (stable.anchored _) ?_
    intro middle rest _
    refine rest.wp_ilock (fun free => noType (deadEnd_of_resolve target free)) ?_
    intro lockedThere node there loadsThere _
    have kind : (lockedThere.itable ip).d.type = node.type := by
      rw [← loadsThere.copy there]
      rfl
    simp only [wp_inode, kind]
    split
    · rename_i fits
      rw [wp_pure]
      exact existing ip _ node _ ⟨fits.1, target, there, fits.2⟩ loadsThere
    · simp only [wp_bind]
      refine loadsThere.wp_iunlockput_anchored (stable.anchored _) ?_
      intro after dropped _
      rw [wp_pure]
      refine failed after (fun _ can => ?_) (.nothing dropped)
      exact absurd (target.symm.trans can.absent) (by simp)

end Calls

end Xv6.Fs
