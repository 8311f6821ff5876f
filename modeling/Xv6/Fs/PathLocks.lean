import Xv6.Fs.FreshImage

/-!
# Path lookup with inode locks

The walk of `namex` again, with the sleep locks of the inodes that it takes and releases.
-/

namespace Xv6.Fs.Locking

open Command Bytes

inductive Halt where
  | panic (reason : Panic)
  | deadlock
  deriving DecidableEq, Repr

structure Walk where
  fs : State
  held : List Nat

abbrev LockM := Cmd Walk Halt

def unlocked {α : Type} (command : FsM α) : LockM α :=
  zoom ⟨Walk.fs, fun fs walk => { walk with fs := fs }, fun _ _ => rfl, fun _ => rfl,
    fun _ _ _ => rfl⟩ .panic command

def acquiresleep (ip : Nat) : LockM PUnit := do
  if ip ∈ (← get).held then throw .deadlock
  else modify fun walk => { walk with held := ip :: walk.held }

def releasesleep (ip : Nat) : LockM PUnit :=
  modify fun walk => { walk with held := walk.held.erase ip }

def ilock (sb : Superblock) (ip : Nat) : LockM PUnit := do
  if (← unlocked (inode ip)).ref < 1 then throw (.panic .ilock)
  else
    acquiresleep ip
    unlocked (Fs.ilock sb ip)

def iunlock (ip : Nat) : LockM PUnit := do
  if ip ∉ (← get).held ∨ (← unlocked (inode ip)).ref < 1 then throw (.panic .iunlock)
  else releasesleep ip

def iput (sb : Superblock) (ip : Nat) : LockM PUnit := do
  let entry ← unlocked (inode ip)
  if entry.ref = 1 ∧ entry.valid ∧ entry.d.nlink = 0 then
    acquiresleep ip
    unlocked (ifree sb ip)
    releasesleep ip
  unlocked (setInode ip fun inode => { inode with ref := inode.ref - 1 })

def iunlockput (sb : Superblock) (ip : Nat) : LockM PUnit := do
  iunlock ip
  iput sb ip

def namexRounds (sb : Superblock) (nameiparent : Bool) :
    Nat → Nat → List UInt8 → List UInt8 → LockM (Option (Nat × List UInt8))
  | 0, _, _, _ => pure none
  | rounds + 1, ip, path, last =>
    match skipelem path with
    | none =>
      if nameiparent then do
        iput sb ip
        pure none
      else pure (some (ip, last))
    | some (name, rest) => do
      ilock sb ip
      if (← unlocked (inode ip)).d.type ≠ T_DIR then
        iunlockput sb ip
        pure none
      else if nameiparent ∧ rest = [] then
        iunlock ip
        pure (some (ip, name))
      else
        match ← unlocked (dirlookup sb ip name) with
        | none =>
          iunlockput sb ip
          pure none
        | some (next, _) =>
          iunlockput sb ip
          namexRounds sb nameiparent rounds next rest name

def namex (sb : Superblock) (cwd : Nat) (path : List UInt8) (nameiparent : Bool) :
    LockM (Option (Nat × List UInt8)) := do
  let ip ← unlocked (if path.head? = some slash then iget ROOTINO else idup cwd)
  namexRounds sb nameiparent (path.length + 1) ip path []

def namei (sb : Superblock) (cwd : Nat) (path : List UInt8) : LockM (Option Nat) := do
  pure ((← namex sb cwd path false).map Prod.fst)

def nameiparent (sb : Superblock) (cwd : Nat) (path : List UInt8) :
    LockM (Option (Nat × List UInt8)) :=
  namex sb cwd path true

/-! ## Forgetting the locks -/

variable {sb : Superblock} {halt : Halt → Prop} {fs : State} {held : List Nat} {ip : Nat}

@[simp] theorem wp_unlocked {α : Type} (command : FsM α) (post : α → Walk → Prop) (walk : Walk) :
    wp (unlocked command) post halt walk ↔
      wp command (fun value after => post value { walk with fs := after })
        (fun reason => halt (.panic reason)) walk.fs :=
  wp_zoom ..

theorem wp_ilock (free : ip ∉ held) (post : PUnit → Walk → Prop) :
    wp (ilock sb ip) post halt ⟨fs, held⟩ ↔
      wp (Fs.ilock sb ip) (fun value after => post value ⟨after, ip :: held⟩)
        (fun reason => halt (.panic reason)) fs := by
  simp only [ilock, Fs.ilock, acquiresleep, wp_bind, wp_unlocked, wp_inode]
  split
  · simp only [wp_throw]
  · rename_i counted
    simp only [wp_bind, wp_get, free, ↓reduceIte, wp_modify, wp_unlocked, wp_inode, counted]

theorem wp_iunlock (mine : ip ∈ held) (post : PUnit → Walk → Prop) :
    wp (iunlock ip) post halt ⟨fs, held⟩ ↔
      wp (Fs.iunlock ip) (fun value after => post value ⟨after, held.erase ip⟩)
        (fun reason => halt (.panic reason)) fs := by
  simp only [iunlock, Fs.iunlock, releasesleep, wp_bind, wp_unlocked, wp_inode, wp_get, mine,
    not_true_eq_false, false_or]
  split
  · simp only [wp_throw]
  · simp only [wp_modify, wp_pure]

theorem wp_iput (free : ip ∉ held) (post : PUnit → Walk → Prop) :
    wp (iput sb ip) post halt ⟨fs, held⟩ ↔
      wp (Fs.iput sb ip) (fun value after => post value ⟨after, held⟩)
        (fun reason => halt (.panic reason)) fs := by
  simp only [iput, Fs.iput, acquiresleep, releasesleep, wp_bind, wp_unlocked, wp_inode]
  split
  · simp [wp_bind, wp_get, free, wp_unlocked]
  · simp only [wp_unlocked]

theorem wp_iunlockput (post : PUnit → Walk → Prop) :
    wp (iunlockput sb ip) post halt ⟨fs, [ip]⟩ ↔
      wp (Fs.iunlockput sb ip) (fun value after => post value ⟨after, []⟩)
        (fun reason => halt (.panic reason)) fs := by
  simp only [iunlockput, Fs.iunlockput, wp_bind]
  rw [wp_iunlock (List.mem_singleton.mpr rfl)]
  simp only [List.erase_cons_head, wp_iput List.not_mem_nil]

theorem wp_namexRounds (parent : Bool) {rounds : Nat} {path last : List UInt8}
    {post : Option (Nat × List UInt8) → Walk → Prop}
    (law : wp (Fs.namexRounds sb parent rounds ip path last) (fun value after => post value ⟨after, []⟩)
      (fun reason => halt (.panic reason)) fs) :
    wp (namexRounds sb parent rounds ip path last) post halt ⟨fs, []⟩ := by
  induction rounds generalizing fs ip path last with
  | zero =>
    rw [Fs.namexRounds, wp_pure] at law
    rw [namexRounds, wp_pure]
    exact law
  | succ rounds ih =>
    unfold Fs.namexRounds at law
    unfold namexRounds
    split
    · rename_i done
      simp only [done] at law
      split
      · rename_i isParent
        simp only [isParent, ↓reduceIte, wp_bind, wp_pure] at law
        simp only [wp_bind, wp_pure, wp_iput List.not_mem_nil]
        exact law
      · rename_i notParent
        simp only [notParent, Bool.false_eq_true, ↓reduceIte, wp_pure] at law
        rw [wp_pure]
        exact law
    · rename_i name rest next
      simp only [next, wp_bind] at law
      simp only [wp_bind]
      rw [wp_ilock List.not_mem_nil]
      refine wp_post law ?_
      intro _ middle law
      simp only [wp_unlocked, wp_inode] at law ⊢
      split
      · rename_i notDir
        rw [if_pos notDir] at law
        simp only [wp_bind, wp_pure, wp_iunlockput] at law ⊢
        exact law
      · rename_i isDir
        rw [if_neg isDir] at law
        split
        · rename_i atLast
          rw [if_pos atLast] at law
          simp only [wp_bind, wp_pure, wp_iunlock (List.mem_singleton.mpr rfl),
            List.erase_cons_head] at law ⊢
          exact law
        · rename_i notLast
          rw [if_neg notLast] at law
          simp only [wp_bind, wp_unlocked] at law ⊢
          refine wp_post law ?_
          intro outcome found law
          cases outcome with
          | none =>
            simp only [wp_bind, wp_pure, wp_iunlockput] at law ⊢
            exact law
          | some result =>
            simp only [wp_bind, wp_iunlockput] at law ⊢
            refine wp_post law ?_
            intro _ after law
            exact ih law

theorem wp_namex {cwd : Nat} {path : List UInt8} (parent : Bool)
    {post : Option (Nat × List UInt8) → Walk → Prop}
    (law : wp (Fs.namex sb cwd path parent) (fun value after => post value ⟨after, []⟩)
      (fun reason => halt (.panic reason)) fs) :
    wp (namex sb cwd path parent) post halt ⟨fs, []⟩ := by
  rw [Fs.namex] at law
  rw [namex, wp_bind, wp_unlocked]
  by_cases absolute : path.head? = some slash
  · rw [if_pos absolute, wp_bind] at law
    rw [if_pos absolute]
    exact wp_post law fun _ _ rounds => wp_namexRounds parent rounds
  · rw [if_neg absolute, wp_bind] at law
    rw [if_neg absolute]
    exact wp_post law fun _ _ rounds => wp_namexRounds parent rounds

theorem wp_namei {cwd : Nat} {path : List UInt8} {post : Option Nat → Walk → Prop}
    (law : wp (Fs.namei sb cwd path) (fun value after => post value ⟨after, []⟩)
      (fun reason => halt (.panic reason)) fs) :
    wp (namei sb cwd path) post halt ⟨fs, []⟩ := by
  rw [Fs.namei, wp_bind] at law
  rw [namei, wp_bind]
  refine wp_namex false (wp_post law ?_)
  intro outcome after returned
  rwa [wp_pure] at returned ⊢

/-! ## What the walk returns -/

structure Returns (sb : Superblock) (fs : State) (target slot : Option Nat) (after : Walk) :
    Prop where
  number : slot.map (fun ip => (after.fs.itable ip).inum) = target
  inside : ∀ ip, slot = some ip → ip < NINODE
  ref : ∀ s, s < NINODE →
    (after.fs.itable s).ref = (fs.itable s).ref + if slot = some s then 1 else 0
  tree : nodes sb after.fs.disk = nodes sb fs.disk
  unlocked : after.held = []

inductive Stops (sb : Superblock) (fs : State) (start : Nat) (names : List (List UInt8)) :
    Halt → Prop
  | full (scarce : ∃ last, ∀ s, s < NINODE → (fs.itable s).ref = 0 → s = last) :
      Stops sb fs start names (.panic .igetNoInodes)
  | free (dangles : Dangles (nodes sb fs.disk) start names) :
      Stops sb fs start names (.panic .ilockNoType)
  | cut (partly : Cut (nodes sb fs.disk) start names) :
      Stops sb fs start names (.panic .dirlookupRead)

theorem returns_none {after : State} (holding : Holding sb fs [] [] (nodes sb fs.disk) after) :
    Returns sb fs none none ⟨after, []⟩ := by
  refine ⟨rfl, by simp, ?_, holding.nodes, rfl⟩
  intro s inside
  simp [holding.ref s inside]

theorem returns_some {after : State} {i : Nat}
    (holding : Holding sb fs [⟨ip, i, false⟩] [] (nodes sb fs.disk) after) :
    Returns sb fs (some i) (some ip) ⟨after, []⟩ := by
  refine ⟨by simp [holding.number], ?_, ?_, holding.nodes, rfl⟩
  · intro slot same
    rw [← Option.some.inj same]
    exact holding.slot
  · intro s inside
    rw [holding.ref s inside, taken_cons]
    by_cases same : ip = s <;> simp [same]

/-- A path is resolved element by element, from the root or the current directory. -/
theorem path_resolution (sb : Superblock) (fs : State) (cwd : Nat) (path : List UInt8)
    (stable : Stable sb fs) (slot : cwd < NINODE) (inUse : 0 < (fs.itable cwd).ref) :
    wp (namei sb cwd path)
      (fun result after => Returns sb fs
        (resolve (nodes sb fs.disk) (startOf fs cwd path) (elements path)) result after)
      (Stops sb fs (startOf fs cwd path) (elements path)) ⟨fs, []⟩ ∧
    wp (nameiparent sb cwd path)
      (fun result after => ∃ target, target =
          resolveParent (nodes sb fs.disk) (startOf fs cwd path) (elements path) ∧
        Returns sb fs (target.map Prod.fst) (result.map Prod.fst) after ∧
        result.map Prod.snd = target.map Prod.snd)
      (Stops sb fs (startOf fs cwd path) (elements path)) ⟨fs, []⟩ := by
  have here := stable.referred slot inUse
  have full : Scarce fs [] → Stops sb fs (startOf fs cwd path) (elements path)
      (.panic .igetNoInodes) := by
    rintro ⟨last, scarce⟩
    refine .full ⟨last, fun s inside unused => ?_⟩
    simpa using scarce s inside unused
  constructor
  · refine wp_namei ?_
    refine stable.start.wp_namei stable.ranged (stable.anchored _) full stable.root here
      .free .cut ?_ ?_
    · intro after missing dropped _
      rw [missing]
      exact returns_none dropped
    · intro ip i after found taken _
      rw [found]
      exact returns_some taken
  · rw [nameiparent]
    refine wp_namex true ?_
    refine stable.start.wp_namex stable.ranged (stable.anchored _) full stable.root here true
      .free .cut ?_ ?_
    · intro after missing _ dropped _
      exact ⟨none, (missing rfl).symm, returns_none dropped, rfl⟩
    · intro dp d name after found _ taken _
      exact ⟨some (d, name), (found rfl).symm, returns_some taken, rfl⟩

/-- The path `/./..` in a new file system. -/
theorem path_resolution_root :
    wp (namei (freshSuperblock 0) 0 [slash, dot, slash, dot, dot])
      (fun result after => Returns (freshSuperblock 0)
        (freshState 0 0) (some ROOTINO) result after)
      (Stops (freshSuperblock 0) (freshState 0 0) ROOTINO
        [[dot], [dot, dot]]) ⟨freshState 0 0, []⟩ := by
  have leads : resolve (nodes (freshSuperblock 0) (freshState 0 0).disk)
      ROOTINO [[dot], [dot, dot]] = some ROOTINO := by
    decide +kernel
  rw [← leads]
  exact (path_resolution _ (freshState 0 0) 0 [slash, dot, slash, dot, dot]
    fresh_stable (by decide) (by decide)).1

end Xv6.Fs.Locking
