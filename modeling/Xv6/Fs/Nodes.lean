import Xv6.Fs.Entries

/-!
# The file tree without its blocks

What a user of the file system can see of it: for every inode number the fields and the contents
of the inode, if it is allocated.
-/

namespace Xv6.Fs

open Command Bytes Ownership Function

/-- An allocated inode without its block addresses. -/
structure Node where
  type : Int16
  major : Int16
  minor : Int16
  nlink : Int16
  size : UInt32
  byte : Nat → UInt8

abbrev Nodes := Nat → Option Node

def Dinode.node (d : Dinode) (byte : Nat → UInt8) : Node :=
  ⟨d.type, d.major, d.minor, d.nlink, d.size, byte⟩

/-- The file tree on a disk. -/
def nodes (sb : Superblock) (disk : Disk) : Nodes := fun i =>
  if Live sb (dinodeOf sb disk) i then some ((dinodeOf sb disk i).node (fileByte sb disk i)) else none

def Node.entry (node : Node) (k : Nat) : ByteMap := fun j => node.byte (16 * k + j)

def Node.inum (node : Node) (k : Nat) : Nat := direntInum (node.entry k)

def Node.label (node : Node) (k : Nat) : List UInt8 := Fs.label (direntName (node.entry k))

/-- The number of entries. -/
def Node.count (node : Node) : Nat := direntCount node.size

def Node.find (node : Node) (name : List UInt8) : Option Nat :=
  (List.range node.count).find? fun k => node.inum k ≠ 0 ∧ node.label k = Fs.label name

/-- Write the `k`th entry. -/
def Node.put (node : Node) (k : Nat) (record : ByteMap) : Node :=
  { node with
    size := UInt32.ofNat (max node.size.toNat (16 * k + 16))
    byte := fun b => if 16 * k ≤ b ∧ b < 16 * k + 16 then record (b - 16 * k) else node.byte b }

theorem Node.find_eq_none {node : Node} {name : List UInt8} :
    node.find name = none ↔
      ∀ k, k < node.count → ¬ (node.inum k ≠ 0 ∧ node.label k = Fs.label name) := by
  simp [Node.find, List.find?_eq_none]

theorem Node.find_eq_some {node : Node} {name : List UInt8} {k : Nat} :
    node.find name = some k ↔ k < node.count ∧ (node.inum k ≠ 0 ∧ node.label k = Fs.label name) ∧
      ∀ j, j < k → ¬ (node.inum j ≠ 0 ∧ node.label j = Fs.label name) := by
  simp only [Node.find, List.find?_range_eq_some, List.mem_range, decide_eq_true_eq,
    Bool.not_eq_true', decide_eq_false_iff_not]
  tauto

theorem Node.same_entries {a b : Node} (size : b.size = a.size) (byte : b.byte = a.byte) :
    b.count = a.count ∧ b.inum = a.inum ∧ b.label = a.label ∧ b.find = a.find := by
  have entry : b.entry = a.entry := by
    funext k j
    rw [Node.entry, byte, Node.entry]
  have count : b.count = a.count := by rw [Node.count, size, Node.count]
  have inum : b.inum = a.inum := by
    funext k
    rw [Node.inum, entry, Node.inum]
  have label : b.label = a.label := by
    funext k
    rw [Node.label, entry, Node.label]
  refine ⟨count, inum, label, ?_⟩
  funext name
  rw [Node.find, Node.find, count, inum, label]

variable {sb : Superblock} {fs after : State} {ip inum : Nat} {disk : Disk} {i : Nat}

theorem nodes_of_live (live : Live sb (dinodeOf sb disk) i) :
    nodes sb disk i = some ((dinodeOf sb disk i).node (fileByte sb disk i)) :=
  if_pos live

theorem nodes_eq_none : nodes sb disk i = none ↔ ¬ Live sb (dinodeOf sb disk) i := by
  simp [nodes]

theorem nodes_eq_some {node : Node} :
    nodes sb disk i = some node ↔ Live sb (dinodeOf sb disk) i ∧
      (dinodeOf sb disk i).node (fileByte sb disk i) = node := by
  simp [nodes]

theorem nodes_congr {disk' : Disk}
    (same : i < sb.ninodes → dinodeOf sb disk' i = dinodeOf sb disk i)
    (bytes : ∀ k, fileByte sb disk' i k = fileByte sb disk i k) :
    nodes sb disk' i = nodes sb disk i := by
  have lives : Live sb (dinodeOf sb disk') i ↔ Live sb (dinodeOf sb disk) i := by
    refine and_congr_right fun range => ?_
    rw [same range]
  by_cases live : Live sb (dinodeOf sb disk) i
  · rw [nodes_of_live live, nodes_of_live (lives.mpr live), same live.1, funext bytes]
  · rw [nodes_eq_none.mpr live, nodes_eq_none.mpr fun other => live (lives.mp other)]

theorem Rewritten.nodes {d : Dinode} {contents : Nat → UInt8} (locked : Locked fs ip)
    (rewritten : Rewritten sb fs ip d contents after) :
    Fs.nodes sb after.disk =
      update (Fs.nodes sb fs.disk) (fs.itable ip).inum (some (d.node contents)) := by
  have entry : after.itable ip = { fs.itable ip with d := d } := by
    rw [rewritten.slot, update_self]
  have live : Live sb (dinodeOf sb after.disk) (fs.itable ip).inum := by
    have cached := rewritten.consistent.cached ip locked.slot
    rw [entry] at cached
    exact (cached locked.ref locked.valid).1
  funext i
  by_cases own : i = (fs.itable ip).inum
  · have contents' : fileByte sb after.disk (fs.itable ip).inum = contents := by
      funext k
      rw [rewritten.bytes, if_pos rfl]
    rw [own, update_self, nodes_of_live live, rewritten.dinode, contents']
  · rw [update_of_ne own]
    refine nodes_congr (fun range => rewritten.dinodes i range own) fun k => ?_
    rw [rewritten.bytes, if_neg own]

theorem Freed.nodes (freed : Freed sb fs ip after) :
    Fs.nodes sb after.disk = update (Fs.nodes sb fs.disk) (fs.itable ip).inum none := by
  funext i
  by_cases own : i = (fs.itable ip).inum
  · rw [own, update_self, nodes_eq_none, Live, freed.dinode]
    exact fun live => live.2 rfl
  · rw [update_of_ne own]
    refine nodes_congr (fun range => freed.dinodes i range own) fun k => ?_
    rw [freed.bytes, if_neg own]

def freshNode (type : Int16) : Node := ⟨type, 0, 0, 0, 0, fun _ => 0⟩

theorem fileByte_of_dead (dead : ¬ Live sb (dinodeOf sb disk) i) (k : Nat) :
    fileByte sb disk i k = 0 := by
  have none : pointers sb disk (dinodeOf sb disk) (i, blockPointer (k / BSIZE)) = none := by
    simp [pointers, dead]
  simp only [fileByte, byteOf, none]

theorem Made.nodes {type : Int16} (made : Made sb fs type inum ip after) (typed : type ≠ 0) :
    Fs.nodes sb fs.disk inum = none ∧
      Fs.nodes sb after.disk =
        update (Fs.nodes sb fs.disk) inum (some (freshNode type)) := by
  have dead : ¬ Live sb (dinodeOf sb fs.disk) inum := fun live => live.2 made.free
  have disk : after.disk = putDinode sb fs.disk inum { Dinode.zero with type := type } :=
    made.got.disk
  refine ⟨nodes_eq_none.mpr dead, ?_⟩
  funext i
  by_cases own : i = inum
  · have live : Live sb (dinodeOf sb after.disk) inum := by
      rw [Live, disk, dinodeOf_putDinode_same]
      exact ⟨made.range, typed⟩
    have contents : fileByte sb after.disk inum = fun _ => 0 := by
      funext k
      rw [made.bytes, fileByte_of_dead dead]
    rw [own, update_self, nodes_of_live live, contents, disk, dinodeOf_putDinode_same]
    rfl
  · rw [update_of_ne own]
    refine nodes_congr (fun _ => ?_) (made.bytes i)
    rw [disk, dinodeOf_putDinode_of_ne _ own]

theorem Locked.node (consistent : Consistent sb fs) (locked : Locked fs ip) :
    Fs.nodes sb fs.disk (fs.itable ip).inum =
      some ((fs.itable ip).d.node (fileByte sb fs.disk (fs.itable ip).inum)) := by
  rw [nodes_of_live (locked.live consistent), locked.copy consistent]

end Xv6.Fs
