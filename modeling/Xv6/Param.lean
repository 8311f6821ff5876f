import Xv6.Library.Bytes

/-!
# Kernel parameters and the disk

The constants of `param.h` and `fs.h` under their own names, and the disk as a map from block
numbers to blocks.
-/

namespace Xv6

abbrev MAXOPBLOCKS : Nat := 10

abbrev LOGBLOCKS : Nat := MAXOPBLOCKS * 3

abbrev NBUF : Nat := MAXOPBLOCKS * 3

/-- Bytes in a block. -/
abbrev BSIZE : Nat := 1024

abbrev Block := Bytes.ByteMap

abbrev Disk := Nat → Block

end Xv6
