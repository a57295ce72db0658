import Mathlib.Algebra.GroupWithZero.Nat
import Mathlib.Algebra.Ring.Int.Defs

/-!
# Machine words

Addresses, page table entries and register contents are words.
-/

namespace OreOS.Lib

abbrev Word := BitVec 64

abbrev Byte := BitVec 8

end OreOS.Lib
