import Mathlib.Data.BitVec

/-!
# Machine words of the target

The examples are built for 32-bit ARM: `int`, `long`, `size_t` and
pointers are 32 bits wide, plain `char` is unsigned, and `uint64_t` and
`loff_t` are 64 bits wide. Words are bit vectors; a signed reading of one
is `BitVec.toInt`.
-/

namespace Goldfish

abbrev U8 := BitVec 8

abbrev U32 := BitVec 32

abbrev U64 := BitVec 64

abbrev Mem := U32 → U8

end Goldfish
