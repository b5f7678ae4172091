import Mathlib.Data.BitVec

/-!
# Machine integers

The fixed-width types of `include/kernel/common.h`. All are unsigned bit
vectors: arithmetic wraps as the C code's does, and a signed reading is taken
where the source takes one.
-/

set_option autoImplicit false

namespace BlessOS.Source

abbrev U8 := BitVec 8
abbrev U16 := BitVec 16
abbrev U32 := BitVec 32

/-- Searching a list of words compares them one by one. -/
instance decidableMemWords (x : U32) (words : List U32) : Decidable (x ∈ words) :=
  List.instDecidableMemOfLawfulBEq x words

end BlessOS.Source
