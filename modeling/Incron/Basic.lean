import Mathlib.Data.List.Basic
import Mathlib.Data.Nat.Notation

/-! Strings and numbers of the C++ code. -/
namespace Incron

/-- A `std::string`; a byte is the character with its code. -/
abbrev Str := List Char

end Incron
