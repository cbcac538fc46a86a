import Mathlib.Data.List.Basic

/-! Byte strings as the C++ standard library sees them in the "C" locale. -/
namespace Koko.Lib
abbrev Byte := UInt8
abbrev Bytes := List Byte

/-- The byte of a narrow character literal. -/
def chr (c : Char) : Byte := UInt8.ofNat c.toNat

/-- The bytes of a narrow string literal. -/
def ascii (s : String) : Bytes := s.toList.map chr

/-- `std::isspace`: space, tab, line feed, vertical tab, form feed, carriage return. -/
def isSpace (c : Byte) : Bool := c = chr ' ' ∨ (9 ≤ c ∧ c ≤ 13)

end Koko.Lib
