/-!
Decimal integers as text. A natural number is written by `Nat.repr` and read back by `natural?`;
`unsigned?` and `signed?` add an optional sign and the limits of a machine word of 64 bits. Any
number of leading zeros is read, and nothing beside ASCII digits counts as a digit.
-/

namespace ClauseLearning.Text

/-- The number that a non-empty run of digits stands for; anything else is refused. -/
def natural? (text : List Char) : Option Nat :=
  if text ≠ [] ∧ text.all Char.isDigit then some (Nat.ofDigitChars 10 text 0) else none

/-- An unsigned machine word, with at most one plus sign before it. -/
def unsigned? : List Char → Option Nat
  | '+' :: digits => (natural? digits).filter (· < UInt64.size)
  | digits => (natural? digits).filter (· < UInt64.size)

/-- A machine word in two's complement, with at most one sign before it. -/
def signed? : List Char → Option Int
  | '-' :: digits => ((natural? digits).filter (· ≤ UInt64.size / 2)).map fun n : Nat => -(n : Int)
  | '+' :: digits => ((natural? digits).filter (· < UInt64.size / 2)).map Int.ofNat
  | digits => ((natural? digits).filter (· < UInt64.size / 2)).map Int.ofNat

/-- The text of an integer: a minus sign for a negative one, then its digits. -/
def integer (x : Int) : String :=
  if x < 0 then "-" ++ x.natAbs.repr else x.natAbs.repr

/-- Reading the digits of a number gives the number. -/
theorem natural?_repr (n : Nat) : natural? n.repr.toList = some n := by
  have nonempty : Nat.toDigits 10 n ≠ [] := Nat.toDigits_ne_nil
  have digits : (Nat.toDigits 10 n).all Char.isDigit = true :=
    List.all_eq_true.2 fun _ h => Nat.isDigit_of_mem_toDigits (by decide) (by decide) h
  simp only [Nat.toList_repr, natural?, nonempty, digits, ne_eq, not_false_eq_true, and_self,
    if_true, Nat.ofDigitChars_ten_toDigits]

end ClauseLearning.Text
