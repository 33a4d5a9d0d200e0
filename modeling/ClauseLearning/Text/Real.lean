import ClauseLearning.Text.Integer

/-!
Reading floating-point numbers: decimal digits with an optional point and an optional power of
ten, and the names of the values that have no digits. The number read is the nearest one there is.
-/

namespace ClauseLearning.Text

/-- The digits at the start of a text, and the rest. -/
def leadingDigits (text : List Char) : List Char × List Char :=
  text.span Char.isDigit

/-- An integer with an optional sign and no limit. -/
def exponent? : List Char → Option Int
  | '-' :: digits => (natural? digits).map fun n => -(n : Int)
  | '+' :: digits => (natural? digits).map Int.ofNat
  | digits => (natural? digits).map Int.ofNat

/-- `mantissa * 10 ^ power`, without computing powers that are far out of range. -/
def decimalFloat (mantissa digits : Nat) (power : Int) : Float :=
  if mantissa = 0 ∨ power + digits < -400 then 0.0
  else if 400 < power then 1.0 / 0.0
  else Float.ofScientific mantissa (power < 0) power.natAbs

/-- A number without sign: digits around an optional point, then an optional power of ten. -/
def decimal? (text : List Char) : Option Float :=
  let (whole, rest) := leadingDigits text
  let (fraction, rest) := match rest with
    | '.' :: after => leadingDigits after
    | _ => ([], rest)
  let digits := whole ++ fraction
  let mantissa := Nat.ofDigitChars 10 digits 0
  let power? := match rest with
    | [] => some 0
    | c :: after => if c = 'e' ∨ c = 'E' then exponent? after else none
  if digits = [] then none
  else power?.map fun power =>
    decimalFloat mantissa digits.length (power - (fraction.length : Int))

/-- A number without sign, by digits or by name; names may be in any case. -/
def unsignedReal? (text : List Char) : Option Float :=
  match decimal? text with
  | some x => some x
  | none =>
    let name := String.ofList (text.map Char.toLower)
    if name = "inf" ∨ name = "infinity" then some (1.0 / 0.0)
    else if name = "nan" then some (0.0 / 0.0)
    else none

/-- A number with an optional sign. -/
def real? : List Char → Option Float
  | '-' :: rest => (unsignedReal? rest).map fun x => -x
  | '+' :: rest => unsignedReal? rest
  | text => unsignedReal? text

end ClauseLearning.Text
