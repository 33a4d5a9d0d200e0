/-!
Binary floating-point numbers as decimal text, from their exact value. `fixed` rounds to a number
of places, a tie going to the even neighbour; `shortest` writes the fewest digits that no other
number is nearer to, always in positional notation, a tie going away from zero.
-/

namespace ClauseLearning.Text

/-- A non-negative rational number that a binary format can hold: `mantissa * 2 ^ exponent`. -/
structure Magnitude where
  /-- The significand. -/
  mantissa : Nat
  /-- The power of two. -/
  exponent : Int
  deriving DecidableEq

namespace Magnitude

/-- Numerator and denominator of the number in units of `10 ^ (-places)`. -/
def scaled (d : Magnitude) (places : Int) : Nat × Nat :=
  (d.mantissa * Nat.pow 2 d.exponent.toNat * Nat.pow 10 places.toNat,
    Nat.pow 2 (-d.exponent).toNat * Nat.pow 10 (-places).toNat)

/-- Whether the number is no larger than `digits * 10 ^ (-places)`. -/
def atMost (d : Magnitude) (digits : Nat) (places : Int) : Bool :=
  let (numerator, denominator) := d.scaled places
  numerator ≤ digits * denominator

/-- Whether the number is no smaller than `digits * 10 ^ (-places)`. -/
def atLeast (d : Magnitude) (digits : Nat) (places : Int) : Bool :=
  let (numerator, denominator) := d.scaled places
  digits * denominator ≤ numerator

end Magnitude

/-- The quotient rounded to the nearest integer, a tie going to the even one. -/
def divideToEven (numerator denominator : Nat) : Nat :=
  let quotient := numerator / denominator
  let twice := 2 * (numerator % denominator)
  if twice < denominator then quotient
  else if denominator < twice then quotient + 1
  else quotient + quotient % 2

/-- The quotient rounded to the nearest integer, a tie going up. -/
def divideHalfUp (numerator denominator : Nat) : Nat :=
  (2 * numerator + denominator) / (2 * denominator)

/-- What a binary floating-point number is. -/
inductive Binary where
  /-- Not a number. -/
  | nan
  /-- An infinity. -/
  | infinite (negative : Bool)
  /-- A sign, a magnitude, and whether the magnitude is the first of its power of two. -/
  | finite (negative : Bool) (magnitude : Magnitude) (atPower : Bool)

/-- The smallest significand with all of its 53 bits. -/
def firstSignificand : Nat :=
  Nat.pow 2 52

/-- The number that the bits of a double stand for. -/
def Binary.ofBits (bits : Nat) : Binary :=
  let negative := bits.testBit 63
  let biased := bits / firstSignificand % 2048
  let fraction := bits % firstSignificand
  if biased = 2047 then
    if fraction = 0 then .infinite negative else .nan
  else if biased = 0 then .finite negative ⟨fraction, -1074⟩ false
  else .finite negative ⟨firstSignificand + fraction, (biased : Int) - 1075⟩
    (fraction = 0 ∧ 1 < biased)

/-- The number that a double stands for. -/
def Binary.ofFloat (x : Float) : Binary :=
  .ofBits x.toBits.toNat

/-- The digits of `n` with a point before the last `places` of them. -/
def pointed (n places : Nat) : String :=
  let digits := n.repr
  let padded := "".pushn '0' (places + 1 - digits.length) ++ digits
  if places = 0 then padded
  else String.ofList (padded.toList.take (padded.length - places)) ++ "."
    ++ String.ofList (padded.toList.drop (padded.length - places))

/-- The text of a sign. -/
def minus (negative : Bool) : String :=
  if negative then "-" else ""

/-- A number with exactly `places` digits after the point, rounded from its exact value. -/
def fixed (places : Nat) (x : Float) : String :=
  match Binary.ofFloat x with
  | .nan => "NaN"
  | .infinite negative => minus negative ++ "inf"
  | .finite negative magnitude _ =>
    let (numerator, denominator) := magnitude.scaled places
    minus negative ++ pointed (divideToEven numerator denominator) places

/-- Half the distance to the neighbours: the numbers that round to a magnitude lie between the
two. -/
def neighbourhood (magnitude : Magnitude) (atPower : Bool) : Magnitude × Magnitude :=
  let fine : Magnitude := ⟨4 * magnitude.mantissa, magnitude.exponent - 2⟩
  let down := if atPower then 1 else 2
  (⟨fine.mantissa - down, fine.exponent⟩, ⟨fine.mantissa + 2, fine.exponent⟩)

/-- Whether `digits * 10 ^ (-places)` reads back as the magnitude; an end of the interval does
when the significand is even. -/
def readsBack (magnitude : Magnitude) (atPower : Bool) (digits : Nat) (places : Int) : Bool :=
  let (low, high) := neighbourhood magnitude atPower
  if magnitude.mantissa % 2 = 0 then low.atMost digits places && high.atLeast digits places
  else !low.atLeast digits places && !high.atMost digits places

/-- The nearer of the two grid points around the magnitude among those that read back, the larger
one if both are equally near. -/
def gridPoint? (magnitude : Magnitude) (atPower : Bool) (places : Int) : Option Nat :=
  let (numerator, denominator) := magnitude.scaled places
  let below := numerator / denominator
  let near := divideHalfUp numerator denominator
  let far := if near = below then below + 1 else below
  if readsBack magnitude atPower near places then some near
  else if readsBack magnitude atPower far places then some far
  else none

/-- The decimal exponent of the leading digit of a positive magnitude, searched downward. -/
def leadingPlace (magnitude : Magnitude) : Nat → Int → Int
  | 0, place => place
  | tries + 1, place =>
    if magnitude.atLeast 1 (-place) then place else leadingPlace magnitude tries (place - 1)

/-- The first grid with a point that reads back, from coarse to fine over so many grids. -/
def firstGrid (magnitude : Magnitude) (atPower : Bool) : Nat → Int → Nat × Int
  | 0, places =>
    let (numerator, denominator) := magnitude.scaled places
    (divideHalfUp numerator denominator, places)
  | more + 1, places =>
    match gridPoint? magnitude atPower places with
    | some digits => (digits, places)
    | none => firstGrid magnitude atPower more (places + 1)

/-- A number with the fewest digits that read back as it and no exponent: the nearest such digits,
of two equally near the ones further from zero. -/
def shortest (x : Float) : String :=
  match Binary.ofFloat x with
  | .nan => "NaN"
  | .infinite negative => minus negative ++ "inf"
  | .finite negative magnitude atPower =>
    if magnitude.mantissa = 0 then minus negative ++ "0"
    else
      let lead := leadingPlace magnitude 700 309
      let (digits, places) := firstGrid magnitude atPower 18 (-(lead + 1))
      minus negative ++ (if places ≤ 0 then (digits * Nat.pow 10 (-places).toNat).repr
        else pointed digits places.toNat)

end ClauseLearning.Text
