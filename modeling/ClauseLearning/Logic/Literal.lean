/-!
Literals of propositional logic: a variable, numbered from 0, with a polarity. As a signed number
a literal counts from 1, and the sign is its polarity. Literals are ordered by `code`, which puts
the two literals of a variable next to each other, the negative one first.
-/

namespace ClauseLearning

/-- A variable or its negation. -/
structure Literal where
  /-- The variable, counted from 0. -/
  var : Nat
  /-- Whether the variable occurs without negation. -/
  positive : Bool
  deriving DecidableEq

namespace Literal

/-- The same variable with the other polarity. -/
def negate (l : Literal) : Literal :=
  { l with positive := !l.positive }

/-- The rank of a literal in the order of literals. -/
def code (l : Literal) : Nat :=
  2 * l.var + l.positive.toNat

/-- The literal of the given rank. -/
def ofCode (code : Nat) : Literal :=
  ⟨code / 2, code % 2 == 1⟩

/-- Whether one literal comes before another. -/
def precedes (a b : Literal) : Bool :=
  a.code < b.code

/-- Variables are numbered below this bound, so that every code is a machine word. -/
def variableLimit : Nat :=
  UInt64.size / 2 - 1

/-- The literal of a variable within the bound. -/
def ofVar? (var : Nat) (positive : Bool) : Option Literal :=
  if var < variableLimit then some ⟨var, positive⟩ else none

/-- The literal written as a signed number; zero and variables beyond the bound have none. -/
def ofInt? (x : Int) : Option Literal :=
  if x = 0 then none else ofVar? (x.natAbs - 1) (0 < x)

/-- The signed number of a literal: its variable counted from 1, negative when negated. -/
def toInt (l : Literal) : Int :=
  if l.positive then l.var + 1 else -(l.var + 1)

/-- What a polarity puts in front of a number: a minus sign, or nothing. -/
def signText (positive : Bool) : String :=
  if positive then "" else "-"

/-- A polarity as a mark of its own. -/
def signMark (positive : Bool) : String :=
  if positive then "+" else "-"

/-- The text of the signed number. -/
def text (l : Literal) : String :=
  signText l.positive ++ (l.var + 1).repr

@[simp] theorem negate_negate (l : Literal) : l.negate.negate = l := by
  simp [negate]

@[simp] theorem var_negate (l : Literal) : l.negate.var = l.var := rfl

@[simp] theorem positive_negate (l : Literal) : l.negate.positive = !l.positive := rfl

@[simp] theorem ofCode_code (l : Literal) : ofCode l.code = l := by
  obtain ⟨var, positive⟩ := l
  cases positive with
  | false => simp [ofCode, code]
  | true => simp [ofCode, code]; omega

@[simp] theorem code_ofCode (c : Nat) : (ofCode c).code = c := by
  obtain h | h : c % 2 = 0 ∨ c % 2 = 1 := by omega
  all_goals simp [ofCode, code, h]; omega

theorem code_inj {a b : Literal} : a.code = b.code ↔ a = b :=
  ⟨fun h => by rw [← ofCode_code a, h, ofCode_code], fun h => h ▸ rfl⟩

theorem eq_of_var_of_positive {a b : Literal} (vars : a.var = b.var)
    (signs : a.positive = b.positive) : a = b := by
  cases a; cases b; cases vars; cases signs; rfl

theorem eq_or_eq_negate {a b : Literal} (vars : a.var = b.var) :
    a = b ∨ a = b.negate := by
  by_cases signs : a.positive = b.positive
  · exact .inl (eq_of_var_of_positive vars signs)
  · exact .inr (eq_of_var_of_positive vars (Bool.eq_not.mpr signs))

end Literal

end ClauseLearning
