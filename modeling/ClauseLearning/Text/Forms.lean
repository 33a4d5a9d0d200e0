import ClauseLearning.Text.Blank

/-!
The written forms of words and numbers as relations between a text and what it stands for, with
no regard to how a text is read.
-/

namespace ClauseLearning.Text

/-- The text has these words, with white space between them and possibly around them. -/
inductive Spaced : List Char → List (List Char) → Prop where
  | nil : Spaced [] []
  | blank (blank : isBlank c = true) (rest : Spaced text tokens) : Spaced (c :: text) tokens
  | word (nonempty : word ≠ []) (solid : ∀ c ∈ word, isBlank c = false)
      (parted : ∀ c ∈ text.head?, isBlank c = true) (rest : Spaced text tokens) :
      Spaced (word ++ text) (word :: tokens)

/-- A non-empty run of digits, with its value in positional notation. Leading zeros are
allowed. -/
inductive Numeral : List Char → Nat → Prop where
  | digit (isDigit : c.isDigit = true) : Numeral [c] (c.toNat - '0'.toNat)
  | more (leading : Numeral text n) (isDigit : c.isDigit = true) :
      Numeral (text ++ [c]) (10 * n + (c.toNat - '0'.toNat))

/-- An unsigned word of 64 bits, with or without a plus sign. -/
inductive UnsignedText : List Char → Nat → Prop where
  | plain (numeral : Numeral text n) (fits : n < UInt64.size) : UnsignedText text n
  | plus (numeral : Numeral text n) (fits : n < UInt64.size) : UnsignedText ('+' :: text) n

/-- A signed word of 64 bits, with or without a sign. Only the minus sign reaches the lower
limit, and zero may have it as well. -/
inductive SignedText : List Char → Int → Prop where
  | plain (numeral : Numeral text n) (fits : n < UInt64.size / 2) : SignedText text n
  | plus (numeral : Numeral text n) (fits : n < UInt64.size / 2) : SignedText ('+' :: text) n
  | minus (numeral : Numeral text n) (fits : n ≤ UInt64.size / 2) : SignedText ('-' :: text) (-n)

end ClauseLearning.Text
