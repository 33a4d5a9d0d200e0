import ClauseLearning.Text.Forms
import ClauseLearning.Text.Integer
import ClauseLearning.Text.Lines
import Mathlib.Data.List.DropRight

/-! The readers of words and numbers accept exactly the written forms, and give what the
forms stand for. Lines that are each ended by a line feed are read back as they were. -/
namespace ClauseLearning.Text

/-! ## Words -/

theorem words_cons_of_blank {c : Char} {text : List Char} (blank : isBlank c = true) :
    words (c :: text) = words text := by
  rw [words, List.splitOnP_cons_eq_if_modifyHead, if_pos blank]
  simp [words]

/-- A run of other characters before white space, or before the end, is a word. -/
theorem words_append {word text : List Char} (nonempty : word ≠ [])
    (solid : ∀ c ∈ word, isBlank c = false) (parted : ∀ c ∈ text.head?, isBlank c = true) :
    words (word ++ text) = word :: words text := by
  cases text with
  | nil => simp [words, List.splitOnP_eq_singleton solid, nonempty]
  | cons c rest =>
    have blank : isBlank c = true := parted c rfl
    rw [words_cons_of_blank blank, words, List.splitOnP_append_cons_of_forall_mem solid c blank]
    simp [words, nonempty]

theorem Spaced.words_eq {text : List Char} {ws : List (List Char)} (spaced : Spaced text ws) :
    words text = ws := by
  induction spaced with
  | nil => rfl
  | blank blank _ ih => rw [words_cons_of_blank blank, ih]
  | word nonempty solid parted _ ih => rw [words_append nonempty solid parted, ih]

theorem spaced_words (text : List Char) : Spaced text (words text) := by
  match text with
  | [] => exact .nil
  | c :: rest =>
    by_cases blank : isBlank c = true
    · rw [words_cons_of_blank blank]
      exact .blank blank (spaced_words rest)
    · rw [Bool.not_eq_true] at blank
      -- the word that starts here goes up to the next white space
      have cut := List.takeWhile_append_dropWhile (p := (!isBlank ·)) (l := rest)
      have solid : ∀ d ∈ c :: rest.takeWhile (!isBlank ·), isBlank d = false := by
        intro d member
        rcases List.mem_cons.mp member with rfl | member
        · exact blank
        · simpa using List.mem_takeWhile_imp member
      have parted : ∀ d ∈ (rest.dropWhile (!isBlank ·)).head?, isBlank d = true := by
        intro d first
        have := List.head?_dropWhile_not (!isBlank ·) rest
        rw [first] at this
        simpa using this
      have spaced := Spaced.word (List.cons_ne_nil _ _) solid parted
        (spaced_words (rest.dropWhile (!isBlank ·)))
      rw [← words_append (List.cons_ne_nil _ _) solid parted, List.cons_append, cut] at spaced
      exact spaced
termination_by text.length
decreasing_by
  · simp
  · have := (List.dropWhile_suffix (!isBlank ·) (l := rest)).length_le
    simp
    omega

theorem words_eq_iff {text : List Char} {ws : List (List Char)} :
    words text = ws ↔ Spaced text ws :=
  ⟨fun same => same ▸ spaced_words text, Spaced.words_eq⟩

/-- A text that starts with no white space starts with its first word. -/
theorem Spaced.head?_eq {c : Char} {text : List Char} {ws : List (List Char)}
    (spaced : Spaced (c :: text) ws) (solid : isBlank c = false) :
    ∃ word rest, ws = (c :: word) :: rest := by
  generalize same : c :: text = whole at spaced
  cases spaced with
  | nil => cases same
  | blank blank =>
    cases same
    rw [solid] at blank
    cases blank
  | @word word _ _ nonempty =>
    cases word with
    | nil => exact absurd rfl nonempty
    | cons first more =>
      cases same
      exact ⟨more, _, rfl⟩

theorem solid_of_all {word : List Char} (solid : word.all (!isBlank ·) = true) :
    ∀ c ∈ word, isBlank c = false := by
  simpa using solid

/-- A word up to a blank, and more words after it. -/
theorem spaced_word {word text : List Char} {ws : List (List Char)} (nonempty : word ≠ [])
    (solid : ∀ c ∈ word, isBlank c = false) (rest : Spaced text ws) :
    Spaced (word ++ ' ' :: text) (word :: ws) :=
  .word nonempty solid (by simp; decide) (.blank (by decide) rest)

theorem spaced_last {word : List Char} (nonempty : word ≠ [])
    (solid : ∀ c ∈ word, isBlank c = false) : Spaced word [word] := by
  simpa using Spaced.word nonempty solid (by simp) .nil

/-- Trimming leaves no white space at the start. -/
theorem isBlank_of_trim_eq_cons {c : Char} {text rest : List Char}
    (trimmed : trim text = c :: rest) :
    isBlank c = false := by
  have first : (text.dropWhile isBlank).head? = some c := by
    have := (List.rdropWhile_prefix isBlank (text.dropWhile isBlank))
    rw [List.rdropWhile, ← trim, trimmed] at this
    obtain ⟨after, whole⟩ := this
    rw [← whole]
    rfl
  have := List.head?_dropWhile_not isBlank text
  rwa [first] at this

/-- Trimming leaves a text as it is that starts and ends with no white space. -/
theorem trim_eq_self {text : List Char} (starts : ∀ c ∈ text.head?, isBlank c = false)
    (ends : ∀ c ∈ text.getLast?, isBlank c = false) : trim text = text := by
  have keep : ∀ chars : List Char, (∀ c ∈ chars.head?, isBlank c = false) →
      chars.dropWhile isBlank = chars := by
    intro chars solid
    cases chars with
    | nil => rfl
    | cons c rest => rw [List.dropWhile_cons_of_neg (by simp [solid c rfl])]
  rw [trim, keep text starts, keep _ (by rwa [List.head?_reverse]), List.reverse_reverse]

/-! ## Lines -/

/-- Lines that are each ended by a line feed are read as they are, unless one has a line
feed inside or a carriage return at its end. -/
theorem splitLines_ended [BEq α] [LawfulBEq α] {lineFeed carriageReturn : α} {lines : List (List α)}
    (plain : ∀ line ∈ lines, lineFeed ∉ line)
    (ends : ∀ line ∈ lines, line.getLast? ≠ some carriageReturn) :
    splitLines lineFeed carriageReturn (lines.flatMap (· ++ [lineFeed])) = lines := by
  have parts : (lines.flatMap (· ++ [lineFeed])).splitOn lineFeed = lines ++ [[]] := by
    clear ends
    induction lines with
    | nil => rfl
    | cons line rest ih =>
      obtain ⟨here, plain⟩ := List.forall_mem_cons.mp plain
      have apart : ∀ x ∈ line, (x == lineFeed) = false := by
        intro x member
        rw [beq_eq_false_iff_ne]
        exact fun same => here (same ▸ member)
      rw [List.flatMap_cons, List.append_assoc, List.singleton_append, List.splitOn,
        List.splitOnP_append_cons_of_forall_mem apart lineFeed (beq_self_eq_true _)]
      exact congrArg (line :: ·) (ih plain)
  have kept : lines.map (dropReturn carriageReturn) = lines := by
    refine (List.map_congr_left fun line member => ?_).trans (List.map_id _)
    rw [dropReturn, if_neg (by simpa using ends line member), id]
  simp only [splitLines, parts, List.dropLast_concat, kept, List.getLast?_concat]

/-! ## Numbers -/

theorem natural?_eq_some_iff {text : List Char} {n : Nat} :
    natural? text = some n ↔ Numeral text n := by
  constructor
  · intro read
    obtain ⟨⟨nonempty, digits⟩, rfl⟩ : (text ≠ [] ∧ text.all Char.isDigit) ∧
        Nat.ofDigitChars 10 text 0 = n := by
      simpa [natural?] using read
    clear read
    -- a numeral grows at its last digit, so the digits are taken from the end
    induction text using List.reverseRecOn with
    | nil => exact absurd rfl nonempty
    | append_singleton text c ih =>
      rw [List.all_append, Bool.and_eq_true, List.all_cons, List.all_nil, Bool.and_true] at digits
      rw [Nat.ofDigitChars_append, Nat.ofDigitChars_cons]
      rcases eq_or_ne text [] with rfl | nonempty
      · simpa [Nat.ofDigitChars] using Numeral.digit digits.2
      · exact .more (ih nonempty digits.1) digits.2
  · intro numeral
    induction numeral with
    | digit isDigit => simp [natural?, isDigit, Nat.ofDigitChars]
    | @more text n c _ isDigit ih =>
      obtain ⟨⟨-, digits⟩, value⟩ := Option.ite_none_right_eq_some.mp ih
      obtain rfl := Option.some.inj value
      simp [natural?, digits, isDigit, Nat.ofDigitChars_append, Nat.ofDigitChars_cons]

theorem Numeral.digits {text : List Char} {n : Nat} (numeral : Numeral text n) :
    text.all Char.isDigit = true := by
  induction numeral with
  | digit isDigit => simp [isDigit]
  | more _ isDigit ih => simp [ih, isDigit]

theorem unsigned?_eq_some_iff {text : List Char} {n : Nat} :
    unsigned? text = some n ↔ UnsignedText text n := by
  constructor
  · intro read
    unfold unsigned? at read
    split at read
    all_goals
      obtain ⟨read, fits⟩ := Option.filter_eq_some_iff.mp read
      have numeral := natural?_eq_some_iff.mp read
    · exact .plus numeral (of_decide_eq_true fits)
    · exact .plain numeral (of_decide_eq_true fits)
  · intro form
    unfold unsigned?
    cases form with
    | plain numeral fits =>
      split
      · cases numeral.digits
      · simp [natural?_eq_some_iff.mpr numeral, fits]
    | plus numeral fits => simp [natural?_eq_some_iff.mpr numeral, fits]

theorem signed?_eq_some_iff {text : List Char} {x : Int} :
    signed? text = some x ↔ SignedText text x := by
  constructor
  · intro read
    unfold signed? at read
    split at read
    all_goals
      obtain ⟨n, found, rfl⟩ := Option.map_eq_some_iff.mp read
      obtain ⟨found, fits⟩ := Option.filter_eq_some_iff.mp found
      have numeral := natural?_eq_some_iff.mp found
    · exact .minus numeral (of_decide_eq_true fits)
    · exact .plus numeral (of_decide_eq_true fits)
    · exact .plain numeral (of_decide_eq_true fits)
  · intro form
    unfold signed?
    cases form with
    | plain numeral fits =>
      split
      · cases numeral.digits
      · cases numeral.digits
      · simp [natural?_eq_some_iff.mpr numeral, fits]
    | plus numeral fits => simp [natural?_eq_some_iff.mpr numeral, fits]
    | minus numeral fits => simp [natural?_eq_some_iff.mpr numeral, fits]

/-! ## Written numbers -/

theorem numeral_repr (n : Nat) : Numeral n.repr.toList n :=
  natural?_eq_some_iff.mp (natural?_repr n)

theorem isBlank_of_isDigit {c : Char} (isDigit : c.isDigit = true) : isBlank c = false := by
  obtain ⟨low, high⟩ : 48 ≤ c.toNat ∧ c.toNat ≤ 57 := Char.isDigit_iff_toNat.mp isDigit
  simp [isBlank, blankRanges]
  omega

theorem Numeral.ne_nil {text : List Char} {n : Nat} (numeral : Numeral text n) : text ≠ [] := by
  cases numeral <;> simp

/-- The digits of a number stand for no other number. -/
theorem UnsignedText.eq_of_repr {n m : Nat} (form : UnsignedText n.repr.toList m) : n = m := by
  generalize same : n.repr.toList = text at form
  cases form with
  | plain numeral _ =>
    rw [← same] at numeral
    exact Option.some.inj ((natural?_repr n).symm.trans (natural?_eq_some_iff.mpr numeral))
  | plus =>
    have digits := (numeral_repr n).digits
    rw [same] at digits
    cases digits

end ClauseLearning.Text
