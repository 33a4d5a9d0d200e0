import ClauseLearning.Dimacs.Grammar
import ClauseLearning.Dimacs.Reader
import ClauseLearning.Proofs.TextForms

/-! The reader of formulas in DIMACS form and the grammar agree: the reader accepts the
grammatical lines and no others, gives the formula they stand for, and otherwise names the
first fault. -/
namespace ClauseLearning

section Traversal

variable {α β ε : Type} {f : α → Except ε β}

/-- A traversal succeeds if every step does. -/
theorem mapM_eq_ok_iff {xs : List α} {ys : List β} :
    xs.mapM f = .ok ys ↔ List.Forall₂ (fun x y => f x = .ok y) xs ys := by
  induction xs generalizing ys with
  | nil => cases ys <;> simp [pure, Except.pure]
  | cons x xs ih =>
    rw [List.mapM_cons]
    cases first : f x with
    | error e => cases ys <;> simp [bind, Except.bind, first]
    | ok y =>
      cases rest : xs.mapM f with
      | error e => cases ys <;> simp [bind, Except.bind, ← ih, rest]
      | ok zs => cases ys <;> simp [bind, Except.bind, pure, Except.pure, ← ih, rest, first]

/-- A traversal fails with the error of the first step that does. -/
theorem mapM_eq_error_iff {xs : List α} {e : ε} :
    xs.mapM f = .error e ↔ ∃ before x after, xs = before ++ x :: after ∧
      (∀ earlier ∈ before, ∃ y, f earlier = .ok y) ∧ f x = .error e := by
  induction xs with
  | nil => simp [pure, Except.pure]
  | cons x xs ih =>
    rw [List.mapM_cons]
    constructor
    · intro failed
      cases first : f x with
      | error e' =>
        obtain rfl : e' = e := by simpa [bind, Except.bind, first] using failed
        exact ⟨[], x, xs, rfl, by simp, first⟩
      | ok y =>
        have later : xs.mapM f = .error e := by
          cases rest : xs.mapM f with
          | error e' => simpa [bind, Except.bind, first, rest] using failed
          | ok ys => simp [bind, Except.bind, pure, Except.pure, first, rest] at failed
        obtain ⟨before, z, after, rfl, succeeded, fails⟩ := ih.mp later
        exact ⟨x :: before, z, after, rfl, by simpa [first] using succeeded, fails⟩
    · rintro ⟨before, z, after, same, succeeded, fails⟩
      cases before with
      | nil =>
        obtain ⟨rfl, rfl⟩ := List.cons.inj same
        simp [bind, Except.bind, fails]
      | cons b before =>
        obtain ⟨rfl, rfl⟩ := List.cons.inj same
        obtain ⟨⟨y, first⟩, succeeded⟩ := List.forall_mem_cons.mp succeeded
        have later := ih.mpr ⟨before, z, after, rfl, succeeded, fails⟩
        simp only [first, later, bind, Except.bind]

end Traversal

namespace Dimacs

/-! ## Significant lines -/

theorem Line.ofText_eq (text : List Char) :
    Line.ofText text =
      if (Text.trim text).head? = some '%' then .finish
      else if Text.trim text = [] ∨ (Text.trim text).head? = some 'c' then .skipped
      else if (Text.trim text).head? = some 'p' then .header (Text.words (Text.trim text))
      else .clauses (Text.words (Text.trim text)) := by
  unfold Line.ofText
  generalize Text.trim text = trimmed
  cases trimmed with
  | nil => rfl
  | cons c rest => split <;> simp_all

/-- The line counts where the reader takes it for a header or for clauses. -/
theorem significantFrom_cons (line : Nat) (text : List Char) (rest : List (List Char)) :
    significantFrom line (text :: rest) = match Line.ofText text with
      | .finish => []
      | .skipped => significantFrom (line + 1) rest
      | .header _ | .clauses _ => (Text.trim text, line) :: significantFrom (line + 1) rest := by
  rw [Line.ofText_eq]
  simp only [significantFrom, List.map_cons, List.zipIdx_cons, List.takeWhile_cons]
  generalize Text.trim text = trimmed
  by_cases finish : trimmed.head? = some '%'
  · simp [finish]
  by_cases skipped : trimmed = [] ∨ trimmed.head? = some 'c'
  · rcases skipped with rfl | comment
    · simp
    · simp [comment]
  obtain ⟨nonempty, noComment⟩ := not_or.mp skipped
  by_cases header : trimmed.head? = some 'p'
  · simp [header, nonempty]
  · simp [finish, noComment, header, nonempty]

/-- How the reader takes a line that counts after the header. -/
def readLater (declared : Nat) (line : List Char × Nat) : Except ParseError (List (List Literal)) :=
  if line.1.head? = some 'p' then .error (.duplicateHeader line.2)
  else clausesOnLine line.2 declared (Text.words line.1)

/-- The reader goes through the lines that count and through no others. -/
theorem clausesFrom_eq (declared line : Nat) (lines : List (List Char)) :
    clausesFrom declared line lines =
      ((significantFrom line lines).mapM (readLater declared)).map List.flatten := by
  induction lines generalizing line with
  | nil => rfl
  | cons text rest ih =>
    rw [clausesFrom, significantFrom_cons, Line.ofText_eq]
    split_ifs with finish skipped header
    · rfl
    · exact ih (line + 1)
    · simp only [List.mapM_cons, readLater, if_pos header]
      rfl
    · simp only [List.mapM_cons, ih, readLater, if_neg header]
      cases clausesOnLine line declared (Text.words (Text.trim text)) with
      | error e => rfl
      | ok here => cases (significantFrom (line + 1) rest).mapM (readLater declared) <;> rfl

/-- What the reader does is told by the lines that count. -/
theorem documentFrom_eq (line : Nat) (lines : List (List Char)) :
    documentFrom line lines = match significantFrom line lines with
      | [] => .error .noHeader
      | (text, line) :: later =>
        if text.head? = some 'p' then
          match Header.ofWords? (Text.words text) with
          | none => .error (.malformedHeader line)
          | some header =>
            (later.mapM (readLater header.numVariables)).map fun clauses =>
              ⟨.ofClauses header.numVariables clauses.flatten, header.numClauses⟩
        else .error (.missingHeader line) := by
  induction lines generalizing line with
  | nil => rfl
  | cons text rest ih =>
    rw [documentFrom, significantFrom_cons, Line.ofText_eq]
    split_ifs with finish skipped header
    · rfl
    · exact ih (line + 1)
    · simp only [if_pos header, clausesFrom_eq]
      cases Header.ofWords? (Text.words (Text.trim text)) with
      | none => rfl
      | some header =>
        dsimp only
        cases (significantFrom (line + 1) rest).mapM (readLater header.numVariables) <;> rfl
    · simp only [if_neg header]

theorem starts_of_mem_significantFrom {line : Nat} {lines : List (List Char)}
    {here : List Char × Nat} (member : here ∈ significantFrom line lines) :
    ∃ c rest, here.1 = c :: rest ∧ Text.isBlank c = false := by
  obtain ⟨member, counts⟩ := List.mem_filter.mp member
  have member := (List.takeWhile_sublist _).subset member
  obtain ⟨text, -, trimmed⟩ := List.mem_map.mp (List.fst_mem_of_mem_zipIdx member)
  cases same : here.1 with
  | nil => simp [same] at counts
  | cons c rest => exact ⟨c, rest, rfl, Text.isBlank_of_trim_eq_cons (trimmed.trans same)⟩

theorem words_ne_nil_of_mem_significantFrom {line : Nat} {lines : List (List Char)}
    {here : List Char × Nat} (member : here ∈ significantFrom line lines) :
    Text.words here.1 ≠ [] := by
  obtain ⟨c, rest, same, solid⟩ := starts_of_mem_significantFrom member
  obtain ⟨word, more, split⟩ := (Text.spaced_words (c :: rest)).head?_eq solid
  simp [same, split]

/-! ## Headers -/

theorem ofWords?_eq_some_iff {text : List Char} {n m : Nat} :
    Header.ofWords? (Text.words text) = some ⟨n, m⟩ ↔ HeaderLine text n m := by
  constructor
  · intro read
    unfold Header.ofWords? at read
    split at read
    · rename_i p cnf vars clauses words
      split at read
      · rename_i named
        obtain ⟨rfl, rfl⟩ := named
        obtain ⟨n', declared, read⟩ := Option.bind_eq_some_iff.mp read
        obtain ⟨m', promised, same⟩ := Option.bind_eq_some_iff.mp read
        cases same
        obtain ⟨declared, limited⟩ := Option.filter_eq_some_iff.mp declared
        exact .mk (Text.words_eq_iff.mp words) (Text.unsigned?_eq_some_iff.mp declared)
          (of_decide_eq_true limited) (Text.unsigned?_eq_some_iff.mp promised)
      · cases read
    · cases read
  · rintro ⟨spaced, declared, limited, promised⟩
    rw [spaced.words_eq, Header.ofWords?, Text.unsigned?_eq_some_iff.mpr declared,
      Text.unsigned?_eq_some_iff.mpr promised]
    simp [Option.filter, limited]

/-! ## Clause lines -/

theorem number_eq_ok_iff {line declared : Nat} {word : List Char} {x : Int} :
    number line declared word = .ok x ↔ Entry declared word x := by
  rw [number, Entry, ← Text.signed?_eq_some_iff]
  split
  · rename_i noNumber
    simp [noNumber]
  · rename_i y read
    rw [read]
    split
    · rename_i undeclared
      simp only [reduceCtorEq, Option.some.injEq, false_iff, not_and, Nat.not_le]
      exact fun same => same ▸ undeclared
    · rename_i declares
      simp only [Except.ok.injEq, Option.some.injEq, iff_self_and]
      exact fun same => same ▸ Nat.not_lt.mp declares

theorem number_eq_error_iff {line declared : Nat} {word : List Char} {e : ParseError} :
    number line declared word = .error e ↔
      ((∀ x, ¬ Text.SignedText word x) ∧ e = .invalidLiteral line (String.ofList word)) ∨
      ∃ x, Text.SignedText word x ∧ declared < x.natAbs ∧
        e = .variableOutOfRange line x declared := by
  simp only [number, ← Text.signed?_eq_some_iff]
  split
  · rename_i noNumber
    simp [noNumber, eq_comm]
  · rename_i y read
    split
    · rename_i undeclared
      simp [read, undeclared, eq_comm]
    · rename_i declares
      simp [read, declares]

theorem entries_iff {line declared : Nat} {ws : List (List Char)} {numbers : List Int} :
    ws.mapM (number line declared) = .ok numbers ↔
      List.Forall₂ (Entry declared) ws numbers := by
  simp only [mapM_eq_ok_iff, number_eq_ok_iff]

/-- Each clause and a zero, one after the other, and what is left over, are all numbers. -/
theorem cutAtZeros_spec (numbers : List Int) :
    (cutAtZeros numbers).1.flatMap (· ++ [0]) ++ (cutAtZeros numbers).2 = numbers ∧
      (∀ clause ∈ (cutAtZeros numbers).1, 0 ∉ clause) ∧ 0 ∉ (cutAtZeros numbers).2 := by
  induction numbers with
  | nil => simp [cutAtZeros]
  | cons x rest ih =>
    obtain ⟨whole, inside, outside⟩ := ih
    rw [cutAtZeros]
    by_cases zero : x = 0
    · simp [zero, whole, outside]
      exact inside
    · have nonzero : 0 ≠ x := Ne.symm zero
      -- the number joins the next clause, or is left over where no zero follows
      cases cut : (cutAtZeros rest).1 with
      | nil => simp_all
      | cons clause more => simp_all

/-- Cutting at zeros is splitting at zeros, with the last part apart. -/
theorem splitOn_zero (numbers : List Int) :
    numbers.splitOn 0 = (cutAtZeros numbers).1 ++ [(cutAtZeros numbers).2] := by
  induction numbers with
  | nil => rfl
  | cons x rest ih =>
    rw [List.splitOn] at ih ⊢
    rw [List.splitOnP_cons_eq_if_modifyHead, ih, cutAtZeros]
    by_cases zero : x = 0
    · simp [zero]
    · cases split : (cutAtZeros rest).1 <;> simp [zero, split]

theorem clauseNumbers_eq (numbers : List Int) : clauseNumbers numbers = (cutAtZeros numbers).1 := by
  rw [clauseNumbers, splitOn_zero, List.dropLast_concat]

/-- Nothing is left over if the last number is a zero. -/
theorem cutAtZeros_snd_eq_nil_iff {numbers : List Int} (nonempty : numbers ≠ []) :
    (cutAtZeros numbers).2 = [] ↔ numbers.getLast? = some 0 := by
  obtain ⟨whole, -, outside⟩ := cutAtZeros_spec numbers
  constructor
  · intro nothing
    rw [nothing, List.append_nil] at whole
    rcases List.eq_nil_or_concat (cutAtZeros numbers).1 with none | ⟨before, last, same⟩
    · rw [none] at whole
      exact absurd whole.symm nonempty
    · rw [← whole, same]
      simp
  · intro ended
    by_contra left
    rw [← whole, List.getLast?_append_of_ne_nil _ left] at ended
    exact outside (List.mem_of_getLast? ended)

theorem mem_of_mem_clauseNumbers {numbers clause : List Int} {x : Int}
    (among : clause ∈ clauseNumbers numbers) (member : x ∈ clause) : x ∈ numbers ∧ x ≠ 0 := by
  obtain ⟨whole, inside, -⟩ := cutAtZeros_spec numbers
  rw [clauseNumbers_eq] at among
  constructor
  · rw [← whole]
    exact List.mem_append_left _ (List.mem_flatMap.mpr ⟨clause, among, by simp [member]⟩)
  · rintro rfl
    exact inside clause among member

theorem literalOf_toInt (l : Literal) : literalOf l.toInt = l := by
  obtain ⟨var, positive⟩ := l
  cases positive with
  | false => simp [literalOf, Literal.toInt]; omega
  | true => simp [literalOf, Literal.toInt]; omega

theorem toInt_literalOf {x : Int} (nonzero : x ≠ 0) : (literalOf x).toInt = x := by
  by_cases positive : 0 < x
  · simp [literalOf, Literal.toInt, positive]; omega
  · simp [literalOf, Literal.toInt, positive]; omega

/-- The clauses on a line with these numbers. -/
def clausesOf (numbers : List Int) : List (List Literal) :=
  (clauseNumbers numbers).map (·.map literalOf)

theorem map_toInt_clausesOf (numbers : List Int) :
    (clausesOf numbers).map (·.map Literal.toInt) = clauseNumbers numbers := by
  rw [clausesOf, List.map_map]
  refine (List.map_congr_left fun clause among => ?_).trans (List.map_id _)
  rw [Function.comp_apply, List.map_map]
  exact (List.map_congr_left fun x member =>
    toInt_literalOf (mem_of_mem_clauseNumbers among member).2).trans (List.map_id _)

/-- The clauses of several lines are told by the numbers of their literals. -/
theorem eq_flatMap_clausesOf_iff {clauses : List (List Literal)} {numbers : List (List Int)} :
    clauses = numbers.flatMap clausesOf ↔
      clauses.map (·.map Literal.toInt) = numbers.flatMap clauseNumbers := by
  constructor
  · rintro rfl
    simp only [List.map_flatMap, map_toInt_clausesOf]
  · intro spelled
    change clauses = numbers.flatMap fun line => (clauseNumbers line).map (·.map literalOf)
    have read := congrArg (List.map (List.map literalOf)) spelled
    simpa [List.map_flatMap, Function.comp_def, literalOf_toInt] using read

theorem clausesOnLine_of_entries {line declared : Nat} {ws : List (List Char)} {numbers : List Int}
    (nonempty : ws ≠ []) (entries : List.Forall₂ (Entry declared) ws numbers) :
    clausesOnLine line declared ws =
      if numbers.getLast? = some 0 then .ok (clausesOf numbers)
      else .error (.unterminatedClause line) := by
  have some_ : numbers ≠ [] := by
    rintro rfl
    cases entries
    exact nonempty rfl
  simp only [clausesOnLine, entries_iff.mpr entries, bind, Except.bind,
    ← cutAtZeros_snd_eq_nil_iff some_, clausesOf, clauseNumbers_eq]
  rcases cutAtZeros numbers with ⟨clauses, _ | ⟨x, left⟩⟩ <;> rfl

theorem clausesOnLine_of_error {line declared : Nat} {ws : List (List Char)} {e : ParseError}
    (failed : ws.mapM (number line declared) = .error e) :
    clausesOnLine line declared ws = .error e := by
  simp only [clausesOnLine, failed, bind, Except.bind]

theorem bound_of_entries {declared : Nat} {ws : List (List Char)} {numbers : List Int}
    (entries : List.Forall₂ (Entry declared) ws numbers) : ∀ x ∈ numbers, x.natAbs ≤ declared := by
  induction entries with
  | nil => simp
  | cons entry _ ih => exact List.forall_mem_cons.mpr ⟨entry.2, ih⟩

theorem ClauseLine.declared {n : Nat} {text : List Char} {numbers : List Int}
    (isLine : ClauseLine n text numbers) :
    ∀ clause ∈ clausesOf numbers, ∀ l ∈ clause, l.var < n := by
  obtain ⟨-, -, entries, -⟩ := isLine
  intro clause among l member
  obtain ⟨cut, cutAmong, rfl⟩ := List.mem_map.mp among
  obtain ⟨x, inside, rfl⟩ := List.mem_map.mp member
  obtain ⟨given, nonzero⟩ := mem_of_mem_clauseNumbers cutAmong inside
  have bound := bound_of_entries entries x given
  simp only [literalOf]
  omega

theorem readLater_eq_ok_iff {declared : Nat} {line : List Char × Nat}
    {clauses : List (List Literal)} (nonempty : Text.words line.1 ≠ []) :
    readLater declared line = .ok clauses ↔
      ∃ numbers, ClauseLine declared line.1 numbers ∧ clauses = clausesOf numbers := by
  rw [readLater]
  split
  · rename_i like
    simp only [reduceCtorEq, false_iff, not_exists, not_and]
    rintro numbers ⟨unlike, -⟩
    exact absurd like unlike
  · rename_i unlike
    constructor
    · intro read
      cases entries : (Text.words line.1).mapM (number line.2 declared) with
      | error e => cases (clausesOnLine_of_error entries).symm.trans read
      | ok numbers =>
        have entries := entries_iff.mp entries
        rw [clausesOnLine_of_entries nonempty entries] at read
        split at read
        · rename_i ended
          cases read
          exact ⟨numbers, .mk unlike (Text.spaced_words _) entries ended, rfl⟩
        · cases read
    · rintro ⟨numbers, ⟨-, spaced, entries, ended⟩, rfl⟩
      rw [← spaced.words_eq] at entries
      rw [clausesOnLine_of_entries nonempty entries, if_pos ended]

theorem entries_fail_iff {line declared : Nat} {ws : List (List Char)} {e : ParseError} :
    ws.mapM (number line declared) = .error e ↔ ∃ before word after, ws = before ++ word :: after ∧
      (∀ w ∈ before, ∃ x, Entry declared w x) ∧ number line declared word = .error e := by
  simp only [mapM_eq_error_iff, number_eq_ok_iff]

theorem readLater_eq_error_iff {declared line : Nat} {text : List Char} {e : ParseError}
    (nonempty : Text.words text ≠ []) :
    readLater declared (text, line) = .error e ↔ LineFault declared (text, line) e := by
  rw [readLater]
  split
  · rename_i like
    constructor
    · intro read
      cases read
      exact .header like
    · intro fault
      cases fault with
      | header => rfl
      | word unlike | range unlike | unended unlike => exact absurd like unlike
  · rename_i unlike
    constructor
    · intro read
      cases entries : (Text.words text).mapM (number line declared) with
      | error e' =>
        cases (clausesOnLine_of_error entries).symm.trans read
        obtain ⟨before, word, after, split, earlier, fails⟩ := entries_fail_iff.mp entries
        have spaced := Text.words_eq_iff.mp split
        rcases number_eq_error_iff.mp fails with ⟨noNumber, rfl⟩ | ⟨x, number, undeclared, rfl⟩
        · exact .word unlike spaced earlier noNumber
        · exact .range unlike spaced earlier number undeclared
      | ok numbers =>
        have entries := entries_iff.mp entries
        rw [clausesOnLine_of_entries nonempty entries] at read
        split at read
        · cases read
        · rename_i unended
          cases read
          exact .unended unlike (Text.spaced_words _) entries unended
    · intro fault
      cases fault with
      | header like => exact absurd like unlike
      | word _ spaced earlier noNumber =>
        refine clausesOnLine_of_error
          (entries_fail_iff.mpr ⟨_, _, _, spaced.words_eq, earlier, ?_⟩)
        exact number_eq_error_iff.mpr (.inl ⟨noNumber, rfl⟩)
      | range _ spaced earlier number undeclared =>
        refine clausesOnLine_of_error
          (entries_fail_iff.mpr ⟨_, _, _, spaced.words_eq, earlier, ?_⟩)
        exact number_eq_error_iff.mpr (.inr ⟨_, number, undeclared, rfl⟩)
      | unended _ spaced entries unended =>
        rw [← spaced.words_eq] at entries
        rw [clausesOnLine_of_entries nonempty entries, if_neg unended]

/-! ## All lines -/

theorem mapM_readLater_eq_ok_iff {declared : Nat} {later : List (List Char × Nat)}
    {clauses : List (List (List Literal))} (nonempty : ∀ line ∈ later, Text.words line.1 ≠ []) :
    later.mapM (readLater declared) = .ok clauses ↔
      ∃ numbers, List.Forall₂ (fun line => ClauseLine declared line.1) later numbers ∧
        clauses = numbers.map clausesOf := by
  rw [mapM_eq_ok_iff]
  constructor
  · intro read
    induction read with
    | nil => exact ⟨[], .nil, rfl⟩
    | cons first _ ih =>
      obtain ⟨here, nonempty⟩ := List.forall_mem_cons.mp nonempty
      obtain ⟨numbers, isLine, rfl⟩ := (readLater_eq_ok_iff here).mp first
      obtain ⟨more, lines, rfl⟩ := ih nonempty
      exact ⟨numbers :: more, .cons isLine lines, rfl⟩
  · rintro ⟨numbers, lines, rfl⟩
    induction lines with
    | nil => exact .nil
    | cons isLine _ ih =>
      obtain ⟨here, nonempty⟩ := List.forall_mem_cons.mp nonempty
      exact .cons ((readLater_eq_ok_iff here).mpr ⟨_, isLine, rfl⟩) (ih nonempty)

theorem mapM_readLater_eq_error_iff {declared : Nat} {later : List (List Char × Nat)}
    {e : ParseError} (nonempty : ∀ line ∈ later, Text.words line.1 ≠ []) :
    later.mapM (readLater declared) = .error e ↔
      ∃ before line after, later = before ++ line :: after ∧
        (∀ earlier ∈ before, ∃ numbers, ClauseLine declared earlier.1 numbers) ∧
        LineFault declared line e := by
  rw [mapM_eq_error_iff]
  constructor
  · rintro ⟨before, line, after, rfl, earlier, fails⟩
    refine ⟨before, line, after, rfl, fun here member => ?_,
      (readLater_eq_error_iff (nonempty line (by simp))).mp fails⟩
    obtain ⟨clauses, read⟩ := earlier here member
    obtain ⟨numbers, isLine, -⟩ := (readLater_eq_ok_iff (nonempty here (by simp [member]))).mp read
    exact ⟨numbers, isLine⟩
  · rintro ⟨before, line, after, rfl, earlier, fault⟩
    refine ⟨before, line, after, rfl, fun here member => ?_,
      (readLater_eq_error_iff (nonempty line (by simp))).mpr fault⟩
    obtain ⟨numbers, isLine⟩ := earlier here member
    exact ⟨_, (readLater_eq_ok_iff (nonempty here (by simp [member]))).mpr ⟨numbers, isLine, rfl⟩⟩

section Headers

variable {lines : List String} {text : List Char} {line n m : Nat} {later : List (List Char × Nat)}

theorem ofLines_of_unlike (first : significant lines = (text, line) :: later)
    (unlike : text.head? ≠ some 'p') : ofLines lines = .error (.missingHeader line) := by
  rw [significant] at first
  rw [ofLines, documentFrom_eq, first]
  exact if_neg unlike

theorem ofLines_of_headless (first : significant lines = (text, line) :: later)
    (like : text.head? = some 'p') (headless : ∀ n m, ¬ HeaderLine text n m) :
    ofLines lines = .error (.malformedHeader line) := by
  have unread : Header.ofWords? (Text.words text) = none :=
    Option.eq_none_iff_forall_not_mem.mpr fun ⟨n, m⟩ read =>
      headless n m (ofWords?_eq_some_iff.mp read)
  rw [significant] at first
  rw [ofLines, documentFrom_eq, first]
  simp only [if_pos like, unread]

theorem ofLines_of_header (first : significant lines = (text, line) :: later)
    (heads : HeaderLine text n m) :
    ofLines lines = (later.mapM (readLater n)).map fun clauses =>
      ⟨.ofClauses n clauses.flatten, m⟩ := by
  -- a trimmed line starts with its first word, so a header is never taken for clauses
  have like : text.head? = some 'p' := by
    obtain ⟨c, rest, rfl, solid⟩ := starts_of_mem_significantFrom (first ▸ List.mem_cons_self)
    obtain ⟨spaced, -, -, -⟩ := heads
    obtain ⟨word, more, same⟩ := spaced.head?_eq solid
    cases same
    rfl
  rw [significant] at first
  rw [ofLines, documentFrom_eq, first]
  simp only [if_pos like, ofWords?_eq_some_iff.mpr heads]

theorem words_ne_nil_of_later {first : List Char × Nat}
    (counted : significant lines = first :: later) :
    ∀ line ∈ later, Text.words line.1 ≠ [] := by
  intro line member
  exact words_ne_nil_of_mem_significantFrom (counted ▸ List.mem_cons_of_mem _ member)

theorem Grammatical.ofLines_eq {numbers : List (List Int)}
    (grammatical : Grammatical lines n m numbers) :
    ofLines lines = .ok ⟨.ofClauses n (numbers.flatMap clausesOf), m⟩ := by
  obtain ⟨first, heads, rest⟩ := grammatical
  have read := (mapM_readLater_eq_ok_iff (words_ne_nil_of_later first)).mpr ⟨_, rest, rfl⟩
  rw [ofLines_of_header first heads, read]
  rfl

theorem FirstFault.ofLines_eq {e : ParseError} (fault : FirstFault lines e) :
    ofLines lines = .error e := by
  cases fault with
  | noHeader none =>
    rw [significant] at none
    rw [ofLines, documentFrom_eq, none]
  | missingHeader first unlike => exact ofLines_of_unlike first unlike
  | malformedHeader first like headless => exact ofLines_of_headless first like headless
  | later first heads rest fault =>
    have read := (mapM_readLater_eq_error_iff (words_ne_nil_of_later first)).mpr
      ⟨_, _, _, rfl, rest, fault⟩
    rw [ofLines_of_header first heads, read]
    rfl

/-- Lines break the grammar somewhere unless they are grammatical. So it suffices that the
reader accepts grammatical lines and names the first fault of others. -/
theorem grammatical_or_fault (lines : List String) :
    (∃ n m numbers, Grammatical lines n m numbers) ∨ ∃ e, FirstFault lines e := by
  cases counted : significant lines with
  | nil => exact .inr ⟨_, .noHeader counted⟩
  | cons first later =>
    obtain ⟨text, line⟩ := first
    by_cases like : text.head? = some 'p'
    · by_cases heads : ∃ n m, HeaderLine text n m
      · obtain ⟨n, m, heads⟩ := heads
        have nonempty := words_ne_nil_of_later counted
        cases read : later.mapM (readLater n) with
        | ok clauses =>
          obtain ⟨numbers, rest, -⟩ := (mapM_readLater_eq_ok_iff nonempty).mp read
          exact .inl ⟨n, m, numbers, .mk counted heads rest⟩
        | error e =>
          obtain ⟨before, line, after, rfl, rest, fault⟩ :=
            (mapM_readLater_eq_error_iff nonempty).mp read
          exact .inr ⟨e, .later counted heads rest fault⟩
      · exact .inr ⟨_, .malformedHeader counted like fun n m heads' => heads ⟨n, m, heads'⟩⟩
    · exact .inr ⟨_, .missingHeader counted like⟩

end Headers

/-- The reader accepts the grammatical lines and no others. -/
theorem ofLines_eq_ok_iff {lines : List String} {d : Document} :
    ofLines lines = .ok d ↔ ∃ n m numbers, Grammatical lines n m numbers ∧
      d = ⟨.ofClauses n (numbers.flatMap clausesOf), m⟩ := by
  constructor
  · intro read
    rcases grammatical_or_fault lines with ⟨n, m, numbers, grammatical⟩ | ⟨e, fault⟩
    · exact ⟨n, m, numbers, grammatical, Except.ok.inj (read.symm.trans grammatical.ofLines_eq)⟩
    · cases read.symm.trans fault.ofLines_eq
  · rintro ⟨n, m, numbers, grammatical, rfl⟩
    exact grammatical.ofLines_eq

/-- The reader refuses all others with the first fault. -/
theorem ofLines_eq_error_iff {lines : List String} {e : ParseError} :
    ofLines lines = .error e ↔ FirstFault lines e := by
  constructor
  · intro refused
    rcases grammatical_or_fault lines with ⟨n, m, numbers, grammatical⟩ | ⟨e', fault⟩
    · cases refused.symm.trans grammatical.ofLines_eq
    · cases refused.symm.trans fault.ofLines_eq
      exact fault
  · exact FirstFault.ofLines_eq

theorem Grammatical.declared {lines : List String} {n m : Nat} {numbers : List (List Int)}
    (grammatical : Grammatical lines n m numbers) :
    ∀ clause ∈ numbers.flatMap clausesOf, ∀ l ∈ clause, l.var < n := by
  obtain ⟨-, -, rest⟩ := grammatical
  induction rest with
  | nil => simp
  | cons isLine _ ih =>
    rw [List.flatMap_cons]
    exact List.forall_mem_append.mpr ⟨isLine.declared, ih⟩

/-- The reader is the grammar: it accepts the grammatical lines and no others; a formula
it reads has the declared variables, and its clauses are the numbers of all clause lines
split at the zeros; and what it refuses has the fault that it names first. The declared
number of clauses is any. -/
theorem reader_is_grammar (lines : List String) :
    ((∃ d, ofLines lines = .ok d) ↔ ∃ n m numbers, Grammatical lines n m numbers) ∧
    (∀ d, ofLines lines = .ok d ↔ ∃ numbers,
      Grammatical lines d.formula.numVariables d.declaredClauses numbers ∧
      d.formula.clauses.map (·.map Literal.toInt) = numbers.flatMap clauseNumbers) ∧
    ∀ e, ofLines lines = .error e ↔ FirstFault lines e := by
  refine ⟨⟨?_, ?_⟩, fun d => ⟨?_, ?_⟩, fun e => ofLines_eq_error_iff⟩
  · rintro ⟨d, read⟩
    obtain ⟨n, m, numbers, grammatical, -⟩ := ofLines_eq_ok_iff.mp read
    exact ⟨n, m, numbers, grammatical⟩
  · rintro ⟨n, m, numbers, grammatical⟩
    exact ⟨_, grammatical.ofLines_eq⟩
  · intro read
    obtain ⟨n, m, numbers, grammatical, rfl⟩ := ofLines_eq_ok_iff.mp read
    refine ⟨numbers, ?_, eq_flatMap_clausesOf_iff.mp rfl⟩
    rwa [show (Formula.ofClauses n (numbers.flatMap clausesOf)).numVariables = n from
      Formula.variablesNeeded_eq grammatical.declared]
  · rintro ⟨numbers, grammatical, spelled⟩
    refine ofLines_eq_ok_iff.mpr ⟨_, _, numbers, grammatical, ?_⟩
    rw [← eq_flatMap_clausesOf_iff.mpr spelled, Formula.ofClauses_eq]

/-- Both signs may stand before a zero, and nothing counts after a percent sign. -/
example : (ofLines ["c", " p\tcnf 02 9", "", "-1 +2 -0 +0", "c 3", "2 0", "%", "p"]).toOption.map
    (fun d => (d.formula.clauses.map (·.map Literal.toInt), d.formula.numVariables)) =
    some ([[-1, 2], [], [2]], 2) := by decide +kernel

/-- The lower limit of a signed word is a number, the one above the upper limit is not. -/
example : ofLines ["p cnf 2 1", "1 -9223372036854775808 x"] =
      .error (.variableOutOfRange 2 (-9223372036854775808) 2) ∧
    ofLines ["p cnf 2 1", "1 9223372036854775808 -3"] =
      .error (.invalidLiteral 2 "9223372036854775808") := by decide +kernel

end Dimacs

end ClauseLearning
