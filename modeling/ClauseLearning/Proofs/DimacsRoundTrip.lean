import ClauseLearning.Dimacs.Writer
import ClauseLearning.Proofs.DimacsGrammar

/-! A written formula is read back as it was, as long as a header may declare its variables.
The text that the writer makes and the text that the reader takes meet at the grammar: the
written lines are shown to be grammatical, or to have a malformed header. -/
namespace ClauseLearning

/-- The formulas that can be built: from a number of variables, by adding clauses, from a
list of clauses, or by reading. The literals are over variables within the limit, and the
counts are machine words. -/
inductive Formula.Built : Formula → Prop where
  | empty (fits : n < UInt64.size) : Built (.empty n)
  | addClause (built : Built f) (literals : ∀ l ∈ clause, l.var < Literal.variableLimit)
      (counted : f.clauses.length + 1 < UInt64.size) : Built (f.addClause clause)
  | ofClauses (literals : ∀ clause ∈ given, ∀ l ∈ clause, l.var < Literal.variableLimit)
      (counted : given.length < UInt64.size) : Built (.ofClauses 0 given)
  | read (read : Dimacs.ofLines lines = .ok d) (counted : d.formula.clauses.length < UInt64.size) :
      Built d.formula

theorem Formula.Built.counted {f : Formula} (built : f.Built) : f.clauses.length < UInt64.size := by
  cases built with
  | empty => simp [Formula.empty, UInt64.size]
  | addClause _ _ counted => simpa [Formula.addClause] using counted
  | ofClauses _ counted => exact counted
  | read _ counted => exact counted

namespace Dimacs

/-! ## Written lines -/

/-- What all written lines have in common: they start and end with a solid character, are no
comment and no end mark, and have no line feed. -/
structure Plain (text : List Char) : Prop where
  starts : ∃ c rest, text = c :: rest ∧ Text.isBlank c = false ∧ c ≠ 'c' ∧ c ≠ '%'
  ends : ∃ before c, text = before ++ [c] ∧ Text.isBlank c = false
  unbroken : '\n' ∉ text

theorem Plain.trim_eq {text : List Char} (plain : Plain text) : Text.trim text = text := by
  obtain ⟨⟨c, rest, starts, solid, -⟩, ⟨before, d, ends, solid'⟩, -⟩ := plain
  apply Text.trim_eq_self
  · simp [starts, solid]
  · simp [ends, solid']

theorem significantFrom_of_plain {lines : List (List Char)} (plain : ∀ line ∈ lines, Plain line)
    (line : Nat) : significantFrom line lines = lines.zipIdx line := by
  induction lines generalizing line with
  | nil => rfl
  | cons text rest ih =>
    obtain ⟨here, plain⟩ := List.forall_mem_cons.mp plain
    obtain ⟨c, more, starts, -, noComment, noMark⟩ := here.starts
    rw [significantFrom_cons, Line.ofText_eq, here.trim_eq, List.zipIdx_cons, ih plain]
    by_cases header : c = 'p' <;> simp [starts, noComment, noMark, header]

/-- The line of a header, without its line feed. -/
def headerText (f : Formula) : List Char :=
  ['p', ' ', 'c', 'n', 'f', ' '] ++ f.numVariables.repr.toList ++
    ' ' :: f.clauses.length.repr.toList

/-- The line of a clause, without its line feed. -/
def clauseText (clause : List Literal) : List Char :=
  clause.flatMap (fun l => l.text.toList ++ [' ']) ++ ['0']

theorem toList_write (f : Formula) :
    (write f).toList = (headerText f :: f.clauses.map clauseText).flatMap (· ++ ['\n']) := by
  simp [write, headerText, clauseText, clauseLine, String.toList_join, List.flatMap_map]

theorem mem_text {l : Literal} {c : Char} (member : c ∈ l.text.toList) :
    c.isDigit = true ∨ c = '-' := by
  rw [Literal.text, String.toList_append, List.mem_append] at member
  rcases member with sign | digits
  · right
    cases same : l.positive <;> simp_all [Literal.signText]
  · exact .inl (List.all_eq_true.mp (Text.numeral_repr _).digits c digits)

theorem text_ne_nil (l : Literal) : l.text.toList ≠ [] := by
  rw [Literal.text, String.toList_append]
  exact List.append_ne_nil_of_right_ne_nil _ (Text.numeral_repr _).ne_nil

/-- Such characters start lines that count and stand within words. -/
theorem solid_of_mem_text {l : Literal} {c : Char} (member : c ∈ l.text.toList) :
    Text.isBlank c = false ∧ c ≠ 'c' ∧ c ≠ '%' ∧ c ≠ 'p' ∧ c ≠ '\n' := by
  rcases mem_text member with isDigit | rfl
  · refine ⟨Text.isBlank_of_isDigit isDigit, ?_, ?_, ?_, ?_⟩
    all_goals
      rintro rfl
      cases isDigit
  · decide

theorem signedText_text {l : Literal} (limited : l.var + 1 < UInt64.size / 2) :
    Text.SignedText l.text.toList l.toInt := by
  have numeral := Text.numeral_repr (l.var + 1)
  rw [Literal.text, String.toList_append]
  obtain ⟨var, positive⟩ := l
  cases positive with
  | true => exact .plain numeral limited
  | false =>
    have minus := Text.SignedText.minus numeral limited.le
    simpa [Literal.signText, Literal.toInt] using minus

theorem clauseText_cons (l : Literal) (clause : List Literal) :
    clauseText (l :: clause) = l.text.toList ++ ' ' :: clauseText clause := by
  simp [clauseText]

theorem spaced_clauseText (clause : List Literal) :
    Text.Spaced (clauseText clause) (clause.map (·.text.toList) ++ [['0']]) := by
  induction clause with
  | nil => exact Text.spaced_last (List.cons_ne_nil _ _) (Text.solid_of_all rfl)
  | cons l rest ih =>
    rw [clauseText_cons]
    exact Text.spaced_word (text_ne_nil l) (fun c member => (solid_of_mem_text member).1) ih

/-- A clause line starts with the zero or with a digit or minus sign of its first literal. -/
theorem clauseText_starts (clause : List Literal) : ∃ c rest, clauseText clause = c :: rest ∧
    Text.isBlank c = false ∧ c ≠ 'c' ∧ c ≠ '%' ∧ c ≠ 'p' ∧ c ≠ '\n' := by
  cases clause with
  | nil => exact ⟨'0', [], rfl, by decide⟩
  | cons l rest =>
    cases same : l.text.toList with
    | nil => exact absurd same (text_ne_nil l)
    | cons c more =>
      refine ⟨c, more ++ ' ' :: clauseText rest, by rw [clauseText_cons, same]; rfl, ?_⟩
      exact solid_of_mem_text (same ▸ List.mem_cons_self)

theorem plain_clauseText (clause : List Literal) : Plain (clauseText clause) where
  starts := by
    obtain ⟨c, rest, starts, solid, noComment, noMark, -⟩ := clauseText_starts clause
    exact ⟨c, rest, starts, solid, noComment, noMark⟩
  ends := ⟨_, '0', rfl, by decide⟩
  unbroken := by
    intro member
    simp only [clauseText, List.mem_append, List.mem_flatMap, List.mem_singleton, or_false,
      Char.reduceEq] at member
    obtain ⟨l, -, inside⟩ := member
    exact absurd rfl (solid_of_mem_text inside).2.2.2.2

theorem solid_repr (n : Nat) : ∀ c ∈ n.repr.toList, Text.isBlank c = false := fun c member =>
  Text.isBlank_of_isDigit (List.all_eq_true.mp (Text.numeral_repr n).digits c member)

theorem spaced_headerText (f : Formula) : Text.Spaced (headerText f)
    [['p'], ['c', 'n', 'f'], f.numVariables.repr.toList, f.clauses.length.repr.toList] := by
  have last := Text.spaced_last (Text.numeral_repr f.clauses.length).ne_nil (solid_repr _)
  have counts := Text.spaced_word (Text.numeral_repr f.numVariables).ne_nil (solid_repr _) last
  have named := Text.spaced_word (List.cons_ne_nil 'c' ['n', 'f']) (Text.solid_of_all rfl) counts
  have whole := Text.spaced_word (List.cons_ne_nil 'p' []) (Text.solid_of_all rfl) named
  rw [headerText]
  simpa using whole

theorem plain_headerText (f : Formula) : Plain (headerText f) where
  starts := ⟨'p', _, rfl, by decide⟩
  ends := by
    have nonempty := (Text.numeral_repr f.clauses.length).ne_nil
    obtain ⟨before, c, last⟩ :=
      (List.eq_nil_or_concat f.clauses.length.repr.toList).resolve_left nonempty
    refine ⟨['p', ' ', 'c', 'n', 'f', ' '] ++ f.numVariables.repr.toList ++ ' ' :: before, c, ?_,
      ?_⟩
    · simp [headerText, last]
    · exact solid_repr f.clauses.length c (by simp [last])
  unbroken := by
    intro member
    have inside : '\n' ∈ f.numVariables.repr.toList ∨ '\n' ∈ f.clauses.length.repr.toList := by
      simpa [headerText] using member
    rcases inside with inside | inside <;> cases solid_repr _ _ inside

theorem significant_write (f : Formula) : significant (Text.lines (write f)) =
    (headerText f, 1) :: (f.clauses.map clauseText).zipIdx 2 := by
  have plain : ∀ line ∈ headerText f :: f.clauses.map clauseText, Plain line := by
    simp only [List.forall_mem_cons, List.forall_mem_map]
    exact ⟨plain_headerText f, fun clause _ => plain_clauseText clause⟩
  have lines : Text.splitLines '\n' '\r' (write f).toList =
      headerText f :: f.clauses.map clauseText := by
    rw [toList_write]
    refine Text.splitLines_ended (fun line member => (plain line member).unbroken) ?_
    intro line member returned
    obtain ⟨before, c, rfl, solid⟩ := (plain line member).ends
    obtain rfl : c = '\r' := by simpa using returned
    cases solid
  have texts : (Text.lines (write f)).map String.toList =
      headerText f :: f.clauses.map clauseText := by
    rw [Text.lines, lines, List.map_map]
    exact (List.map_congr_left fun _ _ => String.toList_ofList).trans (List.map_id _)
  rw [significant, texts, significantFrom_of_plain plain, List.zipIdx_cons]

theorem natAbs_toInt (l : Literal) : l.toInt.natAbs = l.var + 1 := by
  rw [Literal.toInt]
  split <;> omega

theorem entries_clause {clause : List Literal} {n : Nat} (declared : ∀ l ∈ clause, l.var < n)
    (limited : n < Literal.variableLimit) :
    List.Forall₂ (Entry n) (clause.map (·.text.toList) ++ [['0']])
      (clause.map Literal.toInt ++ [0]) := by
  induction clause with
  | nil => exact .cons ⟨.plain (Text.numeral_repr 0) (by decide), Nat.zero_le n⟩ .nil
  | cons l rest ih =>
    obtain ⟨here, declared⟩ := List.forall_mem_cons.mp declared
    have fits : l.var + 1 < UInt64.size / 2 := by
      rw [Literal.variableLimit] at limited
      omega
    exact .cons ⟨signedText_text fits, (natAbs_toInt l).trans_le here⟩ (ih declared)

theorem clauseLine_clauseText {clause : List Literal} {n : Nat}
    (declared : ∀ l ∈ clause, l.var < n) (limited : n < Literal.variableLimit) :
    ClauseLine n (clauseText clause) (clause.map Literal.toInt ++ [0]) := by
  obtain ⟨c, rest, starts, -, -, -, unlike, -⟩ := clauseText_starts clause
  exact .mk (by simpa [starts] using unlike) (spaced_clauseText clause)
    (entries_clause declared limited) (by simp)

/-- Each clause stands on a line of its own. -/
theorem clauseLines_written {clauses : List (List Literal)} {n : Nat}
    (declared : ∀ clause ∈ clauses, ∀ l ∈ clause, l.var < n) (limited : n < Literal.variableLimit)
    (line : Nat) :
    List.Forall₂ (fun line => ClauseLine n line.1) ((clauses.map clauseText).zipIdx line)
      (clauses.map fun clause => clause.map Literal.toInt ++ [0]) := by
  induction clauses generalizing line with
  | nil => exact .nil
  | cons clause rest ih =>
    obtain ⟨here, declared⟩ := List.forall_mem_cons.mp declared
    exact .cons (clauseLine_clauseText here limited) (ih declared (line + 1))

theorem clauseNumbers_ended (clause : List Literal) :
    clauseNumbers (clause.map Literal.toInt ++ [0]) = [clause.map Literal.toInt] := by
  have apart : ∀ x ∈ clause.map Literal.toInt, (x == 0) = false := by
    intro x member
    obtain ⟨l, -, rfl⟩ := List.mem_map.mp member
    have := natAbs_toInt l
    rw [beq_eq_false_iff_ne]
    omega
  rw [clauseNumbers, List.splitOn, List.splitOnP_append_cons_of_forall_mem apart 0 rfl]
  rfl

/-- Within the limit the written lines are grammatical. -/
theorem grammatical_write {f : Formula} (limited : f.numVariables < Literal.variableLimit)
    (counted : f.clauses.length < UInt64.size) :
    Grammatical (Text.lines (write f)) f.numVariables f.clauses.length
      (f.clauses.map fun clause => clause.map Literal.toInt ++ [0]) := by
  refine .mk (significant_write f) (.mk (spaced_headerText f) ?_ limited ?_)
    (clauseLines_written f.declared limited 2)
  · exact .plain (Text.numeral_repr _) (limited.trans (by decide))
  · exact .plain (Text.numeral_repr _) counted

/-- Beyond the limit the header is malformed. -/
theorem firstFault_write {f : Formula} (beyond : Literal.variableLimit ≤ f.numVariables) :
    FirstFault (Text.lines (write f)) (.malformedHeader 1) := by
  refine .malformedHeader (significant_write f) rfl ?_
  rintro n m ⟨spaced, declared, limited, -⟩
  have same := (spaced_headerText f).words_eq.symm.trans spaced.words_eq
  obtain ⟨rfl, -⟩ : f.numVariables.repr.toList = _ ∧ _ := by simpa using same
  have := declared.eq_of_repr
  omega

/-- Within the limit the text of a formula is read as the formula. -/
theorem ofText_write {f : Formula} (limited : f.numVariables < Literal.variableLimit)
    (counted : f.clauses.length < UInt64.size) :
    ofText (write f) = .ok ⟨f, f.clauses.length⟩ := by
  have spelled : f.clauses = (f.clauses.map fun clause =>
      clause.map Literal.toInt ++ [0]).flatMap clausesOf := by
    rw [eq_flatMap_clausesOf_iff, List.flatMap_map]
    simp only [clauseNumbers_ended]
    exact List.map_eq_flatMap
  rw [ofText, (grammatical_write limited counted).ofLines_eq, ← spelled, Formula.ofClauses_eq]

/-- The formula with the last variable that a literal can be over. -/
def farthest : Formula :=
  (Formula.empty 0).addClause [⟨Literal.variableLimit - 1, true⟩]

theorem built_farthest : farthest.Built :=
  .addClause (.empty (by decide)) (by decide) (by decide)

/-- A formula that can be built is read back as it was written, with the same variables
and the same clauses in the same order, if its variables are within the limit; beyond the
limit its own header is refused. Building comes as far as the limit. -/
theorem written_is_read_back :
    (∀ f : Formula, f.Built →
      (f.numVariables < Literal.variableLimit →
        ofText (write f) = .ok ⟨f, f.clauses.length⟩) ∧
      (Literal.variableLimit ≤ f.numVariables →
        ofText (write f) = .error (.malformedHeader 1))) ∧
    ∃ f : Formula, f.Built ∧ Literal.variableLimit ≤ f.numVariables := by
  refine ⟨fun f built => ⟨fun limited => ofText_write limited built.counted, fun beyond => ?_⟩, ?_⟩
  · exact (firstFault_write beyond).ofLines_eq
  · exact ⟨farthest, built_farthest, by decide⟩

/-- An empty clause, a clause with repeated and complementary literals and variables that
do not occur are all read back. At the limit the text is refused. -/
theorem written_is_read_back_farthest :
    (∃ f : Formula, f.Built ∧ write f = "p cnf 5 2\n0\n1 -1 1 0\n" ∧
      f.clauses = [[], [⟨0, true⟩, ⟨0, false⟩, ⟨0, true⟩]] ∧ ofText (write f) = .ok ⟨f, 2⟩) ∧
    write farthest = "p cnf 9223372036854775807 1\n9223372036854775807 0\n" ∧
    ofText (write farthest) = .error (.malformedHeader 1) := by
  have built : (((Formula.empty 5).addClause []).addClause
      [⟨0, true⟩, ⟨0, false⟩, ⟨0, true⟩]).Built :=
    .addClause (.addClause (.empty (by decide)) (by decide) (by decide)) (by decide) (by decide)
  refine ⟨⟨_, built, ?_, rfl, ?_⟩, ?_, ?_⟩
  · decide +kernel
  · exact (written_is_read_back.1 _ built).1 (by decide)
  · decide +kernel
  · exact (written_is_read_back.1 _ built_farthest).2 (by decide)

end Dimacs

end ClauseLearning
