import ClauseLearning.Proofs.Assigning
import ClauseLearning.Proofs.NormalClauses
import ClauseLearning.Search.Learning

/-! Conflict analysis from a falsified clause above level 0. The working clause
keeps false literals only; resolving along the newest level leaves one literal
there, because every literal of that level but the decision was implied by earlier
ones. Whatever each step of this walk keeps holds at its end, among it that the
working clause follows from the clauses and the facts. -/
namespace ClauseLearning

open State

namespace Trail

/-- The literal became false at this level. -/
def FalseAt (t : Trail) (l : Literal) (k : Nat) : Prop :=
  t.TrueAt l.negate k

variable {t : Trail}

theorem FalseAt.unique (first : t.FalseAt l j) (second : t.FalseAt l k) : j = k :=
  true_at_unique first second

/-- The entry of the variable of a false literal. -/
theorem FalseAt.entry (fails : t.FalseAt l k) :
    ∃ e, t.assignment.find? l.var = some e ∧ e.level = k ∧ e.positive ≠ l.positive := by
  obtain ⟨e, found, signs, level⟩ := fails
  refine ⟨e, found, level, ?_⟩
  rw [signs, Literal.positive_negate]
  cases l.positive <;> simp

theorem FalseAt.level? (fails : t.FalseAt l k) : t.assignment.level? l.var = some k := by
  obtain ⟨e, found, level, -⟩ := fails.entry
  rw [Assignment.level?, found, Option.map_some, level]

end Trail

namespace Resolvent

/-! ## The order of the lower literals -/

theorem before_trans {a : Assignment} {x y z : Literal} (first : before a x y = true)
    (second : before a y z = true) : before a x z = true := by
  simp only [before, Literal.precedes, Bool.or_eq_true, Bool.and_eq_true, decide_eq_true_eq,
    beq_iff_eq] at first second ⊢
  omega

theorem before_connected {a : Assignment} {x y : Literal} (first : before a x y = false)
    (second : before a y x = false) : x = y := by
  simp only [before, Bool.or_eq_false_iff, Bool.and_eq_false_iff, decide_eq_false_iff_not,
    beq_eq_false_iff_ne, ne_eq] at first second
  have levels : (a.level? x.var).getD 0 = (a.level? y.var).getD 0 := by omega
  exact Literal.eq_of_not_precedes (first.2.resolve_left fun differ => differ levels)
    (second.2.resolve_left fun differ => differ levels.symm)

/-- The levels of ordered literals do not increase. -/
theorem level_le_of_before {t : Trail} (ordered : before t.assignment x y = true)
    (first : t.FalseAt x j) (second : t.FalseAt y k) : k ≤ j := by
  simp only [before, first.level?, second.level?, Option.getD_some, Bool.or_eq_true,
    Bool.and_eq_true, decide_eq_true_eq, beq_iff_eq] at ordered
  omega

/-! ## The working clause -/

/-- All literals of the working clause are false, none at level 0, and sorted
into those of the current level and the others. -/
structure Fits (t : Trail) (r : Resolvent) : Prop where
  current : ∀ l ∈ r.current, t.FalseAt l t.level
  once : r.current.Nodup
  lower : ∀ l ∈ r.lower, ∃ k, 0 < k ∧ k < t.level ∧ t.FalseAt l k
  ordered : r.lower.Pairwise (before t.assignment · · = true)

/-- One working clause is another one with these false literals added to it. -/
structure Gains (t : Trail) (r : Resolvent) (literals : List Literal) (r' : Resolvent) : Prop where
  fits : r'.Fits t
  current : ∀ m, m ∈ r'.current ↔ m ∈ r.current ∨ (m ∈ literals ∧ t.FalseAt m t.level)
  lower : ∀ m, m ∈ r'.lower ↔
    m ∈ r.lower ∨ (m ∈ literals ∧ ∃ k, 0 < k ∧ k < t.level ∧ t.FalseAt m k)

variable {t : Trail} {r r' : Resolvent}

/-- A literal that is in the working clause already, or false at level 0, adds nothing. -/
theorem Gains.nothing (fits : r.Fits t) (current : t.FalseAt l t.level → l ∈ r.current)
    (lower : ∀ k, 0 < k → k < t.level → ¬ t.FalseAt l k) : Gains t r [l] r where
  fits := fits
  current := by
    refine fun m => ⟨.inl, ?_⟩
    rintro (member | ⟨same, fails⟩)
    · exact member
    · rw [List.mem_singleton] at same
      subst same
      exact current fails
  lower := by
    refine fun m => ⟨.inl, ?_⟩
    rintro (member | ⟨same, k, positive, below, fails⟩)
    · exact member
    · rw [List.mem_singleton] at same
      subst same
      exact absurd fails (lower k positive below)

/-- A new literal of the current level. -/
theorem Gains.current_cons (fits : r.Fits t) (fails : t.FalseAt l t.level)
    (new : l ∉ r.current) : Gains t r [l] { r with current := l :: r.current } where
  fits := {
    current := List.forall_mem_cons.mpr ⟨fails, fits.current⟩
    once := List.nodup_cons.mpr ⟨new, fits.once⟩
    lower := fits.lower
    ordered := fits.ordered }
  current := by
    intro m
    rw [List.mem_cons, List.mem_singleton, or_comm]
    refine or_congr Iff.rfl ⟨fun same => ⟨same, same ▸ fails⟩, And.left⟩
  lower := by
    refine fun m => ⟨.inl, ?_⟩
    rintro (member | ⟨same, k, -, below, fails'⟩)
    · exact member
    · rw [List.mem_singleton] at same
      subst same
      exact absurd (fails'.unique fails) (Nat.ne_of_lt below)

/-- A literal of a level between 0 and the current one goes to its place. -/
theorem Gains.lower_insert (fits : r.Fits t) (fails : t.FalseAt l k) (positive : 0 < k)
    (below : k < t.level) :
    Gains t r [l] { r with lower := SortedSet.insert (before t.assignment) l r.lower } := by
  have inserted : ∀ m, m ∈ SortedSet.insert (before t.assignment) l r.lower ↔
      m = l ∨ m ∈ r.lower := fun m => SortedSet.mem_insert fun _ _ => before_connected
  exact {
    fits := {
      current := fits.current
      once := fits.once
      lower := by
        intro m member
        rcases (inserted m).mp member with rfl | member
        · exact ⟨k, positive, below, fails⟩
        · exact fits.lower m member
      ordered := SortedSet.insert_pairwise l r.lower (fun _ _ => before_connected)
        (fun _ _ _ => before_trans) fits.ordered }
    current := by
      refine fun m => ⟨.inl, ?_⟩
      rintro (member | ⟨same, fails'⟩)
      · exact member
      · rw [List.mem_singleton] at same
        subst same
        exact absurd (fails.unique fails') (Nat.ne_of_lt below)
    lower := by
      intro m
      rw [inserted, or_comm, List.mem_singleton]
      refine or_congr Iff.rfl ⟨fun same => ?_, And.left⟩
      subst same
      exact ⟨rfl, k, positive, below, fails⟩ }

theorem add_gains (fits : r.Fits t) (fails : t.FalseAt l k) (bound : k ≤ t.level)
    (above : 0 < t.level) :
    ∃ r', add t.assignment t.level r l = .ok r' ∧ Gains t r [l] r' := by
  obtain ⟨e, found, level, signs⟩ := fails.entry
  unfold add
  rw [found]
  simp only [level, if_neg signs]
  by_cases ground : k = 0
  · rw [if_pos ground]
    refine ⟨r, rfl, .nothing fits (fun here => ?_) fun j positive _ here => ?_⟩
    · exact absurd (here.unique fails) (by omega)
    · exact absurd (here.unique fails) (by omega)
  · rw [if_neg ground]
    by_cases top : k = t.level
    · subst top
      rw [if_pos rfl]
      by_cases known : l ∈ r.current
      · rw [if_pos known]
        refine ⟨r, rfl, .nothing fits (fun _ => known) fun j _ below here => ?_⟩
        exact absurd (here.unique fails) (Nat.ne_of_lt below)
      · rw [if_neg known]
        exact ⟨_, rfl, .current_cons fits fails known⟩
    · rw [if_neg top]
      exact ⟨_, rfl, .lower_insert fits fails (by omega) (by omega)⟩

theorem addAll_gains (literals : List Literal) (fits : r.Fits t) (above : 0 < t.level)
    (coherent : t.Coherent) (fails : ∀ l ∈ literals, t.value? l = some false) :
    ∃ r', addAll t.assignment t.level r literals = .ok r' ∧ Gains t r literals r' := by
  induction literals generalizing r with
  | nil => exact ⟨r, rfl, fits, by simp, by simp⟩
  | cons l rest ih =>
    obtain ⟨k, here⟩ := Trail.value?_eq_false_iff.mp (fails l (by simp))
    obtain ⟨r₁, ran, first⟩ := add_gains fits here (coherent.le_level here) above
    obtain ⟨r₂, ran', second⟩ := ih first.fits fun m member => fails m (by simp [member])
    refine ⟨r₂, ?_, second.fits, fun m => ?_, fun m => ?_⟩
    · unfold addAll at ran' ⊢
      rw [List.foldlM_cons, ran]
      exact ran'
    · rw [second.current, first.current, List.mem_singleton, List.mem_cons]
      grind
    · rw [second.lower, first.lower, List.mem_singleton, List.mem_cons]
      grind

/-! ## Resolving -/

variable {s : State}

/-- A false literal that holds under the facts is not false at level 0. -/
theorem positive_of_holds (facts : ∀ l, s.trail.TrueAt l 0 → l.Holds w) (holds : m.Holds w)
    (fails : s.trail.FalseAt m k) : 0 < k := by
  rcases Nat.eq_zero_or_pos k with rfl | positive
  · exact absurd holds (Literal.holds_negate.mp (facts m.negate fails))
  · exact positive

/-- Whatever of false literals holds is kept by adding them. -/
theorem Gains.holds (gains : Gains s.trail r literals r') (trail : s.trail.Coherent)
    (facts : ∀ l, s.trail.TrueAt l 0 → l.Holds w) (member : m ∈ literals) (holds : m.Holds w)
    (fails : s.trail.value? m = some false) : m ∈ r'.current ++ r'.lower := by
  obtain ⟨k, here⟩ := Trail.value?_eq_false_iff.mp fails
  have positive := positive_of_holds facts holds here
  rw [List.mem_append]
  rcases Nat.lt_or_eq_of_le (trail.le_level here) with below | rfl
  · exact .inr ((gains.lower m).mpr (.inr ⟨member, k, positive, below, here⟩))
  · exact .inl ((gains.current m).mpr (.inr ⟨member, here⟩))

/-- One working clause comes from another by resolving a literal away: its negation gives
place to the other literals of the clause that implied it, all of them false. -/
structure Resolves (s : State) (l : Literal) (c : Clause) (r r' : Resolvent) : Prop where
  member : l.negate ∈ r.current
  implied : ∃ index, s.trail.reason l = some index ∧ s.store.clause? index = some c
  inside : l ∈ c.literals
  fails : ∀ m ∈ c.literals.filter (· ≠ l), s.trail.value? m = some false
  gains : Gains s.trail { r with current := r.current.erase l.negate }
    (c.literals.filter (· ≠ l)) r'

theorem Resolves.mem_current_iff (resolves : Resolves s l c r r') (once : r.current.Nodup) :
    m ∈ r'.current ↔ (m ∈ r.current ∧ m ≠ l.negate) ∨
      (m ∈ c.literals ∧ m ≠ l ∧ s.trail.FalseAt m s.level) := by
  rw [resolves.gains.current, once.mem_erase_iff, List.mem_filter, decide_eq_true_iff, and_assoc,
    and_comm (a := m ≠ l.negate)]
  exact Iff.rfl

/-- Resolving keeps what holds: if the literal resolved away does, another literal of the
clause that implied it does. -/
theorem Resolves.holds (resolves : Resolves s l c r r') (trail : s.trail.Coherent)
    (once : r.current.Nodup) (facts : ∀ l, s.trail.TrueAt l 0 → l.Holds w)
    (satisfied : ClauseHolds w c.literals) (holds : ClauseHolds w (r.current ++ r.lower)) :
    ClauseHolds w (r'.current ++ r'.lower) := by
  obtain ⟨m, among, holds⟩ := holds
  by_cases resolved : m = l.negate
  · subst resolved
    obtain ⟨o, inside, holds'⟩ := satisfied
    have different : o ≠ l := by
      rintro rfl
      exact Literal.holds_negate.mp holds holds'
    have among' : o ∈ c.literals.filter (· ≠ l) := by simp [inside, different]
    exact ⟨o, resolves.gains.holds trail facts among' holds' (resolves.fails o among'), holds'⟩
  · refine ⟨m, ?_, holds⟩
    rw [List.mem_append] at among ⊢
    rcases among with among | among
    · exact .inl ((resolves.gains.current m).mpr (.inl (once.mem_erase_iff.mpr ⟨resolved, among⟩)))
    · exact .inr ((resolves.gains.lower m).mpr (.inl among))

/-- How far a walk along the newest level came. The literals passed were resolved away or
skipped; at least one current literal is left, and each became false by one that remains. -/
structure Walked (s : State) (passed remaining : List Literal) (r : Resolvent) : Prop where
  split : s.trail.top = passed ++ remaining
  fits : r.Fits s.trail
  nonempty : r.current ≠ []
  covered : ∀ m ∈ r.current, m.negate ∈ remaining

variable {passed remaining older : List Literal}

/-- A literal that can be resolved away is true at the current level. -/
theorem Walked.true_at (walked : Walked s passed remaining r) (member : l.negate ∈ r.current) :
    s.trail.TrueAt l s.level := by
  have fails := walked.fits.current l.negate member
  rwa [Trail.FalseAt, Literal.negate_negate] at fails

/-- A current literal other than the next one's negation became false before that one. -/
theorem Walked.mem_older (walked : Walked s passed (l :: older) r) (member : m ∈ r.current)
    (different : m ≠ l.negate) : m.negate ∈ older := by
  refine (List.mem_cons.mp (walked.covered m member)).resolve_left fun same => different ?_
  rw [← same, Literal.negate_negate]

theorem Walked.skip (walked : Walked s passed (l :: older) r) (absent : l.negate ∉ r.current) :
    Walked s (passed ++ [l]) older r where
  split := by simp [walked.split]
  fits := walked.fits
  nonempty := walked.nonempty
  covered := by
    intro m member
    apply walked.mem_older member
    rintro rfl
    exact absent member

/-- A literal of the newest level was implied by a clause if others remain below it. -/
theorem Walked.exists_reason (walked : Walked s passed (l :: older) r) (layered : s.trail.Layered)
    (above : 0 < s.level) (more : older ≠ []) : ∃ index, s.trail.reason l = some index := by
  obtain ⟨inLevels, -⟩ := Trail.newestFirst_split (t := s.trail) above
  have led : s.trail.Led (passed ++ l :: older) := walked.split ▸ layered _ inLevels
  exact Option.ne_none_iff_exists'.mp (led.reason_ne_none more)

/-- With several current literals the decision of the level is not reached yet. -/
theorem Walked.older_ne_nil (walked : Walked s passed (l :: older) r)
    (several : 1 < r.current.length) : older ≠ [] := by
  rintro rfl
  have subset : r.current ⊆ [l.negate] := by
    intro m among
    have same := List.mem_singleton.mp (walked.covered m among)
    rw [List.mem_singleton, ← same, Literal.negate_negate]
  have short := (walked.fits.once.subperm subset).length_le
  simp only [List.length_singleton] at short
  omega

/-- Resolving a literal away succeeds, and the walk goes on: only literals that became
false before it come in, and one of them is current. -/
theorem Walked.resolve (walked : Walked s passed (l :: older) r) (coherent : s.Coherent)
    (layered : s.trail.Layered) (above : 0 < s.level) (several : 1 < r.current.length)
    (member : l.negate ∈ r.current) :
    ∃ c r', resolve s.store s.trail.assignment s.level r l = .ok r' ∧ Resolves s l c r r' ∧
      Walked s (passed ++ [l]) older r' := by
  obtain ⟨index, known⟩ := walked.exists_reason layered above (walked.older_ne_nil several)
  obtain ⟨inLevels, below, whole⟩ := Trail.newestFirst_split (t := s.trail) above
  have whole' : s.trail.newestFirst = passed ++ l :: (older ++ below) := by
    simp [whole, walked.split]
  obtain ⟨c, living, inside, earlier, peer⟩ :=
    coherent.explained passed l (older ++ below) index whole' known
  have holds : s.trail.TrueAt l s.trail.level := walked.true_at member
  let rest := c.literals.filter (· ≠ l)
  have mem_rest : ∀ m, m ∈ rest ↔ m ∈ c.literals ∧ m ≠ l := by simp [rest]
  have fails : ∀ m ∈ rest, s.trail.value? m = some false := by
    intro m among
    obtain ⟨among, different⟩ := (mem_rest m).mp among
    have onTrail : m.negate ∈ s.trail.newestFirst := by
      rw [whole']
      exact List.mem_append_right _ (List.mem_cons_of_mem _ (earlier m among different))
    exact Trail.value?_eq_false_iff.mpr (coherent.trail.true_at_of_mem onTrail)
  let left : Resolvent := { r with current := r.current.erase l.negate }
  have left_fits : left.Fits s.trail := {
    current := fun m among => walked.fits.current m (List.mem_of_mem_erase among)
    once := walked.fits.once.erase _
    lower := walked.fits.lower
    ordered := walked.fits.ordered }
  obtain ⟨r', ran, gains⟩ := addAll_gains rest left_fits above coherent.trail fails
  have resolves : Resolves s l c r r' := ⟨member, ⟨index, known, living⟩, inside, fails, gains⟩
  refine ⟨c, r', ?_, resolves, by simp [walked.split], gains.fits, ?_, fun m among => ?_⟩
  · have antecedent : (s.trail.assignment.find? l.var).bind Entry.antecedent = some index := known
    unfold Resolvent.resolve
    rw [antecedent]
    simp only [ClauseStore.get_eq_ok_iff.mpr living]
    change (if l ∉ c.literals then _ else _) = _
    rw [if_neg (not_not.mpr inside)]
    exact ran
  · obtain ⟨m, inside', different, fails'⟩ := peer s.level above holds
    have kept : m ∈ r'.current :=
      (gains.current m).mpr (.inr ⟨(mem_rest m).mpr ⟨inside', different⟩, fails'⟩)
    exact List.ne_nil_of_mem kept
  · rcases (resolves.mem_current_iff walked.fits.once).mp among with
      ⟨before, different⟩ | ⟨inside', different, fails'⟩
    · exact walked.mem_older before different
    · rcases List.mem_append.mp (earlier m inside' different) with here | lower
      · exact here
      · -- a literal of this level is not among those below it
        have onTop : m.negate ∈ s.trail.top := coherent.trail.mem_top_iff.mpr fails'
        have distinct := coherent.trail.nodup
        rw [whole] at distinct
        exact absurd lower (List.disjoint_of_nodup_append distinct onTop)

/-- What the analysis of the clause at this index keeps, of the literals passed and the
working clause: it holds at the start, and passing one more literal keeps it. -/
structure Kept (s : State) (i : Nat) (P : List Literal → Resolvent → Prop) : Prop where
  start : ∀ c r, s.store.clause? i = some c → (∀ m ∈ c.literals, s.trail.value? m = some false) →
    Gains s.trail ⟨[], []⟩ c.literals r → P [] r
  skip : ∀ passed l older r, Walked s passed (l :: older) r → 1 < r.current.length →
    l.negate ∉ r.current → P passed r → P (passed ++ [l]) r
  resolve : ∀ passed l older c r r', Walked s passed (l :: older) r → 1 < r.current.length →
    Resolves s l c r r' → P passed r → P (passed ++ [l]) r'

theorem Kept.and {P Q : List Literal → Resolvent → Prop} (first : Kept s i P)
    (second : Kept s i Q) : Kept s i fun passed r => P passed r ∧ Q passed r where
  start := fun c r living all gains =>
    ⟨first.start c r living all gains, second.start c r living all gains⟩
  skip := fun passed l older r walked several absent holds =>
    ⟨first.skip passed l older r walked several absent holds.1,
      second.skip passed l older r walked several absent holds.2⟩
  resolve := fun passed l older c r r' walked several resolves holds =>
    ⟨first.resolve passed l older c r r' walked several resolves holds.1,
      second.resolve passed l older c r r' walked several resolves holds.2⟩

/-- Resolving along the newest level leaves one literal of it, and keeps whatever each
step keeps. -/
theorem Kept.resolveAlong {P : List Literal → Resolvent → Prop} (kept : Kept s i P)
    (coherent : s.Coherent) (layered : s.trail.Layered) (above : 0 < s.level)
    (walked : Walked s passed remaining r) (holds : P passed r) :
    ∃ passed' remaining' last asserting,
      resolveAlong s.store s.trail.assignment s.level remaining r = .ok last ∧
      Walked s passed' remaining' last ∧ last.current = [asserting] ∧ P passed' last := by
  induction remaining generalizing r passed with
  | nil =>
    obtain ⟨m, rest, shape⟩ := List.exists_cons_of_ne_nil walked.nonempty
    exact absurd (walked.covered m (by simp [shape])) List.not_mem_nil
  | cons l older ih =>
    unfold Resolvent.resolveAlong
    by_cases single : r.current.length ≤ 1
    · rw [if_pos single]
      have positive := List.length_pos_iff.mpr walked.nonempty
      obtain ⟨asserting, shape⟩ := List.length_eq_one_iff.mp (show r.current.length = 1 by omega)
      exact ⟨passed, l :: older, r, asserting, rfl, walked, shape, holds⟩
    · rw [if_neg single]
      have several : 1 < r.current.length := by omega
      by_cases member : l.negate ∈ r.current
      · rw [if_pos member]
        obtain ⟨c, r', ran, resolves, walked'⟩ :=
          walked.resolve coherent layered above several member
        rw [ran]
        exact ih walked' (kept.resolve passed l older c r r' walked several resolves holds)
      · rw [if_neg member]
        exact ih (walked.skip member) (kept.skip passed l older r walked several member holds)

end Resolvent

/-! ## The learned clause -/

namespace Learned

/-- What a learned clause promises of the trail it was learned on: one literal is
false at the current level, the others at levels up to the return level. -/
structure Fits (t : Trail) (l : Learned) : Prop where
  asserting : t.FalseAt l.asserting t.level
  others : ∀ m ∈ l.others, ∃ k, 0 < k ∧ k ≤ l.returnLevel ∧ t.FalseAt m k
  deepest : ∀ m rest, l.others = m :: rest → t.FalseAt m l.returnLevel
  alone : l.others = [] → l.returnLevel = 0
  below : l.returnLevel < t.level
  ordered : l.others.Pairwise (Resolvent.before t.assignment · · = true)
  distance : l.blockDistance = Resolvent.levelCount t.assignment l.literals

variable {t : Trail} {l : Learned}

theorem Fits.falseAt (fits : l.Fits t) (member : m ∈ l.literals) : ∃ k, 0 < k ∧ t.FalseAt m k := by
  rcases List.mem_cons.mp member with rfl | member
  · exact ⟨t.level, Nat.zero_lt_of_lt fits.below, fits.asserting⟩
  · obtain ⟨k, positive, -, fails⟩ := fits.others m member
    exact ⟨k, positive, fails⟩

/-- The asserting literal is not among the others: its level is higher. -/
theorem Fits.nodup (fits : l.Fits t) : l.literals.Nodup := by
  refine List.nodup_cons.mpr ⟨fun again => ?_, fits.ordered.imp fun {a b} less => ?_⟩
  · obtain ⟨k, -, bound, fails⟩ := fits.others _ again
    have same := fails.unique fits.asserting
    have below := fits.below
    omega
  · rintro rfl
    simp [Resolvent.before, Literal.precedes] at less

theorem Fits.proper (fits : l.Fits t) (sized : t.assignment.numVariables = n) :
    l.clause.Proper n where
  ne_nil := List.cons_ne_nil _ _
  declared := by
    intro m member
    obtain ⟨k, -, fails⟩ := fits.falseAt member
    obtain ⟨e, found, -⟩ := fails.entry
    exact sized ▸ Assignment.lt_of_find? found
  distinct := by
    refine List.Nodup.map_on (fun a first b second vars => ?_) fits.nodup
    rcases Literal.eq_or_eq_negate vars with same | opposite
    · exact same
    · obtain ⟨j, -, fails⟩ := fits.falseAt first
      obtain ⟨k, -, fails'⟩ := fits.falseAt second
      rw [opposite] at fails
      exact absurd fails (Trail.not_true_at_negate fails')

end Learned

namespace Resolvent

variable {t : Trail} {r : Resolvent} {s : State}

/-- The working clause with one literal of the current level is learned. -/
theorem learned_fits (fits : r.Fits t) (above : 0 < t.level) (single : r.current = [asserting]) :
    ∃ l, learned t.assignment r = .ok l ∧ l.Fits t ∧ l.literals = r.current ++ r.lower := by
  have assertingFalse : t.FalseAt asserting t.level := fits.current asserting (by simp [single])
  unfold learned
  rw [single]
  cases shape : r.lower with
  | nil =>
    refine ⟨_, rfl, ⟨assertingFalse, by simp, ?_, fun _ => rfl, above, by simp, rfl⟩, rfl⟩
    intro m rest impossible
    cases impossible
  | cons first rest =>
    obtain ⟨k, positive, below, fails⟩ := fits.lower first (by simp [shape])
    have ordered := fits.ordered
    rw [shape] at ordered
    have deepest : ((first :: rest).head?.bind fun l => t.assignment.level? l.var).getD 0 = k := by
      simp [fails.level?]
    refine ⟨_, rfl, ⟨assertingFalse, ?_, ?_, nofun, ?_, ordered, rfl⟩, rfl⟩
    · intro m member
      rw [deepest]
      obtain ⟨j, positive', -, fails'⟩ := fits.lower m (by rw [shape]; exact member)
      rcases List.mem_cons.mp member with rfl | later
      · exact ⟨k, positive, Nat.le_refl k, fails⟩
      · have less := (List.pairwise_cons.mp ordered).1 m later
        exact ⟨j, positive', level_le_of_before less fails fails', fails'⟩
    · intro m rest' same
      obtain ⟨rfl, -⟩ := List.cons_eq_cons.mp same
      rw [deepest]
      exact fails
    · rw [deepest]
      exact below

end Resolvent

/-- A falsified clause has a literal that became false at the current level:
below it, a false watch goes with a true one. -/
theorem State.Falsified.current {s : State} (falsified : s.Falsified i) (coherent : s.Coherent) :
    ∃ c, s.store.clause? i = some c ∧ (∀ m ∈ c.literals, s.trail.value? m = some false) ∧
      ∃ m ∈ c.literals, s.trail.FalseAt m s.level := by
  obtain ⟨c, living, all⟩ := falsified
  obtain ⟨m, rest, shape⟩ := List.exists_cons_of_ne_nil (coherent.store.proper i c living).ne_nil
  have watched : m ∈ c.watched := by simp [Clause.watched, shape]
  have member := Clause.mem_of_mem_watched watched
  obtain ⟨k, fails⟩ := Trail.value?_eq_false_iff.mp (all m member)
  have bound : k ≤ s.level := coherent.trail.le_level fails
  refine ⟨c, living, all, m, member, ?_⟩
  rcases Nat.lt_or_eq_of_le bound with below | rfl
  · obtain ⟨o, other, j, -, holds⟩ := coherent.guarded i c m k living watched fails below
    have known := all o (Clause.mem_of_mem_watched other)
    rw [Trail.value?_of_true_at holds] at known
    cases known
  · exact fails

/-- Analysing a falsified clause above level 0 succeeds. It ends with one literal of the
current level, and with whatever its steps keep. -/
theorem Resolvent.Kept.analyze {s : State} {P : List Literal → Resolvent → Prop}
    (kept : Resolvent.Kept s i P) (coherent : s.Coherent) (layered : s.trail.Layered)
    (falsified : s.Falsified i) (above : 0 < s.level) :
    ∃ l passed remaining last, analyze s.store s.trail i = .ok (some l) ∧ l.Fits s.trail ∧
      Resolvent.Walked s passed remaining last ∧ last.current = [l.asserting] ∧
      last.lower = l.others ∧ P passed last := by
  obtain ⟨c, living, all, m, member, fails⟩ := falsified.current coherent
  have empty : Resolvent.Fits s.trail ⟨[], []⟩ := ⟨by simp, by simp, by simp, by simp⟩
  obtain ⟨start, ran, gains⟩ :=
    Resolvent.addAll_gains c.literals empty above coherent.trail all
  have nonempty : start.current ≠ [] :=
    List.ne_nil_of_mem ((gains.current m).mpr (.inr ⟨member, fails⟩))
  have walked : Resolvent.Walked s [] s.trail.top start :=
    ⟨rfl, gains.fits, nonempty,
      fun o among => coherent.trail.mem_top_iff.mpr (gains.fits.current o among)⟩
  obtain ⟨passed, remaining, last, asserting, ran', walked', single, holds⟩ :=
    kept.resolveAlong coherent layered above walked (kept.start c start living all gains)
  obtain ⟨l, learned, fits, literals⟩ := Resolvent.learned_fits walked'.fits above single
  have shape : l.asserting = asserting ∧ l.others = last.lower := by
    rw [single] at literals
    exact List.cons_eq_cons.mp literals
  refine ⟨l, passed, remaining, last, ?_, fits, walked', ?_, shape.2.symm, holds⟩
  · have notGround : s.trail.level ≠ 0 := Nat.ne_of_gt above
    have ran'' : Resolvent.resolveAlong s.store s.trail.assignment s.trail.level s.trail.top start
        = .ok last := ran'
    unfold ClauseLearning.analyze
    rw [if_neg notGround, ClauseStore.get_eq_ok_iff.mpr living]
    simp only [bind, Except.bind, ran, if_neg nonempty, ran'', learned, pure, Except.pure]
  · rw [single, shape.1]

/-- The falsified clause, the clauses that implied literals of the current level and the
facts of level 0 hold. -/
structure State.AdmitsConflict (s : State) (i : Nat) (w : Valuation) : Prop where
  conflict : ∀ c, s.store.clause? i = some c → ClauseHolds w c.literals
  antecedents : ∀ l j c, s.trail.TrueAt l s.level → s.trail.reason l = some j →
    s.store.clause? j = some c → ClauseHolds w c.literals
  facts : ∀ l, s.trail.TrueAt l 0 → l.Holds w

theorem State.Admits.conflict {s : State} (admits : s.Admits w) : s.AdmitsConflict i w where
  conflict := admits.1 i
  antecedents := fun _ j c _ _ => admits.1 j c
  facts := admits.2

/-- The working clause follows throughout from the falsified clause, the clauses it was
resolved with and the facts. -/
theorem Resolvent.kept_follows {s : State} (trail : s.trail.Coherent) :
    Resolvent.Kept s i fun _ r => ∀ w, s.AdmitsConflict i w → ClauseHolds w (r.current ++ r.lower)
    where
  start := by
    intro c r living all gains w admits
    obtain ⟨o, inside, holds⟩ := admits.conflict c living
    exact ⟨o, gains.holds trail admits.facts inside holds (all o inside), holds⟩
  skip := fun _ _ _ _ _ _ _ follows => follows
  resolve := by
    intro passed l older c r r' walked _ resolves follows w admits
    obtain ⟨index, known, living⟩ := resolves.implied
    have satisfied := admits.antecedents l index c (walked.true_at resolves.member) known living
    exact resolves.holds trail walked.fits.once admits.facts satisfied (follows w admits)

/-- Analysing a falsified clause above level 0 succeeds. What it learns follows
from the clauses and the facts. -/
theorem analyze_spec {s : State} (coherent : s.Coherent) (layered : s.trail.Layered)
    (falsified : s.Falsified i) (above : 0 < s.level) :
    ∃ l, analyze s.store s.trail i = .ok (some l) ∧ l.Fits s.trail ∧
      ∀ w, s.Admits w → ClauseHolds w l.literals := by
  obtain ⟨l, _, _, last, ran, fits, -, single, lower, follows⟩ :=
    (Resolvent.kept_follows coherent.trail).analyze coherent layered falsified above
  refine ⟨l, ran, fits, fun w admits => ?_⟩
  have holds := follows w admits.conflict
  rwa [single, lower] at holds

end ClauseLearning
