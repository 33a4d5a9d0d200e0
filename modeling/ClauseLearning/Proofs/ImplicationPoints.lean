import ClauseLearning.Proofs.ConflictAnalysis
import ClauseLearning.Proofs.TrailPositions

/-! Unique implication points. The literals of the current level and the clauses that
implied them make a graph, in which paths lead from the decision to the falsified
clause. What analysis still holds of the level cuts all of these paths, and the
literals that it has passed can all be avoided; so the one literal it ends with is
the newest that no path avoids. -/
namespace ClauseLearning

theorem Trail.Layered.of_decision? {t : Trail} (layered : t.Layered) (coherent : t.Coherent)
    (decision : t.decision? d = some l) (opened : d ≤ t.level) :
    t.TrueAt l d ∧ t.reason l = none := by
  cases d with
  | zero => cases decision
  | succ below =>
    obtain ⟨offset, first, starts, found, holds, free, -⟩ :=
      layered.decision coherent (Nat.succ_pos below) opened
    rw [Trail.decision?, show t.levelOffsets[below]? = some offset from starts, Option.bind_some,
      found] at decision
    cases decision
    exact ⟨holds, free⟩

namespace State

/-- One literal of the current level leads to another one: the clause that implied the
other has its negation. -/
def Leads (s : State) (m l : Literal) : Prop :=
  s.trail.TrueAt m s.level ∧ s.trail.TrueAt l s.level ∧
    ∃ i c, s.trail.reason l = some i ∧ s.store.clause? i = some c ∧ m.negate ∈ c.literals

/-- A path through the current level from its decision, the last literal first. -/
inductive Path (s : State) : List Literal → Prop where
  | decision (opened : s.trail.decision? s.level = some l) : s.Path [l]
  | step (path : s.Path (m :: earlier)) (leads : s.Leads m l) : s.Path (l :: m :: earlier)

/-- A path from the decision of the current level to the clause at this index. -/
def ConflictPath (s : State) (i : Nat) (path : List Literal) : Prop :=
  s.Path path ∧ ∃ l c, path.head? = some l ∧ s.store.clause? i = some c ∧ l.negate ∈ c.literals

/-- All paths to the clause pass through the literal. -/
def Unavoidable (s : State) (i : Nat) (l : Literal) : Prop :=
  ∀ path, s.ConflictPath i path → l ∈ path

/-- The literal is of the current level, all paths to the clause pass through it, and it
is the newest literal on the trail of which that is true. -/
structure FirstPoint (s : State) (i : Nat) (u : Literal) : Prop where
  level : s.trail.TrueAt u s.level
  connected : ∃ path, s.ConflictPath i path
  unavoidable : s.Unavoidable i u
  newest : ∀ (p q : Nat) m, s.trail.literals[p]? = some u → s.trail.literals[q]? = some m →
    p < q → ¬ s.Unavoidable i m

variable {s : State} {passed remaining older newer path : List Literal} {r r' : Resolvent}

/-! ## Paths -/

theorem Path.head_level (path : s.Path (l :: earlier)) (coherent : s.Coherent)
    (layered : s.trail.Layered) : s.trail.TrueAt l s.level := by
  cases path with
  | decision opened => exact (layered.of_decision? coherent.trail opened (Nat.le_refl _)).1
  | step path leads => exact leads.2.1

/-- A path comes to an implied literal from one that leads to it. -/
theorem Path.exists_leads (path : s.Path literals) (coherent : s.Coherent)
    (layered : s.trail.Layered) (member : l ∈ literals) (known : s.trail.reason l = some i) :
    ∃ m ∈ literals, s.Leads m l := by
  induction path with
  | decision opened =>
    rw [List.mem_singleton.mp member,
      (layered.of_decision? coherent.trail opened (Nat.le_refl _)).2] at known
    cases known
  | @step m earlier l' path leads ih =>
    rcases List.mem_cons.mp member with rfl | member
    · exact ⟨m, by simp, leads⟩
    · obtain ⟨o, inside, leads'⟩ := ih member
      exact ⟨o, List.mem_cons_of_mem _ inside, leads'⟩

/-- Every literal of the current level can be reached through literals older than it. The
induction is on how many there are: what implied it has one of the level among them. -/
theorem exists_path (coherent : s.Coherent) (layered : s.trail.Layered) (above : 0 < s.level)
    (split : s.trail.top = newer ++ l :: older) :
    ∃ earlier, s.Path (l :: earlier) ∧ earlier ⊆ older := by
  induction length : older.length using Nat.strongRecOn generalizing newer l older with
  | _ count ih =>
    obtain ⟨inLevels, below, whole⟩ := Trail.newestFirst_split (t := s.trail) above
    have onTop : ∀ m, m ∈ s.trail.top ↔ s.trail.TrueAt m s.level :=
      fun m => coherent.trail.mem_top_iff
    have holds : s.trail.TrueAt l s.level := (onTop l).mp (by simp [split])
    cases known : s.trail.reason l with
    | none =>
      have decision := layered.decision?_of_reason_eq_none coherent.trail above holds known
      exact ⟨[], .decision decision, List.nil_subset _⟩
    | some index =>
      have whole' : s.trail.newestFirst = newer ++ l :: (older ++ below) := by simp [whole, split]
      obtain ⟨c, living, -, earlier, peer⟩ :=
        coherent.explained newer l (older ++ below) index whole' known
      obtain ⟨m, inside, different, fails⟩ := peer s.level above holds
      have here : m.negate ∈ older := by
        rcases List.mem_append.mp (earlier m inside different) with here | lower
        · exact here
        · have distinct := coherent.trail.nodup
          rw [whole] at distinct
          exact absurd lower (List.disjoint_of_nodup_append distinct ((onTop _).mpr fails))
      obtain ⟨between, oldest, rfl⟩ := List.append_of_mem here
      have split' : s.trail.top = (newer ++ l :: between) ++ m.negate :: oldest := by simp [split]
      have shorter : oldest.length < count := by
        rw [← length, List.length_append, List.length_cons]
        omega
      obtain ⟨start, path, among⟩ := ih oldest.length shorter split' rfl
      refine ⟨m.negate :: start, .step path ?_, ?_⟩
      · exact ⟨fails, holds, index, c, known, living, by rwa [Literal.negate_negate]⟩
      · intro o member
        rcases List.mem_cons.mp member with rfl | member
        · exact here
        · exact List.mem_append_right _ (List.mem_cons_of_mem _ (among member))

/-! ## What analysis keeps of the paths -/

/-- The current literals of the working clause cut all paths to the clause, and each of
them is on one that goes on through passed literals only. Every passed literal can be
avoided. -/
structure Cuts (s : State) (i : Nat) (passed : List Literal) (r : Resolvent) : Prop where
  met : ∀ path, s.ConflictPath i path → ∃ m ∈ r.current, m.negate ∈ path
  reaches : ∀ m ∈ r.current, ∀ earlier, s.Path (m.negate :: earlier) →
    ∃ later, later ⊆ passed ∧ s.ConflictPath i (later ++ m.negate :: earlier)
  avoidable : ∀ l ∈ passed, ¬ s.Unavoidable i l

/-- A literal is avoided by the path through a current literal that is older than it, if
the walk has not passed it. -/
theorem Cuts.not_unavoidable (cuts : s.Cuts i passed r) (coherent : s.Coherent)
    (layered : s.trail.Layered) (above : 0 < s.level) (member : m ∈ r.current)
    (split : s.trail.top = newer ++ m.negate :: older) (ahead : l ∉ passed)
    (notOlder : l ∉ m.negate :: older) : ¬ s.Unavoidable i l := by
  intro unavoidable
  obtain ⟨earlier, path, among⟩ := exists_path coherent layered above split
  obtain ⟨later, through, path'⟩ := cuts.reaches m member earlier path
  rcases List.mem_append.mp (unavoidable _ path') with inside | inside
  · exact ahead (through inside)
  · exact notOlder (List.cons_subset_cons _ among inside)

/-- With several current literals the next one can be avoided. -/
theorem Cuts.not_unavoidable_next (cuts : s.Cuts i passed r) (coherent : s.Coherent)
    (layered : s.trail.Layered) (above : 0 < s.level)
    (walked : Resolvent.Walked s passed (l :: older) r) (several : 1 < r.current.length) :
    ¬ s.Unavoidable i l := by
  obtain ⟨m, member, different⟩ : ∃ m ∈ r.current, m ≠ l.negate := by
    by_contra none
    have all : ∀ m ∈ r.current, m = l.negate := by simpa using none
    have short := (List.nodup_iff_count_le_one.mp walked.fits.once) l.negate
    rw [List.eq_replicate_of_mem all, List.count_replicate_self] at short
    omega
  obtain ⟨between, oldest, rfl⟩ := List.append_of_mem (walked.mem_older member different)
  have distinct : s.trail.top.Nodup := by
    obtain ⟨-, below, whole⟩ := Trail.newestFirst_split (t := s.trail) above
    have whole' := coherent.trail.nodup
    rw [whole] at whole'
    exact whole'.of_append_left
  rw [walked.split] at distinct
  obtain ⟨-, inner, apart⟩ := List.nodup_append.mp distinct
  have split : s.trail.top = (passed ++ l :: between) ++ m.negate :: oldest := by
    simp [walked.split]
  apply cuts.not_unavoidable coherent layered above member split
  · exact fun again => apart l again l (by simp) rfl
  · exact fun again => (List.nodup_cons.mp inner).1 (List.mem_append_right _ again)

/-- Passing the next literal leaves only literals behind that can be avoided. -/
theorem Cuts.avoidable_passed (cuts : s.Cuts i passed r) (coherent : s.Coherent)
    (layered : s.trail.Layered) (above : 0 < s.level)
    (walked : Resolvent.Walked s passed (l :: older) r) (several : 1 < r.current.length) :
    ∀ o ∈ passed ++ [l], ¬ s.Unavoidable i o := by
  intro o member
  rcases List.mem_append.mp member with before | here
  · exact cuts.avoidable o before
  · rw [List.mem_singleton.mp here]
    exact cuts.not_unavoidable_next coherent layered above walked several

/-- A path goes on through passed literals also when there is one more of them. -/
theorem Cuts.reaches_passed (cuts : s.Cuts i passed r) (member : m ∈ r.current)
    (path : s.Path (m.negate :: earlier)) (l : Literal) :
    ∃ later, later ⊆ passed ++ [l] ∧ s.ConflictPath i (later ++ m.negate :: earlier) := by
  obtain ⟨later, through, path'⟩ := cuts.reaches m member earlier path
  exact ⟨later, List.Subset.trans through (List.subset_append_left _ _), path'⟩

/-- The path to a literal that was resolved away comes from one that came in instead. -/
theorem Cuts.met_resolved (cuts : s.Cuts i passed r) (coherent : s.Coherent)
    (layered : s.trail.Layered) (once : r.current.Nodup) (holds : s.trail.TrueAt l s.level)
    (resolves : Resolvent.Resolves s l c r r') (conflict : s.ConflictPath i path) :
    ∃ m ∈ r'.current, m.negate ∈ path := by
  obtain ⟨index, known, living⟩ := resolves.implied
  obtain ⟨m, among, inside⟩ := cuts.met path conflict
  by_cases same : m = l.negate
  · subst same
    rw [Literal.negate_negate] at inside
    obtain ⟨o, inside', here, -, j, d, known', living', among'⟩ :=
      conflict.1.exists_leads coherent layered inside known
    cases known.symm.trans known'
    cases living.symm.trans living'
    refine ⟨o.negate, (resolves.mem_current_iff once).mpr (.inr ⟨among', ?_, ?_⟩), ?_⟩
    · rintro rfl
      rw [← Literal.negate_negate o] at here
      exact Trail.not_true_at_negate holds here
    · rwa [Trail.FalseAt, Literal.negate_negate]
    · rwa [Literal.negate_negate]
  · exact ⟨m, (resolves.mem_current_iff once).mpr (.inl ⟨among, same⟩), inside⟩

/-- The path from a literal that came in goes on through the one that was resolved away. -/
theorem Cuts.reaches_resolved (cuts : s.Cuts i passed r) (once : r.current.Nodup)
    (holds : s.trail.TrueAt l s.level) (resolves : Resolvent.Resolves s l c r r')
    (member : m ∈ r'.current) (path : s.Path (m.negate :: earlier)) :
    ∃ later, later ⊆ passed ++ [l] ∧ s.ConflictPath i (later ++ m.negate :: earlier) := by
  rcases (resolves.mem_current_iff once).mp member with ⟨before, -⟩ | ⟨inside, -, fails⟩
  · exact cuts.reaches_passed before path l
  · obtain ⟨index, known, living⟩ := resolves.implied
    have leads : s.Leads m.negate l :=
      ⟨fails, holds, index, c, known, living, by rwa [Literal.negate_negate]⟩
    have longer : s.Path (l.negate.negate :: m.negate :: earlier) := by
      rw [Literal.negate_negate]
      exact .step path leads
    obtain ⟨later, through, path'⟩ := cuts.reaches l.negate resolves.member _ longer
    rw [Literal.negate_negate] at path'
    refine ⟨later ++ [l], ?_, by simpa using path'⟩
    exact List.append_subset.mpr ⟨List.Subset.trans through (List.subset_append_left _ _), by simp⟩

/-- The cut is kept by every step of the analysis. -/
theorem Cuts.kept (coherent : s.Coherent) (layered : s.trail.Layered) (above : 0 < s.level) :
    Resolvent.Kept s i (s.Cuts i) where
  start := by
    intro c r living _ gains
    constructor
    · rintro path ⟨path', l, c', head, living', inside⟩
      cases living.symm.trans living'
      obtain ⟨rest, rfl⟩ := List.head?_eq_some_iff.mp head
      have fails : s.trail.FalseAt l.negate s.level := by
        rw [Trail.FalseAt, Literal.negate_negate]
        exact path'.head_level coherent layered
      exact ⟨l.negate, (gains.current _).mpr (.inr ⟨inside, fails⟩), by simp⟩
    · intro m member earlier path
      obtain ⟨inside, -⟩ := ((gains.current m).mp member).resolve_left List.not_mem_nil
      refine ⟨[], List.nil_subset _, path, m.negate, c, rfl, living, ?_⟩
      rwa [Literal.negate_negate]
    · intro l impossible
      cases impossible
  skip := by
    intro passed l older r walked several absent cuts
    exact {
      met := cuts.met
      reaches := fun m member earlier path => cuts.reaches_passed member path l
      avoidable := cuts.avoidable_passed coherent layered above walked several }
  resolve := by
    intro passed l older c r r' walked several resolves cuts
    have once := walked.fits.once
    have holds : s.trail.TrueAt l s.level := walked.true_at resolves.member
    exact {
      met := fun path conflict => cuts.met_resolved coherent layered once holds resolves conflict
      reaches := fun m member earlier path => cuts.reaches_resolved once holds resolves member path
      avoidable := cuts.avoidable_passed coherent layered above walked several }

/-- The one literal that analysis leaves of the current level is the first unique
implication point. -/
theorem Cuts.firstPoint (cuts : s.Cuts i passed r) (coherent : s.Coherent)
    (layered : s.trail.Layered) (above : 0 < s.level)
    (walked : Resolvent.Walked s passed remaining r) (single : r.current = [asserting]) :
    s.FirstPoint i asserting.negate := by
  have member : asserting ∈ r.current := by simp [single]
  have holds : s.trail.TrueAt asserting.negate s.level := walked.fits.current asserting member
  obtain ⟨newer, older, split⟩ := List.append_of_mem (coherent.trail.mem_top_iff.mpr holds)
  obtain ⟨-, below, whole⟩ := Trail.newestFirst_split (t := s.trail) above
  have whole' : s.trail.newestFirst = newer ++ asserting.negate :: (older ++ below) := by
    simp [whole, split]
  have distinct : s.trail.literals.Nodup := List.nodup_reverse.mpr coherent.trail.nodup
  refine ⟨holds, ?_, fun path conflict => ?_, fun p q m first second after => ?_⟩
  · obtain ⟨earlier, path, -⟩ := exists_path coherent layered above split
    obtain ⟨later, -, path'⟩ := cuts.reaches asserting member earlier path
    exact ⟨_, path'⟩
  · obtain ⟨m, among, inside⟩ := cuts.met path conflict
    rw [single] at among
    rwa [List.mem_singleton.mp among] at inside
  · by_cases before : m ∈ passed
    · exact cuts.avoidable m before
    · have here : s.trail.literals[(older ++ below).length]? = some asserting.negate :=
        Trail.getElem?_literals_iff.mpr ⟨newer, _, whole', rfl⟩
      have unique : ∀ {j k : Nat} {o : Literal}, s.trail.literals[j]? = some o →
          s.trail.literals[k]? = some o → j = k := by
        intro j k o found found'
        have bound := (List.getElem?_eq_some_iff.mp found).1
        exact (List.getElem?_inj bound distinct).mp (found.trans found'.symm)
      apply cuts.not_unavoidable coherent layered above member split before
      rintro again
      rcases List.mem_cons.mp again with rfl | again
      · have same := unique first second
        omega
      · -- an older literal stands before, and no literal stands twice
        obtain ⟨k, less, found⟩ :=
          Trail.exists_position_of_mem_older whole' (List.mem_append_left below again)
        have same := unique found second
        have same' := unique first here
        omega

end State

end ClauseLearning
