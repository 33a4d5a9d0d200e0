import Mathlib.Data.List.Nodup
import ClauseLearning.Proofs.TrailOrder

/-! Where on the trail a literal stands, counted from the oldest. Its position and
the starts of the levels determine its level: that is the number of levels which
start there or before. So levels never decrease along the trail, and a level above
0 starts with its decision. -/
namespace ClauseLearning.Trail

/-- The level at which the variable of a literal was assigned. -/
def level? (t : Trail) (l : Literal) : Option Nat :=
  t.assignment.level? l.var

/-- The literal with which a level above 0 starts. -/
def decision? (t : Trail) : Nat → Option Literal
  | 0 => none
  | below + 1 => t.levelOffsets[below]?.bind fun offset => t.literals[offset]?

variable {t : Trail} {root newer older : List Literal} {levels : List (List Literal)}

theorem level?_of_true_at (holds : t.TrueAt l k) : t.level? l = some k := by
  obtain ⟨e, found, -, rfl⟩ := holds
  rw [level?, Assignment.level?, found]
  rfl

theorem level?_of_false_at (fails : t.TrueAt l.negate k) : t.level? l = some k :=
  (level?_of_true_at fails : t.level? l.negate = some k)

theorem level?_forget : (t.forget clauses).level? l = t.level? l := by
  unfold level? Assignment.level? forget
  rw [Assignment.find?_forget]
  cases t.assignment.find? l.var <;> rfl

theorem true_at_of_level? (known : t.value? l = some true) (level : t.level? l = some k) :
    t.TrueAt l k := by
  obtain ⟨j, holds⟩ := value?_eq_true_iff.mp known
  rw [level?_of_true_at holds, Option.some_inj] at level
  exact level ▸ holds

/-! ## The starts of the levels -/

theorem length_offsetsOf (root : List Literal) (levels : List (List Literal)) :
    (offsetsOf root levels).length = levels.length := by
  induction levels with
  | nil => rfl
  | cons top below ih => simp [offsetsOf, ih]

theorem length_levelOffsets (t : Trail) : t.levelOffsets.length = t.level :=
  length_offsetsOf t.root t.levels

/-- No level starts beyond the end of the trail. -/
theorem le_of_mem_offsetsOf (member : offset ∈ offsetsOf root levels) :
    offset ≤ (levels.flatten ++ root).length := by
  induction levels with
  | nil => cases member
  | cons top below ih =>
    rw [List.flatten_cons, List.append_assoc, List.length_append]
    rcases List.mem_append.mp member with before | last
    · exact Nat.le_trans (ih before) (Nat.le_add_left _ _)
    · rw [List.mem_singleton.mp last]
      exact Nat.le_add_left _ _

/-- A level starts after the literals of all levels below it. -/
theorem getElem?_offsetsOf (above : List (List Literal)) (block : List Literal)
    (below : List (List Literal)) :
    (offsetsOf root (above ++ block :: below))[below.length]?
      = some (below.flatten ++ root).length := by
  induction above with
  | nil =>
    rw [List.nil_append, offsetsOf, ← length_offsetsOf root below]
    exact List.getElem?_concat_length
  | cons first rest ih =>
    have within : below.length < (offsetsOf root (rest ++ block :: below)).length := by
      rw [length_offsetsOf, List.length_append, List.length_cons]
      omega
    rw [List.cons_append, offsetsOf, List.getElem?_append_left within, ih]

/-- All levels below start no later than any place beyond them. -/
theorem countP_offsetsOf (reached : (levels.flatten ++ root).length ≤ p) :
    (offsetsOf root levels).countP (· ≤ p) = levels.length := by
  rw [← length_offsetsOf root levels, List.countP_eq_length]
  intro offset member
  exact decide_eq_true (Nat.le_trans (le_of_mem_offsetsOf member) reached)

/-- A literal of a trail is of a level below the newest, or of that and after all others. -/
theorem split_leveledFrom_cons {block : List Literal} {newer older : List (Literal × Nat)}
    (split : leveledFrom root (block :: below) = newer ++ (l, k) :: older) :
    (∃ newer', leveledFrom root below = newer' ++ (l, k) :: older) ∨
      (k = below.length + 1 ∧ (leveledFrom root below).length ≤ older.length) := by
  rcases List.append_eq_append_iff.mp split with ⟨more, -, tail⟩ | ⟨more, front, tail⟩
  · exact .inl ⟨more, tail⟩
  · cases more with
    | nil => exact .inl ⟨[], tail.symm⟩
    | cons first rest =>
      obtain ⟨same, remaining⟩ := List.cons_eq_cons.mp tail
      right
      constructor
      · have member : (l, k) ∈ block.map (·, below.length + 1) := by
          rw [front, ← same]
          simp
        obtain ⟨_, -, pair⟩ := List.mem_map.mp member
        exact (Prod.ext_iff.mp pair).2.symm
      · rw [remaining]
        exact (List.sublist_append_right rest _).length_le

/-- The level of a literal is the number of levels that start where it stands or before. -/
theorem level_eq_countP_of_leveledFrom {newer older : List (Literal × Nat)}
    (split : leveledFrom root levels = newer ++ (l, k) :: older) :
    k = (offsetsOf root levels).countP (· ≤ older.length) := by
  induction levels generalizing newer with
  | nil =>
    have member : (l, k) ∈ leveledFrom root [] := by rw [split]; simp
    exact Nat.le_zero.mp (le_of_mem_leveledFrom member)
  | cons top below ih =>
    have size : (leveledFrom root below).length = (below.flatten ++ root).length := by
      rw [← map_fst_leveledFrom, List.length_map]
    rw [offsetsOf, List.countP_append, List.countP_singleton]
    rcases split_leveledFrom_cons split with ⟨newer', lower⟩ | ⟨level, reached⟩
    · -- the newest level starts after the literal
      have lengths := congrArg List.length lower
      rw [size, @List.length_append _ newer', List.length_cons] at lengths
      have later : ¬ (below.flatten ++ root).length ≤ older.length := by omega
      rw [← ih lower, decide_eq_false later]
      rfl
    · rw [size] at reached
      rw [countP_offsetsOf reached, decide_eq_true reached, level]
      rfl

/-! ## Positions -/

theorem getElem?_literals_iff :
    t.literals[p]? = some l ↔
      ∃ newer older, t.newestFirst = newer ++ l :: older ∧ older.length = p := by
  unfold literals
  constructor
  · intro found
    obtain ⟨before, after, split, length⟩ : ∃ before after,
        t.newestFirst.reverse = before ++ l :: after ∧ before.length = p := by
      obtain ⟨bound, rfl⟩ := List.getElem?_eq_some_iff.mp found
      refine ⟨t.newestFirst.reverse.take p, t.newestFirst.reverse.drop (p + 1), ?_, ?_⟩
      · rw [← List.drop_eq_getElem_cons bound, List.take_append_drop]
      · rw [List.length_take]
        omega
    refine ⟨after.reverse, before.reverse, ?_, by rw [List.length_reverse, length]⟩
    have turned := congrArg List.reverse split
    simpa using turned
  · rintro ⟨newer, older, split, rfl⟩
    rw [split]
    simp

theorem mem_newestFirst_of_mem_older (split : t.newestFirst = newer ++ l :: older)
    (member : m ∈ older) : m ∈ t.newestFirst := by
  rw [split]
  exact List.mem_append_right _ (List.mem_cons_of_mem _ member)

/-- A literal among the older ones stands at a smaller position. -/
theorem exists_position_of_mem_older (split : t.newestFirst = newer ++ l :: older)
    (member : m ∈ older) : ∃ q < older.length, t.literals[q]? = some m := by
  obtain ⟨between, oldest, rfl⟩ := List.append_of_mem member
  refine ⟨oldest.length, ?_, getElem?_literals_iff.mpr ⟨newer ++ l :: between, oldest, ?_, rfl⟩⟩
  · rw [List.length_append, List.length_cons]
    omega
  · rw [split, List.append_assoc, List.cons_append]

theorem mem_literals_iff (t : Trail) (l : Literal) : l ∈ t.literals ↔ l ∈ t.newestFirst :=
  List.mem_reverse

theorem Coherent.mem_literals_iff_value? (coherent : t.Coherent) :
    l ∈ t.literals ↔ t.value? l = some true := by
  rw [mem_literals_iff, value?_eq_true_iff]
  exact ⟨coherent.true_at_of_mem, fun ⟨_, holds⟩ => coherent.mem_of_true_at holds⟩

/-- The recorded level of a literal is the number of levels opened at or before its position. -/
theorem Coherent.level_eq_countP (coherent : t.Coherent) (found : t.literals[p]? = some l)
    (holds : t.TrueAt l k) : k = t.levelOffsets.countP (· ≤ p) := by
  obtain ⟨newer, older, split, rfl⟩ := getElem?_literals_iff.mp found
  have whole := map_fst_leveled t
  rw [split] at whole
  obtain ⟨newer', rest, leveled, -, tail⟩ := List.map_eq_append_iff.mp whole
  obtain ⟨⟨m, j⟩, older', rfl, first, lengths⟩ := List.map_eq_cons_iff.mp tail
  obtain rfl : m = l := first
  have member : (m, j) ∈ t.leveled := by rw [leveled]; simp
  obtain rfl := true_at_unique holds ((coherent.recorded m j).mpr member)
  have counted : k = (offsetsOf t.root t.levels).countP (· ≤ older'.length) :=
    level_eq_countP_of_leveledFrom leveled
  rw [counted, ← lengths, List.length_map]
  rfl

/-- Levels never decrease along the trail. -/
theorem Coherent.level_mono {p q : Nat} (coherent : t.Coherent) (ordered : p ≤ q)
    (first : t.literals[p]? = some l) (second : t.literals[q]? = some m)
    (lower : t.TrueAt l j) (upper : t.TrueAt m k) : j ≤ k := by
  rw [coherent.level_eq_countP first lower, coherent.level_eq_countP second upper]
  apply List.countP_mono_left
  intro offset _ reached
  exact decide_eq_true (Nat.le_trans (of_decide_eq_true reached) ordered)

/-- An older literal is of the same level or a lower one. -/
theorem Coherent.level_le_of_mem_older (coherent : t.Coherent)
    (split : t.newestFirst = newer ++ l :: older) (member : m ∈ older)
    (lower : t.TrueAt m j) (upper : t.TrueAt l k) : j ≤ k := by
  obtain ⟨q, before, found⟩ := exists_position_of_mem_older split member
  have here : t.literals[older.length]? = some l :=
    getElem?_literals_iff.mpr ⟨newer, older, split, rfl⟩
  exact coherent.level_mono (Nat.le_of_lt before) found here lower upper

/-! ## Decisions -/

/-- The literals of one level are those of its block. -/
theorem mem_block_iff (above : List (List Literal)) (block : List Literal)
    (below : List (List Literal)) :
    (l, below.length + 1) ∈ leveledFrom root (above ++ block :: below) ↔ l ∈ block := by
  induction above with
  | nil =>
    simp only [List.nil_append, leveledFrom, List.mem_append, List.mem_map, Prod.mk.injEq]
    constructor
    · rintro (⟨_, member, rfl, -⟩ | lower)
      · exact member
      · have bound := le_of_mem_leveledFrom lower
        omega
    · exact fun member => .inl ⟨l, member, rfl, trivial⟩
  | cons first rest ih =>
    rw [← ih]
    simp only [List.cons_append, leveledFrom, List.mem_append, List.mem_map, Prod.mk.injEq,
      List.length_append, List.length_cons]
    constructor
    · rintro (⟨_, -, -, higher⟩ | member)
      · omega
      · exact member
    · exact .inr

theorem exists_block (positive : 0 < d) (opened : d ≤ t.level) :
    ∃ above block below, t.levels = above ++ block :: below ∧ below.length + 1 = d := by
  have bound : t.levels.length - d < t.levels.length := by
    unfold level at opened
    omega
  refine ⟨t.levels.take (t.levels.length - d), t.levels[t.levels.length - d],
    t.levels.drop (t.levels.length - d + 1), ?_, ?_⟩
  · rw [← List.drop_eq_getElem_cons bound, List.take_append_drop]
  · rw [List.length_drop]
    unfold level at opened
    omega

/-- The level above a lower one starts where the trail ends after going back. -/
theorem getElem?_levelOffsets (below : k < t.level) :
    t.levelOffsets[k]? = some (t.backTo k).size := by
  obtain ⟨above, block, rest, shape, length⟩ := exists_block (t := t) (Nat.succ_pos k) below
  obtain rfl : rest.length = k := by omega
  have kept : t.level - rest.length = above.length + 1 := by
    rw [level, shape, List.length_append, List.length_cons]
    omega
  rw [levelOffsets, shape, getElem?_offsetsOf, size, newestFirst, backTo, kept, shape]
  simp

/-- Going back to a lower level drops what stands after the start of the level above it. -/
theorem revert_of_lt (below : k < t.level) :
    t.revert k = (t.size - (t.backTo k).size, t.backTo k) := by
  rw [revert, getElem?_levelOffsets below]

theorem revert_of_le (reach : t.level ≤ k) : t.revert k = (0, t) := by
  have beyond : t.levelOffsets[k]? = none := by
    rw [List.getElem?_eq_none_iff, length_levelOffsets]
    exact reach
  rw [revert, beyond]

/-- Every level above 0 starts with its decision, the only one of its literals that no
clause implied. -/
theorem Layered.decision (layered : t.Layered) (coherent : t.Coherent) (positive : 0 < d)
    (opened : d ≤ t.level) :
    ∃ offset l, t.levelOffsets[d - 1]? = some offset ∧ t.literals[offset]? = some l ∧
      t.TrueAt l d ∧ t.reason l = none ∧
      ∀ q m, t.literals[q]? = some m → t.TrueAt m d → offset ≤ q ∧ (t.reason m = none → m = l) := by
  obtain ⟨above, block, below, shape, rfl⟩ := exists_block positive opened
  obtain ⟨implied, l, rfl, undecided, explained⟩ := layered block (by simp [shape])
  have inBlock : ∀ m, t.TrueAt m (below.length + 1) ↔ m ∈ implied ++ [l] := by
    intro m
    rw [coherent.recorded, leveled, shape]
    exact mem_block_iff above (implied ++ [l]) below
  have split :
      t.newestFirst = (above.flatten ++ (implied ++ [l])) ++ (below.flatten ++ t.root) := by
    simp [newestFirst, shape]
  have first : t.newestFirst = (above.flatten ++ implied) ++ l :: (below.flatten ++ t.root) := by
    simp [split]
  refine ⟨(below.flatten ++ t.root).length, l, ?_, getElem?_literals_iff.mpr ⟨_, _, first, rfl⟩,
    (inBlock l).mpr (by simp), undecided, fun q m found holds => ⟨?_, fun free => ?_⟩⟩
  · rw [levelOffsets, shape]
    exact getElem?_offsetsOf above (implied ++ [l]) below
  · -- a literal that stands earlier belongs to a level below, and to no other
    by_contra earlier
    have before : q < (below.flatten ++ t.root).reverse.length := by
      rw [List.length_reverse]
      exact Nat.lt_of_not_le earlier
    rw [literals, split, List.reverse_append, List.getElem?_append_left before] at found
    have member : m ∈ below.flatten ++ t.root := List.mem_reverse.mp (List.mem_of_getElem? found)
    have inside : m ∈ above.flatten ++ (implied ++ [l]) :=
      List.mem_append_right _ ((inBlock m).mp holds)
    have distinct := coherent.nodup
    rw [split] at distinct
    exact List.disjoint_of_nodup_append distinct inside member
  · rcases List.mem_append.mp ((inBlock m).mp holds) with later | same
    · exact absurd free (explained m later)
    · exact List.mem_singleton.mp same

/-- Only the decision of a level was not implied by a clause. -/
theorem Layered.decision?_of_reason_eq_none (layered : t.Layered) (coherent : t.Coherent)
    (positive : 0 < d) (holds : t.TrueAt l d) (free : t.reason l = none) :
    t.decision? d = some l := by
  obtain ⟨offset, m, starts, found, -, -, first⟩ :=
    layered.decision coherent positive (coherent.le_level holds)
  have onTrail : l ∈ t.literals := (mem_literals_iff t l).mpr (coherent.mem_of_true_at holds)
  obtain ⟨q, here⟩ := List.mem_iff_getElem?.mp onTrail
  obtain rfl : l = m := (first q l here holds).2 free
  obtain ⟨below, rfl⟩ := Nat.exists_eq_succ_of_ne_zero (Nat.ne_of_gt positive)
  rw [decision?, show t.levelOffsets[below]? = some offset from starts]
  exact found

end ClauseLearning.Trail
