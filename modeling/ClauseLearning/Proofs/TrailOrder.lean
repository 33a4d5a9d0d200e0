import Mathlib.Data.List.Nodup
import Mathlib.Data.List.Perm.Subperm
import ClauseLearning.Search.Trail

/-! The trail and the assignment say the same: a literal is recorded as true at
a level exactly if it lies on the trail within that level, and no variable lies
there twice. Assigning, opening a level, going back and forgetting antecedents
keep this agreement, and each has one equation for the recorded literals. -/
namespace ClauseLearning

namespace Assignment

theorem assigns_eq_false_iff {a : Assignment} : a.assigns var = false ↔ a.find? var = none := by
  simp [assigns]

theorem find?_eq_none_of_le {a : Assignment} (beyond : a.numVariables ≤ var) :
    a.find? var = none := by
  have outside : a.entries[var]? = none := Array.getElem?_eq_none beyond
  rw [find?, outside]
  rfl

theorem lt_of_find? {a : Assignment} (found : a.find? var = some e) : var < a.numVariables := by
  by_cases bound : var < a.numVariables
  · exact bound
  · rw [find?_eq_none_of_le (Nat.le_of_not_lt bound)] at found
    cases found

theorem find?_clears (xs : List Literal) (a : Assignment) :
    (xs.foldl (fun a l => a.clear l.var) a).find? var
      = if var ∈ xs.map Literal.var then none else a.find? var := by
  induction xs generalizing a with
  | nil => simp
  | cons x rest ih =>
    rw [List.foldl_cons, ih, find?_clear]
    by_cases later : var ∈ rest.map Literal.var
    · simp [later]
    · by_cases here : var = x.var <;> simp [later, here]

theorem numVariables_clears (xs : List Literal) (a : Assignment) :
    (xs.foldl (fun a l => a.clear l.var) a).numVariables = a.numVariables := by
  induction xs generalizing a with
  | nil => rfl
  | cons x rest ih => rw [List.foldl_cons, ih, numVariables_clear]

theorem find?_forget (a : Assignment) (clauses : List Nat) :
    (a.forget clauses).find? var = (a.find? var).map (Entry.forget clauses) := by
  simp only [forget, find?, Array.getElem?_map]
  cases a.entries[var]? <;> rfl

@[simp] theorem numVariables_forget (a : Assignment) (clauses : List Nat) :
    (a.forget clauses).numVariables = a.numVariables := by
  simp [forget, numVariables]

theorem value?_eq_none_iff {a : Assignment} : a.value? l = none ↔ a.find? l.var = none := by
  simp [value?]

end Assignment

namespace Trail

/-- The literal is recorded as made true at this level. -/
def TrueAt (t : Trail) (l : Literal) (level : Nat) : Prop :=
  ∃ e, t.assignment.find? l.var = some e ∧ e.positive = l.positive ∧ e.level = level

/-- The clause that implied a literal, if the trail knows one. -/
def reason (t : Trail) (l : Literal) : Option Nat :=
  (t.assignment.find? l.var).bind Entry.antecedent

theorem true_at_unique {t : Trail} (first : t.TrueAt l j) (second : t.TrueAt l k) : j = k := by
  obtain ⟨e, found, -, rfl⟩ := first
  obtain ⟨e', found', -, rfl⟩ := second
  cases found.symm.trans found'
  rfl

theorem not_true_at_negate {t : Trail} (holds : t.TrueAt l j) : ¬ t.TrueAt l.negate k := by
  rintro ⟨e', found', signs', -⟩
  obtain ⟨e, found, signs, -⟩ := holds
  cases found.symm.trans found'
  rw [signs] at signs'
  exact Bool.eq_not_self l.positive |>.mp signs'

theorem value?_eq_true_iff {t : Trail} : t.value? l = some true ↔ ∃ k, t.TrueAt l k := by
  simp only [value?, Assignment.value?, TrueAt, Option.map_eq_some_iff, beq_iff_eq]
  constructor
  · rintro ⟨e, found, signs⟩
    exact ⟨e.level, e, found, signs, rfl⟩
  · rintro ⟨_, e, found, signs, _⟩
    exact ⟨e, found, signs⟩

theorem value?_negate (t : Trail) (l : Literal) : t.value? l.negate = (t.value? l).map not :=
  Assignment.value?_negate _ _

theorem value?_eq_false_iff {t : Trail} :
    t.value? l = some false ↔ ∃ k, t.TrueAt l.negate k := by
  rw [← value?_eq_true_iff, value?_negate]
  cases t.value? l with
  | none => simp
  | some b => cases b <;> simp

theorem value?_eq_none_iff {t : Trail} : t.value? l = none ↔ t.assignment.find? l.var = none :=
  Assignment.value?_eq_none_iff

theorem value?_of_true_at {t : Trail} (holds : t.TrueAt l k) : t.value? l = some true :=
  value?_eq_true_iff.mpr ⟨k, holds⟩

theorem value?_of_false_at {t : Trail} (fails : t.TrueAt l.negate k) : t.value? l = some false :=
  value?_eq_false_iff.mpr ⟨k, fails⟩

/-! ## Literals with their levels -/

/-- The literals of a trail with their levels, the newest first. -/
def leveledFrom (root : List Literal) : List (List Literal) → List (Literal × Nat)
  | [] => root.map (·, 0)
  | top :: below => top.map (·, below.length + 1) ++ leveledFrom root below

/-- Every literal on the trail with its level, the newest first. -/
def leveled (t : Trail) : List (Literal × Nat) :=
  leveledFrom t.root t.levels

variable {root : List Literal} {levels : List (List Literal)}

theorem map_fst_leveledFrom (root : List Literal) (levels : List (List Literal)) :
    (leveledFrom root levels).map Prod.fst = levels.flatten ++ root := by
  induction levels with
  | nil => simp [leveledFrom, Function.comp_def]
  | cons top below ih => simp [leveledFrom, ih, Function.comp_def]

theorem map_fst_leveled (t : Trail) : t.leveled.map Prod.fst = t.newestFirst :=
  map_fst_leveledFrom _ _

theorem length_leveled (t : Trail) : t.leveled.length = t.size := by
  rw [size, ← map_fst_leveled, List.length_map]

theorem le_of_mem_leveledFrom (member : (l, k) ∈ leveledFrom root levels) : k ≤ levels.length := by
  induction levels with
  | nil => simp_all [leveledFrom]
  | cons top below ih =>
    simp only [leveledFrom, List.mem_append, List.mem_map, Prod.mk.injEq] at member
    rcases member with ⟨_, _, _, rfl⟩ | member
    · exact Nat.le_refl _
    · exact Nat.le_succ_of_le (ih member)

theorem mem_top_iff {t : Trail} : (l, t.level) ∈ t.leveled ↔ l ∈ t.top := by
  unfold leveled top level
  cases t.levels with
  | nil => simp [leveledFrom]
  | cons first below =>
    simp only [leveledFrom, List.mem_append, List.mem_map, Prod.mk.injEq, List.length_cons,
      List.headD_cons]
    constructor
    · rintro (⟨_, member, rfl, _⟩ | member)
      · exact member
      · have bound := le_of_mem_leveledFrom member
        omega
    · exact fun member => .inl ⟨l, member, rfl, trivial⟩

/-- Dropping levels leaves exactly the literals of the levels below them. -/
theorem mem_leveledFrom_drop (count : Nat) :
    (l, k) ∈ leveledFrom root (levels.drop count)
      ↔ (l, k) ∈ leveledFrom root levels ∧ k ≤ levels.length - count := by
  induction levels generalizing count with
  | nil =>
    simp only [List.drop_nil, List.length_nil, Nat.zero_sub]
    exact ⟨fun member => ⟨member, le_of_mem_leveledFrom member⟩, And.left⟩
  | cons top below ih =>
    cases count with
    | zero => exact ⟨fun member => ⟨member, le_of_mem_leveledFrom member⟩, And.left⟩
    | succ count =>
      rw [List.drop_succ_cons, ih, List.length_cons, Nat.add_sub_add_right]
      simp only [leveledFrom, List.mem_append, List.mem_map, Prod.mk.injEq]
      constructor
      · exact fun ⟨member, bound⟩ => ⟨.inr member, bound⟩
      · rintro ⟨⟨_, _, _, rfl⟩ | member, bound⟩
        · omega
        · exact ⟨member, bound⟩

/-- The literals of dropped levels. -/
theorem mem_flatten_take_iff (root : List Literal) (count : Nat) (bound : count ≤ levels.length) :
    l ∈ (levels.take count).flatten
      ↔ ∃ k, levels.length - count < k ∧ (l, k) ∈ leveledFrom root levels := by
  induction levels generalizing count with
  | nil =>
    obtain rfl : count = 0 := Nat.le_zero.mp bound
    simp only [List.take_nil, List.flatten_nil, List.not_mem_nil, false_iff, not_exists, not_and]
    intro k above member
    have below := le_of_mem_leveledFrom member
    simp only [List.length_nil] at above below
    omega
  | cons top below ih =>
    cases count with
    | zero =>
      simp only [List.take_zero, List.flatten_nil, List.not_mem_nil, false_iff, not_exists, not_and]
      intro k above member
      have atMost := le_of_mem_leveledFrom member
      omega
    | succ count =>
      have bound' : count ≤ below.length := by simpa using bound
      simp only [List.take_succ_cons, List.flatten_cons, List.mem_append, ih count bound',
        leveledFrom, List.mem_map, Prod.mk.injEq, List.length_cons, Nat.add_sub_add_right]
      constructor
      · rintro (member | ⟨k, above, member⟩)
        · exact ⟨below.length + 1, by omega, .inl ⟨l, member, rfl, rfl⟩⟩
        · exact ⟨k, above, .inr member⟩
      · rintro ⟨k, above, ⟨_, member, rfl, _⟩ | member⟩
        · exact .inl member
        · exact .inr ⟨k, above, member⟩

/-- A pushed literal becomes the newest of the current level. -/
theorem leveled_push (t : Trail) (l : Literal) (antecedent : Option Nat) :
    (t.push l antecedent).leveled = (l, t.level) :: t.leveled := by
  unfold push leveled level
  split <;> simp_all [leveledFrom]

@[simp] theorem leveled_openLevel (t : Trail) : t.openLevel.leveled = t.leveled := by
  simp [openLevel, leveled, leveledFrom]

/-! ## Agreement -/

/-- The assignment records exactly the literals on the trail, each with its
level, and no variable is on the trail twice. -/
structure Coherent (t : Trail) : Prop where
  recorded : ∀ l k, t.TrueAt l k ↔ (l, k) ∈ t.leveled
  distinct : (t.newestFirst.map Literal.var).Nodup

theorem start_coherent (numVariables : Nat) : (start numVariables).Coherent where
  recorded := by
    intro l k
    have unassigned : (Assignment.unassigned numVariables).find? l.var = none := by
      simp only [Assignment.find?, Assignment.unassigned, Array.getElem?_replicate]
      split <;> rfl
    simp [TrueAt, start, unassigned, leveled, leveledFrom]
  distinct := by simp [start, newestFirst]

variable {t : Trail}

theorem Coherent.le_level (coherent : t.Coherent) (holds : t.TrueAt l k) : k ≤ t.level :=
  le_of_mem_leveledFrom ((coherent.recorded l k).mp holds)

/-- At level 0 whatever is true is a fact. -/
theorem Coherent.fact_of_true (coherent : t.Coherent) (ground : t.level = 0)
    (known : t.value? l = some true) : t.TrueAt l 0 := by
  obtain ⟨k, holds⟩ := value?_eq_true_iff.mp known
  have bound : k ≤ t.level := coherent.le_level holds
  obtain rfl : k = 0 := by omega
  exact holds

theorem Coherent.fact_of_false (coherent : t.Coherent) (ground : t.level = 0)
    (known : t.value? l = some false) : t.TrueAt l.negate 0 := by
  apply coherent.fact_of_true ground
  rw [value?_negate, known]
  rfl

theorem Coherent.mem_of_true_at (coherent : t.Coherent) (holds : t.TrueAt l k) :
    l ∈ t.newestFirst := by
  rw [← map_fst_leveled]
  exact List.mem_map_of_mem (f := Prod.fst) ((coherent.recorded l k).mp holds)

theorem Coherent.true_at_of_mem (coherent : t.Coherent) (member : l ∈ t.newestFirst) :
    ∃ k, t.TrueAt l k := by
  rw [← map_fst_leveled] at member
  obtain ⟨⟨m, k⟩, leveled, rfl⟩ := List.mem_map.mp member
  exact ⟨k, (coherent.recorded m k).mpr leveled⟩

theorem Coherent.mem_top_iff (coherent : t.Coherent) : l ∈ t.top ↔ t.TrueAt l t.level := by
  rw [coherent.recorded]
  exact Trail.mem_top_iff.symm

theorem Coherent.nodup (coherent : t.Coherent) : t.newestFirst.Nodup :=
  List.Nodup.of_map _ coherent.distinct

theorem Coherent.var_lt (coherent : t.Coherent) (member : l ∈ t.newestFirst) :
    l.var < t.assignment.numVariables := by
  obtain ⟨_, _, found, _⟩ := coherent.true_at_of_mem member
  exact Assignment.lt_of_find? found

theorem Coherent.vars_subperm (coherent : t.Coherent) :
    (t.newestFirst.map Literal.var).Subperm (List.range t.assignment.numVariables) := by
  apply List.Nodup.subperm coherent.distinct
  intro var member
  obtain ⟨l, onTrail, rfl⟩ := List.mem_map.mp member
  exact List.mem_range.mpr (coherent.var_lt onTrail)

/-- The trail has at most one literal for each variable. -/
theorem Coherent.size_le (coherent : t.Coherent) : t.size ≤ t.assignment.numVariables := by
  simpa [size] using coherent.vars_subperm.length_le

/-- With as many literals as variables, every variable is assigned. -/
theorem Coherent.assigned_of_full (coherent : t.Coherent)
    (full : t.size = t.assignment.numVariables) (declared : var < t.assignment.numVariables) :
    t.assignment.find? var ≠ none := by
  have long : (List.range t.assignment.numVariables).length
      ≤ (t.newestFirst.map Literal.var).length := by
    rw [List.length_range, List.length_map]
    exact Nat.le_of_eq full.symm
  have all := coherent.vars_subperm.perm_of_length_le long
  obtain ⟨l, onTrail, rfl⟩ := List.mem_map.mp (all.mem_iff.mpr (List.mem_range.mpr declared))
  obtain ⟨_, _, found, _⟩ := coherent.true_at_of_mem onTrail
  simp [found]

/-! ## Assigning and opening levels -/

theorem find?_push (declared : l.var < t.assignment.numVariables) :
    (t.push l antecedent).assignment.find? var
      = if var = l.var then some ⟨l.positive, t.level, antecedent⟩ else t.assignment.find? var := by
  rw [assignment_push, Assignment.find?_set _ _ _ _ declared]

/-- Assigning adds one true literal, at the current level. -/
theorem true_at_push (free : t.assignment.find? l.var = none)
    (declared : l.var < t.assignment.numVariables) :
    (t.push l antecedent).TrueAt m k ↔ (m = l ∧ k = t.level) ∨ t.TrueAt m k := by
  unfold TrueAt
  rw [find?_push declared]
  by_cases same : m.var = l.var
  · rw [if_pos same, same, free]
    constructor
    · rintro ⟨e, found, signs, rfl⟩
      cases found
      exact .inl ⟨Literal.eq_of_var_of_positive same signs.symm, rfl⟩
    · rintro (⟨rfl, rfl⟩ | ⟨_, found, -⟩)
      · exact ⟨_, rfl, rfl, rfl⟩
      · cases found
  · rw [if_neg same]
    constructor
    · exact .inr
    · rintro (⟨rfl, -⟩ | holds)
      · exact absurd rfl same
      · exact holds

theorem push_coherent (coherent : t.Coherent) (free : t.assignment.find? l.var = none)
    (declared : l.var < t.assignment.numVariables) : (t.push l antecedent).Coherent where
  recorded := by
    intro m k
    rw [true_at_push free declared, leveled_push, coherent.recorded, List.mem_cons, Prod.mk.injEq]
  distinct := by
    rw [newestFirst_push, List.map_cons, List.nodup_cons]
    refine ⟨fun again => ?_, coherent.distinct⟩
    obtain ⟨m, onTrail, vars⟩ := List.mem_map.mp again
    obtain ⟨_, _, found, _⟩ := coherent.true_at_of_mem onTrail
    rw [vars, free] at found
    cases found

theorem value?_push_self (free : t.assignment.find? l.var = none)
    (declared : l.var < t.assignment.numVariables) :
    (t.push l antecedent).value? l = some true :=
  value?_of_true_at ((true_at_push free declared).mpr (.inl ⟨rfl, rfl⟩))

theorem value?_push_of_var_ne (declared : l.var < t.assignment.numVariables)
    (other : m.var ≠ l.var) :
    (t.push l antecedent).value? m = t.value? m := by
  simp only [value?, Assignment.value?]
  rw [find?_push declared, if_neg other]

/-- A value that a literal has is not changed by assigning another. -/
theorem value?_push_of_eq_some (free : t.assignment.find? l.var = none)
    (declared : l.var < t.assignment.numVariables) (known : t.value? m = some b) :
    (t.push l antecedent).value? m = some b := by
  rw [value?_push_of_var_ne declared, known]
  intro same
  rw [value?_eq_none_iff.mpr (same ▸ free)] at known
  cases known

theorem reason_push_self (declared : l.var < t.assignment.numVariables) :
    (t.push l antecedent).reason l = antecedent := by
  rw [reason, find?_push declared, if_pos rfl]
  rfl

theorem reason_push_of_mem (coherent : t.Coherent) (free : t.assignment.find? l.var = none)
    (declared : l.var < t.assignment.numVariables) (onTrail : m ∈ t.newestFirst) :
    (t.push l antecedent).reason m = t.reason m := by
  rw [reason, find?_push declared, if_neg, reason]
  intro same
  obtain ⟨_, _, found, _⟩ := coherent.true_at_of_mem onTrail
  rw [same, free] at found
  cases found

@[simp] theorem true_at_openLevel : t.openLevel.TrueAt l k ↔ t.TrueAt l k := Iff.rfl

theorem openLevel_coherent (coherent : t.Coherent) : t.openLevel.Coherent where
  recorded := by simpa using coherent.recorded
  distinct := coherent.distinct

/-! ## Going back -/

theorem level_backTo_of_le (reach : target ≤ t.level) : (t.backTo target).level = target := by
  rw [level_backTo]
  omega

theorem backTo_eq_self (reach : t.level ≤ target) : t.backTo target = t := by
  have nothing : t.level - target = 0 := Nat.sub_eq_zero_of_le reach
  simp [Trail.backTo, nothing]

theorem find?_backTo :
    (t.backTo target).assignment.find? var
      = if var ∈ (t.levels.take (t.level - target)).flatten.map Literal.var then none
        else t.assignment.find? var :=
  Assignment.find?_clears _ _

theorem numVariables_backTo :
    (t.backTo target).assignment.numVariables = t.assignment.numVariables :=
  Assignment.numVariables_clears _ _

theorem mem_leveled_backTo (reach : target ≤ t.level) :
    (l, k) ∈ (t.backTo target).leveled ↔ (l, k) ∈ t.leveled ∧ k ≤ target := by
  have depth : t.levels.length - (t.level - target) = target := by
    unfold Trail.level at reach ⊢
    omega
  exact (mem_leveledFrom_drop (t.level - target)).trans (by rw [depth]; rfl)

/-- The literals whose entries are cleared are those above the level. -/
theorem Coherent.mem_dropped_iff (coherent : t.Coherent) (reach : target ≤ t.level) :
    l ∈ (t.levels.take (t.level - target)).flatten ↔ ∃ k, target < k ∧ t.TrueAt l k := by
  have depth : t.levels.length - (t.level - target) = target := by
    unfold Trail.level at reach ⊢
    omega
  rw [mem_flatten_take_iff t.root _ (by unfold Trail.level; omega), depth]
  exact exists_congr fun k => and_congr Iff.rfl (coherent.recorded l k).symm

/-- An entry survives going back exactly if its level is not above the target. -/
theorem Coherent.find?_backTo_eq_some_iff (coherent : t.Coherent) (reach : target ≤ t.level) :
    (t.backTo target).assignment.find? var = some e
      ↔ t.assignment.find? var = some e ∧ e.level ≤ target := by
  rw [find?_backTo]
  split
  · rename_i dropped
    obtain ⟨l, member, rfl⟩ := List.mem_map.mp dropped
    obtain ⟨_, above, e', found, -, rfl⟩ := (coherent.mem_dropped_iff reach).mp member
    rw [found]
    constructor
    · intro impossible
      cases impossible
    · rintro ⟨same, bound⟩
      cases same
      omega
  · rename_i kept
    constructor
    · intro found
      refine ⟨found, Nat.le_of_not_lt fun above => kept ?_⟩
      refine List.mem_map.mpr ⟨⟨var, e.positive⟩, ?_, rfl⟩
      exact (coherent.mem_dropped_iff reach).mpr ⟨e.level, above, e, found, rfl, rfl⟩
    · exact And.left

/-- Going back keeps the entries up to the level and no other. -/
theorem Coherent.find?_backTo_eq_filter (coherent : t.Coherent) (reach : target ≤ t.level) :
    (t.backTo target).assignment.find? var
      = (t.assignment.find? var).filter (·.level ≤ target) := by
  ext e
  rw [coherent.find?_backTo_eq_some_iff reach, Option.filter_eq_some_iff, decide_eq_true_iff]

/-- Going back keeps exactly the literals up to the level. -/
theorem Coherent.true_at_backTo (coherent : t.Coherent) (reach : target ≤ t.level) :
    (t.backTo target).TrueAt l k ↔ t.TrueAt l k ∧ k ≤ target := by
  unfold TrueAt
  simp only [coherent.find?_backTo_eq_some_iff reach]
  constructor
  · rintro ⟨e, ⟨found, bound⟩, signs, rfl⟩
    exact ⟨⟨e, found, signs, rfl⟩, bound⟩
  · rintro ⟨⟨e, found, signs, rfl⟩, bound⟩
    exact ⟨e, ⟨found, bound⟩, signs, rfl⟩

theorem Coherent.backTo_coherent (coherent : t.Coherent) (reach : target ≤ t.level) :
    (t.backTo target).Coherent where
  recorded := by
    intro l k
    rw [coherent.true_at_backTo reach, mem_leveled_backTo reach, coherent.recorded]
  distinct :=
    ((newestFirst_backTo_suffix t target).sublist.map Literal.var).nodup coherent.distinct

theorem Coherent.reason_backTo (coherent : t.Coherent) (reach : target ≤ t.level)
    (onTrail : l ∈ (t.backTo target).newestFirst) : (t.backTo target).reason l = t.reason l := by
  obtain ⟨k, e, found, -⟩ := (coherent.backTo_coherent reach).true_at_of_mem onTrail
  rw [reason, reason, found, ((coherent.find?_backTo_eq_some_iff reach).mp found).1]

theorem Coherent.value?_backTo_of_lt (coherent : t.Coherent) (reach : target ≤ t.level)
    (holds : t.TrueAt l k) (above : target < k) : (t.backTo target).value? l = none := by
  rw [value?_eq_none_iff]
  cases found : (t.backTo target).assignment.find? l.var with
  | none => rfl
  | some e =>
    obtain ⟨found', bound⟩ := (coherent.find?_backTo_eq_some_iff reach).mp found
    have same := true_at_unique holds ⟨e, found', ?_, rfl⟩
    · omega
    · obtain ⟨e', found'', signs, -⟩ := holds
      cases found'.symm.trans found''
      exact signs

/-! ## Forgetting antecedents -/

theorem true_at_forget : (t.forget clauses).TrueAt l k ↔ t.TrueAt l k := by
  unfold TrueAt forget
  rw [Assignment.find?_forget]
  cases t.assignment.find? l.var with
  | none => simp
  | some e => simp [Assignment.Entry.forget]

theorem value?_forget : (t.forget clauses).value? l = t.value? l := by
  unfold value? Assignment.value? forget
  rw [Assignment.find?_forget]
  cases t.assignment.find? l.var <;> rfl

theorem forget_coherent (coherent : t.Coherent) : (t.forget clauses).Coherent where
  recorded := fun l k => true_at_forget.trans (coherent.recorded l k)
  distinct := coherent.distinct

theorem reason_forget :
    (t.forget clauses).reason l = (t.reason l).filter (· ∉ clauses) := by
  unfold reason forget
  rw [Assignment.find?_forget]
  cases t.assignment.find? l.var <;> rfl

/-! ## Decision levels -/

/-- A level above 0 as the search fills it: a decision, which no clause
implied, and after it only literals that clauses implied. -/
def Led (t : Trail) (block : List Literal) : Prop :=
  ∃ implied decision, block = implied ++ [decision] ∧ t.reason decision = none ∧
    ∀ l ∈ implied, t.reason l ≠ none

theorem Led.congr (led : t.Led block) (same : ∀ l ∈ block, t'.reason l = t.reason l) :
    Led t' block := by
  obtain ⟨implied, decision, rfl, undecided, explained⟩ := led
  refine ⟨implied, decision, rfl, ?_, fun l member => ?_⟩
  · rw [same decision (by simp), undecided]
  · rw [same l (by simp [member])]
    exact explained l member

theorem Led.ne_nil (led : t.Led block) : block ≠ [] := by
  obtain ⟨implied, decision, rfl, -⟩ := led
  simp

/-- Only the oldest literal of a level has no antecedent. -/
theorem Led.reason_ne_none (led : t.Led (newer ++ l :: older)) (more : older ≠ []) :
    t.reason l ≠ none := by
  obtain ⟨implied, decision, split, -, explained⟩ := led
  obtain ⟨between, oldest, rfl⟩ := (List.eq_nil_or_concat older).resolve_left more
  rw [List.concat_eq_append, ← List.cons_append, ← List.append_assoc] at split
  obtain ⟨same, -⟩ := List.append_inj' split rfl
  exact explained l (by simp [← same])

/-- Every level above 0 starts with a decision and has no other. -/
def Layered (t : Trail) : Prop :=
  ∀ block ∈ t.levels, t.Led block

theorem layered_of_level_eq_zero (ground : t.level = 0) : t.Layered := by
  intro block member
  rw [List.eq_nil_of_length_eq_zero ground] at member
  cases member

theorem mem_newestFirst_of_mem_levels (member : block ∈ t.levels) (inside : l ∈ block) :
    l ∈ t.newestFirst :=
  List.mem_append_left _ (List.mem_flatten.mpr ⟨block, member, inside⟩)

theorem newestFirst_split (above : 0 < t.level) :
    t.top ∈ t.levels ∧ ∃ below, t.newestFirst = t.top ++ below := by
  unfold level top newestFirst at *
  cases shape : t.levels with
  | nil => simp [shape] at above
  | cons first rest => exact ⟨by simp, rest.flatten ++ t.root, by simp⟩

theorem levels_push (t : Trail) (l : Literal) (antecedent : Option Nat) :
    (t.push l antecedent).levels
      = match t.levels with | [] => [] | top :: below => (l :: top) :: below := by
  obtain ⟨assignment, root, levels⟩ := t
  cases levels <;> rfl

/-- Above level 0 only implied literals may follow the decision. -/
theorem Layered.push (layered : t.Layered) (coherent : t.Coherent)
    (free : t.assignment.find? l.var = none) (declared : l.var < t.assignment.numVariables)
    (implied : 0 < t.level → antecedent ≠ none) : (t.push l antecedent).Layered := by
  have same : ∀ block ∈ t.levels, ∀ m ∈ block, (t.push l antecedent).reason m = t.reason m :=
    fun block member m inside =>
      reason_push_of_mem coherent free declared (mem_newestFirst_of_mem_levels member inside)
  have self : (t.push l antecedent).reason l = antecedent := reason_push_self declared
  intro block member
  rw [levels_push] at member
  cases split : t.levels with
  | nil =>
    rw [split] at member
    cases member
  | cons top below =>
    rw [split] at member same
    rcases List.mem_cons.mp member with rfl | member
    · obtain ⟨followers, decision, rfl, undecided, explained⟩ :=
        (layered top (by simp [split])).congr (same top (by simp))
      refine ⟨l :: followers, decision, rfl, undecided, fun m inside => ?_⟩
      rcases List.mem_cons.mp inside with rfl | inside
      · rw [self]
        apply implied
        simp [Trail.level, split]
      · exact explained m inside
    · exact (layered block (by simp [split, member])).congr (same block (by simp [member]))

/-- A decision starts a level of its own. -/
theorem Layered.decide (layered : t.Layered) (coherent : t.Coherent)
    (free : t.assignment.find? l.var = none) (declared : l.var < t.assignment.numVariables) :
    (t.openLevel.push l none).Layered := by
  intro block member
  rcases List.mem_cons.mp member with rfl | member
  · exact ⟨[], l, rfl, reason_push_self (t := t.openLevel) declared, by simp⟩
  · apply (layered block member).congr
    intro m inside
    exact reason_push_of_mem (openLevel_coherent coherent) free declared
      (mem_newestFirst_of_mem_levels (t := t) member inside)

theorem Layered.backTo (layered : t.Layered) (coherent : t.Coherent) (reach : target ≤ t.level) :
    (t.backTo target).Layered := by
  intro block member
  apply (layered block (List.mem_of_mem_drop member)).congr
  intro m inside
  exact coherent.reason_backTo reach (mem_newestFirst_of_mem_levels member inside)

end Trail

end ClauseLearning
