import Mathlib.Algebra.BigOperators.Intervals
import Mathlib.Algebra.Ring.Parity
import Mathlib.Data.Fintype.EquivFin
import ClauseLearning.Logic.Pigeonhole
import ClauseLearning.Logic.Semantics

/-! The meaning of the pigeonhole formula. Its valuations are the ways to put the pigeons
into holes, a pigeon possibly into several, so that no hole has two of them; by counting,
there is one exactly if there are no more pigeons than holes. -/
namespace ClauseLearning.Pigeonhole

/-- Read as "pigeon `i` sits in hole `j`" at variable `i * holes + j`, the valuation puts every
pigeon into some hole and no two pigeons into one. -/
structure Housed (v : Valuation) (pigeons holes : Nat) : Prop where
  placed : ∀ pigeon < pigeons, ∃ hole < holes, v (pigeon * holes + hole) = true
  alone : ∀ hole < holes, ∀ first < pigeons, ∀ second < pigeons,
    v (first * holes + hole) = true → v (second * holes + hole) = true → first = second

variable {v : Valuation} {pigeons holes : Nat}

/-! ## The clauses -/

theorem mem_pairs_iff : (first, second) ∈ pairs n ↔ first < second ∧ second < n := by
  simp only [pairs, List.mem_flatMap, List.mem_range, List.mem_map, List.mem_range'_1,
    Prod.mk.injEq]
  constructor
  · rintro ⟨_, bound, _, ⟨above, below⟩, rfl, rfl⟩
    omega
  · rintro ⟨less, bound⟩
    exact ⟨first, by omega, second, by omega, rfl, rfl⟩

theorem length_pairs (n : Nat) : (pairs n).length = n * (n - 1) / 2 := by
  have counted : (pairs n).length = ∑ first ∈ Finset.range n, (n - 1 - first) := by
    simp only [pairs, List.length_flatMap, List.length_map, List.length_range', Nat.sub_sub,
      Nat.add_comm 1]
    rfl
  rw [counted, Finset.sum_range_reflect (fun k => k) n, Finset.sum_range_id]

theorem length_exclusions : (exclusions pigeons holes).length = holes * (pairs pigeons).length := by
  simp only [exclusions, List.length_flatMap, List.length_map, List.map_const', List.length_range,
    List.sum_replicate_nat]

theorem mem_exclusions_iff : clause ∈ exclusions pigeons holes ↔
    ∃ hole < holes, ∃ first second, first < second ∧ second < pigeons ∧
      clause = [(sits holes first hole).negate, (sits holes second hole).negate] := by
  simp [exclusions, mem_pairs_iff, eq_comm, and_assoc]

theorem var_sits_lt (bound : pigeon < pigeons) (bound' : hole < holes) :
    (sits holes pigeon hole).var < pigeons * holes := by
  calc pigeon * holes + hole < (pigeon + 1) * holes := by rw [Nat.succ_mul]; omega
    _ ≤ pigeons * holes := Nat.mul_le_mul_right holes bound

/-- Only the variables of pigeons and holes occur. -/
theorem var_lt_of_mem (member : clause ∈ placements pigeons holes ++ exclusions pigeons holes)
    (inside : l ∈ clause) : l.var < pigeons * holes := by
  rcases List.mem_append.mp member with placement | exclusion
  · obtain ⟨pigeon, bound, rfl⟩ := List.mem_map.mp placement
    obtain ⟨hole, bound', rfl⟩ := List.mem_map.mp inside
    exact var_sits_lt (List.mem_range.mp bound) (List.mem_range.mp bound')
  · obtain ⟨hole, bound, first, second, less, bound', rfl⟩ := mem_exclusions_iff.mp exclusion
    rcases List.mem_pair.mp inside with rfl | rfl
    · exact var_sits_lt (less.trans bound') bound
    · exact var_sits_lt bound' bound

/-! ## Their meaning -/

theorem sits_holds_iff : (sits holes pigeon hole).Holds v ↔ v (pigeon * holes + hole) = true :=
  Iff.rfl

theorem placements_hold_iff : (∀ clause ∈ placements pigeons holes, ClauseHolds v clause) ↔
    ∀ pigeon < pigeons, ∃ hole < holes, v (pigeon * holes + hole) = true := by
  simp [placements, ClauseHolds, sits_holds_iff]

/-- A clause for the smaller of two pigeons first is enough. -/
theorem exclusions_hold_iff : (∀ clause ∈ exclusions pigeons holes, ClauseHolds v clause) ↔
    ∀ hole < holes, ∀ first < pigeons, ∀ second < pigeons,
      v (first * holes + hole) = true → v (second * holes + hole) = true → first = second := by
  have excluded : ∀ first second hole, ClauseHolds v
      [(sits holes first hole).negate, (sits holes second hole).negate] ↔
        ¬ (v (first * holes + hole) = true ∧ v (second * holes + hole) = true) := by
    intro first second hole
    simp only [ClauseHolds, List.exists_mem_cons_iff, List.not_mem_nil, false_and, exists_false,
      or_false, Literal.holds_negate, sits_holds_iff, not_and_or]
  constructor
  · intro hold hole bound first bound₁ second bound₂ sits₁ sits₂
    rcases Nat.lt_trichotomy first second with less | same | less
    · have clause := hold _ (mem_exclusions_iff.mpr ⟨hole, bound, first, second, less, bound₂, rfl⟩)
      exact absurd ⟨sits₁, sits₂⟩ ((excluded first second hole).mp clause)
    · exact same
    · have clause := hold _ (mem_exclusions_iff.mpr ⟨hole, bound, second, first, less, bound₁, rfl⟩)
      exact absurd ⟨sits₂, sits₁⟩ ((excluded second first hole).mp clause)
  · intro alone clause member
    obtain ⟨hole, bound, first, second, less, bound', rfl⟩ := mem_exclusions_iff.mp member
    rw [excluded]
    rintro ⟨sits₁, sits₂⟩
    exact Nat.ne_of_lt less (alone hole bound first (less.trans bound') second bound' sits₁ sits₂)

theorem holds_iff_housed : (formula pigeons holes).Holds v ↔ Housed v pigeons holes := by
  unfold Formula.Holds formula Formula.ofClauses
  rw [List.forall_mem_append, placements_hold_iff, exclusions_hold_iff]
  exact ⟨fun ⟨placed, alone⟩ => ⟨placed, alone⟩, fun ⟨placed, alone⟩ => ⟨placed, alone⟩⟩

/-! ## Counting -/

/-- Pigeons that sit alone take up as many holes as there are pigeons. -/
theorem Housed.le (housed : Housed v pigeons holes) : pigeons ≤ holes := by
  choose hole bound sits using fun pigeon : Fin pigeons => housed.placed pigeon pigeon.isLt
  let home (pigeon : Fin pigeons) : Fin holes := ⟨hole pigeon, bound pigeon⟩
  have injective : Function.Injective home := by
    intro first second same
    have shared : hole first = hole second := congrArg Fin.val same
    apply Fin.ext
    apply housed.alone (hole first) (bound first) first first.isLt second second.isLt (sits first)
    rw [shared]
    exact sits second
  simpa using Fintype.card_le_of_injective home injective

/-- With enough holes each pigeon has the hole of its own number. -/
theorem exists_housed (enough : pigeons ≤ holes) : ∃ v, Housed v pigeons holes := by
  -- dividing by the number of holes finds the pigeon, and the hole is the remainder
  have own : ∀ pigeon hole, hole < holes →
      (decide ((pigeon * holes + hole) / holes = (pigeon * holes + hole) % holes) = true ↔
        pigeon = hole) := by
    intro pigeon hole bound
    rw [decide_eq_true_iff, Nat.mul_comm, Nat.mul_add_div (Nat.zero_lt_of_lt bound),
      Nat.div_eq_of_lt bound, Nat.add_zero, Nat.mul_add_mod, Nat.mod_eq_of_lt bound]
  refine ⟨fun var => decide (var / holes = var % holes), ?_, ?_⟩
  · intro pigeon bound
    exact ⟨pigeon, by omega, (own pigeon pigeon (by omega)).mpr rfl⟩
  · intro hole bound first _ second _ sits₁ sits₂
    exact ((own first hole bound).mp sits₁).trans ((own second hole bound).mp sits₂).symm

/-- The formula says of its variables what it is meant to say, so it has a model exactly if
there are no more pigeons than holes. It declares one variable for each pigeon and hole and
has a clause for each pigeon and, hole by hole, for each two pigeons; as long as there are
not too many variables, all of its literals exist. -/
theorem formula_means_housing (pigeons holes : Nat)
    (within : pigeons * holes < Literal.variableLimit) :
    (∀ v, (formula pigeons holes).Holds v ↔ Housed v pigeons holes) ∧
    ((∃ v, (formula pigeons holes).Holds v) ↔ pigeons ≤ holes) ∧
    (formula pigeons holes).numVariables = pigeons * holes ∧
    (formula pigeons holes).clauses.length = pigeons + holes * pigeons * (pigeons - 1) / 2 ∧
    ∀ clause ∈ (formula pigeons holes).clauses, ∀ l ∈ clause,
      Literal.ofVar? l.var l.positive = some l := by
  refine ⟨fun v => holds_iff_housed, ?_, ?_, ?_, ?_⟩
  · constructor
    · rintro ⟨v, holds⟩
      exact (holds_iff_housed.mp holds).le
    · intro enough
      obtain ⟨v, housed⟩ := exists_housed enough
      exact ⟨v, holds_iff_housed.mpr housed⟩
  · exact Formula.variablesNeeded_eq fun clause member l inside => var_lt_of_mem member inside
  · have even : 2 ∣ pigeons * (pigeons - 1) := even_iff_two_dvd.mp (Nat.even_mul_pred_self pigeons)
    change (placements pigeons holes ++ exclusions pigeons holes).length = _
    rw [List.length_append, length_exclusions, length_pairs, Nat.mul_assoc,
      Nat.mul_div_assoc holes even]
    simp [placements]
  · intro clause member l inside
    rw [Literal.ofVar?, if_pos ((var_lt_of_mem member inside).trans within)]

/-- Three pigeons do not fit into two holes, and two fit into three. -/
theorem formula_means_housing_three :
    3 * 2 < Literal.variableLimit ∧ (¬ ∃ v, (formula 3 2).Holds v) ∧
    (formula 3 2).numVariables = 6 ∧ (formula 3 2).clauses.length = 9 ∧
    2 * 3 < Literal.variableLimit ∧ ∃ v, (formula 2 3).Holds v := by
  have few : 3 * 2 < Literal.variableLimit := by decide
  have few' : 2 * 3 < Literal.variableLimit := by decide
  obtain ⟨-, satisfiable, vars, clauses, -⟩ := formula_means_housing 3 2 few
  obtain ⟨-, satisfiable', -⟩ := formula_means_housing 2 3 few'
  exact ⟨few, by rw [satisfiable]; decide, vars, clauses, few', satisfiable'.mpr (by decide)⟩

end ClauseLearning.Pigeonhole
