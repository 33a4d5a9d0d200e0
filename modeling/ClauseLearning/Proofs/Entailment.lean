import ClauseLearning.Proofs.RunStates
import ClauseLearning.Proofs.TrailPositions

/-! What a search knows follows from the formula and the assumptions: every clause it
keeps and every literal of level 0. A literal of a higher level follows once the
decisions up to its level are added. A learned clause may need the assumptions: its
literals that are false at level 0 are left out of it. -/
namespace ClauseLearning

/-- Every valuation with which the formula and the assumed literals hold is as claimed. -/
def Formula.Entails (f : Formula) (assumed : List Literal) (claim : Valuation → Prop) : Prop :=
  ∀ w, f.Holds w → (∀ l ∈ assumed, l.Holds w) → claim w

namespace State

/-- The decisions up to a level hold. -/
def DecisionsHold (s : State) (level : Nat) (w : Valuation) : Prop :=
  ∀ k l, 0 < k → k ≤ level → s.trail.decision? k = some l → l.Holds w

/-- Clauses and facts of the state follow from the formula and the assumed literals,
and literals above level 0 do with the decisions up to their level. -/
structure Entailed (f : Formula) (assumed : List Literal) (s : State) : Prop where
  clauses : ∀ i c, s.store.clause? i = some c → f.Entails assumed fun w => ClauseHolds w c.literals
  facts : ∀ l ∈ s.trail.literals, s.trail.level? l = some 0 → f.Entails assumed fun w => l.Holds w
  implied : ∀ l ∈ s.trail.literals, ∀ d, 0 < d → s.trail.level? l = some d →
    f.Entails assumed fun w => s.DecisionsHold d w → l.Holds w

variable {s : State} {newer older : List Literal}

theorem DecisionsHold.mono (hold : s.DecisionsHold d w) (lower : k ≤ d) : s.DecisionsHold k w :=
  fun j l positive below decision => hold j l positive (Nat.le_trans below lower) decision

/-- A literal holds if clauses, facts and decisions up to its level do. The induction
is on the part of the trail up to the literal: what implied it stands before it. -/
theorem Coherent.holds_of_decisions (coherent : s.Coherent) (layered : s.trail.Layered)
    (admits : s.Admits w) (split : s.trail.newestFirst = newer ++ older) (member : l ∈ older)
    (holds : s.trail.TrueAt l d) (decisions : s.DecisionsHold d w) : l.Holds w := by
  induction older generalizing newer l d with
  | nil => cases member
  | cons first rest ih =>
    have split' : s.trail.newestFirst = (newer ++ [first]) ++ rest := by
      rw [split, List.append_assoc]
      rfl
    rcases List.mem_cons.mp member with rfl | before
    · rcases Nat.eq_zero_or_pos d with rfl | positive
      · exact admits.2 l holds
      · cases known : s.trail.reason l with
        | none =>
          exact decisions d l positive (Nat.le_refl d)
            (layered.decision?_of_reason_eq_none coherent.trail positive holds known)
        | some index =>
          obtain ⟨c, living, -, earlier, -⟩ := coherent.explained newer l rest index split known
          obtain ⟨m, inside, satisfied⟩ := admits.1 index c living
          by_cases same : m = l
          · exact same ▸ satisfied
          · -- the negation of any other literal of the clause holds already
            have negated := earlier m inside same
            obtain ⟨k, fails⟩ := coherent.trail.true_at_of_mem
              (Trail.mem_newestFirst_of_mem_older split negated)
            have lower := coherent.trail.level_le_of_mem_older split negated fails holds
            have opposite := ih split' negated fails (decisions.mono lower)
            exact absurd satisfied (Literal.holds_negate.mp opposite)
    · exact ih split' before holds decisions

end State

variable {f : Formula} {o : Options} {numbers : List Int} {assumed : List Literal} {s : State}
  {phase : Phase}

theorem RunInvariant.entailed (invariant : RunInvariant f assumed phase s) :
    s.Entailed f assumed := by
  have follows : ∀ l ∈ s.trail.literals, ∀ d, s.trail.level? l = some d →
      f.Entails assumed fun w => s.DecisionsHold d w → l.Holds w := by
    intro l member d level w holds all decisions
    have known := invariant.coherent.trail.mem_literals_iff_value?.mp member
    apply invariant.coherent.holds_of_decisions invariant.layered (invariant.models w holds all)
      (List.nil_append _).symm
    · exact (Trail.mem_literals_iff s.trail l).mp member
    · exact Trail.true_at_of_level? known level
    · exact decisions
  exact {
    clauses := fun i c living w holds all => (invariant.models w holds all).1 i c living
    facts := by
      intro l member level w holds all
      apply follows l member 0 level w holds all
      intro k m positive none_
      omega
    implied := fun l member d _ level => follows l member d level }

/-- In every state of a run all clauses, learned ones among them, and all literals of
level 0 follow from the formula and the assumptions, and every other literal on the
trail does with the decisions up to its level. -/
theorem knowledge_is_entailed
    (accepted : numbers.mapM (Solver.assumption f.numVariables) = .ok assumed) :
    ∀ phase s, Occurs f o assumed phase s → s.Entailed f assumed := by
  intro phase s occurs
  have invariant := occurs.invariant (Solver.declared_of_accepted accepted)
  exact invariant.entailed

/-- The learned clause follows only together with the assumption. -/
theorem knowledge_is_entailed_exclusive :
    [4].mapM (Solver.assumption exclusive.numVariables) = .ok [⟨3, true⟩] ∧
    ¬ exclusive.Entails [] (ClauseHolds · [⟨1, false⟩, ⟨0, false⟩]) ∧
    ∃ phase s, Occurs exclusive {} [⟨3, true⟩] phase s ∧
      s.store.clause? 2 = some ⟨[⟨1, false⟩, ⟨0, false⟩], .learned 2⟩ ∧
      s.Entailed exclusive [⟨3, true⟩] := by
  have unassumed : ¬ exclusive.Entails [] (ClauseHolds · [⟨1, false⟩, ⟨0, false⟩]) := by
    intro entails
    have refuted := entails (fun var => var != 3) (by decide) (by simp)
    revert refuted
    decide
  obtain ⟨phase, s, reached, shown⟩ := exists_exclusive
    (p := fun _ s => s.store.clause? 2 = some ⟨[⟨1, false⟩, ⟨0, false⟩], .learned 2⟩)
    8 (by decide +kernel)
  exact ⟨exclusive_accepted, unassumed, phase, s, .turn reached, of_decide_eq_true shown,
    knowledge_is_entailed exclusive_accepted phase s (.turn reached)⟩

end ClauseLearning
