/-!
Repeating a step until it gives a result. The number of repetitions that can be afforded doubles
from round to round, so a small number of rounds allows for a search of exponential length, while
a search that ends early costs no more than its own steps.
-/

namespace ClauseLearning.Doubling

/-- How many repetitions a depth allows for: each depth twice those of the depth below. -/
def repetitions : Nat → Nat
  | 0 => 1
  | depth + 1 => repetitions depth + repetitions depth

/-- How many repetitions a number of rounds allows for, the first of them at the given depth. -/
def repetitionsOfRounds : Nat → Nat → Nat
  | 0, _ => 0
  | count + 1, depth => repetitions depth + repetitionsOfRounds count (depth + 1)

/-- Repeats a step up to `repetitions depth` times, or until it gives a result. -/
def within (step : α → α ⊕ β) : Nat → α → α ⊕ β
  | 0, a => step a
  | depth + 1, a =>
    match within step depth a with
    | .inl a => within step depth a
    | .inr result => .inr result

/-- Repeats a step in rounds, each allowing for twice the repetitions of the round before. -/
def rounds (step : α → α ⊕ β) : Nat → Nat → α → α ⊕ β
  | 0, _, a => .inl a
  | count + 1, depth, a =>
    match within step depth a with
    | .inl a => rounds step count (depth + 1) a
    | .inr result => .inr result

/-- What a number of repetitions comes to, counted one by one. -/
def iterate (step : α → α ⊕ β) : Nat → α → α ⊕ β
  | 0, a => .inl a
  | count + 1, a =>
    match step a with
    | .inl a => iterate step count a
    | .inr result => .inr result

theorem iterate_add (step : α → α ⊕ β) (m n : Nat) (a : α) :
    iterate step (m + n) a =
      match iterate step m a with
      | .inl a => iterate step n a
      | .inr result => .inr result := by
  induction m generalizing a with
  | zero => simp [iterate]
  | succ m ih =>
    rw [Nat.succ_add, iterate, iterate]
    cases step a with
    | inl next => exact ih next
    | inr result => rfl

theorem within_eq_iterate (step : α → α ⊕ β) (depth : Nat) (a : α) :
    within step depth a = iterate step (repetitions depth) a := by
  induction depth generalizing a with
  | zero =>
    rw [within, repetitions, iterate]
    cases step a with
    | inl next => rfl
    | inr result => rfl
  | succ depth ih =>
    rw [within, ih, repetitions, iterate_add]
    cases iterate step (repetitions depth) a with
    | inl next => exact ih next
    | inr result => rfl

/-- The rounds repeat the step as often as they allow for, and no result is passed over. -/
theorem rounds_eq_iterate (step : α → α ⊕ β) (count depth : Nat) (a : α) :
    rounds step count depth a = iterate step (repetitionsOfRounds count depth) a := by
  induction count generalizing depth a with
  | zero => rfl
  | succ count ih =>
    rw [rounds, within_eq_iterate, repetitionsOfRounds, iterate_add]
    cases iterate step (repetitions depth) a with
    | inl next => exact ih _ next
    | inr result => rfl

/-- Rounds, with the first depth counted once more, come to the depth after the last round. -/
theorem repetitionsOfRounds_add (count depth : Nat) :
    repetitionsOfRounds count depth + repetitions depth = repetitions (depth + count) := by
  induction count generalizing depth with
  | zero => simp [repetitionsOfRounds]
  | succ count ih =>
    have later := ih (depth + 1)
    rw [Nat.add_right_comm, repetitions] at later
    rw [repetitionsOfRounds, ← Nat.add_assoc depth count 1, ← later]
    omega

end ClauseLearning.Doubling
