/-!
The restart schedule: a restart is due after a number of conflicts that grows from restart to
restart, and so does the largest block distance with which a learned clause outlives it. Growth is
computed in floating point, but the limit on conflicts rises by at least one whatever that gives.
-/

namespace ClauseLearning

/-- When to restart and what to keep. -/
structure Schedule where
  /-- Conflicts since the last restart. -/
  conflicts : Nat
  /-- The number of conflicts at which a restart is due. -/
  conflictsLimit : Nat
  /-- The largest block distance of the learned clauses to keep. -/
  lbdLimit : Float
  /-- The factor on both limits. -/
  growth : Float

namespace Schedule

/-- The schedule before the first conflict; at least one conflict comes before a restart. -/
def start (conflictsLimit : Nat) (lbdLimit growth : Float) : Schedule :=
  ⟨0, max conflictsLimit 1, lbdLimit, growth⟩

/-- Counts a conflict, and tells whether a restart is due. -/
def countConflict (s : Schedule) : Bool × Schedule :=
  let s := { s with conflicts := s.conflicts + 1 }
  (s.conflictsLimit ≤ s.conflicts, s)

/-- Whether a clause of the given block distance is to be kept. -/
def keeps (s : Schedule) (blockDistance : Nat) : Bool :=
  Float.ofNat blockDistance ≤ s.lbdLimit

/-- The limit times the growth, cut to an integer; a product that is no number gives 0, and one
beyond a machine word the largest word. -/
def scaledLimit (s : Schedule) : Nat :=
  (Float.ofNat s.conflictsLimit * s.growth).toUInt64.toNat

/-- The schedule for the time after a restart. -/
def relax (s : Schedule) : Schedule :=
  { s with
    conflicts := 0
    conflictsLimit := max s.scaledLimit (s.conflictsLimit + 1)
    lbdLimit := s.lbdLimit * s.growth }

end Schedule

end ClauseLearning
