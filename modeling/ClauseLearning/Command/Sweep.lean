import ClauseLearning.Command.Report
import ClauseLearning.Experiment.Density

/-!
The command `phase`: measures at a range of ratios of clauses to variables and prints a table with
commas, one line for each ratio. The lines before a failure are printed all the same.
-/

namespace ClauseLearning.Command.Sweep

open Experiment Randomness

/-- What the command is to do. -/
structure Request where
  /-- Literals in a clause. -/
  k : Nat := 3
  /-- Variables in a formula. -/
  n : Nat := 150
  /-- The first ratio. -/
  first : Float := 0.0
  /-- The ratio not to go far beyond. -/
  last : Float := 5.0
  /-- The distance of the ratios. -/
  interval : Float := 0.2
  /-- Formulas at each ratio. -/
  samples : Nat := 50
  /-- The code of the heuristic. -/
  heuristic : Nat := 1
  /-- The seed of the formulas. -/
  seed : Nat := 0

/-- The command line of the command. -/
def grammar : Grammar where
  options := standardOptions ++
    [lettered 'k' word?, lettered 'n' word?, named "rstart" real?, named "rend" real?,
      named "rinterval" real?, named "samples" word?, named "heuristic" byte?, named "seed" word?]
  operands := 0

/-- The request that read arguments make. -/
def Request.ofArguments (a : Arguments) : Request where
  k := (a.lettered? 'k' word?).getD 3
  n := (a.lettered? 'n' word?).getD 150
  first := (a.named? "rstart" real?).getD 0.0
  last := (a.named? "rend" real?).getD 5.0
  interval := (a.named? "rinterval" real?).getD 0.2
  samples := (a.named? "samples" word?).getD 50
  heuristic := (a.named? "heuristic" byte?).getD 1
  seed := (a.named? "seed" word?).getD 0

/-- The larger number, or the one that is a number. -/
def larger (x y : Float) : Float :=
  if x.isNaN then y else if y.isNaN then x else if x < y then y else x

/-- How many ratios follow the first one. -/
def Request.steps (r : Request) : Nat :=
  roundNearest ((larger r.last r.first - r.first) / r.interval)

/-- The ratio after some steps. -/
def Request.ratio (r : Request) (step : Nat) : Float :=
  r.first + Float.ofNat step * r.interval

/-- The line of the table on a measurement. -/
def tableLine (m : Measurement) : String :=
  ",".intercalate [Text.fixed 3 m.density, Text.fixed 3 m.satisfiable, Text.fixed 1 m.decisions]

/-- Measures at the ratios from a step on, `count` of them; gives the lines and what ended them
early. -/
def Request.linesFrom (r : Request) (s : Survey) (step : Nat) :
    Nat → Keystream → List String × Option Error
  | 0, _ => ([], none)
  | count + 1, source =>
    match s.measure (r.ratio step) source with
    | .error failure => ([], some failure)
    | .ok (measurement, source) =>
      let (lines, failure) := r.linesFrom s (step + 1) count source
      (tableLine measurement :: lines, failure)

/-- What the command reports. -/
def Request.report (r : Request) : Report :=
  if ¬ 0.0 < r.interval then failed [] "" (.invalidOptions .interval)
  else match Heuristic.ofCode? r.heuristic with
    | none => failed [] "" (.unknownHeuristic r.heuristic)
    | some heuristic =>
      let survey : Survey := ⟨r.k, r.n, r.samples, { heuristic := heuristic }⟩
      let (lines, failure) := r.linesFrom survey 0 (r.steps + 1) (.ofSeed r.seed.toUInt64)
      let output := "ratio,sat_probability,mean_decisions" :: lines
      match failure with
      | none => ⟨0, output, none⟩
      | some cause => failed output "" cause

/-- The request on a command line, or the report on one without a request. -/
def request (arguments : List String) : Except Report Request :=
  match grammar.read arguments with
  | .ok a => .ok (.ofArguments a)
  | .error refusal => .error (refusal.report "phase" "phase [OPTIONS]")

end ClauseLearning.Command.Sweep
