import Mathlib.Data.Nat.Choose.Basic
import ClauseLearning.Logic.Pigeonhole
import ClauseLearning.Proofs.RunStatistics

/-! The restart schedule along a run. The limit on conflicts is scaled in floating point, so runs
are followed here with any machine word in place of what that gives. Whatever it is, the limit
rises at every restart and exactly as many conflicts pass before the next one, so that restarts
get rarer and rarer. The sums of the schedule stay within a machine word: a limit that is the
largest word is out of reach as long as the conflicts themselves can be counted. -/
namespace ClauseLearning

namespace Schedule

/-- The schedule for the time after a restart if the limit was scaled to this number. -/
def relaxTo (s : Schedule) (scaled : Nat) : Schedule :=
  { s with
    conflicts := 0
    conflictsLimit := max scaled (s.conflictsLimit + 1)
    lbdLimit := s.lbdLimit * s.growth }

theorem relaxTo_scaledLimit (s : Schedule) : s.relaxTo s.scaledLimit = s.relax := rfl

/-- The limit is scaled to a word, whatever the growth is. -/
theorem scaledLimit_lt (s : Schedule) : s.scaledLimit < UInt64.size :=
  UInt64.toNat_lt_size _

end Schedule

/-- The search came to this phase and state through these restarts, the newest first, each given
by the state in which it was due. At each of them the limit was scaled to any word. -/
inductive RestartHistory (f : Formula) (o : Options) (assumed : List Literal) :
    List State → Phase → State → Prop where
  | start (loaded : State.ofFormula f o = .ok s) (nonempty : s.hasEmptyClause = false)
      (held : { s with assumptions := assumed }.assume = .ok (.held, t)) :
      RestartHistory f o assumed [] .propagating t
  | step (history : RestartHistory f o assumed past phase s) (goesOn : ∀ l, phase ≠ .restarting l)
      (allowed : s.Allows phase choice) (advanced : s.advance choice phase = .ok (next, t)) :
      RestartHistory f o assumed past next t
  | restart (history : RestartHistory f o assumed past (.restarting l) s)
      (started : s.startOver l = .ok (next, t)) (word : scaled < UInt64.size) :
      RestartHistory f o assumed (s :: past) next { t with schedule := s.schedule.relaxTo scaled }

/-- So many restarts, each with a larger limit, take at least so many conflicts. -/
def Statistics.Rare (o : Options) (n : Statistics) : Prop :=
  n.restarts * o.conflictsLimit + n.restarts * (n.restarts - 1) / 2 ≤ n.conflicts

/-- The conflicts up to the newest of these restarts. -/
def conflictsBefore : List State → Nat
  | [] => 0
  | u :: _ => u.statistics.conflicts

namespace State

/-- The conflicts since the last restart reach the limit exactly when a restart is due. -/
def Timely (s : State) : Phase → Prop
  | .restarting _ => s.schedule.conflicts = s.schedule.conflictsLimit
  | _ => s.schedule.conflicts < s.schedule.conflictsLimit

/-- A restart comes after another one as the schedule has it: the limit is the one that was set
then, it is larger, and exactly as many conflicts have passed. -/
structure Follows (later earlier : State) : Prop where
  inForce : ∃ scaled < UInt64.size,
    later.schedule.conflictsLimit = (earlier.schedule.relaxTo scaled).conflictsLimit
  raised : earlier.schedule.conflictsLimit + 1 ≤ later.schedule.conflictsLimit
  spaced : later.statistics.conflicts
    = earlier.statistics.conflicts + later.schedule.conflictsLimit

/-- The sum that the next step forms in the schedule is a machine word. -/
def SumFits (s : State) : Phase → Prop
  | .analyzing _ => s.schedule.conflicts + 1 < UInt64.size
  | .restarting _ => s.schedule.conflictsLimit + 1 < UInt64.size
  | _ => True

end State

/-- The conflicts that were met but are not counted in the schedule: the one to be analyzed, or
the one that ended the search. -/
def Phase.uncounted : Phase → Nat
  | .analyzing _ | .unsatisfiable => 1
  | _ => 0

/-- What the schedule has come to after these restarts. -/
structure State.OnSchedule (o : Options) (past : List State) (phase : Phase) (s : State) :
    Prop where
  restarts : s.statistics.restarts = past.length
  conflicts : s.statistics.conflicts
    = conflictsBefore past + s.schedule.conflicts + phase.uncounted
  timely : s.Timely phase
  chain : past.IsChain Follows
  oldest : ∀ u ∈ past.getLast?, u.schedule.conflictsLimit = max o.conflictsLimit 1 ∧
    u.statistics.conflicts = u.schedule.conflictsLimit
  initial : past = [] → s.schedule.conflictsLimit = max o.conflictsLimit 1
  newest : ∀ u ∈ past.head?, ∃ scaled < UInt64.size,
    s.schedule.conflictsLimit = (u.schedule.relaxTo scaled).conflictsLimit
  grown : o.conflictsLimit + past.length ≤ s.schedule.conflictsLimit
  rare : past.length * o.conflictsLimit + past.length * (past.length - 1) / 2
    ≤ conflictsBefore past
  word : o.conflictsLimit < UInt64.size → s.statistics.conflicts + 1 < UInt64.size →
    s.schedule.conflictsLimit < UInt64.size

variable {f : Formula} {o : Options} {assumed : List Literal} {s t : State} {phase next : Phase}
  {past : List State} {choice : Option Literal} {l : Learned} {scaled : Nat}

namespace State

/-! ## What a step keeps -/

/-- Nothing that a phase relies on depends on the schedule. -/
theorem Poised.rescheduled (poised : s.Poised .propagating) (schedule : Schedule) :
    Poised { s with schedule := schedule } .propagating where
  coherent := poised.coherent.congr rfl rfl rfl
  layered := poised.layered
  suits := Quiet.congr poised.suits rfl rfl rfl

/-- While the limit stays, every conflict that is met has to be counted, sooner or later. -/
theorem OnSchedule.count (onSchedule : s.OnSchedule o past phase) (met : Nat)
    (restarts : t.statistics.restarts = s.statistics.restarts)
    (limit : t.schedule.conflictsLimit = s.schedule.conflictsLimit)
    (conflicts : t.statistics.conflicts = s.statistics.conflicts + met)
    (counted : t.schedule.conflicts + next.uncounted
      = s.schedule.conflicts + phase.uncounted + met)
    (timely : t.Timely next) : t.OnSchedule o past next where
  restarts := restarts.trans onSchedule.restarts
  conflicts := by
    have before := onSchedule.conflicts
    omega
  timely := timely
  chain := onSchedule.chain
  oldest := onSchedule.oldest
  initial := fun none_ => limit.trans (onSchedule.initial none_)
  newest := fun u newest => limit ▸ onSchedule.newest u newest
  grown := limit ▸ onSchedule.grown
  rare := onSchedule.rare
  word := fun given few => limit ▸ onSchedule.word given (by omega)

/-- A step that does not restart keeps to the schedule. -/
theorem OnSchedule.step (onSchedule : s.OnSchedule o past phase)
    (advanced : s.Advanced phase t next) (counts : s.Counts t next phase)
    (goesOn : ∀ l, phase ≠ .restarting l) : t.OnSchedule o past next := by
  have timely := onSchedule.timely
  have moves := advanced.moves
  cases phase with
  | propagating =>
    obtain ⟨units, counted⟩ := counts
    obtain ⟨schedule, -, phases⟩ := moves
    have early : t.schedule.conflicts < t.schedule.conflictsLimit := schedule ▸ timely
    refine onSchedule.count _ (by rw [counted]) (by rw [schedule]) (by rw [counted]) ?_ ?_
    · rw [schedule]
      rcases phases with rfl | rfl | ⟨index, rfl⟩ <;> rfl
    · rcases phases with rfl | rfl | ⟨index, rfl⟩ <;> exact early
  | deciding =>
    have counted : t.statistics = _ := counts
    obtain ⟨schedule, -, phases⟩ := moves
    have early : t.schedule.conflicts < t.schedule.conflictsLimit := schedule ▸ timely
    refine onSchedule.count _ (by rw [counted]) (by rw [schedule]) (by rw [counted]) ?_ ?_
    · rw [schedule]
      rcases phases with rfl | ⟨index, rfl⟩ <;> rfl
    · rcases phases with rfl | ⟨index, rfl⟩ <;> exact early
  | analyzing index =>
    have counted : t.statistics = s.statistics := counts
    have early : s.schedule.conflicts < s.schedule.conflictsLimit := timely
    obtain ⟨-, ⟨rfl, schedule⟩ | ⟨l, rfl, schedule⟩⟩ := moves
    · refine onSchedule.count 0 (by rw [counted]) (by rw [schedule]) (by rw [counted]; rfl)
        (by rw [schedule]; rfl) ?_
      change t.schedule.conflicts < t.schedule.conflictsLimit
      rwa [schedule]
    · refine onSchedule.count 0 (by rw [counted]) (by rw [schedule]; rfl)
        (by rw [counted]; rfl) ?_ ?_
      · rw [schedule]
        split <;> rfl
      · have one : t.schedule.conflicts = s.schedule.conflicts + 1 := by rw [schedule]; rfl
        have limit : t.schedule.conflictsLimit = s.schedule.conflictsLimit := by rw [schedule]; rfl
        split
        · rename_i due
          have reached := conflictsLimit_le_of_due due
          rw [← schedule] at reached
          change t.schedule.conflicts = t.schedule.conflictsLimit
          omega
        · rename_i notDue
          have below : ¬ s.schedule.conflictsLimit ≤ s.schedule.conflicts + 1 := by
            simpa [Schedule.countConflict] using notDue
          change t.schedule.conflicts < t.schedule.conflictsLimit
          omega
  | backjumping l =>
    obtain ⟨counted, -⟩ := counts
    obtain ⟨schedule, -, -, rfl⟩ := moves
    refine onSchedule.count 0 (by rw [counted]) (by rw [schedule]) (by rw [counted]; rfl)
      (by rw [schedule]; rfl) ?_
    change t.schedule.conflicts < t.schedule.conflictsLimit
    rw [schedule]
    exact timely
  | restarting l => exact absurd rfl (goesOn l)
  | satisfied | unsatisfiable =>
    obtain ⟨rfl, rfl⟩ := moves
    exact onSchedule

/-- A restart comes when it is due and starts the count anew, with the limit raised. -/
theorem OnSchedule.restart (onSchedule : s.OnSchedule o past (.restarting l))
    (counts : s.Counts t next (.restarting l)) (word : scaled < UInt64.size) :
    OnSchedule o (s :: past) .propagating
      { t with schedule := s.schedule.relaxTo scaled } := by
  obtain ⟨deleted, counted, -⟩ := counts
  have due : s.schedule.conflicts = s.schedule.conflictsLimit := onSchedule.timely
  have conflicts : s.statistics.conflicts = conflictsBefore past + s.schedule.conflictsLimit :=
    due ▸ onSchedule.conflicts
  have limit : (s.schedule.relaxTo scaled).conflictsLimit
      = max scaled (s.schedule.conflictsLimit + 1) := rfl
  have grown := onSchedule.grown
  exact {
    restarts := by
      rw [counted, List.length_cons, ← onSchedule.restarts]
    conflicts := by
      rw [counted]
      rfl
    timely := by
      change 0 < (s.schedule.relaxTo scaled).conflictsLimit
      omega
    chain := by
      cases past with
      | nil => exact .singleton s
      | cons u older =>
        obtain ⟨before, known, set⟩ := onSchedule.newest u rfl
        refine .cons_cons ⟨⟨before, known, set⟩, ?_, conflicts⟩ onSchedule.chain
        rw [set]
        exact Nat.le_max_right _ _
    oldest := by
      cases past with
      | nil =>
        rintro u ⟨⟩
        exact ⟨onSchedule.initial rfl, conflicts.trans (Nat.zero_add _)⟩
      | cons u older => exact onSchedule.oldest
    initial := nofun
    newest := by
      rintro u ⟨⟩
      exact ⟨scaled, word, rfl⟩
    grown := by
      change _ ≤ (s.schedule.relaxTo scaled).conflictsLimit
      rw [List.length_cons]
      omega
    rare := by
      have rare := onSchedule.rare
      rw [List.length_cons, Nat.triangle_succ, Nat.succ_mul]
      change _ ≤ s.statistics.conflicts
      omega
    word := by
      intro given few
      have few' : s.statistics.conflicts + 1 < UInt64.size := by rwa [counted] at few
      change (s.schedule.relaxTo scaled).conflictsLimit < UInt64.size
      omega }

theorem Poised.startedOver (poised : s.Poised (.restarting l))
    (started : s.startOver l = .ok (next, t)) :
    s.Advanced (.restarting l) t next ∧ s.Counts t next (.restarting l) := by
  have allowed : s.Allows (.restarting l) none := nofun
  exact ⟨poised.advanced allowed started, counts_of_advance poised allowed started⟩

/-- The sums of the schedule stay within a word: what is counted is at most the conflicts, and a
limit that is to be raised has been reached by them. -/
theorem OnSchedule.sumFits (onSchedule : s.OnSchedule o past phase)
    (few : s.statistics.conflicts + 1 < UInt64.size) : s.SumFits phase := by
  have conflicts := onSchedule.conflicts
  cases phase with
  | analyzing index =>
    change s.schedule.conflicts + 1 < UInt64.size
    omega
  | restarting l =>
    have due : s.schedule.conflicts = s.schedule.conflictsLimit := onSchedule.timely
    change s.schedule.conflictsLimit + 1 < UInt64.size
    omega
  | _ => trivial

end State

/-! ## Along a run -/

theorem RestartHistory.poised (history : RestartHistory f o assumed past phase s)
    (declared : ∀ l ∈ assumed, l.var < f.numVariables) : s.Poised phase := by
  induction history with
  | start loaded nonempty held =>
    exact ((begun_of_assume loaded declared held).ready rfl nonempty).1
  | step _ _ allowed ran ih => exact (ih.advanced allowed ran).poised
  | restart _ started _ ih =>
    obtain ⟨advanced, -⟩ := ih.startedOver started
    obtain ⟨-, rfl⟩ := advanced.moves
    exact advanced.poised.rescheduled _

/-- Every state of a run is on schedule, whatever the limits were scaled to. -/
theorem RestartHistory.onSchedule (history : RestartHistory f o assumed past phase s)
    (declared : ∀ l ∈ assumed, l.var < f.numVariables) : s.OnSchedule o past phase := by
  induction history with
  | @start s t loaded nonempty held =>
    have begun := begun_of_assume loaded declared held
    have nothing : t.statistics = {} := statistics_of_assume loaded held
    have schedule : t.schedule = .start o.conflictsLimit o.lbdLimit o.growth :=
      begun.schedule.trans (State.schedule_of_ofFormula loaded)
    have limit : t.schedule.conflictsLimit = max o.conflictsLimit 1 := by rw [schedule]; rfl
    exact {
      restarts := by rw [nothing]; rfl
      conflicts := by rw [nothing, schedule]; rfl
      timely := by
        change t.schedule.conflicts < t.schedule.conflictsLimit
        rw [schedule]
        exact Nat.lt_of_lt_of_le Nat.one_pos (Nat.le_max_right _ _)
      chain := .nil
      oldest := nofun
      initial := fun _ => limit
      newest := nofun
      grown := by
        rw [limit]
        exact Nat.le_max_left _ _
      rare := by simp
      word := by
        intro given _
        have size : 1 < UInt64.size := by decide
        omega }
  | step history goesOn allowed ran ih =>
    have poised := history.poised declared
    exact ih.step (poised.advanced allowed ran) (State.counts_of_advance poised allowed ran) goesOn
  | restart history started word ih =>
    obtain ⟨advanced, counts⟩ := (history.poised declared).startedOver started
    obtain ⟨-, rfl⟩ := advanced.moves
    exact ih.restart counts word

/-- The search itself has such a history, with the limits that it computes. -/
theorem Reachable.exists_restartHistory (reachable : Reachable f o assumed phase s)
    (declared : ∀ l ∈ assumed, l.var < f.numVariables) :
    ∃ past, RestartHistory f o assumed past phase s := by
  induction reachable with
  | start loaded nonempty held => exact ⟨[], .start loaded nonempty held⟩
  | @step phase s choice next t reached allowed ran ih =>
    obtain ⟨past, history⟩ := ih
    by_cases restarts : ∃ l, phase = .restarting l
    · obtain ⟨l, rfl⟩ := restarts
      have advanced := (reached.invariant declared).1.advanced allowed ran
      have same : t = { t with schedule := s.schedule.relaxTo s.schedule.scaledLimit } := by
        rw [Schedule.relaxTo_scaledLimit, ← advanced.moves.1]
      exact ⟨s :: past, same ▸ .restart history ran s.schedule.scaledLimit_lt⟩
    · exact ⟨past, .step history (fun l is => restarts ⟨l, is⟩) allowed ran⟩

theorem State.OnSchedule.rare_statistics (onSchedule : s.OnSchedule o past phase) :
    s.statistics.Rare o := by
  have conflicts := onSchedule.conflicts
  have rare := onSchedule.rare
  unfold Statistics.Rare
  rw [onSchedule.restarts]
  omega

theorem Ends.rare (ends : Ends f o assumed verdict s)
    (declared : ∀ l ∈ assumed, l.var < f.numVariables) : s.statistics.Rare o := by
  have unstarted : Statistics.Rare o {} := by simp [Statistics.Rare]
  have reached : ∀ {phase s}, Reachable f o assumed phase s → s.statistics.Rare o := by
    intro phase s reachable
    obtain ⟨past, history⟩ := reachable.exists_restartHistory declared
    exact (history.onSchedule declared).rare_statistics
  cases ends with
  | emptyClause loaded empty =>
    have nothing := State.statistics_of_ofFormula loaded
    exact nothing ▸ unstarted
  | assumptionsFail loaded nonempty failed notHeld =>
    have nothing := statistics_of_assume loaded failed
    exact nothing ▸ unstarted
  | satisfied reachable model => exact reached reachable
  | refuted reachable => exact reached reachable

/-- How the restarts of a run were made, the newest first. -/
structure Timetable (o : Options) (past : List State) (phase : Phase) (s : State) : Prop where
  counted : s.statistics.restarts = past.length
  first : ∀ u ∈ past.getLast?, u.schedule.conflictsLimit = max o.conflictsLimit 1 ∧
    u.statistics.conflicts = u.schedule.conflictsLimit
  further : past.IsChain State.Follows
  rare : s.statistics.Rare o
  sumFits : s.statistics.conflicts + 1 < UInt64.size → s.SumFits phase
  limitFits : o.conflictsLimit < UInt64.size → s.statistics.conflicts + 1 < UInt64.size →
    s.schedule.conflictsLimit < UInt64.size

/-- Every run restarts by this timetable, with the limits that it computes and also if these were
scaled to any other words: the limit rises from restart to restart, so many conflicts lie between
two restarts as the limit in force says, and no sum leaves a machine word as long as the
conflicts do not. Solving reports how such a run ended. -/
theorem restarts_keep_to_schedule {numbers : List Int}
    (accepted : numbers.mapM (Solver.assumption f.numVariables) = .ok assumed) :
    (∀ phase s, Reachable f o assumed phase s →
      ∃ past, RestartHistory f o assumed past phase s) ∧
    (∀ past phase s, RestartHistory f o assumed past phase s → Timetable o past phase s) ∧
    ∀ outcome, solve f o numbers = .ok outcome →
      outcome.Reports f o assumed ∧ outcome.statistics.Rare o := by
  have declared := Solver.declared_of_accepted accepted
  refine ⟨fun phase s reached => reached.exists_restartHistory declared, ?_, ?_⟩
  · intro past phase s history
    have onSchedule := history.onSchedule declared
    exact ⟨onSchedule.restarts, onSchedule.oldest, onSchedule.chain, onSchedule.rare_statistics,
      onSchedule.sumFits, onSchedule.word⟩
  · intro outcome solved
    obtain ⟨s, ends, same⟩ := reports_of_solve accepted solved
    refine ⟨⟨s, ends, same⟩, ?_⟩
    rw [same]
    exact ends.rare declared

/-- Four pigeons for three holes: with restarts at the first conflict and two conflicts later
the limit has come to three. -/
theorem restarts_keep_to_schedule_pigeonhole :
    [].mapM (Solver.assumption (Pigeonhole.formula 4 3).numVariables) = .ok [] ∧
    ∃ past phase s,
      RestartHistory (Pigeonhole.formula 4 3) { conflictsLimit := 1 } [] past phase s ∧
      Timetable { conflictsLimit := 1 } past phase s ∧ past.length = 2 ∧
      s.statistics.conflicts = 3 ∧ s.schedule.conflictsLimit = 3 := by
  have accepted : [].mapM (Solver.assumption (Pigeonhole.formula 4 3).numVariables) = .ok [] := rfl
  obtain ⟨phase, s, reached, shown⟩ := @exists_reachable (Pigeonhole.formula 4 3)
    { conflictsLimit := 1 } []
    (fun _ s => s.statistics.restarts = 2 ∧ s.statistics.conflicts = 3 ∧
      s.schedule.conflictsLimit = 3)
    [none, some ⟨0, true⟩, none, some ⟨1, true⟩, none, none, none, none, some ⟨0, true⟩, none,
      some ⟨2, true⟩, none, none, none, none, some ⟨4, true⟩, none, none, none] (by decide +kernel)
  obtain ⟨restarts, conflicts, limit⟩ := of_decide_eq_true shown
  obtain ⟨histories, timetables, -⟩ :=
    restarts_keep_to_schedule (o := { conflictsLimit := 1 }) accepted
  obtain ⟨past, history⟩ := histories phase s reached
  have timetable := timetables past phase s history
  exact ⟨accepted, past, phase, s, history, timetable, timetable.counted.symm.trans restarts,
    conflicts, limit⟩

end ClauseLearning
