import ClauseLearning.Command.Arguments
import ClauseLearning.Error
import ClauseLearning.Text.Integer
import ClauseLearning.Text.Real

/-!
What a command gives back, and the options that several commands have in common.
-/

namespace ClauseLearning.Command

/-- The result of a command. -/
structure Report where
  /-- The exit code. -/
  exitCode : Nat
  /-- The lines of the output. -/
  output : List String
  /-- What went wrong. -/
  complaint : Option String

/-- The version of the commands. -/
def versionNumber : String :=
  "0.1.0"

/-- The report on a command line that asks for no work. -/
def Refusal.report (name usage : String) : Refusal → Report
  | .help => ⟨0, [usage], none⟩
  | .version => ⟨0, [s!"{name} {versionNumber}"], none⟩
  | .invalid => ⟨2, [], some s!"error: invalid command line, usage: {usage}"⟩

/-- The report on a failure after some output; the file is the one that the command reads. -/
def failed (output : List String) (file : String) (e : Error) : Report :=
  ⟨1, output, some ("error: " ++ e.message file)⟩

/-- A byte, read as a signed number that has to be in range. -/
def byte? (text : String) : Option Nat :=
  ((Text.signed? text.toList).filter fun x => 0 ≤ x ∧ x < 256).map Int.toNat

/-- An unsigned machine word. -/
def word? (text : String) : Option Nat :=
  Text.unsigned? text.toList

/-- A signed machine word. -/
def signedWord? (text : String) : Option Int :=
  Text.signed? text.toList

/-- A floating-point number. -/
def real? (text : String) : Option Float :=
  Text.real? text.toList

/-- An option with one value, given by its long name. -/
def named (name : String) (read : String → Option α) : OptionSpec :=
  ⟨some name, none, .one, fun value => (read value).isSome⟩

/-- An option with one value, given by its letter. -/
def lettered (letter : Char) (read : String → Option α) : OptionSpec :=
  ⟨none, some letter, .one, fun value => (read value).isSome⟩

/-- The options that ask for the help text and for the version. -/
def standardOptions : List OptionSpec :=
  [⟨some "help", some 'h', .help, fun _ => false⟩,
    ⟨some "version", some 'V', .version, fun _ => false⟩]

/-- The value of an option given by its long name, as it is read. -/
def Arguments.named? (a : Arguments) (name : String) (read : String → Option α) : Option α :=
  (a.values (·.long == some name)).head?.bind read

/-- The value of an option given by its letter, as it is read. -/
def Arguments.lettered? (a : Arguments) (letter : Char) (read : String → Option α) : Option α :=
  (a.values (·.short == some letter)).head?.bind read

end ClauseLearning.Command
