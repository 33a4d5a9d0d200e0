/-!
Command lines: options with long or short names, and operands between them. A long option takes
its value after an equals sign or as the next argument, a short one also right behind its letter.
An argument with a hyphen in front is an option and no value, except that an option with many
values takes negative numbers. Two hyphens end the options. Each option is checked when it is
complete, so a request for help or for the version counts only if nothing before it is wrong.
-/

namespace ClauseLearning.Command

/-- How many values an option takes. -/
inductive Arity where
  /-- None: the option asks for the help text. -/
  | help
  /-- None: the option asks for the version. -/
  | version
  /-- One, and the option may be given once. -/
  | one
  /-- One or more, and the option may be repeated. -/
  | many
  deriving DecidableEq

/-- An option of a command. -/
structure OptionSpec where
  /-- The name after two hyphens. -/
  long : Option String
  /-- The letter after one hyphen. -/
  short : Option Char
  /-- How many values it takes. -/
  arity : Arity
  /-- Which values it takes. -/
  accepts : String → Bool

/-- The grammar of a command line. -/
structure Grammar where
  /-- The options. -/
  options : List OptionSpec
  /-- How many operands there are. -/
  operands : Nat

/-- Why a command line asks for no work. -/
inductive Refusal where
  /-- It asks for the help text. -/
  | help
  /-- It asks for the version. -/
  | version
  /-- It is against the grammar. -/
  | invalid
  deriving DecidableEq

/-- An option as it was given. -/
structure Given where
  /-- The option. -/
  spec : OptionSpec
  /-- Its values. -/
  values : List String

/-- What a command line says. -/
structure Arguments where
  /-- The options, in order. -/
  given : List Given := []
  /-- The operands, in order. -/
  operands : List String := []

namespace OptionSpec

/-- Whether two options are the same one. -/
def same (a b : OptionSpec) : Bool :=
  a.long == b.long && a.short == b.short

end OptionSpec

namespace Arguments

/-- The values of an option by its long name, or by its letter. -/
def values (a : Arguments) (p : OptionSpec → Bool) : List String :=
  (a.given.filter fun g => p g.spec).flatMap Given.values

/-- Adds a complete option, if its values are as they should be. -/
def complete (a : Arguments) (g : Given) : Except Refusal Arguments :=
  let repeated := a.given.any fun earlier => earlier.spec.same g.spec
  if g.values = [] ∨ ¬ g.values.all g.spec.accepts then .error .invalid
  else if g.spec.arity = .one ∧ repeated then .error .invalid
  else .ok { a with given := a.given ++ [g] }

/-- Completes the option that still waits for values, if there is one. -/
def close (a : Arguments) : Option Given → Except Refusal Arguments
  | none => .ok a
  | some g => a.complete g

end Arguments

/-- Whether a text is a number as far as telling it from an option goes: digits, with a point that
is not in front and an exponent that is neither in front nor empty. -/
def looksNumeric (text : List Char) : Bool :=
  let (whole, rest) := text.span Char.isDigit
  let afterPoint := match rest with
    | '.' :: more => if whole = [] then rest else more.dropWhile Char.isDigit
    | _ => rest
  match afterPoint with
  | [] => true
  | 'e' :: exponent => whole ≠ [] && exponent ≠ [] && exponent.all Char.isDigit
  | _ => false

/-- What has been read of a command line: complete options, and one that may take more values. -/
structure Reading where
  /-- The complete part. -/
  arguments : Arguments := {}
  /-- The option that takes the next value. -/
  pending : Option Given := none

namespace Reading

/-- Starts an option: with the value attached to it, or waiting for values. -/
def start (r : Reading) (spec : OptionSpec) (attached : Option String) :
    Except Refusal Reading := do
  let arguments ← r.arguments.close r.pending
  match spec.arity, attached with
  | .help, none => throw .help
  | .version, none => throw .version
  | .help, some _ => throw .invalid
  | .version, some _ => throw .invalid
  | _, none => return ⟨arguments, some ⟨spec, []⟩⟩
  | _, some value => return ⟨← arguments.complete ⟨spec, [value]⟩, none⟩

/-- Reads an option with a long name. -/
def long (g : Grammar) (r : Reading) (text : List Char) : Except Refusal Reading :=
  let (name, rest) := text.span (· ≠ '=')
  let attached := match rest with
    | [] => none
    | _ :: value => some (String.ofList value)
  match g.options.find? fun spec => spec.long == some (String.ofList name) with
  | none => .error .invalid
  | some spec => r.start spec attached

/-- Reads an option with a short name; what follows the letter is its value, after an equals sign
or directly. An option without values leaves nothing to read. -/
def short (g : Grammar) (r : Reading) (letter : Char) (rest : List Char) :
    Except Refusal Reading :=
  let attached := match rest with
    | [] => none
    | '=' :: value => some (String.ofList value)
    | value => some (String.ofList value)
  match g.options.find? fun spec => spec.short == some letter with
  | none => .error .invalid
  | some spec =>
    r.start spec (if spec.arity = .help ∨ spec.arity = .version then none else attached)

/-- Reads a value: of the option that waits for one, or else an operand. -/
def value (g : Grammar) (r : Reading) (text : String) : Except Refusal Reading :=
  match r.pending with
  | some option =>
    let option := { option with values := option.values ++ [text] }
    if option.spec.arity = .many then .ok { r with pending := some option }
    else (r.arguments.complete option).map fun arguments => ⟨arguments, none⟩
  | none =>
    if r.arguments.operands.length < g.operands ∧ text ≠ "" then
      .ok { r with arguments := { r.arguments with operands := r.arguments.operands ++ [text] } }
    else .error .invalid

/-- Whether the waiting option takes a text with a hyphen in front as a number. -/
def takesNumber (r : Reading) (text : List Char) : Bool :=
  r.pending.any fun option => option.spec.arity = .many && looksNumeric text

/-- Reads one argument before the options end. -/
def argument (g : Grammar) (r : Reading) (text : String) : Except Refusal Reading :=
  match text.toList with
  | '-' :: '-' :: name => r.long g name
  | '-' :: letter :: rest =>
    if r.takesNumber (letter :: rest) then r.value g text else r.short g letter rest
  | _ => r.value g text

/-- Reads the rest of a command line. -/
def rest (g : Grammar) : List String → Reading → Except Refusal Arguments
  | [], r => r.arguments.close r.pending
  | text :: more, r =>
    if text = "--" then do
      let arguments ← r.arguments.close r.pending
      let r ← more.foldlM (value g) ⟨arguments, none⟩
      return r.arguments
    else do
      let r ← r.argument g text
      rest g more r

end Reading

/-- Reads a command line: options as the grammar has them, and exactly its operands. -/
def Grammar.read (g : Grammar) (arguments : List String) : Except Refusal Arguments := do
  let read ← Reading.rest g arguments {}
  if read.operands.length = g.operands then return read else throw .invalid

end ClauseLearning.Command
