/-!
# Command-line arguments

The arguments are one path, the script, and options in any order: `-o` or `--output` with the path to write to, `--indent` with a
number of spaces, `-v` or `--verbose` any number of times, and `-V` or `--version`. Short options may be joined, the value of an
option may follow it directly or after `=`, and `--` ends the options. A value that is an argument of its own does not begin with a
dash, except for the dash alone. Arguments are read from the left, and the first one that is wrong, or asks for the version, decides.
-/

namespace Offside.CommandLine

/-- What the arguments ask for. -/
structure Invocation where
  input : String
  output : Option String
  indentWidth : Nat
  verbosity : Nat
deriving DecidableEq, Repr

/-- Why a script is not compiled. -/
inductive Refusal where
  /-- The arguments make no sense. -/
  | usage
  /-- Only the version was asked for. -/
  | version
deriving DecidableEq, Repr

/-- The arguments read so far. -/
structure Arguments where
  input : Option String := none
  output : Option String := none
  indentWidth : Option Nat := none
  verbosity : Nat := 0
deriving DecidableEq, Repr

/-- Whether an argument is an option or ends the options. The dash alone is neither. -/
def isOption (argument : String) : Bool := argument.toList.head? == some '-' && argument != "-"

/-- The options that take a value. -/
inductive ValueOption where
  | output
  | indent
deriving DecidableEq, Repr

/-- The value of a row of decimal digits that fits sixty-four bits; a plus sign may stand before it. -/
def natural? (text : String) : Option Nat :=
  let digits := match text.toList with
    | '+' :: digits => digits
    | digits => digits
  let value := digits.foldl (fun n c => 10 * n + (c.toNat - '0'.toNat)) 0
  if !digits.isEmpty && digits.all Char.isDigit && value < UInt64.size then some value else none

namespace Arguments

/-- Takes the path of the script. There is only one, and it is not empty. -/
def withInput (a : Arguments) (path : String) : Except Refusal Arguments :=
  if a.input.isSome || path.isEmpty then .error .usage else .ok { a with input := some path }

/-- Takes the value of an option, which may be given once. -/
def withValue (a : Arguments) (option : ValueOption) (value : String) : Except Refusal Arguments :=
  match option with
  | .output => if a.output.isSome || value.isEmpty then .error .usage else .ok { a with output := some value }
  | .indent =>
    match a.indentWidth, natural? value with
    | none, some width => .ok { a with indentWidth := some width }
    | _, _ => .error .usage

/-- Takes one more request for detail. -/
def withVerbose (a : Arguments) : Arguments := { a with verbosity := a.verbosity + 1 }

/-- Takes joined short options. The second result is an option whose value is the next argument. -/
def withShort (a : Arguments) : List Char → Except Refusal (Arguments × Option ValueOption)
  | [] => .ok (a, none)
  | 'v' :: letters => a.withVerbose.withShort letters
  | 'V' :: _ => .error .version
  | 'o' :: [] => .ok (a, some .output)
  | 'o' :: '=' :: value => return (← a.withValue .output (String.ofList value), none)
  | 'o' :: value => return (← a.withValue .output (String.ofList value), none)
  | _ => .error .usage

/-- Takes a long option, without its dashes. The second result is an option whose value is the next argument. -/
def withLong (a : Arguments) (text : List Char) : Except Refusal (Arguments × Option ValueOption) :=
  let name := String.ofList (text.takeWhile (· != '='))
  let value? := match text.dropWhile (· != '=') with
    | '=' :: value => some (String.ofList value)
    | _ => none
  match name, value? with
  | "verbose", none => .ok (a.withVerbose, none)
  | "version", none => .error .version
  | "output", none => .ok (a, some .output)
  | "output", some value => return (← a.withValue .output value, none)
  | "indent", none => .ok (a, some .indent)
  | "indent", some value => return (← a.withValue .indent value, none)
  | _, _ => .error .usage

/-- Takes arguments from the left. The first of them is the value of `awaiting`, if that is an option. -/
def read (a : Arguments) (awaiting : Option ValueOption) : List String → Except Refusal Arguments
  | [] => if awaiting.isSome then .error .usage else .ok a
  | argument :: rest =>
    match awaiting with
    | some option => do
      if isOption argument then .error .usage
      else read (← a.withValue option argument) none rest
    | none =>
      match argument.toList with
      | ['-', '-'] => rest.foldlM withInput a
      | '-' :: '-' :: text => do
        let (a, awaiting) ← a.withLong text
        read a awaiting rest
      | '-' :: c :: letters => do
        let (a, awaiting) ← a.withShort (c :: letters)
        read a awaiting rest
      | _ => do read (← a.withInput argument) none rest

end Arguments

/-- What a list of arguments asks for. -/
def Invocation.ofArguments (arguments : List String) : Except Refusal Invocation := do
  let a ← ({} : Arguments).read none arguments
  match a.input with
  | none => .error .usage
  | some input => return { input, output := a.output, indentWidth := a.indentWidth.getD 4, verbosity := a.verbosity }

end Offside.CommandLine
