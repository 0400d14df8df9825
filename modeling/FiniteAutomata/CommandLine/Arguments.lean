/-!
# Command line arguments

The first argument that is no option is the expression and the others are words to run. An option
may stand anywhere, but only once; two dashes end the options.
-/

namespace FiniteAutomata.CommandLine

/-- The options. -/
inductive Flag where
  /-- Print the automaton as a graph. -/
  | dot
  /-- Give the states canonical names. -/
  | canonical
  /-- Do not ask whether the expression is well-formed. -/
  | noCheck
  /-- Print the log. -/
  | debug
  deriving DecidableEq

/-- The option that an argument stands for. -/
def Flag.ofArgument? : String → Option Flag
  | "--dot" => some dot
  | "--canonical" => some canonical
  | "--no-check" => some noCheck
  | "--debug" => some debug
  | "-d" => some debug
  | _ => none

/-- What the program is asked to do. -/
structure Invocation where
  /-- The options that are set. -/
  flags : List Flag
  /-- The expression. -/
  regex : String
  /-- The words to run. -/
  words : List String
  deriving DecidableEq

/-- Whether an argument looks like an option; a dash alone does not. -/
def isDashed (argument : String) : Bool := argument.toList.head? == some '-' && argument != "-"

/-- The options and the other arguments, or nothing if an option is unknown or given twice. -/
def splitArguments (flags : List Flag) : List String → Option (List Flag × List String)
  | [] => some (flags, [])
  | argument :: rest =>
    if argument = "--" then some (flags, rest)
    else
      match Flag.ofArgument? argument with
      | some flag => if flag ∈ flags then none else splitArguments (flag :: flags) rest
      | none =>
        if isDashed argument then none
        else (splitArguments flags rest).map fun found => (found.1, argument :: found.2)

/-- The invocation with the given arguments, or nothing if they are misused. -/
def Invocation.ofArguments? (arguments : List String) : Option Invocation :=
  match splitArguments [] arguments with
  | some (flags, regex :: words) => some ⟨flags, regex, words⟩
  | _ => none

end FiniteAutomata.CommandLine
