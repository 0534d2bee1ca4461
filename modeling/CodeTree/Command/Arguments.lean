/-
The argument line. A command is followed by its file and its options; options that
concern the output and the log may also stand before the command. A double dash ends
the options. An option is given at most once on either side of the command.
-/

import CodeTree.Command.Basic

namespace CodeTree

/-- What an argument line asks for. -/
inductive Request where
  | version
  /-- The line makes no sense. -/
  | misuse
  | run (command : Command) (compact : Bool)
deriving DecidableEq

namespace Arguments

/-- The options that were given. -/
structure Options where
  compact : Bool
  logJson : Bool
  logLevel : Bool
  inExpression : Bool
  type? : Option String
  file? : Option String

def Options.none : Options := ⟨false, false, false, false, .none, .none⟩

/-- The levels of the log. -/
def logLevels : List String := ["trace", "debug", "info", "warn", "error"]

/-- Splits an option into its name and the value after an equals sign. -/
def splitOption (argument : String) : String × Option String :=
  let name := argument.toList.takeWhile (· != '=')
  match argument.toList.dropWhile (· != '=') with
  | [] => (String.ofList name, none)
  | _ :: value => (String.ofList name, some (String.ofList value))

/-- Whether an argument is written like an option. A single dash is none. -/
def isOption (argument : String) : Bool := argument.toList.head? == some '-' && argument != "-"

/-- The value of an option: the one after the equals sign, or the next argument unless it is an
option. -/
def takeValue (value? : Option String) (rest : List String) : Option (String × List String) :=
  match value?, rest with
  | some value, rest => some (value, rest)
  | none, next :: rest => if isOption next then none else some (next, rest)
  | none, [] => none

/-- Reads an option that may stand on either side of the command. -/
def sharedOption (options : Options) (name : String) (value? : Option String) (rest : List String) :
    Option (Options × List String) :=
  if name = "--compact" && value?.isNone && !options.compact then
    some ({ options with compact := true }, rest)
  else if name = "--log-json" && value?.isNone && !options.logJson then
    some ({ options with logJson := true }, rest)
  else if name = "--log-level" && !options.logLevel then
    match takeValue value? rest with
    | some (level, rest) =>
      if logLevels.contains level then some ({ options with logLevel := true }, rest) else none
    | none => none
  else none

/-- The commands by name. -/
inductive Verb where
  | stats
  | parens
  | prune
deriving DecidableEq

def verb? (name : String) : Option Verb :=
  if name = "stats" then some .stats
  else if name = "parens" then some .parens
  else if name = "prune" then some .prune
  else none

/-- Reads an option after the command. -/
def verbOption (verb : Verb) (options : Options) (name : String) (value? : Option String)
    (rest : List String) : Option (Options × List String) :=
  if verb = .parens && name = "--assume-expression-context" && value?.isNone &&
      !options.inExpression then
    some ({ options with inExpression := true }, rest)
  else if verb = .prune && name = "--type" && options.type?.isNone then
    (takeValue value? rest).map (fun (type, rest) => ({ options with type? := some type }, rest))
  else sharedOption options name value? rest

/-- Reads an argument that is no option: the file, which has a name and is given once. -/
def takeFile (options : Options) (argument : String) : Option Options :=
  if options.file?.isNone && argument != "" then some { options with file? := some argument }
  else none

/-- Reads the arguments after the command. Each turn takes an argument, so that their number
bounds the turns. -/
def afterVerb (verb : Verb) : Nat → Options → List String → Option Options
  | _, options, [] => some options
  | 0, _, _ :: _ => none
  | turns + 1, options, argument :: rest =>
    if argument = "--" then rest.foldlM takeFile options
    else if isOption argument then do
      let (name, value?) := splitOption argument
      let (options, rest) ← verbOption verb options name value? rest
      afterVerb verb turns options rest
    else do afterVerb verb turns (← takeFile options argument) rest

/-- The command that the options make of a verb. -/
def command? (verb : Verb) (options : Options) : Option Command := do
  let file ← options.file?
  match verb with
  | .stats => return .stats file
  | .parens => return .parens file options.inExpression
  | .prune => return .prune file (← options.type?)

/-- Reads the arguments up to the command and, from it, the rest. -/
def beforeVerb : Nat → Options → List String → Request
  | 0, _, _ | _, _, [] => .misuse
  | turns + 1, options, argument :: rest =>
    if argument = "--version" || argument.startsWith "-V" then .version
    else if isOption argument then
      let (name, value?) := splitOption argument
      match sharedOption options name value? rest with
      | some (options, rest) => beforeVerb turns options rest
      | none => .misuse
    else
      match verb? argument with
      | none => .misuse
      | some verb =>
        match (afterVerb verb rest.length Options.none rest).bind (fun after =>
            (command? verb after).map (fun command => (command, after.compact))) with
        | some (command, compact) => .run command (options.compact || compact)
        | none => .misuse

/-- What an argument line asks for. -/
def parse (arguments : List String) : Request :=
  beforeVerb arguments.length Options.none arguments

end Arguments

/-- What the program leaves behind: its exit status and what it prints. -/
structure Answer where
  exit : Nat
  output : String
deriving DecidableEq

namespace Request

/-- The file that a request needs. -/
def file? : Request → Option String
  | run command _ => some command.file
  | _ => none

/-- The answer to a request, given the content of its file. A fault prints nothing. -/
def answer (request : Request) (content : FileContent) : Answer :=
  match request with
  | version => ⟨0, "tugast 0.1.0\n"⟩
  | misuse => ⟨2, ""⟩
  | run command compact =>
    match command.run content with
    | .ok response => ⟨0, Response.emit compact response⟩
    | .error (.error error) => ⟨error.code, Response.emit compact (Response.failure error)⟩
    | .error (.fault _) | .error .outOfTurns => ⟨101, ""⟩

end Request

end CodeTree
