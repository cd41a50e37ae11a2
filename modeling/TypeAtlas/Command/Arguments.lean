/-! The command line. The program has options of its own and a command, and the command has
options and a path. Faults are told as they are met; only the value of an option and the path are
looked at later, when the next argument that can be used follows or the arguments end, so that a
fault in between comes first. -/

namespace TypeAtlas

inductive Command where
  | config (project : String) (json : Bool)
  | classify (program : String) (json all : Bool)
  | heritage (program : String) (json : Bool)
deriving DecidableEq

structure Arguments where
  /-- Whether the output has colours. -/
  pretty : Option Bool
  command : Command
deriving DecidableEq

inductive UsageError where
  | help
  | version
  | noArguments
  | missingCommand
  | unknownCommand
  | missingPath
  | unknownArgument
  | invalidValue
  | unexpectedValue
  | repeatedOption
deriving DecidableEq

/-- Asking for help or for the version is no failure. -/
def UsageError.status : UsageError → Nat
  | help => 0
  | version => 0
  | _ => 2

namespace Arguments

inductive CommandName where
  | config
  | classify
  | heritage
deriving DecidableEq

def CommandName.ofName? (name : String) : Option CommandName :=
  [("config", CommandName.config), ("classify", CommandName.classify),
    ("heritage", CommandName.heritage)].lookup name

inductive Word where
  | plain (text : String)
  /-- `--`: no option follows. -/
  | separator
  | long (name : String) (value : Option String)
  /-- `-h`; of several letters the first one decides. -/
  | short (letter : Char)

/-- The texts in front of and behind the first equality sign. -/
def splitValue (s : List Char) : String × Option String :=
  (String.ofList (s.takeWhile (· ≠ '=')),
    match s.dropWhile (· ≠ '=') with
    | [] => none
    | _ :: value => some (String.ofList value))

def Word.ofText (text : String) : Word :=
  match text.toList with
  | ['-', '-'] => .separator
  | '-' :: '-' :: rest => .long (splitValue rest).1 (splitValue rest).2
  | '-' :: letter :: _ => .short letter
  | _ => .plain text

inductive Pending where
  /-- `none` while the option waits for its value. -/
  | pretty (value : Option String)
  | path (text : String)

/-- What has been read on one side of the command's name. -/
structure State where
  pretty : Option Bool := none
  json : Bool := false
  all : Bool := false
  path : Option String := none
  pending : Option Pending := none

namespace State

variable (s : State)

def truth? (value : String) : Option Bool :=
  if value = "true" then some true else if value = "false" then some false else none

def settle : Except UsageError State :=
  match s.pending with
  | none => .ok s
  | some (.pretty none) => .error .invalidValue
  | some (.pretty (some value)) =>
    if s.pretty.isSome then .error .repeatedOption
    else
      match truth? value with
      | none => .error .invalidValue
      | some b => .ok { s with pretty := some b, pending := none }
  | some (.path text) =>
    if text.isEmpty then .error .invalidValue
    else .ok { s with path := some text, pending := none }

def isWaiting : Bool :=
  s.pending matches some (.pretty none)

def hasPath : Bool :=
  s.path.isSome || s.pending matches some (.path _)

def setFlag (isSet : State → Bool) (set : State → State) (value : Option String) :
    Except UsageError State := do
  if value.isSome then throw .unexpectedValue
  let s ← s.settle
  if isSet s then throw .repeatedOption
  return set s

def stop (e : UsageError) (value : Option String) : Except UsageError State := do
  if value.isSome then throw .unexpectedValue
  let _ ← s.settle
  throw e

/-- An option, where `scope` is the command that it belongs to, or none for the options of the
program itself. -/
def option (scope : Option CommandName) (name : String) (value : Option String) :
    Except UsageError State := do
  if name = "pretty" then
    let s ← s.settle
    let s := { s with pending := some (.pretty value) }
    if value.isSome then s.settle else return s
  else if name = "help" then s.stop .help value
  else if name = "version" && scope.isNone then s.stop .version value
  else if name = "json" && scope.isSome then
    s.setFlag State.json (fun s => { s with json := true }) value
  else if name = "all" && scope = some .classify then
    s.setFlag State.all (fun s => { s with all := true }) value
  else throw .unknownArgument

def letter (scope : Option CommandName) (c : Char) : Except UsageError State :=
  if c = 'h' then s.stop .help none
  else if c = 'V' && scope.isNone then s.stop .version none
  else .error .unknownArgument

def positional (text : String) : Except UsageError State := do
  if s.hasPath then throw .unknownArgument
  let s ← s.settle
  return { s with pending := some (.path text) }

end State

def readCommand (name : CommandName) (onlyPaths : Bool) (s : State) :
    List String → Except UsageError State
  | [] => s.settle
  | arg :: rest => do
    if onlyPaths then readCommand name true (← s.positional arg) rest
    else
      match Word.ofText arg with
      | .plain text =>
        if s.isWaiting then
          readCommand name false { s with pending := some (.pretty (some text)) } rest
        else readCommand name false (← s.positional text) rest
      | .separator => readCommand name true s rest
      | .long option value => readCommand name false (← s.option (some name) option value) rest
      | .short c => readCommand name false (← s.letter (some name) c) rest

/-- The command that its options and its path make. Only a project has a path by default. -/
def commandOf (name : CommandName) (s : State) : Except UsageError Command :=
  match name, s.path with
  | .config, path => .ok (.config (path.getD ".") s.json)
  | .classify, some path => .ok (.classify path s.json s.all)
  | .heritage, some path => .ok (.heritage path s.json)
  | _, none => .error .missingPath

/-- What the arguments behind `help` ask for: at most the name of one command. -/
def help : List String → UsageError
  | [] => .help
  | [name] =>
    if (CommandName.ofName? name).isSome || name = "help" then .help else .unknownCommand
  | _ => .unknownCommand

/-- Reads all arguments. What stands in front of the command's name is looked at last. -/
def readProgram (s : State) : List String → Except UsageError Arguments
  | [] => do
    let s ← s.settle
    throw (if s.pretty.isSome then .missingCommand else .noArguments)
  | arg :: rest => do
    match Word.ofText arg with
    | .plain text =>
      if s.isWaiting then readProgram { s with pending := some (.pretty (some text)) } rest
      else if text = "help" then throw (help rest)
      else
        match CommandName.ofName? text with
        | none => throw .unknownCommand
        | some name => do
          let inner ← readCommand name false {} rest
          let command ← commandOf name inner
          let outer ← s.settle
          return { pretty := inner.pretty.or outer.pretty, command }
    | .separator =>
      match rest with
      | [] => do
        let s ← s.settle
        throw (if s.pretty.isSome then .missingCommand else .noArguments)
      | text :: _ =>
        throw (if (help [text]) = .help then .unknownArgument else .unknownCommand)
    | .long option value => readProgram (← s.option none option value) rest
    | .short c => readProgram (← s.letter none c) rest

def read (args : List String) : Except UsageError Arguments :=
  readProgram {} args

end Arguments

end TypeAtlas
