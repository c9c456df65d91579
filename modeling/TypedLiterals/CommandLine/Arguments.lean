import TypedLiterals.Path

/-!
The arguments of the program.

A command stands between the general options and its own. The general options may also stand among
those of the command, where they count before the ones in front of it. Two of them fall back on
variables of the environment. No option may be given twice in one place, and no value may be empty.
-/

namespace TypedLiterals.CommandLine

/-- What the program can be asked to do. -/
inductive Command where
  | gen
  | plan
  | clean
deriving DecidableEq, Repr

/-- The options of the program and of its commands. -/
inductive OptionName where
  | workingDir
  | config
  | verbose
  | quiet
  | help
  | version
  | outDir
  | noEntrypoint
  | json
  | dryRun
deriving DecidableEq, Repr

/-- How an option is written. -/
structure Spelling where
  long : List Char
  short : Option Char
  takesValue : Bool

/-- How each option is written. -/
def OptionName.spelling : OptionName → Spelling
  | workingDir => ⟨"cwd".toList, some 'C', true⟩
  | config => ⟨"config".toList, some 'c', true⟩
  | verbose => ⟨"verbose".toList, some 'v', false⟩
  | quiet => ⟨"quiet".toList, some 'q', false⟩
  | help => ⟨"help".toList, some 'h', false⟩
  | version => ⟨"version".toList, some 'V', false⟩
  | outDir => ⟨"out-dir".toList, some 'o', true⟩
  | noEntrypoint => ⟨"no-entrypoint".toList, none, false⟩
  | json => ⟨"json".toList, none, false⟩
  | dryRun => ⟨"dry-run".toList, some 'n', false⟩

/-- The options that may stand before and after the command. -/
def generalOptions : List OptionName :=
  [.workingDir, .config, .verbose, .quiet, .help, .version]

namespace Command

def name : Command → String
  | gen => "gen"
  | plan => "plan"
  | clean => "clean"

def ofName? (name : String) : Option Command :=
  [gen, plan, clean].find? (·.name = name)

/-- The options of a command besides the general ones. -/
def options : Command → List OptionName
  | gen => [.outDir, .noEntrypoint] ++ generalOptions
  | plan => [.json] ++ generalOptions
  | clean => [.dryRun, .json] ++ generalOptions

/-- Whether a command takes paths of sources. -/
def takesPaths : Command → Bool
  | clean => false
  | _ => true

end Command

/-- Why no command is to be carried out. -/
inductive Stop where
  /-- The arguments are not those of the program. -/
  | usage
  | help
  /-- The version was asked for, after a command or before any. -/
  | version (command : Option Command)
deriving DecidableEq, Repr

/-- The options and paths given in one place, in order. Options without a value have the empty one. -/
structure Given where
  options : List (OptionName × String) := []
  paths : List String := []
deriving Repr

namespace Given

def has (given : Given) (option : OptionName) : Bool :=
  (given.options.lookup option).isSome

/-- Whether no option is given twice and no value or path is empty. -/
def isSettled (given : Given) : Bool :=
  (given.options.map (·.1)).Nodup &&
    given.options.all (fun entry => !entry.1.spelling.takesValue || !entry.2.isEmpty) &&
    given.paths.all (!·.isEmpty)

/-- The options and paths, refused when they are not settled. -/
def settle (given : Given) : Except Stop Given :=
  if given.isSettled then .ok given else .error .usage

end Given

/-- The place that arguments are read for: before the command, or after it. -/
structure Position where
  command : Option Command
deriving DecidableEq, Repr

namespace Position

def options (position : Position) : List OptionName :=
  position.command.elim generalOptions Command.options

def takesPaths (position : Position) : Bool :=
  position.command.any Command.takesPaths

def ofLong? (position : Position) (long : List Char) : Option OptionName :=
  position.options.find? (·.spelling.long = long)

def ofShort? (position : Position) (short : Char) : Option OptionName :=
  position.options.find? (·.spelling.short = some short)

/-- Takes note of an option once all before it are in order. An attached value is looked at at once, a
separate one with the next option. -/
def give (position : Position) (given : Given) (option : OptionName) (value : String) :
    Except Stop Given := do
  let settled ← given.settle
  match option with
  | .help => .error .help
  | .version => .error (.version position.command)
  | _ => ({ settled with options := settled.options ++ [(option, value)] } : Given).settle

/-- The options in a group of short ones, and the last one when it still needs a value. -/
def readShort (position : Position) (given : Given) :
    List Char → Except Stop (Given × Option OptionName)
  | [] => .ok (given, none)
  | short :: rest =>
    match position.ofShort? short with
    | none => .error .usage
    | some option =>
      if option.spelling.takesValue then
        match rest with
        | [] => given.settle.map fun settled => (settled, some option)
        | '=' :: value =>
          (position.give given option (String.ofList value)).map fun next => (next, none)
        | value => (position.give given option (String.ofList value)).map fun next => (next, none)
      else (position.give given option "").bind fun next => readShort position next rest

/-- A long option without its dashes; the option itself when it still needs a value. -/
def readLong (position : Position) (given : Given) (text : List Char) :
    Except Stop (Given × Option OptionName) :=
  let long := text.takeWhile (· ≠ '=')
  let attached := (text.drop long.length).head?.map fun _ => text.drop (long.length + 1)
  match position.ofLong? long, attached with
  | none, _ => .error .usage
  | some option, some value =>
    if option.spelling.takesValue then
      (position.give given option (String.ofList value)).map fun next => (next, none)
    else .error .usage
  | some option, none =>
    if option.spelling.takesValue then given.settle.map fun settled => (settled, some option)
    else (position.give given option "").map fun next => (next, none)

end Position

/-- What has been read of one place. -/
structure Reading where
  given : Given
  /-- The command that ends the place before it, with the arguments after it. -/
  next : Option (Command × List String)

/-- Whether the words after `help` name a command. -/
def isHelpTopic : List String → Bool
  | [] => true
  | [name] => name = "help" || (Command.ofName? name).isSome
  | _ => false

/-- Reads the arguments of one place. `awaiting` is the option whose value comes next, and `literal`
tells that all that follows are paths. -/
def read (position : Position) (given : Given) (awaiting : Option OptionName) (literal : Bool) :
    List String → Except Stop Reading
  | [] => if awaiting.isSome then .error .usage else .ok ⟨given, none⟩
  | argument :: rest =>
    let addPath : Except Stop Reading :=
      if awaiting.isNone && position.takesPaths then
        read position { given with paths := given.paths ++ [argument] } none literal rest
      else .error .usage
    if literal then addPath
    else
      match if position.command.isNone && awaiting.isNone then Command.ofName? argument else none with
      | some command => .ok ⟨given, some (command, rest)⟩
      | none =>
        if position.command.isNone && awaiting.isNone && argument = "help" then
          .error (if isHelpTopic rest then .help else .usage)
        else
          match argument.toList with
          | ['-', '-'] => if awaiting.isSome then .error .usage else read position given none true rest
          | '-' :: '-' :: text =>
            if awaiting.isSome then .error .usage
            else
              (position.readLong given text).bind fun (next, waiting) =>
                read position next waiting false rest
          | '-' :: short :: more =>
            if awaiting.isSome then .error .usage
            else
              (position.readShort given (short :: more)).bind fun (next, waiting) =>
                read position next waiting false rest
          | _ =>
            match awaiting with
            | some option =>
              read position { given with options := given.options ++ [(option, argument)] } none false
                rest
            | none => addPath

/-! ## Invocations -/

/-- What a command is to do, all places taken together. -/
structure Invocation where
  command : Command
  workingDir : Option Path
  config : Option Path
  verbose : Bool
  quiet : Bool
  paths : List Path
  outDir : Option Path
  noEntrypoint : Bool
  json : Bool
  dryRun : Bool
deriving DecidableEq, Repr

/-- The variables that options fall back on. -/
def environmentNames : List (OptionName × String) :=
  [(.workingDir, "GQLWEAVE_CWD"), (.config, "GQLWEAVE_CONFIG")]

/-- Whether each option of a place that is left to the environment finds a value there that is not
empty, or none. -/
def environmentFits (environment : String → Option String) (given : Given) : Bool :=
  environmentNames.all fun entry => given.has entry.1 || environment entry.2 != some ""

/-- The value of an option: the one after the command, the one before it, or the environment's. -/
def value? (environment : String → Option String) (outer inner : Given) (option : OptionName) :
    Option String :=
  inner.options.lookup option <|> outer.options.lookup option <|>
    (environmentNames.lookup option).bind environment

/-- The invocation that arguments stand for. -/
def Invocation.read (environment : String → Option String) (arguments : List String) :
    Except Stop Invocation := do
  let outer ← CommandLine.read ⟨none⟩ {} none false arguments
  match outer.next with
  | none => .error .usage
  | some (command, rest) =>
    let inner ← CommandLine.read ⟨some command⟩ {} none false rest
    let own ← inner.given.settle
    let general ← outer.given.settle
    if !environmentFits environment own || !environmentFits environment general then .error .usage
    else
      let value := value? environment general own
      let isSet (option : OptionName) : Bool := own.has option || general.has option
      return {
        command
        workingDir := (value .workingDir).map Path.mk
        config := (value .config).map Path.mk
        verbose := isSet .verbose
        quiet := isSet .quiet
        paths := own.paths.map Path.mk
        outDir := (value .outDir).map Path.mk
        noEntrypoint := isSet .noEntrypoint
        json := isSet .json
        dryRun := isSet .dryRun }

end TypedLiterals.CommandLine
