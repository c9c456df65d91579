import TypedLiterals.Engine.Command
import TypedLiterals.Shell.Script

/-!
Running shell scripts against a disk, and a host that knows the shell and a few small programs.
-/

namespace TypedLiterals.Shell

/-- Where a descriptor leads. -/
inductive Sink where
  | output
  | errors
  | nowhere
  | file (path : Path)
deriving DecidableEq, Repr

/-- A running shell. -/
structure State where
  disk : Disk
  stdin : List UInt8
  stdout : List UInt8
  stderr : List UInt8
  status : Nat
  /-- The name of the script and its arguments. -/
  parameters : List String
  /-- How the shell ended, once it has. -/
  ended : Option Exit

def processId : String := "4242"

def bytesOf (text : List Char) : List UInt8 :=
  (String.ofList text).toUTF8.data.toList

namespace State

def parameter (state : State) (name : List Char) : List Char :=
  if name = ['$'] then processId.toList
  else if name = ['?'] then (toString state.status).toList
  else if name = ['#'] then (toString (state.parameters.length - 1)).toList
  else if name = ['@'] ∨ name = ['*'] then
    List.intercalate [' '] ((state.parameters.drop 1).map String.toList)
  else if name ≠ [] ∧ name.all Char.isDigit then
    ((state.parameters[((String.ofList name).toNat?.getD 0)]?).getD "").toList
  else []

def isSplitting (character : Char) : Bool :=
  character = ' ' || character = '\t' || character = '\n'

/-- Adds expanded text to the fields so far. The last field comes first and may still grow; there is
none between two fields. -/
def extend (fields : List (List Char)) (growing : Bool) (split : Bool) :
    List Char → List (List Char) × Bool
  | [] => (fields, growing)
  | character :: rest =>
    if split && isSplitting character then extend fields false split rest
    else
      match growing, fields with
      | true, field :: earlier => extend ((field ++ [character]) :: earlier) true split rest
      | _, _ => extend ([character] :: fields) true split rest

/-- The fields that a word expands to. -/
def expand (state : State) (word : Word) : List (List Char) :=
  let step (progress : List (List Char) × Bool) (part : Part) : List (List Char) × Bool :=
    match part with
    | .text characters quoted =>
      if characters = [] && quoted && !progress.2 then ([] :: progress.1, true)
      else extend progress.1 progress.2 false characters
    | .parameter name quoted =>
      let value := state.parameter name
      if value = [] && quoted && !progress.2 then ([] :: progress.1, true)
      else extend progress.1 progress.2 (!quoted) value
  (word.foldl step ([], false)).1.reverse

/-- A word as one text. -/
def expandOne (state : State) (word : Word) : String :=
  String.ofList (List.intercalate [' '] (state.expand word))

/-- Sends bytes to where a descriptor leads. -/
def write (state : State) (sink : Sink) (bytes : List UInt8) : State :=
  match sink with
  | .output => { state with stdout := state.stdout ++ bytes }
  | .errors => { state with stderr := state.stderr ++ bytes }
  | .nowhere => state
  | .file path =>
    let old := match state.disk.read path with
      | .ok content => content
      | .error _ => .empty
    match state.disk.write path (old ++ ⟨bytes.toArray⟩) with
    | .ok disk => { state with disk }
    | .error _ => state

/-- The beginning of the shell's own error messages. -/
def complain (state : State) (message : String) (status : Nat) : State :=
  let name := state.parameters.headD "sh"
  { state with
    stderr := state.stderr ++ bytesOf s!"{name}: 1: {message}\n".toList
    status }

end State

/-! ## Small programs -/

/-- The bytes of a text with its escapes replaced. An octal number has up to three digits. The first
`skip` characters belong to an escape already read. -/
def unescape : (skip : Nat) → List Char → List UInt8
  | _, [] => []
  | skip + 1, _ :: rest => unescape skip rest
  | 0, '\\' :: character :: rest =>
    let one (byte : UInt8) : List UInt8 := byte :: unescape 0 rest
    if character = 'n' then one 10
    else if character = 't' then one 9
    else if character = 'r' then one 13
    else if character = 'b' then one 8
    else if character = 'f' then one 12
    else if character = 'v' then one 11
    else if character = 'a' then one 7
    else if character = '\\' then one 92
    else if '0' ≤ character && character ≤ '7' then
      let digits := (character :: rest.take 2).takeWhile fun digit => '0' ≤ digit && digit ≤ '7'
      UInt8.ofNat (digits.foldl (fun sum digit => sum * 8 + (digit.toNat - '0'.toNat)) 0) ::
        unescape (digits.length - 1) rest
    else bytesOf ['\\', character] ++ unescape 0 rest
  | 0, character :: rest => bytesOf [character] ++ unescape 0 rest

/-- A format with its directives replaced by the arguments, once, and the arguments left over. The first
`skip` characters belong to an escape already read. -/
def formatOnce : (skip : Nat) → List Char → List (List Char) → List UInt8 × List (List Char)
  | _, [], args => ([], args)
  | skip + 1, _ :: rest, args => formatOnce skip rest args
  | 0, '%' :: directive :: rest, args =>
    if directive = 's' ∨ directive = 'd' ∨ directive = 'b' then
      let next := formatOnce 0 rest (args.drop 1)
      let value := args.headD (if directive = 'd' then ['0'] else [])
      ((if directive = 'b' then unescape 0 value else bytesOf value) ++ next.1, next.2)
    else
      let next := formatOnce 0 rest args
      (bytesOf (if directive = '%' then ['%'] else ['%', directive]) ++ next.1, next.2)
  | 0, '\\' :: character :: rest, args =>
    let digits := (character :: rest.take 2).takeWhile fun digit => '0' ≤ digit && digit ≤ '7'
    let next := formatOnce (digits.length - 1) rest args
    (unescape 0 ('\\' :: (if digits = [] then [character] else digits)) ++ next.1, next.2)
  | 0, character :: rest, args =>
    let next := formatOnce 0 rest args
    (bytesOf [character] ++ next.1, next.2)

/-- A format applied to arguments until none are left; the first argument bounds the rounds. -/
def formatAll : Nat → List Char → List (List Char) → List UInt8
  | 0, _, _ => []
  | count + 1, format, args =>
    let (bytes, rest) := formatOnce 0 format args
    if rest = [] ∨ rest.length = args.length then bytes else bytes ++ formatAll count format rest

/-- Lines of bytes, each without its line feed. -/
def byteLines : List UInt8 → List (List UInt8)
  | [] => []
  | byte :: rest =>
    if byte = 10 then [] :: byteLines rest
    else
      match byteLines rest with
      | [] => [[byte]]
      | line :: later => (byte :: line) :: later

def containsBytes (wanted : List UInt8) : List UInt8 → Bool
  | [] => wanted.isEmpty
  | byte :: rest => wanted.isPrefixOf (byte :: rest) || containsBytes wanted rest

/-- What one command does before its output is sent on: output, errors and the state. -/
structure Effect where
  output : List UInt8
  errors : List UInt8
  state : State

def exitCode (state : State) (args : List (List Char)) : Nat :=
  match args with
  | code :: _ => (String.ofList code).toNat?.getD 2 % 256
  | [] => state.status

/-- The number of the signal that `kill` is asked to send, with the other arguments. -/
def signalOf : List (List Char) → Nat × List (List Char)
  | ('-' :: name) :: rest =>
    let text := String.ofList name
    match text.toNat? with
    | some number => (number, rest)
    | none =>
      match Exit.signalNames.find? fun entry => entry.2 = text || entry.2 = "SIG" ++ text with
      | some entry => (entry.1, rest)
      | none => if text = "s" then named rest else (15, rest)
  | rest => (15, rest)
where
  named : List (List Char) → Nat × List (List Char)
    | name :: rest =>
      let text := String.ofList name
      match Exit.signalNames.find? fun entry => entry.2 = text || entry.2 = "SIG" ++ text with
      | some entry => (entry.1, rest)
      | none => (15, rest)
    | [] => (15, [])

/-- Reads the files that `cat` is given, or its input. -/
def concatenate (state : State) (args : List (List Char)) : Effect :=
  if args = [] then ⟨state.stdin, [], { state with stdin := [], status := 0 }⟩
  else
    args.foldl (fun effect arg =>
      let name := String.ofList arg
      if arg = ['-'] then
        { effect with
          output := effect.output ++ effect.state.stdin
          state := { effect.state with stdin := [] } }
      else
        match effect.state.disk.read ⟨name⟩ with
        | .ok content => { effect with output := effect.output ++ content.data.toList }
        | .error fault =>
          let reason := ((fault.message.splitOn " (os error").headD "")
          { effect with
            errors := effect.errors ++ bytesOf s!"cat: {name}: {reason}\n".toList
            state := { effect.state with status := 1 } })
      ⟨[], [], { state with status := 0 }⟩

/-- Prints the lines of the input that contain a text. -/
def search (state : State) (args : List (List Char)) : Effect :=
  let (options, others) := args.partition fun arg => arg.head? = some '-'
  let quiet := options.any (·.contains 'q')
  let inverted := options.any (·.contains 'v')
  let wanted := bytesOf (others.headD [])
  let found := (byteLines state.stdin).filter fun line => containsBytes wanted line != inverted
  ⟨if quiet then [] else found.flatMap (· ++ [10]), [],
    { state with stdin := [], status := if found.isEmpty then 1 else 0 }⟩

/-- Makes directories. -/
def makeDirectories (state : State) (args : List (List Char)) : Effect :=
  let names := args.filter fun arg => arg.head? ≠ some '-'
  names.foldl (fun effect name =>
      let (made, disk) := effect.state.disk.ensureDirectory ⟨String.ofList name⟩
      { effect with
        state := { effect.state with disk, status := if made.isOk then effect.state.status else 1 } })
    ⟨[], [], { state with status := 0 }⟩

/-- Removes files, and directories when asked to. -/
def removeFiles (state : State) (args : List (List Char)) : Effect :=
  let names := args.filter fun arg => arg.head? ≠ some '-'
  names.foldl (fun effect name =>
      match effect.state.disk.removeTree ⟨String.ofList name⟩ with
      | .ok disk => { effect with state := { effect.state with disk } }
      | .error _ => effect)
    ⟨[], [], { state with status := 0 }⟩

/-- Runs a command by name. -/
def runNamed (state : State) (name : String) (args : List (List Char)) : Effect :=
  let done : State := { state with status := 0 }
  match name with
  | "true" => ⟨[], [], done⟩
  | ":" => ⟨[], [], done⟩
  | "false" => ⟨[], [], { state with status := 1 }⟩
  | "exit" =>
    let code := exitCode state args
    ⟨[], [], { state with status := code, ended := some (.status code) }⟩
  | "echo" =>
    let (words, ending) := if args.head? = some ['-', 'n'] then (args.drop 1, []) else (args, [10])
    ⟨unescape 0 (List.intercalate [' '] words) ++ ending, [], done⟩
  | "printf" => ⟨formatAll (args.length + 1) (args.headD []) (args.drop 1), [], done⟩
  | "cat" => concatenate state args
  | "grep" => search state args
  | "mkdir" => makeDirectories state args
  | "rm" => removeFiles state args
  | "sleep" => ⟨[], [], done⟩
  | "kill" =>
    let (number, targets) := signalOf args
    if targets.contains processId.toList then
      ⟨[], [], { done with ended := some (.signal number) }⟩
    else ⟨[], [], { state with status := 1 }⟩
  | _ => ⟨[], [], state.complain s!"{name}: not found" 127⟩

/-! ## Commands and scripts -/

/-- Where standard output and standard error lead. -/
structure Sinks where
  output : Sink
  errors : Sink

/-- Opens the redirections of a command in order; `none` in the first component when one fails. -/
def openRedirects (state : State) (sinks : Sinks) : List Redirect → Option Sinks × State
  | [] => (some sinks, state)
  | redirect :: rest =>
    let target := state.expandOne redirect.target
    let assign (sink : Sink) : Sinks :=
      if redirect.descriptor = 2 then { sinks with errors := sink } else { sinks with output := sink }
    match redirect.kind with
    | .duplicate =>
      let sink :=
        if target = "2" then sinks.errors else if target = "1" then sinks.output else .nowhere
      openRedirects state (assign sink) rest
    | .read =>
      if target = "/dev/null" then openRedirects { state with stdin := [] } sinks rest
      else
        match state.disk.read ⟨target⟩ with
        | .ok content => openRedirects { state with stdin := content.data.toList } sinks rest
        | .error _ => (none, state.complain s!"cannot open {target}: No such file" 2)
    | kind =>
      if target = "/dev/null" then openRedirects state (assign .nowhere) rest
      else
        let old :=
          if kind = .append then (state.disk.read ⟨target⟩).toOption.getD .empty else .empty
        match state.disk.write ⟨target⟩ old with
        | .ok disk => openRedirects { state with disk } (assign (.file ⟨target⟩)) rest
        | .error .isDirectory => (none, state.complain s!"cannot create {target}: Is a directory" 2)
        | .error _ => (none, state.complain s!"cannot create {target}: Directory nonexistent" 2)

/-- Runs one command with its redirections. -/
def runCommand (state : State) (command : Command) : State :=
  let outer := state.stdin
  match openRedirects state ⟨.output, .errors⟩ command.redirects with
  | (none, failed) => { failed with stdin := outer }
  | (some sinks, ready) =>
    match command.words.flatMap ready.expand with
    | [] => { ready with stdin := outer, status := 0 }
    | name :: args =>
      let effect := runNamed ready (String.ofList name) args
      let after := (effect.state.write sinks.output effect.output).write sinks.errors effect.errors
      if command.redirects.any (·.kind = .read) then { after with stdin := outer } else after

/-- Runs commands of which each reads what the one before it writes. -/
def runPipeline (state : State) : List Command → State
  | [] => state
  | [command] => runCommand state command
  | command :: rest =>
    let first := runCommand { state with stdout := [] } command
    let last := runPipeline
      { first with stdin := first.stdout, stdout := state.stdout, ended := none } rest
    { last with stdin := first.stdin, ended := state.ended }

def runPipelines (state : State) : List Pipeline → State
  | [] => state
  | pipeline :: rest =>
    if state.ended.isSome then state
    else
      let runs :=
        match pipeline.link with
        | .always => true
        | .onSuccess => state.status = 0
        | .onFailure => state.status ≠ 0
      runPipelines (if runs then runPipeline state pipeline.commands else state) rest

/-- The shell: `-c`, a script, its name and its arguments. -/
def shell : Program := fun args stdin disk =>
  let (script, parameters) :=
    match args with
    | "-c" :: script :: name :: rest => (script, name :: rest)
    | ["-c", script] => (script, ["sh"])
    | _ => ("", ["sh"])
  let start : State := ⟨disk, stdin, [], [], 0, parameters, none⟩
  match parse? script with
  | none =>
    let failed := start.complain "Syntax error" 2
    ⟨.status 2, failed.stderr, disk⟩
  | some pipelines =>
    let last := runPipelines start pipelines
    ⟨last.ended.getD (.status last.status), last.stderr, last.disk⟩

/-- A small program started on its own. -/
def utility (name : String) : Program := fun args stdin disk =>
  let effect := runNamed ⟨disk, stdin, [], [], 0, [name], none⟩ name (args.map String.toList)
  ⟨.status effect.state.status, effect.state.stderr ++ effect.errors, effect.state.disk⟩

def utilities : List String :=
  ["true", "false", "echo", "printf", "cat", "grep", "mkdir", "rm", "sleep"]

/-- The directories in which programs are looked up. -/
def programDirs : List String := ["/bin/", "/usr/bin/"]

/-- A host with the shell and the small programs. A name with a slash is a path; files on the disk may
not be executed. -/
def host : Host := fun disk name =>
  let known (name : String) : Option Program :=
    if name = "sh" then some shell
    else if utilities.contains name then some (utility name)
    else none
  if name.toList.contains '/' then
    match programDirs.findSome? fun dir =>
        (dir.toList.isPrefixOf? name.toList).bind fun rest => known (String.ofList rest) with
    | some program => .ok program
    | none =>
      match disk.status ⟨name⟩ with
      | .ok _ => .error .permissionDenied
      | .error fault => .error fault
  else
    match known name with
    | some program => .ok program
    | none => .error .notFound

end TypedLiterals.Shell
