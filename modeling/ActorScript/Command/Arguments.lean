import ActorScript.World.Basic

/-! # Arguments of the command line

A command is a word followed by its arguments. Options may stand before or after them;
after `--` there are none.
-/

namespace ActorScript.Command

inductive Format where
  | ansi
  | json
  deriving DecidableEq, Repr

structure Context where
  cls : String := "Actor"
  selfClass : Option String := none
  kind : FunctionKind := .action
  lax : Bool := false
  strict : Bool := false
  /-- File with an environment to load over the stock one. -/
  env : Option String := none

inductive Task where
  | compileFile (path : String)
  | compileText (source : String)
  | eval (source : String)
  | damage (source : String)
  | explain (code : Option String)
  | listCodes

structure Request where
  task : Task
  context : Context := {}
  format : Format := .ansi
  verbose : Bool := false

inductive UsageError where
  | missingValue (option : String)
  | unknownOption (option : String)
  | badValue (option value : String)
  | unknownCommand (words : List String)
  deriving DecidableEq, Repr

def UsageError.message : UsageError → String
  | missingValue option => s!"a value is required for '{option}'"
  | unknownOption option => s!"unexpected argument '{option}'"
  | badValue option value => s!"invalid value '{value}' for '{option}'"
  | unknownCommand words => "unrecognized command: " ++ " ".intercalate words

/-- What the options say, and the other words in order. -/
structure Arguments where
  context : Context := {}
  format : Format := .ansi
  verbose : Bool := false
  list : Bool := false
  text : Option String := none
  words : List String := []

namespace Arguments

def withValue (option value : String) (args : Arguments) : Except UsageError Arguments :=
  match option, value with
  | "--format", "ansi" => .ok { args with format := .ansi }
  | "--format", "json" => .ok { args with format := .json }
  | "--class", name => .ok { args with context.cls := name }
  | "--self-class", name => .ok { args with context.selfClass := some name }
  | "--kind", "action" => .ok { args with context.kind := .action }
  | "--kind", "method" => .ok { args with context.kind := .method }
  | "--kind", "static" => .ok { args with context.kind := .static }
  | "--env", path => .ok { args with context.env := some path }
  | "--expr", source => .ok { args with text := some source }
  | _, _ => .error (.badValue option value)

def takesValue (option : String) : Bool :=
  ["--format", "--class", "--self-class", "--kind", "--env", "--expr"].contains option

def withFlag (option : String) (args : Arguments) : Except UsageError Arguments :=
  match option with
  | "--verbose" => .ok { args with verbose := true }
  | "--lax" => .ok { args with context.lax := true }
  | "--strict" => .ok { args with context.strict := true }
  | "--list" => .ok { args with list := true }
  | _ => .error (.unknownOption option)

/-- What a word of short options asks for, and the value attached to the last of them. -/
inductive Short where
  | flags
  | text (attached : Option String)
  | unknown

/-- Reads the letters after a dash. The letter `e` takes the rest as its value. -/
def short : List Char → Short
  | [] => .flags
  | 'v' :: rest => short rest
  | ['e'] => .text none
  | 'e' :: '=' :: value => .text (some (String.ofList value))
  | 'e' :: value => .text (some (String.ofList value))
  | _ => .unknown

def addWord (word : String) (args : Arguments) : Arguments :=
  { args with words := args.words ++ [word] }

def readAll : List String → Arguments → Except UsageError Arguments
  | [], args => .ok args
  | "--" :: rest, args => .ok { args with words := args.words ++ rest }
  | word :: rest, args =>
      match word.toList with
      | '-' :: '-' :: _ =>
          match word.toList.span (· ≠ '=') with
          | (option, '=' :: value) =>
              let option := String.ofList option
              if takesValue option then do
                readAll rest (← withValue option (String.ofList value) args)
              else .error (.unknownOption option)
          | _ =>
              if takesValue word then
                match rest with
                | [] => .error (.missingValue word)
                | value :: rest => do readAll rest (← withValue word value args)
              else do readAll rest (← withFlag word args)
      | '-' :: letter :: letters =>
          let args := if letter = 'v' then { args with verbose := true } else args
          match short (letter :: letters) with
          | .flags => readAll rest args
          | .text (some value) => readAll rest { args with text := some value }
          | .text none =>
              match rest with
              | [] => .error (.missingValue word)
              | value :: rest => readAll rest { args with text := some value }
          | .unknown => .error (.unknownOption word)
      | _ => readAll rest (args.addWord word)

def task (args : Arguments) : Except UsageError Task :=
  match args.words, args.text with
  | ["compile"], some source => .ok (.compileText source)
  | ["compile", path], none => .ok (.compileFile path)
  | ["eval", source], none => .ok (.eval source)
  | ["damage", source], none => .ok (.damage source)
  | ["explain"], none => .ok (if args.list then .listCodes else .explain none)
  | ["explain", code], none => .ok (if args.list then .listCodes else .explain (some code))
  | words, _ => .error (.unknownCommand words)

end Arguments

def ofArguments (words : List String) : Except UsageError Request := do
  let args ← Arguments.readAll words {}
  let task ← args.task
  return { task, context := args.context, format := args.format, verbose := args.verbose }

def Request.files (c : Request) : List String :=
  match c.task with
  | .compileFile path => path :: c.context.env.toList
  | .compileText _ | .eval _ | .damage _ => c.context.env.toList
  | .explain _ | .listCodes => []

end ActorScript.Command
