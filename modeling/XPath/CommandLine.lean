import XPath.Outline
import XPath.Session
import XPath.Text.Json

/-!
# The command line

Four commands look at one expression: its tokens, its outline, its canonical text, or whether it is
an expression at all. A command is a function from the text of the expression to what is written and
the exit code; only `check` writes its findings to the standard output.
-/

namespace XPath

/-- What the program is asked to do with an expression. -/
inductive Command where
  | tokenize (json : Bool)
  | parse
  | render
  | check (json : Bool)
  deriving DecidableEq

/-- What a run of a command leaves behind. -/
structure Outcome where
  exitCode : Nat
  stdout : String
  stderr : String
  deriving DecidableEq

namespace Command

/-- The outcome of a command that has this to print. -/
def success (stdout : String) : Outcome := ⟨0, stdout, ""⟩

/-- The outcome of a command that fails: the code and the message of the error. -/
def failure (e : SessionError) : Outcome :=
  ⟨1, "", "error[" ++ e.code ++ "]: " ++ e.message ++ "\n"⟩

/-- Each token in quotes on a line, or all in a JSON array. -/
def tokensReport (json : Bool) (ts : List Token) : String :=
  if json then (Text.Json.array (ts.map .string)).pretty ++ "\n"
  else "\n".intercalate (ts.map (Text.Quoted.inMessage '"')) ++ "\n"

/-- The verdict on an expression, with what is wrong with it. -/
def checkReport (json : Bool) (problem : Option Diagnostic) : String :=
  if json then
    let error := problem.map fun d => ("error", Text.Json.object
      [("code", .string d.code), ("message", .string d.message),
        ("position", .ofOption .number d.position)])
    (Text.Json.object (("valid", .bool problem.isNone) :: error.toList)).pretty ++ "\n"
  else
    match problem with
    | none => "ok\n"
    | some d => d.code ++ ": " ++ d.message ++ "\n"

/-- The outcome of a command in a session. An error of `check` is its report. -/
def runIn (session : Session) (source : String) : Command → Except SessionError Outcome
  | tokenize json => (Session.tokenize source).map fun ts => success (tokensReport json ts)
  | parse => (session.parseAll source).map fun n => success n.outline
  | render => (session.parseAll source).map fun n => success (n.text ++ "\n")
  | check json =>
    match session.parseAll source with
    | .ok _ => .ok (success (checkReport json none))
    | .error e => .ok ⟨1, checkReport json (some e.diagnostic), ""⟩

/-- The outcome of a command, in a session with these settings. -/
def run (settings : Settings) (command : Command) (source : String) : Outcome :=
  match settings.session >>= fun session => command.runIn session source with
  | .ok outcome => outcome
  | .error e => failure e

end Command

/-! ## Arguments -/

/-- What a command line asks for. -/
structure Request where
  settings : Settings := {}
  command : Option Command := none
  json : Bool := false
  source : Option String := none

namespace Request

/-- The number after `--name=`. -/
def option? (name arg : String) : Option Nat :=
  let start := ("--" ++ name ++ "=").toList
  if start.isPrefixOf arg.toList then Integer.ofDigits? (arg.toList.drop start.length) else none

/-- The command of this name. -/
def command? : String → Option Command
  | "tokenize" => some (.tokenize false)
  | "parse" => some .parse
  | "render" => some .render
  | "check" => some (.check false)
  | _ => none

/-- A request with one more argument. -/
def withArgument (r : Request) (arg : String) : Option Request :=
  match option? "max-depth" arg, option? "division-precision" arg, command? arg, r.command with
  | some n, _, _, _ => some { r with settings := { r.settings with maxDepth := n } }
  | _, some n, _, _ => some { r with settings := { r.settings with divisionPlaces := n } }
  | _, _, some c, none => some { r with command := some c }
  | _, _, _, _ =>
    if arg = "--json" then some { r with json := true }
    else if arg.startsWith "--" ∨ r.source.isSome then none
    else some { r with source := some arg }

/-- All arguments. After `--` there is only the expression. -/
def ofArguments (r : Request) : List String → Option Request
  | [] => some r
  | ["--", source] => if r.source.isSome then none else some { r with source := some source }
  | arg :: args => (r.withArgument arg).bind fun r => ofArguments r args

/-- The command with its option, if both fit. -/
def resolve (r : Request) : Option Command :=
  match r.command, r.json with
  | some (.tokenize _), json => some (.tokenize json)
  | some (.check _), json => some (.check json)
  | some c, false => some c
  | _, _ => none

/-- The outcome of the program for its arguments, if they are a request. -/
def run? (args : List String) : Option Outcome := do
  let r ← ofArguments {} args
  return (← r.resolve).run r.settings (← r.source)

end Request

end XPath
