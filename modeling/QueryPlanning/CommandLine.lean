import QueryPlanning.Plan.Explain
import QueryPlanning.Plan.Split
import QueryPlanning.Plan.Summary
import QueryPlanning.Spec.Build
import QueryPlanning.Spec.Reader

/-!
# The command line

The arguments name a configuration and the specification of a plan; the plan is built, split, and
printed as text or as a JSON summary. Here are the arguments and everything between the documents
and the printed text. Finding the documents is left to the caller.
-/

namespace QueryPlanning.CommandLine

/-! ## Arguments -/

/-- The options that take a value. -/
inductive Key
  | config
  | plan
  | logLevel
  | detail
  deriving DecidableEq, Repr

def Key.ofName? : String → Option Key
  | "config" => some .config
  | "plan" => some .plan
  | "log-level" => some .logLevel
  | "explain-level" => some .detail
  | _ => none

def Key.ofLetter? : Char → Option Key
  | 'c' => some .config
  | 'p' => some .plan
  | 'l' => some .logLevel
  | 'e' => some .detail
  | _ => none

/-- The options that were given. -/
structure Given where
  config : Option String := none
  plan : Option String := none
  logLevel : Option String := none
  detail : Option Detail := none
  json : Bool := false
  deriving Repr

namespace Given

/-- A path; the empty text is none. -/
def path? (value : String) : Option String :=
  if value.isEmpty then none else some value

/-- Sets an option that is not set yet to a value that fits it. -/
def set? (g : Given) (key : Key) (value : String) : Option Given :=
  match key with
  | .config => if g.config.isSome then none else do return { g with config := ← path? value }
  | .plan => if g.plan.isSome then none else do return { g with plan := ← path? value }
  | .logLevel => if g.logLevel.isSome then none else some { g with logLevel := value }
  | .detail =>
    if g.detail.isSome then none
    else do return { g with detail := ← (Detail.parse value).toOption }

end Given

/-- An argument with an option that takes a value: the option and the value, if it is attached. A
value is attached to a name by an equals sign and to a letter with or without one. -/
def option? (argument : String) : Option (Key × Option String) :=
  match argument.toList with
  | '-' :: '-' :: cs => do
    let key ← Key.ofName? (String.ofList (cs.takeWhile (· ≠ '=')))
    match cs.dropWhile (· ≠ '=') with
    | [] => return (key, none)
    | _ :: value => return (key, some (String.ofList value))
  | ['-', c] => do return (← Key.ofLetter? c, none)
  | '-' :: c :: '=' :: value => do return (← Key.ofLetter? c, some (String.ofList value))
  | '-' :: c :: value => do return (← Key.ofLetter? c, some (String.ofList value))
  | _ => none

/-- Whether an argument can be the value of the option before it. A dash alone can be. -/
def isValue (argument : String) : Bool :=
  argument = "-" || argument.toList.head? ≠ some '-'

/-- Takes up arguments. There are none besides options, so nothing follows the mark that ends
them. -/
def Given.take? (g : Given) : List String → Option Given
  | [] => some g
  | "--" :: rest => if rest.isEmpty then some g else none
  | "--json" :: rest => if g.json then none else { g with json := true }.take? rest
  | argument :: rest =>
    match option? argument, rest with
    | some (key, some value), rest => do (← g.set? key value).take? rest
    | some (key, none), value :: rest =>
      if isValue value then do (← g.set? key value).take? rest else none
    | _, _ => none

/-- The arguments of a run. -/
structure Arguments where
  config : String
  plan : String
  logLevel : Option String
  detail : Option Detail
  json : Bool
  deriving Repr

/-- Reads arguments; a plan must be named. -/
def Arguments.parse (arguments : List String) : Option Arguments := do
  let g ← ({} : Given).take? arguments
  return {
    config := g.config.getD "conf/fe.toml", plan := ← g.plan, logLevel := g.logLevel
    detail := g.detail, json := g.json }

/-! ## A run -/

/-- A document that the arguments name. -/
inductive Document
  | missing
  | unreadable
  | text (content : String)
  deriving Repr

/-- What a run finds outside. -/
structure Surroundings where
  config : Document
  plan : Document
  environment : List (String × String) := []
  /-- The cores of this machine. -/
  cores : Nat
  deriving Repr

/-- Why a run fails. -/
inductive Failure
  | config
  | plan
  | spec
  | planning (e : Error)
  deriving Repr

def Failure.message : Failure → String
  | .config => "Failed to load config"
  | .plan => "Failed to read plan"
  | .spec => "Serialization error"
  | .planning e => e.message

instance : MonadLift (Except Error) (Except Failure) where
  monadLift := Except.mapError .planning

/-- The configuration; without a document every setting has its default. -/
def Document.toConfig : Document → Except Failure Config
  | .missing => .ok {}
  | .unreadable => .error .config
  | .text content => (Config.parse content).mapError fun _ ↦ .config

/-- The specification of a plan. -/
def Document.toSpec : Document → Except Failure PlanSpec
  | .missing | .unreadable => .error .plan
  | .text content => (PlanSpec.parse content).mapError fun _ ↦ .spec

/-- The text that a run prints. The configuration must be sound as a whole, even where arguments
override it, and is looked at before the plan. -/
def run (a : Arguments) (outside : Surroundings) : Except Failure String := do
  let c := (← outside.config.toConfig).override outside.environment
  let c := { c with logLevel := a.logLevel.getD c.logLevel }
  c.validate
  let options ← Options.ofConfig c outside.cores
  let options := { options with detail := a.detail.getD options.detail }
  let cluster := ((Cluster.Update.ofConfig? c).map Cluster.ofUpdate).getD {}
  let (root, s) ← (← outside.plan.toSpec).build {} cluster options |>.1
  let (roots, s) ← s.planParallel root
  if a.json then
    return (Json.array ((← s.summaries roots).map Summary.toJson)).pretty ++ "\n"
  s.explain options.detail roots

/-! ## What is left of a run -/

/-- The characters up to the end of the first line. -/
def firstLine : List Char → List Char
  | [] => []
  | '\n' :: _ => []
  | '\r' :: '\n' :: _ => []
  | c :: rest => c :: firstLine rest

/-- The status that the program exits with, and what it writes. -/
structure Report where
  status : Nat
  output : String := ""
  error : Option String := none
  deriving DecidableEq, Repr

namespace Report

/-- The report on arguments that cannot be read; they are explained by the caller. -/
def misused : Report := { status := 2 }

def ofRun : Except Failure String → Report
  | .ok output => { status := 0, output }
  | .error failure => { status := 1, error := some ("Error: " ++ failure.message) }

/-- The first line of what is written about an error; a line break follows the text. -/
def headline? (r : Report) : Option String :=
  r.error.map fun e ↦ String.ofList (firstLine (e.toList ++ ['\n']))

end Report

end QueryPlanning.CommandLine
