import Polyglot.Chronicle
import Polyglot.Project

/-!
# Arguments

The command line: options that hold for every command and may stand on either side
of its name, then the command with its own options and a path. An option's value
follows it or is attached with an equals sign; a value that looks like an option is
none. Values are checked when the next argument is taken up.
-/
namespace Polyglot

inductive Command
  | build
  | run
  | check
  deriving DecidableEq

inductive LogFormat
  | pretty
  | compact
  | json
  deriving DecidableEq

namespace Arguments

inductive Stop
  | misuse
  | help
  | version
  deriving DecidableEq

inductive Choice
  | level (p : Phase)
  | format
  | logFile
  | scratchDir
  | interpreter
  deriving DecidableEq

inductive Switch
  | verbose
  | help
  | version
  | bench
  | showOrder
  | showSteps
  deriving DecidableEq

structure Given where
  verbosity : Option Nat := none
  levels : List (Phase × Level) := []
  format : Option LogFormat := none
  logFile : Option Text := none
  scratchDir : Option Text := none
  interpreters : List (Text × Text) := []
  switches : List Switch := []
  path : Option Text := none

def commandNames : List (String × Command) :=
  [("build", .build), ("run", .run), ("check", .check)]

def sharedChoices : List (String × Choice) :=
  [("log-segment", .level .segment), ("log-analyze", .level .analyze),
    ("log-resolve", .level .resolve), ("log-codegen", .level .codegen), ("log-run", .level .run),
    ("format", .format), ("log-file", .logFile)]

def ownChoices : List (String × Choice) :=
  [("scratch-dir", .scratchDir), ("interpreter", .interpreter)]

def sharedSwitches : List (String × Switch) := [("verbose", .verbose), ("help", .help)]

def buildSwitches : List (String × Switch) :=
  [("bench", .bench), ("show-order", .showOrder), ("show-steps", .showSteps)]

def choices : Option Command → List (String × Choice)
  -- Before the command's name there is no scope.
  | none => sharedChoices
  | some _ => sharedChoices ++ ownChoices

def switches : Option Command → List (String × Switch)
  | none => sharedSwitches ++ [("version", .version)]
  | some .check => sharedSwitches
  | some _ => sharedSwitches ++ buildSwitches

def ofName? {α : Type} (table : List (String × α)) (name : Text) : Option α :=
  (table.find? fun e => e.1.toList == name).map (·.2)

def shortSwitch? (scope : Option Command) (c : Char) : Option Switch :=
  if c = 'v' then some .verbose
  else if c = 'h' then some .help
  else if c = 'V' && scope.isNone then some .version
  else none

def formatNames : List (String × LogFormat) :=
  [("pretty", .pretty), ("compact", .compact), ("json", .json)]

abbrev Checked (α : Type) := Except Stop α

def valid {α : Type} : Option α → Checked α
  | some a => .ok a
  | none => .error .misuse

def once {α : Type} (old : Option α) (new : α) : Checked (Option α) :=
  -- An option that can be given once only.
  match old with
  | some _ => .error .misuse
  | none => .ok (some new)

def pathValue (t : Text) : Checked Text := if t.isEmpty then .error .misuse else .ok t

def interpreterValue (t : Text) : Checked (Text × Text) :=
  valid (Overrides.splitInterpreter t).toOption

def Given.level? (g : Given) (p : Phase) : Option Level :=
  (g.levels.find? (·.1 == p)).map (·.2)

def Given.setLevel (g : Given) (p : Phase) (t : Text) : Checked Given := do
  let l ← valid (Level.parse? t)
  let _ ← once (g.level? p) l
  return { g with levels := g.levels ++ [(p, l)] }

def Given.choose (g : Given) (c : Choice) (t : Text) : Checked Given :=
  match c with
  | .level p => g.setLevel p t
  | .format => do return { g with format := ← once g.format (← valid (ofName? formatNames t)) }
  | .logFile => do return { g with logFile := ← once g.logFile (← pathValue t) }
  | .scratchDir => do return { g with scratchDir := ← once g.scratchDir (← pathValue t) }
  | .interpreter => do
    return { g with interpreters := g.interpreters ++ [← interpreterValue t] }

def Given.setPath (g : Given) (t : Text) : Checked Given := do
  return { g with path := some (← pathValue t) }

def Given.flip (g : Given) : Switch → Checked Given
  | .verbose => .ok { g with verbosity := some (g.verbosity.getD 0 + 1) }
  | .help => .error .help
  | .version => .error .version
  | s =>
    if g.switches.contains s then .error .misuse else .ok { g with switches := g.switches ++ [s] }

inductive Pending
  | nothing
  | awaiting (c : Choice)
  | chosen (c : Choice) (value : Text)
  | path (value : Text)

structure Progress where
  given : Given := {}
  pending : Pending := .nothing

namespace Progress

def settle (p : Progress) : Checked Given :=
  match p.pending with
  | .nothing => .ok p.given
  | .awaiting _ => .error .misuse
  | .chosen c t => p.given.choose c t
  | .path t => p.given.setPath t

def await (p : Progress) (c : Choice) : Checked Progress :=
  p.settle.map fun g => ⟨g, .awaiting c⟩

def attach (p : Progress) (c : Choice) (t : Text) : Checked Progress := do
  return ⟨← (← p.settle).choose c t, .nothing⟩

def flip (p : Progress) (s : Switch) : Checked Progress := do
  return ⟨← (← p.settle).flip s, .nothing⟩

def flipAll (scope : Option Command) : Progress → Text → Checked Progress
  | p, [] => .ok p
  | p, c :: r =>
    match shortSwitch? scope c with
    | none => .error .misuse
    | some s =>
      match p.flip s with
      | .ok p => flipAll scope p r
      | .error e => .error e

def hasPath (p : Progress) : Bool :=
  match p.pending with
  | .path _ => true
  | _ => p.given.path.isSome

def place (p : Progress) (t : Text) : Checked Progress :=
  if p.hasPath then .error .misuse else p.settle.map fun g => ⟨g, .path t⟩

def long (scope : Option Command) (p : Progress) (name : Text) (value : Option Text) :
    Checked Progress :=
  match ofName? (choices scope) name, ofName? (switches scope) name, value with
  | some c, _, none => p.await c
  | some c, _, some t => p.attach c t
  | none, some s, none => p.flip s
  | none, _, _ => .error .misuse

def longArgument (scope : Option Command) (p : Progress) (t : Text) : Checked Progress :=
  match Text.cut? '=' t with
  | some (name, value) => p.long scope name (some value)
  | none => p.long scope t none

def plain (p : Progress) (t : Text) : Checked Progress :=
  match p.pending with
  | .awaiting c => .ok { p with pending := .chosen c t }
  | _ => p.place t

end Progress

def readPaths : Progress → List Text → Checked Progress
  -- After two dashes alone, nothing is an option.
  | p, [] => .ok p
  | p, a :: r =>
    match p.place a with
    | .ok p => readPaths p r
    | .error e => .error e

def option? (scope : Option Command) (p : Progress) (a : Text) : Option (Checked Progress) :=
  match a with
  | '-' :: '-' :: name => some (p.longArgument scope name)
  | '-' :: c :: cs => some (p.flipAll scope (c :: cs))
  | _ => none

def readCommand (command : Command) : Progress → List Text → Checked Progress
  | p, [] => .ok p
  | p, a :: r =>
    if a = ['-', '-'] then readPaths p r
    else
      match (option? (some command) p a).getD (p.plain a) with
      | .ok p => readCommand command p r
      | .error e => .error e

structure Opening where
  progress : Progress
  command : Command
  rest : List Text

def isAwaiting (p : Progress) : Bool :=
  match p.pending with
  | .awaiting _ => true
  | _ => false

def helpTopic : List Text → Stop
  | [] => .help
  | [t] => if t = ("help" : Text) ∨ (ofName? commandNames t).isSome then .help else .misuse
  | _ => .misuse

def openWith (p : Progress) (a : Text) (r : List Text) : Checked Opening :=
  match ofName? commandNames a with
  | some c => .ok ⟨p, c, r⟩
  | none => .error (if a = ("help" : Text) then helpTopic r else .misuse)

def readOpening : Progress → List Text → Checked Opening
  | _, [] => .error .misuse
  | p, a :: r =>
    if a = ['-', '-'] then .error .misuse
    else
      match option? none p a with
      | some (.ok p) => readOpening p r
      | some (.error e) => .error e
      | none =>
        if isAwaiting p then
          match p.plain a with
          | .ok p => readOpening p r
          | .error e => .error e
        else openWith p a r

end Arguments

structure Order where
  command : Command
  path : Text
  overrides : Overrides
  bench : Bool
  showOrder : Bool
  levels : LogLevels
  format : LogFormat
  logFile : Option Text

namespace Order
open Arguments

def defaultPath : Text := ['.']

def levelsOf (before after : Given) : LogLevels :=
  -- For options on both sides, the one behind the command's name counts.
  { LogLevels.ofVerbosity ((after.verbosity <|> before.verbosity).getD 0) with
    phases := after.levels ++ before.levels }

def ofGiven (command : Command) (before after : Given) : Order where
  command := command
  path := after.path.getD defaultPath
  overrides := ⟨after.scratchDir, after.interpreters, after.switches.contains .showSteps⟩
  bench := after.switches.contains .bench
  showOrder := after.switches.contains .showOrder
  levels := levelsOf before after
  format := (after.format <|> before.format).getD .compact
  logFile := after.logFile <|> before.logFile

def ofArguments (args : List Text) : Checked Order := do
  let o ← readOpening {} args
  let p ← readCommand o.command {} o.rest
  let after ← p.settle
  let before ← o.progress.settle
  return ofGiven o.command before after

end Order
end Polyglot
