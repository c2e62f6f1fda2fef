import Polyglot.Console.Arguments
import Polyglot.Console.Screen
import Polyglot.Project

/-!
# Carrying out commands

A command locates its project, applies the settings, loads the entry file, and then
builds or checks it. `run` shows everything as it comes; `build` shows the log as it
comes, then the notices, then what the guests printed. A failed build shows what was
collected, and the error with its place in the source.

Two things that are shown are the work of libraries: what answers a command line that
is turned down or only asks for help, and the forms of a log line with a time in them.
Both are parameters here, as `Console.Texts`.
-/
namespace Polyglot

/-- `stopped` is shown for a command line on which nothing is carried out. The two forms
of a log line are taken with the time masked. -/
structure Console.Texts where
  stopped : List Text → Arguments.Stop → Screen
  pretty : LogLine → Text
  json : LogLine → Text

namespace Console.Texts

def line (texts : Texts) : LogFormat → LogLine → Text
  | .compact => LogLine.render
  | .pretty => texts.pretty
  | .json => texts.json

/-- Only the version is shown in full; the two forms show what the compact one does. -/
def plain : Texts where
  stopped _ stop := if stop = .version then { stdout := "mixl 0.1.0
" } else {}
  pretty := LogLine.render
  json := LogLine.render

end Console.Texts

structure Ending where
  code : Nat
  screen : Screen
  machine : Machine

namespace Order

def view (texts : Console.Texts) (o : Order) : Screen.LogView :=
  fun l => if o.levels.shows l then texts.line o.format l else []

def streams (o : Order) : Bool := o.command == .run

inductive Refusal
  | log (e : IoError)
  | load (e : LoadError)
  | settings (e : SettingsError)
  deriving DecidableEq

namespace Refusal

def text : Refusal → Text
  | log e => "Error: cannot initialize logging: " ++ e.message
  | load e => "❌ " ++ e.message
  | settings e => "Error: " ++ e.message

end Refusal

abbrev Preparation (α : Type) := Outcome Session Refusal α

structure Prepared where
  project : Project
  source : Text
  settings : BuildSettings

def fileLines (o : Order) (ls : List LogLine) (m : Machine) : Except IoError Machine :=
  match o.logFile with
  | none => .ok m
  | some path =>
    (m.files.append path
      (Text.Utf8.encode ((ls.filter o.levels.shows).flatMap LogLine.filed))).map
      fun fs => { m with files := fs }

def openLog (o : Order) (m : Machine) : Except IoError Machine := o.fileLines [] m

def keepLines (o : Order) (ls : List LogLine) (m : Machine) : Machine :=
  (o.fileLines ls m).toOption.getD m

/-- A line said during the preparation is in the log file at once: the entry file may
be that very file. -/
def say (o : Order) (s : Session) (l : LogLine) : Session :=
  ⟨o.keepLines [l] s.machine, s.chronicle.say l⟩

def logContent (o : Order) (s : Session) : Option Text.Utf8.Bytes :=
  o.logFile.bind fun path => (s.machine.files.read path).toOption

/-- The machine after the work, with the lines said on the way. Nothing reads the log
file by then, so they can be kept together. A log file that the work has removed or
replaced takes none of them. -/
def withLines (o : Order) (before after : Session) : Machine :=
  if o.logContent before = o.logContent after then
    o.keepLines (after.chronicle.lines.drop before.chronicle.lines.length) after.machine
  else after.machine

def located (p : Project) : LogLine :=
  ⟨.debug, .console, "project located", [("project", p.name),
    ("version", LogLine.optional p.version), ("entry", p.entry)]⟩

def loadSource (p : Project) (c : BuildSettings) (s : Session) : Preparation Prepared :=
  match s.machine.files.readText p.entry with
  | .ok source => .done s ⟨p, source, c⟩
  | .error e => .failed s (.load (.entry p.entry e.message))

def applySettings (o : Order) (p : Project) (s : Session) : Preparation Prepared :=
  match p.engine with
  | .error e => .failed s (.load e)
  | .ok e =>
    match o.overrides.apply s.machine.files.cwd e with
    | .error err => .failed s (.settings err)
    | .ok c => loadSource p c s

def prepare (o : Order) (s : Session) : Preparation Prepared :=
  match Project.locate s.machine.files o.path with
  | .error e => .failed s (.load e)
  | .ok p => o.applySettings p (o.say s (located p))

variable (texts : Console.Texts)

def errorText (f : Failure) : Text := "❌ " ++ f.message ++ ['\n']

def contextText (f : Failure) (source : Text) : Text :=
  ((f.line?).bind (Excerpt.ofLine? source)).getD []

def showFailure (s : Screen) (p : Prepared) (f : Failure) : Screen :=
  s.note (p.project.entry ++ ":\n" ++ errorText f ++ contextText f p.source)

def shownSoFar (o : Order) (c : Chronicle) : Screen :=
  if o.streams then Screen.streamed (o.view texts) c else Screen.logged (o.view texts) c

def collected (o : Order) (c : Chronicle) : List OutputEntry := if o.streams then [] else c.entries

def showOutput (o : Order) (r : BuildResult) (s : Screen) : Screen :=
  if o.streams then s else s.print r.stdout

def showOrderOf (o : Order) (r : BuildResult) (s : Screen) : Screen :=
  if o.showOrder then s.note (Tables.order r.order) else s

def showTimes (o : Order) (r : BuildResult) (s : Screen) : Screen :=
  if o.bench then s.note (Tables.times r.timings r.units) else s

def showBuilt (o : Order) (c : Chronicle) (r : BuildResult) : Screen :=
  o.showTimes r (o.showOrderOf r (o.showOutput r
    ((o.collected c).foldl Screen.showNotice (o.shownSoFar texts c))))

def showBroken (o : Order) (c : Chronicle) (p : Prepared) (f : Failure) : Screen :=
  showFailure ((o.collected c).foldl Screen.showEntry (o.shownSoFar texts c)) p f

def showChecked (s : Screen) (entry : Text) (r : Summary) : Screen :=
  (((r.warnings.foldl fun s w => s.noteLine (Screen.warningText w)) s).print (Tables.check r)).print
    ("✅ " ++ entry ++ " checked\n")

def build (o : Order) (s : Session) (p : Prepared) : Ending :=
  let done := Build.ofSource p.settings (Path.baseDir p.project.entry) p.source s
  let c := done.state.chronicle
  let m := o.withLines s done.state
  match done.result with
  | .ok r => ⟨0, o.showBuilt texts c r, m⟩
  | .error f => ⟨1, o.showBroken texts c p f, m⟩

def check (o : Order) (s : Session) (p : Prepared) : Ending :=
  let done := Build.checkSource p.settings p.source s
  let screen := Screen.logged (o.view texts) done.state.chronicle
  let m := o.withLines s done.state
  match done.result with
  | .ok r => ⟨0, showChecked screen p.project.entry r, m⟩
  | .error f => ⟨1, showFailure screen p f, m⟩

def carryOut (o : Order) (s : Session) (p : Prepared) : Ending :=
  match o.command with
  | .check => o.check texts s p
  | .build => o.build texts s p
  | .run => o.build texts s p

def refuse (screen : Screen) (m : Machine) (r : Refusal) : Ending :=
  ⟨1, screen.noteLine r.text, m⟩

def work (o : Order) (m : Machine) : Ending :=
  let prepared := o.prepare ⟨m, []⟩
  match prepared.result with
  | .ok p => o.carryOut texts prepared.state p
  | .error r =>
    refuse (Screen.logged (o.view texts) prepared.state.chronicle) prepared.state.machine r

def execute (o : Order) (m : Machine) : Ending :=
  match o.openLog m with
  | .ok m => o.work texts m
  | .error e => refuse {} m (.log e)

end Order

namespace Console

def codeOf : Arguments.Stop → Nat
  | .misuse => 2
  | .help => 0
  | .version => 0

def execute (args : List Text) (m : Machine) (texts : Texts := .plain) : Ending :=
  match Order.ofArguments args with
  | .ok o => o.execute texts m
  | .error stop => ⟨codeOf stop, texts.stopped args stop, m⟩

end Console
end Polyglot
