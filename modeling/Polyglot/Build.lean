import Polyglot.Chronicle
import Polyglot.Program
import Polyglot.Run.Execution

/-!
# Builds

A build loads an entry file, compiles it and runs it. Directories that the settings
give as relative paths start at the entry's own directory, and so do the guests. The
trail is the log of the three compile stages. It is read off their results; where a
stage fails, the trail ends with what the stage had done by then.
-/
namespace Polyglot.Trail

def line (level : Level) (p : Phase) (message : Text) (fields : List (Text × Text)) : LogLine :=
  ⟨level, .phase p, message, fields⟩

def num (n : Nat) : Text := Text.decimal n

def segment (s : Segment) : LogLine :=
  line .debug .segment "segment" [("ordinal", num s.ordinal), ("tag", s.tag),
    ("language", s.language.name), ("lines", num s.numbered.length)]

def warning (w : SegmentWarning) : LogLine := line .warn .segment w.message []

def tagLine : SegmentWarning → Nat
  | .empty _ n => n
  | .trailing _ n => n

def before (n : Nat) (ws : List SegmentWarning) : List LogLine :=
  (ws.takeWhile (tagLine · < n)).map warning

def after (n : Nat) (ws : List SegmentWarning) : List SegmentWarning :=
  ws.dropWhile (tagLine · < n)

def inFileOrder : List Segment → List SegmentWarning → List LogLine
  | [], ws => ws.map warning
  | s :: r, ws => before s.firstLine ws ++ segment s :: inFileOrder r (after s.firstLine ws)

def segmentation (s : Segmentation) : List LogLine :=
  inFileOrder s.segments s.warnings ++
    [line .debug .segment "segmentation complete"
      [("segments", num s.segments.length), ("warnings", num s.warnings.length)]]

def binding (b : Binding) : LogLine :=
  line .trace .analyze "binding" [("line", num b.line), ("name", b.name), ("expr", b.expression)]

def lineSeen (l : Language) (p : Line × Role) : List LogLine :=
  if Analysis.isImport l p then [line .trace .analyze "import" [("line", num p.1.number)]]
  else (Analysis.bindingsOf l p).map binding

def function (f : FunctionDef) : LogLine :=
  line .trace .analyze "function" [("name", f.name), ("params", LogLine.listed f.params)]

def analyzed (s : Segment) (a : Analysis) : LogLine :=
  line .debug .analyze "segment analyzed" [("ordinal", num s.ordinal), ("language", s.language.name),
    ("bindings", num a.bindings.length), ("functions", num a.functions.length),
    ("imports", num a.imports.length)]

def lineRoles (s : Segment) : List (Line × Role) :=
  match s.language with
  | .javascript => Layout.roles Braces.step (.outside 0) s.lines
  | .python => Layout.roles Indents.step .outside s.lines

def analysis (s : Segment) : List LogLine :=
  (lineRoles s).flatMap (lineSeen s.language) ++
    match Analysis.ofSegment s with
    | .ok a => a.functions.map function ++ [analyzed s a]
    | .error _ => []

def analyses : Program.Symbols → List Segment → List LogLine
  | _, [] => []
  | t, s :: r =>
    match Analysis.ofSegment s with
    | .error _ => analysis s
    | .ok a =>
      match Program.enter t s a with
      | .error _ => analysis s
      | .ok t => analysis s ++ analyses t r

def splitPoint (n : Nat) (calls : List CallSite) : LogLine :=
  line .debug .resolve "split point"
    [("line", num n), ("calls", LogLine.listed (calls.map (·.callee)))]

def splitPoints (l : Language) (functions : FunctionTable) (own : List Text) :
    List (Line × Role) → List LogLine
  | [] => []
  | p :: r =>
    if Analysis.isImport l p then splitPoints l functions own r
    else
      match Plan.callsOf l functions own p with
      | .error _ => []
      | .ok [] => splitPoints l functions own r
      | .ok calls => splitPoint p.1.number calls :: splitPoints l functions own r

def planned (s : Segment) : Plan → LogLine
  | .simple => line .debug .resolve "simple segment" [("ordinal", num s.ordinal)]
  | .split blocks _ =>
    line .debug .resolve "split segment" [("ordinal", num s.ordinal), ("blocks", num blocks.length)]

def plan (functions : FunctionTable) (s : Segment) (a : Analysis) : List LogLine :=
  splitPoints s.language functions (Plan.ownNames functions s) a.lines ++
    match Plan.ofSegment functions s a with
    | .ok p => [planned s p]
    | .error _ => []

def plans (functions : FunctionTable) : List (Segment × Analysis) → List LogLine
  | [] => []
  | (s, a) :: r =>
    match Plan.ofSegment functions s a with
    | .ok _ => plan functions s a ++ plans functions r
    | .error _ => plan functions s a

def complete (p : Program) : LogLine :=
  line .debug .resolve "compile phase complete" [("segments", num p.parts.length),
    ("declarations", num p.declarations.items.length), ("functions", num p.functions.items.length)]

def ofSymbols (warnings : List SegmentWarning) (t : Program.Symbols) : List LogLine :=
  plans t.functions t.analyzed ++
    match Program.ofSymbols warnings t with
    | .ok p => [complete p]
    | .error _ => []

def ofSegmentation (s : Segmentation) : List LogLine :=
  segmentation s ++ analyses Program.Symbols.none s.segments ++
    match Program.analyzeAll Program.Symbols.none s.segments with
    | .ok t => ofSymbols s.warnings t
    | .error _ => []

def ofSource (e : Engine) (source : Text) : List LogLine :=
  match Segmentation.ofSource e source with
  | .ok s => ofSegmentation s
  | .error _ => []

end Polyglot.Trail

namespace Polyglot

namespace Engine

def anchorPath (base p : Text) : Text := if Path.isAbsolute p then p else Path.join base p

def anchored (e : Engine) (base : Text) : Engine :=
  -- Without a working directory, guests run in the base directory.
  { e with
    scratchDir := anchorPath base e.scratchDir
    workingDir := some (match e.workingDir with
      | some dir => anchorPath base dir
      | none => base) }

end Engine

structure BuildSettings where
  engine : Engine
  showSteps : Bool := false

structure Session where
  machine : Machine
  chronicle : Chronicle

def Session.say (s : Session) (l : LogLine) : Session :=
  { s with chronicle := s.chronicle.say l }

def Session.sayAll (s : Session) (ls : List LogLine) : Session := ls.foldl Session.say s

def Session.push (s : Session) (e : OutputEntry) : Session :=
  { s with chronicle := s.chronicle.push e }

structure BuildResult where
  stdout : Text
  order : List Text
  units : List UnitRecord
  timings : Timings
  globals : Globals
  warnings : List Text
  scratchDir : Text

namespace Build

abbrev Task (α : Type) := Outcome Session Failure α

def load (fs : Files) (entry : Text) : Except Failure Text :=
  match fs.readText entry with
  | .ok t => .ok t
  | .error e => .error (.load (.entry entry e.message))

def sessionOf (s : Scheduler) : Session := ⟨s.workshop.machine, s.chronicle⟩

def tenths (us : Nat) : Text :=
  let n := (us + 50) / 100
  Text.decimal (n / 10) ++ ['.'] ++ Text.decimal (n % 10)

def stepMessage (n : Nat) (r : UnitRecord) : Text :=
  "step " ++ Text.decimal n ++ ": " ++ r.kind.suffix ++ [' '] ++ r.language.name ++ [' ']
    ++ GuestUnit.shorten r.hash ++ " (line " ++ Text.decimal r.firstLine ++ ", "
    ++ tenths r.elapsed ++ "ms)"

def pushSteps (s : Session) (n : Nat) : List UnitRecord → Session
  | [] => s
  | r :: rs => pushSteps (s.push (.info (stepMessage n r))) (n + 1) rs

def resultOf (s : RunState) : BuildResult where
  stdout := s.scheduler.stdout
  order := s.order
  units := s.scheduler.records
  timings := Program.runTimes
  globals := s.globals
  warnings := s.warnings
  scratchDir := s.scheduler.engine.scratchDir

def compiled (p : Program) : LogLine :=
  ⟨.debug, .build, "compiled", [("segments", Text.decimal p.parts.length),
    ("functions", Text.decimal p.functions.items.length)]⟩

def completed (units : Nat) : LogLine :=
  ⟨.info, .build, "Build completed", [("units", Text.decimal units)]⟩

def stepsOf (showSteps : Bool) (records : List UnitRecord) : List UnitRecord :=
  if showSteps then records else []

def finish (showSteps : Bool) (s : RunState) : Task BuildResult :=
  .done ((pushSteps (sessionOf s.scheduler) 1 (stepsOf showSteps s.scheduler.records)).say
    (completed s.order.length)) (resultOf s)

def runProgram (e : Engine) (showSteps : Bool) (s : Session) (p : Program) : Task BuildResult :=
  let s := s.say (compiled p)
  let o := p.run (.start e s.machine s.chronicle)
  match o.result with
  | .ok () => finish showSteps o.state
  | .error err => .failed (sessionOf o.state.scheduler) (.engine err)

def ofSource (c : BuildSettings) (base source : Text) (s : Session) : Task BuildResult :=
  let e := c.engine.anchored base
  let s := s.sayAll (Trail.ofSource e source)
  match Program.compile e source with
  | .ok p => runProgram e c.showSteps s p
  | .error err => .failed s (.engine err)

def starting (entry : Text) : LogLine := ⟨.info, .build, "Starting build", [("entry", entry)]⟩

def ofEntry (c : BuildSettings) (entry : Text) (s : Session) : Task BuildResult :=
  let s := s.say (starting entry)
  match load s.machine.files entry with
  | .ok source => ofSource c (Path.baseDir entry) source s
  | .error f => .failed s f

def checkSource (c : BuildSettings) (source : Text) (s : Session) : Task Summary :=
  -- A check uses the settings as they are.
  let s := s.sayAll (Trail.ofSource c.engine source)
  match Summary.ofSource c.engine source with
  | .ok r => .done s r
  | .error err => .failed s (.engine err)

def checkEntry (c : BuildSettings) (entry : Text) (s : Session) : Task Summary :=
  match load s.machine.files entry with
  | .ok source => checkSource c source s
  | .error f => .failed s f

end Build
end Polyglot
