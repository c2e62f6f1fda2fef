import Polyglot.Program
import Polyglot.Run.Scheduler
import Polyglot.Unit.Generator

/-!
# Running a program

The segments of a compiled program run in the order of the file. A simple segment
is one unit. A split segment runs block by block: a block of code is filled with
the values known by then; a calling line first runs each of its calls, and goes on
only if every one of them returned a value. The first failing unit ends the run.
-/
namespace Polyglot

/-- `hidden` lists the names already reported as hidden from a language. -/
structure RunState where
  scheduler : Scheduler
  globals : Globals
  order : List Text
  warnings : List Text
  hidden : List (Text × Language)

abbrev Running (α : Type) := Outcome RunState EngineError α

namespace RunState

def start (s : Scheduler) : RunState := ⟨s, Catalog.empty, [], [], []⟩

def say (s : RunState) (l : LogLine) : RunState :=
  { s with scheduler := s.scheduler.mapWorkshop fun w =>
      { w with chronicle := w.chronicle.say l } }

def record (s : RunState) (message : Text) : RunState :=
  { s with
    scheduler := s.scheduler.mapWorkshop (·.push (.warning message))
    warnings := s.warnings ++ [message] }

def warn (s : RunState) (message : Text) : RunState :=
  (s.say ⟨.warn, .phase .run, message, []⟩).record message

def hiddenMessage (name : Text) (l : Language) (line : Nat) : Text :=
  onLine line ("global " ++ quotedName name ++ " is not a valid " ++ l.name
    ++ " name and is not visible there")

def noteName (l : Language) (line : Nat) (s : RunState) (name : Text) : RunState :=
  if s.hidden.contains (name, l) then s
  else
    { s with hidden := s.hidden ++ [(name, l)] }.warn (hiddenMessage name l line)

def noteHidden (s : RunState) (l : Language) (line : Nat) : RunState :=
  (s.globals.hidden l).foldl (noteName l line) s

def ofDispatched (s : RunState) (d : Scheduler.Dispatched) : Running (Option Value) where
  state := { s with scheduler := d.scheduler, globals := d.globals, order := d.order }
  result := d.result.mapError .runtime

def execute (s : RunState) (u : GuestUnit) : Running (Option Value) :=
  s.ofDispatched (s.scheduler.dispatch u s.globals s.order)

end RunState

namespace Execution

def generated (message : Text) (fields : List (Text × Text)) : LogLine :=
  ⟨.trace, .phase .codegen, message, fields⟩

def sayInvocation (s : RunState) (c : CallSite) (f : FunctionDef) : RunState :=
  s.say (generated "invocation unit" [("callee", f.name), ("line", Text.decimal c.line)])

def runCall (gen : Generator) (caller : Language) (s : RunState) (c : CallSite) :
    Running (Option Value) :=
  match gen.functions.find? c.callee with
  | none => .failed s (.undefined ⟨c.callee, c.line⟩)
  | some f =>
    let s := s.noteHidden f.language c.line
    (sayInvocation s c f).execute (gen.invocationUnit c f caller s.globals)

/-- The values that the calls returned; a call without a value leaves none. -/
def runCalls (gen : Generator) (caller : Language) : RunState → List CallSite → Running (List Value)
  | s, [] => .done s []
  | s, c :: r =>
    (runCall gen caller s c).andThen fun s value =>
      (runCalls gen caller s r).map (value.toList ++ ·)

def skipMessage (line : Nat) : Text :=
  onLine line "a called function returned no value, continuation skipped"

def sayContinuation (s : RunState) (line : Nat) (body : Text) : RunState :=
  s.say (generated "continuation unit" [("line", Text.decimal line), ("body", body)])

def runContinuation (ctx : SegmentContext) (text : Text) (line : Nat) (calls : List CallSite)
    (bound : List Text) (s : RunState) (returns : List Value) : Running Unit :=
  let s := s.noteHidden ctx.language line
  let body := Generator.spliceReturns ctx.language text calls returns
  ((sayContinuation s line body).execute
    (Generator.continuationUnit ctx text line calls returns bound s.globals)).map fun _ => ()

def afterCalls (ctx : SegmentContext) (text : Text) (line : Nat) (calls : List CallSite)
    (bound : List Text) (s : RunState) (returns : List Value) : Running Unit :=
  if returns.length < calls.length then .done (s.warn (skipMessage line)) ()
  else runContinuation ctx text line calls bound s returns

def runTemplate (l : Language) (s : RunState) (line : Nat) (t : Template) : Running Unit :=
  let s := s.noteHidden l line
  match t.fill s.globals with
  | .error e => .failed s (.undefined e)
  | .ok u => (s.execute u).map fun _ => ()

def runBlock (gen : Generator) (ctx : SegmentContext) (s : RunState) :
    Block × Option Template → Running Unit
  | (.code _ line _, some t) => runTemplate ctx.language s line t
  | (.code _ _ _, none) => .done s ()
  | (.call text line calls bound, _) =>
    (runCalls gen ctx.language s calls).andThen (afterCalls ctx text line calls bound)

def runBlocks (gen : Generator) (ctx : SegmentContext) :
    RunState → List (Block × Option Template) → Running Unit
  | s, [] => .done s ()
  | s, b :: r => (runBlock gen ctx s b).andThen fun s _ => runBlocks gen ctx s r

def contextOf (gen : Generator) (p : Part) (own : List Text) : SegmentContext where
  language := p.segment.language
  imports := p.analysis.importSource
  definitions := gen.localDefinitions own
  analysis := p.analysis

def runSplit (gen : Generator) (ctx : SegmentContext) (blocks : List Block) (s : RunState) :
    Running Unit :=
  runBlocks gen ctx s (blocks.zip (Template.plan ctx blocks s.globals))

def saySimple (s : RunState) (p : Part) (u : GuestUnit) : RunState :=
  s.say (generated "simple unit"
    [("ordinal", Text.decimal p.segment.ordinal), ("tracked", LogLine.listed u.tracked)])

def runSimple (p : Part) (s : RunState) : Running Unit :=
  let u := Generator.simpleUnit p.segment p.analysis.bound s.globals
  ((saySimple s p u).execute u).map fun _ => ()

def saySegment (s : RunState) (g : Segment) : RunState :=
  s.say ⟨.info, .phase .run, "segment", [("ordinal", Text.decimal g.ordinal),
    ("language", g.language.name), ("line", Text.decimal g.firstLine)]⟩

def runPart (gen : Generator) (s : RunState) (p : Part) : Running Unit :=
  let s := (saySegment s p.segment).noteHidden p.segment.language p.segment.firstLine
  match p.plan with
  | .simple => runSimple p s
  | .split blocks own => runSplit gen (contextOf gen p own) blocks s

def runParts (gen : Generator) : RunState → List Part → Running Unit
  | s, [] => .done s ()
  | s, p :: r => (runPart gen s p).andThen fun s _ => runParts gen s r

def generatorOf (p : Program) : Generator :=
  ⟨p.functions, p.parts.map (·.analysis.importSource)⟩

def opening (p : Program) (s : Scheduler) : RunState :=
  (p.warnings.map (·.message)).foldl RunState.record (.start s)

end Execution

namespace Program

def run (p : Program) (s : Scheduler) : Running Unit :=
  Execution.runParts (Execution.generatorOf p) (Execution.opening p s) p.parts

def runTimes : Timings := (compileTimes.add .codegen 0).add .run 0

end Program
end Polyglot
