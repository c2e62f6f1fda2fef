import Polyglot.Chronicle
import Polyglot.Error
import Polyglot.Unit.Basic
import Polyglot.Value.Reader
import Polyglot.World.Machine

/-!
# Scheduler

Units run one at a time, in the order in which they are dispatched. A dispatch
persists the unit, runs it, and merges its result into the globals; it leaves one
record, whose states only advance. A unit that fails changes neither the globals
nor the order of execution, but a step that fails still leaves a state behind: steps
are put together as outcomes.

The workshop is where units are made into files and run: a scratch directory, the
machine it is on, and the chronicle. The directory is made, and its path fixed, when
the first unit is persisted. A result file left from before is removed before its
unit runs, so that what is read afterwards came from the unit.
-/
namespace Polyglot

structure Outcome (σ ε α : Type) where
  state : σ
  result : Except ε α

namespace Outcome
variable {σ τ ε δ α β : Type}

def done (s : σ) (a : α) : Outcome σ ε α := ⟨s, .ok a⟩

def failed (s : σ) (e : ε) : Outcome σ ε α := ⟨s, .error e⟩

def andThen (o : Outcome σ ε α) (next : σ → α → Outcome σ ε β) : Outcome σ ε β :=
  match o.result with
  | .ok a => next o.state a
  | .error e => ⟨o.state, .error e⟩

def map (f : α → β) (o : Outcome σ ε α) : Outcome σ ε β := ⟨o.state, o.result.map f⟩

def mapState (f : σ → τ) (o : Outcome σ ε α) : Outcome τ ε α := ⟨f o.state, o.result⟩

def mapError (f : ε → δ) (o : Outcome σ ε α) : Outcome σ δ α := ⟨o.state, o.result.mapError f⟩

theorem andThen_done (s : σ) (a : α) (next : σ → α → Outcome σ ε β) :
    (done s a).andThen next = next s a := rfl

end Outcome
end Polyglot

namespace Polyglot
open Text.Utf8 (Bytes)

/-- Once `ready`, the root is the directory's own absolute path. -/
structure Scratch where
  root : Text
  ready : Bool
  deriving DecidableEq

namespace Scratch

def ofRoot (root : Text) : Scratch := ⟨root, false⟩

def sourcePath (s : Scratch) (u : GuestUnit) : Text :=
  Path.join s.root (u.stem ++ ['.'] ++ u.language.extension)

def resultPath (s : Scratch) (u : GuestUnit) : Text := Path.join s.root (u.stem ++ ".json")

end Scratch

structure Workshop where
  scratch : Scratch
  machine : Machine
  chronicle : Chronicle

namespace Workshop

abbrev Step (α : Type) := Outcome Workshop RuntimeError α

def say (w : Workshop) (level : Level) (message : Text) (fields : List (Text × Text)) : Workshop :=
  { w with chronicle := w.chronicle.say ⟨level, .phase .run, message, fields⟩ }

def push (w : Workshop) (e : OutputEntry) : Workshop :=
  { w with chronicle := w.chronicle.push e }

def setFiles (w : Workshop) (fs : Files) : Workshop :=
  { w with machine := { w.machine with files := fs } }

def setScratch (w : Workshop) (s : Scratch) : Workshop := { w with scratch := s }

def rootError (w : Workshop) (e : IoError) : RuntimeError := .persist w.scratch.root e.message

def settle (w : Workshop) (fs : Files) (root : Text) : Workshop :=
  ((w.setFiles fs).setScratch ⟨root, true⟩).say .trace "scratch directory ready" [("root", root)]

def ensure (w : Workshop) : Step Unit :=
  if w.scratch.ready then .done w ()
  else
    match w.machine.files.makeDirs w.scratch.root with
    | .error e => .failed w (w.rootError e)
    | .ok fs =>
      match fs.canonical w.scratch.root with
      | .error e => .failed (w.setFiles fs) (w.rootError e)
      | .ok root => .done (w.settle fs root) ()

def clearResult (w : Workshop) (u : GuestUnit) : Step Unit :=
  -- That there is no stale result is no error.
  let path := w.scratch.resultPath u
  match w.machine.files.remove path with
  | .ok fs => .done ((w.setFiles fs).say .trace "removed stale result" [("path", path)]) ()
  | .error .notFound => .done w ()
  | .error e => .failed w (.persist path e.message)

def writeSource (w : Workshop) (u : GuestUnit) : Step Text :=
  let path := w.scratch.sourcePath u
  match w.machine.files.write path (Text.Utf8.encode u.source) with
  | .ok fs => .done (w.setFiles fs) path
  | .error e => .failed w (.persist path e.message)

def persist (w : Workshop) (u : GuestUnit) : Step Text :=
  w.ensure.andThen fun w _ => (w.clearResult u).andThen fun w _ => w.writeSource u

def parseResult (path : Text) (u : GuestUnit) (t : Text) : Except RuntimeError Globals :=
  match Globals.read? t with
  | some values => .ok values
  | none => .error (.invalidResult u.hash path Value.fault)

def readResult (w : Workshop) (u : GuestUnit) : Except RuntimeError Globals :=
  let path := w.scratch.resultPath u
  match w.machine.files.readText path with
  | .ok t => parseResult path u t
  | .error e => .error (.missingResult u.hash path e.message)

def pushChunks (w : Workshop) (unit : Text) (chunks : List Text) : Workshop :=
  chunks.foldl (fun w t => w.push (.stdout unit t)) w

def chunksOf (output : Bytes) : List Text := (Text.Utf8.chunks output).map Text.Utf8.lossy

/-- Error output that is not text counts as none. -/
def errorText (errors : Bytes) : Text := (Text.Utf8.decode? errors).getD []

def mentionErrors (w : Workshop) (u : GuestUnit) (errors : Text) : Workshop :=
  if Text.allBlank errors then w
  else w.say .debug "stderr"
    [("unit", LogLine.quoted u.shortHash), ("stderr", Text.trimEnd errors)]

def conclude (w : Workshop) (u : GuestUnit) (r : Reply) : Step Text :=
  let chunks := chunksOf r.output
  let w := w.pushChunks u.hash chunks
  if r.status.succeeded then .done (w.mentionErrors u (errorText r.errors)) chunks.flatten
  else .failed w (.exit u.hash r.status.describe (errorText r.errors))

def launch (w : Workshop) (spec : TagSpec) (dir : Option Text) (script : Text) (u : GuestUnit) :
    Step Text :=
  let w := w.say .debug "spawn" [("program", spec.interpreter), ("script", script)]
  match w.machine.launch spec.interpreter spec.args script dir with
  | .error e => .failed w (.launch spec.interpreter u.hash e.message)
  | .ok (reply, machine) => { w with machine := machine }.conclude u reply

end Workshop
end Polyglot

namespace Polyglot

/-- The states that the unit went through, the first one first. -/
structure UnitRecord where
  hash : Text
  kind : UnitKind
  language : Language
  firstLine : Nat
  states : List UnitState
  path : Option Text
  elapsed : Nat
  deriving DecidableEq

namespace UnitRecord

def ofUnit (u : GuestUnit) : UnitRecord where
  hash := u.hash
  kind := u.kind
  language := u.language
  firstLine := u.firstLine
  states := [.pending]
  path := none
  elapsed := 0

def state (r : UnitRecord) : UnitState := r.states.getLast?.getD .pending

def enter (r : UnitRecord) (next : UnitState) : UnitRecord :=
  { r with states := r.states ++ [next] }

def advanceLine (r : UnitRecord) (next : UnitState) : LogLine where
  level := .trace
  channel := .phase .run
  message := "state"
  fields := [("unit", GuestUnit.shorten r.hash), ("from", r.state.title), ("to", next.title)]

end UnitRecord

structure Passage where
  workshop : Workshop
  record : UnitRecord
  printed : Text

namespace Passage

abbrev Step (α : Type) := Outcome Passage RuntimeError α

def advance (p : Passage) (next : UnitState) : Passage :=
  { p with
    workshop := { p.workshop with
      chronicle := p.workshop.chronicle.say (p.record.advanceLine next) }
    record := p.record.enter next }

def work {α : Type} (p : Passage) (step : Workshop → Workshop.Step α) : Step α :=
  (step p.workshop).mapState fun w => { p with workshop := w }

def setPath (p : Passage) (path : Text) : Passage :=
  { p with record := { p.record with path := some path } }

def setPrinted (p : Passage) (t : Text) : Passage := { p with printed := t }

def written (p : Passage) (path : Text) : Passage :=
  ((p.setPath path).advance .written).advance .running

def resultFields (u : GuestUnit) (values : Globals) : List (Text × Text) :=
  [("unit", LogLine.quoted u.shortHash), ("names", LogLine.listed values.names)]

def sayResult (p : Passage) (u : GuestUnit) (values : Globals) : Passage :=
  { p with workshop := p.workshop.say .trace "result" (resultFields u values) }

def collect (p : Passage) (u : GuestUnit) : Step Globals :=
  match p.workshop.readResult u with
  | .ok values => .done (p.sayResult u values) values
  | .error e => .failed p e

def runScript (p : Passage) (spec : TagSpec) (dir : Option Text) (u : GuestUnit) (script : Text) :
    Step Globals :=
  (p.work (·.launch spec dir script u)).andThen fun p printed => (p.setPrinted printed).collect u

def travel (p : Passage) (e : Engine) (u : GuestUnit) : Step Globals :=
  match e.specFor? u.language with
  | none => .failed p (.noInterpreter u.language.name)
  | some spec =>
    (p.work (·.persist u)).andThen fun p path =>
      (p.written path).runScript spec e.workingDir u path

end Passage

structure Scheduler where
  engine : Engine
  workshop : Workshop
  records : List UnitRecord
  stdout : Text

namespace Scheduler

def start (e : Engine) (m : Machine) (c : Chronicle) : Scheduler where
  engine := e
  workshop := ⟨.ofRoot e.scratchDir, m, c⟩
  records := []
  stdout := []

def chronicle (s : Scheduler) : Chronicle := s.workshop.chronicle

def mapWorkshop (f : Workshop → Workshop) (s : Scheduler) : Scheduler :=
  { s with workshop := f s.workshop }

/-- What a dispatch leaves: `result` is the unit's return value, if it gave one. -/
structure Dispatched where
  scheduler : Scheduler
  globals : Globals
  order : List Text
  result : Except RuntimeError (Option Value)

def sayCompleted (w : Workshop) (u : GuestUnit) : Workshop :=
  -- The log shows no time, since none is measured.
  w.say .info "unit completed" [("unit", LogLine.quoted u.shortHash), ("kind", u.kind.suffix),
    ("language", u.language.name), ("elapsed_ms", "0.0")]

def sayFailed (w : Workshop) (u : GuestUnit) (e : RuntimeError) : Workshop :=
  w.say .debug "unit failed" [("unit", LogLine.quoted u.shortHash), ("error", e.message)]

def finish (s : Scheduler) (p : Passage) (w : Workshop) : Scheduler :=
  { s with workshop := w, records := s.records ++ [p.record], stdout := s.stdout ++ p.printed }

def succeed (s : Scheduler) (p : Passage) (u : GuestUnit) (values g : Globals)
    (order : List Text) : Dispatched :=
  let p := p.advance .completed
  ⟨s.finish p (sayCompleted p.workshop u), g.merge values, order ++ [u.hash],
    .ok (Globals.returned values)⟩

def fail (s : Scheduler) (p : Passage) (u : GuestUnit) (e : RuntimeError) (g : Globals)
    (order : List Text) : Dispatched :=
  let p := p.advance .failed
  ⟨s.finish p (sayFailed p.workshop u e), g, order, .error e⟩

def dispatch (s : Scheduler) (u : GuestUnit) (g : Globals) (order : List Text) : Dispatched :=
  let o := Passage.travel ⟨s.workshop, .ofUnit u, []⟩ s.engine u
  match o.result with
  | .ok values => s.succeed o.state u values g order
  | .error e => s.fail o.state u e g order

def takeStdout (s : Scheduler) : Text × Scheduler := (s.stdout, { s with stdout := [] })

def takeRecords (s : Scheduler) : List UnitRecord × Scheduler :=
  (s.records, { s with records := [] })

end Scheduler
end Polyglot
