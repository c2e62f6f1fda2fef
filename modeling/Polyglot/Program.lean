import Polyglot.Engine
import Polyglot.Plan

/-!
# Programs

A source compiles in three stages over the whole file: it is cut into segments,
each segment is analyzed and its symbols are entered, and then each segment is
planned against the complete function table. The first error ends the stage, so a
program that compiled has a plan for every segment.

The time spent in each phase is kept in microseconds, in the order in which the phases
were first recorded. Nothing in this library measures: a phase that ran without a
clock is recorded with no time. Times are shown in milliseconds, by way of seconds
of 53 binary digits. Sums and products are taken exactly and rounded once, a half to
the even neighbour, so a chain of them keeps the small errors of such arithmetic.
-/
namespace Polyglot

structure Fraction where
  num : Nat
  den : Nat
  deriving DecidableEq

namespace Fraction

def nearest (p q : Nat) : Nat :=
  if 2 * (p % q) < q then p / q
  else if q < 2 * (p % q) then p / q + 1
  else p / q + p / q % 2

def digits : Nat := 53

def shift (x : Fraction) : Nat :=
  if 1 <<< digits ≤ (x.num <<< (digits + x.den.log2)) / (x.den <<< x.num.log2) then
    x.num.log2 + 1
  else x.num.log2

def rounded (x : Fraction) : Fraction :=
  ⟨nearest (x.num <<< (digits + x.den.log2)) (x.den <<< x.shift) <<< x.shift,
    1 <<< (digits + x.den.log2)⟩

def plus (x : Fraction) (n : Nat) : Fraction := rounded ⟨n * x.den + x.num, x.den⟩

def times (x : Fraction) (n : Nat) : Fraction := rounded ⟨x.num * n, x.den⟩

def thousandths (x : Fraction) : Nat := nearest (x.num * 1000) x.den

end Fraction

def secondsOf (us : Nat) : Fraction :=
  (Fraction.rounded ⟨us % 1000000 * 1000, 1000000000⟩).plus (us / 1000000)

def millisecondsOf (us : Nat) : Fraction := (secondsOf us).times 1000

structure Timings where
  entries : List (Phase × Nat)

namespace Timings

def empty : Timings := ⟨[]⟩

def addIn (p : Phase) (us : Nat) : List (Phase × Nat) → List (Phase × Nat)
  | [] => [(p, us)]
  | e :: r => if e.1 = p then (p, e.2 + us) :: r else e :: addIn p us r

def add (t : Timings) (p : Phase) (us : Nat) : Timings := ⟨addIn p us t.entries⟩

def get? (t : Timings) (p : Phase) : Option Nat := (t.entries.find? (·.1 == p)).map (·.2)

def totalOf (es : List (Phase × Nat)) : Nat := es.foldr (fun e us => e.2 + us) 0

def total (t : Timings) : Nat := totalOf t.entries

def unmeasured (ps : List Phase) : Timings := ps.foldl (fun t p => t.add p 0) empty

end Timings

structure Part where
  segment : Segment
  analysis : Analysis
  plan : Plan

structure Program where
  parts : List Part
  warnings : List SegmentWarning
  declarations : Declarations
  functions : FunctionTable

namespace Program

def declarationOf (s : Segment) (b : Binding) : Declaration :=
  ⟨b.name, b.expression, s.language, s.ordinal, b.line⟩

def declareAll (s : Segment) : Declarations → List Binding → Except Redefinition Declarations
  | t, [] => .ok t
  | t, b :: r =>
    match t.declare (declarationOf s b) with
    | .ok t => declareAll s t r
    | .error e => .error e

def defineAll : FunctionTable → List FunctionDef → Except Redefinition FunctionTable
  | t, [] => .ok t
  | t, f :: r =>
    match t.define f with
    | .ok t => defineAll t r
    | .error e => .error e

structure Symbols where
  analyzed : List (Segment × Analysis)
  declarations : Declarations
  functions : FunctionTable

def Symbols.none : Symbols := ⟨[], Catalog.empty, Catalog.empty⟩

def enter (t : Symbols) (s : Segment) (a : Analysis) : Except Redefinition Symbols :=
  -- A segment enters its bindings first and its functions after them.
  match declareAll s t.declarations a.bindings with
  | .error e => .error e
  | .ok declarations =>
    match defineAll t.functions a.functions with
    | .error e => .error e
    | .ok functions => .ok ⟨t.analyzed ++ [(s, a)], declarations, functions⟩

def analyzeAll : Symbols → List Segment → Except EngineError Symbols
  | t, [] => .ok t
  | t, s :: r =>
    match Analysis.ofSegment s with
    | .error e => .error (.layout e)
    | .ok a =>
      match enter t s a with
      | .error e => .error (.redefinition e)
      | .ok t => analyzeAll t r

def planAll (functions : FunctionTable) : List (Segment × Analysis) → Except EngineError (List Part)
  | [] => .ok []
  | (s, a) :: r =>
    match Plan.ofSegment functions s a with
    | .error e => .error e
    | .ok p => (planAll functions r).map (⟨s, a, p⟩ :: ·)

def ofSymbols (warnings : List SegmentWarning) (t : Symbols) : Except EngineError Program :=
  (planAll t.functions t.analyzed).map fun parts => ⟨parts, warnings, t.declarations, t.functions⟩

def ofSegmentation (s : Segmentation) : Except EngineError Program :=
  match analyzeAll Symbols.none s.segments with
  | .error e => .error e
  | .ok t => ofSymbols s.warnings t

def compile (e : Engine) (source : Text) : Except EngineError Program :=
  match Segmentation.ofSource e source with
  | .error err => .error err
  | .ok s => ofSegmentation s

def compileTimes : Timings := .unmeasured [.segment, .analyze, .resolve]

end Program

structure SegmentSummary where
  ordinal : Nat
  tag : Text
  language : Language
  firstLine : Nat
  lineCount : Nat
  calls : Nat

structure Summary where
  segments : List SegmentSummary
  functions : List FunctionDef
  globals : List Text
  warnings : List Text

namespace Summary

def ofPart (p : Part) : SegmentSummary where
  ordinal := p.segment.ordinal
  tag := p.segment.tag
  language := p.segment.language
  firstLine := p.segment.firstLine
  lineCount := (Text.lines p.segment.source).length
  calls := p.plan.callCount

def ofProgram (p : Program) : Summary where
  segments := p.parts.map ofPart
  functions := p.functions.items
  globals := p.declarations.names
  warnings := p.warnings.map (·.message)

def ofSource (e : Engine) (source : Text) : Except EngineError Summary :=
  (Program.compile e source).map ofProgram

end Summary
end Polyglot
