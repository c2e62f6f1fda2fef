import Polyglot.Error
import Polyglot.Value.Basic

/-!
# Error reports

An error for people and for tools: where and in which phase it arose, its kind, its
message, and what else is known about it.
-/
namespace Polyglot

inductive ReportDetails
  | tags (tags : List UnknownTag)
  | previous (line : Nat)
  | unit (hash errors : Text)
  | file (path : Text)

structure Report where
  phase : Text
  line : Option Nat
  kind : Text
  message : Text
  details : Option ReportDetails

namespace ReportDetails

def number (n : Nat) : Value := .number (Text.decimal n)

def members : ReportDetails → List (Text × Value)
  | tags ts =>
    [("type", .string "tags"), ("tags", .array (ts.map fun t => .string t.tag)),
      ("lines", .array (ts.map fun t => number t.line))]
  | previous line => [("type", .string "previous"), ("line", number line)]
  | unit hash errors =>
    [("type", .string "unit"), ("unit", .string hash), ("stderr", .string errors)]
  | file path => [("type", .string "file"), ("path", .string path)]

def value (d : ReportDetails) : Value := .object d.members

def ofEngine? : EngineError → Option ReportDetails
  | .validation ts => some (.tags ts)
  | .redefinition e => some (.previous e.previous)
  | .runtime (.exit hash _ errors) => some (.unit hash errors)
  | _ => none

def ofFailure? : Failure → Option ReportDetails
  | .engine e => ofEngine? e
  | .load e => some (.file e.path)

end ReportDetails

namespace Report

def ofFailure (f : Failure) : Report where
  phase := f.phaseName
  line := f.line?
  kind := f.kindName
  message := f.message
  details := ReportDetails.ofFailure? f

def lineValue : Option Nat → Value
  | some n => ReportDetails.number n
  | none => .null

def detailMembers : Option ReportDetails → List (Text × Value)
  | some d => [("details", d.value)]
  | none => []

def mainMembers (r : Report) : List (Text × Value) :=
  [("phase", .string r.phase), ("line", lineValue r.line), ("error_kind", .string r.kind),
    ("message", .string r.message)]

def value (r : Report) : Value := .object (r.mainMembers ++ detailMembers r.details)

def json (r : Report) : Text := r.value.json

def place (r : Report) : Text :=
  match r.line with
  | some n => "[line " ++ Text.decimal n ++ "] " ++ r.phase
  | none => "[" ++ r.phase ++ "]"

def render (r : Report) : Text := r.place ++ " error: " ++ r.message

def short (r : Report) : Text := r.phase ++ ": " ++ r.message

end Report
end Polyglot
