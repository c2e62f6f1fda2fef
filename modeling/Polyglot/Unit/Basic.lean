import Polyglot.Digest
import Polyglot.Engine
import Polyglot.Value.Reader

/-!
# Units

A unit is one generated program. It is named by the digest of its own text, so
the same text always lands in the same scratch file. Its parts stand in a fixed order:
imports, a declaration for each global, declarations carried over from the same
segment, functions, the guest code, and the closing code that writes the tracked names
next to the running script. Empty parts leave no line.
-/
namespace Polyglot

inductive UnitKind
  | segment
  | continuation
  | invocation
  deriving DecidableEq, Repr

namespace UnitKind

def suffix : UnitKind → Text
  | segment => "seg"
  | continuation => "cont"
  | invocation => "call"

def name : UnitKind → Text
  | segment => "segment"
  | continuation => "continuation"
  | invocation => "invocation"

end UnitKind

inductive UnitState
  | pending
  | written
  | running
  | completed
  | failed
  deriving DecidableEq, Repr

namespace UnitState

def name : UnitState → Text
  | pending => "pending"
  | written => "written"
  | running => "running"
  | completed => "completed"
  | failed => "failed"

def title : UnitState → Text
  | pending => "Pending"
  | written => "Written"
  | running => "Running"
  | completed => "Completed"
  | failed => "Failed"

def canAdvance : UnitState → UnitState → Bool
  | pending, written => true
  | pending, failed => true
  | written, running => true
  | written, failed => true
  | running, completed => true
  | running, failed => true
  | _, _ => false

def isTerminal : UnitState → Bool
  | completed => true
  | failed => true
  | _ => false

end UnitState

structure PendingCall where
  callee : Text
  line : Nat
  deriving DecidableEq

/-- `tracked` lists the names that the unit writes to its result file. -/
structure GuestUnit where
  language : Language
  kind : UnitKind
  source : Text
  tracked : List Text
  firstLine : Nat
  pendingCall : Option PendingCall
  deriving DecidableEq

namespace GuestUnit

def shortLength : Nat := 12

def shorten (hash : Text) : Text :=
  let start := Text.takeBytes shortLength hash
  if Text.size start = shortLength then start else hash

def hash (u : GuestUnit) : Text := Digest.hex u.source

def stem (u : GuestUnit) : Text := u.hash ++ ['.'] ++ u.kind.suffix

def shortHash (u : GuestUnit) : Text := shorten u.hash

end GuestUnit
end Polyglot

namespace Polyglot.Language

def declare (l : Language) (name value : Text) : Text :=
  match l with
  | javascript => "var " ++ name ++ " = " ++ value ++ ";"
  | python => name ++ " = " ++ value

def capture (l : Language) (call : Text) : Text := l.declare Globals.returnKey call

def writeBackLine (name : Text) : Text :=
  "  if (typeof " ++ name ++ " !== 'undefined') __mixl_out['" ++ name ++ "'] = " ++ name ++ ";\n"

def postamble (l : Language) (names : List Text) : Text :=
  match l with
  | javascript =>
    ";(function () \x7b\n  var __mixl_out = \x7b\x7d;\n" ++ names.flatMap writeBackLine
      ++ "  require('fs').writeFileSync(__filename.replace(/\\.[^.]+$/, '.json'), JSON.stringify(__mixl_out));\n"
      ++ "\x7d)();"
  | python =>
    "import json as __mixl_json\n"
      ++ "import os as __mixl_os\n"
      ++ "__mixl_out = \x7b\x7d\n"
      ++ "for __mixl_name in [" ++ Text.joinWith ", " (names.map fun n => ['\''] ++ n ++ ['\'']) ++ "]:\n"
      ++ "    if __mixl_name in globals() and not callable(globals()[__mixl_name]):\n"
      ++ "        __mixl_out[__mixl_name] = globals()[__mixl_name]\n"
      ++ "with open(__mixl_os.path.splitext(__mixl_os.path.abspath(__file__))[0] + '.json', 'w') as __mixl_file:\n"
      ++ "    __mixl_json.dump(__mixl_out, __mixl_file, default=str)"

end Polyglot.Language

namespace Polyglot

structure Draft where
  imports : Text := []
  preamble : Text := []
  carried : Text := []
  definitions : Text := []
  body : Text := []
  postamble : Text := []

namespace Draft

def assemble (parts : List Text) : Text :=
  Text.unlines (parts.filter (!·.isEmpty)) ++ ['\n']

def text (d : Draft) : Text :=
  assemble [d.imports, d.preamble, d.carried, d.definitions, d.body, d.postamble]

def unit (d : Draft) (l : Language) (kind : UnitKind) (tracked : List Text) (line : Nat) :
    GuestUnit :=
  ⟨l, kind, d.text, tracked, line, none⟩

end Draft

namespace Language

def declarable (l : Language) (skip names : List Text) : List Text :=
  -- A language that declares once leaves the names in `skip` to the guest code.
  names.filter fun n => !(l.declaresOnce && skip.contains n)

def declareAll (l : Language) (value : Text → Text) (names : List Text) : Text :=
  Text.unlines (names.map fun n => l.declare n (value n))

end Language

namespace Globals

def rendered (g : Globals) (l : Language) (name : Text) : Text :=
  match g.value? name with
  | some v => v.render l
  | none => l.nullWord

def preamble (g : Globals) (l : Language) (skip : List Text) : Text :=
  l.declareAll (g.rendered l) (l.declarable skip (g.visible l))

end Globals
end Polyglot
