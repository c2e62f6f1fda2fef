import Polyglot.Engine
import Polyglot.Text.Classes

/-!
# Errors

Every error is a cause with the place where it arose. Its wording is in one
function, `message`, and so is the phase it belongs to.
-/
namespace Polyglot

structure UnknownTag where
  tag : Text
  line : Nat
  deriving DecidableEq

inductive Fault
  | codeOutsideSegment
  | unclosedFunction (name : Text)
  | callInBlock (name : Text)
  | unclosedCall (name : Text)
  deriving DecidableEq

structure LayoutError where
  fault : Fault
  line : Nat
  deriving DecidableEq

inductive SymbolKind
  | binding
  | function
  deriving DecidableEq

structure Redefinition where
  kind : SymbolKind
  name : Text
  line : Nat
  previous : Nat
  deriving DecidableEq

structure ArityError where
  name : Text
  expected : Nat
  actual : Nat
  line : Nat
  deriving DecidableEq

structure Undefined where
  name : Text
  line : Nat
  deriving DecidableEq

inductive RuntimeError
  | persist (path cause : Text)
  | launch (program unit cause : Text)
  | exit (unit status errors : Text)
  | missingResult (unit path cause : Text)
  | invalidResult (unit path cause : Text)
  | noInterpreter (language : Text)
  deriving DecidableEq

inductive EngineError
  | validation (tags : List UnknownTag)
  | layout (e : LayoutError)
  | redefinition (e : Redefinition)
  | arity (e : ArityError)
  | undefined (e : Undefined)
  | runtime (e : RuntimeError)
  deriving DecidableEq

inductive LoadError
  | entry (path cause : Text)
  | manifest (path cause : Text)
  deriving DecidableEq

inductive Failure
  | engine (e : EngineError)
  | load (e : LoadError)
  deriving DecidableEq

def quotedName (name : Text) : Text := ['\''] ++ name ++ ['\'']

def onLine (line : Nat) (said : Text) : Text := "line " ++ Text.decimal line ++ ": " ++ said

def UnknownTag.message (e : UnknownTag) : Text :=
  onLine e.line (quotedName e.tag ++ " is not a supported language")

def Fault.message : Fault → Text
  | codeOutsideSegment => "code outside of a language segment"
  | unclosedFunction name => "unclosed function " ++ quotedName name
  | callInBlock name =>
    "call to " ++ quotedName name ++ " must be a top-level statement to cross languages"
  | unclosedCall name => "argument list of " ++ quotedName name ++ " is not closed on its line"

def LayoutError.message (e : LayoutError) : Text := onLine e.line e.fault.message

def SymbolKind.name : SymbolKind → Text
  | binding => "variable"
  | function => "function"

def Redefinition.message (e : Redefinition) : Text :=
  onLine e.line (e.kind.name ++ " " ++ quotedName e.name ++ " is already defined (line "
    ++ Text.decimal e.previous ++ ")")

def ArityError.message (e : ArityError) : Text :=
  onLine e.line ("wrong number of arguments to " ++ quotedName e.name ++ ": expected "
    ++ Text.decimal e.expected ++ ", got " ++ Text.decimal e.actual)

def Undefined.message (e : Undefined) : Text :=
  onLine e.line ("global " ++ quotedName e.name ++ " has no value when generating the unit")

namespace RuntimeError

def errorsSuffix (errors : Text) : Text :=
  if (Text.trimEnd errors).isEmpty then [] else ":\n" ++ Text.trimEnd errors

def message : RuntimeError → Text
  | persist path cause => "cannot write " ++ quotedName path ++ ": " ++ cause
  | launch program unit cause =>
    "cannot launch " ++ quotedName program ++ " for unit " ++ unit ++ ": " ++ cause
  | exit unit status errors => "unit " ++ unit ++ " exited with " ++ status ++ errorsSuffix errors
  | missingResult unit path cause =>
    "result file " ++ quotedName path ++ " of unit " ++ unit ++ " is missing: " ++ cause
  | invalidResult unit path cause =>
    "result file " ++ quotedName path ++ " of unit " ++ unit ++ " is invalid: " ++ cause
  | noInterpreter language => "no interpreter configured for " ++ language

end RuntimeError

namespace EngineError

def message : EngineError → Text
  | validation tags =>
    "validation failed with " ++ Text.decimal tags.length ++ " error(s):"
      ++ tags.flatMap fun t => ['\n', ' ', ' '] ++ t.message
  | layout e => "structure error: " ++ e.message
  | redefinition e => "redefinition error: " ++ e.message
  | arity e => "arity error: " ++ e.message
  | undefined e => "undefined reference: " ++ e.message
  | runtime e => "runtime error: " ++ e.message

def line? : EngineError → Option Nat
  | validation tags => tags.head?.map (·.line)
  | layout e => some e.line
  | redefinition e => some e.line
  | arity e => some e.line
  | undefined e => some e.line
  | runtime _ => none

def phase : EngineError → Phase
  | validation _ => .segment
  | layout _ => .segment
  | redefinition _ => .analyze
  | arity _ => .resolve
  | undefined _ => .codegen
  | runtime _ => .run

def isCompile : EngineError → Bool
  | undefined _ => false
  | runtime _ => false
  | _ => true

def kindName : EngineError → Text
  | validation _ => "ValidationError"
  | layout _ => "StructureError"
  | redefinition _ => "RedefinitionError"
  | arity _ => "ArityError"
  | undefined _ => "UndefinedReferenceError"
  | runtime _ => "RuntimeError"

end EngineError

namespace LoadError

def path : LoadError → Text
  | entry path _ => path
  | manifest path _ => path

def message : LoadError → Text
  | entry path cause => "cannot read entry file " ++ quotedName path ++ ": " ++ cause
  | manifest path cause => "invalid manifest " ++ quotedName path ++ ": " ++ cause

def kindName : LoadError → Text
  | entry _ _ => "EntryFileError"
  | manifest _ _ => "ManifestError"

end LoadError

namespace Failure

def message : Failure → Text
  | engine e => e.message
  | load e => e.message

def line? : Failure → Option Nat
  | engine e => e.line?
  | load _ => none

def phaseName : Failure → Text
  | engine e => e.phase.name
  | load _ => "load"

def isCompile : Failure → Bool
  | engine e => e.isCompile
  | load _ => true

def kindName : Failure → Text
  | engine e => e.kindName
  | load e => e.kindName

end Failure
end Polyglot
