import Polyglot.Catalog
import Polyglot.Error
import Polyglot.Segment
import Polyglot.Token

/-!
# Functions

Which lines of a segment belong to function definitions. Braces and indentation
each have a tracker: a state, fed one line at a time, that gives the line's role
and the function, if any, whose last line is now known. Functions are kept by name,
beside the ledger of top-level bindings. A function name can be taken once. A
binding of a language that declares only once must be new; in the other language a
later binding takes the place of the earlier one.
-/
namespace Polyglot

inductive Role
  | topLevel
  | nested
  | inFunction
  deriving DecidableEq, Repr

structure Header where
  name : Text
  params : List Text
  line : Nat
  deriving DecidableEq

structure Extent where
  header : Header
  last : Nat
  deriving DecidableEq

namespace Header
open Token

def paramName (part : List Token) : Option Text := (part.find? isIdent).map (·.text)

def paramNames (ts : List Token) : List Text :=
  (splitTopLevel ',' (match closeFrom 1 ts with
    | some i => ts.take i
    | none => ts)).filterMap paramName

def skipAsync : List Token → List Token
  | t :: r => if t.text == ("async" : Text) then r else t :: r
  | [] => []

def introducer (l : Language) (ts : List Token) : Option (Text × List Text) :=
  match skipAsync ts with
  | word :: name :: paren :: rest =>
    if word.isWord l.functionWord && name.isIdent && paren.isPunct '(' then
      some (name.text, paramNames rest)
    else none
  | _ => none

def ofLine? (l : Language) (line : Line) : Option Header :=
  (introducer l line.tokens).map fun p => ⟨p.1, p.2, line.number⟩

end Header

/-- What a tracker says of one line. -/
structure Step (σ : Type) where
  next : σ
  role : Role
  done : Option Extent

namespace Braces

/-- Outside functions, the depth counts the blocks that are open. -/
inductive State
  | outside (depth : Nat)
  | awaiting (header : Header)
  | inside (header : Header) (depth : Nat)

def enter (h : Header) (line : Line) : Step State :=
  let opened := Token.openBraces line.tokens
  let closed := Token.closeBraces line.tokens
  if opened = 0 then ⟨.awaiting h, .inFunction, none⟩
  else if opened ≤ closed then ⟨.outside 0, .inFunction, some ⟨h, line.number⟩⟩
  else ⟨.inside h (opened - closed), .inFunction, none⟩

def pass (depth : Nat) (line : Line) : Step State :=
  ⟨.outside (depth + Token.openBraces line.tokens - Token.closeBraces line.tokens),
    if depth = 0 then .topLevel else .nested, none⟩

def step (s : State) (line : Line) : Step State :=
  match s with
  | .outside 0 =>
    match Header.ofLine? .javascript line with
    | some h => enter h line
    | none => pass 0 line
  | .outside depth => pass depth line
  | .awaiting h => enter h line
  | .inside h depth =>
    if depth + Token.openBraces line.tokens ≤ Token.closeBraces line.tokens then
      ⟨.outside 0, .inFunction, some ⟨h, line.number⟩⟩
    else
      ⟨.inside h (depth + Token.openBraces line.tokens - Token.closeBraces line.tokens),
        .inFunction, none⟩

def finish : State → Except LayoutError (Option Extent)
  | .outside _ => .ok none
  | .awaiting h => .error ⟨.unclosedFunction h.name, h.line⟩
  | .inside h _ => .error ⟨.unclosedFunction h.name, h.line⟩

end Braces

namespace Indents

/-- Inside a function: the indent of its first line and its last live line so far. -/
inductive State
  | outside
  | awaiting (header : Header)
  | inside (header : Header) (indent last : Nat)

def pass (line : Line) (done : Option Extent) : Step State :=
  if Token.indent line.text = 0 then
    match Header.ofLine? .python line with
    | some h => ⟨.awaiting h, .inFunction, done⟩
    | none => ⟨.outside, .topLevel, done⟩
  else ⟨.outside, .nested, done⟩

def step (s : State) (line : Line) : Step State :=
  if Token.isDead line.tokens then
    match s with
    | .outside => ⟨.outside, .topLevel, none⟩
    | s => ⟨s, .inFunction, none⟩
  else
    match s with
    | .outside => pass line none
    | .awaiting h =>
      if Token.indent line.text = 0 then pass line (some ⟨h, h.line⟩)
      else ⟨.inside h (Token.indent line.text) line.number, .inFunction, none⟩
    | .inside h indent last =>
      if indent ≤ Token.indent line.text then ⟨.inside h indent line.number, .inFunction, none⟩
      else pass line (some ⟨h, last⟩)

def finish : State → Except LayoutError (Option Extent)
  | .outside => .ok none
  | .awaiting h => .ok (some ⟨h, h.line⟩)
  | .inside h _ last => .ok (some ⟨h, last⟩)

end Indents

structure Layout where
  lines : List (Line × Role)
  extents : List Extent

namespace Layout

def roles {σ : Type} (step : σ → Line → Step σ) : σ → List Line → List (Line × Role)
  | _, [] => []
  | s, line :: r => (line, (step s line).role) :: roles step (step s line).next r

def completed {σ : Type} (step : σ → Line → Step σ) : σ → List Line → List Extent
  | _, [] => []
  | s, line :: r => (step s line).done.toList ++ completed step (step s line).next r

def final {σ : Type} (step : σ → Line → Step σ) (s : σ) (ls : List Line) : σ :=
  ls.foldl (fun s line => (step s line).next) s

def track {σ : Type} (step : σ → Line → Step σ) (finish : σ → Except LayoutError (Option Extent))
    (s : σ) (ls : List Line) : Except LayoutError Layout :=
  (finish (final step s ls)).map fun e => ⟨roles step s ls, completed step s ls ++ e.toList⟩

def ofLines (l : Language) (ls : List Line) : Except LayoutError Layout :=
  match l with
  | .javascript => track Braces.step Braces.finish (.outside 0) ls
  | .python => track Indents.step Indents.finish .outside ls

end Layout

/-- `source` runs from the introducing line to the last line of the body. -/
structure FunctionDef where
  name : Text
  language : Language
  params : List Text
  source : Text
  segment : Nat
  line : Nat
  deriving DecidableEq

def FunctionDef.arity (f : FunctionDef) : Nat := f.params.length

abbrev FunctionTable := Catalog FunctionDef FunctionDef.name

namespace FunctionTable

def define (t : FunctionTable) (f : FunctionDef) : Except Redefinition FunctionTable :=
  match t.find? f.name with
  | some previous => .error ⟨.function, f.name, f.line, previous.line⟩
  | none => .ok (t.put f)

def inSegment (t : FunctionTable) (ordinal : Nat) : List FunctionDef :=
  t.items.filter (·.segment == ordinal)

end FunctionTable

structure Declaration where
  name : Text
  expression : Text
  language : Language
  segment : Nat
  line : Nat
  deriving DecidableEq

abbrev Declarations := Catalog Declaration Declaration.name

namespace Declarations

def declare (t : Declarations) (d : Declaration) : Except Redefinition Declarations :=
  match t.find? d.name with
  | some previous =>
    if d.language.declaresOnce then .error ⟨.binding, d.name, d.line, previous.line⟩
    else .ok (t.put d)
  | none => .ok (t.put d)

end Declarations
end Polyglot
