import Polyglot.Catalog
import Polyglot.Function
import Polyglot.Token

/-!
# Analysis of a segment

The bindings, imports and functions of one segment. Only top-level lines bind and
import. A line may hold several statements, a declaration several declarators, a
plain assignment several targets. Lines with imports are kept, since every unit made
from the segment repeats them.
-/
namespace Polyglot

structure Binding where
  name : Text
  expression : Text
  line : Nat
  deriving DecidableEq

namespace Binding
open Token

def declarationWords : List Text := ["let", "var", "const"]

def assigns : List Token → Bool
  | [] => false
  | [t] => t.isPunct '='
  | t :: n :: _ =>
    t.isPunct '=' && !(n.start == t.stop && (n.isPunct '=' || n.isPunct '>'))

def declarator (line : Text) (number : Nat) : List Token → Option Binding
  | [] => none
  | name :: rest =>
    if name.isIdent && assigns rest && !(spanText line (rest.drop 1)).isEmpty then
      some ⟨name.text, spanText line (rest.drop 1), number⟩
    else none

def ofDeclaration (line : Text) (number : Nat) : List Token → List Binding
  | [] => []
  | word :: rest =>
    if word.isIdent && declarationWords.contains word.text then
      (splitTopLevel ',' rest).filterMap (declarator line number)
    else []

def targets : List Token → List Text × List Token
  | name :: eq :: rest =>
    if name.isIdent && !Language.python.isReserved name.text && assigns (eq :: rest) then
      (name.text :: (targets rest).1, (targets rest).2)
    else ([], name :: eq :: rest)
  | ts => ([], ts)

def ofAssignment (line : Text) (number : Nat) (ts : List Token) : List Binding :=
  let value := spanText line (targets ts).2
  if value.isEmpty then [] else (targets ts).1.map fun name => ⟨name, value, number⟩

def ofStatement (l : Language) (line : Text) (number : Nat) (ts : List Token) : List Binding :=
  match l with
  | .javascript => ofDeclaration line number ts
  | .python => ofAssignment line number ts

def ofTokens (l : Language) (line : Text) (number : Nat) (ts : List Token) : List Binding :=
  (splitTopLevel ';' (code ts)).flatMap (ofStatement l line number)

end Binding

structure Import where
  line : Nat
  text : Text
  deriving DecidableEq

structure Analysis where
  lines : List (Line × Role)
  bindings : List Binding
  functions : List FunctionDef
  imports : List Import

namespace Line
open Token

def isWordAt (ts : List Token) (word : Text) : Bool := ts.head?.any (isWord word)

def isParenAt (ts : List Token) : Bool := ts.head?.any (isPunct '(')

def requiresModule (ts : List Token) : Bool :=
  let value := (ts.dropWhile (!isPunct '=' ·)).drop 1
  isWordAt value "require" && isParenAt (value.drop 1)

def importsIn (l : Language) (ts : List Token) : Bool :=
  match l with
  | .javascript =>
    if isWordAt ts "import" then !isParenAt (ts.drop 1)
    else if isWordAt ts "require" then isParenAt (ts.drop 1)
    else ts.head?.any (fun t => t.isIdent && Binding.declarationWords.contains t.text)
      && requiresModule ts
  | .python =>
    isWordAt ts "import" || (isWordAt ts "from" && ts.any (isWord "import"))

def imports (l : Language) (line : Line) : Bool := importsIn l (code line.tokens)

def opensBlock (l : Language) (line : Line) : Bool :=
  match l with
  | .javascript => closeBraces line.tokens < openBraces line.tokens
  | .python => (code line.tokens).getLast?.any (isPunct ':')

end Line

namespace Analysis

def isImport (l : Language) (p : Line × Role) : Bool := p.2 == .topLevel && p.1.imports l

def importOf (l : Language) (p : Line × Role) : Option Import :=
  if isImport l p then some ⟨p.1.number, Text.trimEnd p.1.text⟩ else none

def bindingsOf (l : Language) (p : Line × Role) : List Binding :=
  if p.2 == .topLevel && !isImport l p then Binding.ofTokens l p.1.text p.1.number p.1.tokens
  else []

def sourceBetween (ls : List (Line × Role)) (first last : Nat) : Text :=
  Text.unlines ((ls.filter fun p => first ≤ p.1.number && p.1.number ≤ last).map (·.1.text))

def functionOf (s : Segment) (ls : List (Line × Role)) (e : Extent) : FunctionDef where
  name := e.header.name
  language := s.language
  params := e.header.params
  source := sourceBetween ls e.header.line e.last
  segment := s.ordinal
  line := e.header.line

def ofLayout (s : Segment) (y : Layout) : Analysis where
  lines := y.lines
  bindings := y.lines.flatMap (bindingsOf s.language)
  functions := y.extents.map (functionOf s y.lines)
  imports := y.lines.filterMap (importOf s.language)

def ofSegment (s : Segment) : Except LayoutError Analysis :=
  (Layout.ofLines s.language s.lines).map (ofLayout s)

def bound (a : Analysis) : List Text := Names.distinct (a.bindings.map (·.name))

def boundBetween (a : Analysis) (first last : Nat) : List Text :=
  Names.distinct
    ((a.bindings.filter fun b => first ≤ b.line && b.line ≤ last).map (·.name))

def latest (bs : List Binding) : List Binding :=
  bs.foldl (fun out b => Catalog.putIn Binding.name b out) []

def bindingsBefore (a : Analysis) (line : Nat) : List Binding :=
  latest (a.bindings.filter (·.line < line))

def importSource (a : Analysis) : Text := Text.unlines (a.imports.map (·.text))

end Analysis
end Polyglot
