import Polyglot.Analysis
import Polyglot.Catalog
import Polyglot.Function
import Polyglot.Token

/-!
# Calls and plans

A call head is a known function's name with its opening bracket right behind it,
neither a method name nor the name in a definition. `onLine` finds the outermost
calls of a line, left to right; a call in another's arguments travels with it. The
calls of a text lead to further functions of its language.

A plan is how a segment runs. Without calls into other segments it is one unit;
otherwise it is split into blocks of code and lines that call. A line that calls must
be a statement of its own at the top level.
-/
namespace Polyglot

/-- `start` and `stop` are the bytes of the line that the whole call takes up. -/
structure CallSite where
  callee : Text
  args : List Text
  start : Nat
  stop : Nat
  line : Nat
  deriving DecidableEq

namespace CallSite
open Token

def follows (l : Language) (previous : Option Token) : Bool :=
  match previous with
  | some p => !p.isPunct '.' && !p.isWord l.functionWord
  | none => true

def isBracketOf (t : Token) (r : List Token) : Bool :=
  r.head?.any fun p => p.isPunct '(' && p.start == t.stop

def isHead (l : Language) (known : Text → Bool) (previous : Option Token) (t : Token)
    (r : List Token) : Bool :=
  t.isIdent && isBracketOf t r && known t.text && follows l previous

def argument (line : Text) (part : List Token) : Option Text :=
  if part.isEmpty then none else some (spanText line part)

def arguments (line : Text) (inner : List Token) : List Text :=
  (splitTopLevel ',' inner).filterMap (argument line)

/-- The call that begins with `t`, where `r` is what follows `t` and holds the
closing bracket at index `i`. -/
def ofHead (line : Text) (number : Nat) (t : Token) (r : List Token) (i : Nat) : CallSite where
  callee := t.text
  args := arguments line ((r.take i).drop 1)
  start := t.start
  stop := (r[i]?.map Token.stop).getD t.stop
  line := number

/-- The first `skip` tokens belong to a call that is already found. -/
def scan (l : Language) (known : Text → Bool) (line : Text) (number : Nat) :
    (skip : Nat) → (previous : Option Token) → List Token → Except LayoutError (List CallSite)
  | _, _, [] => .ok []
  | skip + 1, _, t :: r => scan l known line number skip (some t) r
  | 0, previous, t :: r =>
    if isHead l known previous t r then
      match closeFrom 0 r with
      | none => .error ⟨.unclosedCall t.text, number⟩
      | some i =>
        (scan l known line number (i + 1) (some t) r).map (ofHead line number t r i :: ·)
    else scan l known line number 0 (some t) r

def knows (functions : FunctionTable) (own : List Text) (name : Text) : Bool :=
  functions.contains name && !own.contains name

def onLine (l : Language) (functions : FunctionTable) (own : List Text) (number : Nat)
    (line : Text) : Except LayoutError (List CallSite) :=
  scan l (knows functions own) line number 0 none (tokenize l line)

def heads (l : Language) (known : Text → Bool) : Option Token → List Token → List Text
  | _, [] => []
  | previous, t :: r =>
    if isHead l known previous t r then t.text :: heads l known (some t) r
    else heads l known (some t) r

end CallSite
end Polyglot

namespace Polyglot.FunctionTable

def isIn (t : FunctionTable) (l : Language) (name : Text) : Bool :=
  (t.find? name).any (·.language == l)

def headsIn (t : FunctionTable) (l : Language) (text : Text) : List Text :=
  (Text.splitOn '\n' text).flatMap fun line =>
    CallSite.heads l (CallSite.knows t []) none (Token.tokenize l line)

def referenced (t : FunctionTable) (l : Language) (text : Text) : List Text :=
  Names.distinct ((t.headsIn l text).filter (t.isIn l))

def callsAny (t : FunctionTable) (l : Language) (reached : List FunctionDef) (name : Text) : Bool :=
  reached.any fun g => (t.referenced l g.source).contains name

def rooted (t : FunctionTable) (l : Language) (roots : List Text) : List FunctionDef :=
  t.items.filter fun f => f.language == l && roots.contains f.name

def widen (t : FunctionTable) (l : Language) (reached : List FunctionDef) : List FunctionDef :=
  t.items.filter fun f =>
    f.language == l && (reached.contains f || t.callsAny l reached f.name)

def reachIn (t : FunctionTable) (l : Language) : Nat → List FunctionDef → List FunctionDef
  | 0, reached => reached
  | n + 1, reached => t.reachIn l n (t.widen l reached)

/-- All functions of language `l` that calls from the roots lead to. Each step that
adds anything adds a function, so as many steps as there are functions suffice. -/
def closure (t : FunctionTable) (l : Language) (roots : List Text) : List FunctionDef :=
  t.reachIn l t.items.length (t.rooted l roots)

end Polyglot.FunctionTable

namespace Polyglot

inductive Block
  | code (text : Text) (firstLine : Nat) (bound : List Text)
  | call (text : Text) (line : Nat) (calls : List CallSite) (bound : List Text)
  deriving DecidableEq

namespace Block

def bound : Block → List Text
  | code _ _ bound => bound
  | call _ _ _ bound => bound

def firstLine : Block → Nat
  | code _ line _ => line
  | call _ line _ _ => line

def calls : Block → List CallSite
  | code _ _ _ => []
  | call _ _ calls _ => calls

def isCall : Block → Bool
  | code _ _ _ => false
  | call _ _ _ _ => true

end Block

/-- `own` names the functions that the segment defines itself. -/
inductive Plan
  | simple
  | split (blocks : List Block) (own : List Text)
  deriving DecidableEq

namespace Plan

def blocks : Plan → List Block
  | simple => []
  | split blocks _ => blocks

def callCount (p : Plan) : Nat := p.blocks.foldr (fun b n => b.calls.length + n) 0

def checkArity (functions : FunctionTable) (c : CallSite) : Except EngineError Unit :=
  match functions.find? c.callee with
  | none => .ok ()
  | some f =>
    if f.arity = c.args.length then .ok ()
    else .error (.arity ⟨c.callee, f.arity, c.args.length, c.line⟩)

def checkArities (functions : FunctionTable) : List CallSite → Except EngineError Unit
  | [] => .ok ()
  | c :: r =>
    match checkArity functions c with
    | .ok () => checkArities functions r
    | .error e => .error e

def flush (a : Analysis) (pending : List Line) : List Block :=
  match pending.head?, pending.getLast? with
  | some first, some last =>
    if pending.all (fun line => Text.allBlank line.text) then []
    else [.code (Text.unlines (pending.map (·.text))) first.number
      (a.boundBetween first.number last.number)]
  | _, _ => []

def callBlock (a : Analysis) (line : Line) (calls : List CallSite) : Block :=
  .call line.text line.number calls (a.boundBetween line.number line.number)

def callsOf (l : Language) (functions : FunctionTable) (own : List Text) (p : Line × Role) :
    Except EngineError (List CallSite) :=
  match CallSite.onLine l functions own p.1.number p.1.text with
  | .error e => .error (.layout e)
  | .ok [] => .ok []
  | .ok (c :: cs) =>
    if p.2 != .topLevel || p.1.opensBlock l then
      .error (.layout ⟨.callInBlock c.callee, p.1.number⟩)
    else
      match checkArities functions (c :: cs) with
      | .ok () => .ok (c :: cs)
      | .error e => .error e

/-- Imports and function bodies are left out: every unit of the segment repeats them. -/
def blocksFrom (l : Language) (functions : FunctionTable) (own : List Text) (a : Analysis) :
    (pending : List Line) → List (Line × Role) → Except EngineError (List Block)
  | pending, [] => .ok (flush a pending)
  | pending, p :: r =>
    if Analysis.isImport l p then blocksFrom l functions own a pending r
    else
      match callsOf l functions own p with
      | .error e => .error e
      | .ok [] =>
        if p.2 = .inFunction then blocksFrom l functions own a pending r
        else blocksFrom l functions own a (pending ++ [p.1]) r
      | .ok calls =>
        (blocksFrom l functions own a [] r).map fun rest =>
          flush a pending ++ callBlock a p.1 calls :: rest

def ownNames (functions : FunctionTable) (s : Segment) : List Text :=
  (FunctionTable.inSegment functions s.ordinal).map (·.name)

def ofBlocks (own : List Text) (blocks : List Block) : Plan :=
  if blocks.any Block.isCall then .split blocks own else .simple

def ofSegment (functions : FunctionTable) (s : Segment) (a : Analysis) : Except EngineError Plan :=
  (blocksFrom s.language functions (ownNames functions s) a [] a.lines).map
    (ofBlocks (ownNames functions s))

end Plan
end Polyglot
