import Polyglot.Plan
import Polyglot.Text.Basic
import Polyglot.Text.Classes
import Polyglot.Token
import Polyglot.Unit.Basic

/-!
# Generated units

A whole segment as one unit; a call into another language as a unit of the
callee's language, in whose arguments the words for true, false and nothing change;
and a calling line, continued with the values that came back.

The code blocks of a split segment are generated before the segment runs, with
placeholders where values will stand: a mark followed by a name, as a word of its own.
Filling replaces each of them in one pass with the values of the globals at that time;
what is put in is not looked at again. A name that never reached a result file is
declared again from the expression that the segment bound it to.
-/
namespace Polyglot.Placeholder

def mark : Text := "PLACEHOLDER_"

def ofName (name : Text) : Text := mark ++ name

def isWordChar (c : Char) : Bool := Text.isAlphanumeric c || c == '_' || c == '$'

def nameAt (t : Text) : Text :=
  if mark.isPrefixOf t then (t.drop mark.length).takeWhile isWordChar else []

/-- `previous` is the character before; the first `skip` characters belong to a
placeholder that is already filled. -/
def fillFrom {m : Type → Type} [Monad m] (lookup : Text → m Text) :
    (skip : Nat) → (previous : Option Char) → Text → m Text
  | _, _, [] => pure []
  | skip + 1, _, c :: r => fillFrom lookup skip (some c) r
  | 0, previous, c :: r =>
    let name := nameAt (c :: r)
    if name.isEmpty || previous.any isWordChar then do
      let rest ← fillFrom lookup 0 (some c) r
      pure (c :: rest)
    else do
      let value ← lookup name
      let rest ← fillFrom lookup (mark.length + name.length - 1) (some c) r
      pure (value ++ rest)

def fill {m : Type → Type} [Monad m] (lookup : Text → m Text) (t : Text) : m Text :=
  fillFrom lookup 0 none t

end Polyglot.Placeholder

namespace Polyglot.Language

def undefinedWord : Text := "undefined"

def counterpart? (source target : Language) (word : Text) : Option Text :=
  if word = source.trueWord then some target.trueWord
  else if word = source.falseWord then some target.falseWord
  else if word = source.nullWord then some target.nullWord
  else if source = javascript ∧ word = undefinedWord then some target.nullWord
  else none

def exchange? (source target : Language) (t : Token) : Option Text :=
  if t.isIdent then counterpart? source target t.text else none

/-- The text from byte `cursor` on, with the words among its tokens exchanged. -/
def exchangeFrom (source target : Language) (text : Text) (cursor : Nat) : List Token → Text
  | [] => Text.dropBytes cursor text
  | t :: r =>
    match exchange? source target t with
    | some word =>
      Text.slice text cursor t.start ++ word ++ exchangeFrom source target text t.stop r
    | none => exchangeFrom source target text cursor r

def translate (source target : Language) (text : Text) : Text :=
  if source = target then text
  else exchangeFrom source target text 0 (Token.tokenize source text)

end Polyglot.Language

namespace Polyglot

structure Template where
  language : Language
  imports : Text
  preamble : Text
  body : Text
  postamble : Text
  placeholders : List Text
  fallbacks : List (Text × Text)
  tracked : List Text
  firstLine : Nat
  deriving DecidableEq

structure SegmentContext where
  language : Language
  imports : Text
  definitions : Text
  analysis : Analysis

namespace SegmentContext

/-- Every name that the segment bound before the line, with its expression. -/
def fallbacks (ctx : SegmentContext) (line : Nat) : List (Text × Text) :=
  (ctx.analysis.bindingsBefore line).map fun b => (b.name, b.expression)

end SegmentContext

namespace Template

def fallback? (t : Template) (name : Text) : Option Text :=
  (t.fallbacks.find? (·.1 == name)).map (·.2)

def valueOf (t : Template) (g : Globals) (name : Text) : Except Undefined Text :=
  match g.value? name with
  | some v => .ok (v.render t.language)
  | none =>
    match t.fallback? name with
    | some e => .ok e
    | none => .error ⟨name, t.firstLine⟩

def draft (t : Template) (preamble : Text) : Draft where
  imports := t.imports
  preamble := preamble
  body := t.body
  postamble := t.postamble

def fill (t : Template) (g : Globals) : Except Undefined GuestUnit :=
  (Placeholder.fill (t.valueOf g) t.preamble).map fun preamble =>
    (t.draft preamble).unit t.language .segment t.tracked t.firstLine

def trimNewlines (t : Text) : Text := (t.reverse.dropWhile (· == '\n')).reverse

def ofCode (ctx : SegmentContext) (known : List Text) (text : Text) (firstLine : Nat)
    (bound : List Text) : Template where
  language := ctx.language
  imports := ctx.imports
  preamble := ctx.language.declareAll Placeholder.ofName (ctx.language.declarable bound known)
  body := trimNewlines (Draft.assemble [ctx.definitions, text])
  postamble := ctx.language.postamble (Names.extend known bound)
  placeholders := ctx.language.declarable bound known
  fallbacks := ctx.fallbacks firstLine
  tracked := Names.extend known bound
  firstLine := firstLine

def ofBlocks (ctx : SegmentContext) : (known : List Text) → List Block → List (Option Template)
  | _, [] => []
  | known, .code text line bound :: r =>
    some (ofCode ctx known text line bound) :: ofBlocks ctx (Names.extend known bound) r
  | known, .call _ _ _ bound :: r => none :: ofBlocks ctx (Names.extend known bound) r

def plan (ctx : SegmentContext) (blocks : List Block) (g : Globals) : List (Option Template) :=
  ofBlocks ctx (g.visible ctx.language) blocks

end Template

structure Generator where
  functions : FunctionTable
  imports : List Text

namespace Generator

def simpleDraft (s : Segment) (bound : List Text) (g : Globals) : Draft where
  preamble := g.preamble s.language bound
  body := s.source
  postamble := s.language.postamble (Names.extend (g.visible s.language) bound)

def simpleUnit (s : Segment) (bound : List Text) (g : Globals) : GuestUnit :=
  (simpleDraft s bound g).unit s.language .segment (Names.extend (g.visible s.language) bound)
    s.firstLine

def localDefinitions (gen : Generator) (own : List Text) : Text :=
  Text.unlines ((own.filterMap gen.functions.find?).map (·.source))

def importsOf (gen : Generator) (ordinals : List Nat) : Text :=
  Text.unlines (Names.distinct (ordinals.flatMap fun n => Text.lines (gen.imports[n]?.getD [])))

def argumentsFor (call : CallSite) (callee : FunctionDef) (caller : Language) : List Text :=
  call.args.map (caller.translate callee.language)

def carriedFor (gen : Generator) (call : CallSite) (callee : FunctionDef) (caller : Language) :
    List FunctionDef :=
  gen.functions.closure callee.language
    (Names.extend [callee.name]
      ((argumentsFor call callee caller).flatMap (gen.functions.referenced callee.language)))

def invocationTracked (g : Globals) (l : Language) : List Text :=
  g.visible l ++ [Globals.returnKey]

def callText (callee : FunctionDef) (args : List Text) : Text :=
  callee.name ++ "(" ++ Text.joinWith ", " args ++ ")"

def invocationDraft (gen : Generator) (call : CallSite) (callee : FunctionDef) (caller : Language)
    (g : Globals) : Draft :=
  let carried := gen.carriedFor call callee caller
  { imports := gen.importsOf (carried.map (·.segment))
    preamble := g.preamble callee.language []
    definitions := Text.unlines (carried.map (·.source))
    body := callee.language.capture (callText callee (argumentsFor call callee caller))
    postamble := callee.language.postamble (invocationTracked g callee.language) }

def invocationUnit (gen : Generator) (call : CallSite) (callee : FunctionDef) (caller : Language)
    (g : Globals) : GuestUnit :=
  { (gen.invocationDraft call callee caller g).unit callee.language .invocation
      (invocationTracked g callee.language) call.line with
    pendingCall := some ⟨callee.name, call.line⟩ }

/-- The line with each call replaced by its value, the last call first, so that the
bytes of the calls before it stay where they are. -/
def spliceReturns (l : Language) (text : Text) (calls : List CallSite) (returns : List Value) :
    Text :=
  (calls.zip returns).foldr (fun p body => Text.splice body p.1.start p.1.stop (p.2.render l)) text

/-- Earlier bindings of the segment whose value never reached a result file. -/
def carriedBindings (ctx : SegmentContext) (line : Nat) (bound : List Text) (g : Globals) :
    List (Text × Text) :=
  (ctx.fallbacks line).filter fun b =>
    !g.contains b.1 && !(ctx.language.declaresOnce && bound.contains b.1)

def continuationDraft (ctx : SegmentContext) (text : Text) (line : Nat) (calls : List CallSite)
    (returns : List Value) (bound : List Text) (g : Globals) : Draft where
  imports := ctx.imports
  preamble := g.preamble ctx.language bound
  carried := Text.unlines
    ((carriedBindings ctx line bound g).map fun b => ctx.language.declare b.1 b.2)
  definitions := ctx.definitions
  body := spliceReturns ctx.language text calls returns
  postamble := ctx.language.postamble (Names.extend (g.visible ctx.language) bound)

def continuationUnit (ctx : SegmentContext) (text : Text) (line : Nat) (calls : List CallSite)
    (returns : List Value) (bound : List Text) (g : Globals) : GuestUnit :=
  (continuationDraft ctx text line calls returns bound g).unit ctx.language .continuation
    (Names.extend (g.visible ctx.language) bound) line

end Generator
end Polyglot
