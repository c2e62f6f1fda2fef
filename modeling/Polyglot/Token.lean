import Polyglot.Engine
import Polyglot.Text.Classes

/-!
# Tokens

One line of guest code at a time, cut into names, numbers, strings, comments and
single marks. A token keeps its text and the byte at which it starts. Everything
between tokens is blank. Round, square and curly brackets are counted together:
`closeFrom` finds where the count first comes back to zero, `splitTop` cuts at the
separators met while the count is zero.
-/
namespace Polyglot

inductive Token.Kind
  | ident
  | number
  | str
  | comment
  | punct (mark : Char)
  deriving DecidableEq, Repr

structure Token where
  kind : Token.Kind
  text : Text
  start : Nat
  deriving DecidableEq, Repr

namespace Token

def stop (t : Token) : Nat := t.start + Text.size t.text

def isIdent (t : Token) : Bool := t.kind == .ident

def isComment (t : Token) : Bool := t.kind == .comment

def isPunct (mark : Char) (t : Token) : Bool := t.kind == .punct mark

def isWord (word : Text) (t : Token) : Bool := t.isIdent && t.text == word

/-- How many characters follow an opening quote up to its closing one. A backslash
takes the next character with it; without a closing quote the string runs to the
end of the line. -/
def stringTail (quote : Char) : Text → Nat
  | [] => 0
  | c :: r =>
    if c = '\\' then
      match r with
      | [] => 1
      | _ :: s => stringTail quote s + 2
    else if c = quote then 1
    else stringTail quote r + 1

def nameTail (l : Language) (r : Text) : Nat := (r.takeWhile l.continuesName).length

def continuesNumber (c : Char) : Bool := Text.isAlphanumeric c || c == '.' || c == '_'

def numberTail (r : Text) : Nat := (r.takeWhile continuesNumber).length

/-- The kind of the token that begins with `c`, and how many characters of `r` it
takes with it. -/
def lexeme (l : Language) (c : Char) (r : Text) : Kind × Nat :=
  if l.commentMark.isPrefixOf (c :: r) then (.comment, r.length)
  else if l.quotes.contains c then (.str, stringTail c r)
  else if l.startsName c then
    let n := nameTail l r
    match r.drop n with
    | [] => (.ident, n)
    | q :: s =>
      if l.quotes.contains q && l.stringMarks.contains (Text.lower (c :: r.take n)) then
        (.str, n + 1 + stringTail q s)
      else (.ident, n)
  else if c.isDigit then (.number, numberTail r)
  else (.punct c, 0)

/-- Scans a line from byte `pos` on; the first `skip` characters belong to a token
that is already out. -/
def scan (l : Language) : (skip pos : Nat) → Text → List Token
  | _, _, [] => []
  | skip + 1, pos, c :: r => scan l skip (pos + c.utf8Size) r
  | 0, pos, c :: r =>
    if Text.isBlank c then scan l 0 (pos + c.utf8Size) r
    else
      ⟨(lexeme l c r).1, c :: r.take (lexeme l c r).2, pos⟩
        :: scan l (lexeme l c r).2 (pos + c.utf8Size) r

def tokenize (l : Language) (line : Text) : List Token := scan l 0 0 line

def spanText (line : Text) (ts : List Token) : Text :=
  match ts.head?, ts.getLast? with
  | some a, some b => Text.trim (Text.slice line a.start b.stop)
  | _, _ => []

def code (ts : List Token) : List Token := ts.filter (!·.isComment)

def isDead (ts : List Token) : Bool := ts.all isComment

def indent (line : Text) : Nat := (line.takeWhile fun c => c == ' ' || c == '\t').length

end Token
end Polyglot

namespace Polyglot.Token

def opens (t : Token) : Bool := t.isPunct '(' || t.isPunct '[' || t.isPunct '{'

def closes (t : Token) : Bool := t.isPunct ')' || t.isPunct ']' || t.isPunct '}'

def closeFrom : (depth : Nat) → List Token → Option Nat
  -- A closing bracket that finds nothing open ends the search.
  | _, [] => none
  | depth, t :: r =>
    if t.opens then (closeFrom (depth + 1) r).map (· + 1)
    else if t.closes then
      match depth with
      | 0 => none
      | 1 => some 0
      | d + 2 => (closeFrom (d + 1) r).map (· + 1)
    else (closeFrom depth r).map (· + 1)

def matchingClose (ts : List Token) (i : Nat) : Option Nat :=
  (closeFrom 0 (ts.drop i)).map (· + i)

def consFirst (t : Token) : List (List Token) → List (List Token)
  | [] => [[t]]
  | p :: ps => (t :: p) :: ps

def splitTop (sep : Char) : (depth : Nat) → List Token → List (List Token)
  -- A closing bracket that finds nothing open is passed over.
  | _, [] => [[]]
  | depth, t :: r =>
    if t.opens then consFirst t (splitTop sep (depth + 1) r)
    else if t.closes then consFirst t (splitTop sep (depth - 1) r)
    else if t.isPunct sep && depth == 0 then [] :: splitTop sep 0 r
    else consFirst t (splitTop sep depth r)

def splitTopLevel (sep : Char) (ts : List Token) : List (List Token) := splitTop sep 0 ts

def openBraces (ts : List Token) : Nat := ts.countP (isPunct '{')

def closeBraces (ts : List Token) : Nat := ts.countP (isPunct '}')

end Polyglot.Token
