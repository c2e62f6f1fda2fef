import Polyglot.Catalog
import Polyglot.Value.Basic

/-!
# Reading values

Strict JSON: no raw control characters or lone surrogates in strings, no leading
zeros, nothing but blanks after the value, at most `maxDepth` arrays and objects
inside one another. A number keeps its digits; an exponent is written with a
small `e` and a sign. A number may also stand as a text in an object of its own,
whose only member has the reserved name `numberMark`.

The globals are the values that one unit leaves for the next, in the order in which
their names first appeared. A result file holds such a table as a flat JSON object;
the reserved key in it is a call's return value and is never kept.
-/
namespace Polyglot.Value

def maxDepth : Nat := 127

def isGap (c : Char) : Bool := c == ' ' || c == '\t' || c == '\n' || c == '\r'

def skipGaps (t : Text) : Text := t.dropWhile isGap

def hexValue? (c : Char) : Option Nat :=
  if '0' ≤ c ∧ c ≤ '9' then some (c.toNat - '0'.toNat)
  else if 'a' ≤ c ∧ c ≤ 'f' then some (c.toNat - 'a'.toNat + 10)
  else if 'A' ≤ c ∧ c ≤ 'F' then some (c.toNat - 'A'.toNat + 10)
  else none

def codeUnit? (a b c d : Char) : Option Nat := do
  let a ← hexValue? a
  let b ← hexValue? b
  let c ← hexValue? c
  let d ← hexValue? d
  return ((a * 16 + b) * 16 + c) * 16 + d

def isHighSurrogate (n : Nat) : Bool := 0xD800 ≤ n && n ≤ 0xDBFF

def isLowSurrogate (n : Nat) : Bool := 0xDC00 ≤ n && n ≤ 0xDFFF

def unescape? (c : Char) : Option Char :=
  if c = '"' ∨ c = '\\' ∨ c = '/' then some c
  else if c = 'b' then some '\x08'
  else if c = 't' then some '\t'
  else if c = 'n' then some '\n'
  else if c = 'f' then some '\x0c'
  else if c = 'r' then some '\r'
  else none

def consChar (c : Char) (r : Text × Text) : Text × Text := (c :: r.1, r.2)

def readString : Text → Option (Text × Text)
  | [] => none
  | c :: r =>
    if c = '"' then some ([], r)
    else if c = '\\' then
      match r with
      | 'u' :: x :: y :: z :: w :: s =>
        match codeUnit? x y z w with
        | none => none
        | some n =>
          if isLowSurrogate n then none
          else if isHighSurrogate n then
            match s with
            | '\\' :: 'u' :: x :: y :: z :: w :: s =>
              match codeUnit? x y z w with
              | none => none
              | some m =>
                if isLowSurrogate m then
                  (readString s).map
                    (consChar (Char.ofNat (0x10000 + (n - 0xD800) * 0x400 + (m - 0xDC00))))
                else none
            | _ => none
          else (readString s).map (consChar (Char.ofNat n))
      | e :: s =>
        match unescape? e with
        | none => none
        | some c => (readString s).map (consChar c)
      | [] => none
    else if c.toNat < 0x20 then none
    else (readString r).map (consChar c)

def digitRun (t : Text) : Text × Text := (t.takeWhile Char.isDigit, t.dropWhile Char.isDigit)

def readSign (t : Text) : Text × Text :=
  match t with
  | '-' :: r => (['-'], r)
  | _ => ([], t)

def readWhole (t : Text) : Option (Text × Text) :=
  match digitRun t with
  | ([], _) => none
  | (['0'], r) => some (['0'], r)
  | ('0' :: _, _) => none
  | (ds, r) => some (ds, r)

def readFraction (t : Text) : Option (Text × Text) :=
  match t with
  | '.' :: r =>
    match digitRun r with
    | ([], _) => none
    | (ds, s) => some ('.' :: ds, s)
  | _ => some ([], t)

def readExponentSign (t : Text) : Char × Text :=
  match t with
  | '+' :: r => ('+', r)
  | '-' :: r => ('-', r)
  | _ => ('+', t)

def readExponent (t : Text) : Option (Text × Text) :=
  match t with
  | [] => some ([], [])
  | c :: r =>
    if c = 'e' ∨ c = 'E' then
      match digitRun (readExponentSign r).2 with
      | ([], _) => none
      | (ds, s) => some ('e' :: (readExponentSign r).1 :: ds, s)
    else some ([], t)

def readNumber (t : Text) : Option (Text × Text) := do
  let (whole, r) ← readWhole (readSign t).2
  let (fraction, r) ← readFraction r
  let (exponent, r) ← readExponent r
  return ((readSign t).1 ++ whole ++ fraction ++ exponent, r)

def afterWord (word : Text) (v : Value) (t : Text) : Option (Value × Text) :=
  if word.isPrefixOf t then some (v, t.drop word.length) else none

def readAtom (t : Text) : Option (Value × Text) :=
  match t with
  | 't' :: _ => afterWord "true" (bool true) t
  | 'f' :: _ => afterWord "false" (bool false) t
  | 'n' :: _ => afterWord "null" null t
  | _ => (readNumber t).map fun p => (number p.1, p.2)

def readName (t : Text) : Option (Text × Text) :=
  match skipGaps t with
  | '"' :: r =>
    match readString r with
    | none => none
    | some (k, r) =>
      match skipGaps r with
      | ':' :: s => some (k, s)
      | _ => none
  | _ => none

mutual

def readValue : (fuel depth : Nat) → Text → Option (Value × Text)
  | 0, _, _ => none
  | fuel + 1, depth, t =>
    match skipGaps t with
    | [] => none
    | c :: r =>
      if c = '"' then (readString r).map fun s => (string s.1, s.2)
      else if c = '[' then
        match depth, skipGaps r with
        | 0, _ => none
        | _ + 1, ']' :: s => some (array [], s)
        | depth + 1, s => (readItems fuel depth s).map fun p => (array p.1, p.2)
      else if c = '{' then
        match depth, skipGaps r with
        | 0, _ => none
        | _ + 1, '}' :: s => some (object [], s)
        | depth + 1, s => (readMembers fuel depth s).map fun p => (object p.1, p.2)
      else readAtom (c :: r)

def readItems : (fuel depth : Nat) → Text → Option (List Value × Text)
  | 0, _, _ => none
  | fuel + 1, depth, t =>
    match readValue fuel depth t with
    | none => none
    | some (v, r) =>
      match skipGaps r with
      | ']' :: s => some ([v], s)
      | ',' :: s => (readItems fuel depth s).map fun p => (v :: p.1, p.2)
      | _ => none

def readMembers : (fuel depth : Nat) → Text → Option (List (Text × Value) × Text)
  | 0, _, _ => none
  | fuel + 1, depth, t =>
    match readName t with
    | none => none
    | some (k, r) =>
      match readValue fuel depth r with
      | none => none
      | some (v, r) =>
        match skipGaps r with
        | '}' :: s => some ([(k, v)], s)
        | ',' :: s => (readMembers fuel depth s).map fun p => ((k, v) :: p.1, p.2)
        | _ => none

end

/-- Between two steps of a reader at most one character of the text is left alone. -/
def fuelFor (t : Text) : Nat := 2 * t.length + 2

def complete? {α : Type} : Option (α × Text) → Option α
  | some (a, r) => if (skipGaps r).isEmpty then some a else none
  | none => none

/-- The value as it stands: members in the order of the text, repeated names kept. -/
def readDocument? (t : Text) : Option Value := complete? (readValue (fuelFor t) maxDepth t)

def numberMark : Text := "$serde_json::private::Number"

def isMarked : List (Text × Value) → Bool
  | (k, _) :: _ => k == numberMark
  | [] => false

def markedNumber? : List (Text × Value) → Option Value
  | [(_, string s)] =>
    match readNumber s with
    | some (digits, []) => some (number digits)
    | _ => none
  | _ => none

mutual

/-- Objects that open with the mark become the numbers they stand for. -/
def unmark? : Value → Option Value
  | array items => (unmarkItems? items).map array
  | object members =>
    if isMarked members then markedNumber? members else (unmarkMembers? members).map object
  | null => some null
  | bool b => some (bool b)
  | number digits => some (number digits)
  | string s => some (string s)

def unmarkItems? : List Value → Option (List Value)
  | [] => some []
  | v :: r =>
    match unmark? v with
    | none => none
    | some v => (unmarkItems? r).map (v :: ·)

def unmarkMembers? : List (Text × Value) → Option (List (Text × Value))
  | [] => some []
  | (k, v) :: r =>
    match unmark? v with
    | none => none
    | some v => (unmarkMembers? r).map ((k, v) :: ·)

end

def settle? (v : Value) : Option Value := (unmark? v).map normal

def parse? (t : Text) : Option Value := (readDocument? t).bind settle?

def fault : Text := "<json>"

end Polyglot.Value

namespace Polyglot

abbrev Globals := Catalog (Text × Value) Prod.fst

namespace Globals

def returnKey : Text := "__mixl_return__"

def value? (g : Globals) (name : Text) : Option Value := (g.find? name).map (·.2)

def settleMember? (m : Text × Value) : Option (Text × Value) := m.2.settle?.map fun v => (m.1, v)

/-- The members in document order; a repeated name keeps its first place and takes
its last value. -/
def read? (t : Text) : Option Globals :=
  match Value.readDocument? t with
  | some (.object members) => (members.mapM settleMember?).map (·.foldl Catalog.put Catalog.empty)
  | _ => none

def json (g : Globals) : Text := (Value.object g.items).json

def mergeEntry (g : Globals) (m : Text × Value) : Globals :=
  if m.1 = returnKey then g else g.put m

/-- Later values win. -/
def merge (g result : Globals) : Globals := result.items.foldl mergeEntry g

def returned (result : Globals) : Option Value := result.value? returnKey

def visible (g : Globals) (l : Language) : List Text := g.names.filter l.validName

def hidden (g : Globals) (l : Language) : List Text := g.names.filter (!l.validName ·)

end Globals
end Polyglot
