import Polyglot.Engine

/-!
# Values

What crosses from one guest program to another: the values of JSON, with numbers
kept as they were written. One printer serves both the compact JSON form and the
literals of each language; only the words and the separators differ.
-/
namespace Polyglot

inductive Value
  | null
  | bool (b : Bool)
  | number (digits : Text)
  | string (s : Text)
  | array (items : List Value)
  | object (members : List (Text × Value))

namespace Value

def hexDigit (n : Nat) : Char := Nat.digitChar n

def escape (c : Char) : Text :=
  if c = '"' then ['\\', '"']
  else if c = '\\' then ['\\', '\\']
  else if c = '\x08' then ['\\', 'b']
  else if c = '\t' then ['\\', 't']
  else if c = '\n' then ['\\', 'n']
  else if c = '\x0c' then ['\\', 'f']
  else if c = '\r' then ['\\', 'r']
  else if c.toNat < 0x20 then
    ['\\', 'u', '0', '0', hexDigit (c.toNat / 16), hexDigit (c.toNat % 16)]
  else [c]

def quoted (s : Text) : Text := '"' :: s.flatMap escape ++ ['"']

structure Style where
  comma : Text
  colon : Text
  trueWord : Text
  falseWord : Text
  nullWord : Text

def Style.compact : Style := ⟨",", ":", "true", "false", "null"⟩

def Style.literal (l : Language) : Style := ⟨", ", ": ", l.trueWord, l.falseWord, l.nullWord⟩

mutual

def print (y : Style) : Value → Text
  | null => y.nullWord
  | bool true => y.trueWord
  | bool false => y.falseWord
  | number digits => digits
  | string s => quoted s
  | array items => '[' :: Text.joinWith y.comma (printItems y items) ++ [']']
  | object members => '{' :: Text.joinWith y.comma (printMembers y members) ++ ['}']

def printItems (y : Style) : List Value → List Text
  | [] => []
  | v :: r => print y v :: printItems y r

def printMembers (y : Style) : List (Text × Value) → List Text
  | [] => []
  | (k, v) :: r => (quoted k ++ y.colon ++ print y v) :: printMembers y r

end

def json (v : Value) : Text := v.print .compact

def render (l : Language) (v : Value) : Text := v.print (.literal l)

def precedes : Text → Text → Bool
  | _, [] => false
  | [], _ :: _ => true
  | a :: r, b :: s => a < b || (a == b && precedes r s)

def insertMember (k : Text) (v : Value) : List (Text × Value) → List (Text × Value)
  | [] => [(k, v)]
  | (j, w) :: r =>
    if j = k then (k, v) :: r
    else if precedes k j then (k, v) :: (j, w) :: r
    else (j, w) :: insertMember k v r

def sortMembers (members : List (Text × Value)) : List (Text × Value) :=
  members.foldl (fun sorted m => insertMember m.1 m.2 sorted) []

mutual

def normal : Value → Value
  | array items => array (normalItems items)
  | object members => object (sortMembers (normalMembers members))
  | null => null
  | bool b => bool b
  | number digits => number digits
  | string s => string s

def normalItems : List Value → List Value
  | [] => []
  | v :: r => normal v :: normalItems r

def normalMembers : List (Text × Value) → List (Text × Value)
  | [] => []
  | (k, v) :: r => (k, normal v) :: normalMembers r

end

end Value
end Polyglot
