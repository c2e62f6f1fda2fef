/-!
# Text

Guest code, names and messages are lists of characters, so that every scan is
structural recursion. Positions inside a line are counted in the bytes of its
UTF-8 form: `size` measures, `dropBytes`, `takeBytes` and `slice` cut. As bytes, a
text is read strictly by `decode?`; `lossy` puts one U+FFFD for every maximal
sequence of bytes that could begin a character but does not finish one, and `chunks`
cuts a stream of bytes after each line feed.
-/
namespace Polyglot

abbrev Text := List Char

instance : Coe String Text := ⟨String.toList⟩

namespace Text

def size : Text → Nat
  | [] => 0
  | c :: r => c.utf8Size + size r

theorem size_append (a b : Text) : size (a ++ b) = size a + size b := by
  induction a with
  | nil => simp [size]
  | cons c r ih => simp [size, ih, Nat.add_assoc]

def dropBytes : Nat → Text → Text
  | 0, t => t
  | _ + 1, [] => []
  | n + 1, c :: r => dropBytes (n + 1 - c.utf8Size) r

def takeBytes : Nat → Text → Text
  | 0, _ => []
  | _ + 1, [] => []
  | n + 1, c :: r => c :: takeBytes (n + 1 - c.utf8Size) r

def slice (t : Text) (start stop : Nat) : Text :=
  takeBytes (stop - start) (dropBytes start t)

def splice (t : Text) (start stop : Nat) (value : Text) : Text :=
  takeBytes start t ++ value ++ dropBytes stop t

def splitOn (sep : Char) : Text → List Text
  | [] => [[]]
  | c :: r =>
    if c = sep then [] :: splitOn sep r
    else match splitOn sep r with
      | [] => [[c]]
      | p :: ps => (c :: p) :: ps

def joinWith (sep : Text) (parts : List Text) : Text := List.intercalate sep parts

def unlines (ls : List Text) : Text := joinWith ['\n'] ls

def dropReturn (t : Text) : Text := if t.getLast? = some '\r' then t.dropLast else t

def linesOf : List Text → List Text
  | [] => []
  | [last] => if last = [] then [] else [last]
  | p :: ps => dropReturn p :: linesOf ps

/-- Lines end at a line feed, which may follow one carriage return. A line feed
at the very end opens no further line. -/
def lines (t : Text) : List Text := linesOf (splitOn '\n' t)

def lower (t : Text) : Text := t.map Char.toLower

def sameLetters (a b : Text) : Bool := lower a == lower b

def decimal (n : Nat) : Text := Nat.toDigits 10 n

def blanks (n : Nat) : Text := List.replicate n ' '

def padLeft (n : Nat) (t : Text) : Text := blanks (n - t.length) ++ t

def padRight (n : Nat) (t : Text) : Text := t ++ blanks (n - t.length)

def cut? (sep : Char) (t : Text) : Option (Text × Text) :=
  match t.dropWhile (· != sep) with
  | [] => none
  | _ :: rest => some (t.takeWhile (· != sep), rest)

end Text
end Polyglot

namespace Polyglot.Text.Utf8

abbrev Bytes := List UInt8

def encode (t : Text) : Bytes := t.flatMap String.utf8EncodeChar

def isTail (b : UInt8) : Bool := 0x80 ≤ b && b ≤ 0xBF

def tails (b : UInt8) : Option (Nat × UInt8 × UInt8) :=
  -- How many bytes follow a leading byte, and the bounds of the first of them.
  if b < 0x80 then some (0, 0, 0)
  else if b < 0xC2 then none
  else if b < 0xE0 then some (1, 0x80, 0xBF)
  else if b = 0xE0 then some (2, 0xA0, 0xBF)
  else if b = 0xED then some (2, 0x80, 0x9F)
  else if b < 0xF0 then some (2, 0x80, 0xBF)
  else if b = 0xF0 then some (3, 0x90, 0xBF)
  else if b < 0xF4 then some (3, 0x80, 0xBF)
  else if b = 0xF4 then some (3, 0x80, 0x8F)
  else none

def leadBits (n : Nat) (b : UInt8) : Nat :=
  -- The bits that a leading byte with `n` tails contributes.
  if n = 0 then b.toNat
  else if n = 1 then b.toNat % 0x20
  else if n = 2 then b.toNat % 0x10
  else b.toNat % 0x08

/-- The bytes of `r`, at most `n`, that may stand as tails: the first within the
given bounds, the others anywhere among the tail bytes. -/
def tailRun (n : Nat) (lo hi : UInt8) (r : Bytes) : Bytes :=
  match n, r with
  | 0, _ => []
  | _, [] => []
  | n + 1, b :: r => if lo ≤ b && b ≤ hi then b :: (r.take n).takeWhile isTail else []

/-- The character at the front of `b :: r`, if there is one, and how many bytes of
`r` belong to it or to the spoiled beginning of one. -/
def front (b : UInt8) (r : Bytes) : Option Char × Nat :=
  match tails b with
  | none => (none, 0)
  | some (n, lo, hi) =>
    let run := tailRun n lo hi r
    if run.length = n then
      (some (Char.ofNat (run.foldl (fun a t => a * 64 + t.toNat % 64) (leadBits n b))), n)
    else (none, run.length)

def lossyFrom : Nat → Bytes → Text
  | _, [] => []
  | k + 1, _ :: r => lossyFrom k r
  | 0, b :: r => (front b r).1.getD '\uFFFD' :: lossyFrom (front b r).2 r

def lossy (bs : Bytes) : Text := lossyFrom 0 bs

def decodeFrom : Nat → Bytes → Option Text
  | _, [] => some []
  | k + 1, _ :: r => decodeFrom k r
  | 0, b :: r =>
    match front b r with
    | (some c, n) => (decodeFrom n r).map (c :: ·)
    | (none, _) => none

def decode? (bs : Bytes) : Option Text := decodeFrom 0 bs

def chunks : Bytes → List Bytes
  | [] => []
  | b :: r =>
    if b = 0x0A then [b] :: chunks r
    else match chunks r with
      | [] => [[b]]
      | ch :: rest => (b :: ch) :: rest

end Polyglot.Text.Utf8
