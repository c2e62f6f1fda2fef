import Polyglot.Text.Basic

/-!
# Digests

The BLAKE3 hash of a sequence of bytes. The input is cut into chunks of 1024
bytes and these into blocks of 64; the chunks are the leaves of a binary tree
whose nodes hash the chaining values of their two children. A node is kept
unhashed until it is known whether it is the root.
-/
namespace Polyglot.Digest
open Text.Utf8 (Bytes)

abbrev Words := Array UInt32

def initial : Words := #[0x6A09E667, 0xBB67AE85, 0x3C6EF372, 0xA54FF53A,
  0x510E527F, 0x9B05688C, 0x1F83D9AB, 0x5BE0CD19]

def permutation : Array Nat := #[2, 6, 3, 10, 7, 0, 4, 13, 1, 11, 12, 5, 9, 14, 15, 8]

def chunkStart : UInt32 := 1

def chunkEnd : UInt32 := 2

def parentNode : UInt32 := 4

def rootNode : UInt32 := 8

def rotateRight (w n : UInt32) : UInt32 := (w >>> n) ||| (w <<< (32 - n))

def word (ws : Words) (i : Nat) : UInt32 := ws.getD i 0

def mix (v : Words) (a b c d : Nat) (x y : UInt32) : Words :=
  let v := v.setIfInBounds a (word v a + word v b + x)
  let v := v.setIfInBounds d (rotateRight (word v d ^^^ word v a) 16)
  let v := v.setIfInBounds c (word v c + word v d)
  let v := v.setIfInBounds b (rotateRight (word v b ^^^ word v c) 12)
  let v := v.setIfInBounds a (word v a + word v b + y)
  let v := v.setIfInBounds d (rotateRight (word v d ^^^ word v a) 8)
  let v := v.setIfInBounds c (word v c + word v d)
  v.setIfInBounds b (rotateRight (word v b ^^^ word v c) 7)

def round (v m : Words) : Words :=
  let v := mix v 0 4 8 12 (word m 0) (word m 1)
  let v := mix v 1 5 9 13 (word m 2) (word m 3)
  let v := mix v 2 6 10 14 (word m 4) (word m 5)
  let v := mix v 3 7 11 15 (word m 6) (word m 7)
  let v := mix v 0 5 10 15 (word m 8) (word m 9)
  let v := mix v 1 6 11 12 (word m 10) (word m 11)
  let v := mix v 2 7 8 13 (word m 12) (word m 13)
  mix v 3 4 9 14 (word m 14) (word m 15)

def permute (m : Words) : Words := permutation.map (word m)

def rounds : Nat → Words → Words → Words
  | 0, v, _ => v
  | n + 1, v, m => rounds n (round v m) (permute m)

structure Node where
  chaining : Words
  block : Words
  counter : Nat
  length : Nat
  flags : UInt32

namespace Node

def compress (n : Node) (extra : UInt32) : Words :=
  let v := rounds 7 (n.chaining ++ initial.extract 0 4 ++ #[UInt32.ofNat n.counter,
    UInt32.ofNat (n.counter >>> 32), UInt32.ofNat n.length, n.flags ||| extra]) n.block
  Array.ofFn fun i : Fin 8 => word v i ^^^ word v (i + 8)

def chain (n : Node) : Words := n.compress 0

def parent (left right : Node) : Node := ⟨initial, left.chain ++ right.chain, 0, 64, parentNode⟩

end Node

def groups {α : Type} (n : Nat) : (fuel : Nat) → List α → List (List α)
  | 0, _ => []
  | _ + 1, [] => []
  | fuel + 1, l => l.take n :: groups n fuel (l.drop n)

def littleEndian (bs : Bytes) : UInt32 := bs.foldr (fun b w => w * 256 + b.toUInt32) 0

def blockWords (bs : Bytes) : Words :=
  ((groups 4 16 (bs ++ List.replicate (64 - bs.length) 0)).map littleEndian).toArray

/-- The node of a chunk, block after block: each but the last is hashed into the
chaining value of the next. -/
def chunkNode (counter : Nat) (chaining : Words) (flags : UInt32) : List Bytes → Node
  | [] => ⟨chaining, blockWords [], counter, 0, flags ||| chunkEnd⟩
  | [b] => ⟨chaining, blockWords b, counter, b.length, flags ||| chunkEnd⟩
  | b :: r => chunkNode counter (Node.chain ⟨chaining, blockWords b, counter, b.length, flags⟩) 0 r

def chunkNodes (counter : Nat) : List Bytes → List Node
  | [] => []
  | c :: r =>
    chunkNode counter initial chunkStart (groups 64 c.length c) :: chunkNodes (counter + 1) r

def leaves (bs : Bytes) : List Node :=
  match groups 1024 bs.length bs with
  | [] => [chunkNode 0 initial chunkStart []]
  | cs => chunkNodes 0 cs

def pairUp : List Node → List Node
  | a :: b :: r => Node.parent a b :: pairUp r
  | ns => ns

/-- Pairing neighbours level by level gives the tree whose left parts are full; a
level has at most half the nodes of the one below it, so their number is fuel enough. -/
def root : (fuel : Nat) → List Node → Option Node
  | _, [] => none
  | _, [n] => some n
  | 0, n :: _ => some n
  | fuel + 1, ns => root fuel (pairUp ns)

def wordHex (w : UInt32) : Text :=
  (List.range 4).flatMap fun i =>
    let b := (w >>> UInt32.ofNat (8 * i)).toNat % 256
    [Nat.digitChar (b / 16), Nat.digitChar (b % 16)]

def hexOfBytes (bs : Bytes) : Text :=
  match root (leaves bs).length (leaves bs) with
  | some n => (n.compress rootNode).toList.flatMap wordHex
  | none => []

def hex (t : Text) : Text := hexOfBytes (Text.Utf8.encode t)

end Polyglot.Digest
