import Mathlib.Data.Fin.VecNotation
import RChain.Lib.Blocks

/-!
# The block hasher

Source: `crypto/src/hash/blake2b512_block.rs` and `crypto/src/errors.rs`.
-/

namespace RChain.Crypto

open BitCodec Blocks
open List hiding Vector

/-- The errors of the crypto crate that the decoders return. -/
inductive CryptoError where
  | invalidLength (expected actual : Nat)
deriving DecidableEq, Repr

abbrev Block := Vector Byte 128

def zeroBlock : Block := Vector.replicate 128 0

/-- Depth 255, key length 0, digest length 64. -/
def paramValue0 : UInt64 := 0xFF000040

/-- Inner length 32. -/
def paramValue2 : UInt64 := 0x2000

def iv : Vector UInt64 8 := Vector.ofFn ![
  0x6A09E667F3BCC908, 0xBB67AE8584CAA73B, 0x3C6EF372FE94F82B, 0xA54FF53A5F1D36F1,
  0x510E527FADE682D1, 0x9B05688C2B3E6C1F, 0x1F83D9ABFB41BD6B, 0x5BE0CD19137E2179]

def sigma : List (Fin 16 → Fin 16) := [
  ![0, 1, 2, 3, 4, 5, 6, 7, 8, 9, 10, 11, 12, 13, 14, 15],
  ![14, 10, 4, 8, 9, 15, 13, 6, 1, 12, 0, 2, 11, 7, 5, 3],
  ![11, 8, 12, 0, 5, 2, 15, 13, 10, 14, 3, 6, 7, 1, 9, 4],
  ![7, 9, 3, 1, 13, 12, 11, 14, 2, 6, 5, 10, 4, 0, 15, 8],
  ![9, 0, 5, 7, 2, 4, 10, 15, 14, 1, 11, 12, 6, 8, 3, 13],
  ![2, 12, 6, 10, 0, 11, 8, 3, 4, 13, 7, 5, 15, 14, 1, 9],
  ![12, 5, 1, 15, 14, 13, 4, 10, 0, 7, 6, 3, 9, 2, 8, 11],
  ![13, 11, 7, 14, 12, 1, 3, 9, 5, 0, 15, 4, 8, 6, 2, 10],
  ![6, 15, 14, 9, 11, 3, 0, 8, 12, 2, 13, 7, 1, 4, 10, 5],
  ![10, 2, 8, 4, 7, 6, 1, 5, 15, 11, 9, 14, 3, 12, 13, 0],
  ![0, 1, 2, 3, 4, 5, 6, 7, 8, 9, 10, 11, 12, 13, 14, 15],
  ![14, 10, 4, 8, 9, 15, 13, 6, 1, 12, 0, 2, 11, 7, 5, 3]]

/-- `u64_from_le_at`, whose callers keep the eight bytes inside. -/
def u64FromLeAt (bytes : List Byte) (start : Nat) : UInt64 :=
  UInt64.ofNat (fromLeBytes ((bytes.drop start).take 8))

def u64ToLeBytes (word : UInt64) : List Byte := toLeBytes 8 word.toNat

def rotateRight (word : UInt64) (count : UInt64) : UInt64 :=
  (word >>> count) ||| (word <<< (64 - count))

structure Blake2b512Block where
  chainValue : Vector UInt64 8
  t0 : UInt64
  t1 : UInt64
deriving DecidableEq

namespace Blake2b512Block

def new (fanout : Byte) : Blake2b512Block where
  chainValue := Vector.ofFn fun i =>
    if i = 0 then iv.get 0 ^^^ (paramValue0 ||| (UInt64.ofNat fanout.val <<< 16))
    else if i = 2 then iv.get 2 ^^^ paramValue2
    else iv.get i
  t0 := 0
  t1 := 0

variable (block : Blake2b512Block) (msg : Block)

def newT0T1 : UInt64 × UInt64 :=
  let newT0 := block.t0 + 128
  (newT0, if newT0 = 0 then block.t1 + 1 else block.t1)

abbrev InternalState := Vector UInt64 16

def InternalState.put (state : InternalState) (position : Fin 16) (word : UInt64) :
    InternalState :=
  Vector.ofFn fun i => if i = position then word else state.get i

def g (state : InternalState) (m1 m2 : UInt64) (posA posB posC posD : Fin 16) : InternalState :=
  let state := state.put posA (state.get posA + state.get posB + m1)
  let state := state.put posD (rotateRight (state.get posD ^^^ state.get posA) 32)
  let state := state.put posC (state.get posC + state.get posD)
  let state := state.put posB (rotateRight (state.get posB ^^^ state.get posC) 24)
  let state := state.put posA (state.get posA + state.get posB + m2)
  let state := state.put posD (rotateRight (state.get posD ^^^ state.get posA) 16)
  let state := state.put posC (state.get posC + state.get posD)
  state.put posB (rotateRight (state.get posB ^^^ state.get posC) 63)

/-- One round: the columns, then the diagonals. -/
def round (m : Vector UInt64 16) (state : InternalState) (s : Fin 16 → Fin 16) : InternalState :=
  let state := g state (m.get (s 0)) (m.get (s 1)) 0 4 8 12
  let state := g state (m.get (s 2)) (m.get (s 3)) 1 5 9 13
  let state := g state (m.get (s 4)) (m.get (s 5)) 2 6 10 14
  let state := g state (m.get (s 6)) (m.get (s 7)) 3 7 11 15
  let state := g state (m.get (s 8)) (m.get (s 9)) 0 5 10 15
  let state := g state (m.get (s 10)) (m.get (s 11)) 1 6 11 12
  let state := g state (m.get (s 12)) (m.get (s 13)) 2 7 8 13
  g state (m.get (s 14)) (m.get (s 15)) 3 4 9 14

def initialState (finalize rootFinalize : Bool) : InternalState :=
  Vector.ofFn ![
    block.chainValue.get 0, block.chainValue.get 1, block.chainValue.get 2, block.chainValue.get 3,
    block.chainValue.get 4, block.chainValue.get 5, block.chainValue.get 6, block.chainValue.get 7,
    iv.get 0, iv.get 1, iv.get 2, iv.get 3,
    block.newT0T1.1 ^^^ iv.get 4, block.newT0T1.2 ^^^ iv.get 5,
    (if finalize then 0xFFFFFFFFFFFFFFFF else 0) ^^^ iv.get 6,
    (if rootFinalize then 0xFFFFFFFFFFFFFFFF else 0) ^^^ iv.get 7]

def compressInto (finalize rootFinalize : Bool) : Vector UInt64 8 :=
  let m : Vector UInt64 16 := Vector.ofFn fun i => u64FromLeAt msg.toList (i.val * 8)
  let final := sigma.foldl (round m) (block.initialState finalize rootFinalize)
  Vector.ofFn fun i => block.chainValue.get i ^^^ final.get (i.castAdd 8) ^^^
    final.get (i.natAdd 8)

def update : Blake2b512Block where
  chainValue := block.compressInto msg false false
  t0 := block.newT0T1.1
  t1 := block.newT0T1.2

/-- The 64 bytes of the root if the message were the last block. -/
def peekFinalRoot : List Byte :=
  (block.compressInto msg true true).toList.flatMap u64ToLeBytes

/-- The 32 bytes of an inner node if the message were the last block. -/
def finalizeInternal : List Byte :=
  ((block.compressInto msg true false).toList.take 4).flatMap u64ToLeBytes

def toBytes : List Byte :=
  block.chainValue.toList.flatMap u64ToLeBytes ++ u64ToLeBytes block.t0 ++ u64ToLeBytes block.t1

def fromBytes (bytes : List Byte) : Except CryptoError Blake2b512Block :=
  if bytes.length < 80 then .error (.invalidLength 80 bytes.length)
  else .ok {
    chainValue := Vector.ofFn fun i => u64FromLeAt bytes (i.val * 8)
    t0 := u64FromLeAt bytes 64
    t1 := u64FromLeAt bytes 72 }

end Blake2b512Block

section Codec

theorem u64_bytes_length (word : UInt64) : (u64ToLeBytes word).length = 8 :=
  to_le_bytes_length 8 word.toNat

theorem words_length (words : List UInt64) :
    (words.flatMap u64ToLeBytes).length = 8 * words.length := by
  induction words with
  | nil => rfl
  | cons _ _ ih =>
    rw [flatMap_cons, length_append, u64_bytes_length, ih, length_cons]
    omega

theorem read_word (front back : List Byte) (word : UInt64) :
    u64FromLeAt (front ++ (u64ToLeBytes word ++ back)) front.length = word := by
  have bound : word.toNat < 256 ^ 8 := word.toNat_lt
  rw [u64FromLeAt, drop_left, take_left' (u64_bytes_length word), u64ToLeBytes,
    from_to_le_bytes, Nat.mod_eq_of_lt bound, UInt64.ofNat_toNat]

theorem read_words (words : List UInt64) (back : List Byte) {i : Nat} (inside : i < words.length) :
    u64FromLeAt (words.flatMap u64ToLeBytes ++ back) (i * 8) = words[i] := by
  have split : words.flatMap u64ToLeBytes ++ back = (words.take i).flatMap u64ToLeBytes ++
      (u64ToLeBytes words[i] ++ ((words.drop (i + 1)).flatMap u64ToLeBytes ++ back)) := by
    rw [← append_assoc (u64ToLeBytes _), ← flatMap_cons, ← drop_eq_getElem_cons,
      ← append_assoc, ← flatMap_append, take_append_drop]
  have front : ((words.take i).flatMap u64ToLeBytes).length = i * 8 := by
    rw [words_length, length_take]
    omega
  rw [split, ← front, read_word]

theorem block_bytes_length (block : Blake2b512Block) : block.toBytes.length = 80 := by
  rw [Blake2b512Block.toBytes, length_append, length_append, words_length,
    u64_bytes_length, u64_bytes_length, Vector.length_toList]

theorem block_from_to_bytes (block : Blake2b512Block) :
    Blake2b512Block.fromBytes block.toBytes = .ok block := by
  have size : (block.chainValue.toList.flatMap u64ToLeBytes).length = 64 := by
    rw [words_length, Vector.length_toList]
  have chain : (Vector.ofFn fun i : Fin 8 => u64FromLeAt block.toBytes (i.val * 8)) =
      block.chainValue := by
    apply Vector.ext
    intro _ _
    rw [Vector.getElem_ofFn, Blake2b512Block.toBytes, append_assoc,
      read_words _ _ (by rwa [Vector.length_toList]), Vector.getElem_toList]
  have first : u64FromLeAt block.toBytes 64 = block.t0 := by
    rw [Blake2b512Block.toBytes, append_assoc, ← size, read_word]
  have second : u64FromLeAt block.toBytes 72 = block.t1 := by
    have front : (block.chainValue.toList.flatMap u64ToLeBytes ++ u64ToLeBytes block.t0).length =
        72 := by
      rw [length_append, size, u64_bytes_length]
    have read := read_word (block.chainValue.toList.flatMap u64ToLeBytes ++ u64ToLeBytes block.t0)
      [] block.t1
    rwa [append_nil, front] at read
  rw [Blake2b512Block.fromBytes, if_neg (by rw [block_bytes_length]; decide), chain, first, second]

end Codec

end RChain.Crypto
