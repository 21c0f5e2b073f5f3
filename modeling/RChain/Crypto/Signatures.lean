import RChain.Shared.Refined

/-!
# Signature algorithms and the normal form of signatures

Source: `crypto/src/signatures/signatures_alg.rs`, `crypto/src/signatures/signed.rs` and
the DER helpers of `crypto/src/util/certificate_helper.rs`.

The hash functions and the curve arithmetic are third-party code: they are the fields
of `Primitives`.
-/

namespace RChain.Crypto

open BitCodec

/-- The algorithms that `from_algorithm` knows. -/
inductive SignaturesAlg where
  | secp256k1
  | secp256k1Eth
deriving DecidableEq

def SignaturesAlg.name : SignaturesAlg → String
  | .secp256k1 => "secp256k1"
  | .secp256k1Eth => "secp256k1:eth"

def fromAlgorithm (algorithm : String) : Option SignaturesAlg :=
  if algorithm.toLower = "secp256k1" then some .secp256k1
  else if algorithm.toLower = "secp256k1:eth" then some .secp256k1Eth
  else none

structure Primitives where
  blake2b256 : List Byte → List Byte
  keccak256 : List Byte → List Byte
  verify : SignaturesAlg → (data signature key : List Byte) → Bool

def textBytes (text : String) : List Byte :=
  text.toUTF8.toList.map fun byte => byte.toFin

def ethPrefix (msgLength : Nat) : List Byte :=
  textBytes s!"\x19Ethereum Signed Message:\n{msgLength}"

def signatureHash (primitives : Primitives) (algName : String) (serialized : List Byte) :
    List Byte :=
  if algName = "secp256k1:eth" then
    primitives.keccak256 (ethPrefix serialized.length ++ serialized)
  else primitives.blake2b256 serialized

section LowS

def secp256k1Order : List Byte :=
  [0xFF, 0xFF, 0xFF, 0xFF, 0xFF, 0xFF, 0xFF, 0xFF, 0xFF, 0xFF, 0xFF, 0xFF, 0xFF, 0xFF, 0xFF,
    0xFE, 0xBA, 0xAE, 0xDC, 0xE6, 0xAF, 0x48, 0xA0, 0x3B, 0xBF, 0xD2, 0x5E, 0x8C, 0xD0, 0x36,
    0x41, 0x41]

def secp256k1OrderHalf : List Byte :=
  [0x7F, 0xFF, 0xFF, 0xFF, 0xFF, 0xFF, 0xFF, 0xFF, 0xFF, 0xFF, 0xFF, 0xFF, 0xFF, 0xFF, 0xFF,
    0xFF, 0x5D, 0x57, 0x6E, 0x73, 0x57, 0xA4, 0x50, 0x1D, 0xDF, 0xE9, 0x2F, 0x46, 0x68, 0x1B,
    0x20, 0xA0]

/-- Byte-wise comparison from the most significant byte; equal strings are not greater. -/
def exceeds : List Byte → List Byte → Bool
  | b :: bs, half :: halves =>
    if b < half then false else if half < b then true else exceeds bs halves
  | _, _ => false

def isHighS (s : List Byte) : Bool := exceeds s secp256k1OrderHalf

/-- `n - s`, from the last byte to the first with a borrow. -/
def negateModOrder (s : List Byte) : List Byte :=
  ((secp256k1Order.zip s).foldr
    (fun digits acc =>
      let diff : Int := digits.1.val - digits.2.val - acc.2
      if diff < 0 then (Fin.ofNat 256 (diff + 256).toNat :: acc.1, 1)
      else (Fin.ofNat 256 diff.toNat :: acc.1, 0))
    (([], 0) : List Byte × Int)).1

def normalizeRsLowS (rs : List Byte) : List Byte :=
  if rs.length ≠ 64 then rs
  else
    let r := rs.take 32
    let s := rs.drop 32
    r ++ if isHighS s then negateModOrder s else s

/-- The leading zeros are dropped, but never the last byte. -/
def trimInteger : List Byte → List Byte
  | b :: next :: rest => if b = 0 then trimInteger (next :: rest) else b :: next :: rest
  | bytes => bytes

def derInteger (unsigned : List Byte) : List Byte :=
  match trimInteger unsigned with
  | [] => [0]
  | b :: rest => if 128 ≤ b.val then 0 :: b :: rest else b :: rest

/-- The big-endian digits of a length without leading zeros. -/
def lengthDigits (len : Nat) : List Byte :=
  let bytes := (List.range 8).map fun i => (Fin.ofNat 256 (len / 256 ^ (7 - i)) : Byte)
  trimInteger bytes

def encodeLen (len : Nat) : List Byte :=
  if len < 0x80 then [Fin.ofNat 256 len]
  else Fin.ofNat 256 (0x80 + (lengthDigits len).length) :: lengthDigits len

def encodeSignatureRsToDer (rs : List Byte) : Except String (List Byte) :=
  if rs.length ≠ 64 then .error "Input array must have length 64"
  else
    let r := derInteger (rs.take 32)
    let s := derInteger (rs.drop 32)
    .ok ([0x30] ++ encodeLen (2 + r.length + 2 + s.length) ++
      [0x02, Fin.ofNat 256 r.length] ++ r ++ [0x02, Fin.ofNat 256 s.length] ++ s)

/-- A DER length at `pos`, with the position after it. -/
def readLength (buf : List Byte) (pos : Nat) : Except String (Nat × Nat) :=
  match buf[pos]? with
  | none => .error "truncated DER"
  | some first =>
    if first.val < 0x80 then .ok (first.val, pos + 1)
    else
      let n := first.val - 0x80
      if n = 0 ∨ 4 < n then .error "invalid DER length"
      else if ((buf.drop (pos + 1)).take n).length < n then .error "truncated DER"
      else
        .ok (((buf.drop (pos + 1)).take n).foldl (fun len b => len * 256 + b.val) 0,
          pos + 1 + n)

def leftPad32 (bytes : List Byte) : Except String (List Byte) :=
  let significant := bytes.dropWhile (· = 0)
  if 32 < significant.length then .error "integer too large"
  else .ok (List.replicate (32 - significant.length) 0 ++ significant)

def invalidDer : String := "Input array is not valid DER message format"

/-- An integer of a DER signature at `pos`, with the position after it. -/
def readInteger (buf : List Byte) (pos : Nat) : Except String (List Byte × Nat) :=
  if buf[pos]? ≠ some 0x02 then .error invalidDer
  else do
    let (len, start) ← readLength buf (pos + 1)
    if buf.length < start + len then .error invalidDer
    else .ok ((buf.drop start).take len, start + len)

def decodeSignatureDerToRs (der : List Byte) : Except String (List Byte) :=
  match der with
  | [] => .error "Input array must not be empty"
  | tag :: _ =>
    if tag ≠ 0x30 then .error invalidDer
    else do
      let (seqLen, pos) ← readLength der 1
      if der.length < pos + seqLen then .error invalidDer
      else
        let (r, next) ← readInteger der pos
        let (s, _) ← readInteger der next
        let r ← leftPad32 r
        let s ← leftPad32 s
        return r ++ s

/-- Any other algorithm, and a signature that does not decode, is returned unchanged. -/
def normalizeSignatureLowS (algorithm : String) (signature : List Byte) : List Byte :=
  if algorithm.toLower = "secp256k1" then
    match decodeSignatureDerToRs signature with
    | .error _ => signature
    | .ok rs =>
      match encodeSignatureRsToDer (normalizeRsLowS rs) with
      | .error _ => signature
      | .ok der => der
  else if algorithm.toLower = "secp256k1:eth" then
    if signature.length ≠ 64 then signature else normalizeRsLowS signature
  else signature

end LowS

end RChain.Crypto
