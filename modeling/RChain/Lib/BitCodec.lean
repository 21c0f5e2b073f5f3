import Mathlib.Control.Monad.Basic
import Mathlib.Data.List.Basic
import Mathlib.Data.Fin.Basic
import Mathlib.Tactic.Ring

/-!
# Bit streams, most significant bit first

A writer appends bits, and packing pads the last byte with zeros. A reader takes bits
from the front and fails when they run out. `Reads` says that a reader gives back a
value from the bits written for it and leaves what follows untouched; it composes
along the monad, so that the round trip of a record is the sequence of the round trips
of its fields.
-/

namespace BitCodec

open List Nat

abbrev Byte := Fin 256

instance byteNeZero : NeZero 256 := ⟨by decide⟩

abbrev Reader (Value : Type) := StateT (List Bool) Option Value

variable {Value Next : Type}

/-- The low `width` bits of a number. -/
def writeBits : Nat → Nat → List Bool
  | 0, _ => []
  | width + 1, value => decide (value / 2 ^ width % 2 = 1) :: writeBits width value

def writeBytes (bytes : List Byte) : List Bool :=
  bytes.flatMap fun byte => writeBits 8 byte.val

def readBit : Reader Bool
  | [] => none
  | bit :: rest => some (bit, rest)

def readBitsFrom (value : Nat) : Nat → Reader Nat
  | 0 => pure value
  | width + 1 => do
    let bit ← readBit
    readBitsFrom (2 * value + bit.toNat) width

def readBits (width : Nat) : Reader Nat :=
  readBitsFrom 0 width

def readMany (reader : Reader Value) : Nat → Reader (List Value)
  | 0 => pure []
  | n + 1 => do
    let value ← reader
    let values ← readMany reader n
    pure (value :: values)

def readByte : Reader Byte := do
  let value ← readBits 8
  pure (Fin.ofNat 256 value)

def readBytes (count : Nat) : Reader (List Byte) :=
  readMany readByte count

/-- The reader gives back the value from these bits, whatever follows them. -/
def Reads (reader : Reader Value) (bits : List Bool) (value : Value) : Prop :=
  ∀ rest, reader (bits ++ rest) = some (value, rest)

theorem reads_pure (value : Value) : Reads (pure value) [] value :=
  fun _ => rfl

variable {reader : Reader Value} {bits : List Bool} {value : Value}

theorem reads_bind {next : Value → Reader Next} {more : List Bool} {result : Next}
    (first : Reads reader bits value) (second : Reads (next value) more result) :
    Reads (reader >>= next) (bits ++ more) result := by
  intro rest
  change (reader (bits ++ more ++ rest)).bind (fun read => next read.1 read.2) = some (result, rest)
  rw [append_assoc, first]
  exact second rest

theorem reads_map (map : Value → Next) (read : Reads reader bits value) :
    Reads (reader >>= fun item => pure (map item)) bits (map value) := by
  have mapped : Reads (reader >>= fun item => pure (map item)) (bits ++ []) (map value) :=
    reads_bind read (reads_pure (map value))
  rwa [append_nil] at mapped

theorem reads_bit (bit : Bool) : Reads readBit [bit] bit :=
  fun _ => rfl

theorem reads_bits_from (value start width : Nat) :
    Reads (readBitsFrom start width) (writeBits width value)
      (start * 2 ^ width + value % 2 ^ width) := by
  induction width generalizing start with
  | zero =>
    have read : Reads (readBitsFrom start 0) [] start := reads_pure start
    simpa [writeBits, mod_one] using read
  | succ width ih =>
    have bit : (decide (value / 2 ^ width % 2 = 1)).toNat = value / 2 ^ width % 2 := by
      rcases mod_two_eq_zero_or_one (value / 2 ^ width) with zero | one
      · rw [zero]
        rfl
      · rw [one]
        rfl
    have split : value % 2 ^ (width + 1) =
        value % 2 ^ width + 2 ^ width * (value / 2 ^ width % 2) := mod_pow_succ
    have read : Reads (readBitsFrom start (width + 1)) (writeBits (width + 1) value) _ :=
      reads_bind (reads_bit (decide (value / 2 ^ width % 2 = 1)))
        (ih (2 * start + (decide (value / 2 ^ width % 2 = 1)).toNat))
    have total : (2 * start + (decide (value / 2 ^ width % 2 = 1)).toNat) * 2 ^ width +
        value % 2 ^ width = start * 2 ^ (width + 1) + value % 2 ^ (width + 1) := by
      rw [bit, split, pow_succ]
      ring
    rw [total] at read
    exact read

theorem reads_bits {width value : Nat} (fits : value < 2 ^ width) :
    Reads (readBits width) (writeBits width value) value := by
  have read := reads_bits_from value 0 width
  rwa [zero_mul, zero_add, mod_eq_of_lt fits] at read

theorem reads_many (write : Value → List Bool) (values : List Value)
    (each : ∀ value ∈ values, Reads reader (write value) value) :
    Reads (readMany reader values.length) (values.flatMap write) values := by
  induction values with
  | nil => exact reads_pure []
  | cons value _ ih =>
    have tail := ih fun other mem => each other (mem_cons_of_mem _ mem)
    exact reads_bind (each value mem_cons_self) (reads_map (value :: ·) tail)

section Inversion

variable {reader : Reader Value} {bits rest : List Bool}

theorem read_bind {next : Value → Reader Next} {result : Next}
    (read : (reader >>= next) bits = some (result, rest)) :
    ∃ value middle, reader bits = some (value, middle) ∧ next value middle = some (result, rest) := by
  obtain ⟨⟨value, middle⟩, first, second⟩ := Option.bind_eq_some_iff.mp read
  exact ⟨value, middle, first, second⟩

variable {value : Value} {width count : Nat} {values : List Value}

theorem read_pure {result : Value} (read : (pure value : Reader Value) bits = some (result, rest)) :
    result = value :=
  (Prod.ext_iff.mp (Option.some.inj read)).1.symm

theorem read_bits_from_lt {start value : Nat}
    (read : readBitsFrom start width bits = some (value, rest)) :
    value < (start + 1) * 2 ^ width := by
  induction width generalizing start bits with
  | zero =>
    rw [read_pure read]
    omega
  | succ width ih =>
    obtain ⟨bit, _, _, tail⟩ := read_bind read
    have below := ih tail
    have single : bit.toNat ≤ 1 := Bool.toNat_le bit
    calc
      value < (2 * start + bit.toNat + 1) * 2 ^ width := below
      _ ≤ (2 * (start + 1)) * 2 ^ width := mul_le_mul_right _ (by omega)
      _ = (start + 1) * 2 ^ (width + 1) := by ring

theorem read_bits_lt {value : Nat} (read : readBits width bits = some (value, rest)) :
    value < 2 ^ width := by
  have below := read_bits_from_lt read
  rwa [zero_add, one_mul] at below

theorem read_many_length (read : readMany reader count bits = some (values, rest)) :
    values.length = count := by
  induction count generalizing bits rest values with
  | zero =>
    rw [read_pure read]
    rfl
  | succ _ ih =>
    obtain ⟨_, _, _, tail⟩ := read_bind read
    obtain ⟨_, _, many, done⟩ := read_bind tail
    rw [read_pure done, length_cons, ih many]

theorem mem_read_many (read : readMany reader count bits = some (values, rest))
    (mem : value ∈ values) :
    ∃ before after, reader before = some (value, after) := by
  induction count generalizing bits rest values with
  | zero =>
    rw [read_pure read] at mem
    cases mem
  | succ _ ih =>
    obtain ⟨_, middle, first, tail⟩ := read_bind read
    obtain ⟨_, _, many, done⟩ := read_bind tail
    rw [read_pure done] at mem
    rcases mem_cons.mp mem with same | later
    · exact ⟨bits, middle, same ▸ first⟩
    · exact ih many later

end Inversion

theorem reads_byte (byte : Byte) : Reads readByte (writeBits 8 byte.val) byte := by
  have small : byte.val < 2 ^ 8 := byte.isLt
  have read := reads_map (Fin.ofNat 256) (reads_bits small)
  rwa [Fin.ofNat_val_eq_self] at read

theorem reads_bytes (bytes : List Byte) :
    Reads (readBytes bytes.length) (writeBytes bytes) bytes := by
  apply reads_many (fun byte : Byte => writeBits 8 byte.val)
  intro byte _
  exact reads_byte byte

/-- One byte from eight bits. -/
def packByte (bits : List Bool) : Byte :=
  Fin.ofNat 256 (bits.foldl (fun value bit => 2 * value + bit.toNat) 0)

/-- The whole bytes at the front of a bit string. -/
def wholeBytes : List Bool → List Byte
  | b0 :: b1 :: b2 :: b3 :: b4 :: b5 :: b6 :: b7 :: rest =>
    packByte [b0, b1, b2, b3, b4, b5, b6, b7] :: wholeBytes rest
  | _ => []

/-- The bytes of a bit string, its last byte padded with zeros. -/
def finish (bits : List Bool) : List Byte :=
  wholeBytes (bits ++ List.replicate ((8 - bits.length % 8) % 8) false)

theorem write_pack_byte : ∀ b0 b1 b2 b3 b4 b5 b6 b7 : Bool,
    writeBits 8 (packByte [b0, b1, b2, b3, b4, b5, b6, b7]).val =
      [b0, b1, b2, b3, b4, b5, b6, b7] := by
  decide

theorem write_bits_length (width value : Nat) : (writeBits width value).length = width := by
  induction width with
  | zero => rfl
  | succ _ ih => rw [writeBits, length_cons, ih]

theorem write_whole_bytes (bits : List Bool) (whole : bits.length % 8 = 0) :
    writeBytes (wholeBytes bits) = bits := by
  fun_induction wholeBytes bits with
  | case1 _ _ _ _ _ _ _ _ rest ih =>
    have remaining : rest.length % 8 = 0 := by
      simp only [length_cons] at whole
      omega
    have tail := ih remaining
    rw [writeBytes, flatMap_cons, write_pack_byte]
    rw [writeBytes] at tail
    rw [tail]
    rfl
  | case2 bits short =>
    match bits, short, whole with
    | [], _, _ => rfl
    | [_], _, odd | [_, _], _, odd | [_, _, _], _, odd | [_, _, _, _], _, odd
    | [_, _, _, _, _], _, odd | [_, _, _, _, _, _], _, odd
    | [_, _, _, _, _, _, _], _, odd => simp at odd
    | b0 :: b1 :: b2 :: b3 :: b4 :: b5 :: b6 :: b7 :: rest, long, _ =>
      exact absurd rfl (long b0 b1 b2 b3 b4 b5 b6 b7 rest)

theorem write_finish (bits : List Bool) :
    ∃ padding, writeBytes (finish bits) = bits ++ padding := by
  refine ⟨replicate ((8 - bits.length % 8) % 8) false, ?_⟩
  apply write_whole_bytes
  rw [length_append, length_replicate]
  omega

theorem read_finish (read : Reads reader bits value) :
    ∃ padding, reader (writeBytes (finish bits)) = some (value, padding) := by
  rcases write_finish bits with ⟨padding, same⟩
  refine ⟨padding, ?_⟩
  rw [same]
  exact read padding

theorem pack_write_byte : ∀ byte : Byte, packByte (writeBits 8 byte.val) = byte := by
  decide +kernel

theorem whole_bytes_append (bytes : List Byte) (rest : List Bool) :
    wholeBytes (writeBytes bytes ++ rest) = bytes ++ wholeBytes rest := by
  induction bytes with
  | nil => rfl
  | cons byte bytes ih =>
    have head : wholeBytes (writeBits 8 byte.val ++ (writeBytes bytes ++ rest)) =
        packByte (writeBits 8 byte.val) :: wholeBytes (writeBytes bytes ++ rest) := rfl
    rw [pack_write_byte, ih] at head
    rw [writeBytes, flatMap_cons, append_assoc]
    exact head

theorem write_bytes_length (bytes : List Byte) : (writeBytes bytes).length = 8 * bytes.length := by
  induction bytes with
  | nil => rfl
  | cons _ _ ih =>
    rw [writeBytes, flatMap_cons, length_append, write_bits_length, ← writeBytes, ih, length_cons]
    omega

theorem write_bytes_append (left right : List Byte) :
    writeBytes (left ++ right) = writeBytes left ++ writeBytes right :=
  flatMap_append

theorem write_bits_add (high low value : Nat) :
    writeBits (high + low) value = writeBits high (value / 2 ^ low) ++ writeBits low value := by
  induction high with
  | zero => rw [zero_add]; rfl
  | succ high ih =>
    have bit : value / 2 ^ low / 2 ^ high = value / 2 ^ (high + low) := by
      rw [Nat.div_div_eq_div_mul, ← pow_add, Nat.add_comm low high]
    rw [add_right_comm, writeBits, writeBits, ih, bit]
    rfl

theorem write_bits_mod (width value : Nat) :
    writeBits width (value % 2 ^ width) = writeBits width value := by
  suffices general : ∀ more, writeBits width (value % 2 ^ (width + more)) = writeBits width value
    from general 0
  induction width with
  | zero => intro more; rfl
  | succ width ih =>
    intro more
    have bit : value % 2 ^ (width + 1 + more) / 2 ^ width % 2 = value / 2 ^ width % 2 := by
      have shape : 2 ^ (width + 1 + more) = 2 ^ width * (2 * 2 ^ more) := by
        rw [pow_add, pow_succ]
        ring
      rw [shape, mod_mul_right_div_self, mod_mul_right_mod]
    have tail := ih (1 + more)
    rw [← add_assoc] at tail
    rw [writeBits, writeBits, bit, tail]

/-- The `width` low bytes of a number, big-endian. -/
def toBeBytes : Nat → Nat → List Byte
  | 0, _ => []
  | width + 1, value => Fin.ofNat 256 (value / 256 ^ width) :: toBeBytes width value

theorem write_be_bytes (width value : Nat) :
    writeBytes (toBeBytes width value) = writeBits (8 * width) value := by
  induction width with
  | zero => rfl
  | succ width ih =>
    have power : 256 ^ width = 2 ^ (8 * width) := by
      rw [pow_mul]
      rfl
    have byte : writeBits 8 (Fin.ofNat 256 (value / 256 ^ width)).val =
        writeBits 8 (value / 2 ^ (8 * width)) := by
      rw [← write_bits_mod 8 (value / 2 ^ (8 * width)), ← power]
      rfl
    rw [toBeBytes, writeBytes, flatMap_cons, byte, ← writeBytes, ih, ← write_bits_add]
    congr 1
    omega

end BitCodec
