import RChain.Lib.BitCodec
import RChain.Lib.Positional

/-!
# Addresses

Source: `rholang/src/util/base58.rs` and `rholang/src/util/rev_address.rs`.

Strings are lists of characters and big integers are natural numbers. Both conversions go between
the digits of one number in base 58 and in base 256, the leading zeros apart.
-/

namespace RChain.Rholang

open BitCodec Positional List

namespace Base58

def alphabet : List Char := "123456789ABCDEFGHJKLMNPQRSTUVWXYZabcdefghijkmnopqrstuvwxyz".toList

/-- `ALPHABET.as_bytes()[d] as char`, for a digit below 58. -/
def digitChar (d : Nat) : Char := alphabet.getD d '1'

/-- `BigUint::from_bytes_be`. -/
def fromBytesBe (bytes : List Byte) : Nat := bytes.foldl (fun n b => b.val + 256 * n) 0

/-- `BigUint::to_bytes_be`: zero has one byte. -/
def toBytesBe (n : Nat) : List Byte :=
  if n = 0 then [0] else (Nat.digits 256 n).reverse.map (Fin.ofNat 256)

/-- The loop of `encode`: a remainder is one byte. -/
def pushDigits (n : Nat) : List Char :=
  if n = 0 then [] else digitChar (n % 58) :: pushDigits (n / 58)

def encode (input : List Byte) : List Char :=
  if input = [] then []
  else (pushDigits (fromBytesBe input) ++
    (input.takeWhile (· = 0)).map fun _ => digitChar 0).reverse

def digitValue (c : Char) : Option Nat := alphabet.findIdx? (· = c)

def decode (input : List Char) : Option (List Byte) :=
  let zeroCount := (input.takeWhile (· = digitChar 0)).length
  let rest := input.drop zeroCount
  if rest = [] then some (replicate zeroCount 0)
  else do
    let n ← rest.foldlM (fun n c => (digitValue c).map fun digit => n * 58 + digit) 0
    some (replicate zeroCount 0 ++ toBytesBe n)

theorem digit_value_char : ∀ d < 58, digitValue (digitChar d) = some d := by
  decide

theorem digit_value_some {c : Char} {d : Nat} (known : digitValue c = some d) :
    d < 58 ∧ digitChar d = c := by
  obtain ⟨inside, here, _⟩ := findIdx?_eq_some_iff_getElem.mp known
  refine ⟨inside, ?_⟩
  rw [digitChar, List.getD, getElem?_eq_getElem inside]
  simpa using here

theorem push_digits_eq (n : Nat) : pushDigits n = (Nat.digits 58 n).map digitChar := by
  induction n using Nat.strongRecOn with
  | ind n ih =>
    rw [pushDigits]
    split_ifs with zero
    · rw [zero, Nat.digits_zero, map_nil]
    · rw [ih _ (Nat.div_lt_self (by omega) (by omega)),
        Nat.digits_def' (by omega) (Nat.pos_of_ne_zero zero), map_cons]

theorem from_bytes_eq (bytes : List Byte) : fromBytesBe bytes = value 256 (bytes.map Fin.val) := by
  rw [value_eq_foldl, foldl_map, fromBytesBe]

theorem encode_eq (input : List Byte) :
    encode input = (join 58 (zeros (input.map Fin.val)) (value 256 (input.map Fin.val))).map
      digitChar := by
  have leading : zeros (input.map Fin.val) = (input.takeWhile (· = 0)).length := by
    rw [zeros, takeWhile_map, length_map]
    congr 2
    funext b
    exact decide_eq_decide.mpr Fin.val_eq_zero_iff
  unfold encode
  split_ifs with empty
  · simp [empty, zeros, value, join]
  · rw [push_digits_eq, from_bytes_eq, join, map_append, map_replicate, map_reverse, leading,
      reverse_append, map_const', reverse_replicate]

theorem fold_digits (digits : List Nat) (bounded : ∀ d ∈ digits, d < 58) (n : Nat) :
    (digits.map digitChar).foldlM (fun n c => (digitValue c).map fun digit => n * 58 + digit) n =
      some (digits.foldl (fun n d => d + 58 * n) n) := by
  induction digits generalizing n with
  | nil => rfl
  | cons d digits ih =>
    rw [forall_mem_cons] at bounded
    rw [map_cons, foldlM_cons, digit_value_char d bounded.1, foldl_cons, Nat.add_comm,
      Nat.mul_comm]
    exact ih bounded.2 _

theorem fold_some {input : List Char} {n total : Nat} (read : input.foldlM
      (fun n c => (digitValue c).map fun digit => n * 58 + digit) n = some total) :
    ∃ digits : List Nat, (∀ d ∈ digits, d < 58) ∧ digits.map digitChar = input := by
  induction input generalizing n with
  | nil => exact ⟨[], by simp, rfl⟩
  | cons c input ih =>
    rw [foldlM_cons] at read
    obtain ⟨_, first, rest⟩ := Option.bind_eq_some_iff.mp read
    obtain ⟨d, known, _⟩ := Option.map_eq_some_iff.mp first
    obtain ⟨digits, bounded, same⟩ := ih rest
    obtain ⟨small, char⟩ := digit_value_some known
    exact ⟨d :: digits, forall_mem_cons.mpr ⟨small, bounded⟩, by rw [map_cons, char, same]⟩

theorem leading_ones {digits : List Nat} (bounded : ∀ d ∈ digits, d < 58) :
    ((digits.map digitChar).takeWhile (· = digitChar 0)).length = zeros digits := by
  induction digits with
  | nil => rfl
  | cons d digits ih =>
    rw [forall_mem_cons] at bounded
    have same : digitChar d = digitChar 0 ↔ d = 0 := by
      constructor
      · intro alike
        have values := congrArg digitValue alike
        rw [digit_value_char d bounded.1, digit_value_char 0 (by decide)] at values
        exact Option.some.inj values
      · rintro rfl
        rfl
    by_cases zero : d = 0
    · simp [zeros, zero, ih bounded.2]
    · simp [zeros, zero, same]

theorem decode_eq {digits : List Nat} (bounded : ∀ d ∈ digits, d < 58) :
    decode (digits.map digitChar) =
      some ((join 256 (zeros digits) (value 58 digits)).map (Fin.ofNat 256)) := by
  have split := zeros_append digits
  have rest : (digits.map digitChar).drop (zeros digits) =
      (digits.dropWhile (· = 0)).map digitChar := by
    conv_lhs => rw [← split, map_append]
    exact drop_left' (by simp [split])
  unfold decode
  dsimp only
  rw [leading_ones bounded, rest]
  by_cases empty : digits.dropWhile (· = 0) = []
  · rw [← value_drop_zeros digits, empty, map_nil, if_pos rfl]
    simp [join, value]
  · have nonzero : value 58 digits ≠ 0 := by
      intro zero
      have whole := join_split (by decide) bounded
      rw [zero, join, Nat.digits_zero, reverse_nil, append_nil] at whole
      exact empty (append_right_eq_self.mp (split.trans whole.symm))
    rw [if_neg (by simpa using empty), fold_digits _ fun d mem => bounded d
      ((dropWhile_sublist _).subset mem), ← value_eq_foldl, value_drop_zeros]
    simp [toBytesBe, nonzero, join]

theorem decode_encode (input : List Byte) : decode (encode input) = some input := by
  have bounded : ∀ d ∈ input.map Fin.val, d < 256 := by
    intro d mem
    obtain ⟨b, _, rfl⟩ := mem_map.mp mem
    exact b.isLt
  have back : Fin.ofNat 256 ∘ Fin.val = (id : Byte → Byte) :=
    funext fun b => Fin.ext (Nat.mod_eq_of_lt b.isLt)
  rw [encode_eq, decode_eq fun d => join_bounded (by decide), zeros_join, value_join,
    join_split (by decide) bounded, map_map, back, map_id]

theorem decoded_digits {input : List Char} {bytes : List Byte} (read : decode input = some bytes) :
    ∃ digits : List Nat, (∀ d ∈ digits, d < 58) ∧ digits.map digitChar = input := by
  have parts := prefix_append_drop ( takeWhile_prefix (· = digitChar 0) : _ <+: input)
  have ones : input.takeWhile (· = digitChar 0) =
      (replicate (input.takeWhile (· = digitChar 0)).length 0).map digitChar := by
    rw [map_replicate]
    exact eq_replicate_of_mem fun c mem => by simpa using mem_takeWhile_imp mem
  have known : ∃ digits : List Nat, (∀ d ∈ digits, d < 58) ∧ digits.map digitChar =
      input.drop (input.takeWhile (· = digitChar 0)).length := by
    unfold decode at read
    dsimp only at read
    split_ifs at read with empty
    · exact ⟨[], by simp, empty.symm⟩
    · obtain ⟨_, folded, _⟩ := Option.bind_eq_some_iff.mp read
      exact fold_some folded
  obtain ⟨digits, bounded, rest⟩ := known
  refine ⟨_ ++ digits, fun d mem => ?_, by rw [map_append, ← ones, rest, ← parts]⟩
  rcases mem_append.mp mem with zero | listed
  · rw [eq_of_mem_replicate zero]
    decide
  · exact bounded d listed

theorem encode_decode {input : List Char} {bytes : List Byte} (read : decode input = some bytes) :
    encode bytes = input := by
  obtain ⟨digits, bounded, rfl⟩ := decoded_digits read
  rw [decode_eq bounded] at read
  cases read
  have back : ((join 256 (zeros digits) (value 58 digits)).map (Fin.ofNat 256)).map Fin.val =
      join 256 (zeros digits) (value 58 digits) := by
    rw [map_map]
    refine (map_congr_left fun d mem => ?_).trans (map_id _)
    exact Nat.mod_eq_of_lt (join_bounded (by decide) mem)
  rw [encode_eq, back, zeros_join, value_join, join_split (by decide) bounded]

end Base58

section Addresses

variable (blake2b256 : List Byte → List Byte)

structure Address where
  prefixBytes : List Byte
  keyHash : List Byte
  checksum : List Byte

structure AddressTools where
  prefixBytes : List Byte
  checksumLength : Nat

def AddressTools.computeChecksum (tools : AddressTools) (toCheck : List Byte) : List Byte :=
  (blake2b256 toCheck).take tools.checksumLength

def AddressTools.parse (tools : AddressTools) (address : List Char) : Except String Address :=
  match Base58.decode address with
  | none => .error "Invalid Base58 encoding"
  | some decoded =>
    let checksumStart := tools.prefixBytes.length + 32
    if decoded.length ≠ tools.prefixBytes.length + 32 + tools.checksumLength then
      .error "Invalid address length"
    else
      let payload := decoded.take checksumStart
      let checksum := decoded.drop checksumStart
      if tools.computeChecksum blake2b256 payload ≠ checksum then .error "Invalid checksum"
      else if payload.take tools.prefixBytes.length ≠ tools.prefixBytes then .error "Invalid prefix"
      else .ok ⟨tools.prefixBytes, payload.drop tools.prefixBytes.length, checksum⟩

/-- An address is parsed exactly when it writes the bytes of its parts with their checksum. -/
theorem address_codec (tools : AddressTools) :
    (∀ bytes, Base58.decode (Base58.encode bytes) = some bytes) ∧
    (∀ input bytes, Base58.decode input = some bytes ↔ Base58.encode bytes = input) ∧
    ∀ address parsed, tools.parse blake2b256 address = .ok parsed ↔
      ∃ keyHash checksum, keyHash.length = 32 ∧ checksum.length = tools.checksumLength ∧
        tools.computeChecksum blake2b256 (tools.prefixBytes ++ keyHash) = checksum ∧
        address = Base58.encode (tools.prefixBytes ++ keyHash ++ checksum) ∧
        parsed = ⟨tools.prefixBytes, keyHash, checksum⟩ := by
  refine ⟨Base58.decode_encode, fun input bytes => ?_, fun address parsed => ?_⟩
  · constructor
    · exact Base58.encode_decode
    · rintro rfl
      exact Base58.decode_encode bytes
  · constructor
    · intro ran
      unfold AddressTools.parse at ran
      split at ran
      · cases ran
      · rename_i decoded read
        dsimp only at ran
        split_ifs at ran with sized checked named
        cases ran
        have whole := take_append_drop tools.prefixBytes.length
          (decoded.take (tools.prefixBytes.length + 32))
        rw [not_not.mp named] at whole
        refine ⟨_, _, ?_, ?_, ?_, ?_, rfl⟩
        · simp
          omega
        · simp
          omega
        · rw [whole]
          exact not_not.mp checked
        · rw [whole, take_append_drop, Base58.encode_decode read]
    · rintro ⟨keyHash, checksum, long, short, checked, rfl, rfl⟩
      have front : (tools.prefixBytes ++ keyHash ++ checksum).take (tools.prefixBytes.length + 32) =
          tools.prefixBytes ++ keyHash := take_left' (by rw [length_append, long])
      have back : (tools.prefixBytes ++ keyHash ++ checksum).drop (tools.prefixBytes.length + 32) =
          checksum := drop_left' (by rw [length_append, long])
      rw [AddressTools.parse, Base58.decode_encode]
      simp only [front, back, checked]
      rw [if_neg (not_not_intro (by simp [long, short, Nat.add_assoc])), if_neg (not_not_intro rfl),
        take_left, drop_left, if_neg (not_not_intro rfl)]

end Addresses

end RChain.Rholang
