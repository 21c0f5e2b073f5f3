import Mathlib.Data.List.GetD
import Mathlib.Data.Vector.Defs
import RChain.Lib.BitCodec

/-!
# Blocks of bytes

Slices of byte strings, arrays written from a slice, chunks of a list, and numbers as bytes with the
lowest first. A slice that leaves its bytes, or a copy between ranges of different lengths, stops
the program; it is `none`.
-/

namespace Blocks

open BitCodec Nat
open List hiding Vector

section Slices

variable {Value : Type}

/-- `items[start..stop]`. -/
def slice (items : List Value) (start stop : Nat) : Option (List Value) :=
  if start ≤ stop ∧ stop ≤ items.length then some ((items.drop start).take (stop - start)) else none

variable {items front back : List Value} {start stop i size : Nat}

theorem slice_middle {middle : List Value} (split : items = front ++ middle ++ back)
    (starts : front.length = start) (stops : start + middle.length = stop) :
    slice items start stop = some middle := by
  subst split starts stops
  have bound : front.length + middle.length ≤ (front ++ middle ++ back).length := by
    rw [length_append, length_append]
    exact le_add_right _ _
  rw [slice, if_pos ⟨le_add_right _ _, bound⟩, append_assoc, drop_left,
    Nat.add_sub_cancel_left, take_left]

theorem get_middle {value : Value} (split : items = front ++ value :: back)
    (starts : front.length = i) :
    items[i]? = some value := by
  subst split starts
  rw [List.getElem?_append_right le_rfl, Nat.sub_self, List.getElem?_cons_zero]

/-- `array[start..stop].copy_from_slice(source)`. -/
def copyFromSlice {size : Nat} (array : Vector Value size) (start stop : Nat)
    (source : List Value) : Option (Vector Value size) :=
  if start ≤ stop ∧ stop ≤ size ∧ source.length = stop - start then
    some (Vector.ofFn fun i => if start ≤ i.val then source.getD (i.val - start) array[i]
      else array[i])
  else none

theorem copy_slice (array other : Vector Value size) (order : start ≤ stop) (inside : stop ≤ size) :
    copyFromSlice other start stop ((array.toList.drop start).take (stop - start)) =
      some (Vector.ofFn fun i => if start ≤ i.val ∧ i.val < stop then array[i] else other[i]) := by
  have whole : array.toList.length = size := Vector.length_toList
  have length : ((array.toList.drop start).take (stop - start)).length = stop - start := by
    rw [length_take, length_drop, whole]
    omega
  rw [copyFromSlice, if_pos ⟨order, inside, length⟩]
  congr 2
  funext i
  by_cases after : start ≤ i.val
  · rw [if_pos after]
    by_cases before : i.val < stop
    · rw [if_pos ⟨after, before⟩, getD_eq_getElem _ _ (by omega), getElem_take, getElem_drop]
      have same : start + (i.val - start) = i.val := by omega
      simp only [same, Vector.getElem_toList]
      rfl
    · rw [if_neg fun both => before both.2, getD_eq_default _ _ (by omega)]
  · rw [if_neg after, if_neg fun both => after both.1]

theorem copy_returns (array : Vector Value size) (source : List Value) (order : start ≤ stop)
    (inside : stop ≤ size) (length : source.length = stop - start) :
    ∃ copied, copyFromSlice array start stop source = some copied :=
  ⟨_, if_pos ⟨order, inside, length⟩⟩

theorem copy_outside {array copied : Vector Value size} {source : List Value}
    (copy : copyFromSlice array start stop source = some copied) (bound : i < size)
    (outside : i < start ∨ stop ≤ i) : copied[i] = array[i] := by
  unfold copyFromSlice at copy
  split_ifs at copy with ranges
  cases copy
  rw [Vector.getElem_ofFn]
  dsimp only
  by_cases after : start ≤ i
  · rw [if_pos after, getD_eq_default _ _ (by omega)]
    rfl
  · rw [if_neg after]
    rfl

theorem copy_whole (array other : Vector Value size) (source : List Value) :
    copyFromSlice array 0 size source = copyFromSlice other 0 size source := by
  unfold copyFromSlice
  by_cases length : source.length = size - 0
  · rw [if_pos ⟨zero_le _, le_rfl, length⟩, if_pos ⟨zero_le _, le_rfl, length⟩]
    congr 2
    funext i
    have inside : i.val - 0 < source.length := by
      have bound := i.isLt
      omega
    rw [if_pos (zero_le _), if_pos (zero_le _), getD_eq_getElem _ _ inside,
      getD_eq_getElem _ _ inside]
  · rw [if_neg fun all => length all.2.2, if_neg fun all => length all.2.2]

end Slices

section Chunks

variable {Value : Type}

/-- `items.chunks(size)`: the last one may be shorter. -/
def chunks (size : Nat) (items : List Value) : List (List Value) :=
  (List.range ((items.length + size - 1) / size)).map fun k => (items.drop (size * k)).take size

theorem chunks_length (size : Nat) (items : List Value) :
    (chunks size items).length = (items.length + size - 1) / size := by
  rw [chunks, length_map, length_range]

theorem chunks_map {Other : Type} (f : Value → Other) (size : Nat) (items : List Value) :
    chunks size (items.map f) = (chunks size items).map (map f) := by
  rw [chunks, chunks, length_map, map_map]
  apply map_congr_left
  intro _ _
  rw [Function.comp_apply, map_take, map_drop]

end Chunks

section Numbers

/-- The lowest bytes of a number, the lowest first. -/
def toLeBytes : Nat → Nat → List Byte
  | 0, _ => []
  | width + 1, value => Fin.ofNat 256 value :: toLeBytes width (value / 256)

def fromLeBytes : List Byte → Nat
  | [] => 0
  | byte :: bytes => byte.val + 256 * fromLeBytes bytes

theorem to_le_bytes_length (width value : Nat) : (toLeBytes width value).length = width := by
  induction width generalizing value with
  | zero => rfl
  | succ _ ih => rw [toLeBytes, length_cons, ih]

theorem from_to_le_bytes (width value : Nat) :
    fromLeBytes (toLeBytes width value) = value % 256 ^ width := by
  induction width generalizing value with
  | zero => rw [toLeBytes, fromLeBytes, pow_zero, mod_one]
  | succ width ih =>
    have byte : (Fin.ofNat 256 value).val = value % 256 := rfl
    rw [toLeBytes, fromLeBytes, ih, byte, pow_succ, mul_comm (256 ^ width), mod_mul]

/-- The bit of a byte string at a position, the lowest bit of each byte first. -/
def bitAt (bytes : List Byte) (n : Nat) : Bool := (bytes.getD (n / 8) 0).val.testBit (n % 8)

theorem bit_at_nil (n : Nat) : bitAt [] n = false := zero_testBit _

theorem bit_at_append (left right : List Byte) (n : Nat) : bitAt (left ++ right) n =
      if n < 8 * left.length then bitAt left n else bitAt right (n - 8 * left.length) := by
  unfold bitAt
  split_ifs with inside
  · rw [getD_append _ _ _ _ (by omega)]
  · have quotient : (n - 8 * left.length) / 8 = n / 8 - left.length := by omega
    have remainder : (n - 8 * left.length) % 8 = n % 8 := by omega
    rw [getD_append_right _ _ _ _ (by omega), quotient, remainder]

variable {zeros : List Byte}

theorem bit_at_zeros (all : ∀ byte ∈ zeros, byte = 0) (n : Nat) : bitAt zeros n = false := by
  unfold bitAt
  by_cases inside : n / 8 < zeros.length
  · rw [getD_eq_getElem _ _ inside, all _ (getElem_mem inside)]
    exact zero_testBit _
  · rw [getD_eq_default _ _ (by omega)]
    exact zero_testBit _

theorem bit_at_append_zeros (bytes : List Byte) (all : ∀ byte ∈ zeros, byte = 0) (n : Nat) :
    bitAt (bytes ++ zeros) n = bitAt bytes n := by
  rw [bit_at_append]
  split_ifs with inside
  · rfl
  · rw [bit_at_zeros all, bitAt, getD_eq_default _ _ (by omega)]
    exact (zero_testBit _).symm

theorem test_bit_from_le (bytes : List Byte) (n : Nat) :
    (fromLeBytes bytes).testBit n = bitAt bytes n := by
  induction bytes generalizing n with
  | nil => rw [fromLeBytes, zero_testBit, bit_at_nil]
  | cons byte bytes ih =>
    have bound : byte.val < 2 ^ 8 := byte.isLt
    rw [fromLeBytes, add_comm, ← singleton_append, bit_at_append, length_singleton, mul_one]
    change (2 ^ 8 * fromLeBytes bytes + byte.val).testBit n = _
    rw [testBit_two_pow_mul_add _ bound]
    split_ifs with low
    · rw [bitAt, div_eq_of_lt low, mod_eq_of_lt low]
      rfl
    · exact ih (n - 8)

theorem bit_at_to_le (width value n : Nat) :
    bitAt (toLeBytes width value) n = (decide (n < 8 * width) && value.testBit n) := by
  have power : 256 ^ width = 2 ^ (8 * width) := (pow_mul 2 8 width).symm
  rw [← test_bit_from_le, from_to_le_bytes, power, testBit_mod_two_pow]

theorem bit_at_words (words : List Nat) (n : Nat) :
    bitAt (words.flatMap (toLeBytes 8)) n = (words.getD (n / 64) 0).testBit (n % 64) := by
  induction words generalizing n with
  | nil => rw [flatMap_nil, bit_at_nil, getD_nil, zero_testBit]
  | cons _ _ ih =>
    rw [flatMap_cons, bit_at_append, to_le_bytes_length, bit_at_to_le, ih]
    by_cases first : n < 64
    · rw [if_pos first, decide_eq_true first, Bool.true_and, div_eq_of_lt first,
        mod_eq_of_lt first, getD_cons_zero]
    · have quotient : n / 64 = (n - 8 * 8) / 64 + 1 := by omega
      have remainder : n % 64 = (n - 8 * 8) % 64 := by omega
      rw [if_neg first, quotient, remainder, getD_cons_succ]

theorem bit_at_chunk (bytes : List Byte) (size k : Nat) {n : Nat} (inside : n < 8 * size) :
    bitAt ((bytes.drop (size * k)).take size) n = bitAt bytes (8 * size * k + n) := by
  have small : n / 8 < size := by omega
  have quotient : (8 * size * k + n) / 8 = size * k + n / 8 := by
    rw [mul_assoc]
    omega
  have remainder : (8 * size * k + n) % 8 = n % 8 := by
    rw [mul_assoc]
    omega
  unfold bitAt
  rw [quotient, remainder, getD_eq_getElem?_getD, getD_eq_getElem?_getD,
    getElem?_take_of_lt small, getElem?_drop]

end Numbers

end Blocks
