import Mathlib.Data.List.DropRight
import Mathlib.Data.List.Fold
import Mathlib.Data.List.MinMax
import Mathlib.Data.List.Sort
import RChain.Lib.Blocks
import RChain.Models.Ast

/-!
# Index sets on the wire

Source: `bitset_to_bytes` and `bytes_to_bitset` of `models/src/wire.rs`.

A set of levels is written as a mask of 64-bit words, the lowest byte first, without the zeros at
the end.
-/

namespace RChain.Models

open BitCodec Blocks List

/-- `level as usize`, which wraps a negative level around. -/
def asUsize (level : Int32) : Nat := (level.toInt % 2 ^ 64).toNat

def setBit (words : List Nat) (position : Nat) : List Nat :=
  words.modify (position / 64) fun word => word ||| 2 ^ (position % 64)

def bitsetToBytes (bitset : BitSet) : List Byte :=
  let positions := bitset.map asUsize
  let max := positions.foldl Nat.max 0
  let numWords := if max = 0 ∧ bitset = [] then 0 else max / 64 + 1
  let words := positions.foldl setBit (List.replicate numWords 0)
  (words.flatMap (toLeBytes 8)).rdropWhile (· = 0)

/-- The bits of a word, as positions behind those of the words before it. -/
def wordBits (word wordIdx : Nat) : List Int32 :=
  (List.range 64).filterMap fun bit =>
    if word.testBit bit then some (Int32.ofNat (wordIdx * 64 + bit)) else none

def bytesToBitset (bytes : List Byte) : BitSet :=
  let bufferSize := (bytes.length + 7) / 8 * 8
  let padded := bytes ++ List.replicate (bufferSize - bytes.length) 0
  (chunks 8 padded).zipIdx.flatMap fun chunk => wordBits (fromLeBytes chunk.1) chunk.2

/-- Sorted, without duplicates and without negative levels. -/
structure BitSet.Proper (bitset : BitSet) : Prop where
  sorted : bitset.Pairwise (· < ·)
  nonneg : ∀ level ∈ bitset, 0 ≤ level

instance (bitset : BitSet) : Decidable bitset.Proper :=
  letI : Decidable (∀ level ∈ bitset, 0 ≤ level) := List.decidableBAll (0 ≤ ·) bitset
  decidable_of_iff (bitset.Pairwise (· < ·) ∧ ∀ level ∈ bitset, 0 ≤ level)
    ⟨fun both => ⟨both.1, both.2⟩, fun proper => ⟨proper.sorted, proper.nonneg⟩⟩

section Words

theorem set_bit_length (words : List Nat) (position : Nat) :
    (setBit words position).length = words.length := length_modify _ _ _

theorem test_bit_set {words : List Nat} {position : Nat} (inside : position / 64 < words.length)
    (n : Nat) : ((setBit words position).getD (n / 64) 0).testBit (n % 64) = true ↔
      (words.getD (n / 64) 0).testBit (n % 64) = true ∨ n = position := by
  rw [setBit, getD_eq_getElem?_getD, getD_eq_getElem?_getD, getElem?_modify]
  by_cases same : position / 64 = n / 64
  · rw [← same, getElem?_eq_getElem inside]
    simp only [Option.map_eq_map, Option.map_some, if_true, Option.getD_some, Nat.testBit_or,
      Nat.testBit_two_pow, Bool.or_eq_true, decide_eq_true_eq]
    apply or_congr_right
    omega
  · have apart : n ≠ position := by
      rintro rfl
      exact same rfl
    simp only [same, if_false, apart, or_false, id_map']

theorem test_bit_words {positions words : List Nat}
    (inside : ∀ position ∈ positions, position / 64 < words.length) (n : Nat) :
    ((positions.foldl setBit words).getD (n / 64) 0).testBit (n % 64) = true ↔
      (words.getD (n / 64) 0).testBit (n % 64) = true ∨ n ∈ positions := by
  induction positions generalizing words with
  | nil => rw [foldl_nil, or_iff_left not_mem_nil]
  | cons position positions ih =>
    rw [forall_mem_cons] at inside
    have rest : ∀ other ∈ positions, other / 64 < (setBit words position).length := by
      rw [set_bit_length]
      exact inside.2
    rw [foldl_cons, ih rest, test_bit_set inside.1, or_assoc, mem_cons]

theorem le_max {positions : List Nat} {position : Nat} (mem : position ∈ positions) :
    position ≤ positions.foldl Nat.max 0 := by
  have folds : positions.foldl Nat.max 0 = positions.foldr max 0 := foldl_eq_foldr
  rw [folds]
  exact le_max_of_le mem le_rfl

theorem bit_at_bitset (bitset : BitSet) (n : Nat) :
    bitAt (bitsetToBytes bitset) n = true ↔ n ∈ bitset.map asUsize := by
  have split : ∀ bytes : List Byte, bitAt (bytes.rdropWhile (· = 0)) n = bitAt bytes n := by
    intro bytes
    have parts : bytes.rdropWhile (· = 0) ++ bytes.rtakeWhile (· = 0) = bytes :=
      rdropWhile_append_rtakeWhile
    conv_rhs => rw [← parts]
    rw [bit_at_append_zeros _ fun byte mem => by simpa using mem_rtakeWhile_imp mem]
  unfold bitsetToBytes
  rw [split, bit_at_words, test_bit_words]
  · rw [getD_eq_getElem?_getD, getElem?_replicate]
    apply or_iff_right
    split_ifs
    all_goals simp
  · intro position mem
    have nonempty : bitset ≠ [] := by
      rintro rfl
      simp at mem
    have bound := le_max mem
    rw [if_neg fun both => nonempty both.2, length_replicate]
    omega

end Words

section Reading

theorem zip_idx_map_range {Value : Type} (f : Nat → Value) (count : Nat) :
    ((range count).map f).zipIdx = (range count).map fun k => (f k, k) := by
  apply ext_getElem
  · simp
  · intro _ _ _
    simp

def wordPositions (bytes : List Byte) (k : Nat) : List Nat :=
  ((List.range 64).map (64 * k + ·)).filter (bitAt bytes)

theorem word_bits_eq (bytes : List Byte) (k : Nat) :
    wordBits (fromLeBytes ((bytes.drop (8 * k)).take 8)) k =
      (wordPositions bytes k).map Int32.ofNat := by
  rw [wordBits, wordPositions, filter_map, map_map, ← filterMap_eq_map, filterMap_filter]
  apply filterMap_congr
  intro _ mem
  rw [test_bit_from_le, bit_at_chunk bytes 8 k (mem_range.mp mem)]
  simp only [Function.comp_apply, Nat.mul_comm k 64]

theorem bytes_to_bitset_eq (bytes : List Byte) : ∃ padded count,
    padded.length = 8 * count ∧ (∀ n, bitAt padded n = bitAt bytes n) ∧
    bytesToBitset bytes = ((range count).flatMap (wordPositions padded)).map Int32.ofNat := by
  have length : (bytes ++ replicate ((bytes.length + 7) / 8 * 8 - bytes.length)
      (0 : Byte)).length = 8 * ((bytes.length + 7) / 8) := by
    rw [length_append, length_replicate]
    omega
  refine ⟨bytes ++ replicate ((bytes.length + 7) / 8 * 8 - bytes.length) 0,
    (bytes.length + 7) / 8, length, fun n => ?_, ?_⟩
  · exact bit_at_append_zeros _ (fun byte mem => eq_of_mem_replicate mem) n
  · have count : (8 * ((bytes.length + 7) / 8) + 8 - 1) / 8 = (bytes.length + 7) / 8 := by omega
    rw [bytesToBitset, chunks, length, count, zip_idx_map_range, flatMap_map, map_flatMap]
    exact congrArg (flatMap · _) (funext fun k => word_bits_eq _ k)

theorem mem_positions {bytes : List Byte} {count : Nat} (length : bytes.length = 8 * count)
    (n : Nat) : n ∈ (range count).flatMap (wordPositions bytes) ↔ bitAt bytes n = true := by
  simp only [mem_flatMap, mem_range, wordPositions, mem_filter, mem_map]
  constructor
  · rintro ⟨_, _, _, set⟩
    exact set
  · intro set
    have inside : n / 8 < bytes.length := by
      by_contra outside
      rw [bitAt, getD_eq_default _ _ (by omega)] at set
      simp at set
    exact ⟨n / 64, by omega, ⟨n % 64, by omega, by omega⟩, set⟩

theorem positions_sorted (bytes : List Byte) (count : Nat) :
    ((range count).flatMap (wordPositions bytes)).Pairwise (· < ·) := by
  rw [pairwise_flatMap]
  constructor
  · intro _ _
    apply List.Pairwise.filter
    rw [pairwise_map]
    exact pairwise_lt_range.imp fun less => by omega
  · apply pairwise_lt_range.imp
    intro _ _ _ _ inFirst _ inSecond
    simp only [wordPositions, mem_filter, mem_map, mem_range] at inFirst inSecond
    obtain ⟨⟨_, _, rfl⟩, _⟩ := inFirst
    obtain ⟨⟨_, _, rfl⟩, _⟩ := inSecond
    omega

end Reading

section RoundTrip

variable {bitset : BitSet}

theorem as_usize_of_nonneg {level : Int32} (nonneg : 0 ≤ level) :
    (asUsize level : Int) = level.toInt := by
  have low : 0 ≤ level.toInt := Int32.le_iff_toInt_le.mp nonneg
  have high := level.toInt_lt
  rw [asUsize]
  omega

theorem of_nat_as_usize {level : Int32} (nonneg : 0 ≤ level) :
    Int32.ofNat (asUsize level) = level := by
  rw [← Int32.ofInt_eq_ofNat, as_usize_of_nonneg nonneg, Int32.ofInt_toInt]

theorem bitset_round_trip (proper : bitset.Proper) :
    bytesToBitset (bitsetToBytes bitset) = bitset := by
  obtain ⟨padded, count, length, same, equation⟩ := bytes_to_bitset_eq (bitsetToBytes bitset)
  have positions : (range count).flatMap (wordPositions padded) = bitset.map asUsize := by
    apply (positions_sorted padded count).eq_of_mem_iff
    · rw [pairwise_map]
      apply proper.sorted.imp_of_mem
      intro level other inside otherInside less
      have order := Int32.lt_iff_toInt_lt.mp less
      have first := as_usize_of_nonneg (proper.nonneg level inside)
      have second := as_usize_of_nonneg (proper.nonneg other otherInside)
      omega
    · intro _
      rw [mem_positions length, same, bit_at_bitset]
  rw [equation, positions, map_map]
  conv_rhs => rw [← map_id bitset]
  exact map_congr_left fun level mem => of_nat_as_usize (proper.nonneg level mem)

end RoundTrip

end RChain.Models
