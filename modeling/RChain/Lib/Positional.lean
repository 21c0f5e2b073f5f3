import Mathlib.Data.List.TakeWhile
import Mathlib.Data.Nat.Digits.Lemmas

/-!
# Positional numbers with leading zeros

A list of digits, the highest first, is the number of its leading zeros and the number it
denotes; the two determine it.
-/

namespace Positional

open List

variable {base : Nat} {digits : List Nat}

def zeros (digits : List Nat) : Nat := (digits.takeWhile (· = 0)).length

def value (base : Nat) (digits : List Nat) : Nat := Nat.ofDigits base digits.reverse

def join (base zeros n : Nat) : List Nat := replicate zeros 0 ++ (Nat.digits base n).reverse

theorem value_eq_foldl : value base digits = digits.foldl (fun n d => d + base * n) 0 := by
  rw [value, Nat.ofDigits_eq_foldr, foldr_reverse]
  rfl

theorem zeros_append (digits : List Nat) :
    replicate (zeros digits) 0 ++ digits.dropWhile (· = 0) = digits := by
  have all : digits.takeWhile (· = 0) = replicate (zeros digits) 0 :=
    eq_replicate_of_mem fun d mem => by simpa using mem_takeWhile_imp mem
  rw [← all, takeWhile_append_dropWhile]

theorem value_replicate (count : Nat) (digits : List Nat) :
    value base (replicate count 0 ++ digits) = value base digits := by
  rw [value, reverse_append, reverse_replicate, Nat.ofDigits_append_replicate_zero]
  rfl

theorem value_drop_zeros (digits : List Nat) :
    value base (digits.dropWhile (· = 0)) = value base digits := by
  conv_rhs => rw [← zeros_append digits, value_replicate]

theorem join_split (large : 1 < base) (bounded : ∀ d ∈ digits, d < base) :
    join base (zeros digits) (value base digits) = digits := by
  rw [join, ← value_drop_zeros, value, Nat.digits_ofDigits base large, reverse_reverse, zeros_append]
  · intro d mem
    exact bounded d (dropWhile_sublist _ |>.subset (mem_reverse.mp mem))
  · intro nonempty
    rw [getLast_reverse]
    have first := head_dropWhile_not (p := (· = 0)) (by simpa using nonempty)
    simpa using first

theorem value_join (zeros n : Nat) : value base (join base zeros n) = n := by
  rw [join, value_replicate, value, reverse_reverse, Nat.ofDigits_digits]

theorem zeros_join (count n : Nat) : zeros (join base count n) = count := by
  have none : (Nat.digits base n).reverse.takeWhile (· = 0) = [] := by
    rw [takeWhile_eq_nil_iff]
    intro long
    rw [get_eq_getElem, ← head_eq_getElem (ne_nil_of_length_pos long), head_reverse]
    have nonzero : n ≠ 0 := by
      rintro rfl
      simp at long
    simpa using Nat.getLast_digit_ne_zero base nonzero
  rw [zeros, join, takeWhile_append_of_pos (by simp), none, append_nil, length_replicate]

theorem join_bounded (large : 1 < base) {zeros n d : Nat} (mem : d ∈ join base zeros n) :
    d < base := by
  rcases mem_append.mp mem with zero | digit
  · rw [eq_of_mem_replicate zero]
    omega
  · exact Nat.digits_lt_base large (mem_reverse.mp digit)

end Positional
