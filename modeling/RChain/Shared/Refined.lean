import RChain.Lib.BitCodec
import Mathlib.Data.List.Lex
import Mathlib.Order.Fin.Basic

/-!
# Refined types: non-negative 64-bit integers and validator keys

Source: `shared/src/refined.rs` and `models/src/validator.rs`.

`i64` arithmetic is that of a release build: an unchecked operation wraps.
-/

namespace RChain

open BitCodec Int64

abbrev PublicKey := List Byte

/-- A validator is identified by an uncompressed public key of 65 bytes. -/
structure Validator where
  bytes : PublicKey
  length_eq : bytes.length = 65
deriving DecidableEq

def Validator.tryFrom (bytes : PublicKey) : Except String Validator :=
  if length_eq : bytes.length = 65 then .ok ⟨bytes, length_eq⟩
  else .error s!"expected 65 bytes, got {bytes.length}"

theorem validator_bytes_injective : Function.Injective Validator.bytes := by
  intro left right same
  cases left
  cases right
  cases same
  rfl

instance : LinearOrder Validator := LinearOrder.lift' Validator.bytes validator_bytes_injective

structure NonNegI64 where
  value : Int64
  nonneg : 0 ≤ value
deriving DecidableEq

def NonNegI64.zero : NonNegI64 := ⟨0, by decide⟩

def NonNegI64.tryFrom (v : Int64) : Except String NonNegI64 :=
  if nonneg : 0 ≤ v then .ok ⟨v, nonneg⟩
  else .error s!"NonNegI64 must be non-negative, got {v}"

/-- `i64::try_from` on a wider integer. -/
def i64TryFrom (v : Int) : Option Int64 :=
  if -2 ^ 63 ≤ v ∧ v < 2 ^ 63 then some (Int64.ofInt v) else none

def checkedAdd (left right : Int64) : Option Int64 :=
  i64TryFrom (left.toInt + right.toInt)

def NonNegI64.amount (v : NonNegI64) : Nat := v.value.toInt.toNat

theorem amount_zero : NonNegI64.zero.amount = 0 := by decide

theorem amount_cast (v : NonNegI64) : (v.amount : Int) = v.value.toInt := by
  have nonneg := le_iff_toInt_le.mp v.nonneg
  rw [toInt_zero] at nonneg
  exact Int.toNat_of_nonneg nonneg

theorem amount_lt (v : NonNegI64) : v.amount < 2 ^ 63 := by
  have cast := amount_cast v
  have bound := v.value.toInt_lt
  omega

theorem try_from_ok {v : Int64} {n : NonNegI64} (converted : NonNegI64.tryFrom v = .ok n) :
    n.value = v := by
  unfold NonNegI64.tryFrom at converted
  split_ifs at converted
  rw [← Except.ok.inj converted]

theorem try_from_error {v : Int64} {message : String}
    (failed : NonNegI64.tryFrom v = .error message) : v.toInt < 0 := by
  unfold NonNegI64.tryFrom at failed
  split_ifs at failed with nonneg
  rw [le_iff_toInt_le, toInt_zero] at nonneg
  omega

theorem i64_try_from_some {v : Int} {n : Int64} (converted : i64TryFrom v = some n) :
    n.toInt = v := by
  unfold i64TryFrom at converted
  split_ifs at converted with range
  rw [← Option.some.inj converted]
  exact toInt_ofInt_of_le range.1 range.2

theorem amount_of_sub {balance left : NonNegI64} {cost : Int64} (enough : cost ≤ balance.value)
    (converted : NonNegI64.tryFrom (balance.value - cost) = .ok left) :
    (left.amount : Int) = balance.amount - cost.toInt := by
  have value := congrArg Int64.toInt (try_from_ok converted)
  rw [toInt_sub] at value
  have order := le_iff_toInt_le.mp enough
  have upper := balance.value.toInt_lt
  have lower := cost.le_toInt
  have leftCast := amount_cast left
  have balanceCast := amount_cast balance
  rw [Int.bmod_def] at value
  split_ifs at value <;> omega

theorem amount_of_add {left right sum : NonNegI64}
    (converted : NonNegI64.tryFrom (left.value + right.value) = .ok sum) :
    sum.amount = left.amount + right.amount := by
  have value := congrArg Int64.toInt (try_from_ok converted)
  rw [toInt_add] at value
  have leftCast := amount_cast left
  have rightCast := amount_cast right
  have sumCast := amount_cast sum
  have leftBound := amount_lt left
  have rightBound := amount_lt right
  rw [Int.bmod_def] at value
  split_ifs at value <;> omega

theorem overflow_of_add {left right : NonNegI64} {message : String}
    (failed : NonNegI64.tryFrom (left.value + right.value) = .error message) :
    2 ^ 63 ≤ left.amount + right.amount := by
  have negative := try_from_error failed
  rw [toInt_add] at negative
  have leftCast := amount_cast left
  have rightCast := amount_cast right
  rw [Int.bmod_def] at negative
  split_ifs at negative <;> omega

end RChain
