import RChain.Lib.Ledger
import RChain.Shared.Refined

/-!
# Native vaults and proof of stake

Source: `rholang/src/native_state.rs`.

A leaf that was never written is absent: the bonds leaf is an `Option`, and a vault
without a leaf reads as zero. Leaves are written from refined values only, so the
values are refined here, and decoding a leaf cannot fail. Hashing and base-58, by
which an address is made from a key, are the parameter `revAddress`; distinct
addresses have distinct leaves.
-/

namespace RChain.Native

open Ledger

abbrev Bonds := Book Validator NonNegI64

structure NativeState where
  bonds : Option Bonds
  vaults : Book String NonNegI64
deriving DecidableEq

def NativeState.empty : NativeState := ⟨none, ∅⟩

/-- The bonds map; an absent leaf is an empty map. -/
def NativeState.bondsMap (state : NativeState) : Bonds := state.bonds.getD ∅

def NativeState.setBonds (state : NativeState) (bonds : Bonds) : NativeState :=
  { state with bonds := some bonds }

/-- A vault balance; a vault that does not exist holds nothing. -/
def NativeState.vaultBalance (state : NativeState) (address : String) : NonNegI64 :=
  (state.vaults.lookup address).getD NonNegI64.zero

def NativeState.setVaultBalance (state : NativeState) (address : String)
    (balance : NonNegI64) : NativeState :=
  { state with vaults := state.vaults.insert address balance }

def NativeState.findOrCreateVault (state : NativeState) (address : String) : NativeState :=
  if address ∈ state.vaults then state else state.setVaultBalance address NonNegI64.zero

/-- `RevAddress::from_public_key`. -/
def fromPublicKey (revAddress : PublicKey → String) (key : PublicKey) : Option String :=
  if key.length = 65 then some (revAddress key) else none

/-- The outer result is a platform failure, the inner one the answer to the user. -/
abbrev NativeResult := Except String (Except String Unit)

def preCharge (revAddress : PublicKey → String) (deployer : PublicKey) (amount : Int64)
    (state : NativeState) : NativeResult × NativeState :=
  if amount = 0 then (.ok (.ok ()), state)
  else
    match fromPublicKey revAddress deployer with
    | none => (.error "preCharge: invalid deployer public key", state)
    | some address =>
      let balance := state.vaultBalance address
      if balance.value < amount then
        (.ok (.error s!"preCharge: insufficient funds ({balance.value} < {amount})"), state)
      else
        match NonNegI64.tryFrom (balance.value - amount) with
        | .error e => (.error s!"preCharge: {e}", state)
        | .ok newBalance => (.ok (.ok ()), state.setVaultBalance address newBalance)

/-- The refund vault is not modelled by the source: a successful no-op. -/
def refund (_amount : Int64) (state : NativeState) : NativeResult × NativeState :=
  (.ok (.ok ()), state)

/-- Epochs are not modelled by the source: a successful no-op. -/
def closeBlock (state : NativeState) : NativeResult × NativeState :=
  (.ok (.ok ()), state)

def slash (validator : Validator) (state : NativeState) : NativeResult × NativeState :=
  (.ok (.ok ()), state.setBonds (state.bondsMap.erase validator))

def bond (revAddress : PublicKey → String) (validator : Validator) (amount : NonNegI64)
    (state : NativeState) : NativeResult × NativeState :=
  if validator ∈ state.bondsMap then (.ok (.error "Public key is already bonded."), state)
  else
    match fromPublicKey revAddress validator.bytes with
    | none => (.error "invalid validator public key", state)
    | some address =>
      let balance := state.vaultBalance address
      if balance.value < amount.value then
        (.ok (.error
          s!"insufficient funds to bond {amount.value} (have {balance.value})"), state)
      else
        match NonNegI64.tryFrom (balance.value - amount.value) with
        | .error e => (.error s!"bond: {e}", state)
        | .ok newBalance =>
          (.ok (.ok ()),
            (state.setVaultBalance address newBalance).setBonds
              (state.bondsMap.insert validator amount))

/-- The bond is removed before the vault is credited, so a failure of the credit leaves the
bonds written. -/
def withdraw (revAddress : PublicKey → String) (validator : Validator) (state : NativeState) :
    NativeResult × NativeState :=
  match state.bondsMap.lookup validator with
  | none => (.error "User is not bonded", state)
  | some stake =>
    let unbonded := state.setBonds (state.bondsMap.erase validator)
    match fromPublicKey revAddress validator.bytes with
    | none => (.error "invalid validator public key", unbonded)
    | some address =>
      match NonNegI64.tryFrom ((unbonded.vaultBalance address).value + stake.value) with
      | .error e => (.error s!"withdraw: {e}", unbonded)
      | .ok newBalance => (.ok (.ok ()), unbonded.setVaultBalance address newBalance)

end RChain.Native
