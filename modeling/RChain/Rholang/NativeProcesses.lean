import RChain.Rholang.NativeState
import Mathlib.Data.List.Sort

/-!
# The vault and proof-of-stake processes

Source: `rev_vault` and `pos` of `rholang/src/system_processes.rs`.

A call is the list of the values sent on the channel of the process. The answer is the
value that is sent on the return channel, which is not a part of the model.
-/

namespace RChain.Native

open BitCodec

/-- The Rholang values that the two processes take or answer. -/
inductive Value where
  | nil
  | bool (b : Bool)
  | number (n : Int64)
  | text (s : String)
  | byteArray (bytes : List Byte)
  | deployerId (publicKey : PublicKey)
  | list (items : List Value)
  | tuple (items : List Value)
  | set (items : List Value)
  | map (items : List (Value × Value))
  /-- Any process that is none of the above. -/
  | other

abbrev ProcessResult := Except String Value × NativeState

/-- Whether the caller is told that the call did not happen. -/
def refused : Except String Value → Bool
  | .error _ => true
  | .ok (.tuple (.bool false :: _)) => true
  | .ok _ => false

/-- A process whose writes all come after its checks. -/
def answer (state : NativeState) (outcome : Except String (Value × NativeState)) : ProcessResult :=
  match outcome with
  | .error e => (.error e, state)
  | .ok (value, next) => (.ok value, next)

/-- How `bond` and `withdraw` turn a native result into an answer. -/
def answerNative (outcome : NativeResult × NativeState) : ProcessResult :=
  match outcome with
  | (.error e, next) => (.error e, next)
  | (.ok (.error message), next) => (.ok (.tuple [.bool false, .text message]), next)
  | (.ok (.ok ()), next) => (.ok (.tuple [.bool true, .nil]), next)

def unapplyDeployerId (message : String) : Value → Except String PublicKey
  | .deployerId publicKey => .ok publicKey
  | _ => .error message

def unapplyNumber (message : String) : Value → Except String Int64
  | .number n => .ok n
  | _ => .error message

def unapplyText (message : String) : Value → Except String String
  | .text s => .ok s
  | _ => .error message

section RevVault

variable (revAddress : PublicKey → String)

def getBalance (rest : List Value) (state : NativeState) : Except String (Value × NativeState) :=
  match rest with
  | [addr, _ret] => do
    let addr ← unapplyText "getBalance expects a string address" addr
    return (.number (state.vaultBalance addr).value, state)
  | _ => .error "getBalance expects an address and return channel"

/-- The balances after moving `amount`, checked before anything is written. -/
def moveBalance (source target : String) (amount : NonNegI64) (state : NativeState) :
    Except String NativeState :=
  let fromBalance := state.vaultBalance source
  if fromBalance.value < amount.value then .error "transfer: insufficient balance"
  else if source = target then .ok state
  else
    let toBalance := state.vaultBalance target
    match NonNegI64.tryFrom (fromBalance.value - amount.value) with
    | .error e => .error e
    | .ok newFrom =>
      match checkedAdd toBalance.value amount.value with
      | none => .error "transfer: destination balance overflow"
      | some newToI64 =>
        match NonNegI64.tryFrom newToI64 with
        | .error e => .error e
        | .ok newTo =>
          .ok ((state.setVaultBalance source newFrom).setVaultBalance target newTo)

def transfer (rest : List Value) (state : NativeState) : Except String (Value × NativeState) :=
  match rest with
  | [deployerId, target, amount, _ret] => do
    let deployerId ← unapplyDeployerId "transfer expects a deployerId" deployerId
    let some source := fromPublicKey revAddress deployerId
      | .error "transfer: invalid deployerId"
    let target ← unapplyText "transfer expects a string to-address" target
    let amount ← unapplyNumber "transfer expects a number amount" amount
    let amount ← NonNegI64.tryFrom amount
    let next ← moveBalance source target amount state
    return (.nil, next)
  | _ => .error "transfer expects deployerId, to, amount and return channel"

def findOrCreate (rest : List Value) (state : NativeState) :
    Except String (Value × NativeState) :=
  match rest with
  | [deployerId, _ret] => do
    let deployerId ← unapplyDeployerId "findOrCreate expects a deployerId" deployerId
    let some addr := fromPublicKey revAddress deployerId
      | .error "findOrCreate: invalid deployerId"
    return (.tuple [.bool true, .text addr], state.findOrCreateVault addr)
  | _ => .error "findOrCreate expects deployerId and return channel"

def revVaultMethod (op : String) (rest : List Value) (state : NativeState) : ProcessResult :=
  if op = "getBalance" then answer state (getBalance rest state)
  else if op = "deposit" then
    (.error "revVault: deposit is not callable (REV is minted at genesis only)", state)
  else if op = "transfer" then answer state (transfer revAddress rest state)
  else if op = "findOrCreate" then answer state (findOrCreate revAddress rest state)
  else (.error s!"revVault: unknown method {op}", state)

def revVault (args : List Value) (state : NativeState) : ProcessResult :=
  match args with
  | [.text op, .list rest] => revVaultMethod revAddress op rest state
  | [.text _, _] => (.error "revVault arguments must be a list", state)
  | [_, _] => (.error "revVault method must be a string", state)
  | _ => (.error "revVault expects a method and arguments", state)

end RevVault

section Pos

variable (revAddress : PublicKey → String)

/-- The bonded validators in ascending order, with their stakes. -/
def orderedBonds (bonds : Bonds) : List (Validator × NonNegI64) :=
  Quot.liftOn bonds.keys.1 (fun keys => (keys.insertionSort (· ≤ ·)).filterMap fun validator =>
    (bonds.lookup validator).map fun stake => (validator, stake)) (by
      intro left right perm
      rw [((List.perm_insertionSort (· ≤ ·) left).trans
        (perm.trans (List.perm_insertionSort (· ≤ ·) right).symm)).eq_of_pairwise'
          (List.pairwise_insertionSort _ _) (List.pairwise_insertionSort _ _)])

def getBonds (rest : List Value) (state : NativeState) : Except String (Value × NativeState) :=
  match rest with
  | [_ret] =>
    .ok (.map ((orderedBonds state.bondsMap).map fun entry =>
      (.byteArray entry.1.bytes, .number entry.2.value)), state)
  | _ => .error "getBonds expects a return channel"

def getActiveValidators (rest : List Value) (state : NativeState) :
    Except String (Value × NativeState) :=
  match rest with
  | [_ret] =>
    .ok (.set ((orderedBonds state.bondsMap).map fun entry => .byteArray entry.1.bytes), state)
  | _ => .error "getActiveValidators expects a return channel"

/-- The arguments of `bond`, checked in the order of the source. -/
def bondArguments (rest : List Value) : Except String (Validator × NonNegI64) :=
  match rest with
  | [deployerId, amount, _ret] => do
    let deployerId ← unapplyDeployerId "bond expects a deployerId" deployerId
    let amount ← unapplyNumber "bond expects a number amount" amount
    let amount ← NonNegI64.tryFrom amount
    let validator ← Validator.tryFrom deployerId
    return (validator, amount)
  | _ => .error "bond expects deployerId, amount and return channel"

def withdrawArguments (rest : List Value) : Except String Validator :=
  match rest with
  | [deployerId, _ret] => do
    let deployerId ← unapplyDeployerId "withdraw expects a deployerId" deployerId
    Validator.tryFrom deployerId
  | _ => .error "withdraw expects deployerId and return channel"

def posMethod (op : String) (rest : List Value) (state : NativeState) : ProcessResult :=
  if op = "getBonds" then answer state (getBonds rest state)
  else if op = "getActiveValidators" then answer state (getActiveValidators rest state)
  else if op = "bond" then
    match bondArguments rest with
    | .error e => (.error e, state)
    | .ok (validator, amount) => answerNative (bond revAddress validator amount state)
  else if op = "withdraw" then
    match withdrawArguments rest with
    | .error e => (.error e, state)
    | .ok validator => answerNative (withdraw revAddress validator state)
  else (.error s!"pos: unknown method {op}", state)

def pos (args : List Value) (state : NativeState) : ProcessResult :=
  match args with
  | [.text op, .list rest] => posMethod revAddress op rest state
  | [.text _, _] => (.error "pos arguments must be a list", state)
  | [_, _] => (.error "pos method must be a string", state)
  | _ => (.error "pos expects a method and arguments", state)

end Pos

end RChain.Native
