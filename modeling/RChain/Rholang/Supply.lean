import RChain.Lib.Steps
import RChain.Rholang.NativeProcesses

/-!
# The supply held in vaults and bonds

What every operation on the native state does to the sum of all vault balances and
bonds. A successful charge changes the sum by exactly its amount, whatever the sign of
the amount; a slash can only lower it; a call of a process keeps it.
-/

namespace RChain.Native

open Ledger Steps

def NativeState.supply (state : NativeState) : Nat :=
  total NonNegI64.amount state.vaults + total NonNegI64.amount state.bondsMap

section Writes

variable (state : NativeState) (address : String)

theorem held_vault :
    held NonNegI64.amount state.vaults address = (state.vaultBalance address).amount := by
  unfold held NativeState.vaultBalance
  cases state.vaults.lookup address with
  | none => exact amount_zero.symm
  | some => rfl

theorem supply_set_vault (balance : NonNegI64) :
    (state.setVaultBalance address balance).supply + (state.vaultBalance address).amount =
      state.supply + balance.amount := by
  have written := total_insert NonNegI64.amount state.vaults address balance
  rw [held_vault] at written
  simp only [NativeState.supply, NativeState.setVaultBalance, NativeState.bondsMap]
  omega

theorem supply_set_bonds (bonds : Bonds) :
    (state.setBonds bonds).supply + total NonNegI64.amount state.bondsMap =
      state.supply + total NonNegI64.amount bonds := by
  simp only [NativeState.supply, NativeState.setBonds, NativeState.bondsMap, Option.getD_some]
  omega

theorem supply_find_or_create : (state.findOrCreateVault address).supply = state.supply := by
  unfold NativeState.findOrCreateVault
  split_ifs with present
  · rfl
  · have absent : state.vaults.lookup address = none := Finmap.lookup_eq_none.mpr present
    have written := supply_set_vault state address NonNegI64.zero
    have nothing : (state.vaultBalance address).amount = 0 := by
      rw [NativeState.vaultBalance, absent]
      exact amount_zero
    rw [nothing, amount_zero] at written
    exact written

end Writes

section Operations

variable (revAddress : PublicKey → String)

theorem pre_charge_spec (deployer : PublicKey) (amount : Int64) (state : NativeState) :
    ((preCharge revAddress deployer amount state).1 = .ok (.ok ()) ∧
      ((preCharge revAddress deployer amount state).2.supply : Int) = state.supply - amount.toInt) ∨
    ((preCharge revAddress deployer amount state).1 ≠ .ok (.ok ()) ∧
      (preCharge revAddress deployer amount state).2 = state) := by
  unfold preCharge
  split_ifs with free
  · left
    subst free
    simp
  · cases fromPublicKey revAddress deployer with
    | none => exact Or.inr ⟨by simp, rfl⟩
    | some address =>
      dsimp only
      split_ifs with poor
      · exact Or.inr ⟨by simp, rfl⟩
      · cases converted : NonNegI64.tryFrom ((state.vaultBalance address).value - amount) with
        | error => exact Or.inr ⟨by simp, rfl⟩
        | ok newBalance =>
          left
          have enough : amount ≤ (state.vaultBalance address).value := Int64.not_lt.mp poor
          have taken := amount_of_sub enough converted
          have written := supply_set_vault state address newBalance
          exact ⟨rfl, by dsimp only; omega⟩

theorem slash_supply (validator : Validator) (state : NativeState) :
    (slash validator state).2.supply ≤ state.supply := by
  have written := supply_set_bonds state (state.bondsMap.erase validator)
  have erased := total_erase NonNegI64.amount state.bondsMap validator
  simp only [slash]
  omega

theorem bond_spec (validator : Validator) (amount : NonNegI64) (state : NativeState) :
    (bond revAddress validator amount state).2.supply = state.supply ∧
      ((bond revAddress validator amount state).1 ≠ .ok (.ok ()) →
        (bond revAddress validator amount state).2 = state) := by
  unfold bond
  split_ifs with bonded
  · exact ⟨rfl, fun _ => rfl⟩
  · cases fromPublicKey revAddress validator.bytes with
    | none => exact ⟨rfl, fun _ => rfl⟩
    | some address =>
      dsimp only
      split_ifs with poor
      · exact ⟨rfl, fun _ => rfl⟩
      · cases converted : NonNegI64.tryFrom ((state.vaultBalance address).value - amount.value) with
        | error => exact ⟨rfl, fun _ => rfl⟩
        | ok newBalance =>
          have enough := Int64.not_lt.mp poor
          have taken := amount_of_sub enough converted
          rw [← amount_cast] at taken
          have moved := supply_set_vault state address newBalance
          have staked := supply_set_bonds (state.setVaultBalance address newBalance)
            (state.bondsMap.insert validator amount)
          have added := total_insert_absent NonNegI64.amount state.bondsMap amount bonded
          have same : (state.setVaultBalance address newBalance).bondsMap = state.bondsMap := rfl
          rw [same] at staked
          exact ⟨by dsimp only; omega, fun failed => absurd rfl failed⟩

/-- A withdrawal keeps the supply. It fails halfway only if balance and stake together
overflow, which a supply in range excludes. -/
theorem withdraw_spec (validator : Validator) (state : NativeState)
    (bounded : state.supply < 2 ^ 63) :
    (withdraw revAddress validator state).2.supply = state.supply ∧
      ((withdraw revAddress validator state).1 ≠ .ok (.ok ()) →
        (withdraw revAddress validator state).2 = state) := by
  unfold withdraw
  cases staked : state.bondsMap.lookup validator with
  | none => exact ⟨rfl, fun _ => rfl⟩
  | some stake =>
    have key : fromPublicKey revAddress validator.bytes = some (revAddress validator.bytes) :=
      if_pos validator.length_eq
    have sameBalance (address : String) :
        (state.setBonds (state.bondsMap.erase validator)).vaultBalance address =
          state.vaultBalance address := rfl
    have erased := total_erase NonNegI64.amount state.bondsMap validator
    have worth : held NonNegI64.amount state.bondsMap validator = stake.amount := by
      rw [held, staked]
      rfl
    have unbonded := supply_set_bonds state (state.bondsMap.erase validator)
    dsimp only
    rw [key]
    dsimp only
    rw [sameBalance]
    cases converted : NonNegI64.tryFrom
        ((state.vaultBalance (revAddress validator.bytes)).value + stake.value) with
    | error =>
      have overflow := overflow_of_add converted
      have balance := held_le_total NonNegI64.amount state.vaults (revAddress validator.bytes)
      rw [held_vault] at balance
      unfold NativeState.supply at bounded
      omega
    | ok newBalance =>
      have added := amount_of_add converted
      have credited := supply_set_vault (state.setBonds (state.bondsMap.erase validator))
        (revAddress validator.bytes) newBalance
      rw [sameBalance] at credited
      exact ⟨by dsimp only; omega, fun failed => absurd rfl failed⟩

theorem move_balance_supply {source target : String} {amount : NonNegI64}
    {state next : NativeState} (moved : moveBalance source target amount state = .ok next) :
    next.supply = state.supply := by
  unfold moveBalance at moved
  dsimp only at moved
  split_ifs at moved with poor self
  · rw [← Except.ok.inj moved]
  · cases taken : NonNegI64.tryFrom ((state.vaultBalance source).value - amount.value) with
    | error =>
      rw [taken] at moved
      cases moved
    | ok newFrom =>
      rw [taken] at moved
      dsimp only at moved
      cases sum : checkedAdd (state.vaultBalance target).value amount.value with
      | none =>
        rw [sum] at moved
        cases moved
      | some newToI64 =>
        rw [sum] at moved
        dsimp only at moved
        cases given : NonNegI64.tryFrom newToI64 with
        | error =>
          rw [given] at moved
          cases moved
        | ok newTo =>
          rw [given] at moved
          rw [← Except.ok.inj moved]
          have left := amount_of_sub (Int64.not_lt.mp poor) taken
          rw [← amount_cast] at left
          have right : newTo.amount = (state.vaultBalance target).amount + amount.amount := by
            have value := i64_try_from_some sum
            rw [← try_from_ok given, ← amount_cast, ← amount_cast, ← amount_cast] at value
            omega
          have debited := supply_set_vault state source newFrom
          have credited := supply_set_vault (state.setVaultBalance source newFrom) target newTo
          have kept : (state.setVaultBalance source newFrom).vaultBalance target =
              state.vaultBalance target := by
            rw [NativeState.vaultBalance, NativeState.setVaultBalance,
              Finmap.lookup_insert_of_ne _ (Ne.symm self)]
            rfl
          rw [kept] at credited
          omega

end Operations

section Processes

variable (revAddress : PublicKey → String)

/-- A call keeps the supply, and one that is refused keeps the whole state. -/
def Conserves (state : NativeState) (result : ProcessResult) : Prop :=
  result.2.supply = state.supply ∧ (refused result.1 = true → result.2 = state)

theorem conserves_error (state : NativeState) (message : String) :
    Conserves state (.error message, state) :=
  ⟨rfl, fun _ => rfl⟩

variable {state : NativeState} {rest : List Value} {next : NativeState} {value : Value}

theorem conserves_answer {outcome : Except String (Value × NativeState)}
    (granted : ∀ value next, outcome = .ok (value, next) →
      next.supply = state.supply ∧ refused (.ok value) = false) :
    Conserves state (answer state outcome) := by
  cases outcome with
  | error e => exact conserves_error state e
  | ok result =>
    obtain ⟨kept, accepted⟩ := granted result.1 result.2 rfl
    refine ⟨kept, fun refusal => ?_⟩
    rw [answer, accepted] at refusal
    exact absurd refusal Bool.false_ne_true

theorem conserves_native {outcome : NativeResult × NativeState}
    (kept : outcome.2.supply = state.supply)
    (unchanged : outcome.1 ≠ .ok (.ok ()) → outcome.2 = state) :
    Conserves state (answerNative outcome) := by
  rcases outcome with ⟨result, _⟩
  cases result with
  | error => exact ⟨kept, fun _ => unchanged (by simp)⟩
  | ok inner =>
    cases inner with
    | error => exact ⟨kept, fun _ => unchanged (by simp)⟩
    | ok => exact ⟨kept, fun refusal => absurd refusal Bool.false_ne_true⟩

theorem get_balance_granted (answered : getBalance rest state = .ok (value, next)) :
    next.supply = state.supply ∧ refused (.ok value) = false := by
  unfold getBalance at answered
  split at answered
  · obtain ⟨_, _, rest⟩ := bind_eq_ok.mp answered
    cases rest
    exact ⟨rfl, rfl⟩
  · cases answered

theorem transfer_granted (answered : transfer revAddress rest state = .ok (value, next)) :
    next.supply = state.supply ∧ refused (.ok value) = false := by
  unfold transfer at answered
  split at answered
  · obtain ⟨_, _, answered⟩ := bind_eq_ok.mp answered
    split at answered
    · obtain ⟨_, _, answered⟩ := bind_eq_ok.mp answered
      obtain ⟨_, _, answered⟩ := bind_eq_ok.mp answered
      obtain ⟨_, _, answered⟩ := bind_eq_ok.mp answered
      obtain ⟨_, moved, answered⟩ := bind_eq_ok.mp answered
      cases answered
      exact ⟨move_balance_supply moved, rfl⟩
    · cases answered
  · cases answered

theorem find_or_create_granted (answered : findOrCreate revAddress rest state = .ok (value, next)) :
    next.supply = state.supply ∧ refused (.ok value) = false := by
  unfold findOrCreate at answered
  split at answered
  · obtain ⟨_, _, answered⟩ := bind_eq_ok.mp answered
    split at answered
    · cases answered
      exact ⟨supply_find_or_create state _, rfl⟩
    · cases answered
  · cases answered

theorem rev_vault_conserves (args : List Value) (state : NativeState) :
    Conserves state (revVault revAddress args state) := by
  unfold revVault
  split
  · unfold revVaultMethod
    split_ifs
    · exact conserves_answer fun _ _ => get_balance_granted
    · exact conserves_error state _
    · exact conserves_answer fun _ _ => transfer_granted revAddress
    · exact conserves_answer fun _ _ => find_or_create_granted revAddress
    · exact conserves_error state _
  · exact conserves_error state _
  · exact conserves_error state _
  · exact conserves_error state _

theorem pos_conserves (args : List Value) (state : NativeState)
    (bounded : state.supply < 2 ^ 63) : Conserves state (pos revAddress args state) := by
  unfold pos
  split
  · unfold posMethod
    split_ifs
    · apply conserves_answer
      intro _ _ answered
      unfold getBonds at answered
      split at answered <;> cases answered
      exact ⟨rfl, rfl⟩
    · apply conserves_answer
      intro _ _ answered
      unfold getActiveValidators at answered
      split at answered <;> cases answered
      exact ⟨rfl, rfl⟩
    · split
      · exact conserves_error state _
      · obtain ⟨kept, unchanged⟩ := bond_spec revAddress _ _ state
        exact conserves_native kept unchanged
    · split
      · exact conserves_error state _
      · obtain ⟨kept, unchanged⟩ := withdraw_spec revAddress _ state bounded
        exact conserves_native kept unchanged
    · exact conserves_error state _
  · exact conserves_error state _
  · exact conserves_error state _
  · exact conserves_error state _

end Processes

end RChain.Native
