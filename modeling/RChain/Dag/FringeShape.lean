import RChain.Dag.Agreement

/-!
# What a new fringe is made of

A next fringe has one message of every sender of the justifications, whoever is bonded: the
minimum messages are only counted. It is returned on the stake of the justification senders whose
view of it counts.
-/

namespace RChain.Dag

open List AList

variable {M S : Type} [DecidableEq M] [DecidableEq S]

/-- The fringes that the loop of `calculate_finalization` computes, each with the one before. -/
inductive Computes (msgMap : MsgMap M S) (justifications : List (Message M S))
    (bonds : BondsMap S) : Finset (Message M S) → Finset (Message M S) → Prop
  | first {next : Finset (Message M S)}
      (returned : nextFringe msgMap justifications bonds (latestFringe msgMap justifications) =
        some next) :
      Computes msgMap justifications bonds (latestFringe msgMap justifications) next
  | later {cut current next : Finset (Message M S)}
      (computed : Computes msgMap justifications bonds cut current) (progress : current ≠ cut)
      (returned : nextFringe msgMap justifications bonds current = some next) :
      Computes msgMap justifications bonds current next

/-- One message of every bonded validator, and none of anyone else. -/
structure OnePerBonded (bonds : BondsMap S) (fringe : Finset (Message M S)) : Prop where
  one : ∀ s ∈ bonds, ∃! m, m ∈ fringe ∧ m.sender = s
  noOther : ∀ m ∈ fringe, m.sender ∈ bonds

/-- The bonded validators whose justification supports the fringe computed after `cut`. -/
def supporters (msgMap : MsgMap M S) (justifications : List (Message M S)) (bonds : BondsMap S)
    (cut : Finset (Message M S)) : Finset S :=
  let nextLayer := calculateNextLayer msgMap (justifications.map (minMsg msgMap cut))
  let supportMap := calculateNextFringeSupportMap msgMap justifications nextLayer cut
  bonds.keys.toFinset.filter fun s => (supportMap.lookup s).elim false (allBonded bonds)

def stakeOf (bonds : BondsMap S) (senders : Finset S) : Nat :=
  ∑ s ∈ senders, (bonds.lookup s).getD 0

section Layer

variable {msgMap : MsgMap M S} {finalized : Finset (Message M S)}

theorem self_parents_sender {sender : S} (fuel : Nat) (next : List (Message M S))
    (own : ∀ m ∈ next, m.sender = sender) :
    ∀ m ∈ selfParentsLoop msgMap finalized sender fuel next, m.sender = sender := by
  induction fuel generalizing next with
  | zero =>
    intro _ mem
    cases mem
  | succ _ ih =>
    rw [selfParentsLoop]
    cases last : next.getLast? with
    | none =>
      intro _ mem
      cases mem
    | some top =>
      rw [forall_mem_cons]
      exact ⟨own top (mem_of_getLast? last), ih _ fun m mem => (mem_own_parents.mp mem).2.1⟩

theorem min_msg_sender (p : Message M S) : (minMsg msgMap finalized p).sender = p.sender := by
  rw [minMsg]
  rcases mem_cons.mp (getLast_mem (cons_ne_nil p _)) with same | deeper
  · rw [same]
  · exact self_parents_sender _ _ (fun m mem => (mem_own_parents.mp mem).2.1) _ deeper

omit [DecidableEq M] in
theorem min_fold_senders (minMsgs : List (Message M S)) (layer : AList (fun _ : S => Message M S))
    (own : ∀ s m, layer.lookup s = some m → m.sender = s) (s : S) :
    (s ∈ minMsgs.foldl (fun layer x => layer.insert x.sender x) layer ↔
      s ∈ layer ∨ ∃ m ∈ minMsgs, m.sender = s) ∧
    ∀ m, (minMsgs.foldl (fun layer x => layer.insert x.sender x) layer).lookup s = some m →
      m.sender = s := by
  induction minMsgs generalizing layer with
  | nil => simpa using own s
  | cons x _ ih =>
    have kept : ∀ t m, (layer.insert x.sender x).lookup t = some m → m.sender = t := by
      intro t m found
      by_cases here : t = x.sender
      · subst here
        rw [lookup_insert, Option.some.injEq] at found
        rw [← found]
      · rw [lookup_insert_ne here] at found
        exact own t m found
    obtain ⟨keys, owned⟩ := ih (layer.insert x.sender x) kept
    rw [foldl_cons]
    refine ⟨?_, owned⟩
    rw [keys, mem_insert, exists_mem_cons_iff, eq_comm (a := s), or_assoc, or_left_comm]

theorem next_layer_senders (minMsgs : List (Message M S)) (s : S) :
    (s ∈ calculateNextLayer msgMap minMsgs ↔ ∃ m ∈ minMsgs, m.sender = s) ∧
      ∀ m, (calculateNextLayer msgMap minMsgs).lookup s = some m → m.sender = s := by
  obtain ⟨keys, owned⟩ := min_fold_senders minMsgs ∅ (by simp) s
  rw [calculateNextLayer]
  refine ⟨?_, fun top found => ?_⟩
  · rw [keys_raise_fold, keys]
    simp
  · have present : s ∈ minMsgs.foldl (fun layer x => layer.insert x.sender x)
        (∅ : AList fun _ : S => Message M S) := by
      rw [← keys_raise_fold, ← lookup_isSome, found]
      rfl
    obtain ⟨_, foundLow⟩ := Option.isSome_iff_exists.mp (lookup_isSome.mpr present)
    obtain ⟨_, foundTop, origin, _⟩ := lookup_raise_fold _ _ s foundLow
    rw [foundTop, Option.some.injEq] at found
    subst found
    rcases origin with rfl | ⟨_, own⟩
    · exact owned _ foundLow
    · exact own

end Layer

section Stake

variable {bonds : BondsMap S}

theorem entries_sum {Value : Type} (m : AList (fun _ : S => Value)) (f : S → Value → Nat) :
    (m.entries.map fun entry => f entry.1 entry.2).sum =
      ∑ s ∈ m.keys.toFinset, (m.lookup s).elim 0 (f s) := by
  rw [sum_toFinset _ m.keys_nodup, AList.keys, List.keys, map_map]
  congr 1
  refine map_congr_left fun entry mem => ?_
  rw [Function.comp_apply, mem_lookup_iff.mpr mem, Option.elim_some]

/-- The stake that `calculate_fringe` adds up is the stake of the bonded senders whose entry
counts. -/
theorem full_partition_stake (supportMap : AList (fun _ : S => AList (fun _ : S => Finset S))) :
    (supportMap.entries.map fun entry =>
      if allBonded bonds entry.2 then (bonds.lookup entry.1).getD 0 else 0).sum =
    stakeOf bonds (bonds.keys.toFinset.filter fun s =>
      (supportMap.lookup s).elim false (allBonded bonds)) := by
  rw [entries_sum supportMap fun s seen =>
    if allBonded bonds seen then (bonds.lookup s).getD 0 else 0, stakeOf]
  symm
  refine Finset.sum_subset_zero_on_sdiff ?_ ?_ ?_
  · intro s counted
    obtain ⟨_, full⟩ := Finset.mem_filter.mp counted
    rw [mem_toFinset, ← AList.mem_keys, ← AList.lookup_isSome]
    cases found : supportMap.lookup s with
    | none =>
      rw [found] at full
      cases full
    | some => rfl
  · intro s uncounted
    obtain ⟨_, outside⟩ := Finset.mem_sdiff.mp uncounted
    cases found : supportMap.lookup s with
    | none => rfl
    | some =>
      rw [Option.elim_some]
      split_ifs with full
      · cases stake : bonds.lookup s with
        | none => rfl
        | some =>
          refine absurd (Finset.mem_filter.mpr ⟨?_, ?_⟩) outside
          · rw [bonded_senders_mem, ← lookup_isSome, stake]
            rfl
          · rw [found, Option.elim_some]
            exact full
      · rfl
  · intro s counted
    obtain ⟨_, full⟩ := Finset.mem_filter.mp counted
    cases found : supportMap.lookup s with
    | none =>
      rw [found] at full
      cases full
    | some =>
      rw [found, Option.elim_some] at full
      rw [Option.elim_some, if_pos full]

theorem total_stake : (bonds.entries.map (·.2)).sum = stakeOf bonds bonds.keys.toFinset := by
  rw [entries_sum bonds fun _ stake => stake, stakeOf]
  refine Finset.sum_congr rfl fun s _ => ?_
  cases bonds.lookup s <;> rfl

end Stake

section Shape

variable {msgMap : MsgMap M S} {justifications : List (Message M S)} {bonds : BondsMap S}
  {cut next : Finset (Message M S)}

section

variable (returned : nextFringe msgMap justifications bonds cut = some next)

include returned

/-- The messages of a next fringe are those of a layer with a message of every justification
sender. -/
theorem next_fringe_layer : ∃ layer : AList (fun _ : S => Message M S),
      (∀ m, m ∈ next ↔ ∃ s, layer.lookup s = some m) ∧
      (∀ s m, layer.lookup s = some m → m.sender = s) ∧
      ∀ s, s ∈ layer ↔ ∃ j ∈ justifications, j.sender = s := by
  obtain ⟨_, rfl, _⟩ := next_fringe_cases returned
  refine ⟨_, mem_layer_entries _, fun s => (next_layer_senders _ s).2, fun s => ?_⟩
  rw [(next_layer_senders _ s).1]
  simp [min_msg_sender]

theorem next_fringe_sender {m : Message M S} (mem : m ∈ next) :
    ∃ j ∈ justifications, j.sender = m.sender := by
  obtain ⟨_, messages, owned, keys⟩ := next_fringe_layer returned
  obtain ⟨s, found⟩ := (messages m).mp mem
  rw [← keys, owned s m found, ← lookup_isSome, found]
  rfl

theorem next_fringe_one {j : Message M S} (listed : j ∈ justifications) :
    ∃! m, m ∈ next ∧ m.sender = j.sender := by
  obtain ⟨_, messages, owned, keys⟩ := next_fringe_layer returned
  have present := (keys j.sender).mpr ⟨j, listed, rfl⟩
  obtain ⟨m, found⟩ := Option.isSome_iff_exists.mp (lookup_isSome.mpr present)
  refine ⟨m, ⟨(messages m).mpr ⟨j.sender, found⟩, owned _ m found⟩, ?_⟩
  rintro other ⟨mem, same⟩
  obtain ⟨s, foundOther⟩ := (messages other).mp mem
  rw [← owned s other foundOther, same, found] at foundOther
  exact (Option.some.inj foundOther).symm

theorem next_fringe_supported :
    isSuperMajority (stakeOf bonds (supporters msgMap justifications bonds cut))
      (stakeOf bonds bonds.keys.toFinset) = true := by
  unfold nextFringe at returned
  dsimp only at returned
  split_ifs at returned with count supported
  rw [calculateFringe, full_partition_stake, total_stake] at supported
  exact supported

end

theorem computed_from (computed : Computes msgMap justifications bonds cut next) :
    nextFringe msgMap justifications bonds cut = some next := by
  cases computed with
  | first returned => exact returned
  | later _ _ returned => exact returned

theorem loop_computes (fuel : Nat) (current : Finset (Message M S))
    (found : Option (Finset (Message M S)))
    (progress : ∀ nf, nextFringe msgMap justifications bonds current = some nf →
      Computes msgMap justifications bonds current nf)
    (earlier : ∀ nf, found = some nf → ∃ cut, Computes msgMap justifications bonds cut nf)
    (returned : finalizationLoop msgMap justifications bonds fuel current found = some next) :
    ∃ cut, Computes msgMap justifications bonds cut next := by
  induction fuel generalizing current found with
  | zero => exact earlier next returned
  | succ _ ih =>
    unfold finalizationLoop at returned
    cases step : nextFringe msgMap justifications bonds current with
    | none =>
      rw [step] at returned
      exact earlier next returned
    | some nf =>
      rw [step] at returned
      dsimp only at returned
      have computed := progress nf step
      split_ifs at returned with stuck
      · exact earlier next returned
      · refine ih nf (some nf) (fun later => computed.later stuck) ?_ returned
        intro _ same
        cases same
        exact ⟨current, computed⟩

/-- Every fringe that is computed has a supermajority of supporters. It has one message of every
bonded validator and no other exactly when the senders of the justifications are the bonded
validators. -/
theorem new_fringe_shape_iff (msgMap : MsgMap M S) (justifications : List (Message M S))
    (bonds : BondsMap S) :
    (∀ next, (calculateFinalization msgMap justifications bonds).2 = some next →
      ∃ cut, Computes msgMap justifications bonds cut next) ∧
    ∀ cut next, Computes msgMap justifications bonds cut next →
      (OnePerBonded bonds next ↔ ∀ s, s ∈ bonds ↔ ∃ j ∈ justifications, j.sender = s) ∧
      isSuperMajority (stakeOf bonds (supporters msgMap justifications bonds cut))
        (stakeOf bonds bonds.keys.toFinset) = true := by
  refine ⟨fun next returned => loop_computes _ _ none (fun nf => Computes.first) (by simp) returned,
    fun cut next computed => ⟨?_, next_fringe_supported (computed_from computed)⟩⟩
  have returned := computed_from computed
  constructor
  · intro shape s
    constructor
    · intro bonded
      obtain ⟨_, ⟨member, rfl⟩, _⟩ := shape.one s bonded
      exact next_fringe_sender returned member
    · rintro ⟨_, listed, rfl⟩
      obtain ⟨m, ⟨member, same⟩, _⟩ := next_fringe_one returned listed
      rw [← same]
      exact shape.noOther m member
  · intro same
    refine ⟨fun s bonded => ?_, fun m member => ?_⟩
    · obtain ⟨_, listed, rfl⟩ := (same s).mp bonded
      exact next_fringe_one returned listed
    · exact (same m.sender).mpr (next_fringe_sender returned member)

end Shape

section Outsider

def outsiderBonds : BondsMap Nat := ((∅ : BondsMap Nat).insert 1 10).insert 0 90

def outsiderMessage (id height sender senderSeq : Nat) (parents : List Nat) (seen : Finset Nat) :
    Message Nat Nat where
  id := id
  height := height
  sender := sender
  senderSeq := senderSeq
  bondsMap := outsiderBonds
  parents := parents
  fringe := ∅
  seen := seen

/-- A message of validator 9, which is not bonded. -/
def outsider := outsiderMessage 1 0 9 0 [] {1}

def insider := outsiderMessage 2 1 0 0 [1] {1, 2}

def insiderTop := outsiderMessage 5 3 0 2 [3, 4] {1, 2, 3, 4, 5}

def outsiderMap : MsgMap Nat Nat :=
  [outsider, insider, outsiderMessage 3 2 1 0 [1, 2] {1, 2, 3}, outsiderMessage 4 2 0 1 [2] {1, 2, 4},
    insiderTop].foldl (fun msgMap m => msgMap.insert m.id m) ∅

/-- One of the two justifications is the outsider's, none is of validator 1: their number is the
number of bonded validators, and validator 0 alone has the stake. -/
theorem outsider_in_fringe :
    (calculateFinalization outsiderMap [outsider, insiderTop] outsiderBonds).2 =
      some {insider, outsider} ∧
    ¬ OnePerBonded outsiderBonds ({insider, outsider} : Finset (Message Nat Nat)) := by
  refine ⟨by decide +kernel, fun shape => ?_⟩
  exact absurd (shape.noOther outsider (by decide)) (by decide)

/-- In the run of two bonded validators the first round is a fringe. -/
theorem first_round_shape : OnePerBonded sampleBonds
    ({sampleMessage 0 1 [] {10}, sampleMessage 1 1 [] {11}} : Finset (Message Nat Nat)) := by
  have shape := new_fringe_shape_iff (sampleLog.foldl DagMessageState.insertMsg
    DagMessageState.empty).msgMap (sampleLog.drop 4) sampleBonds
  obtain ⟨cut, computed⟩ := shape.1
    {sampleMessage 0 1 [] {10}, sampleMessage 1 1 [] {11}} (by decide +kernel)
  refine (shape.2 cut _ computed).1.mpr fun s => ?_
  rw [sampleBonds, AList.mem_insert, AList.mem_insert]
  simp [sampleLog, sampleMessage, AList.notMem_empty, eq_comm]

end Outsider

end RChain.Dag
