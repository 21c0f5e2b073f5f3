import RChain.Casper.Merging
import RChain.Casper.MultiParentCasper
import RChain.Casper.Play

/-!
# Differences of number channels

Source: `calculate_num_channel_diff` of `rholang/src/merging.rs` and
`convert_number_channels_to_diff` of `casper/src/runtime_manager.rs`.

The deploys of a block are to record the values of the number channels that they end with; the
block keeps the differences. They add up to the last value that was recorded, in 64-bit arithmetic.
Playing a block records no value at all, so the differences add up to the change of a channel only
where there is none.
-/

namespace RChain.Casper

open List Native Steps TupleSpace

section Differences

variable {Ch : Type} [DecidableEq Ch]

def channelDiff (prevVals : Ch → Option Int64) (endVals : List (Ch × Int64)) : List (Ch × Int64) :=
  endVals.filterMap fun entry => (prevVals entry.1).map fun prev => (entry.1, entry.2 - prev)

def calculateNumChannelDiff :
    List (List (Ch × Int64)) → (Ch → Option Int64) → List (List (Ch × Int64))
  | [], _ => []
  | endVals :: rest, prevVals => channelDiff prevVals endVals ::
    calculateNumChannelDiff rest fun ch => (endVals.lookup ch).or (prevVals ch)

/-- The initial values are read for the channels that some deploy recorded. -/
def convertNumberChannelsToDiff (channelsData : List (List (Ch × Int64)))
    (readInit : Ch → Except String Int64) : Except String (List (List (Ch × Int64))) := do
  let initValues ← ((channelsData.flatMap (·.map Prod.fst)).dedup).mapM fun ch => do
    let number ← readInit ch
    return (ch, number)
  return calculateNumChannelDiff channelsData fun ch => initValues.lookup ch

/-- The sum of the differences of a channel. -/
def diffSum (diffs : List (List (Ch × Int64))) (ch : Ch) : Int64 :=
  (diffs.map fun diff => (diff.lookup ch).getD 0).sum

/-- The last value that the deploys recorded for a channel, or the given one. -/
def lastValue (channelsData : List (List (Ch × Int64))) (ch : Ch) (init : Int64) : Int64 :=
  channelsData.foldl (fun prev values => (values.lookup ch).getD prev) init

theorem lookup_channel_diff (prevVals : Ch → Option Int64) (endVals : List (Ch × Int64)) (ch : Ch) :
    (channelDiff prevVals endVals).lookup ch =
      (endVals.lookup ch).bind fun value => (prevVals ch).map fun prev => value - prev := by
  induction endVals with
  | nil => rfl
  | cons entry _ ih =>
    obtain ⟨key, _⟩ := entry
    unfold channelDiff at ih ⊢
    by_cases here : ch = key
    · subst here
      cases known : prevVals ch with
      | none => simp [known, ih]
      | some => simp [known]
    · have other : (ch == key) = false := by simpa using here
      cases known : prevVals key with
      | none | some => simp [known, ih, lookup_cons, other]

theorem diff_sum_telescopes (channelsData : List (List (Ch × Int64))) (prevVals : Ch → Option Int64)
    (ch : Ch) (prev : Int64)
    (known : ∀ values ∈ channelsData, (values.lookup ch).isSome → prevVals ch = some prev) :
    prev + diffSum (calculateNumChannelDiff channelsData prevVals) ch =
      lastValue channelsData ch prev := by
  induction channelsData generalizing prevVals prev with
  | nil => exact Int64.add_zero prev
  | cons endVals rest ih =>
    have sum : diffSum (calculateNumChannelDiff (endVals :: rest) prevVals) ch =
        ((channelDiff prevVals endVals).lookup ch).getD 0 + diffSum (calculateNumChannelDiff rest
          fun ch => (endVals.lookup ch).or (prevVals ch)) ch := sum_cons
    rw [sum, lookup_channel_diff]
    cases recorded : endVals.lookup ch with
    | none =>
      have later := ih (fun ch => (endVals.lookup ch).or (prevVals ch)) prev fun values mem some => by
        simpa [recorded] using known values (mem_cons_of_mem _ mem) some
      simpa [lastValue, recorded] using later
    | some value =>
      have later := ih (fun ch => (endVals.lookup ch).or (prevVals ch)) value fun _ _ _ => by
        simp [recorded]
      rw [known endVals mem_cons_self (by simp [recorded])]
      simp only [lastValue, foldl_cons, recorded, Option.getD_some, Option.bind_some,
        Option.map_some] at later ⊢
      rw [← later, ← Int64.add_assoc, Int64.add_comm prev, Int64.sub_add_cancel]

variable {readInit : Ch → Except String Int64} {ch : Ch} {init : Int64}

/-- The value of a channel that is read is found under the channel. -/
theorem lookup_read {keys : List Ch} {initValues : List (Ch × Int64)}
    (read : keys.mapM (fun ch => do
      let number ← readInit ch
      return (ch, number)) = .ok initValues)
    (mem : ch ∈ keys) (value : readInit ch = .ok init) : initValues.lookup ch = some init := by
  induction keys generalizing initValues with
  | nil => exact absurd mem not_mem_nil
  | cons key keys ih =>
    rw [mapM_cons] at read
    obtain ⟨entry, first, read⟩ := bind_eq_ok.mp read
    obtain ⟨rest, others, read⟩ := bind_eq_ok.mp read
    obtain ⟨number, known, first⟩ := bind_eq_ok.mp first
    cases read
    cases first
    by_cases here : ch = key
    · subst here
      cases value.symm.trans known
      exact lookup_cons_self
    · have other : (ch == key) = false := by simpa using here
      rw [lookup_cons, other]
      exact ih others ((mem_cons.mp mem).resolve_left here)

/-- The differences that are saved for recorded values lead to the last of them. -/
theorem converted_telescopes {channelsData diffs : List (List (Ch × Int64))}
    (saved : convertNumberChannelsToDiff channelsData readInit = .ok diffs)
    (value : readInit ch = .ok init) :
    init + diffSum diffs ch = lastValue channelsData ch init := by
  obtain ⟨initValues, read, saved⟩ := bind_eq_ok.mp saved
  cases saved
  refine diff_sum_telescopes channelsData _ ch init fun values mem recorded => ?_
  obtain ⟨⟨_, number⟩, entry, same⟩ := lookup_isSome_iff.mp recorded
  cases eq_of_beq same
  have key := mem_map_of_mem (f := Prod.fst) entry
  exact lookup_read read (mem_dedup.mpr (mem_flatMap.mpr ⟨values, mem, key⟩)) value

theorem last_value_unrecorded {channelsData : List (List (Ch × Int64))}
    (unrecorded : ∀ values ∈ channelsData, values = []) :
    lastValue channelsData ch init = init := by
  induction channelsData with
  | nil => rfl
  | cons values _ ih =>
    cases unrecorded values mem_cons_self
    exact ih fun values mem => unrecorded values (mem_cons_of_mem _ mem)

/-- Nothing is read where nothing is recorded. -/
theorem converted_unrecorded (readInit : Ch → Except String Int64)
    {channelsData : List (List (Ch × Int64))} (unrecorded : ∀ values ∈ channelsData, values = []) :
    ∃ diffs, convertNumberChannelsToDiff channelsData readInit = .ok diffs := by
  have none : channelsData.flatMap (·.map Prod.fst) = [] :=
    flatMap_eq_nil_iff.mpr fun values mem => by rw [unrecorded values mem, map_nil]
  unfold convertNumberChannelsToDiff
  rw [none]
  exact ⟨_, rfl⟩

end Differences

section Play

variable {R E Space Term Rand : Type} {runtime : PlayRuntime R E Space Term Rand}

theorem play_deploy_unrecorded (blockData : BlockData) (deploy : SignedDeployData) (rand : Rand) :
    Ensures (fun _ => True) (runtime.playDeployWithCostAccounting blockData deploy rand)
      fun result => result.mergeable = [] := by
  unfold PlayRuntime.playDeployWithCostAccounting
  split
  · exact ensures_throw _
  · refine keeps_bind (keeps_nothing _) fun charged => keeps_bind (keeps_nothing _) fun log => ?_
    cases charged with
    | error => exact ensures_pure rfl
    | ok =>
      exact keeps_bind (keeps_nothing _) fun _ => keeps_bind (keeps_nothing _) fun _ =>
        ensures_pure rfl

theorem play_terms_unrecorded (blockData : BlockData) (rand : Rand) (index : Nat)
    (terms : List SignedDeployData) :
    Ensures (fun _ => True) (runtime.playTerms blockData rand index terms)
      fun results => ∀ result ∈ results, result.mergeable = [] := by
  induction terms generalizing index with
  | nil => exact ensures_pure fun _ mem => absurd mem not_mem_nil
  | cons deploy terms ih =>
    unfold PlayRuntime.playTerms
    split
    · exact ensures_throw _
    · exact ensures_bind (play_deploy_unrecorded blockData deploy _) fun first unrecorded =>
        ensures_bind (ih (index + 1)) fun rest others =>
          ensures_pure (forall_mem_cons.mpr ⟨unrecorded, others⟩)

theorem play_system_deploys_unrecorded {ops : List NativeSystemDeployOp} {stateHash : R}
    {played : R × List (SystemDeployRuntimeResult R E)}
    (ended : runtime.playSystemDeploys stateHash ops = .ok played) :
    ∀ result ∈ played.2, result.mergeable = [] := by
  induction ops generalizing stateHash played with
  | nil =>
    cases ended
    exact fun _ mem => absurd mem not_mem_nil
  | cons op ops ih =>
    obtain ⟨⟨next, first⟩, here, ended⟩ := bind_eq_ok.mp ended
    obtain ⟨rest, later, ended⟩ := bind_eq_ok.mp ended
    cases ended
    refine forall_mem_cons.mpr ⟨?_, ih later⟩
    unfold PlayRuntime.playSystemDeploy at here
    obtain ⟨_, _, here⟩ := bind_eq_ok.mp here
    obtain ⟨result, _, here⟩ := bind_eq_ok.mp here
    obtain ⟨_, _, here⟩ := bind_eq_ok.mp here
    cases result with
    | error => cases here
    | ok =>
      cases here
      rfl

variable {startHash : R} {terms : List SignedDeployData} {ops : List NativeSystemDeployOp}
  {rand : Rand} {blockData : BlockData} {computed : PlayRuntime.ComputedState R E}

/-- Playing a block records no number channel. -/
theorem computed_unrecorded
    (played : runtime.computeState startHash terms ops rand blockData = .ok computed) :
    ∀ values ∈ computed.mergeable, values = [] := by
  obtain ⟨⟨middle, deploys⟩, users, played⟩ := bind_eq_ok.mp played
  obtain ⟨⟨final, closed⟩, system, played⟩ := bind_eq_ok.mp played
  obtain ⟨_, _, played⟩ := bind_eq_ok.mp played
  cases played
  unfold PlayRuntime.playDeploysWithCostAccounting at users
  obtain ⟨_, _, users⟩ := bind_eq_ok.mp users
  obtain ⟨_, ended, users⟩ := bind_eq_ok.mp users
  obtain ⟨_, _, users⟩ := bind_eq_ok.mp users
  cases users
  intro values mem
  rcases mem_append.mp mem with user | closing
  · obtain ⟨result, among, rfl⟩ := mem_map.mp user
    exact (play_terms_unrecorded blockData rand 0 terms _ trivial).2 _ ended result among
  · obtain ⟨result, among, rfl⟩ := mem_map.mp closing
    exact play_system_deploys_unrecorded system result among

end Play

section Samples

/-- A space that holds one number, to which every program adds one. -/
def countingRuntime : PlayRuntime (Int64 × NativeState) Unit Int64 Unit Unit where
  revAddress := fun _ => "vault"
  splitByte := fun _ _ => ()
  reset := fun hash => .ok hash.1
  createSoftCheckpoint := fun space => (space, space)
  checkpointLog := fun _ => []
  revertToSoftCheckpoint := fun checkpoint _ => checkpoint
  sourceToAdtWithEnv := fun _ _ => .ok ()
  inj := fun _ _ _ _ space _ => ⟨[], space + 1, false, 0, []⟩
  errorText := fun _ _ => ""
  createCheckpoint := fun space native => .ok (space, native)
  saveMergeableChannels := fun _ _ _ _ _ => .ok ()
  nativeAt := Prod.snd
  read_back := fun created => by cases created; rfl

/-- The number that the space holds, whatever the channel. -/
def countedNumber (root _channel : Int64 × NativeState) : Except String Int64 := .ok root.1

def countedStart : Int64 × NativeState := (0, sampleGenesis.preStateHash)

def byteEnv : MergeEnv (List BitCodec.Byte) (List BitCodec.Byte) where
  blake := ⟨id, id, fun bytes => some (bytes, [])⟩
  getNumber := fun raw => .ok (Int64.ofNat raw.length)
  decodeRnd := .ok
  rndBytes := id
  mergeRnd := flatten
  createDatumEncoded := fun _ number rnd => rnd ++ replicate number.toNatClampNeg 0
  bytes_injective := Function.injective_id

end Samples

end RChain.Casper
