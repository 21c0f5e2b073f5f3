import RChain.RSpace.RowAgreement

/-!
# Selection and the order of insertion

Stored data and waiting continuations are tried in the order of their hashes. A datum is
determined by the hash of its produce, so the order in which data were stored does not show. A
continuation is not determined by the hash of its consume, which covers neither the peeks nor the
pairing of channels and patterns.
-/

namespace RChain.TupleSpace

open BitCodec List

variable {C P A K Hash : Type} [DecidableEq C] [LinearOrder Hash]

/-- The stored data and continuations of a space in another order. -/
structure Rearranged (left right : Space C P A K Hash) : Prop where
  data : ∀ channel, (left.data channel).Perm (right.data channel)
  continuations : ∀ channels, (left.continuations channels).Perm (right.continuations channels)
  joins : left.joins = right.joins
  installedContinuations : left.installedContinuations = right.installedContinuations
  installedJoins : left.installedJoins = right.installedJoins

/-- A space as the operations leave it: data carry their produce, and what is installed is
persistent. -/
structure Genuine (config : Config C P A K Hash) (space : Space C P A K Hash) : Prop where
  sourced : Sourced config space
  persistent : ∀ channels wk, space.installedContinuations channels = some wk → wk.persist = true

section

omit [DecidableEq C] [LinearOrder Hash]

variable {config : Config C P A K Hash} {space other : Space C P A K Hash}
  (rearranged : Rearranged space other)
include rearranged

theorem Rearranged.agrees : AgreesOn (fun _ => True) space other :=
  ⟨rearranged.data, fun channels _ => rearranged.continuations channels,
    fun channel => by rw [rearranged.joins]⟩

theorem Rearranged.same_installed (genuine : Genuine config space) : SameInstalled space other :=
  ⟨fun channels => by rw [rearranged.installedContinuations],
    fun channel => by rw [rearranged.installedJoins], genuine.persistent⟩

theorem Rearranged.all_joins (channel : C) : other.allJoins channel = space.allJoins channel := by
  rw [Space.allJoins, Space.allJoins, rearranged.joins, rearranged.installedJoins]

end

section OrderFree

variable (config : Config C P A K Hash) (space : Space C P A K Hash)

/-- In whatever order data and continuations are stored, an operation has one result, logs the same
and leaves the same rows. -/
def OrderFree (operation : Operation C P A K) : Prop :=
  ∀ other, Rearranged space other → ∀ (log : List (Event Hash)) (counter : Hash → Nat),
    (perform config spaceStore ⟨space, log, counter⟩ operation).1 =
        (perform config spaceStore ⟨other, log, counter⟩ operation).1 ∧
      (perform config spaceStore ⟨space, log, counter⟩ operation).2.eventLog =
        (perform config spaceStore ⟨other, log, counter⟩ operation).2.eventLog ∧
      AgreesOn (fun _ => True) (perform config spaceStore ⟨space, log, counter⟩ operation).2.store
        (perform config spaceStore ⟨other, log, counter⟩ operation).2.store

/-- A produce completes some continuation of the join. -/
def fires (channel : C) (datum : Datum A Hash) (join : List C) : Bool :=
  (space.allContinuations join).any fun wc =>
    (completion config space channel datum join wc).isSome

/-- A consume meets no ties. For a produce there is none on the first join that it fires. -/
def Untied : Operation C P A K → Prop
  | .consume .. => True
  | .produce channel data persist =>
    let datum : Datum A Hash := ⟨data, persist, Produce.apply config channel data persist⟩
    ∀ join, (space.allJoins channel).find? (fires config space channel datum) = some join →
      UntiedOn config space channel datum join

variable {config space} {other : Space C P A K Hash} {channel : C} {datum : Datum A Hash}
  {join : List C} {wc : WaitingContinuation P K Hash}

/-- What a produce selects on the first join that it fires. -/
theorem produce_candidate_shape (config : Config C P A K Hash) (space : Space C P A K Hash)
    (channel : C) (datum : Datum A Hash) :
    (produceCandidate config space channel datum).map ProduceCandidate.shape =
      ((space.allJoins channel).find? (fires config space channel datum)).bind fun join =>
        (searchJoin config space id (withProduced channel datum) join).map
          ProduceCandidate.shape := by
  have fired (join : List C) : ((searchJoin config space id (withProduced channel datum) join).map
      ProduceCandidate.shape).isSome = fires config space channel datum join := by
    rw [Option.isSome_map, search_join_some, fires]
  rw [produceCandidate, map_findSome?, find_some_eq_bind]
  simp only [Function.comp_apply, fired]

section

variable (lawful : config.Lawful) (genuine : Genuine config space)
  (rearranged : Rearranged space other)
include lawful genuine rearranged

theorem fires_rearranged :
    fires config other channel datum = fires config space channel datum := by
  funext join
  rw [fires, fires, completion_agrees lawful genuine.sourced rearranged.agrees,
    (all_continuations_perm rearranged.agrees (rearranged.same_installed genuine) trivial).any_eq]

theorem candidates_rearranged (untied : ∀ join,
      (space.allJoins channel).find? (fires config space channel datum) = some join →
        UntiedOn config space channel datum join) :
    (produceCandidate config space channel datum).map ProduceCandidate.shape =
      (produceCandidate config other channel datum).map ProduceCandidate.shape := by
  rw [produce_candidate_shape, produce_candidate_shape, rearranged.all_joins,
    fires_rearranged lawful genuine rearranged]
  cases first : (space.allJoins channel).find? (fires config space channel datum) with
  | none => rfl
  | some join =>
    exact search_join_agrees lawful genuine.sourced rearranged.agrees
      (rearranged.same_installed genuine) channel datum trivial (untied join first)

end

/-- The first of the continuations that a produce may take is taken. -/
theorem candidate_chosen
    (first : (space.allJoins channel).find? (fires config space channel datum) = some join)
    (chosen : (space.allContinuations join).find? (preferred config space channel datum join) =
      some wc) :
    ∃ pc, produceCandidate config space channel datum = some pc ∧ pc.continuation = wc := by
  have shape := produce_candidate_shape config space channel datum
  have completed := (is_least_iff.mp (find?_some chosen)).1
  obtain ⟨data, found⟩ := Option.isSome_iff_exists.mp completed
  rw [first, Option.bind_some, search_join_shape, chosen, Option.bind_some, found] at shape
  obtain ⟨pc, selected, same⟩ := Option.map_eq_some_iff.mp shape
  exact ⟨pc, selected, congrArg ProduceCandidate.continuation same⟩

/-- The space with one continuation of a join before the others. -/
def broughtForward (space : Space C P A K Hash) (join : List C)
    (wc : WaitingContinuation P K Hash) (rest : List (WaitingContinuation P K Hash)) :
    Space C P A K Hash :=
  { space with continuations := Function.update space.continuations join (wc :: rest) }

theorem brought_forward_chosen (lawful : config.Lawful) (genuine : Genuine config space)
    (first : (space.allJoins channel).find? (fires config space channel datum) = some join)
    (mem : wc ∈ space.continuations join)
    (least : preferred config space channel datum join wc = true)
    (alone : ∀ installed, space.installedContinuations join = some installed →
      preferred config space channel datum join installed = false) :
    ∃ other, Rearranged space other ∧
      ∃ pc, produceCandidate config other channel datum = some pc ∧ pc.continuation = wc := by
  obtain ⟨before, after, split⟩ := append_of_mem mem
  have rearranged : Rearranged space (broughtForward space join wc (before ++ after)) := by
    refine ⟨fun _ => Perm.refl _, fun channels => ?_, rfl, rfl, rfl⟩
    by_cases here : channels = join
    · simp only [broughtForward, here, Function.update_self, split]
      exact perm_middle
    · simp only [broughtForward, Function.update_of_ne here]
      exact Perm.refl _
  have fired : ((broughtForward space join wc (before ++ after)).allJoins channel).find?
      (fires config (broughtForward space join wc (before ++ after)) channel datum) =
        some join := by
    rw [rearranged.all_joins, fires_rearranged lawful genuine rearranged, first]
  have skipped : (space.installedContinuations join).toList.find?
      (preferred config space channel datum join) = none := by
    refine find?_eq_none.mpr fun wk installed => ?_
    rw [alone wk (Option.mem_toList.mp installed)]
    exact Bool.false_ne_true
  refine ⟨_, rearranged, candidate_chosen fired ?_⟩
  rw [← preferred_agrees lawful genuine.sourced rearranged.agrees
    (rearranged.same_installed genuine) channel datum trivial, Space.allContinuations, find?_append]
  simp only [broughtForward, skipped, Option.none_or, Function.update_self]
  exact find?_cons_of_pos least

/-- The continuation that a produce takes can be told from its result and its events. -/
theorem taken_told {left right : Space C P A K Hash} {data : A} {persist : Bool}
    {leftPc rightPc : ProduceCandidate C P A K Hash}
    (leftSelected : produceCandidate config left channel
      ⟨data, persist, Produce.apply config channel data persist⟩ = some leftPc)
    (rightSelected : produceCandidate config right channel
      ⟨data, persist, Produce.apply config channel data persist⟩ = some rightPc)
    {log : List (Event Hash)} {counter : Hash → Nat}
    (results : (perform config spaceStore ⟨left, log, counter⟩ (.produce channel data persist)).1 =
      (perform config spaceStore ⟨right, log, counter⟩ (.produce channel data persist)).1)
    (logs : (perform config spaceStore ⟨left, log, counter⟩
        (.produce channel data persist)).2.eventLog =
      (perform config spaceStore ⟨right, log, counter⟩
        (.produce channel data persist)).2.eventLog) :
    leftPc.continuation = rightPc.continuation := by
  simp only [perform, produce_rows, leftSelected, rightSelected, processMatchFound, wrapResult,
    RSpace.logComm, Comm.apply, Except.ok.injEq, Option.some.injEq, Prod.mk.injEq,
    ContResult.mk.injEq, cons.injEq, Event.comm.injEq, Comm.mk.injEq] at results logs
  obtain ⟨⟨body, kept, _, patterns, _⟩, _⟩ := results
  obtain ⟨⟨source, _, peeks, _⟩, _⟩ := logs
  obtain ⟨_, ⟨_, _, _, _, _⟩, _, _⟩ := leftPc
  obtain ⟨_, ⟨_, _, _, _, _⟩, _, _⟩ := rightPc
  exact WaitingContinuation.mk.injEq .. ▸ ⟨patterns, body, kept, peeks, source⟩

/-- Selection does not depend on the order of storing exactly when a produce meets no tie between
different continuations of one hash. -/
theorem selection_order_free_iff (lawful : config.Lawful) (genuine : Genuine config space)
    (operation : Operation C P A K) :
    OrderFree config space operation ↔ Untied config space operation := by
  constructor
  · intro free
    cases operation with
    | consume => trivial
    | produce channel data persist =>
      intro join first wc mem other among least tied alone
      obtain ⟨left, leftRearranged, _, leftSelected, rfl⟩ :=
        brought_forward_chosen lawful genuine first mem least alone
      obtain ⟨right, rightRearranged, _, rightSelected, rfl⟩ :=
        brought_forward_chosen lawful genuine first among tied alone
      have onLeft := free left leftRearranged [] fun _ => 0
      have onRight := free right rightRearranged [] fun _ => 0
      exact taken_told leftSelected rightSelected (onLeft.1.symm.trans onRight.1)
        (onLeft.2.1.symm.trans onRight.2.1)
  · intro untied other rearranged log counter
    have step := perform_agrees_on lawful genuine.sourced rearranged.agrees
      (rearranged.same_installed genuine) operation (fun channel data persist here => ?_) log log
      counter counter
    · exact ⟨step.1, step.2.2 rfl rfl, step.2.1⟩
    · subst here
      exact candidates_rearranged lawful genuine rearranged untied

end OrderFree

section Samples

/-- A consume of any datum of channel 1 that waits. -/
def waitingOnOne (continuation : Nat) (peeks : IndexSet) :
    WaitingContinuation Nat Nat (List Byte) :=
  ⟨[0], continuation, false, peeks, Consume.apply naturalConfig [1] [0] continuation false⟩

def spaceWaiting (waiting : List (WaitingContinuation Nat Nat (List Byte))) :
    Space Nat Nat Nat Nat (List Byte) where
  continuations := fun channels => if channels = [1] then waiting else []
  installedContinuations := fun _ => none
  data := fun _ => []
  joins := fun channel => if channel = 1 then [[1]] else []
  installedJoins := fun _ => []

theorem waiting_genuine (waiting : List (WaitingContinuation Nat Nat (List Byte))) :
    Genuine naturalConfig (spaceWaiting waiting) where
  sourced := fun _ _ mem => absurd mem not_mem_nil
  persistent := fun _ _ found => by cases found

theorem waiting_rearranged {first second : List (WaitingContinuation Nat Nat (List Byte))}
    (perm : first.Perm second) : Rearranged (spaceWaiting first) (spaceWaiting second) where
  data := fun _ => List.Perm.refl _
  continuations := fun channels => by
    simp only [spaceWaiting]
    split_ifs
    · exact perm
    · exact List.Perm.refl _
  joins := rfl
  installedContinuations := rfl
  installedJoins := rfl

/-- A receive and a peek with one body have one hash, and a produce takes the one that was stored
last. -/
theorem tied_receives_diverge :
    let plain := waitingOnOne 7 IndexSet.empty
    let peeking := waitingOnOne 7 IndexSet.first
    let results (waiting : List (WaitingContinuation Nat Nat (List Byte))) :=
      ((perform naturalConfig spaceStore ⟨spaceWaiting waiting, [], fun _ => 0⟩
        (.produce 1 5 false)).1.toOption.join).map fun result => result.1.peek
    Genuine naturalConfig (spaceWaiting [plain, peeking]) ∧
      Rearranged (spaceWaiting [plain, peeking]) (spaceWaiting [peeking, plain]) ∧
      results [plain, peeking] = some false ∧ results [peeking, plain] = some true :=
  ⟨waiting_genuine _, waiting_rearranged (List.Perm.swap _ _ _), by decide +kernel, by decide +kernel⟩

/-- The tie does not show in a produce on another channel, and receives with different bodies are
not tied. -/
theorem different_receives_agree :
    let tied := spaceWaiting [waitingOnOne 7 IndexSet.empty, waitingOnOne 7 IndexSet.first]
    let waiting := spaceWaiting [waitingOnOne 7 IndexSet.empty, waitingOnOne 8 IndexSet.first]
    OrderFree naturalConfig tied (.produce 2 5 false) ∧
      OrderFree naturalConfig waiting (.produce 1 5 false) := by
  intro tied waiting
  refine ⟨(selection_order_free_iff natural_lawful (waiting_genuine _) _).mpr fun _ found => ?_,
    (selection_order_free_iff natural_lawful (waiting_genuine _) _).mpr fun join _ =>
      untied_of_single (fun wc member other among same => ?_) _ _⟩
  · cases found
  simp only [Space.allContinuations, spaceWaiting, Option.toList_none, nil_append] at member among
  split_ifs at member among
  · simp only [mem_cons, not_mem_nil, or_false] at member among
    rcases member with rfl | rfl <;> rcases among with rfl | rfl
    · rfl
    · exact absurd same (by decide)
    · exact absurd same (by decide)
    · rfl
  · exact absurd member not_mem_nil

end Samples

end RChain.TupleSpace
