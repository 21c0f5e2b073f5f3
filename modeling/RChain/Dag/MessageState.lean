import RChain.Dag.Finalizer

/-!
# Per-network DAG message state

Source: `block-storage/src/dag/message_state.rs`.
-/

namespace RChain.Dag

/-- The per-sender latest messages and the full message map. -/
structure DagMessageState (M S : Type) where
  latestMsgs : AList (fun _ : S => Message M S)
  msgMap : MsgMap M S

variable {M S : Type} [DecidableEq M] [DecidableEq S]

def DagMessageState.empty : DagMessageState M S where
  latestMsgs := ∅
  msgMap := ∅

variable (state : DagMessageState M S)

/-- The fringe a message created on `justifications` carries, as messages. -/
def DagMessageState.newFringe (finBondsMap : BondsMap S) (justifications : List (Message M S)) :
    Finset (Message M S) :=
  let (parentFringe, newFringeOpt) :=
    calculateFinalization state.msgMap justifications finBondsMap
  newFringeOpt.getD parentFringe

/-- Create a new message, generating its finalization fringe. -/
def DagMessageState.createMessage (id : M) (height : Nat) (sender : S) (senderSeq : Nat)
    (finBondsMap : BondsMap S) (justifications : List (Message M S)) : Message M S where
  id := id
  height := height
  sender := sender
  senderSeq := senderSeq
  bondsMap := finBondsMap
  parents := justifications.map (·.id)
  fringe := (state.newFringe finBondsMap justifications).image (·.id)
  seen := insert id (justifications.toFinset.biUnion (·.seen))

/-- Insert a message (no-op if its id is already present). Only a higher `senderSeq` replaces
the sender's latest message. -/
def DagMessageState.insertMsg (msg : Message M S) : DagMessageState M S :=
  if msg.id ∈ state.msgMap then state
  else
    let replace := match state.latestMsgs.lookup msg.sender with
      | some cur => decide (cur.senderSeq < msg.senderSeq)
      | none => true
    { latestMsgs :=
        if replace then state.latestMsgs.insert msg.sender msg else state.latestMsgs
      msgMap := state.msgMap.insert msg.id msg }

/-- Insert a message without promoting it to the sender's latest message (used for
validation-failed blocks). -/
def DagMessageState.insertMsgWithoutLatest (msg : Message M S) : DagMessageState M S :=
  if msg.id ∈ state.msgMap then state
  else { latestMsgs := state.latestMsgs, msgMap := state.msgMap.insert msg.id msg }

theorem held_of_lookup {Key : Type} {Value : Key → Type} [DecidableEq Key] {map : AList Value}
    {key : Key} {value : Value key} (found : map.lookup key = some value) : key ∈ map :=
  AList.lookup_isSome.mp (by rw [found]; rfl)

omit [DecidableEq S] in
theorem lookup_inserted {msgMap : MsgMap M S} {msg found : Message M S} {id : M}
    (lookup : (msgMap.insert msg.id msg).lookup id = some found) :
    msgMap.lookup id = some found ∨ (id = msg.id ∧ found = msg) := by
  by_cases same : id = msg.id
  · subst same
    rw [AList.lookup_insert] at lookup
    exact Or.inr ⟨rfl, (Option.some.inj lookup).symm⟩
  · rw [AList.lookup_insert_ne same] at lookup
    exact Or.inl lookup

theorem lookup_insert_msg (msg found : Message M S) (id : M)
    (lookup : (state.insertMsg msg).msgMap.lookup id = some found) :
    state.msgMap.lookup id = some found ∨ (id = msg.id ∧ found = msg) := by
  unfold DagMessageState.insertMsg at lookup
  split at lookup
  · exact Or.inl lookup
  · exact lookup_inserted lookup

/-- The message states a node can hold when the messages of `log` reach it in some order. -/
inductive Holds (log : List (Message M S)) : DagMessageState M S → Prop
  | empty : Holds log DagMessageState.empty
  | insertMsg {state : DagMessageState M S} {msg : Message M S}
      (holds : Holds log state) (member : msg ∈ log) : Holds log (state.insertMsg msg)
  | insertMsgWithoutLatest {state : DagMessageState M S} {msg : Message M S}
      (holds : Holds log state) (member : msg ∈ log) :
      Holds log (state.insertMsgWithoutLatest msg)

theorem holds_foldl {log : List (Message M S)} (order : List (Message M S))
    (subset : ∀ m ∈ order, m ∈ log) (state : DagMessageState M S) (holds : Holds log state) :
    Holds log (order.foldl DagMessageState.insertMsg state) := by
  induction order generalizing state with
  | nil => exact holds
  | cons m _ ih =>
    apply ih (fun n mem => subset n (List.mem_cons_of_mem _ mem))
    exact holds.insertMsg (subset m List.mem_cons_self)

theorem holds_lookup {log : List (Message M S)} {state : DagMessageState M S}
    (holds : Holds log state) {id : M} {msg : Message M S}
    (lookup : state.msgMap.lookup id = some msg) : msg ∈ log ∧ msg.id = id := by
  induction holds with
  | empty => simp [DagMessageState.empty] at lookup
  | insertMsg _ mem ih =>
    rcases lookup_insert_msg _ _ _ _ lookup with old | ⟨same, new⟩
    · exact ih old
    · subst same new
      exact ⟨mem, rfl⟩
  | insertMsgWithoutLatest _ mem ih =>
    unfold DagMessageState.insertMsgWithoutLatest at lookup
    split at lookup
    · exact ih lookup
    · rcases lookup_inserted lookup with old | ⟨same, new⟩
      · exact ih old
      · subst same new
        exact ⟨mem, rfl⟩

end RChain.Dag
