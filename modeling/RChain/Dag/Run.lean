import RChain.Dag.MessageState
import RChain.Lib.ChainDag

/-!
# Runs of message creation

A run is the list of the messages that all nodes create, newest first. Each one is
created by `create_message` on the state some node holds at that moment, so the nodes
may know different parts of the DAG and may have received it in different orders.

`HonestView` is the assumption on the nodes: no sender forks, and the
justifications are the latest messages seen, one per sender. Coverage is asked of the
bonded senders only, so a view may or may not list an unbonded genesis sender. The
sequence number grows along a sender's own messages (`create_msg_and_update_sender`
and the sequence-number check of block validation both enforce the increment).
-/

namespace RChain.Dag

open ChainLayers List

/-- The arguments of one call of `create_message`, with the state it is called on. -/
structure Creation (M S : Type) where
  known : DagMessageState M S
  id : M
  height : Nat
  sender : S
  senderSeq : Nat
  justifications : List (Message M S)

variable {M S : Type} [DecidableEq M] [DecidableEq S]

def Creation.message (bonds : BondsMap S) (c : Creation M S) : Message M S :=
  c.known.createMessage c.id c.height c.sender c.senderSeq bonds c.justifications

/-- The justifications of a creation are what an honest node lists when `log` has been created
so far. -/
@[mk_iff]
structure HonestView (bonds : BondsMap S) (log : List (Message M S)) (c : Creation M S) :
    Prop where
  fresh : ∀ m ∈ log, m.id ≠ c.id
  known : ∀ j ∈ c.justifications, c.known.msgMap.lookup j.id = some j
  complete : ∀ j ∈ c.justifications, ∀ i ∈ j.seen, i ∈ c.known.msgMap
  onePerSender : (c.justifications.map (·.sender)).Nodup
  latest : ∀ j ∈ c.justifications, ∀ k ∈ c.justifications, ∀ m ∈ log,
    m.id ∈ k.seen → m.sender = j.sender → m.id ∈ j.seen
  covers : ∀ k ∈ c.justifications, ∀ m ∈ log,
    m.id ∈ k.seen → m.sender ∈ bonds → ∃ j ∈ c.justifications, j.sender = m.sender
  previous : ∀ m ∈ log.find? (fun m => m.sender = c.sender),
    m ∈ c.justifications ∧ m.senderSeq < c.senderSeq

instance (bonds : BondsMap S) (log : List (Message M S)) (c : Creation M S) :
    Decidable (HonestView bonds log c) :=
  decidable_of_iff _ (honestView_iff bonds log c).symm

/-- An honest creation on a state that holds some of the messages created so far. -/
structure Admissible (bonds : BondsMap S) (log : List (Message M S)) (c : Creation M S) : Prop
    extends HonestView bonds log c where
  holds : Holds log c.known

def messages (bonds : BondsMap S) (run : List (Creation M S)) : List (Message M S) :=
  run.map (Creation.message bonds)

inductive Run (bonds : BondsMap S) : List (Creation M S) → Prop
  | nil : Run bonds []
  | create {run : List (Creation M S)} {c : Creation M S} (earlier : Run bonds run)
      (admissible : Admissible bonds (messages bonds run) c) : Run bonds (c :: run)

/-- What every log of a run satisfies. -/
structure Coherent (bonds : BondsMap S) (log : List (Message M S)) : Prop where
  ids : ∀ u ∈ log, ∀ v ∈ log, u.id = v.id → u = v
  seen_self : ∀ u ∈ log, u.id ∈ u.seen
  seen_closed : ∀ u ∈ log, ∀ i ∈ u.seen, ∃ v ∈ log, v.id = i ∧ v.seen ⊆ u.seen
  parent : ∀ u ∈ log, ∀ i ∈ u.parents, ∃ v ∈ log, v.id = i ∧ v.seen ⊆ u.seen
  newer : log.Pairwise fun u v => u.sender = v.sender → v.senderSeq < u.senderSeq
  seen_of_seq : ∀ u ∈ log, ∀ v ∈ log, u.sender = v.sender → v.senderSeq ≤ u.senderSeq →
    v.id ∈ u.seen
  seq_of_seen : ∀ u ∈ log, ∀ v ∈ log, u.sender = v.sender → v.id ∈ u.seen →
    v.senderSeq ≤ u.senderSeq
  seq_injective : ∀ u ∈ log, ∀ v ∈ log, u.sender = v.sender → u.senderSeq = v.senderSeq → u = v
  through : ∀ u ∈ log, ∀ v ∈ log, v.id ∈ u.seen → v.sender ∈ bonds →
    v = u ∨ ∃ w ∈ log, w.id ∈ u.parents ∧ w.sender = v.sender ∧ v.id ∈ w.seen
  one_parent : ∀ u ∈ log, ∀ v ∈ log, ∀ w ∈ log, v.id ∈ u.parents → w.id ∈ u.parents →
    v.sender = w.sender → v = w
  own_parent : ∀ u ∈ log, ∀ v ∈ log, v.sender = u.sender → v.senderSeq < u.senderSeq →
    ∃ p ∈ log, p.id ∈ u.parents ∧ p.sender = u.sender ∧ v.senderSeq ≤ p.senderSeq
  parent_seq : ∀ u ∈ log, ∀ v ∈ log, v.id ∈ u.parents → v.sender = u.sender →
    v.senderSeq < u.senderSeq

section Step

variable {bonds : BondsMap S} {log : List (Message M S)} {c : Creation M S}

theorem message_seen (i : M) :
    i ∈ (c.message bonds).seen ↔ i = c.id ∨ ∃ j ∈ c.justifications, i ∈ j.seen := by
  simp [Creation.message, DagMessageState.createMessage]

theorem message_parents (i : M) :
    i ∈ (c.message bonds).parents ↔ ∃ j ∈ c.justifications, j.id = i := by
  simp [Creation.message, DagMessageState.createMessage]

theorem justification_mem (admissible : Admissible bonds log c) {j : Message M S}
    (mem : j ∈ c.justifications) : j ∈ log :=
  (holds_lookup admissible.holds (admissible.known j mem)).1

section

variable (coherent : Coherent bonds log) (admissible : Admissible bonds log c)

include coherent admissible

/-- The sender's previous message is justified and not older than any other message of the
sender. -/
theorem previous_bound {v : Message M S} (mem : v ∈ log) (owned : v.sender = c.sender) :
    ∃ p ∈ c.justifications, p.sender = c.sender ∧ v.senderSeq ≤ p.senderSeq ∧
      p.senderSeq < c.senderSeq := by
  cases found : log.find? (fun m => m.sender = c.sender) with
  | none =>
    rw [List.find?_eq_none] at found
    exact absurd owned (by simpa using found v mem)
  | some p =>
    obtain ⟨justified, smaller⟩ := admissible.previous p found
    rw [List.find?_eq_some_iff_append] at found
    obtain ⟨ownedP, _, _, split, skipped⟩ := found
    have ownedP : p.sender = c.sender := by simpa using ownedP
    refine ⟨p, justified, ownedP, ?_, smaller⟩
    rw [split, mem_append, mem_cons] at mem
    rcases mem with early | same | late
    · exact absurd owned (by simpa using skipped v early)
    · rw [same]
    · have order := coherent.newer
      rw [split, pairwise_append] at order
      have later := (pairwise_cons.mp order.2.1).1 v late
      exact Nat.le_of_lt (later (ownedP.trans owned.symm))

theorem seq_lt_of_previous {v : Message M S} (mem : v ∈ log) (owned : v.sender = c.sender) :
    v.senderSeq < c.senderSeq := by
  obtain ⟨_, _, _, _, _⟩ := previous_bound coherent admissible mem owned
  omega

theorem old_does_not_see {u : Message M S} (mem : u ∈ log) : c.id ∉ u.seen := by
  intro seen
  obtain ⟨v, present, same, _⟩ := coherent.seen_closed u mem c.id seen
  exact admissible.fresh v present same

end

omit [DecidableEq M] [DecidableEq S] in
theorem forall_pair_cons {P : Message M S → Message M S → Prop} {new : Message M S}
    {log : List (Message M S)} (both : P new new) (left : ∀ v ∈ log, P new v)
    (right : ∀ u ∈ log, P u new) (old : ∀ u ∈ log, ∀ v ∈ log, P u v) :
    ∀ u ∈ new :: log, ∀ v ∈ new :: log, P u v := by
  simp only [forall_mem_cons]
  exact ⟨⟨both, left⟩, fun u mem => ⟨right u mem, old u mem⟩⟩

/-- One creation keeps the log coherent. Every field splits on whether the messages it speaks
about are old or the new one. -/
theorem coherent_step (coherent : Coherent bonds log) (admissible : Admissible bonds log c) :
    Coherent bonds (c.message bonds :: log) := by
  have seenIn : ∀ {j : Message M S}, j ∈ c.justifications → j.seen ⊆ (c.message bonds).seen := by
    intro j mem i seen
    exact (message_seen i).mpr (.inr ⟨j, mem, seen⟩)
  have newSeq : (c.message bonds).senderSeq = c.senderSeq := rfl
  -- A message of the old log that the new one sees is seen by a justification.
  have seenOld : ∀ {v : Message M S}, v ∈ log → v.id ∈ (c.message bonds).seen →
      ∃ j ∈ c.justifications, v.id ∈ j.seen := by
    intro v mem seen
    rcases (message_seen v.id).mp seen with same | justified
    · exact absurd same (admissible.fresh v mem)
    · exact justified
  -- A cited message of the old log is a justification.
  have citedOld : ∀ {v : Message M S}, v ∈ log → v.id ∈ (c.message bonds).parents →
      v ∈ c.justifications := by
    intro v mem cited
    obtain ⟨j, justified, same⟩ := (message_parents v.id).mp cited
    rwa [← coherent.ids j (justification_mem admissible justified) v mem same]
  have notCited : ∀ {u : Message M S}, u ∈ log → (c.message bonds).id ∉ u.parents := by
    intro u mem cited
    obtain ⟨v, present, same, _⟩ := coherent.parent u mem _ cited
    exact admissible.fresh v present same
  have selfNotCited : (c.message bonds).id ∉ (c.message bonds).parents := by
    intro cited
    obtain ⟨j, justified, same⟩ := (message_parents _).mp cited
    exact admissible.fresh j (justification_mem admissible justified) same
  constructor
  case ids =>
    refine forall_pair_cons (fun _ => rfl) (fun v right same => ?_) (fun u left same => ?_)
      coherent.ids
    · exact absurd same.symm (admissible.fresh v right)
    · exact absurd same (admissible.fresh u left)
  case seen_self =>
    intro u mem
    rcases mem_cons.mp mem with rfl | mem
    · exact (message_seen _).mpr (.inl rfl)
    · exact coherent.seen_self u mem
  case seen_closed =>
    intro u mem i seen
    rcases mem_cons.mp mem with rfl | mem
    · rcases (message_seen i).mp seen with same | ⟨j, justified, seen'⟩
      · exact ⟨c.message bonds, mem_cons_self, same.symm, subset_rfl⟩
      · obtain ⟨v, present, same, subset⟩ :=
          coherent.seen_closed j (justification_mem admissible justified) i seen'
        exact ⟨v, mem_cons_of_mem _ present, same, subset.trans (seenIn justified)⟩
    · obtain ⟨v, present, same, subset⟩ := coherent.seen_closed u mem i seen
      exact ⟨v, mem_cons_of_mem _ present, same, subset⟩
  case parent =>
    intro u mem i cited
    rcases mem_cons.mp mem with rfl | mem
    · obtain ⟨j, justified, same⟩ := (message_parents i).mp cited
      exact ⟨j, mem_cons_of_mem _ (justification_mem admissible justified), same, seenIn justified⟩
    · obtain ⟨v, present, same, subset⟩ := coherent.parent u mem i cited
      exact ⟨v, mem_cons_of_mem _ present, same, subset⟩
  case newer =>
    rw [pairwise_cons]
    refine ⟨fun v mem same => ?_, coherent.newer⟩
    exact seq_lt_of_previous coherent admissible mem same.symm
  case seen_of_seq =>
    refine forall_pair_cons (fun _ _ => (message_seen _).mpr (.inl rfl))
      (fun v right same bound => ?_) (fun u left same bound => ?_) coherent.seen_of_seq
    · obtain ⟨p, justified, owned, bounded, _⟩ :=
        previous_bound coherent admissible right same.symm
      exact seenIn justified (coherent.seen_of_seq p (justification_mem admissible justified) v
        right (owned.trans same) bounded)
    · have smaller := seq_lt_of_previous coherent admissible left same
      omega
  case seq_of_seen =>
    refine forall_pair_cons (fun _ _ => le_rfl) (fun v right same seen => ?_)
      (fun u left same seen => ?_) coherent.seq_of_seen
    · exact (seq_lt_of_previous coherent admissible right same.symm).le
    · exact absurd seen (old_does_not_see coherent admissible left)
  case seq_injective =>
    refine forall_pair_cons (fun _ _ => rfl) (fun v right same equal => ?_)
      (fun u left same equal => ?_) coherent.seq_injective
    · have smaller := seq_lt_of_previous coherent admissible right same.symm
      omega
    · have smaller := seq_lt_of_previous coherent admissible left same
      omega
  case through =>
    refine forall_pair_cons (fun _ _ => .inl rfl) (fun v right seen bonded => ?_)
      (fun u left seen bonded => ?_) (fun u left v right seen bonded => ?_)
    · obtain ⟨k, justified, seenK⟩ := seenOld right seen
      obtain ⟨j, justified', owned⟩ := admissible.covers k justified v right seenK bonded
      refine .inr ⟨j, mem_cons_of_mem _ (justification_mem admissible justified'),
        (message_parents _).mpr ⟨j, justified', rfl⟩, owned, ?_⟩
      exact admissible.latest j justified' k justified v right seenK owned.symm
    · exact absurd seen (old_does_not_see coherent admissible left)
    · rcases coherent.through u left v right seen bonded with same | ⟨w, present, rest⟩
      · exact .inl same
      · exact .inr ⟨w, mem_cons_of_mem _ present, rest⟩
  case one_parent =>
    intro u mem v left w right cited cited' same
    rcases mem_cons.mp mem with rfl | mem
    · rcases mem_cons.mp left with rfl | left
      · exact absurd cited selfNotCited
      rcases mem_cons.mp right with rfl | right
      · exact absurd cited' selfNotCited
      exact inj_on_of_nodup_map admissible.onePerSender (citedOld left cited)
        (citedOld right cited') same
    · rcases mem_cons.mp left with rfl | left
      · exact absurd cited (notCited mem)
      rcases mem_cons.mp right with rfl | right
      · exact absurd cited' (notCited mem)
      exact coherent.one_parent u mem v left w right cited cited' same
  case own_parent =>
    refine forall_pair_cons (fun _ smaller => absurd smaller (Nat.lt_irrefl _))
      (fun v right same smaller => ?_) (fun u left same smaller => ?_)
      (fun u left v right same smaller => ?_)
    · obtain ⟨p, justified, owned, bounded, _⟩ := previous_bound coherent admissible right same
      exact ⟨p, mem_cons_of_mem _ (justification_mem admissible justified),
        (message_parents _).mpr ⟨p, justified, rfl⟩, owned, bounded⟩
    · have larger := seq_lt_of_previous coherent admissible left same.symm
      omega
    · obtain ⟨p, present, rest⟩ := coherent.own_parent u left v right same smaller
      exact ⟨p, mem_cons_of_mem _ present, rest⟩
  case parent_seq =>
    refine forall_pair_cons (fun cited _ => absurd cited selfNotCited) (fun v right _ same => ?_)
      (fun u left cited _ => ?_) coherent.parent_seq
    · exact seq_lt_of_previous coherent admissible right same
    · exact absurd cited (notCited left)

end Step

theorem run_coherent {bonds : BondsMap S} {run : List (Creation M S)} (reached : Run bonds run) :
    Coherent bonds (messages bonds run) := by
  induction reached with
  | nil => constructor <;> simp [messages]
  | create _ admissible ih => exact coherent_step ih admissible

/-- The log of a run as a citation graph of sender chains. -/
def chainDag {bonds : BondsMap S} {log : List (Message M S)} (coherent : Coherent bonds log) :
    ChainDag (Message M S) S where
  items := {u | u ∈ log}
  members := {s | s ∈ bonds}
  sender := Message.sender
  rank := Message.senderSeq
  sees := fun u v => v ∈ log ∧ v.id ∈ u.seen
  cites := fun u v => v ∈ log ∧ v.id ∈ u.parents
  sees_items := fun _ _ _ seen => seen.1
  sees_trans := by
    intro u member v _ seen seen'
    obtain ⟨x, present, same, subset⟩ := coherent.seen_closed u member v.id seen.2
    rw [coherent.ids x present v seen.1 same] at subset
    exact ⟨seen'.1, subset seen'.2⟩
  cites_sees := by
    intro u member v cited
    obtain ⟨x, present, same, subset⟩ := coherent.parent u member v.id cited.2
    rw [coherent.ids x present v cited.1 same] at subset
    exact ⟨cited.1, subset (coherent.seen_self v cited.1)⟩
  rank_of_sees := fun u member v seen same => coherent.seq_of_seen u member v seen.1 same seen.2
  sees_of_rank := fun u member v present same bound =>
    ⟨present, coherent.seen_of_seq u member v present same bound⟩
  rank_injective := coherent.seq_injective
  sees_through := by
    intro u member v seen bonded
    rcases coherent.through u member v seen.1 seen.2 bonded with same | ⟨w, present, cited, owned, sees⟩
    · exact Or.inl same
    · exact Or.inr ⟨w, ⟨present, cited⟩, owned, seen.1, sees⟩

end RChain.Dag
