import Mathlib

/-!
# The multi-parent finalizer

Source: `block-storage/src/dag/finalizer.rs`, `block-storage/src/dag/message_map.rs` and
`sdk/src/consensus.rs`.

An ordered set that the code iterates (the parents of a message, a set of
justifications) is kept as the list of its elements in iteration order; a set that
is only tested or compared is a `Finset`. Maps are association lists with distinct
keys. Stakes, heights and sequence numbers are the non-negative refinements of the
source, so they are natural numbers here; the stake sums are `i128` in the code and
cannot overflow.
-/

namespace RChain.Dag

abbrev BondsMap (S : Type) := AList (fun _ : S => Nat)

-- Mathlib's instance is built with `rw` and does not evaluate.
instance {S : Type} [DecidableEq S] : DecidableEq (BondsMap S) :=
  fun left right => decidable_of_iff (left.entries = right.entries) AList.ext_iff.symm

/-- A message (view) carrying all data the finalizer needs. -/
structure Message (M S : Type) where
  id : M
  height : Nat
  sender : S
  senderSeq : Nat
  bondsMap : BondsMap S
  parents : List M
  fringe : Finset M
  /-- Cache of seen message ids. -/
  seen : Finset M
deriving DecidableEq

abbrev MsgMap (M S : Type) := AList (fun _ : M => Message M S)

variable {M S : Type} [DecidableEq M] [DecidableEq S]

/-- Strictly more than two thirds of the bonded stake, compared exactly. -/
def isSuperMajority (stake totalStake : Nat) : Bool :=
  decide (totalStake * 2 < stake * 3)

variable (msgMap : MsgMap M S)

def msgAt (id : M) : Option (Message M S) :=
  msgMap.lookup id

/-- The messages of `ids` that the map holds. -/
def messagesAt (ids : Finset M) : Finset (Message M S) :=
  ids.biUnion fun id => (msgAt msgMap id).toFinset

/-- The greatest height in the fringe of `j`; an empty fringe is below every height. -/
def fringeHeight (j : Message M S) : WithBot Nat :=
  (messagesAt msgMap j.fringe).sup fun m => (m.height : WithBot Nat)

/-- `Iterator::max_by_key`: of several maximal elements the last one is returned. -/
def maxByKey {Item Key : Type} [LE Key] [DecidableLE Key] (key : Item → Key)
    (items : List Item) : Option Item :=
  items.foldl
    (fun best item =>
      match best with
      | none => some item
      | some current => if key current ≤ key item then some item else some current)
    none

/-- Latest fringe seen from justifications (may be empty). -/
def latestFringe (justifications : List (Message M S)) : Finset (Message M S) :=
  match maxByKey (fringeHeight msgMap) justifications with
  | some j => messagesAt msgMap j.fringe
  | none => ∅

/-- The parents of `m` that the map holds, of the given sender and not finalized. -/
def ownParents (finalized : Finset (Message M S)) (sender : S) (m : Message M S) :
    List (Message M S) :=
  (m.parents.filterMap (msgAt msgMap)).filter fun x => x.sender = sender ∧ x ∉ finalized

/-- The `while let Some(m) = next.pop()` loop of `self_parents`. -/
def selfParentsLoop (msgMap : MsgMap M S) (finalized : Finset (Message M S)) (sender : S) :
    Nat → List (Message M S) → List (Message M S)
  | 0, _ => []
  | fuel + 1, next =>
    match next.getLast? with
    | none => []
    | some m =>
      m :: selfParentsLoop msgMap finalized sender fuel (ownParents msgMap finalized sender m)

/-- The sender's own parent chain (nearest to oldest), stopping at `finalized` messages. A
chain without cycles holds each message of the map at most once, which bounds the loop. -/
def selfParents (mv : Message M S) (finalized : Finset (Message M S)) : List (Message M S) :=
  selfParentsLoop msgMap finalized mv.sender msgMap.entries.length
    (ownParents msgMap finalized mv.sender mv)

/-- Whether the minimum messages are enough for the next-fringe calculation. -/
def checkMinMessages (minMsgs : List (Message M S)) (bondsMap : BondsMap S) : Bool :=
  minMsgs.length = bondsMap.entries.length

/-- One candidate of `calculate_next_layer` against the map built so far. -/
def raiseLayer (layer : AList (fun _ : S => Message M S)) (m : Message M S) :
    AList (fun _ : S => Message M S) :=
  match layer.lookup m.sender with
  | some curr => if curr.senderSeq < m.senderSeq then layer.insert m.sender m else layer
  | none => layer

/-- The top (most recent) message referenced from the minimum messages, per sender. -/
def calculateNextLayer (minMsgs : List (Message M S)) : AList (fun _ : S => Message M S) :=
  let minMessagesMap : AList (fun _ : S => Message M S) :=
    minMsgs.foldl (fun layer x => layer.insert x.sender x) ∅
  let candidates := minMsgs.flatMap fun x => x.parents.filterMap (msgAt msgMap)
  (candidates.filter fun x => x.sender ∈ minMessagesMap).foldl raiseLayer minMessagesMap

/-- The senders of the parents of `mv` outside the next layer whose own chain has seen `minMsg`. -/
def seeMinMsg (nextLayerIds : List M) (finalized : Finset (Message M S)) (mv minMsg : Message M S) :
    Finset S :=
  let parentsOfParent := mv.parents.filter fun p => p ∉ nextLayerIds
  let witnesses := (parentsOfParent.filterMap (msgAt msgMap)).filter fun p =>
    (p :: selfParents msgMap p finalized).any fun m => minMsg.id ∈ m.seen
  (witnesses.map (·.sender)).toFinset

/-- Which next-layer messages are seen, and by which parents of `mv`. A message seen by nobody
has no entry. -/
def seenBy (nextLayer : AList (fun _ : S => Message M S)) (finalized : Finset (Message M S))
    (mv : Message M S) : AList (fun _ : S => Finset S) :=
  nextLayer.entries.foldl
    (fun acc entry =>
      let senders := seeMinMsg msgMap (nextLayer.entries.map (·.2.id)) finalized mv entry.2
      if senders = ∅ then acc else acc.insert entry.1 senders)
    ∅

/-- For each justification sender, which next-layer messages each parent sees. -/
def calculateNextFringeSupportMap (parents : List (Message M S))
    (nextLayer : AList (fun _ : S => Message M S)) (finalized : Finset (Message M S)) :
    AList (fun _ : S => AList (fun _ : S => Finset S)) :=
  parents.foldl
    (fun result mv =>
      let seen := seenBy msgMap nextLayer finalized mv
      if seen.entries = [] then result else result.insert mv.sender seen)
    ∅

/-- Whether one entry of the support map counts: every message seen at all is seen by every
bonded sender, and at least one is seen. -/
def allBonded (bondsMap : BondsMap S) (seen : AList (fun _ : S => Finset S)) : Bool :=
  decide (seen.entries ≠ []) && seen.entries.all fun entry => entry.2 = bondsMap.keys.toFinset

/-- Whether the supporting stake is a supermajority. -/
def calculateFringe (supportMap : AList (fun _ : S => AList (fun _ : S => Finset S)))
    (bondsMap : BondsMap S) : Bool :=
  let fullPartitionStake := (supportMap.entries.map fun entry =>
    if allBonded bondsMap entry.2 then (bondsMap.lookup entry.1).getD 0 else 0).sum
  let totalStake := (bondsMap.entries.map (·.2)).sum
  isSuperMajority fullPartitionStake totalStake

/-- The minimum (oldest non-finalized) message on the chain of justification `p`. -/
def minMsg (prevFringe : Finset (Message M S)) (p : Message M S) : Message M S :=
  (p :: selfParents msgMap p prevFringe).getLast (List.cons_ne_nil _ _)

def nextFringe (justifications : List (Message M S)) (bondsMap : BondsMap S)
    (prevFringe : Finset (Message M S)) : Option (Finset (Message M S)) :=
  let minMsgs := justifications.map (minMsg msgMap prevFringe)
  if checkMinMessages minMsgs bondsMap then
    let nextLayer := calculateNextLayer msgMap minMsgs
    let supportMap := calculateNextFringeSupportMap msgMap justifications nextLayer prevFringe
    if calculateFringe supportMap bondsMap then
      some (nextLayer.entries.map (·.2)).toFinset
    else
      none
  else
    none

/-- The `while let Some(nf) = self.next_fringe(..)` loop, with its progress guard. -/
def finalizationLoop (msgMap : MsgMap M S) (justifications : List (Message M S))
    (bondsMap : BondsMap S) :
    Nat → Finset (Message M S) → Option (Finset (Message M S)) → Option (Finset (Message M S))
  | 0, _, newFringe => newFringe
  | fuel + 1, current, newFringe =>
    match nextFringe msgMap justifications bondsMap current with
    | none => newFringe
    | some nf =>
      if nf = current then newFringe
      else finalizationLoop msgMap justifications bondsMap fuel nf (some nf)

/-- The fringe from joined justifications and any newly detected fringe. -/
def calculateFinalization (justifications : List (Message M S)) (bondsMap : BondsMap S) :
    Finset (Message M S) × Option (Finset (Message M S)) :=
  let parentFringe := latestFringe msgMap justifications
  (parentFringe,
    finalizationLoop msgMap justifications bondsMap (msgMap.entries.length + 1) parentFringe none)

end RChain.Dag
