import RChain.Dag.Agreement
import RChain.Dag.MessageMap
import RChain.Lib.Orbit

/-!
# Where the finalization loop stops

The loop of `calculate_finalization` stops at a fringe that has no next one or is its own next one.
Honest creations get there. In general the loop can go around: a fringe with a message beside the
chain of its sender's justification leaves that chain uncut, so the next round starts again from the
oldest message of the chain.
-/

namespace RChain.Dag

open Orbits

section Loop

variable {M S : Type} [DecidableEq M] [DecidableEq S] (msgMap : MsgMap M S)
  (justifications : List (Message M S)) (bondsMap : BondsMap S)

/-- The fringe the loop has reached after `fuel` iterations. -/
def fringeAfter (fuel : Nat) : Finset (Message M S) :=
  let parentFringe := latestFringe msgMap justifications
  (finalizationLoop msgMap justifications bondsMap fuel parentFringe none).getD parentFringe

/-- The loop ends after finitely many iterations. -/
def FringeLoopStops : Prop :=
  ∃ fuel, Rests (nextFringe msgMap justifications bondsMap)
    (fringeAfter msgMap justifications bondsMap fuel)

/-- The loop follows the next fringes until it has no iteration left or has come to rest. -/
theorem loop_on_orbit (start : Finset (Message M S)) (fuel : Nat)
    (current : Finset (Message M S)) (found : Option (Finset (Message M S)))
    (same : found.getD start = current) :
    let reached := (finalizationLoop msgMap justifications bondsMap fuel current found).getD start
    ∃ n, orbit (nextFringe msgMap justifications bondsMap) current n = some reached ∧
      (n = fuel ∨ Rests (nextFringe msgMap justifications bondsMap) reached) := by
  induction fuel generalizing current found with
  | zero => exact ⟨0, congrArg some same.symm, Or.inl rfl⟩
  | succ fuel ih =>
    unfold finalizationLoop
    cases stepped : nextFringe msgMap justifications bondsMap current with
    | none =>
      refine ⟨0, congrArg some same.symm, Or.inr ?_⟩
      rw [same]
      exact fun _ further => by cases stepped.symm.trans further
    | some nf =>
      dsimp only
      split_ifs with stays
      · refine ⟨0, congrArg some same.symm, Or.inr ?_⟩
        rw [same]
        exact fun _ further => (Option.some.inj (further.symm.trans stepped)).trans stays
      · obtain ⟨n, followed, ended⟩ := ih nf (some nf) rfl
        refine ⟨1 + n, ?_, ended.imp (fun all => by omega) id⟩
        rw [orbit_add, orbit, orbit, Option.bind_some, stepped]
        exact followed

theorem stops_iff_settles : FringeLoopStops msgMap justifications bondsMap ↔
    Settles (nextFringe msgMap justifications bondsMap) (latestFringe msgMap justifications) := by
  have after (fuel : Nat) := loop_on_orbit msgMap justifications bondsMap
    (latestFringe msgMap justifications) fuel (latestFringe msgMap justifications) none rfl
  constructor
  · rintro ⟨fuel, rests⟩
    obtain ⟨n, followed, _⟩ := after fuel
    exact ⟨n, _, followed, rests⟩
  · rintro ⟨fuel, fringe, reached, rests⟩
    obtain ⟨n, followed, ended⟩ := after fuel
    refine ⟨fuel, ended.elim (fun all => ?_) id⟩
    rw [all, reached] at followed
    have same : fringe = fringeAfter msgMap justifications bondsMap fuel := Option.some.inj followed
    exact same ▸ rests

/-- Fringes are sets of messages of the map and of justifications, so there are finitely many. -/
theorem fringes_finite : {fringe | ∃ n, orbit (nextFringe msgMap justifications bondsMap)
    (latestFringe msgMap justifications) n = some fringe}.Finite := by
  let messages := (msgMap.entries.map (·.2)).toFinset ∪ justifications.toFinset
  refine (insert (latestFringe msgMap justifications) messages.powerset).finite_toSet.subset ?_
  rintro fringe ⟨n, reached⟩
  rw [Finset.mem_coe, Finset.mem_insert, Finset.mem_powerset]
  cases n with
  | zero => exact Or.inl (Option.some.inj reached).symm
  | succ n =>
    obtain ⟨_, _, stepped⟩ := Option.bind_eq_some_iff.mp reached
    refine Or.inr (next_fringe_among (fun x carried => ?_) (fun j listed => ?_) stepped)
    · obtain ⟨id, found⟩ := carried
      exact Finset.mem_union_left _
        (List.mem_toFinset.mpr (List.mem_map.mpr ⟨_, AList.mem_lookup_iff.mp found, rfl⟩))
    · exact Finset.mem_union_right _ (List.mem_toFinset.mpr listed)

theorem visits_of_orbit {bonds : BondsMap S} {c : Creation M S} {n : Nat}
    {fringe : Finset (Message M S)}
    (reached : orbit (nextFringe c.known.msgMap c.justifications bonds)
      (latestFringe c.known.msgMap c.justifications) n = some fringe) : Visits bonds c fringe := by
  induction n generalizing fringe with
  | zero => exact Option.some.inj reached ▸ .start
  | succ n ih =>
    obtain ⟨before, earlier, returned⟩ := Option.bind_eq_some_iff.mp reached
    by_cases stays : fringe = before
    · exact stays ▸ ih earlier
    · exact (ih earlier).step returned stays

/-- Honest creations do not lead back. -/
theorem honest_never_returns {bonds : BondsMap S} {run : List (Creation M S)}
    (reached : Run bonds run) {c : Creation M S} (member : c ∈ run) :
    NeverReturns (nextFringe c.known.msgMap c.justifications bonds)
      (latestFringe c.known.msgMap c.justifications) := by
  obtain ⟨view, known, _⟩ := run_view reached member
  refine never_returns_of_measure (fun fringe => (remaining bonds c.known.msgMap fringe).card)
    fun _ fringe next visited returned _ => ?_
  obtain ⟨ok, ahead, _⟩ := visits_reached (run_coherent reached) member view known
    (visits_of_orbit visited)
  exact remaining_card_lt (run_coherent reached) view ok ahead returned

end Loop

section Forks

/-- Two validators that each keep a second branch. The justifications 13 and 14 are on the branches
1, 7, 11 and 2, 8, 12; the branches 3, 4, 9 and 5, 6, 10 are beside them. -/
def forkedMap : MsgMap Nat Nat :=
  [(1, 0, 0, []), (2, 1, 0, []), (3, 0, 1, [1]), (4, 0, 2, [3]), (5, 1, 1, [2]), (6, 1, 2, [5]),
    (7, 0, 1, [1, 6]), (8, 1, 1, [2, 4]), (9, 0, 3, [4, 6]), (10, 1, 3, [4, 6]), (11, 0, 2, [7, 10]),
    (12, 1, 2, [8, 9]), (13, 0, 3, [10, 11]), (14, 1, 3, [9, 12])].foldl
    (fun msgMap (id, sender, senderSeq, parents) =>
      msgMap.insert id
        { id, height := id, sender, senderSeq, bondsMap := sampleBonds, parents, fringe := ∅
          seen := insert id ((messagesAt msgMap parents.toFinset).biUnion (·.seen)) })
    ∅

def forkedJustifications : List (Message Nat Nat) := [13, 14].filterMap forkedMap.lookup

end Forks

end RChain.Dag
