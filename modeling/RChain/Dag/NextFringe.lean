import RChain.Dag.Run

/-!
# The next fringe is the next layer

Inside a view that is ahead of the previous fringe, `next_fringe` returns either
nothing or the next layer of the sender chains above that fringe. The second case
uses the support count: a full supporter sees one layer message from every bonded
chain, hence is beyond the fringe everywhere, hence sees every layer message from
every bonded chain. So the view is ahead of the new fringe as well.
-/

namespace RChain.Dag

open ChainLayers List AList

variable {M S : Type} [DecidableEq M] [DecidableEq S]

/-- What a node knows when it computes finality: a part of the log that contains everything its
justifications have seen. -/
structure View (bonds : BondsMap S) (log : List (Message M S)) (msgMap : MsgMap M S)
    (justifications : List (Message M S)) : Prop where
  lookup_mem : ∀ {i : M} {x : Message M S}, msgAt msgMap i = some x → x ∈ log ∧ x.id = i
  justified : ∀ j ∈ justifications, j ∈ log
  held : ∀ j ∈ justifications, ∀ x ∈ log, x.id ∈ j.seen → msgAt msgMap x.id = some x
  onePerSender : (justifications.map (·.sender)).Nodup
  latest : ∀ k ∈ justifications, ∀ x ∈ log, x.id ∈ k.seen → x.sender ∈ bonds →
    ∃ j ∈ justifications, j.sender = x.sender ∧ x.id ∈ j.seen

section Chains

variable {bonds : BondsMap S} {log : List (Message M S)} {msgMap : MsgMap M S}
  {justifications : List (Message M S)} {cut : Finset (Message M S)} {sender : S}
  {x p : Message M S} {seq : Nat} {i : M}

theorem mem_own_parents : p ∈ ownParents msgMap cut sender x ↔
      (∃ i ∈ x.parents, msgAt msgMap i = some p) ∧ p.sender = sender ∧ p ∉ cut := by
  simp [ownParents]

/-- The messages of one sender in the map that are older than sequence number `seq`. -/
def olderThan (msgMap : MsgMap M S) (sender : S) (seq : Nat) : Finset (Message M S) :=
  (msgMap.entries.map (·.2)).toFinset.filter fun x => x.sender = sender ∧ x.senderSeq < seq

theorem mem_older_than (found : msgAt msgMap i = some x) (owned : x.sender = sender)
    (smaller : x.senderSeq < seq) :
    x ∈ olderThan msgMap sender seq := by
  have entry : Sigma.mk i x ∈ msgMap.entries := mem_lookup_iff.mp found
  simp only [olderThan, Finset.mem_filter, mem_toFinset, mem_map]
  exact ⟨⟨_, entry, rfl⟩, owned, smaller⟩

theorem older_than_card_le (sender : S) (seq : Nat) :
    (olderThan msgMap sender seq).card ≤ msgMap.entries.length := by
  calc
    (olderThan msgMap sender seq).card ≤ (msgMap.entries.map (·.2)).toFinset.card :=
      Finset.card_filter_le _ _
    _ ≤ (msgMap.entries.map (·.2)).length := toFinset_card_le _
    _ = msgMap.entries.length := length_map _

theorem older_than_card_lt (found : msgAt msgMap i = some x) (owned : x.sender = sender)
    (smaller : x.senderSeq < seq) :
    (olderThan msgMap sender x.senderSeq).card < (olderThan msgMap sender seq).card := by
  apply Finset.card_lt_card
  rw [Finset.ssubset_iff_of_subset]
  · exact ⟨x, mem_older_than found owned smaller, by simp [olderThan]⟩
  · intro _ mem
    simp only [olderThan, Finset.mem_filter] at mem ⊢
    exact ⟨mem.1, mem.2.1, mem.2.2.trans smaller⟩

/-- Everything `x` has seen is in the map. -/
def Held (log : List (Message M S)) (msgMap : MsgMap M S) (x : Message M S) : Prop :=
  ∀ y ∈ log, y.id ∈ x.seen → msgAt msgMap y.id = some y

section

variable (coherent : Coherent bonds log)

include coherent

omit [DecidableEq S] in
theorem held_of_seen {y : Message M S} (mem : x ∈ log) (held : Held log msgMap x)
    (present : y ∈ log) (seen : y.id ∈ x.seen) :
    Held log msgMap y := by
  intro z inside seen'
  exact held z inside ((chainDag coherent).sees_trans x mem y z ⟨present, seen⟩ ⟨inside, seen'⟩).2

omit [DecidableEq M] [DecidableEq S] in
theorem parent_seen (mem : x ∈ log) (present : p ∈ log) (cited : p.id ∈ x.parents) :
    p.id ∈ x.seen :=
  ((chainDag coherent).cites_sees x mem p ⟨present, cited⟩).2

omit [DecidableEq M] [DecidableEq S] in
theorem oldest_of_no_own_parent (beyond : x ∈ (chainDag coherent).above ↑cut x.sender)
    (stop : ∀ p ∈ log, p.id ∈ x.parents → p.sender = x.sender → p ∈ cut) :
    (chainDag coherent).Oldest ↑cut x.sender x := by
  refine ⟨beyond, ?_⟩
  intro w above
  by_contra smaller
  obtain ⟨p, present, cited, owned, _⟩ :=
    coherent.own_parent x beyond.1 w above.1 above.2.1 (not_le.mp smaller)
  have finalized : p ∈ cut := stop p present cited owned
  have lower : p.senderSeq < w.senderSeq := above.2.2 p finalized owned
  omega

omit [DecidableEq M] [DecidableEq S] in
theorem own_parent_above (items : ∀ f ∈ cut, f ∈ log)
    (beyond : x ∈ (chainDag coherent).above ↑cut x.sender) (present : p ∈ log)
    (cited : p.id ∈ x.parents) (owned : p.sender = x.sender) (outside : p ∉ cut) :
    p ∈ (chainDag coherent).above ↑cut p.sender := by
  refine ⟨present, rfl, ?_⟩
  intro f finalized same
  have same : f.sender = p.sender := same
  have lower : f.senderSeq < x.senderSeq := beyond.2.2 f finalized (same.trans owned)
  obtain ⟨q, presentQ, citedQ, ownedQ, bounded⟩ :=
    coherent.own_parent x beyond.1 f (items f finalized) (same.trans owned) lower
  have unique : q = p :=
    coherent.one_parent x beyond.1 q presentQ p present citedQ cited (ownedQ.trans owned.symm)
  subst unique
  have different : f.senderSeq ≠ q.senderSeq := by
    intro equal
    have identical := coherent.seq_injective f (items f finalized) q present same equal
    exact outside (identical ▸ finalized)
  exact lt_of_le_of_ne bounded different

/-- The chain loop ends at the oldest message above the cut once the fuel covers the older
messages of the sender. -/
theorem self_parents_loop_oldest (items : ∀ f ∈ cut, f ∈ log)
    (view : ∀ {i : M} {x : Message M S}, msgAt msgMap i = some x → x ∈ log ∧ x.id = i) (fuel : Nat)
    (x : Message M S) (beyond : x ∈ (chainDag coherent).above ↑cut x.sender)
    (held : Held log msgMap x) (enough : (olderThan msgMap x.sender x.senderSeq).card ≤ fuel) :
    (chainDag coherent).Oldest ↑cut x.sender ((x :: selfParentsLoop msgMap cut x.sender fuel
        (ownParents msgMap cut x.sender x)).getLast (cons_ne_nil _ _)) := by
  induction fuel generalizing x with
  | zero =>
    simp only [selfParentsLoop, getLast_singleton]
    apply oldest_of_no_own_parent coherent beyond
    intro p present cited owned
    have found := held p present (parent_seen coherent beyond.1 present cited)
    have smaller := coherent.parent_seq x beyond.1 p present cited owned
    have counted := mem_older_than found owned smaller
    rw [Nat.le_zero, Finset.card_eq_zero] at enough
    simp [enough] at counted
  | succ _ ih =>
    cases next : (ownParents msgMap cut x.sender x).getLast? with
    | none =>
      simp only [selfParentsLoop, next, getLast_singleton]
      apply oldest_of_no_own_parent coherent beyond
      intro p present cited owned
      have found := held p present (parent_seen coherent beyond.1 present cited)
      rw [getLast?_eq_none_iff] at next
      by_contra outside
      have listed : p ∈ ownParents msgMap cut x.sender x :=
        mem_own_parents.mpr ⟨⟨p.id, cited, found⟩, owned, outside⟩
      simp [next] at listed
    | some p =>
      have listed := mem_of_getLast? next
      obtain ⟨⟨_, cited, found⟩, owned, outside⟩ := mem_own_parents.mp listed
      obtain ⟨present, same⟩ := view found
      subst same
      have smaller := coherent.parent_seq x beyond.1 p present cited owned
      have above := own_parent_above coherent items beyond present cited owned outside
      have heldP := held_of_seen coherent beyond.1 held present
        (parent_seen coherent beyond.1 present cited)
      have fewer := older_than_card_lt found owned smaller
      have tail := ih p above heldP (by rw [owned]; omega)
      rw [owned] at tail
      simpa only [selfParentsLoop, next, getLast_cons_cons] using tail

theorem min_msg_oldest (items : ∀ f ∈ cut, f ∈ log) (view : View bonds log msgMap justifications)
    {j : Message M S} (mem : j ∈ justifications)
    (beyond : j ∈ (chainDag coherent).above ↑cut j.sender) :
    (chainDag coherent).Oldest ↑cut j.sender (minMsg msgMap cut j) :=
  self_parents_loop_oldest coherent items view.lookup_mem _ j beyond (view.held j mem)
    (older_than_card_le _ _)

theorem self_parents_loop_seen
    (view : ∀ {i : M} {x : Message M S}, msgAt msgMap i = some x → x ∈ log ∧ x.id = i) (sender : S)
    (fuel : Nat) (x m : Message M S) (mem : x ∈ log)
    (listed : m ∈ selfParentsLoop msgMap cut sender fuel (ownParents msgMap cut sender x)) :
    m.seen ⊆ x.seen := by
  induction fuel generalizing x with
  | zero => simp [selfParentsLoop] at listed
  | succ _ ih =>
    cases next : (ownParents msgMap cut sender x).getLast? with
    | none => simp [selfParentsLoop, next] at listed
    | some p =>
      obtain ⟨⟨i, cited, found⟩, _⟩ := mem_own_parents.mp (mem_of_getLast? next)
      obtain ⟨present, same⟩ := view found
      obtain ⟨q, presentQ, sameQ, subset⟩ := coherent.parent x mem i cited
      rw [coherent.ids q presentQ p present (sameQ.trans same.symm)] at subset
      simp only [selfParentsLoop, next, mem_cons] at listed
      rcases listed with itself | deeper
      · rw [itself]
        exact subset
      · exact (ih p present deeper).trans subset

end

end Chains

section Layer

variable {low : Message M S}

section

variable (layer : AList (fun _ : S => Message M S))
include layer

omit [DecidableEq M] in
theorem lookup_raise_layer (m : Message M S) (s : S) (found : layer.lookup s = some low) :
    ∃ top, (raiseLayer layer m).lookup s = some top ∧ (top = low ∨ (top = m ∧ m.sender = s)) ∧
      low.senderSeq ≤ top.senderSeq ∧ (m.sender = s → m.senderSeq ≤ top.senderSeq) := by
  unfold raiseLayer
  by_cases same : m.sender = s
  · subst same
    simp only [found]
    split_ifs with larger
    · exact ⟨m, lookup_insert _, .inr ⟨rfl, trivial⟩, larger.le, fun _ => le_rfl⟩
    · exact ⟨low, found, .inl rfl, le_rfl, fun _ => not_lt.mp larger⟩
  · cases current : layer.lookup m.sender with
    | none => exact ⟨low, found, .inl rfl, le_rfl, fun equal => absurd equal same⟩
    | some =>
      refine ⟨low, ?_, .inl rfl, le_rfl, fun equal => absurd equal same⟩
      dsimp only
      split_ifs
      · rw [lookup_insert_ne (Ne.symm same)]
        exact found
      · exact found

omit [DecidableEq M] in
theorem keys_raise_layer (m : Message M S) (s : S) : s ∈ raiseLayer layer m ↔ s ∈ layer := by
  unfold raiseLayer
  cases current : layer.lookup m.sender with
  | none => rfl
  | some =>
    dsimp only
    split_ifs
    · rw [mem_insert]
      constructor
      · rintro (rfl | mem)
        · exact held_of_lookup current
        · exact mem
      · exact .inr
    · rfl

omit [DecidableEq M] in
theorem keys_raise_fold (candidates : List (Message M S)) (s : S) :
    s ∈ candidates.foldl raiseLayer layer ↔ s ∈ layer := by
  induction candidates generalizing layer with
  | nil => rfl
  | cons m _ ih => rw [foldl_cons, ih, keys_raise_layer]

omit [DecidableEq M] in
theorem lookup_raise_fold (candidates : List (Message M S)) (s : S)
    (found : layer.lookup s = some low) :
    ∃ top, (candidates.foldl raiseLayer layer).lookup s = some top ∧
      (top = low ∨ (top ∈ candidates ∧ top.sender = s)) ∧ low.senderSeq ≤ top.senderSeq ∧
      ∀ m ∈ candidates, m.sender = s → m.senderSeq ≤ top.senderSeq := by
  induction candidates generalizing layer low with
  | nil => exact ⟨low, found, .inl rfl, le_rfl, by simp⟩
  | cons m _ ih =>
    obtain ⟨_, found', origin, lower, covered⟩ := lookup_raise_layer layer m s found
    obtain ⟨top, result, origin', lower', covered'⟩ := ih (raiseLayer layer m) found'
    refine ⟨top, result, ?_, lower.trans lower', ?_⟩
    · rcases origin' with rfl | ⟨listed, owned⟩
      · rcases origin with rfl | ⟨rfl, owned⟩
        · exact .inl rfl
        · exact .inr ⟨mem_cons_self, owned⟩
      · exact .inr ⟨mem_cons_of_mem _ listed, owned⟩
    · intro c listed owned
      rcases mem_cons.mp listed with rfl | listed
      · exact (covered owned).trans lower'
      · exact covered' c listed owned

omit [DecidableEq M] in
theorem lookup_min_fold (minMsgs : List (Message M S)) (distinct : (minMsgs.map (·.sender)).Nodup)
    (s : S) :
    (∀ m ∈ minMsgs, m.sender = s →
      (minMsgs.foldl (fun layer x => layer.insert x.sender x) layer).lookup s = some m) ∧
    ((∀ m ∈ minMsgs, m.sender ≠ s) →
      (minMsgs.foldl (fun layer x => layer.insert x.sender x) layer).lookup s =
        layer.lookup s) := by
  induction minMsgs generalizing layer with
  | nil => simp
  | cons x _ ih =>
    rw [map_cons, nodup_cons] at distinct
    obtain ⟨isHead, inTail⟩ := ih (layer.insert x.sender x) distinct.2
    constructor
    · intro m mem owned
      rw [foldl_cons]
      rcases mem_cons.mp mem with rfl | mem
      · subst owned
        rw [inTail, lookup_insert]
        intro m' member' same
        exact distinct.1 (mem_map.mpr ⟨m', member', same⟩)
      · exact isHead m mem owned
    · intro others
      rw [foldl_cons, inTail (fun m mem => others m (mem_cons_of_mem _ mem)),
        lookup_insert_ne (Ne.symm (others x mem_cons_self))]

end

variable {bonds : BondsMap S} {log : List (Message M S)} {msgMap : MsgMap M S}
  {minMsgs : List (Message M S)} {cut : Finset (Message M S)}

/-- With the oldest message above the cut for every bonded sender and nobody else,
`calculate_next_layer` is the next layer. -/
theorem next_layer_lookup (coherent : Coherent bonds log)
    (view : ∀ {i : M} {x : Message M S}, msgAt msgMap i = some x → x ∈ log ∧ x.id = i)
    (held : ∀ m ∈ minMsgs, Held log msgMap m)
    (distinct : (minMsgs.map (·.sender)).Nodup)
    (oldest : ∀ m ∈ minMsgs, m.sender ∈ bonds ∧ (chainDag coherent).Oldest ↑cut m.sender m)
    (everyone : ∀ s ∈ bonds, ∃ m ∈ minMsgs, m.sender = s) :
    (∀ s ∈ bonds, ∃ top, (calculateNextLayer msgMap minMsgs).lookup s = some top) ∧
    ∀ s top, (calculateNextLayer msgMap minMsgs).lookup s = some top →
      s ∈ bonds ∧ (chainDag coherent).LayerAt ↑cut s top := by
  unfold calculateNextLayer
  dsimp only
  set start : AList (fun _ : S => Message M S) :=
    minMsgs.foldl (fun layer x => layer.insert x.sender x) ∅ with startDef
  have startKeys : ∀ s, s ∈ start ↔ s ∈ bonds := by
    intro s
    constructor
    · intro mem
      by_contra unbonded
      have none := (lookup_min_fold ∅ minMsgs distinct s).2
        (fun m listed same => unbonded (same ▸ (oldest m listed).1))
      rw [← startDef, lookup_empty] at none
      rw [← lookup_isSome, none] at mem
      simp at mem
    · intro bonded
      obtain ⟨m, listed, owned⟩ := everyone s bonded
      rw [← lookup_isSome, (lookup_min_fold ∅ minMsgs distinct s).1 m listed owned]
      rfl
  set candidates := (minMsgs.flatMap fun x => x.parents.filterMap (msgAt msgMap)).filter
    fun x => x.sender ∈ start with candidatesDef
  have cited : ∀ v, v ∈ candidates ↔ v.sender ∈ bonds ∧ ∃ m ∈ minMsgs, v ∈ log ∧ v.id ∈ m.parents := by
    intro v
    simp only [candidatesDef, mem_filter, mem_flatMap, mem_filterMap, decide_eq_true_eq, startKeys]
    constructor
    · rintro ⟨⟨m, listed, _, inside, found⟩, bonded⟩
      obtain ⟨present, same⟩ := view found
      exact ⟨bonded, m, listed, present, same ▸ inside⟩
    · rintro ⟨bonded, m, listed, present, inside⟩
      refine ⟨⟨m, listed, v.id, inside, ?_⟩, bonded⟩
      exact held m listed v present (parent_seen coherent (oldest m listed).2.1.1 present inside)
  constructor
  · intro s bonded
    obtain ⟨m, listed, owned⟩ := everyone s bonded
    have found := (lookup_min_fold ∅ minMsgs distinct s).1 m listed owned
    obtain ⟨top, result, _⟩ := lookup_raise_fold start candidates s found
    exact ⟨top, result⟩
  · intro s top result
    have bonded : s ∈ bonds := by
      rw [← startKeys, ← keys_raise_fold _ candidates, ← lookup_isSome, result]
      rfl
    obtain ⟨m, listed, owned⟩ := everyone s bonded
    have found := (lookup_min_fold ∅ minMsgs distinct s).1 m listed owned
    obtain ⟨_, result', origin, lower, covered⟩ := lookup_raise_fold start candidates s found
    rw [result, Option.some.injEq] at result'
    subst result'
    have oldestM : (chainDag coherent).Oldest ↑cut s m := owned ▸ (oldest m listed).2
    refine ⟨bonded, ?_, ?_⟩
    · rcases origin with rfl | ⟨candidate, ownedTop⟩
      · exact .inl oldestM
      · obtain ⟨_, n, listedN, present, inside⟩ := (cited top).mp candidate
        exact .inr ⟨ownedTop, n.sender, (oldest n listedN).1, n, (oldest n listedN).2,
          present, inside⟩
    · rintro w (oldestW | ⟨ownedW, t, bondedT, n, oldestN, present, inside⟩)
      · rw [oldest_unique oldestW oldestM]
        exact lower
      · obtain ⟨n', listedN, ownedN⟩ := everyone t bondedT
        have same : n = n' := oldest_unique oldestN (ownedN ▸ (oldest n' listedN).2)
        subst same
        have ownedW : w.sender = s := ownedW
        exact covered w ((cited w).mpr ⟨by rw [ownedW]; exact bonded, n, listedN, present, inside⟩)
          ownedW

end Layer

section Support

variable {msgMap : MsgMap M S} {nextLayer : AList (fun _ : S => Message M S)}
  {finalized : Finset (Message M S)} {bonds : BondsMap S}

theorem seen_by_fold (ids : List M) (mv : Message M S)
    (entries : List (Sigma fun _ : S => Message M S)) (distinct : entries.NodupKeys)
    (acc : AList (fun _ : S => Finset S)) (s : S) (senders : Finset S) :
    (entries.foldl (fun acc entry =>
        let senders := seeMinMsg msgMap ids finalized mv entry.2
        if senders = ∅ then acc else acc.insert entry.1 senders) acc).lookup s = some senders ↔
      (∃ top, Sigma.mk s top ∈ entries ∧ seeMinMsg msgMap ids finalized mv top = senders ∧
        senders ≠ ∅) ∨
      (acc.lookup s = some senders ∧ ∀ top, Sigma.mk s top ∈ entries →
        seeMinMsg msgMap ids finalized mv top = ∅) := by
  induction entries generalizing acc with
  | nil => simp
  | cons entry entries ih =>
    obtain ⟨t, low⟩ := entry
    rw [nodupKeys_cons] at distinct
    have absent : ∀ top, Sigma.mk t top ∉ entries := by
      intro top mem
      exact distinct.1 (mem_keys.mpr ⟨top, mem⟩)
    rw [foldl_cons, ih distinct.2]
    by_cases same : t = s
    · subst same
      dsimp only
      split_ifs with nobody
      · simp [absent, nobody]
        intro present nonempty
        exact absurd (present ▸ rfl) nonempty
      · simp [absent, nobody, lookup_insert]
        intro present
        exact present ▸ nobody
    · have inTail : ∀ top,
          Sigma.mk s top ∈ (⟨t, low⟩ :: entries : List (Sigma fun _ : S => Message M S)) ↔
            Sigma.mk s top ∈ entries := by
        intro _
        simp [Ne.symm same]
      simp only [inTail]
      split_ifs
      · rfl
      · rw [lookup_insert_ne (Ne.symm same)]

theorem lookup_seen_by (mv : Message M S) (s : S) (senders : Finset S) :
    (seenBy msgMap nextLayer finalized mv).lookup s = some senders ↔
      ∃ top, nextLayer.lookup s = some top ∧
        seeMinMsg msgMap (nextLayer.entries.map (·.2.id)) finalized mv top = senders ∧
        senders ≠ ∅ := by
  unfold seenBy
  rw [seen_by_fold _ mv nextLayer.entries nextLayer.nodupKeys]
  simp only [lookup_empty, reduceCtorEq, false_and, or_false]
  constructor
  · rintro ⟨top, entry, rest⟩
    exact ⟨top, mem_lookup_iff.mpr entry, rest⟩
  · rintro ⟨top, found, rest⟩
    exact ⟨top, mem_lookup_iff.mp found, rest⟩

theorem support_fold (parents : List (Message M S))
    (acc : AList (fun _ : S => AList (fun _ : S => Finset S))) (s : S)
    (seen : AList (fun _ : S => Finset S))
    (found : (parents.foldl (fun result mv =>
      let seen := seenBy msgMap nextLayer finalized mv
      if seen.entries = [] then result else result.insert mv.sender seen) acc).lookup s =
        some seen) :
    (∃ mv ∈ parents, mv.sender = s ∧ seen = seenBy msgMap nextLayer finalized mv) ∨
      acc.lookup s = some seen := by
  induction parents generalizing acc with
  | nil => exact .inr found
  | cons mv _ ih =>
    rw [foldl_cons] at found
    rcases ih _ found with ⟨other, listed, rest⟩ | earlier
    · exact .inl ⟨other, mem_cons_of_mem _ listed, rest⟩
    · dsimp only at earlier
      split_ifs at earlier
      · exact .inr earlier
      · by_cases same : s = mv.sender
        · subst same
          rw [lookup_insert, Option.some.injEq] at earlier
          exact .inl ⟨mv, mem_cons_self, rfl, earlier.symm⟩
        · rw [lookup_insert_ne same] at earlier
          exact .inr earlier

theorem supporter_of_fringe (parents : List (Message M S)) (supported : calculateFringe
      (calculateNextFringeSupportMap msgMap parents nextLayer finalized) bonds = true) :
    ∃ mv ∈ parents, mv.sender ∈ bonds ∧
      allBonded bonds (seenBy msgMap nextLayer finalized mv) = true := by
  by_contra nobody
  have noStake : ∀ entry ∈
      (calculateNextFringeSupportMap msgMap parents nextLayer finalized).entries,
      (if allBonded bonds entry.2 then (bonds.lookup entry.1).getD 0 else 0) = 0 := by
    rintro ⟨s, seen⟩ entry
    split_ifs with full
    · have found := mem_lookup_iff.mpr entry
      rcases support_fold parents ∅ s seen found with ⟨mv, listed, owned, same⟩ | absent
      · cases stake : bonds.lookup s with
        | none => rfl
        | some =>
          refine absurd ⟨mv, listed, ?_, same ▸ full⟩ nobody
          rw [owned, ← lookup_isSome, stake]
          rfl
      · simp at absent
    · rfl
  have zero : ((calculateNextFringeSupportMap msgMap parents nextLayer finalized).entries.map
      fun entry => if allBonded bonds entry.2 then (bonds.lookup entry.1).getD 0 else 0).sum =
        0 := by
    apply sum_eq_zero
    intro _ listed
    obtain ⟨entry, mem, same⟩ := mem_map.mp listed
    rw [← same]
    exact noStake entry mem
  simp only [calculateFringe, isSuperMajority, zero, decide_eq_true_eq] at supported
  omega

/-- A counting entry: some layer message is seen, and whichever is seen at all is seen by the
parents of every bonded sender. -/
theorem all_bonded_cases (mv : Message M S)
    (full : allBonded bonds (seenBy msgMap nextLayer finalized mv) = true) :
    (∃ s top, nextLayer.lookup s = some top ∧
      seeMinMsg msgMap (nextLayer.entries.map (·.2.id)) finalized mv top = bonds.keys.toFinset) ∧
    ∀ s top, nextLayer.lookup s = some top →
      seeMinMsg msgMap (nextLayer.entries.map (·.2.id)) finalized mv top ≠ ∅ →
      seeMinMsg msgMap (nextLayer.entries.map (·.2.id)) finalized mv top = bonds.keys.toFinset := by
  simp only [allBonded, Bool.and_eq_true, decide_eq_true_eq, all_eq_true] at full
  obtain ⟨nonempty, every⟩ := full
  constructor
  · obtain ⟨⟨s, senders⟩, entry⟩ := exists_mem_of_ne_nil _ nonempty
    obtain ⟨top, found, same, _⟩ := (lookup_seen_by mv s senders).mp (mem_lookup_iff.mpr entry)
    exact ⟨s, top, found, same.trans (every _ entry)⟩
  · intro s top found somebody
    have looked : (seenBy msgMap nextLayer finalized mv).lookup s = some _ :=
      (lookup_seen_by mv s _).mpr ⟨top, found, rfl, somebody⟩
    exact every _ (mem_lookup_iff.mp looked)

theorem mem_see_min_msg (ids : List M) (mv top : Message M S) (t : S) :
    t ∈ seeMinMsg msgMap ids finalized mv top ↔
      ∃ p, (∃ i ∈ mv.parents, i ∉ ids ∧ msgAt msgMap i = some p) ∧
        (∃ m ∈ p :: selfParents msgMap p finalized, top.id ∈ m.seen) ∧ p.sender = t := by
  simp only [seeMinMsg, mem_toFinset, mem_map, mem_filter, mem_filterMap,
    any_eq_true, decide_eq_true_eq]
  constructor
  · rintro ⟨p, ⟨⟨i, ⟨cited, outside⟩, found⟩, sees⟩, owned⟩
    exact ⟨p, ⟨i, cited, outside, found⟩, sees, owned⟩
  · rintro ⟨p, ⟨i, cited, outside, found⟩, sees, owned⟩
    exact ⟨p, ⟨⟨i, ⟨cited, outside⟩, found⟩, sees⟩, owned⟩

end Support

section Sound

variable {bonds : BondsMap S} {log : List (Message M S)} {msgMap : MsgMap M S}
  {justifications : List (Message M S)} {cut next : Finset (Message M S)}

/-- A fringe the network can have reached: a closed cut of the log with one message of every
bonded sender, or empty. -/
structure FringeOk (coherent : Coherent bonds log) (cut : Finset (Message M S)) : Prop where
  spanning : (chainDag coherent).Spanning ↑cut
  closed : (chainDag coherent).Closed ↑cut
  bonded : ∀ f ∈ cut, f.sender ∈ bonds

/-- The justifications are strictly beyond the fringe on each of its chains. -/
def Ahead (justifications : List (Message M S)) (cut : Finset (Message M S)) : Prop :=
  ∀ f ∈ cut, ∃ j ∈ justifications, j.sender = f.sender ∧ f.senderSeq < j.senderSeq

section

variable (view : View bonds log msgMap justifications)
include view

omit [DecidableEq S] in
theorem justification_above (coherent : Coherent bonds log) (ahead : Ahead justifications cut)
    {j : Message M S} (mem : j ∈ justifications) : j ∈ (chainDag coherent).above ↑cut j.sender := by
  refine ⟨view.justified j mem, rfl, ?_⟩
  intro f finalized owned
  obtain ⟨_, listed, same, larger⟩ := ahead f finalized
  rwa [inj_on_of_nodup_map view.onePerSender listed mem (same.trans owned)] at larger

/-- A parent counted by `seeMinMsg` is a message outside the layer that has seen the layer
message itself. -/
theorem see_min_msg_sound (coherent : Coherent bonds log) {ids : List M} {mv top : Message M S}
    {t : S} (counted : t ∈ seeMinMsg msgMap ids cut mv top) :
    ∃ p ∈ log, p.id ∈ mv.parents ∧ p.id ∉ ids ∧ p.sender = t ∧ top.id ∈ p.seen := by
  obtain ⟨p, ⟨_, cited, outside, found⟩, ⟨m, listed, seen⟩, owned⟩ :=
    (mem_see_min_msg ids mv top t).mp counted
  obtain ⟨present, same⟩ := view.lookup_mem found
  subst same
  refine ⟨p, present, cited, outside, owned, ?_⟩
  rcases mem_cons.mp listed with rfl | deeper
  · exact seen
  · exact self_parents_loop_seen coherent view.lookup_mem p.sender _ p m present deeper seen

omit view in
theorem bonded_senders_mem (bonds : BondsMap S) (s : S) : s ∈ bonds.keys.toFinset ↔ s ∈ bonds := by
  rw [mem_toFinset, AList.mem_keys]

/-- When a justification has parents of every bonded sender, the senders of the view are exactly
the bonded ones. -/
theorem view_senders (count : justifications.length = bonds.entries.length)
    (everyone : ∀ s ∈ bonds, ∃ j ∈ justifications, j.sender = s) :
    ∀ j ∈ justifications, j.sender ∈ bonds := by
  have subset : bonds.keys.toFinset ⊆ (justifications.map (·.sender)).toFinset := by
    intro s bonded
    obtain ⟨j, listed, owned⟩ := everyone s ((bonded_senders_mem bonds s).mp bonded)
    rw [mem_toFinset, mem_map]
    exact ⟨j, listed, owned⟩
  have cards : (justifications.map (·.sender)).toFinset.card ≤ bonds.keys.toFinset.card := by
    rw [toFinset_card_of_nodup view.onePerSender, toFinset_card_of_nodup bonds.keys_nodup,
      length_map, count, AList.keys, List.keys, length_map]
  have same := Finset.eq_of_subset_of_card_le subset cards
  intro _ listed
  rw [← bonded_senders_mem, same, mem_toFinset]
  exact mem_map_of_mem listed

omit view in
theorem next_fringe_cases (returned : nextFringe msgMap justifications bonds cut = some next) :
    justifications.length = bonds.entries.length ∧
    next = ((calculateNextLayer msgMap (justifications.map (minMsg msgMap cut))).entries.map
      (·.2)).toFinset ∧
    ∃ mv ∈ justifications, mv.sender ∈ bonds ∧ allBonded bonds (seenBy msgMap
      (calculateNextLayer msgMap (justifications.map (minMsg msgMap cut))) cut mv) = true := by
  unfold nextFringe at returned
  dsimp only at returned
  split_ifs at returned with count supported
  refine ⟨?_, (Option.some.inj returned).symm, supporter_of_fringe justifications supported⟩
  simpa [checkMinMessages] using count

omit view in
theorem mem_layer_entries (layer : AList (fun _ : S => Message M S)) (top : Message M S) :
    top ∈ (layer.entries.map (·.2)).toFinset ↔ ∃ s, layer.lookup s = some top := by
  rw [mem_toFinset, mem_map]
  constructor
  · rintro ⟨⟨s, _⟩, entry, rfl⟩
    exact ⟨s, mem_lookup_iff.mpr entry⟩
  · rintro ⟨s, found⟩
    exact ⟨⟨s, top⟩, mem_lookup_iff.mp found, rfl⟩

/-- In a view of the bonded senders that is ahead of the cut, the layer computed from the minimum
messages is the next layer above the cut. -/
theorem view_next_layer (coherent : Coherent bonds log) (ok : FringeOk coherent cut)
    (ahead : Ahead justifications cut) (senders : ∀ j ∈ justifications, j.sender ∈ bonds)
    (everyone : ∀ s ∈ bonds, ∃ j ∈ justifications, j.sender = s) :
    let layer := calculateNextLayer msgMap (justifications.map (minMsg msgMap cut))
    (∀ s ∈ bonds, ∃ top, layer.lookup s = some top) ∧
    ∀ s top, layer.lookup s = some top → s ∈ bonds ∧ (chainDag coherent).LayerAt ↑cut s top ∧
      top ∈ (chainDag coherent).above ↑cut s := by
  intro layer
  have oldest : ∀ j ∈ justifications,
      (chainDag coherent).Oldest ↑cut j.sender (minMsg msgMap cut j) := fun j mem =>
    min_msg_oldest coherent ok.spanning.1 view mem (justification_above view coherent ahead mem)
  have minSender : ∀ j ∈ justifications, (minMsg msgMap cut j).sender = j.sender :=
    fun j mem => (oldest j mem).1.2.1
  have layers : (∀ s ∈ bonds, ∃ top, layer.lookup s = some top) ∧
      ∀ s top, layer.lookup s = some top → s ∈ bonds ∧ (chainDag coherent).LayerAt ↑cut s top := by
    apply next_layer_lookup coherent view.lookup_mem
    · intro _ listed
      obtain ⟨j, mem, same⟩ := mem_map.mp listed
      subst same
      have seen := (sees_oldest (justification_above view coherent ahead mem) (oldest j mem)).2
      exact held_of_seen coherent (view.justified j mem) (view.held j mem) (oldest j mem).1.1 seen
    · have same : (justifications.map (minMsg msgMap cut)).map (·.sender) =
          justifications.map (·.sender) := by
        rw [map_map]
        exact map_congr_left minSender
      rw [same]
      exact view.onePerSender
    · intro _ listed
      obtain ⟨j, mem, same⟩ := mem_map.mp listed
      subst same
      rw [minSender j mem]
      exact ⟨senders j mem, oldest j mem⟩
    · intro s bonded
      obtain ⟨j, mem, owned⟩ := everyone s bonded
      exact ⟨_, mem_map_of_mem mem, (minSender j mem).trans owned⟩
  refine ⟨layers.1, ?_⟩
  intro s top found
  obtain ⟨bonded, layerAt⟩ := layers.2 s top found
  obtain ⟨j, mem, owned⟩ := everyone s bonded
  exact ⟨bonded, layerAt, layer_above (owned ▸ oldest j mem) layerAt⟩

/-- Inside a view ahead of the previous fringe, a returned fringe is the next layer and the view
is ahead of it too. -/
theorem next_fringe_sound (coherent : Coherent bonds log) (ok : FringeOk coherent cut)
    (ahead : Ahead justifications cut)
    (returned : nextFringe msgMap justifications bonds cut = some next) :
    (chainDag coherent).NextCut ↑cut ↑next ∧ Ahead justifications next := by
  obtain ⟨count, result, mv, listed, _, full⟩ := next_fringe_cases returned
  set layer := calculateNextLayer msgMap (justifications.map (minMsg msgMap cut)) with layerDef
  obtain ⟨⟨first, top, found, counted⟩, others⟩ := all_bonded_cases mv full
  have inLog := view.justified mv listed
  have fronts : ∀ {top : Message M S}, seeMinMsg msgMap (layer.entries.map (·.2.id)) cut mv top =
      bonds.keys.toFinset → ∀ t ∈ bonds, ∃ p ∈ log, p.id ∈ mv.parents ∧
        p.id ∉ layer.entries.map (·.2.id) ∧ p.sender = t ∧ top.id ∈ p.seen := by
    intro _ counted t bonded
    apply see_min_msg_sound view coherent
    rw [counted]
    exact (bonded_senders_mem bonds t).mpr bonded
  -- A parent of the supporter is seen, so the view has a message of each bonded sender.
  have latest : ∀ p ∈ log, p.id ∈ mv.parents → p.sender ∈ bonds →
      ∃ j ∈ justifications, j.sender = p.sender ∧ p.id ∈ j.seen := fun p present cited =>
    view.latest mv listed p present (parent_seen coherent inLog present cited)
  have everyone : ∀ s ∈ bonds, ∃ j ∈ justifications, j.sender = s := by
    intro s bonded
    obtain ⟨p, present, cited, _, owned, _⟩ := fronts counted s bonded
    obtain ⟨j, mem, same, _⟩ := latest p present cited (owned ▸ bonded)
    exact ⟨j, mem, same.trans owned⟩
  obtain ⟨total, layers⟩ := view_next_layer view coherent ok ahead
    (view_senders view count everyone) everyone
  -- The parents that see one layer message are beyond the cut on every bonded chain.
  have inhabited : Nonempty (Message M S) := ⟨mv⟩
  choose! front present cited outside owned sees using fronts counted
  obtain ⟨bondedFirst, _, aboveFirst⟩ := layers first top found
  have beyond : ∀ t ∈ bonds, front t ∈ (chainDag coherent).above ↑cut t := fun t bonded =>
    above_of_sees ok.closed ok.spanning bondedFirst aboveFirst (present t bonded)
      (owned t bonded) ⟨aboveFirst.1, sees t bonded⟩
  -- Hence every layer message is seen by one of them, so by all of them.
  have everySeen : ∀ s top, layer.lookup s = some top →
      seeMinMsg msgMap (layer.entries.map (·.2.id)) cut mv top = bonds.keys.toFinset := by
    intro s top found
    obtain ⟨bonded, layerAt, _⟩ := layers s top found
    obtain ⟨t, bondedT, seen⟩ := layer_seen_by_some front beyond bonded layerAt
    apply others s top found
    apply Finset.ne_empty_of_mem
    apply (mem_see_min_msg _ mv top t).mpr
    refine ⟨front t, ⟨(front t).id, cited t bondedT, outside t bondedT, ?_⟩,
      ⟨front t, mem_cons_self, seen.2⟩, owned t bondedT⟩
    exact view.held mv listed (front t) (present t bondedT)
      (parent_seen coherent inLog (present t bondedT) (cited t bondedT))
  subst result
  simp only [Ahead, ChainDag.NextCut, Finset.mem_coe, mem_layer_entries]
  refine ⟨⟨?_, ?_⟩, ?_⟩
  · intro s bonded
    obtain ⟨top, found⟩ := total s bonded
    exact ⟨top, ⟨s, found⟩, (layers s top found).2.1⟩
  · rintro top ⟨s, found⟩
    obtain ⟨bonded, layerAt, above⟩ := layers s top found
    have owned : (chainDag coherent).sender top = s := above.2.1
    rw [owned]
    exact ⟨bonded, layerAt⟩
  · rintro top ⟨s, found⟩
    obtain ⟨bonded, _, above⟩ := layers s top found
    obtain ⟨p, presentP, citedP, outsideP, ownedP, seesP⟩ := fronts (everySeen s top found) s bonded
    obtain ⟨j, mem, same, seenJ⟩ := latest p presentP citedP (ownedP ▸ bonded)
    have ownedTop : top.sender = s := above.2.1
    have different : p ≠ top := by
      rintro rfl
      apply outsideP
      exact mem_map.mpr ⟨⟨s, p⟩, mem_lookup_iff.mp found, rfl⟩
    have notLess : top.senderSeq ≤ p.senderSeq :=
      coherent.seq_of_seen p presentP top above.1 (ownedP.trans ownedTop.symm) seesP
    have notEqual : top.senderSeq ≠ p.senderSeq := fun equal => different
      (coherent.seq_injective p presentP top above.1 (ownedP.trans ownedTop.symm) equal.symm)
    have reached : p.senderSeq ≤ j.senderSeq :=
      coherent.seq_of_seen j (view.justified j mem) p presentP same seenJ
    refine ⟨j, mem, same.trans (ownedP.trans ownedTop.symm), ?_⟩
    omega

end

omit [DecidableEq M] [DecidableEq S] in
theorem next_cut_ok (coherent : Coherent bonds log)
    (layers : (chainDag coherent).NextCut ↑cut ↑next) : FringeOk coherent next where
  spanning := next_cut_spanning layers
  closed := next_cut_closed layers
  bonded := fun f mem => (layers.2 f mem).1

end Sound

end RChain.Dag
