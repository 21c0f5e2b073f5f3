import RChain.Dag.NextFringe

/-!
# Finality agreement

Every fringe of a run is reached from the empty one by next-fringe steps, and a
next-fringe step is a function of the fringe it starts from, whichever node takes it.
Two fringes of a run are therefore comparable. Nothing is assumed about heights: the
justification that `latest_fringe` picks only decides where on that one line of
fringes the loop starts.
-/

namespace RChain.Dag

open ChainLayers List
open Relation (ReflTransGen)

variable {M S : Type} [DecidableEq M] [DecidableEq S]

/-- The fringes the loop of `calculate_finalization` goes through for one creation. -/
inductive Visits (bonds : BondsMap S) (c : Creation M S) : Finset (Message M S) → Prop
  | start : Visits bonds c (latestFringe c.known.msgMap c.justifications)
  | step {current next : Finset (Message M S)} (visited : Visits bonds c current)
      (returned : nextFringe c.known.msgMap c.justifications bonds current = some next)
      (progress : next ≠ current) : Visits bonds c next

/-- Some node of the run advances from one fringe to the next. -/
def MessageStep (bonds : BondsMap S) (run : List (Creation M S))
    (current next : Finset (Message M S)) : Prop :=
  ∃ c ∈ run, Visits bonds c current ∧
    nextFringe c.known.msgMap c.justifications bonds current = some next ∧ next ≠ current

/-- The same step on the identifiers a message carries in its `fringe` field. -/
def NextFringeStep (bonds : BondsMap S) (run : List (Creation M S))
    (current next : Finset M) : Prop :=
  ∃ source target, MessageStep bonds run source target ∧ current = source.image (·.id) ∧
    next = target.image (·.id)

section Loop

variable {bonds : BondsMap S} {c : Creation M S}

theorem loop_visits (fuel : Nat) (current : Finset (Message M S))
    (found : Option (Finset (Message M S))) (start : Finset (Message M S))
    (visited : Visits bonds c current) (same : found.getD start = current) :
    Visits bonds c ((finalizationLoop c.known.msgMap c.justifications bonds fuel current
      found).getD start) := by
  induction fuel generalizing current found with
  | zero =>
    rw [finalizationLoop, same]
    exact visited
  | succ _ ih =>
    unfold finalizationLoop
    cases returned : nextFringe c.known.msgMap c.justifications bonds current with
    | none =>
      dsimp only
      rw [same]
      exact visited
    | some next =>
      dsimp only
      split_ifs with stuck
      · rw [same]
        exact visited
      · exact ih next (some next) (visited.step returned stuck) rfl

theorem new_fringe_visits (bonds : BondsMap S) (c : Creation M S) :
    Visits bonds c (c.known.newFringe bonds c.justifications) :=
  loop_visits _ _ none _ Visits.start rfl

theorem max_by_key_fold {Item Key : Type} [LE Key] [DecidableLE Key] (key : Item → Key)
    (items : List Item) (best : Option Item) (item : Item)
    (chosen : items.foldl (fun best item =>
      match best with
      | none => some item
      | some current => if key current ≤ key item then some item else some current) best =
        some item) : item ∈ items ∨ best = some item := by
  induction items generalizing best with
  | nil => exact .inr chosen
  | cons _ _ ih =>
    rw [foldl_cons] at chosen
    rcases ih _ chosen with listed | earlier
    · exact .inl (mem_cons_of_mem _ listed)
    · cases best with
      | none =>
        rw [Option.some.injEq] at earlier
        exact .inl (earlier ▸ mem_cons_self)
      | some =>
        dsimp only at earlier
        split_ifs at earlier
        · rw [Option.some.injEq] at earlier
          exact .inl (earlier ▸ mem_cons_self)
        · exact .inr earlier

theorem latest_fringe_cases (msgMap : MsgMap M S) (justifications : List (Message M S)) :
    latestFringe msgMap justifications = ∅ ∨
      ∃ j ∈ justifications, latestFringe msgMap justifications = messagesAt msgMap j.fringe := by
  unfold latestFringe
  cases chosen : maxByKey (fringeHeight msgMap) justifications with
  | none => exact .inl rfl
  | some j =>
    rcases max_by_key_fold _ justifications none j chosen with listed | absent
    · exact .inr ⟨j, listed, rfl⟩
    · cases absent

end Loop

section Induction

variable {bonds : BondsMap S} {log : List (Message M S)}

/-- What the network knows about the fringe of a message. -/
structure FringeReached (coherent : Coherent bonds log) (run : List (Creation M S))
    (m : Message M S) (cut : Finset (Message M S)) : Prop where
  ids : m.fringe = cut.image (·.id)
  ok : FringeOk coherent cut
  ahead : ∀ f ∈ cut, ∃ x ∈ log, x.id ∈ m.seen ∧ x.sender = f.sender ∧ f.senderSeq < x.senderSeq
  reached : ReflTransGen (MessageStep bonds run) ∅ cut

variable {c : Creation M S} {run : List (Creation M S)} {cut : Finset (Message M S)}

section

variable (coherent : Coherent bonds log)

include coherent

theorem view_of_admissible {early : List (Message M S)} (earlyCoherent : Coherent bonds early)
    (subset : ∀ m ∈ early, m ∈ log) (admissible : Admissible bonds early c) :
    View bonds log c.known.msgMap c.justifications := by
  -- What a justification has seen is in the early log, and identifiers are unique in the late one.
  have seenEarly : ∀ k ∈ c.justifications, ∀ x ∈ log, x.id ∈ k.seen → x ∈ early := by
    intro k justified x mem seen
    obtain ⟨y, present, same, _⟩ :=
      earlyCoherent.seen_closed k (justification_mem admissible justified) x.id seen
    rwa [coherent.ids x mem y (subset y present) same.symm]
  constructor
  case lookup_mem =>
    intro _ x found
    obtain ⟨present, same⟩ := holds_lookup admissible.holds found
    exact ⟨subset x present, same⟩
  case justified =>
    intro j justified
    exact subset j (justification_mem admissible justified)
  case held =>
    intro j justified x mem seen
    have inside := admissible.complete j justified x.id seen
    rw [← AList.lookup_isSome, Option.isSome_iff_exists] at inside
    obtain ⟨y, found⟩ := inside
    obtain ⟨present, same⟩ := holds_lookup admissible.holds found
    rw [msgAt, found, coherent.ids y (subset y present) x mem same]
  case onePerSender => exact admissible.onePerSender
  case latest =>
    intro k justified x mem seen bonded
    have inEarly := seenEarly k justified x mem seen
    obtain ⟨j, justified', owned⟩ := admissible.covers k justified x inEarly seen bonded
    exact ⟨j, justified', owned,
      admissible.latest j justified' k justified x inEarly seen owned.symm⟩

omit [DecidableEq M] [DecidableEq S] in
theorem fringe_ok_empty : FringeOk coherent ∅ := by
  constructor
  · constructor <;> simp
  · intro _ mem
    simp at mem
  · simp

/-- The fringe of a justification, read back through the map, is the cut it stands for, and the
view is ahead of it. -/
theorem justification_fringe {msgMap : MsgMap M S} {justifications : List (Message M S)}
    (view : View bonds log msgMap justifications) {j : Message M S} (justified : j ∈ justifications)
    (known : FringeReached coherent run j cut) :
    messagesAt msgMap j.fringe = cut ∧ Ahead justifications cut := by
  have held : ∀ f ∈ cut, msgAt msgMap f.id = some f := by
    intro f mem
    obtain ⟨x, present, seen, owned, smaller⟩ := known.ahead f mem
    have inLog := known.ok.spanning.1 f mem
    have seenByX := coherent.seen_of_seq x present f inLog owned smaller.le
    have seenByJ := (chainDag coherent).sees_trans j (view.justified j justified) x f
      ⟨present, seen⟩ ⟨inLog, seenByX⟩
    exact view.held j justified f inLog seenByJ.2
  constructor
  · ext f
    simp only [messagesAt, known.ids, Finset.mem_biUnion, Finset.mem_image, Option.mem_toFinset,
      Option.mem_def]
    constructor
    · rintro ⟨_, ⟨g, mem, rfl⟩, found⟩
      rw [held g mem, Option.some.injEq] at found
      exact found ▸ mem
    · intro mem
      exact ⟨f.id, ⟨f, mem, rfl⟩, held f mem⟩
  · intro f mem
    obtain ⟨x, present, seen, owned, _⟩ := known.ahead f mem
    obtain ⟨k, listed, same, seenK⟩ := view.latest j justified x present seen
      (owned ▸ known.ok.bonded f mem)
    have reached := coherent.seq_of_seen k (view.justified k listed) x present same seenK
    exact ⟨k, listed, same.trans owned, by omega⟩

variable (mem : c ∈ run) (view : View bonds log c.known.msgMap c.justifications)
  (known : ∀ j ∈ c.justifications, ∃ cut, FringeReached coherent run j cut)
include mem view known

theorem visits_reached (visited : Visits bonds c cut) :
    FringeOk coherent cut ∧ Ahead c.justifications cut ∧
      ReflTransGen (MessageStep bonds run) ∅ cut := by
  induction visited with
  | start =>
    rcases latest_fringe_cases c.known.msgMap c.justifications with empty | ⟨j, justified, same⟩
    · rw [empty]
      exact ⟨fringe_ok_empty coherent, fun f inside => by simp at inside, ReflTransGen.refl⟩
    · obtain ⟨_, reached⟩ := known j justified
      obtain ⟨back, ahead⟩ := justification_fringe coherent view justified reached
      rw [same, back]
      exact ⟨reached.ok, ahead, reached.reached⟩
  | step visited returned progress ih =>
    obtain ⟨ok, ahead, reached⟩ := ih
    obtain ⟨layers, ahead'⟩ := next_fringe_sound view coherent ok ahead returned
    exact ⟨next_cut_ok coherent layers, ahead', reached.tail ⟨c, mem, visited, returned, progress⟩⟩

theorem created_fringe_reached : ∃ cut, FringeReached coherent run (c.message bonds) cut := by
  refine ⟨c.known.newFringe bonds c.justifications, ?_⟩
  obtain ⟨ok, ahead, reached⟩ :=
    visits_reached coherent mem view known (new_fringe_visits bonds c)
  refine ⟨rfl, ok, ?_, reached⟩
  intro f inside
  obtain ⟨j, justified, owned, smaller⟩ := ahead f inside
  have inLog := view.justified j justified
  refine ⟨j, inLog, ?_, owned, smaller⟩
  exact (message_seen j.id).mpr (Or.inr ⟨j, justified, coherent.seen_self j inLog⟩)

omit mem view known in
theorem run_fringes_reached {whole : List (Creation M S)} (reached : Run bonds run)
    (inWhole : ∀ c ∈ run, c ∈ whole) (inLog : ∀ c ∈ run, c.message bonds ∈ log) :
    ∀ c ∈ run, View bonds log c.known.msgMap c.justifications ∧
      (∀ j ∈ c.justifications, ∃ cut, FringeReached coherent whole j cut) ∧
      ∃ cut, FringeReached coherent whole (c.message bonds) cut := by
  induction reached with
  | nil => simp
  | @create run c earlier admissible ih =>
    have previous := ih (fun d mem => inWhole d (mem_cons_of_mem _ mem))
      (fun d mem => inLog d (mem_cons_of_mem _ mem))
    intro d mem
    rcases mem_cons.mp mem with rfl | mem
    · have view := view_of_admissible coherent (run_coherent earlier) (by
          intro _ listed
          obtain ⟨e, present, same⟩ := mem_map.mp listed
          exact same ▸ inLog e (mem_cons_of_mem _ present)) admissible
      have known : ∀ j ∈ d.justifications, ∃ cut, FringeReached coherent whole j cut := by
        intro _ justified
        obtain ⟨e, present, same⟩ :=
          mem_map.mp (justification_mem admissible justified)
        exact same ▸ (previous e present).2.2
      exact ⟨view, known, created_fringe_reached coherent (inWhole d mem_cons_self) view known⟩
    · exact previous d mem

end

end Induction

section Termination

variable {bonds : BondsMap S} {log : List (Message M S)} {msgMap : MsgMap M S}
  {justifications : List (Message M S)} {cut next : Finset (Message M S)}

/-- The messages of the map that are still above the cut on a bonded chain. -/
def remaining (bonds : BondsMap S) (msgMap : MsgMap M S) (cut : Finset (Message M S)) :
    Finset (Message M S) :=
  (msgMap.entries.map (·.2)).toFinset.filter fun x =>
    x.sender ∈ bonds ∧ ∀ f ∈ cut, f.sender = x.sender → f.senderSeq < x.senderSeq

section Progress

variable (coherent : Coherent bonds log) (view : View bonds log msgMap justifications)
  (ok : FringeOk coherent cut) (ahead : Ahead justifications cut)
  (returned : nextFringe msgMap justifications bonds cut = some next)

include view ok ahead returned

theorem next_fringe_above {f g : Message M S} (mem : f ∈ next) (inside : g ∈ cut)
    (same : g.sender = f.sender) : g.senderSeq < f.senderSeq := by
  obtain ⟨layers, ahead'⟩ := next_fringe_sound view coherent ok ahead returned
  obtain ⟨_, listed, owned, _⟩ := ahead' f mem
  have oldest := min_msg_oldest coherent ok.spanning.1 view listed
    (justification_above view coherent ahead listed)
  rw [owned] at oldest
  exact (layer_above oldest (layers.2 f mem).2).2.2 g inside same

theorem remaining_card_lt :
    (remaining bonds msgMap next).card < (remaining bonds msgMap cut).card := by
  obtain ⟨layers, ahead'⟩ := next_fringe_sound view coherent ok ahead returned
  obtain ⟨_, _, mv, _, bonded, _⟩ := next_fringe_cases returned
  have above : ∀ f ∈ next, ∀ g ∈ cut, g.sender = f.sender → g.senderSeq < f.senderSeq :=
    fun f mem g inside same =>
      next_fringe_above coherent view ok ahead returned mem inside same
  obtain ⟨top, inNext, layerAt⟩ := layers.1 mv.sender bonded
  obtain ⟨j, listed, owned, smaller⟩ := ahead' top inNext
  have inLog : top ∈ log := candidate_items layerAt.1
  have found := view.held j listed top inLog
    (coherent.seen_of_seq j (view.justified j listed) top inLog owned smaller.le)
  apply Finset.card_lt_card
  rw [Finset.ssubset_iff_of_subset]
  · refine ⟨top, ?_, ?_⟩
    · simp only [remaining, Finset.mem_filter, mem_toFinset, mem_map]
      exact ⟨⟨_, AList.mem_lookup_iff.mp found, rfl⟩, (layers.2 top inNext).1, above top inNext⟩
    · simp only [remaining, Finset.mem_filter, not_and]
      intro _ _ beyond
      exact absurd (beyond top inNext rfl) (lt_irrefl _)
  · intro x mem
    simp only [remaining, Finset.mem_filter] at mem ⊢
    refine ⟨mem.1, mem.2.1, ?_⟩
    intro g inside same
    obtain ⟨f, inNextF, layerF⟩ := layers.1 x.sender mem.2.1
    have ownedF : f.sender = x.sender := candidate_sender layerF.1
    have lower := above f inNextF g inside (same.trans ownedF.symm)
    have upper := mem.2.2 f inNextF ownedF
    omega

end Progress

end Termination

section Agreement

variable {bonds : BondsMap S} {run : List (Creation M S)} {c : Creation M S}
  {next : Finset (Message M S)}

section

variable (reached : Run bonds run)
include reached

theorem run_view (mem : c ∈ run) :
    View bonds (messages bonds run) c.known.msgMap c.justifications ∧
      (∀ j ∈ c.justifications, ∃ cut, FringeReached (run_coherent reached) run j cut) ∧
      ∃ cut, FringeReached (run_coherent reached) run (c.message bonds) cut :=
  run_fringes_reached (run_coherent reached) reached (fun _ listed => listed)
    (fun _ listed => mem_map_of_mem listed) c mem

theorem message_step_sound {current : Finset (Message M S)}
    (step : MessageStep bonds run current next) :
    FringeOk (run_coherent reached) current ∧
      (chainDag (run_coherent reached)).NextCut ↑current ↑next := by
  obtain ⟨c, mem, visited, returned, _⟩ := step
  obtain ⟨view, known, _⟩ := run_view reached mem
  obtain ⟨ok, ahead, _⟩ := visits_reached (run_coherent reached) mem view known visited
  exact ⟨ok, (next_fringe_sound view (run_coherent reached) ok ahead returned).1⟩

theorem image_id_injective {left right : Finset (Message M S)}
    (leftLog : ∀ m ∈ left, m ∈ messages bonds run) (rightLog : ∀ m ∈ right, m ∈ messages bonds run)
    (same : left.image (·.id) = right.image (·.id)) : left = right := by
  have included : ∀ {left right : Finset (Message M S)}, (∀ m ∈ left, m ∈ messages bonds run) →
      (∀ m ∈ right, m ∈ messages bonds run) → left.image (·.id) = right.image (·.id) →
      left ⊆ right := by
    intro _ right leftLog rightLog same m mem
    have inside : m.id ∈ right.image (·.id) := same ▸ Finset.mem_image_of_mem _ mem
    obtain ⟨n, present, equal⟩ := Finset.mem_image.mp inside
    rwa [(run_coherent reached).ids m (leftLog m mem) n (rightLog n present) equal.symm]
  exact Finset.Subset.antisymm (included leftLog rightLog same)
    (included rightLog leftLog same.symm)

theorem next_fringe_step_unique :
    Relator.RightUnique (NextFringeStep bonds run) := by
  rintro _ _ _ ⟨source, _, step, ids, rfl⟩ ⟨source', _, step', ids', rfl⟩
  obtain ⟨ok, layers⟩ := message_step_sound reached step
  obtain ⟨ok', layers'⟩ := message_step_sound reached step'
  have same : source = source' :=
    image_id_injective reached ok.spanning.1 ok'.spanning.1 (ids.symm.trans ids')
  subst same
  rw [Finset.coe_inj.mp (next_cut_unique layers layers')]

end

/-- Two messages of a run never carry conflicting fringes: one fringe is obtained from the other
by next-fringe steps, and these steps do not branch. -/
theorem fringes_comparable (reached : Run bonds run) {left right : Creation M S}
    (leftMember : left ∈ run) (rightMember : right ∈ run) :
    (ReflTransGen (NextFringeStep bonds run)
        (left.message bonds).fringe (right.message bonds).fringe ∨
      ReflTransGen (NextFringeStep bonds run)
        (right.message bonds).fringe (left.message bonds).fringe) ∧
    Relator.RightUnique (NextFringeStep bonds run) := by
  have unique := next_fringe_step_unique reached
  have fromEmpty : ∀ {c : Creation M S}, c ∈ run →
      ReflTransGen (NextFringeStep bonds run) ∅ (c.message bonds).fringe := by
    intro _ member
    obtain ⟨_, _, _, known⟩ := run_view reached member
    rw [known.ids, ← Finset.image_empty (fun m : Message M S => m.id)]
    exact known.reached.lift _ fun source target step => ⟨source, target, step, rfl, rfl⟩
  exact ⟨ReflTransGen.total_of_right_unique unique (fromEmpty leftMember) (fromEmpty rightMember),
    unique⟩

end Agreement

section TwoValidators

def sampleBonds : BondsMap Nat := ((∅ : BondsMap Nat).insert 1 10).insert 0 10

def sampleMessage (sender round : Nat) (parents : List Nat) (seen : Finset Nat) :
    Message Nat Nat where
  id := 10 * round + sender
  height := round
  sender := sender
  senderSeq := round
  bondsMap := sampleBonds
  parents := parents
  fringe := ∅
  seen := seen

def sampleCreation (known : List (Message Nat Nat)) (sender round : Nat)
    (justifications : List (Message Nat Nat)) : Creation Nat Nat where
  known := known.foldl DagMessageState.insertMsg DagMessageState.empty
  id := 10 * round + sender
  height := round
  sender := sender
  senderSeq := round
  justifications := justifications

/-- Three rounds of two validators, oldest message first. -/
def sampleLog : List (Message Nat Nat) :=
  [sampleMessage 0 1 [] {10}, sampleMessage 1 1 [] {11},
   sampleMessage 0 2 [10, 11] {20, 10, 11}, sampleMessage 1 2 [10, 11] {21, 10, 11},
   sampleMessage 0 3 [20, 21] {30, 20, 21, 10, 11},
   sampleMessage 1 3 [20, 21] {31, 20, 21, 10, 11}]

-- The nodes received the earlier rounds in different orders.
def sampleCreations : List (Creation Nat Nat) :=
  [sampleCreation sampleLog.reverse 0 4 (sampleLog.drop 4),
   sampleCreation (sampleLog.take 4).reverse 1 3 ((sampleLog.take 4).drop 2),
   sampleCreation (sampleLog.take 4) 0 3 ((sampleLog.take 4).drop 2),
   sampleCreation (sampleLog.take 2) 1 2 (sampleLog.take 2),
   sampleCreation (sampleLog.take 2).reverse 0 2 (sampleLog.take 2),
   sampleCreation [] 1 1 [],
   sampleCreation [] 0 1 []]

theorem sample_run : Run sampleBonds sampleCreations := by
  unfold sampleCreations
  repeat refine Run.create ?_ ⟨by decide +kernel,
      holds_foldl _ (by decide +kernel) _ Holds.empty⟩
  exact Run.nil

/-- The first message of round four finalizes round one, and its fringe is comparable to that
of every earlier message. -/
theorem fringes_comparable_two_validators :
    ((sampleCreation sampleLog.reverse 0 4 (sampleLog.drop 4)).message sampleBonds).fringe =
      {10, 11} ∧
    ∀ earlier ∈ sampleCreations, ReflTransGen (NextFringeStep sampleBonds sampleCreations) {10, 11}
          (earlier.message sampleBonds).fringe ∨
        ReflTransGen (NextFringeStep sampleBonds sampleCreations)
          (earlier.message sampleBonds).fringe {10, 11} := by
  have finalized :
      ((sampleCreation sampleLog.reverse 0 4 (sampleLog.drop 4)).message sampleBonds).fringe =
        {10, 11} := by
    decide +kernel
  refine ⟨finalized, ?_⟩
  intro _ member
  rw [← finalized]
  exact (fringes_comparable sample_run mem_cons_self member).1

end TwoValidators

end RChain.Dag
