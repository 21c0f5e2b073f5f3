import RChain.Dag.Agreement

/-!
# Fringes do not go back

The fringe of a created message against the fringes of its justifications. The fringes of a run lie
on one line, each step of which goes up on every chain, and so the justification whose fringe is the
highest has the last of them. This needs justifications that are the latest messages seen:
`next_fringe` takes a justification for a message above the previous fringe without a check.
-/

namespace RChain.Dag

open ChainLayers List
open Relation (ReflTransGen)

variable {M S : Type} [DecidableEq M] [DecidableEq S]

/-- A message without an equivocation: it has a new identifier, cites messages of the node's map, at
most one of each sender, with its sender's previous message among them, and is higher than what it
cites. -/
@[mk_iff]
structure Orderly (log : List (Message M S)) (c : Creation M S) : Prop where
  fresh : ∀ m ∈ log, m.id ≠ c.id
  known : ∀ j ∈ c.justifications, c.known.msgMap.lookup j.id = some j
  onePerSender : (c.justifications.map (·.sender)).Nodup
  previous : ∀ m ∈ log.find? (fun m => m.sender = c.sender),
    m ∈ c.justifications ∧ m.senderSeq < c.senderSeq
  rising : ∀ j ∈ c.justifications, j.height < c.height

theorem message_lawful : LawfulBEq (Message M S) := inferInstance

instance (log : List (Message M S)) (c : Creation M S) : Decidable (Orderly log c) :=
  haveI := message_lawful (M := M) (S := S)
  decidable_of_iff' _ (orderly_iff log c)

/-- The messages of a DAG that `create_message` and `insert_msg` build without equivocations. -/
inductive Built (bonds : BondsMap S) : List (Creation M S) → Prop
  | nil : Built bonds []
  | create {run : List (Creation M S)} {c : Creation M S} (earlier : Built bonds run)
      (orderly : Orderly (messages bonds run) c) (holds : Holds (messages bonds run) c.known) :
      Built bonds (c :: run)

/-- The justifications are the latest messages seen, of every bonded sender that is seen, and the
node has what they have seen. -/
@[mk_iff]
structure LatestView (bonds : BondsMap S) (log : List (Message M S)) (c : Creation M S) :
    Prop where
  complete : ∀ j ∈ c.justifications, ∀ i ∈ j.seen, i ∈ c.known.msgMap
  latest : ∀ j ∈ c.justifications, ∀ k ∈ c.justifications, ∀ m ∈ log,
    m.id ∈ k.seen → m.sender = j.sender → m.id ∈ j.seen
  covers : ∀ k ∈ c.justifications, ∀ m ∈ log,
    m.id ∈ k.seen → m.sender ∈ bonds → ∃ j ∈ c.justifications, j.sender = m.sender

instance (bonds : BondsMap S) (log : List (Message M S)) (c : Creation M S) :
    Decidable (LatestView bonds log c) :=
  decidable_of_iff' _ (latestView_iff bonds log c)

/-- Every creation of the run sees the latest messages at its time. -/
def AlwaysLatest (bonds : BondsMap S) : List (Creation M S) → Prop
  | [] => True
  | c :: run => LatestView bonds (messages bonds run) c ∧ AlwaysLatest bonds run

/-- For each validator in the fringe of a justification the fringe of the message has a message,
and none that is older. -/
def FringesRise (bonds : BondsMap S) (run : List (Creation M S)) : Prop :=
  ∀ c ∈ run, ∀ j ∈ c.justifications, ∀ f ∈ messages bonds run, f.id ∈ j.fringe →
    (∃ g ∈ messages bonds run, g.id ∈ (c.message bonds).fringe ∧ g.sender = f.sender) ∧
    ∀ g ∈ messages bonds run, g.id ∈ (c.message bonds).fringe → g.sender = f.sender →
      f.senderSeq ≤ g.senderSeq

section Heights

variable {bonds : BondsMap S} {run : List (Creation M S)}

theorem run_of_built (built : Built bonds run) (views : AlwaysLatest bonds run) :
    Run bonds run := by
  induction built with
  | nil => exact Run.nil
  | create _ orderly holds ih =>
    exact Run.create (ih views.2) ⟨⟨orderly.fresh, orderly.known, views.1.complete,
      orderly.onePerSender, views.1.latest, views.1.covers, orderly.previous⟩, holds⟩

theorem height_of_seen (built : Built bonds run) (views : AlwaysLatest bonds run) :
    ∀ u ∈ messages bonds run, ∀ v ∈ messages bonds run, v.id ∈ u.seen →
      v = u ∨ v.height < u.height := by
  induction built with
  | nil => simp [messages]
  | @create run c earlier orderly holds ih =>
    have coherent := run_coherent (run_of_built earlier views.2)
    have admissible : Admissible bonds (messages bonds run) c :=
      ⟨⟨orderly.fresh, orderly.known, views.1.complete, orderly.onePerSender, views.1.latest,
        views.1.covers, orderly.previous⟩, holds⟩
    intro u left v right seen
    rcases mem_cons.mp left with rfl | left <;>
      rcases mem_cons.mp right with rfl | right
    · exact .inl rfl
    · rcases (message_seen v.id).mp seen with same | ⟨j, justified, seenJ⟩
      · exact absurd same (orderly.fresh v right)
      · have higher : j.height < c.height := orderly.rising j justified
        have mem := justification_mem admissible justified
        rcases ih views.2 j mem v right seenJ with rfl | lower
        · exact .inr higher
        · exact .inr (lower.trans higher)
    · exact absurd seen (old_does_not_see coherent admissible left)
    · exact ih views.2 u left v right seen

def cutHeight (cut : Finset (Message M S)) : WithBot Nat :=
  cut.sup fun m => (m.height : WithBot Nat)

/-- The second fringe is not behind the first on any chain of the first. -/
def NotBehind (cut next : Finset (Message M S)) : Prop :=
  ∀ f ∈ cut, ∃ g ∈ next, g.sender = f.sender ∧ f.senderSeq ≤ g.senderSeq

variable {cut next : Finset (Message M S)}

theorem message_step_rises (reached : Run bonds run) (step : MessageStep bonds run cut next) :
    next.Nonempty ∧ ∀ g ∈ cut, ∃ f ∈ next, f.sender = g.sender ∧ g.senderSeq < f.senderSeq := by
  obtain ⟨c, mem, visited, returned, _⟩ := step
  obtain ⟨view, known, _⟩ := run_view reached mem
  obtain ⟨ok, ahead, _⟩ := visits_reached (run_coherent reached) mem view known visited
  obtain ⟨layers, _⟩ := next_fringe_sound view (run_coherent reached) ok ahead returned
  obtain ⟨_, _, mv, _, bonded, _⟩ := next_fringe_cases returned
  obtain ⟨top, inNext, _⟩ := layers.1 mv.sender bonded
  refine ⟨⟨top, inNext⟩, fun g inside => ?_⟩
  obtain ⟨f, present, layer⟩ := layers.1 g.sender (ok.bonded g inside)
  have owned : f.sender = g.sender := candidate_sender layer.1
  exact ⟨f, present, owned, next_fringe_above (run_coherent reached) view ok ahead returned present
    inside owned.symm⟩

theorem cut_height_lt (built : Built bonds run) (views : AlwaysLatest bonds run)
    (step : MessageStep bonds run cut next) :
    cutHeight cut < cutHeight next := by
  have reached := run_of_built built views
  have coherent := run_coherent reached
  obtain ⟨ok, layers⟩ := message_step_sound reached step
  obtain ⟨⟨top, inNext⟩, above⟩ := message_step_rises reached step
  have bottom : ⊥ < cutHeight next :=
    lt_of_lt_of_le (WithBot.bot_lt_coe top.height)
      (Finset.le_sup (f := fun m : Message M S => (m.height : WithBot Nat)) inNext)
  rw [cutHeight, Finset.sup_lt_iff bottom]
  intro g inside
  obtain ⟨f, present, owned, higher⟩ := above g inside
  have inLog : g ∈ messages bonds run := ok.spanning.1 g inside
  have nextInLog : f ∈ messages bonds run := candidate_items (layers.2 f present).2.1
  have seen := coherent.seen_of_seq f nextInLog g inLog owned higher.le
  have lower : g.height < f.height := by
    rcases height_of_seen built views f nextInLog g inLog seen with rfl | lower
    · exact absurd higher (lt_irrefl _)
    · exact lower
  exact lt_of_lt_of_le (WithBot.coe_lt_coe.mpr lower)
    (Finset.le_sup (f := fun m : Message M S => (m.height : WithBot Nat)) present)

theorem not_behind_of_steps (reached : Run bonds run)
    (steps : ReflTransGen (MessageStep bonds run) cut next) : NotBehind cut next := by
  induction steps with
  | refl => exact fun f inside => ⟨f, inside, rfl, le_rfl⟩
  | tail _ step ih =>
    intro f inside
    obtain ⟨g, present, owned, _⟩ := ih f inside
    obtain ⟨h, later, same, _⟩ := (message_step_rises reached step).2 g present
    exact ⟨h, later, same.trans owned, by omega⟩

theorem cut_height_le (built : Built bonds run) (views : AlwaysLatest bonds run)
    (steps : ReflTransGen (MessageStep bonds run) cut next) :
    cut = next ∨ cutHeight cut < cutHeight next := by
  induction steps with
  | refl => exact .inl rfl
  | tail _ step ih =>
    have higher := cut_height_lt built views step
    rcases ih with rfl | lower
    · exact .inr higher
    · exact .inr (lower.trans higher)

end Heights

section Choice

variable {Item Key : Type} {cut : Finset (Message M S)} {f : Message M S}

theorem fold_greatest [LinearOrder Key] (key : Item → Key) {step : Option Item → Item → Option Item}
    (next : ∀ current item,
      step (some current) item = if key current ≤ key item then some item else some current)
    (items : List Item) (best : Item) :
    ∃ chosen, items.foldl step (some best) = some chosen ∧
      ∀ item ∈ best :: items, key item ≤ key chosen := by
  induction items generalizing best with
  | nil => exact ⟨best, rfl, by simp⟩
  | cons head _ ih =>
    rw [foldl_cons, next]
    split_ifs with less
    · obtain ⟨chosen, picked, above⟩ := ih head
      refine ⟨chosen, picked, forall_mem_cons.mpr ⟨?_, above⟩⟩
      exact less.trans (above head mem_cons_self)
    · obtain ⟨chosen, picked, above⟩ := ih best
      rw [forall_mem_cons] at above
      refine ⟨chosen, picked, forall_mem_cons.mpr ⟨above.1, forall_mem_cons.mpr
        ⟨(not_le.mp less).le.trans above.1, above.2⟩⟩⟩

theorem max_by_key_cases [LinearOrder Key] (key : Item → Key) (items : List Item) : items = [] ∨
      ∃ chosen, maxByKey key items = some chosen ∧ ∀ item ∈ items, key item ≤ key chosen := by
  cases items with
  | nil => exact .inl rfl
  | cons head items => exact .inr (fold_greatest key (fun _ _ => rfl) items head)

variable {bonds : BondsMap S} {run : List (Creation M S)} {c : Creation M S}

theorem visits_steps (mem : c ∈ run) (visited : Visits bonds c cut) :
    ReflTransGen (MessageStep bonds run) (latestFringe c.known.msgMap c.justifications) cut := by
  induction visited with
  | start => exact ReflTransGen.refl
  | step visited returned progress ih => exact ih.tail ⟨c, mem, visited, returned, progress⟩

theorem message_step_unique (reached : Run bonds run) :
    Relator.RightUnique (MessageStep bonds run) := by
  intro _ _ _ step step'
  obtain ⟨_, layers⟩ := message_step_sound reached step
  obtain ⟨_, layers'⟩ := message_step_sound reached step'
  exact Finset.coe_inj.mp (next_cut_unique layers layers')

theorem latest_fringe_reached (built : Built bonds run) (views : AlwaysLatest bonds run)
    (mem : c ∈ run) {j : Message M S} (justified : j ∈ c.justifications)
    (known : FringeReached (run_coherent (run_of_built built views)) run j cut) :
    ReflTransGen (MessageStep bonds run) cut (latestFringe c.known.msgMap c.justifications) := by
  have reached := run_of_built built views
  have coherent := run_coherent reached
  obtain ⟨view, fringes, _⟩ := run_view reached mem
  have height {k : Message M S} (listed : k ∈ c.justifications) {other : Finset (Message M S)}
      (knownK : FringeReached coherent run k other) :
      fringeHeight c.known.msgMap k = cutHeight other := by
    rw [fringeHeight, (justification_fringe coherent view listed knownK).1, cutHeight]
  rcases max_by_key_cases (fringeHeight c.known.msgMap) c.justifications with
    nothing | ⟨top, picked, above⟩
  · rw [nothing] at justified
    cases justified
  · have listed : top ∈ c.justifications := by
      rcases max_by_key_fold _ c.justifications none top picked with listed | absent
      · exact listed
      · cases absent
    obtain ⟨last, knownTop⟩ := fringes top listed
    have same : latestFringe c.known.msgMap c.justifications = last := by
      rw [latestFringe, picked]
      exact (justification_fringe coherent view listed knownTop).1
    have highest := above j justified
    rw [height justified known, height listed knownTop] at highest
    rw [same]
    rcases ReflTransGen.total_of_right_unique (message_step_unique reached) known.reached
      knownTop.reached with forward | back
    · exact forward
    · rcases cut_height_le built views back with rfl | lower
      · exact ReflTransGen.refl
      · exact absurd highest (not_le.mpr lower)

end Choice

/-- In a DAG without equivocations whose messages cite the latest messages they have seen, no
message takes a validator back behind the fringe of a justification. -/
theorem fringes_rise_of_latest {bonds : BondsMap S} {run : List (Creation M S)}
    (built : Built bonds run) (views : AlwaysLatest bonds run) : FringesRise bonds run := by
  intro c member j justified f inLog listed
  have reached := run_of_built built views
  obtain ⟨view, known, _⟩ := run_view reached member
  obtain ⟨_, knownJ⟩ := known j justified
  rw [knownJ.ids, Finset.mem_image] at listed
  obtain ⟨e, inside, same⟩ := listed
  rw [(run_coherent reached).ids e (knownJ.ok.spanning.1 e inside) f inLog same] at inside
  have visited := new_fringe_visits bonds c
  obtain ⟨ok, _, _⟩ := visits_reached (run_coherent reached) member view known visited
  have steps := (latest_fringe_reached built views member justified knownJ).trans
    (visits_steps member visited)
  obtain ⟨g, present, owned, bound⟩ := not_behind_of_steps reached steps f inside
  refine ⟨⟨g, ok.spanning.1 g present, Finset.mem_image_of_mem _ present, owned⟩, ?_⟩
  intro h hInLog hListed hOwned
  obtain ⟨k, inNew, same⟩ := Finset.mem_image.mp hListed
  have equal := (run_coherent reached).ids k (ok.spanning.1 k inNew) h hInLog same
  subst equal
  have inRun := ok.spanning.1 g present
  exact bound.trans (ok.closed g present k inNew g
    ⟨inRun, (run_coherent reached).seen_self g inRun⟩ (owned.trans hOwned.symm))

section Stale

/-- Two validators, one with nine tenths of the stake. -/
def unevenBonds : BondsMap Nat := ((∅ : BondsMap Nat).insert 1 10).insert 0 90

/-- A creation on a state that has all messages so far. -/
def citing (log : List (Message Nat Nat)) (id height sender senderSeq : Nat)
    (justifications : List (Message Nat Nat)) : Creation Nat Nat where
  known := log.foldl DagMessageState.insertMsg DagMessageState.empty
  id := id
  height := height
  sender := sender
  senderSeq := senderSeq
  justifications := justifications

def unevenMessage (id height sender senderSeq : Nat) (parents : List Nat) (fringe seen : Finset Nat) :
    Message Nat Nat where
  id := id
  height := height
  sender := sender
  senderSeq := senderSeq
  bondsMap := unevenBonds
  parents := parents
  fringe := fringe
  seen := seen

def b0 := unevenMessage 0 0 1 0 [] ∅ {0}
def a0 := unevenMessage 1 1 0 0 [0] ∅ {1, 0}
def a1 := unevenMessage 2 2 0 1 [0, 1] ∅ {2, 1, 0}
def a2 := unevenMessage 3 3 0 2 [0, 2] ∅ {3, 2, 1, 0}
def b1 := unevenMessage 4 3 1 1 [0, 2] ∅ {4, 2, 1, 0}
def b2 := unevenMessage 5 4 1 2 [3, 4] ∅ {5, 3, 4, 2, 1, 0}
def a3 := unevenMessage 6 5 0 3 [3, 5] ∅ {6, 5, 3, 4, 2, 1, 0}
def a4 := unevenMessage 7 6 0 4 [5, 6] {1, 0} {7, 6, 5, 3, 4, 2, 1, 0}
def a5 := unevenMessage 8 7 0 5 [5, 7] {2, 4} {8, 7, 6, 5, 3, 4, 2, 1, 0}

/-- The last message cites `b1`, a member of the fringe of `a5`, in place of `b2`. -/
def staleCreations : List (Creation Nat Nat) :=
  [citing [b0, a0, a1, a2, b1, b2, a3, a4, a5] 9 8 0 6 [b1, a5],
   citing [b0, a0, a1, a2, b1, b2, a3, a4] 8 7 0 5 [b2, a4],
   citing [b0, a0, a1, a2, b1, b2, a3] 7 6 0 4 [b2, a3],
   citing [b0, a0, a1, a2, b1, b2] 6 5 0 3 [a2, b2],
   citing [b0, a0, a1, a2, b1] 5 4 1 2 [a2, b1],
   citing [b0, a0, a1, a2] 4 3 1 1 [b0, a1],
   citing [b0, a0, a1] 3 3 0 2 [b0, a1],
   citing [b0, a0] 2 2 0 1 [b0, a0],
   citing [b0] 1 1 0 0 [b0],
   citing [] 0 0 1 0 []]

theorem citing_built {run : List (Creation Nat Nat)} (earlier : Built unevenBonds run)
    (log : List (Message Nat Nat)) (id height sender senderSeq : Nat)
    (justifications : List (Message Nat Nat))
    (subset : ∀ m ∈ log, m ∈ messages unevenBonds run)
    (orderly : Orderly (messages unevenBonds run)
      (citing log id height sender senderSeq justifications)) :
    Built unevenBonds (citing log id height sender senderSeq justifications :: run) :=
  earlier.create orderly (holds_foldl log subset _ Holds.empty)

theorem built_before_stale : Built unevenBonds staleCreations.tail := by
  simp only [staleCreations, tail_cons]
  repeat refine citing_built ?_ _ _ _ _ _ _ (by decide +kernel) (by decide +kernel)
  exact Built.nil

theorem latest_before_stale : AlwaysLatest unevenBonds staleCreations.tail := by
  refine ⟨?_, ?_, ?_, ?_, ?_, ?_, ?_, ?_, ?_, trivial⟩ <;> decide +kernel

/-- Up to the stale message every fringe is above those of its justifications. -/
theorem fringes_rise_before_stale : FringesRise unevenBonds staleCreations.tail :=
  fringes_rise_of_latest built_before_stale latest_before_stale

/-- The fringe of the last message has the first message of validator 1, where the fringe of its
justification has the second. -/
theorem stale_justification_takes_fringe_back :
    Built unevenBonds staleCreations ∧ AlwaysLatest unevenBonds staleCreations.tail ∧
      ¬ FringesRise unevenBonds staleCreations := by
  refine ⟨?_, latest_before_stale, fun rise => ?_⟩
  · exact citing_built built_before_stale _ _ _ _ _ _ (by decide +kernel) (by decide +kernel)
  have bound := (rise _ mem_cons_self a5 (by decide +kernel) b1 (by decide +kernel)
    (by decide +kernel)).2 b0 (by decide +kernel) (by decide +kernel) rfl
  exact absurd bound (by decide +kernel)

end Stale

end RChain.Dag
