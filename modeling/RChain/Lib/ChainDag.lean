import Mathlib.Data.Set.Basic

/-!
# Layers of a family of chains

A directed graph of items, each owned by a sender, in which the items of one sender
form a chain. A cut picks a position on the chains; the next layer above a cut is
made of the items right above it and of what those cite. The layer is a function of
the graph and the cut alone, it is again a closed cut, and whoever sees one of its
items from every chain is beyond the cut on every chain.
-/

namespace ChainLayers

/-- A citation graph whose senders do not fork. `members` are the senders that count; what an
item sees of a member, it sees through one cited item of that member. -/
structure ChainDag (V S : Type*) where
  items : Set V
  members : Set S
  sender : V → S
  rank : V → ℕ
  sees : V → V → Prop
  cites : V → V → Prop
  sees_items : ∀ u ∈ items, ∀ v, sees u v → v ∈ items
  sees_trans : ∀ u ∈ items, ∀ v w, sees u v → sees v w → sees u w
  cites_sees : ∀ u ∈ items, ∀ v, cites u v → sees u v
  rank_of_sees : ∀ u ∈ items, ∀ v, sees u v → sender u = sender v → rank v ≤ rank u
  sees_of_rank : ∀ u ∈ items, ∀ v ∈ items, sender u = sender v → rank v ≤ rank u → sees u v
  rank_injective : ∀ u ∈ items, ∀ v ∈ items, sender u = sender v → rank u = rank v → u = v
  sees_through : ∀ u ∈ items, ∀ v, sees u v → sender v ∈ members →
    v = u ∨ ∃ w, cites u w ∧ sender w = sender v ∧ sees w v

variable {V S : Type*} (D : ChainDag V S)

/-- The items of `s` strictly above the cut. -/
def ChainDag.above (cut : Set V) (s : S) : Set V :=
  {v | v ∈ D.items ∧ D.sender v = s ∧ ∀ c ∈ cut, D.sender c = s → D.rank c < D.rank v}

/-- The item of `s` right above the cut. -/
def ChainDag.Oldest (cut : Set V) (s : S) (v : V) : Prop :=
  v ∈ D.above cut s ∧ ∀ w ∈ D.above cut s, D.rank v ≤ D.rank w

/-- The items of `s` the next layer may hold: the one right above the cut, and those cited by
an item right above the cut. -/
def ChainDag.candidates (cut : Set V) (s : S) : Set V :=
  {v | D.Oldest cut s v ∨
    (D.sender v = s ∧ ∃ t ∈ D.members, ∃ m, D.Oldest cut t m ∧ D.cites m v)}

/-- The item of `s` in the next layer. -/
def ChainDag.LayerAt (cut : Set V) (s : S) (v : V) : Prop :=
  v ∈ D.candidates cut s ∧ ∀ w ∈ D.candidates cut s, D.rank w ≤ D.rank v

/-- One layer item for each member. -/
def ChainDag.NextCut (cut next : Set V) : Prop :=
  (∀ s ∈ D.members, ∃ v ∈ next, D.LayerAt cut s v) ∧
    ∀ v ∈ next, D.sender v ∈ D.members ∧ D.LayerAt cut (D.sender v) v

/-- What the cut sees of its own senders is not beyond the cut. -/
def ChainDag.Closed (cut : Set V) : Prop :=
  ∀ c ∈ cut, ∀ d ∈ cut, ∀ v, D.sees c v → D.sender v = D.sender d → D.rank v ≤ D.rank d

/-- The cut has an item of every member as soon as it has an item at all. -/
def ChainDag.Spanning (cut : Set V) : Prop :=
  (∀ c ∈ cut, c ∈ D.items) ∧ ∀ c ∈ cut, ∀ s ∈ D.members, ∃ d ∈ cut, D.sender d = s

variable {D} {cut next other : Set V} {s t : S} {u v w : V}

theorem oldest_unique (left : D.Oldest cut s v) (right : D.Oldest cut s w) : v = w := by
  have same : D.rank v = D.rank w := le_antisymm (left.2 w right.1) (right.2 v left.1)
  exact D.rank_injective v left.1.1 w right.1.1 (left.1.2.1.trans right.1.2.1.symm) same

theorem candidate_items (candidate : v ∈ D.candidates cut s) : v ∈ D.items := by
  rcases candidate with oldest | ⟨_, _, _, m, oldest, cited⟩
  · exact oldest.1.1
  · exact D.sees_items m oldest.1.1 v (D.cites_sees m oldest.1.1 v cited)

theorem candidate_sender (candidate : v ∈ D.candidates cut s) : D.sender v = s := by
  rcases candidate with oldest | ⟨owned, _⟩
  · exact oldest.1.2.1
  · exact owned

theorem layer_unique (left : D.LayerAt cut s v) (right : D.LayerAt cut s w) : v = w := by
  have same : D.rank v = D.rank w := le_antisymm (right.2 v left.1) (left.2 w right.1)
  exact D.rank_injective v (candidate_items left.1) w (candidate_items right.1)
    ((candidate_sender left.1).trans (candidate_sender right.1).symm) same

theorem next_cut_unique (left : D.NextCut cut next) (right : D.NextCut cut other) :
    next = other := by
  have included : ∀ {next other : Set V}, D.NextCut cut next → D.NextCut cut other →
      next ⊆ other := by
    intro _ _ left right v mem
    obtain ⟨owned, layer⟩ := left.2 v mem
    obtain ⟨_, _, layer'⟩ := right.1 (D.sender v) owned
    rwa [layer_unique layer layer']
  exact Set.Subset.antisymm (included left right) (included right left)

theorem next_cut_spanning (layers : D.NextCut cut next) : D.Spanning next := by
  refine ⟨fun c mem => candidate_items (layers.2 c mem).2.1, fun _ _ s owned => ?_⟩
  obtain ⟨d, present, layer⟩ := layers.1 s owned
  exact ⟨d, present, candidate_sender layer.1⟩

theorem rank_le_layer_of_oldest_sees {o z : V} (owner : t ∈ D.members)
    (oldest : D.Oldest cut t o) (layer : D.LayerAt cut s z) (mem : s ∈ D.members)
    (seen : D.sees o v) (owned : D.sender v = s) : D.rank v ≤ D.rank z := by
  rcases D.sees_through o oldest.1.1 v seen (owned ▸ mem) with itself | ⟨w, cited, same, sees⟩
  · subst itself
    have owners : t = s := oldest.1.2.1.symm.trans owned
    subst owners
    exact layer.2 v (Or.inl oldest)
  · have seenW := D.cites_sees o oldest.1.1 w cited
    have itemW := D.sees_items o oldest.1.1 w seenW
    calc
      D.rank v ≤ D.rank w := D.rank_of_sees w itemW v sees same
      _ ≤ D.rank z := layer.2 w (Or.inr ⟨same.trans owned, t, owner, o, oldest, cited⟩)

theorem next_cut_closed (layers : D.NextCut cut next) : D.Closed next := by
  intro c mem d member' v seen same
  obtain ⟨owned, layer⟩ := layers.2 c mem
  obtain ⟨owned', layer'⟩ := layers.2 d member'
  rcases layer.1 with oldest | ⟨_, _, owner, o, oldest, cited⟩
  · exact rank_le_layer_of_oldest_sees owned oldest layer' owned' seen same
  · have seenC := D.cites_sees o oldest.1.1 c cited
    exact rank_le_layer_of_oldest_sees owner oldest layer' owned'
      (D.sees_trans o oldest.1.1 c v seenC seen) same

theorem above_of_sees (closed : D.Closed cut) (spanning : D.Spanning cut)
    (mem : s ∈ D.members) (beyond : v ∈ D.above cut s)
    (item : u ∈ D.items) (owned : D.sender u = t) (seen : D.sees u v) :
    u ∈ D.above cut t := by
  refine ⟨item, owned, fun c present same => ?_⟩
  by_contra behind
  have itemC : c ∈ D.items := spanning.1 c present
  have seesU : D.sees c u :=
    D.sees_of_rank c itemC u item (same.trans owned.symm) (not_lt.mp behind)
  obtain ⟨d, present', same'⟩ := spanning.2 c present s mem
  have bounded : D.rank v ≤ D.rank d :=
    closed c present d present' v (D.sees_trans c itemC u v seesU seen)
      (beyond.2.1.trans same'.symm)
  exact absurd (beyond.2.2 d present' same') (not_lt.mpr bounded)

theorem sees_oldest (beyond : v ∈ D.above cut s) (oldest : D.Oldest cut s w) : D.sees v w :=
  D.sees_of_rank v beyond.1 w oldest.1.1 (beyond.2.1.trans oldest.1.2.1.symm) (oldest.2 v beyond)

theorem layer_seen_by_some (front : S → V) (beyond : ∀ t ∈ D.members, front t ∈ D.above cut t)
    (mem : s ∈ D.members) (layer : D.LayerAt cut s v) :
    ∃ t ∈ D.members, D.sees (front t) v := by
  rcases layer.1 with oldest | ⟨_, t, owner, o, oldest, cited⟩
  · exact ⟨s, mem, sees_oldest (beyond s mem) oldest⟩
  · have seesO := sees_oldest (beyond t owner) oldest
    exact ⟨t, owner, D.sees_trans (front t) (beyond t owner).1 o v seesO
      (D.cites_sees o oldest.1.1 v cited)⟩

theorem layer_above (oldest : D.Oldest cut s w) (layer : D.LayerAt cut s v) :
    v ∈ D.above cut s := by
  refine ⟨candidate_items layer.1, candidate_sender layer.1, fun c present same => ?_⟩
  calc
    D.rank c < D.rank w := oldest.1.2.2 c present same
    _ ≤ D.rank v := layer.2 w (Or.inl oldest)

end ChainLayers
