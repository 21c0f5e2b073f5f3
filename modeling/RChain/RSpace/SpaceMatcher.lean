import RChain.RSpace.Internal

/-!
# Pattern-matching search over data and continuations

Source: `rspace/src/space_matcher.rs`.

A `BTreeMap` that is only read and written key by key is a partial function here.
-/

namespace RChain.TupleSpace

variable {C P A K Hash : Type}

/-- A stored datum with its index in the store; the datum being produced has index -1. -/
abbrev IndexedDatum (A Hash : Type) := Datum A Hash × Int

/-- The loop of `find_matching_data_candidate` over the data not looked at yet; `skipped` holds
the passed data, latest first. -/
def findFrom (matcher : P → A → Option A) (channel : C) (data : List (IndexedDatum A Hash))
    (pattern : P) (skipped : List (IndexedDatum A Hash)) :
    List (IndexedDatum A Hash) →
      Option (ConsumeCandidate C A Hash × List (IndexedDatum A Hash))
  | [] => none
  | (datum, index) :: remaining =>
    match matcher pattern datum.a with
    | none => findFrom matcher channel data pattern ((datum, index) :: skipped) remaining
    | some mat =>
      some
        ({ channel := channel
           datum := { a := mat, persist := datum.persist, source := datum.source }
           removedDatum := datum.a
           datumIndex := index },
          if datum.persist then data else skipped ++ remaining)

def findMatchingDataCandidate (matcher : P → A → Option A) (channel : C)
    (data : List (IndexedDatum A Hash)) (pattern : P) :
    Option (ConsumeCandidate C A Hash × List (IndexedDatum A Hash)) :=
  findFrom matcher channel data pattern [] data

def extractDataCandidates [DecidableEq C] (matcher : P → A → Option A) :
    List (C × P) → (C → Option (List (IndexedDatum A Hash))) →
      List (Option (ConsumeCandidate C A Hash))
  | [], _ => []
  | (channel, pattern) :: pairs, channelToIndexedData =>
    match (channelToIndexedData channel).bind
        (fun data => findMatchingDataCandidate matcher channel data pattern) with
    | some (candidate, remaining) =>
      some candidate :: extractDataCandidates matcher pairs
        (Function.update channelToIndexedData channel (some remaining))
    | none => none :: extractDataCandidates matcher pairs channelToIndexedData

/-- Collecting a list of options: the items, if none is missing. -/
def collectOptions {Item : Type} : List (Option Item) → Option (List Item)
  | [] => some []
  | none :: _ => none
  | some item :: rest => (collectOptions rest).map (item :: ·)

/-- The data candidates for one waiting continuation, if every pattern has one. -/
def matchContinuation [DecidableEq C] (matcher : P → A → Option A) (channels : List C)
    (channelToIndexedData : C → Option (List (IndexedDatum A Hash)))
    (patterns : List P) : Option (List (ConsumeCandidate C A Hash)) :=
  collectOptions (extractDataCandidates matcher (channels.zip patterns) channelToIndexedData)

/-- Find the first waiting continuation, by consume hash, whose patterns match all channels. -/
def extractFirstMatch [DecidableEq C] [LinearOrder Hash] (matcher : P → A → Option A)
    (channels : List C) (matchCandidates : List (WaitingContinuation P K Hash × Nat))
    (channelToIndexedData : C → Option (List (IndexedDatum A Hash))) :
    Option (ProduceCandidate C P A K Hash) :=
  (sortByKey (·.1.source.hash) matchCandidates).findSome? fun candidate =>
    (matchContinuation matcher channels channelToIndexedData candidate.1.patterns).map fun data =>
      { channels := channels
        continuation := candidate.1
        continuationIndex := candidate.2
        dataCandidates := data }

theorem extract_data_candidates_congr [DecidableEq C] (matcher : P → A → Option A)
    (pairs : List (C × P)) (left right : C → Option (List (IndexedDatum A Hash)))
    (same : ∀ pair ∈ pairs, left pair.1 = right pair.1) :
    extractDataCandidates matcher pairs left = extractDataCandidates matcher pairs right := by
  induction pairs generalizing left right with
  | nil => rfl
  | cons pair pairs ih =>
    have head : left pair.1 = right pair.1 := same pair List.mem_cons_self
    have tail : ∀ other ∈ pairs, left other.1 = right other.1 := fun other mem =>
      same other (List.mem_cons_of_mem _ mem)
    simp only [extractDataCandidates, head]
    cases (right pair.1).bind fun data =>
        findMatchingDataCandidate matcher pair.1 data pair.2 with
    | none => simp only [ih left right tail]
    | some =>
      simp only [List.cons.injEq, true_and]
      apply ih
      intro other mem
      by_cases equal : other.1 = pair.1
      · simp [equal]
      · simp [Function.update_of_ne equal, tail other mem]

theorem match_continuation_congr [DecidableEq C] (matcher : P → A → Option A) (channels : List C)
    (patterns : List P) (left right : C → Option (List (IndexedDatum A Hash)))
    (same : ∀ channel ∈ channels, left channel = right channel) :
    matchContinuation matcher channels left patterns =
      matchContinuation matcher channels right patterns := by
  unfold matchContinuation
  rw [extract_data_candidates_congr matcher (channels.zip patterns) left right]
  intro pair mem
  exact same pair.1 (List.of_mem_zip mem).1

end RChain.TupleSpace
