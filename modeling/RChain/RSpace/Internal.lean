import RChain.RSpace.Hashing

/-!
# Core tuple-space data types and trace events

Source: `rspace/src/internal.rs`, `rspace/src/tuple_space.rs` and
`rspace/src/trace/event.rs`.

A produce or a consume is identified by its hash: the code overrides equality and
order that way. Where it compares two of them, the model compares the hashes.
-/

namespace RChain.TupleSpace

open BitCodec

/-- What a tuple space is configured with: the hash, the element serializers and the matcher. -/
structure Config (C P A K Hash : Type) where
  blake : Blake2b256 Hash
  channels : Serialize C
  patterns : Serialize P
  data : Serialize A
  continuations : Serialize K
  matcher : P → A → Option A

/-- The serializers and the hash give back what they were given. -/
structure Config.Lawful {C P A K Hash : Type} (config : Config C P A K Hash) : Prop where
  blake : config.blake.Ideal
  channels : config.channels.Lawful
  patterns : config.patterns.Lawful
  data : config.data.Lawful
  continuations : config.continuations.Lawful

structure Produce (Hash : Type) where
  channelsHash : Hash
  hash : Hash
  persistent : Bool
deriving DecidableEq

structure Consume (Hash : Type) where
  channelsHashes : List Hash
  hash : Hash
  persistent : Bool
deriving DecidableEq

/-- A `BTreeSet<usize>`: its elements in increasing order. -/
structure IndexSet where
  elements : List Nat
  sorted : elements.Pairwise (· < ·)
deriving DecidableEq

def IndexSet.empty : IndexSet where
  elements := []
  sorted := List.Pairwise.nil

def IndexSet.first : IndexSet where
  elements := [0]
  sorted := List.pairwise_singleton _ 0

structure Datum (A Hash : Type) where
  a : A
  persist : Bool
  source : Produce Hash
deriving DecidableEq

structure WaitingContinuation (P K Hash : Type) where
  patterns : List P
  continuation : K
  persist : Bool
  peeks : IndexSet
  source : Consume Hash
deriving DecidableEq

structure ConsumeCandidate (C A Hash : Type) where
  channel : C
  datum : Datum A Hash
  removedDatum : A
  datumIndex : Int
deriving DecidableEq

structure ProduceCandidate (C P A K Hash : Type) where
  channels : List C
  continuation : WaitingContinuation P K Hash
  continuationIndex : Nat
  dataCandidates : List (ConsumeCandidate C A Hash)
deriving DecidableEq

structure Result (C A : Type) where
  channel : C
  matchedDatum : A
  removedDatum : A
  persistent : Bool
deriving DecidableEq

structure ContResult (C P K : Type) where
  continuation : K
  persistent : Bool
  channels : List C
  patterns : List P
  peek : Bool
deriving DecidableEq

/-- What a consume or a produce returns: nothing, or the continuation and its data. -/
abbrev ActionResult (C P A K : Type) := Option (ContResult C P K × List (Result C A))

/-- The counters in `timesRepeated` are listed in the order of `produces`; two maps over equal
produces are equal exactly when these lists are. -/
structure Comm (Hash : Type) where
  consume : Consume Hash
  produces : List (Produce Hash)
  peeks : IndexSet
  timesRepeated : List (Hash × Nat)
deriving DecidableEq

inductive Event (Hash : Type) where
  | comm (comm : Comm Hash)
  | produce (produce : Produce Hash)
  | consume (consume : Consume Hash)
deriving DecidableEq

variable {C P A K Hash : Type} [LinearOrder Hash]

def Produce.apply (config : Config C P A K Hash) (channel : C) (datum : A) (persistent : Bool) :
    Produce Hash :=
  let channelHash := hashChannel config.blake config.channels channel
  { channelsHash := channelHash
    hash := hashProduce config.blake config.data (config.blake.asBytes channelHash) datum persistent
    persistent := persistent }

def Consume.apply (config : Config C P A K Hash) (channels : List C) (patterns : List P)
    (continuation : K) (persistent : Bool) : Consume Hash :=
  let channelsHashes := hashSeq config.blake config.channels channels
  { channelsHashes := channelsHashes
    hash := hashConsume config.blake config.patterns config.continuations
      (channelsHashes.map config.blake.asBytes) patterns continuation persistent
    persistent := persistent }

def Produce.sortKey (produce : Produce Hash) : Hash ×ₗ Hash ×ₗ Bool :=
  toLex (produce.channelsHash, toLex (produce.hash, produce.persistent))

def Comm.apply (dataCandidates : List (ConsumeCandidate C A Hash)) (consumeRef : Consume Hash)
    (peeks : IndexSet) (produceCounter : Hash → Nat) : Comm Hash :=
  let produceRefs := sortByKey Produce.sortKey (dataCandidates.map (·.datum.source))
  { consume := consumeRef
    produces := produceRefs
    peeks := peeks
    timesRepeated := produceRefs.map fun p => (p.hash, produceCounter p.hash) }

/-- Equality of COMM events: produces and consumes count by their hash. -/
def Comm.same (left right : Comm Hash) : Bool :=
  decide (left.consume.hash = right.consume.hash ∧
    left.produces.map (·.hash) = right.produces.map (·.hash) ∧
    left.peeks = right.peeks ∧ left.timesRepeated = right.timesRepeated)

/-! A configuration over natural numbers: unary encodings, the bytes themselves as their hash,
and a matcher for which the pattern 0 accepts every datum. -/

def unary : Serialize Nat where
  encode := fun n => List.replicate n 1
  decode := fun bytes => some bytes.length

theorem unary_lawful : unary.Lawful :=
  ⟨fun n => congrArg some (List.length_replicate (n := n) (a := (1 : Byte)))⟩

def readVerbatim : List Byte → Option (List Byte × List Byte)
  | [] => none
  | [mark] => if mark = 0 then some ([], []) else none
  | mark :: byte :: rest =>
    if mark = 0 then some ([], byte :: rest)
    else (readVerbatim rest).map fun read => (byte :: read.1, read.2)

def verbatim : Blake2b256 (List Byte) where
  create := id
  asBytes := fun hash => hash.flatMap (fun byte => [1, byte]) ++ [0]
  fromBytes := readVerbatim

theorem read_verbatim_append (hash rest : List Byte) :
    readVerbatim (verbatim.asBytes hash ++ rest) = some (hash, rest) := by
  induction hash with
  | nil => cases rest <;> rfl
  | cons byte hash ih =>
    have read : readVerbatim (1 :: byte :: (verbatim.asBytes hash ++ rest)) =
        (readVerbatim (verbatim.asBytes hash ++ rest)).map
          fun read => (byte :: read.1, read.2) := rfl
    rw [ih] at read
    exact read

theorem verbatim_ideal : verbatim.Ideal where
  create_injective := Function.injective_id
  nonempty := fun _ => List.append_ne_nil_of_right_ne_nil _ (List.cons_ne_nil 0 [])
  read_back := read_verbatim_append

def naturalConfig : Config Nat Nat Nat Nat (List Byte) where
  blake := verbatim
  channels := unary
  patterns := unary
  data := unary
  continuations := unary
  matcher := fun pattern datum => if pattern = 0 ∨ pattern = datum then some datum else none

theorem natural_lawful : naturalConfig.Lawful :=
  ⟨verbatim_ideal, unary_lawful, unary_lawful, unary_lawful, unary_lawful⟩

end RChain.TupleSpace
