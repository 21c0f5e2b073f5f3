import RChain.Lib.BitCodec
import Mathlib.Data.Prod.Lex
import Mathlib.Order.Lattice.Nat

/-!
# Stable hashing of channels, produces and consumes

Source: `rspace/src/hashing/stable_hash_provider.rs`, `rspace/src/util.rs` and the
byte-vector helpers of `rspace/src/serializers/scodec_serialize.rs`.

Blake2b comes from a third-party crate, and the element serializers belong to the
callers, so both are parameters. No function into 32 bytes is injective; to be able to
assume an injective hash, a hash value is an element of an arbitrary ordered type
whose byte form can be read back from the front of a byte string, which is all that
the code uses of the fixed width.
-/

namespace RChain.TupleSpace

open BitCodec List

/-- The comparison of hashes is the equality of their order. -/
scoped instance lawfulBEqOfLinearOrder {Hash : Type} [LinearOrder Hash] : LawfulBEq Hash :=
  inferInstance

/-- The `Serialize` trait. -/
structure Serialize (Item : Type) where
  encode : Item → List Byte
  decode : List Byte → Option Item

structure Serialize.Lawful {Item : Type} (serialize : Serialize Item) : Prop where
  round_trip : ∀ item, serialize.decode (serialize.encode item) = some item

variable {Item Key : Type}

theorem Serialize.Lawful.injective {serialize : Serialize Item} (lawful : serialize.Lawful) :
    Function.Injective serialize.encode := by
  intro left right same
  have decoded := lawful.round_trip left
  rw [same, lawful.round_trip right] at decoded
  exact (Option.some.inj decoded).symm

/-- The operations of `Blake2b256Hash`. -/
structure Blake2b256 (Hash : Type) where
  create : List Byte → Hash
  asBytes : Hash → List Byte
  fromBytes : List Byte → Option (Hash × List Byte)

structure Blake2b256.Ideal {Hash : Type} (blake : Blake2b256 Hash) : Prop where
  create_injective : Function.Injective blake.create
  nonempty : ∀ hash, blake.asBytes hash ≠ []
  read_back : ∀ hash rest, blake.fromBytes (blake.asBytes hash ++ rest) = some (hash, rest)

theorem as_bytes_injective {Hash : Type} {blake : Blake2b256 Hash} (ideal : blake.Ideal) :
    Function.Injective blake.asBytes := by
  intro left _ same
  have read := ideal.read_back left []
  rw [same, ideal.read_back] at read
  exact (Prod.mk.inj (Option.some.inj read)).1.symm

/-- Stable sorting by a key, as `sort_by` and `sort_by_key` do. -/
def sortByKey {Item Key : Type} [LinearOrder Key] (key : Item → Key) (items : List Item) :
    List Item :=
  items.insertionSort fun left right => key left ≤ key right

theorem sort_by_key_perm [LinearOrder Key] (key : Item → Key) (items : List Item) :
    (sortByKey key items).Perm items :=
  perm_insertionSort _ items

instance keyTotal [LinearOrder Key] (key : Item → Key) :
    Std.Total fun left right => key left ≤ key right :=
  ⟨fun left right => le_total (key left) (key right)⟩

instance keyTrans [LinearOrder Key] (key : Item → Key) :
    IsTrans Item fun left right => key left ≤ key right :=
  ⟨fun _ _ _ lower upper => le_trans lower upper⟩

theorem sort_by_key_sorted [LinearOrder Key] (key : Item → Key) (items : List Item) :
    (sortByKey key items).Pairwise fun left right => key left ≤ key right := by
  exact pairwise_insertionSort _ items

theorem sort_eq_of_perm [LinearOrder Key] (key : Item → Key) {left right : List Item}
    (perm : left.Perm right)
    (ties : ∀ item ∈ left, ∀ other ∈ left, key item = key other → item = other) :
    sortByKey key left = sortByKey key right := by
  apply List.Perm.eq_of_pairwise _ (sort_by_key_sorted key left) (sort_by_key_sorted key right)
    ((sort_by_key_perm key left).trans (perm.trans (sort_by_key_perm key right).symm))
  intro item other first second lower upper
  exact ties item ((sort_by_key_perm key left).mem_iff.mp first) other
    (perm.mem_iff.mpr ((sort_by_key_perm key right).mem_iff.mp second)) (le_antisymm lower upper)

/-- The key of `veccmp`: shorter vectors first, then unsigned bytewise. -/
def vecKey (bytes : List Byte) : ℕ ×ₗ List Byte :=
  toLex (bytes.length, bytes)

theorem vec_key_injective : Function.Injective vecKey := by
  intro _ _ same
  exact (Prod.ext_iff.mp (toLex.injective same)).2

/-- An `int32` count, then the elements with `int64` lengths. -/
def encodeSeqByteVectors (elements : List (List Byte)) : List Byte :=
  toBeBytes 4 elements.length ++
    elements.flatMap fun element => toBeBytes 8 element.length ++ element

def bool8 (value : Bool) : List Byte :=
  [if value then 1 else 0]

def toOrderedByteVectors {Item : Type} (serialize : Serialize Item) (elements : List Item) :
    List (List Byte) :=
  sortByKey vecKey (elements.map serialize.encode)

variable {C P A K Hash : Type} [LinearOrder Hash]

def hashChannel (blake : Blake2b256 Hash) (channels : Serialize C) (channel : C) : Hash :=
  blake.create (channels.encode channel)

def hashSeq (blake : Blake2b256 Hash) (channels : Serialize C) (list : List C) : List Hash :=
  sortByKey id (list.map (hashChannel blake channels))

def hashHashes (blake : Blake2b256 Hash) (hashes : List Hash) : Hash :=
  blake.create ((sortByKey id hashes).flatMap blake.asBytes)

def hashChannels (blake : Blake2b256 Hash) (channels : Serialize C) (list : List C) : Hash :=
  hashHashes blake (hashSeq blake channels list)

def hashConsume (blake : Blake2b256 Hash) (patterns : Serialize P) (continuations : Serialize K)
    (encodedChannels : List (List Byte)) (list : List P) (continuation : K) (persist : Bool) :
    Hash :=
  blake.create (encodeSeqByteVectors (encodedChannels ++ toOrderedByteVectors patterns list ++
    [continuations.encode continuation, bool8 persist]))

def hashProduce (blake : Blake2b256 Hash) (data : Serialize A) (channel : List Byte) (datum : A)
    (persist : Bool) : Hash :=
  blake.create (encodeSeqByteVectors [channel, data.encode datum, bool8 persist])

variable {blake : Blake2b256 Hash}

omit [LinearOrder Hash] in
theorem hash_channel_injective {channels : Serialize C} (ideal : blake.Ideal)
    (lawful : channels.Lawful) :
    Function.Injective (hashChannel blake channels) := by
  intro _ _ same
  exact lawful.injective (ideal.create_injective same)

omit [LinearOrder Hash] in
theorem flat_map_bytes_injective (ideal : blake.Ideal) (left right : List Hash)
    (same : left.flatMap blake.asBytes = right.flatMap blake.asBytes) : left = right := by
  induction left generalizing right with
  | nil =>
    cases right with
    | nil => rfl
    | cons head =>
      rw [flatMap_nil, flatMap_cons] at same
      exact absurd (append_eq_nil_iff.mp same.symm).1 (ideal.nonempty head)
  | cons head tail ih =>
    cases right with
    | nil =>
      rw [flatMap_nil, flatMap_cons] at same
      exact absurd (append_eq_nil_iff.mp same).1 (ideal.nonempty head)
    | cons other rest =>
      rw [flatMap_cons, flatMap_cons] at same
      have read := ideal.read_back head (tail.flatMap blake.asBytes)
      rw [same, ideal.read_back] at read
      have pair := Prod.ext_iff.mp (Option.some.inj read)
      have heads : head = other := pair.1.symm
      have tails : tail = rest := ih rest pair.2.symm
      rw [heads, tails]

end RChain.TupleSpace
