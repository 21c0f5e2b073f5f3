import Mathlib.Data.List.Forall2
import RChain.Crypto.Blake2b512Block

/-!
# The splittable random generator

Source: `crypto/src/hash/blake2b512_random.rs`.

A generator hashes its seed and its path of splits, counts the hashes it has drawn, and gives out
each 64-byte hash in two halves. An index or a slice out of bounds, the assertion of `merge` and a
merge that does not end are `none`. The arrays that the source writes in place are returned.
-/

namespace RChain.Crypto

open BitCodec Blocks Nat
open List hiding Vector
open Option (bind_some bind_eq_some_iff map_eq_some_iff)

/-- The bytes of the path in the last block; the counter follows. -/
def pathCapacity : Nat := 112

structure Blake2b512Random where
  digest : Blake2b512Block
  lastBlock : Block
  pathPosition : Nat
  hashArray : Vector Byte 64
  position : Nat
deriving DecidableEq

def zeroHashArray : Vector Byte 64 := Vector.replicate 64 0

def padded (bytes : List Byte) : Block := Vector.ofFn fun i => bytes.getD i.val 0

namespace Blake2b512Random

def newWithFanout (fanout : Byte) : Blake2b512Random where
  digest := Blake2b512Block.new fanout
  lastBlock := zeroBlock
  pathPosition := 0
  hashArray := zeroHashArray
  position := 0

/-- The whole blocks of the seed as they are, then the rest with zeros behind it. -/
def fromInit (init : List Byte) : Blake2b512Random :=
  { newWithFanout 0 with
    digest := (chunks 128 init).foldl (fun digest chunk => digest.update (padded chunk))
      (newWithFanout 0).digest }

variable (random : Blake2b512Random)

/-- The source's `copy`, which forgets the hash that is only half given out. -/
def copy : Blake2b512Random :=
  { random with hashArray := zeroHashArray, position := 0 }

def addByte (index : Byte) : Option Blake2b512Random :=
  let random := if random.pathPosition = pathCapacity then
      { random with
        digest := random.digest.update random.lastBlock
        lastBlock := zeroBlock
        pathPosition := 0 }
    else random
  (copyFromSlice random.lastBlock random.pathPosition (random.pathPosition + 1) [index]).map
    fun lastBlock => { random with lastBlock, pathPosition := random.pathPosition + 1 }

def countHash (lastBlock : Block) : Option Block :=
  let low := u64FromLeAt lastBlock.toList 112
  if low = 0xFFFFFFFFFFFFFFFF then
    let high := u64FromLeAt lastBlock.toList 120
    (copyFromSlice lastBlock 112 120 (u64ToLeBytes 0)).bind fun lastBlock =>
      copyFromSlice lastBlock 120 128 (u64ToLeBytes (high + 1))
  else copyFromSlice lastBlock 112 120 (u64ToLeBytes (low + 1))

def hash : Option Blake2b512Random :=
  (copyFromSlice random.hashArray 0 64 (random.digest.peekFinalRoot random.lastBlock)).bind
    fun hashArray => (countHash random.lastBlock).map fun lastBlock =>
      { random with hashArray, lastBlock }

def next : Option (List Byte × Blake2b512Random) :=
  if random.position = 0 then
    random.hash.map fun random =>
      (random.hashArray.toList.take 32, { random with position := 32 })
  else some (random.hashArray.toList.drop 32, { random with position := 0 })

def splitByte (index : Byte) : Option Blake2b512Random :=
  random.copy.addByte index

def splitShort (index : UInt16) : Option Blake2b512Random :=
  match toLeBytes 2 index.toNat with
  | [low, high] => (random.copy.addByte low).bind fun random => random.addByte high
  | _ => none

/-- The inner hashes of up to four children, side by side with zeros behind them. -/
def chainBlock (quad : List Blake2b512Random) : Block :=
  padded (quad.flatMap fun child => child.digest.finalizeInternal child.lastBlock)

def squash (slice : List Blake2b512Random) : Blake2b512Random :=
  let result := newWithFanout (Fin.ofNat 256 slice.length)
  { result with
    digest := (chunks 4 slice).foldl (fun digest quad => digest.update (chainBlock quad))
      result.digest }

def internalMerge : Nat → List Blake2b512Random → Option Blake2b512Random
  | 0, _ => none
  | fuel + 1, children =>
    match (chunks 255 children).map squash with
    | [one] => some one
    | squashed => internalMerge fuel squashed

def merge (children : List Blake2b512Random) : Option Blake2b512Random :=
  if children.length < 2 then none else internalMerge children.length children

def toBytes : List Byte :=
  let remainder :=
    if random.position = 0 then [] else random.hashArray.toList.drop random.position
  random.lastBlock.toList.drop 112 ++ random.digest.toBytes ++
    [Fin.ofNat 256 random.pathPosition, Fin.ofNat 256 random.position] ++
    random.lastBlock.toList.take random.pathPosition ++ remainder

end Blake2b512Random

/-- The layout that `try_from` checks. -/
def checkLayout (bytes : List Byte) : Option (Except CryptoError Unit) :=
  if bytes = [] then some (.ok ())
  else if bytes.length < 98 then some (.error (.invalidLength 98 bytes.length))
  else
    (bytes[96]?).bind fun path => (bytes[97]?).bind fun remainder =>
      let pathEnd := 98 + path.val
      if pathCapacity < path.val then some (.error (.invalidLength pathCapacity path.val))
      else if 64 < remainder.val then some (.error (.invalidLength 64 remainder.val))
      else if bytes.length < pathEnd then some (.error (.invalidLength pathEnd bytes.length))
      else if remainder ≠ 0 ∧ bytes.length < pathEnd + (64 - remainder.val) then
        some (.error (.invalidLength (pathEnd + (64 - remainder.val)) bytes.length))
      else some (.ok ())

/-- Bytes that `try_from` has accepted. -/
structure SerializedRandom where
  bytes : List Byte
  valid : checkLayout bytes = some (.ok ())

def SerializedRandom.tryFrom (bytes : List Byte) : Option (Except CryptoError SerializedRandom) :=
  match result : checkLayout bytes with
  | none => none
  | some (.error error) => some (.error error)
  | some (.ok ()) => some (.ok ⟨bytes, result⟩)

namespace Blake2b512Random

/-- The two arrays of a generator whose bytes are not empty. -/
def readArrays (bytes : List Byte) (path remainder : Nat) : Option (Block × Vector Byte 64) := do
  let low ← slice bytes 0 8
  let lastBlock ← copyFromSlice zeroBlock 112 120 low
  let high ← slice bytes 8 16
  let lastBlock ← copyFromSlice lastBlock 120 128 high
  let prefixBytes ← slice bytes 98 (98 + path)
  let lastBlock ← copyFromSlice lastBlock 0 path prefixBytes
  if remainder = 0 then pure (lastBlock, zeroHashArray)
  else do
    let rest ← slice bytes (98 + path) (98 + path + (64 - remainder))
    let hashArray ← copyFromSlice zeroHashArray remainder 64 rest
    pure (lastBlock, hashArray)

def fromBytes (serialized : SerializedRandom) : Option (Except CryptoError Blake2b512Random) :=
  let bytes := serialized.bytes
  if bytes = [] then some (.ok (fromInit []))
  else
    (bytes[96]?).bind fun path => (bytes[97]?).bind fun remainder =>
      (slice bytes 16 96).bind fun digestBytes =>
        match Blake2b512Block.fromBytes digestBytes with
        | .error error => some (.error error)
        | .ok digest =>
          (readArrays bytes path.val remainder.val).map fun arrays =>
            .ok {
              digest
              lastBlock := arrays.1
              pathPosition := path.val
              hashArray := arrays.2
              position := remainder.val }

end Blake2b512Random

section Layout

variable {bytes counter digest path rest : List Byte} {pathByte restByte : Byte}
  (layout : bytes = counter ++ digest ++ [pathByte, restByte] ++ path ++ rest)
  (counterLength : counter.length = 16) (digestLength : digest.length = 80)
  (pathLength : path.length = pathByte.val)

include layout counterLength

theorem layout_low : slice bytes 0 8 = some (counter.take 8) := by
  have split : bytes = [] ++ counter.take 8 ++
      (counter.drop 8 ++ (digest ++ [pathByte, restByte] ++ path ++ rest)) := by
    rw [nil_append, ← append_assoc, take_append_drop, layout]
    simp only [append_assoc]
  apply slice_middle split rfl
  rw [length_take, counterLength]
  rfl

theorem layout_high : slice bytes 8 16 = some (counter.drop 8) := by
  have split : bytes = counter.take 8 ++ counter.drop 8 ++
      (digest ++ [pathByte, restByte] ++ path ++ rest) := by
    rw [take_append_drop, layout]
    simp only [append_assoc]
  apply slice_middle split
  · rw [length_take, counterLength]
    rfl
  · rw [length_drop, counterLength]

include digestLength

theorem layout_path_byte : bytes[96]? = some pathByte := by
  have split : bytes = (counter ++ digest) ++ pathByte :: restByte :: (path ++ rest) := by
    rw [layout]
    simp only [append_assoc, cons_append, nil_append]
  apply get_middle split
  rw [length_append, counterLength, digestLength]

theorem layout_rest_byte : bytes[97]? = some restByte := by
  have split : bytes = (counter ++ digest ++ [pathByte]) ++ restByte :: (path ++ rest) := by
    rw [layout]
    simp only [append_assoc, cons_append, nil_append]
  apply get_middle split
  simp only [length_append, counterLength, digestLength, length_singleton]

theorem layout_length : bytes.length = 98 + path.length + rest.length := by
  rw [layout]
  simp only [length_append, counterLength, digestLength, length_cons, length_nil]

theorem layout_digest : slice bytes 16 96 = some digest := by
  have split : bytes = counter ++ digest ++ ([pathByte, restByte] ++ path ++ rest) := by
    rw [layout]
    simp only [append_assoc]
  apply slice_middle split counterLength
  rw [digestLength]

theorem layout_not_empty : bytes ≠ [] := by
  intro empty
  have length := layout_length layout counterLength digestLength
  rw [empty, length_nil] at length
  omega

include pathLength

theorem layout_path : slice bytes 98 (98 + pathByte.val) = some path := by
  apply slice_middle layout
  · simp only [length_append, counterLength, digestLength, length_cons, length_nil]
  · rw [pathLength]

theorem layout_rest (restLength : rest.length = 64 - restByte.val) :
    slice bytes (98 + pathByte.val) (98 + pathByte.val + (64 - restByte.val)) = some rest := by
  have split : bytes = counter ++ digest ++ [pathByte, restByte] ++ path ++ rest ++ [] := by
    rw [layout, append_nil]
  apply slice_middle split
  · simp only [length_append, counterLength, digestLength, length_cons, length_nil, pathLength]
  · rw [restLength]

/-- A generator's bytes have the layout that `try_from` wants. -/
theorem layout_accepted (pathSmall : pathByte.val ≤ pathCapacity) (restSmall : restByte.val ≤ 64)
    (restLength : restByte ≠ 0 → rest.length = 64 - restByte.val) :
    checkLayout bytes = some (.ok ()) := by
  have length := layout_length layout counterLength digestLength
  rw [checkLayout, if_neg (layout_not_empty layout counterLength digestLength),
    if_neg (by omega), layout_path_byte layout counterLength digestLength, bind_some,
    layout_rest_byte layout counterLength digestLength, bind_some]
  dsimp only
  rw [if_neg (by omega), if_neg (by omega), if_neg (by omega), if_neg]
  rintro ⟨present, _⟩
  have exact := restLength present
  omega

end Layout

namespace Blake2b512Random

/-- The path lies in its part of the last block with zeros behind it, and a hash is given out in two
halves. -/
structure WellFormed (random : Blake2b512Random) : Prop where
  path_le : random.pathPosition ≤ pathCapacity
  zeros : ∀ i (bound : i < 128), random.pathPosition ≤ i → i < pathCapacity →
    random.lastBlock[i] = 0
  halves : random.position = 0 ∨ random.position = 32

/-- Generators that give the same outputs: they may differ in a hash that is not given out. -/
structure Same (left right : Blake2b512Random) : Prop where
  digest : left.digest = right.digest
  lastBlock : left.lastBlock = right.lastBlock
  pathPosition : left.pathPosition = right.pathPosition
  position : left.position = right.position
  half : left.position ≠ 0 → left.hashArray.toList.drop 32 = right.hashArray.toList.drop 32

theorem Same.refl (random : Blake2b512Random) : Same random random :=
  ⟨rfl, rfl, rfl, rfl, fun _ => rfl⟩

section Codec

theorem read_half (hashArray : Vector Byte 64) : ∃ copied,
    copyFromSlice zeroHashArray 32 64 (hashArray.toList.drop 32) = some copied ∧
      copied.toList.drop 32 = hashArray.toList.drop 32 := by
  have whole : hashArray.toList.drop 32 = (hashArray.toList.drop 32).take (64 - 32) := by
    rw [take_of_length_le]
    rw [length_drop, Vector.length_toList]
  refine ⟨_, by rw [whole]; exact copy_slice _ _ (by decide) (by decide), ?_⟩
  apply ext_getElem
  · simp only [length_drop, Vector.length_toList]
  · intro _ bound _
    rw [length_drop, Vector.length_toList] at bound
    simp only [getElem_drop, Vector.getElem_toList, Vector.getElem_ofFn, Fin.getElem_fin]
    rw [if_pos ⟨by omega, by omega⟩]

theorem try_from_accepts {bytes : List Byte} (valid : checkLayout bytes = some (.ok ())) :
    SerializedRandom.tryFrom bytes = some (.ok ⟨bytes, valid⟩) := by
  unfold SerializedRandom.tryFrom
  split
  · rename_i stuck
    rw [valid] at stuck
    cases stuck
  · rename_i refused
    rw [valid] at refused
    cases refused
  · rfl

theorem counter_length (lastBlock : Block) : (lastBlock.toList.drop 112).length = 16 := by
  rw [length_drop, Vector.length_toList]

variable {random : Blake2b512Random} (wellFormed : random.WellFormed)
include wellFormed

theorem read_last_block : ∃ first second,
    copyFromSlice zeroBlock 112 120 ((random.lastBlock.toList.drop 112).take 8) = some first ∧
    copyFromSlice first 120 128 ((random.lastBlock.toList.drop 112).drop 8) = some second ∧
    copyFromSlice second 0 random.pathPosition
      (random.lastBlock.toList.take random.pathPosition) = some random.lastBlock := by
  have small := wellFormed.path_le
  rw [pathCapacity] at small
  have high : (random.lastBlock.toList.drop 112).drop 8 =
      (random.lastBlock.toList.drop 120).take (128 - 120) := by
    rw [drop_drop, take_of_length_le]
    rw [length_drop, Vector.length_toList]
  have path : random.lastBlock.toList.take random.pathPosition =
      (random.lastBlock.toList.drop 0).take (random.pathPosition - 0) := rfl
  rw [high, path]
  refine ⟨_, _, copy_slice _ _ (by decide) (by decide), copy_slice _ _ (by decide) (by decide), ?_⟩
  rw [copy_slice _ _ (zero_le _) (by omega), Option.some.injEq]
  apply Vector.ext
  intro i bound
  have zero : zeroBlock[i] = 0 := Vector.getElem_replicate _
  simp only [Vector.getElem_ofFn, Fin.getElem_fin, zero_le, true_and]
  split_ifs with inPath inHigh inLow
  · rfl
  · rfl
  · rfl
  · rw [zero, wellFormed.zeros i bound (by omega) (by rw [pathCapacity]; omega)]

theorem to_bytes_layout : ∃ pathByte restByte rest,
    random.toBytes = random.lastBlock.toList.drop 112 ++ random.digest.toBytes ++
      [pathByte, restByte] ++ random.lastBlock.toList.take random.pathPosition ++ rest ∧
    random.pathPosition = pathByte.val ∧ random.position = restByte.val ∧
    (random.position ≠ 0 → rest = random.hashArray.toList.drop 32 ∧
      rest.length = 64 - restByte.val) := by
  have small := wellFormed.path_le
  rw [pathCapacity] at small
  refine ⟨Fin.ofNat 256 random.pathPosition, Fin.ofNat 256 random.position, _, rfl,
    (mod_eq_of_lt (by omega)).symm, ?_, ?_⟩
  · rcases wellFormed.halves with whole | half
    · rw [whole]
      rfl
    · rw [half]
      rfl
  · intro present
    have half : random.position = 32 := wellFormed.halves.resolve_left present
    rw [if_neg present, half]
    refine ⟨rfl, ?_⟩
    rw [length_drop, Vector.length_toList]
    rfl

theorem path_length :
    (random.lastBlock.toList.take random.pathPosition).length = random.pathPosition := by
  have small := wellFormed.path_le
  rw [pathCapacity] at small
  rw [length_take, Vector.length_toList]
  omega

theorem read_arrays : ∃ hashArray,
    readArrays random.toBytes random.pathPosition random.position =
      some (random.lastBlock, hashArray) ∧
    (random.position ≠ 0 → random.hashArray.toList.drop 32 = hashArray.toList.drop 32) := by
  obtain ⟨_, _, _, layout, pathSame, restSame, remainder⟩ :=
    to_bytes_layout wellFormed
  obtain ⟨_, _, readLow, readHigh, readPath⟩ := read_last_block wellFormed
  have counter := counter_length random.lastBlock
  have digest := block_bytes_length random.digest
  have path := (path_length wellFormed).trans pathSame
  have pathRead := layout_path layout counter digest path
  have restRead := layout_rest layout counter digest path
  rw [← pathSame, ← restSame] at restRead
  rw [← pathSame] at pathRead
  unfold readArrays
  rw [layout_low layout counter, layout_high layout counter, pathRead]
  simp only [bind, bind_some, pure, readLow, readHigh, readPath]
  rcases wellFormed.halves with whole | half
  · rw [if_pos whole]
    exact ⟨zeroHashArray, rfl, fun present => absurd whole present⟩
  · have present : random.position ≠ 0 := by omega
    obtain ⟨restEq, restLength⟩ := remainder present
    obtain ⟨copied, copy, same⟩ := read_half random.hashArray
    refine ⟨copied, ?_, fun _ => same.symm⟩
    rw [if_neg present, restRead (by rw [restLength, restSame]), restEq]
    simp only [bind_some, half, copy]

theorem from_to_bytes : ∃ serialized decoded,
    SerializedRandom.tryFrom random.toBytes = some (.ok serialized) ∧
      fromBytes serialized = some (.ok decoded) ∧ Same random decoded := by
  obtain ⟨_, restByte, rest, layout, pathSame, restSame, remainder⟩ :=
    to_bytes_layout wellFormed
  obtain ⟨hashArray, arrays, half⟩ := read_arrays wellFormed
  have counter := counter_length random.lastBlock
  have digest := block_bytes_length random.digest
  have path := (path_length wellFormed).trans pathSame
  have restSmall : restByte.val ≤ 64 := by
    rcases wellFormed.halves with whole | other <;> omega
  have present : restByte ≠ 0 → rest.length = 64 - restByte.val := by
    intro nonzero
    apply (remainder _).2
    rw [restSame]
    exact Fin.val_ne_zero_iff.mpr nonzero
  have valid := layout_accepted layout counter digest path (pathSame ▸ wellFormed.path_le)
    restSmall present
  refine ⟨⟨random.toBytes, valid⟩, ⟨random.digest, random.lastBlock, random.pathPosition, hashArray,
    random.position⟩, try_from_accepts valid, ?_, rfl, rfl, rfl, rfl, half⟩
  unfold fromBytes
  dsimp only
  rw [if_neg (layout_not_empty layout counter digest), layout_path_byte layout counter digest,
    bind_some, layout_rest_byte layout counter digest, bind_some,
    layout_digest layout counter digest, bind_some, block_from_to_bytes]
  dsimp only
  rw [← pathSame, ← restSame, arrays]
  rfl

end Codec

section Invariant

variable {random other : Blake2b512Random}

theorem well_formed_of_digest (digest : Blake2b512Block) :
    WellFormed ⟨digest, zeroBlock, 0, zeroHashArray, 0⟩ :=
  ⟨zero_le _, fun _ _ _ _ => Vector.getElem_replicate _, .inl rfl⟩

theorem add_byte_eq (random : Blake2b512Random) (index : Byte) : ∃ start : Blake2b512Random,
    (random.WellFormed → start.WellFormed ∧ start.pathPosition < pathCapacity) ∧
    random.addByte index = (copyFromSlice start.lastBlock start.pathPosition
      (start.pathPosition + 1) [index]).map fun lastBlock =>
        { start with lastBlock, pathPosition := start.pathPosition + 1 } := by
  by_cases full : random.pathPosition = pathCapacity
  · refine ⟨{ random with
      digest := random.digest.update random.lastBlock
      lastBlock := zeroBlock
      pathPosition := 0 }, fun wellFormed => ⟨⟨zero_le _, ?_, wellFormed.halves⟩, succ_pos 111⟩, ?_⟩
    · exact fun _ _ _ _ => Vector.getElem_replicate _
    · rw [addByte, if_pos full]
  · refine ⟨random, fun wellFormed => ⟨wellFormed, lt_of_le_of_ne wellFormed.path_le full⟩, ?_⟩
    rw [addByte, if_neg full]

theorem count_hash_path {lastBlock counted : Block} (count : countHash lastBlock = some counted)
    {i : Nat} (bound : i < 128) (inPath : i < pathCapacity) : counted[i] = lastBlock[i] := by
  rw [pathCapacity] at inPath
  unfold countHash at count
  dsimp only at count
  split_ifs at count with wrap
  · obtain ⟨_, copiedLow, copiedHigh⟩ := bind_eq_some_iff.mp count
    rw [copy_outside copiedHigh bound (by omega), copy_outside copiedLow bound (by omega)]
  · exact copy_outside count bound (by omega)

theorem internal_merge_well_formed {fuel : Nat} {children : List Blake2b512Random}
    (merged : internalMerge fuel children = some other) : other.WellFormed := by
  induction fuel generalizing children with
  | zero => cases merged
  | succ _ ih =>
    unfold internalMerge at merged
    split at merged
    · rename_i one single
      cases merged
      obtain ⟨_, _, same⟩ := mem_map.mp (single ▸ mem_singleton_self other)
      subst same
      exact well_formed_of_digest _
    · exact ih merged

section

variable (wellFormed : random.WellFormed)
include wellFormed

theorem WellFormed.copy : random.copy.WellFormed :=
  ⟨wellFormed.path_le, wellFormed.zeros, .inl rfl⟩

theorem WellFormed.addByte {index : Byte}
    (added : random.addByte index = some other) : other.WellFormed := by
  obtain ⟨_, keeps, equation⟩ := add_byte_eq random index
  obtain ⟨startFormed, room⟩ := keeps wellFormed
  rw [equation] at added
  obtain ⟨_, copied, same⟩ := map_eq_some_iff.mp added
  subst same
  refine ⟨room, fun i bound after inside => ?_, startFormed.halves⟩
  rw [copy_outside copied bound (.inr after)]
  exact startFormed.zeros i bound (le_of_succ_le after) inside

theorem add_byte_returns (index : Byte) :
    ∃ other, random.addByte index = some other := by
  obtain ⟨start, keeps, equation⟩ := add_byte_eq random index
  obtain ⟨_, room⟩ := keeps wellFormed
  rw [pathCapacity] at room
  obtain ⟨lastBlock, copied⟩ := copy_returns start.lastBlock [index]
    (Nat.le_succ start.pathPosition) (by omega) (Nat.add_sub_cancel_left _ _).symm
  exact ⟨_, by rw [equation, copied]; rfl⟩

theorem WellFormed.next {output : List Byte}
    (drawn : random.next = some (output, other)) : other.WellFormed := by
  unfold Blake2b512Random.next at drawn
  split_ifs at drawn with fresh
  · obtain ⟨_, hash, same⟩ := map_eq_some_iff.mp drawn
    cases same
    obtain ⟨_, _, counted⟩ := bind_eq_some_iff.mp hash
    obtain ⟨_, count, same⟩ := map_eq_some_iff.mp counted
    subst same
    refine ⟨wellFormed.path_le, fun i bound after inside => ?_, .inr rfl⟩
    exact (count_hash_path count bound inside).trans (wellFormed.zeros i bound after inside)
  · cases drawn
    exact ⟨wellFormed.path_le, wellFormed.zeros, .inl rfl⟩

end

/-- The generators that seeding, drawing, splitting and merging make. -/
inductive Reachable : Blake2b512Random → Prop where
  | seed (init : List Byte) : Reachable (fromInit init)
  | draw {random other : Blake2b512Random} {output : List Byte} (reachable : Reachable random)
      (drawn : random.next = some (output, other)) : Reachable other
  | splitByte {random other : Blake2b512Random} {index : Byte} (reachable : Reachable random)
      (split : random.splitByte index = some other) : Reachable other
  | splitShort {random other : Blake2b512Random} {index : UInt16} (reachable : Reachable random)
      (split : random.splitShort index = some other) : Reachable other
  | merge {children : List Blake2b512Random} {other : Blake2b512Random}
      (reachable : ∀ child ∈ children, Reachable child)
      (merged : merge children = some other) : Reachable other

theorem Reachable.wellFormed (reachable : Reachable random) : random.WellFormed := by
  induction reachable with
  | seed => exact well_formed_of_digest _
  | draw _ drawn ih => exact ih.next drawn
  | splitByte _ split ih => exact ih.copy.addByte split
  | splitShort _ split ih =>
    unfold Blake2b512Random.splitShort at split
    split at split
    · obtain ⟨_, low, high⟩ := bind_eq_some_iff.mp split
      exact (ih.copy.addByte low).addByte high
    · cases split
  | merge _ merged =>
    unfold Blake2b512Random.merge at merged
    split_ifs at merged
    exact internal_merge_well_formed merged

end Invariant

section Returns

variable {children : List Blake2b512Random}

theorem internal_merge_returns {fuel : Nat} (nonempty : children ≠ [])
    (enough : children.length ≤ fuel) :
    ∃ merged, internalMerge fuel children = some merged := by
  induction fuel generalizing children with
  | zero => exact absurd (length_eq_zero_iff.mp (le_zero.mp enough)) nonempty
  | succ _ ih =>
    have positive := length_pos_iff.mpr nonempty
    have count : ((chunks 255 children).map squash).length = (children.length + 254) / 255 := by
      rw [length_map, chunks_length]
      rfl
    unfold internalMerge
    split
    · exact ⟨_, rfl⟩
    · rename_i several
      apply ih
      · intro empty
        rw [empty, length_nil] at count
        omega
      · have plural : ((chunks 255 children).map squash).length ≠ 1 := by
          intro one
          obtain ⟨single, same⟩ := length_eq_one_iff.mp one
          exact several single same
        omega

theorem merge_returns (several : 2 ≤ children.length) : ∃ merged, merge children = some merged := by
  rw [merge, if_neg (by omega)]
  exact internal_merge_returns (ne_nil_of_length_pos (by omega)) le_rfl

theorem count_hash_returns (lastBlock : Block) : ∃ counted, countHash lastBlock = some counted := by
  unfold countHash
  dsimp only
  split_ifs
  · obtain ⟨low, copied⟩ := copy_returns lastBlock (u64ToLeBytes 0)
      (le_add_right 112 8) (le_add_right 120 8) (u64_bytes_length _)
    rw [copied, bind_some]
    exact copy_returns low _ (le_add_right 120 8) le_rfl (u64_bytes_length _)
  · exact copy_returns lastBlock _ (le_add_right 112 8) (le_add_right 120 8) (u64_bytes_length _)

theorem next_returns (random : Blake2b512Random) : ∃ drawn, random.next = some drawn := by
  have length : (random.digest.peekFinalRoot random.lastBlock).length = 64 := by
    rw [Blake2b512Block.peekFinalRoot, words_length, Vector.length_toList]
  obtain ⟨hashArray, copied⟩ := copy_returns random.hashArray _ (zero_le 64) le_rfl length
  obtain ⟨lastBlock, counted⟩ := count_hash_returns random.lastBlock
  unfold next
  split_ifs
  · exact ⟨_, by rw [hash, copied, bind_some, counted]; rfl⟩
  · exact ⟨_, rfl⟩

end Returns

section Outputs

variable {left right : Blake2b512Random}

theorem Same.copy_eq (same : Same left right) : left.copy = right.copy := by
  rw [copy, copy, same.digest, same.lastBlock, same.pathPosition]

theorem Same.next (same : Same left right) {output : List Byte} {after : Blake2b512Random}
    (drawn : left.next = some (output, after)) :
    ∃ afterRight, right.next = some (output, afterRight) ∧ Same after afterRight := by
  unfold Blake2b512Random.next at drawn ⊢
  rw [← same.position]
  split_ifs at drawn ⊢ with fresh
  · have hashSame : left.hash = right.hash := by
      rw [hash, hash, copy_whole left.hashArray right.hashArray, same.digest, same.lastBlock,
        same.pathPosition, same.position]
    rw [← hashSame]
    exact ⟨after, drawn, Same.refl after⟩
  · cases drawn
    rw [← same.half fresh]
    exact ⟨_, rfl, same.digest, same.lastBlock, same.pathPosition, rfl,
      fun present => absurd rfl present⟩

/-- Splitting and merging read nothing that `copy` forgets. -/
theorem squash_copy (slice : List Blake2b512Random) : squash (slice.map copy) = squash slice := by
  have quads : (fun (digest : Blake2b512Block) (quad : List Blake2b512Random) =>
      digest.update (chainBlock (quad.map copy))) =
        fun digest quad => digest.update (chainBlock quad) := by
    funext digest quad
    rw [chainBlock, chainBlock, flatMap_map]
    rfl
  rw [squash, squash, chunks_map, foldl_map, length_map, quads]

theorem merge_copy (children : List Blake2b512Random) :
    merge (children.map copy) = merge children := by
  rw [merge, merge, length_map]
  cases length : children.length with
  | zero => rfl
  | succ =>
    have squashed : (chunks 255 (children.map copy)).map squash =
        (chunks 255 children).map squash := by
      rw [chunks_map, map_map]
      exact map_congr_left fun slice _ => squash_copy slice
    rw [internalMerge, internalMerge, squashed]

/-- What a program does with the generators it holds. -/
inductive Operation where
  | seed (init : List Byte)
  | clone (i : Nat)
  | draw (i : Nat)
  | splitByte (i : Nat) (index : Byte)
  | splitShort (i : Nat) (index : UInt16)
  | merge (indices : List Nat)

/-- One operation: the bytes it draws and the generators after it, a new one behind the others. -/
def step (pool : List Blake2b512Random) :
    Operation → Option (List (List Byte) × List Blake2b512Random)
  | .seed init => some ([], pool ++ [fromInit init])
  | .clone i => (pool[i]?).map fun random => ([], pool ++ [random])
  | .draw i => (pool[i]?).bind fun random => random.next.map fun drawn =>
    ([drawn.1], pool.set i drawn.2)
  | .splitByte i index => (pool[i]?).bind fun random => (random.splitByte index).map fun split =>
    ([], pool ++ [split])
  | .splitShort i index => (pool[i]?).bind fun random =>
    (random.splitShort index).map fun split => ([], pool ++ [split])
  | .merge indices => (indices.mapM fun i => pool[i]?).bind fun children =>
    (merge children).map fun merged => ([], pool ++ [merged])

def run (pool : List Blake2b512Random) : List Operation → Option (List (List Byte))
  | [] => some []
  | operation :: operations => (step pool operation).bind fun result =>
    (run result.2 operations).map fun outputs => result.1 ++ outputs

theorem Same.symm (same : Same left right) : Same right left :=
  ⟨same.digest.symm, same.lastBlock.symm, same.pathPosition.symm, same.position.symm,
    fun present => (same.half (same.position ▸ present)).symm⟩

variable {pool other after : List Blake2b512Random}

variable {indices : List Nat} {operation : Operation} {outputs : List (List Byte)}
  {operations : List Operation}

section

variable (same : List.Forall₂ Same pool other)
include same

theorem same_lookup {i : Nat} (found : pool[i]? = some left) :
    ∃ right, other[i]? = some right ∧ Same left right := by
  induction same generalizing i with
  | nil => cases found
  | cons head _ ih =>
    cases i with
    | zero =>
      cases found
      exact ⟨_, rfl, head⟩
    | succ => exact ih found

theorem same_set (new : Same left right) (i : Nat) :
    List.Forall₂ Same (pool.set i left) (other.set i right) := by
  induction same generalizing i with
  | nil => exact List.Forall₂.nil
  | cons head rest ih =>
    cases i with
    | zero => exact List.Forall₂.cons new rest
    | succ i => exact List.Forall₂.cons head (ih i)

theorem same_append (new : Same left right) :
    List.Forall₂ Same (pool ++ [left]) (other ++ [right]) :=
  rel_append same (List.Forall₂.cons new List.Forall₂.nil)

theorem same_children {children : List Blake2b512Random}
    (found : (indices.mapM fun i => pool[i]?) = some children) : ∃ others,
    (indices.mapM fun i => other[i]?) = some others ∧ children.map copy = others.map copy := by
  induction indices generalizing children with
  | nil =>
    cases found
    exact ⟨[], rfl, rfl⟩
  | cons i _ ih =>
    rw [mapM_cons] at found ⊢
    obtain ⟨_, here, found⟩ := bind_eq_some_iff.mp found
    obtain ⟨_, later, found⟩ := bind_eq_some_iff.mp found
    cases found
    obtain ⟨firstOther, hereOther, sameFirst⟩ := same_lookup same here
    obtain ⟨restOther, laterOther, sameRest⟩ := ih later
    refine ⟨firstOther :: restOther, ?_, ?_⟩
    · rw [hereOther, laterOther]
      rfl
    · rw [map_cons, map_cons, sameFirst.copy_eq, sameRest]

theorem step_same (stepped : step pool operation = some (outputs, after)) :
    ∃ afterOther, step other operation = some (outputs, afterOther) ∧
      List.Forall₂ Same after afterOther := by
  cases operation with
  | seed =>
    cases stepped
    exact ⟨_, rfl, same_append same (Same.refl _)⟩
  | clone =>
    obtain ⟨_, found, result⟩ := map_eq_some_iff.mp stepped
    cases result
    obtain ⟨_, foundOther, sameRandom⟩ := same_lookup same found
    exact ⟨_, by rw [step, foundOther]; rfl, same_append same sameRandom⟩
  | draw i =>
    obtain ⟨_, found, rest⟩ := bind_eq_some_iff.mp stepped
    obtain ⟨⟨_, _⟩, drawn, result⟩ := map_eq_some_iff.mp rest
    cases result
    obtain ⟨_, foundOther, sameRandom⟩ := same_lookup same found
    obtain ⟨_, drawnOther, sameAfter⟩ := sameRandom.next drawn
    exact ⟨_, by rw [step, foundOther, bind_some, drawnOther]; rfl,
      same_set same sameAfter i⟩
  | splitByte =>
    obtain ⟨_, found, rest⟩ := bind_eq_some_iff.mp stepped
    obtain ⟨split, splits, result⟩ := map_eq_some_iff.mp rest
    cases result
    obtain ⟨_, foundOther, sameRandom⟩ := same_lookup same found
    rw [Blake2b512Random.splitByte, sameRandom.copy_eq] at splits
    exact ⟨_, by rw [step, foundOther, bind_some, Blake2b512Random.splitByte, splits]; rfl,
      same_append same (Same.refl split)⟩
  | splitShort i index =>
    obtain ⟨_, found, rest⟩ := bind_eq_some_iff.mp stepped
    obtain ⟨split, splits, result⟩ := map_eq_some_iff.mp rest
    cases result
    obtain ⟨randomOther, foundOther, sameRandom⟩ := same_lookup same found
    have splitsOther : randomOther.splitShort index = some split := by
      rw [← splits, Blake2b512Random.splitShort, Blake2b512Random.splitShort, sameRandom.copy_eq]
    exact ⟨_, by rw [step, foundOther, bind_some, splitsOther]; rfl,
      same_append same (Same.refl split)⟩
  | merge =>
    obtain ⟨_, found, rest⟩ := bind_eq_some_iff.mp stepped
    obtain ⟨merged, merges, result⟩ := map_eq_some_iff.mp rest
    cases result
    obtain ⟨_, foundOthers, copies⟩ := same_children same found
    rw [← merge_copy, copies, merge_copy] at merges
    exact ⟨_, by rw [step, foundOthers, bind_some, merges]; rfl,
      same_append same (Same.refl merged)⟩

theorem run_of_same (ran : run pool operations = some outputs) :
    run other operations = some outputs := by
  induction operations generalizing pool other outputs with
  | nil => exact ran
  | cons _ _ ih =>
    obtain ⟨⟨_, _⟩, stepped, rest⟩ := bind_eq_some_iff.mp ran
    obtain ⟨_, ranLater, result⟩ := map_eq_some_iff.mp rest
    obtain ⟨_, steppedOther, sameAfter⟩ := step_same same stepped
    rw [run, steppedOther, bind_some, ih sameAfter ranLater, Option.map_some, result]

theorem run_same (operations : List Operation) : run pool operations = run other operations := by
  apply Option.ext
  intro _
  have back : List.Forall₂ Same other pool := same.flip.imp fun _ _ related => related.symm
  exact ⟨run_of_same same, run_of_same back⟩

end

/-- The operation names generators that are there, and `merge` two or more. -/
def Operation.Applies (count : Nat) : Operation → Prop
  | .seed _ => True
  | .clone i => i < count
  | .draw i => i < count
  | .splitByte i _ => i < count
  | .splitShort i _ => i < count
  | .merge indices => 2 ≤ indices.length ∧ ∀ i ∈ indices, i < count

def Operation.countAfter (count : Nat) : Operation → Nat
  | .draw _ => count
  | _ => count + 1

def Applicable : Nat → List Operation → Prop
  | _, [] => True
  | n, operation :: operations =>
    operation.Applies n ∧ Applicable (operation.countAfter n) operations

theorem well_formed_append (wellFormed : ∀ random ∈ pool, random.WellFormed)
    (new : left.WellFormed) : ∀ random ∈ pool ++ [left], random.WellFormed := by
  intro random mem
  rcases mem_append.mp mem with old | added
  · exact wellFormed random old
  · rwa [mem_singleton.mp added]

theorem split_short_returns (wellFormed : left.WellFormed) (index : UInt16) :
    ∃ split, left.splitShort index = some split ∧ split.WellFormed := by
  obtain ⟨_, low⟩ := add_byte_returns wellFormed.copy (Fin.ofNat 256 index.toNat)
  have firstFormed := wellFormed.copy.addByte low
  obtain ⟨second, high⟩ := add_byte_returns firstFormed (Fin.ofNat 256 (index.toNat / 256))
  refine ⟨second, ?_, firstFormed.addByte high⟩
  rw [Blake2b512Random.splitShort, toLeBytes, toLeBytes, toLeBytes]
  dsimp only
  rw [low, bind_some, high]

theorem children_found (inside : ∀ i ∈ indices, i < pool.length) :
    ∃ children, (indices.mapM fun i => pool[i]?) = some children ∧
      children.length = indices.length := by
  induction indices with
  | nil => exact ⟨[], rfl, rfl⟩
  | cons i _ ih =>
    obtain ⟨rest, later, length⟩ := ih fun j mem => inside j (mem_cons_of_mem _ mem)
    have here := getElem?_eq_getElem (inside i mem_cons_self)
    refine ⟨pool.get ⟨i, inside i mem_cons_self⟩ :: rest, ?_, ?_⟩
    · rw [mapM_cons, here, later]
      rfl
    · rw [length_cons, length_cons, length]

theorem step_returns (wellFormed : ∀ random ∈ pool, random.WellFormed)
    (applies : operation.Applies pool.length) : ∃ outputs after,
    step pool operation = some (outputs, after) ∧ (∀ random ∈ after, random.WellFormed) ∧
      after.length = operation.countAfter pool.length := by
  cases operation with
  | seed =>
    exact ⟨_, _, rfl, well_formed_append wellFormed (well_formed_of_digest _), length_append⟩
  | clone =>
    have found := getElem?_eq_getElem applies
    exact ⟨_, _, by rw [step, found]; rfl,
      well_formed_append wellFormed (wellFormed _ (getElem_mem applies)),
      length_append⟩
  | draw i =>
    have found := getElem?_eq_getElem applies
    obtain ⟨⟨_, _⟩, draws⟩ := next_returns pool[i]
    refine ⟨_, _, by rw [step, found, bind_some, draws]; rfl, ?_, length_set⟩
    intro random mem
    rcases mem_or_eq_of_mem_set mem with old | new
    · exact wellFormed random old
    · rw [new]
      exact (wellFormed _ (getElem_mem applies)).next draws
  | splitByte i index =>
    have found := getElem?_eq_getElem applies
    have formed := (wellFormed _ (getElem_mem applies)).copy
    obtain ⟨_, splits⟩ := add_byte_returns formed index
    exact ⟨_, _, by rw [step, found, bind_some, Blake2b512Random.splitByte, splits]; rfl,
      well_formed_append wellFormed (formed.addByte splits), length_append⟩
  | splitShort i index =>
    have found := getElem?_eq_getElem applies
    obtain ⟨_, splits, formed⟩ :=
      split_short_returns (wellFormed _ (getElem_mem applies)) index
    exact ⟨_, _, by rw [step, found, bind_some, splits]; rfl,
      well_formed_append wellFormed formed, length_append⟩
  | merge =>
    obtain ⟨_, found, length⟩ := children_found applies.2
    obtain ⟨merged, merges⟩ := merge_returns (length ▸ applies.1)
    have formed : merged.WellFormed := by
      unfold Blake2b512Random.merge at merges
      split_ifs at merges
      exact internal_merge_well_formed merges
    exact ⟨_, _, by rw [step, found, bind_some, merges]; rfl,
      well_formed_append wellFormed formed, length_append⟩

theorem run_returns (wellFormed : ∀ random ∈ pool, random.WellFormed)
    (applicable : Applicable pool.length operations) :
    ∃ outputs, run pool operations = some outputs := by
  induction operations generalizing pool with
  | nil => exact ⟨[], rfl⟩
  | cons _ _ ih =>
    obtain ⟨first, _, stepped, formed, length⟩ := step_returns wellFormed applicable.1
    obtain ⟨later, ran⟩ := ih formed (length ▸ applicable.2)
    exact ⟨first ++ later, by rw [run, stepped, bind_some, ran]; rfl⟩

end Outputs

/-- The bytes of a generator that can be reached decode, and among any other generators the decoded
one draws what it would draw, under every sequence of operations. -/
theorem generator_round_trip {random : Blake2b512Random} (reachable : Reachable random) :
    ∃ serialized decoded, SerializedRandom.tryFrom random.toBytes = some (.ok serialized) ∧
      fromBytes serialized = some (.ok decoded) ∧
      ∀ before after operations, run (before ++ decoded :: after) operations =
          run (before ++ random :: after) operations ∧
        ((∀ other ∈ before ++ after, Reachable other) →
          Applicable (before.length + (after.length + 1)) operations →
          ∃ outputs, run (before ++ decoded :: after) operations = some outputs) := by
  obtain ⟨serialized, decoded, accepted, read, same⟩ := from_to_bytes reachable.wellFormed
  refine ⟨serialized, decoded, accepted, read, fun before after operations => ?_⟩
  have reflexive (pool : List Blake2b512Random) : List.Forall₂ Same pool pool :=
    forall₂_same.mpr fun random _ => Same.refl random
  have runs := run_same (rel_append (reflexive before)
    (List.Forall₂.cons same.symm (reflexive after))) operations
  refine ⟨runs, fun others applicable => ?_⟩
  rw [runs]
  apply run_returns
  · intro other member
    rcases mem_append.mp member with old | later
    · exact (others other (mem_append_left _ old)).wellFormed
    · rcases mem_cons.mp later with rfl | old
      · exact reachable.wellFormed
      · exact (others other (mem_append_right _ old)).wellFormed
  · rwa [length_append, length_cons]

theorem drawn_generator_round_trip :
    ∃ output drawn serialized decoded, (fromInit []).next = some (output, drawn) ∧
      SerializedRandom.tryFrom drawn.toBytes = some (.ok serialized) ∧
      fromBytes serialized = some (.ok decoded) ∧
      run [decoded] [.draw 0, .splitByte 0 7, .draw 1] =
        run [drawn] [.draw 0, .splitByte 0 7, .draw 1] := by
  obtain ⟨⟨output, drawn⟩, draws⟩ := next_returns (fromInit [])
  obtain ⟨serialized, decoded, accepted, read, same⟩ :=
    generator_round_trip (Reachable.draw (Reachable.seed []) draws)
  exact ⟨output, drawn, serialized, decoded, draws, accepted, read, (same [] [] _).1⟩

end Blake2b512Random

end RChain.Crypto
