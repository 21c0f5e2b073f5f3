import Mathlib.Data.Finmap
import Mathlib.Data.Fintype.Pi
import RChain.Lib.Sorted
import RChain.RSpace.History

/-!
# The radix tree of the history

Source: `rspace/src/history/radix_tree.rs`, `rspace/src/history/key_segment.rs` and
`rspace/src/history/instances/radix_history.rs`.

A node is a function from the 256 byte values to its slots. As in the hashing model, a hash
is read back from the front of a byte string, in place of a slice of 32 bytes; the checks of
`SerializedNode::try_from` and `decode`, which walk the same records, are one reader. A
panic is an error, and its text leaves out the hash that is printed. The recursions are
bounded by the length of a key.
-/

namespace RChain.Radix

open BitCodec Sorted TupleSpace

/-- A slot of a node. -/
inductive Item (Hash : Type) where
  | empty
  | leaf (segment : List Byte) (value : Hash)
  | nodePtr (segment : List Byte) (ptr : Hash)
deriving DecidableEq

abbrev Node (Hash : Type) := Byte → Item Hash

def emptyNode {Hash : Type} : Node Hash := fun _ => .empty

/-- The common front of two segments and their remainders. -/
def commonPrefix : List Byte → List Byte → List Byte × List Byte × List Byte
  | a :: as, b :: bs =>
    if a = b then
      let (common, left, right) := commonPrefix as bs
      (a :: common, left, right)
    else ([], a :: as, b :: bs)
  | as, bs => ([], as, bs)

section Codec

variable {Hash : Type} (blake : Blake2b256 Hash)

/-- The record of a slot: the index, a byte with the kind and the length, the segment, the hash. -/
def encodeItem (idx : Byte) : Item Hash → List Byte
  | .empty => []
  | .leaf segment value =>
    idx :: Fin.ofNat 256 (segment.length % 128) :: (segment ++ blake.asBytes value)
  | .nodePtr segment ptr =>
    idx :: Fin.ofNat 256 (128 + segment.length % 128) :: (segment ++ blake.asBytes ptr)

def encode (node : Node Hash) : List Byte :=
  (List.finRange 256).flatMap fun idx => encodeItem blake idx (node idx)

/-- Read a record whose index has not been seen. -/
def readRecord (seen : List Byte) : List Byte → Except String ((Byte × Item Hash) × List Byte)
  | idx :: second :: rest =>
    let size := second.val % 128
    if idx ∈ seen then .error s!"duplicate item index {idx.val}"
    else if rest.length < size then .error "truncated radix node prefix"
    else
      match blake.fromBytes (rest.drop size) with
      | none => .error "truncated radix node value"
      | some (value, others) =>
        .ok ((idx, if second.val < 128 then .leaf (rest.take size) value
          else .nodePtr (rest.take size) value), others)
  | _ => .error "truncated radix node header"

def readRecords : Nat → List Byte → List Byte → Except String (List (Byte × Item Hash))
  | _, _, [] => .ok []
  | 0, _, _ => .error "out of fuel"
  | fuel + 1, seen, bytes => do
    let (record, rest) ← readRecord blake seen bytes
    let others ← readRecords fuel (record.1 :: seen) rest
    pure (record :: others)

def decode (bytes : List Byte) : Except String (Node Hash) := do
  let records ← readRecords blake bytes.length [] bytes
  pure (records.foldl (fun node record => Function.update node record.1 record.2) emptyNode)

def hashNode (node : Node Hash) : Hash := blake.create (encode blake node)

end Codec

/-- The tree behind a history: the store, the nodes that were read or saved, and the encodings
that wait for the commit. -/
structure RadixTree (Hash : Type) where
  store : Hash → Option (List Byte)
  cacheRead : Hash → Option (Node Hash)
  cacheWrite : Finmap fun _ : Hash => List Byte

abbrev RadixM (Hash Value : Type) := StateT (RadixTree Hash) (Except String) Value

def stop {Hash Value : Type} (message : String) : RadixM Hash Value := fun _ => .error message

def outOfBounds : String := "index out of bounds"

/-- `opt.map(..)` with a function that saves nodes. -/
def mapItem {Hash Left Right : Type} (f : Left → RadixM Hash Right) :
    Option Left → RadixM Hash (Option Right)
  | none => pure none
  | some value => some <$> f value

section Tree

variable {Hash : Type} [LinearOrder Hash] (blake : Blake2b256 Hash)

def loadNode (ptr : Hash) (noAssert : Bool) : RadixM Hash (Node Hash) := fun tree =>
  match tree.cacheRead ptr with
  | some node => .ok (node, tree)
  | none =>
    match (tree.store ptr).map (decode blake) with
    | some (.ok node) =>
      .ok (node, { tree with cacheRead := Function.update tree.cacheRead ptr (some node) })
    | none => if noAssert then .ok (emptyNode, tree) else .error "Missing node in database."
    | some (.error e) => if noAssert then .ok (emptyNode, tree) else .error s!"Corrupt node: {e}"

/-- Encode and hash a node, and keep it for a later commit. -/
def saveNode (node : Node Hash) : RadixM Hash Hash := fun tree =>
  let hash := hashNode blake node
  let cacheWrite := tree.cacheWrite.insert hash (encode blake node)
  match tree.cacheRead hash with
  | some existing =>
    if existing = node then .ok (hash, { tree with cacheWrite })
    else .error "Collision in cache: record has already existed."
  | none =>
    .ok (hash, { tree with
      cacheRead := Function.update tree.cacheRead hash (some node)
      cacheWrite })

/-- Write what waits to the store; a different value under a hash is a collision. -/
def commit : RadixM Hash PUnit := fun tree =>
  if ∀ hash ∈ tree.cacheWrite.keys, ∀ stored ∈ tree.store hash,
      tree.cacheWrite.lookup hash = some stored then
    .ok (⟨⟩, { tree with store := fun hash => (tree.store hash).or (tree.cacheWrite.lookup hash) })
  else .error "collision in KVDB"

def clearWriteCache : RadixM Hash PUnit := fun tree => .ok (⟨⟩, { tree with cacheWrite := ∅ })

def readFrom : Nat → Node Hash → List Byte → RadixM Hash (Option Hash)
  | 0, _, _ => stop "out of fuel"
  | _ + 1, _, [] => pure none
  | fuel + 1, node, first :: tail =>
    match node first with
    | .empty => pure none
    | .leaf leafSegment value => pure (if leafSegment = tail then some value else none)
    | .nodePtr ptrSegment ptr =>
      match commonPrefix tail ptrSegment with
      | (_, rest, []) => do
        let next ← loadNode blake ptr false
        readFrom fuel next rest
      | _ => pure none

def createNodeFromItem : Item Hash → RadixM Hash (Node Hash)
  | .empty => pure emptyNode
  | .leaf (first :: tail) value => pure (Function.update emptyNode first (.leaf tail value))
  | .nodePtr (first :: tail) ptr => pure (Function.update emptyNode first (.nodePtr tail ptr))
  | .leaf [] _ => stop "LeafPrefix should be non empty."
  | .nodePtr [] _ => stop "NodePtrPrefix should be non empty."

/-- The item of a node under a segment. Compaction drops an empty node and skips a node with one
item. -/
def saveNodeAndCreateItem (node : Node Hash) (segment : List Byte) (compaction : Bool) :
    RadixM Hash (Item Hash) :=
  let saved : RadixM Hash (Item Hash) := do
    let ptr ← saveNode blake node
    pure (.nodePtr segment ptr)
  if compaction then
    match (List.finRange 256).filter fun idx => node idx ≠ .empty with
    | [] => pure .empty
    | [idx] =>
      match node idx with
      | .empty => pure .empty
      | .leaf leafSegment value => pure (.leaf (segment ++ [idx] ++ leafSegment) value)
      | .nodePtr ptrSegment ptr => pure (.nodePtr (segment ++ [idx] ++ ptrSegment) ptr)
    | _ => saved
  else saved

def constructNodeFromItem : Item Hash → RadixM Hash (Node Hash)
  | .nodePtr [] ptr => loadNode blake ptr false
  | item => createNodeFromItem item

/-- Insert a leaf below an item; `none` when nothing changes. -/
def update : Nat → Item Hash → List Byte → Hash → RadixM Hash (Option (Item Hash))
  | 0, _, _, _ => stop "out of fuel"
  | _ + 1, .empty, insSegment, insValue => pure (some (.leaf insSegment insValue))
  | _ + 1, .leaf leafSegment leafValue, insSegment, insValue =>
    if leafSegment.length ≠ insSegment.length then
      stop "The length of all prefixes in the subtree must be the same."
    else if leafSegment = insSegment then
      pure (if insValue = leafValue then none else some (.leaf insSegment insValue))
    else
      match commonPrefix insSegment leafSegment with
      | (common, insFirst :: insTail, leafFirst :: leafTail) => some <$>
          saveNodeAndCreateItem blake
            (Function.update (Function.update emptyNode leafFirst (.leaf leafTail leafValue))
              insFirst (.leaf insTail insValue)) common false
      | _ => stop outOfBounds
  | fuel + 1, .nodePtr ptrSegment ptr, insSegment, insValue =>
    if ¬ ptrSegment.length < insSegment.length then
      stop "Radix key should be longer than NodePtr key."
    else
      match commonPrefix insSegment ptrSegment with
      | (common, insFirst :: insTail, []) => do
        let childNode ← loadNode blake ptr false
        let childItem ← update fuel (childNode insFirst) insTail insValue
        mapItem (fun newItem => saveNodeAndCreateItem blake
          (Function.update childNode insFirst newItem) common false) childItem
      | (common, insFirst :: insTail, ptrFirst :: ptrTail) => some <$>
          saveNodeAndCreateItem blake
            (Function.update (Function.update emptyNode ptrFirst (.nodePtr ptrTail ptr))
              insFirst (.leaf insTail insValue)) common false
      | _ => stop outOfBounds

/-- Delete a leaf below an item; `none` when nothing changes. -/
def delete : Nat → Item Hash → List Byte → RadixM Hash (Option (Item Hash))
  | 0, _, _ => stop "out of fuel"
  | _ + 1, .empty, _ => pure none
  | _ + 1, .leaf leafSegment _, delSegment =>
    pure (if leafSegment = delSegment then some .empty else none)
  | fuel + 1, .nodePtr ptrSegment ptr, delSegment =>
    match commonPrefix delSegment ptrSegment with
    | (common, delFirst :: delTail, []) => do
      let childNode ← loadNode blake ptr false
      let childItem ← delete fuel (childNode delFirst) delTail
      mapItem (fun newItem => saveNodeAndCreateItem blake
        (Function.update childNode delFirst newItem) common true) childItem
    | _ => pure none

/-- Add an action to the group of the first byte of its key. -/
def pushGroup (grouped : List (Byte × List (HistoryAction Hash))) (first : Byte)
    (action : HistoryAction Hash) : List (Byte × List (HistoryAction Hash)) :=
  if first ∈ grouped.map (·.1) then
    grouped.map fun group => if group.1 = first then (group.1, group.2 ++ [action]) else group
  else grouped ++ [(first, [action])]

def groupActions (grouped : List (Byte × List (HistoryAction Hash))) :
    List (HistoryAction Hash) → RadixM Hash (List (Byte × List (HistoryAction Hash)))
  | [] => pure grouped
  | action :: actions =>
    match action.key with
    | [] => stop outOfBounds
    | first :: _ => groupActions (pushGroup grouped first action) actions

def trim : HistoryAction Hash → HistoryAction Hash
  | .insert key hash => .insert key.tail hash
  | .delete key => .delete key.tail

def isInsert : HistoryAction Hash → Bool
  | .insert _ _ => true
  | .delete _ => false

def applyAction (item : Item Hash) : HistoryAction Hash → RadixM Hash (Option (Item Hash))
  | .insert key hash => update blake key.length item key.tail hash
  | .delete key => delete blake key.length item key.tail

/-- The new item of a slot after the actions of its group. -/
def groupItem (makeActions : Node Hash → List (HistoryAction Hash) → RadixM Hash (Option (Node Hash)))
    (item : Item Hash) (actions : List (HistoryAction Hash)) : RadixM Hash (Option (Item Hash)) :=
  match actions with
  | [action] => applyAction blake item action
  | _ =>
    if item = .empty ∧ ¬ actions.any isInsert then pure none
    else do
      let createdNode ← constructNodeFromItem blake item
      let newNode ← makeActions createdNode (actions.map trim)
      mapItem (fun node => saveNodeAndCreateItem blake node [] true) newNode

def replaceItems (node : Node Hash) (newItems : List (Byte × Option (Item Hash))) : Node Hash :=
  newItems.foldl (fun node entry =>
    match entry.2 with
    | some item => Function.update node entry.1 item
    | none => node) node

/-- Apply a batch of actions below a node; `none` when nothing changes. -/
def makeActions : Nat → Node Hash → List (HistoryAction Hash) → RadixM Hash (Option (Node Hash))
  | 0, _, _ => stop "out of fuel"
  | fuel + 1, curNode, actions => do
    let grouped ← groupActions [] actions
    let newItems ← grouped.mapM fun group => do
      let item ← groupItem blake (makeActions fuel) (curNode group.1) group.2
      pure (group.1, item)
    let newNode := replaceItems curNode newItems
    pure (if newNode ≠ curNode then some newNode else none)

/-- The bound of the recursion: no key is longer. -/
def depthOf (actions : List (HistoryAction Hash)) : Nat :=
  (actions.map fun action => action.key.length).foldl max 0

def saveAndCommit (rootNode : Node Hash) (actions : List (HistoryAction Hash)) :
    RadixM Hash (Option (Node Hash × Hash)) := do
  let newRoot ← makeActions blake (depthOf actions + 1) rootNode actions
  match newRoot with
  | some node => do
    let hash ← saveNode blake node
    commit
    clearWriteCache
    pure (some (node, hash))
  | none => do
    clearWriteCache
    pure none

end Tree

/-- A history at a root. -/
structure RadixHistory (Hash : Type) where
  rootHash : Hash
  rootNode : Node Hash
  impl : RadixTree Hash

section History

variable {Hash : Type} [LinearOrder Hash] (blake : Blake2b256 Hash)

def RadixHistory.empty : RadixHistory Hash where
  rootHash := hashNode blake emptyNode
  rootNode := emptyNode
  impl := ⟨fun _ => none, fun _ => none, ∅⟩

def RadixHistory.read (history : RadixHistory Hash) (key : List Byte) :
    Except String (Option Hash) :=
  ((readFrom blake (key.length + 1) history.rootNode key).run history.impl).map (·.1)

def RadixHistory.process (history : RadixHistory Hash) (actions : List (HistoryAction Hash)) :
    Except String (RadixHistory Hash) :=
  if hasNoDuplicates actions then
    match (saveAndCommit blake history.rootNode actions).run history.impl with
    | .error e => .error e
    | .ok (result, tree) =>
      let impl := { tree with cacheRead := fun _ => none }
      match result with
      | some (newRootNode, newRootHash) => .ok ⟨newRootHash, newRootNode, impl⟩
      | none => .ok { history with impl }
  else .error "Cannot process duplicate actions on one key."

def RadixHistory.processAll (history : RadixHistory Hash) :
    List (List (HistoryAction Hash)) → Except String (RadixHistory Hash)
  | [] => .ok history
  | actions :: batches => do
    let next ← history.process blake actions
    next.processAll batches

end History

end RChain.Radix
