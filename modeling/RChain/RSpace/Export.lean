import RChain.RSpace.NodeCodec

/-!
# Export and import of a trie

Source: `rspace/src/history/export.rs`, `rspace/src/state/mod.rs`, `rspace/src/state/exporters.rs`
and `rspace/src/state/instances.rs`.

A stored trie is walked from its root with a stack of nodes. A walk that has taken enough nodes
stops and leaves the key of the node on top, from which the stack is built again. An export is a
value, an error with its message, or `none`: a panic, or a loop that is not done when its fuel is
used up. A store is read under one key at a time. The drain loop is that of `write_to_disk`
without the stores it writes to.
-/

namespace RChain.Radix

open BitCodec Blocks Sorted

abbrev Exporting := ExceptT String Option

def panics {Value : Type} : Exporting Value := ExceptT.mk none

def unwrap {Value : Type} (value : Option Value) : Exporting Value := ExceptT.mk (value.map .ok)

def okOrElse {Value : Type} (value : Option Value) (message : String) : Exporting Value :=
  value.elim (throw message) pure

theorem Hash32.bytes_injective : Function.Injective Hash32.bytes := by
  rintro ⟨_, _⟩ ⟨_, _⟩ same
  cases same
  rfl

/-- Hashes are ordered as their bytes. -/
instance : LinearOrder Hash32 where
  le left right := left.bytes ≤ right.bytes
  lt left right := left.bytes < right.bytes
  le_refl hash := le_refl hash.bytes
  le_trans _ _ _ first second := le_trans first second
  le_antisymm _ _ below above := Hash32.bytes_injective (le_antisymm below above)
  le_total left right := le_total left.bytes right.bytes
  lt_iff_le_not_ge left right := lt_iff_le_not_ge (a := left.bytes) (b := right.bytes)
  toDecidableLE left right := inferInstanceAs (Decidable (left.bytes ≤ right.bytes))
  toDecidableEq := inferInstance
  toDecidableLT left right := inferInstanceAs (Decidable (left.bytes < right.bytes))

def toHex (bytes : List Byte) : String :=
  String.ofList (bytes.flatMap fun byte => [(byte.val / 16).digitChar, (byte.val % 16).digitChar])

def Hash32.toHex (hash : Hash32) : String := Radix.toHex hash.bytes

abbrev NodeDataReader := Hash32 → Option (List Byte)

structure ExportData where
  nodePrefixes : List (List Byte) := []
  nodeKeys : List Hash32 := []
  nodeValues : List (List Byte) := []
  leafPrefixes : List (List Byte) := []
  leafValues : List Hash32 := []
deriving DecidableEq

/-- Which streams are collected. -/
structure ExportDataSettings where
  flagNodePrefixes : Bool
  flagNodeKeys : Bool
  flagNodeValues : Bool
  flagLeafPrefixes : Bool
  flagLeafValues : Bool

structure NodeData where
  keyPrefix : List Byte
  decoded : Node Hash32
  lastItemIndex : Option Byte

structure StepData where
  path : List NodeData
  skip : Int32
  take : Int32
  expData : ExportData

def errNotFound (keyPrefix : List Byte) : String :=
  s!"Export error: node with prefix {toHex keyPrefix} not found."

def decodeNode (bytes : List Byte) : Exporting (Node Hash32) := do
  let serialized ← ExceptT.mk (SerializedNode.tryFrom bytes)
  unwrap serialized.decode

section Walk

variable (getNodeData : NodeDataReader)

def initNodePath : Nat → Hash32 → List Byte → List Byte → List NodeData →
    Exporting (List NodeData)
  | 0, _, _, _, _ => panics
  | fuel + 1, hash, nodePrefix, restPrefix, path => do
    let nodeBytes ← okOrElse (getNodeData hash)
      s!"Export error: node with key {hash.toHex} not found."
    let node ← decodeNode nodeBytes
    match restPrefix with
    | [] => pure (⟨nodePrefix, node, none⟩ :: path)
    | itemIdx :: tail =>
      match node itemIdx with
      | .nodePtr ptrPrefix ptr =>
        match commonPrefix tail ptrPrefix with
        | (prefixCommon, prefixRest, []) =>
          initNodePath fuel ptr (nodePrefix ++ [itemIdx] ++ prefixCommon) prefixRest
            (⟨nodePrefix, node, some itemIdx⟩ :: path)
        | _ => panics
      | _ => throw (errNotFound (nodePrefix ++ restPrefix))

variable (settings : ExportDataSettings)

/-- The slots of a node behind the last one that was visited. -/
def slotsAfter (lastIdx : Option Byte) : List Byte :=
  (List.finRange 256).drop (lastIdx.elim 0 fun idx => idx.val + 1)

def visits : Item Hash32 → Bool
  | .empty => false
  | .leaf _ _ => settings.flagLeafPrefixes || settings.flagLeafValues
  | .nodePtr _ _ => true

def findNextNonEmptyItem (node : Node Hash32) (lastIdx : Option Byte) :
    Option (Byte × Item Hash32) :=
  ((slotsAfter lastIdx).find? fun idx => visits settings (node idx)).map fun idx => (idx, node idx)

def pushIf {Value : Type} (flag : Bool) (values : List Value) (value : Value) : List Value :=
  if flag then values ++ [value] else values

def addLeaf (p : StepData) (leafPrefix : List Byte) (leafHash : Hash32) (itemIndex : Byte)
    (curNodePrefix : List Byte) (newPath : List NodeData) : StepData :=
  if 0 < p.skip then { p with path := newPath }
  else
    { p with
      path := newPath
      expData := { p.expData with
        leafPrefixes := pushIf settings.flagLeafPrefixes p.expData.leafPrefixes
          (curNodePrefix ++ [itemIndex] ++ leafPrefix)
        leafValues := pushIf settings.flagLeafValues p.expData.leafValues leafHash } }

def addNodePtr (p : StepData) (ptrPrefix : List Byte) (ptr : Hash32) (itemIndex : Byte)
    (curNodePrefix : List Byte) (newPath : List NodeData) : Exporting StepData := do
  let childBytes ← okOrElse (getNodeData ptr)
    s!"Export error: Node with key {ptr.toHex} not found"
  let childDecoded ← decodeNode childBytes
  let childNp := curNodePrefix ++ [itemIndex] ++ ptrPrefix
  let childPath := ⟨childNp, childDecoded, none⟩ :: newPath
  if 0 < p.skip then pure { p with path := childPath, skip := p.skip - 1 }
  else
    pure
      { p with
        path := childPath
        take := p.take - 1
        expData := { p.expData with
          nodePrefixes := pushIf settings.flagNodePrefixes p.expData.nodePrefixes childNp
          nodeKeys := pushIf settings.flagNodeKeys p.expData.nodeKeys ptr
          nodeValues := pushIf settings.flagNodeValues p.expData.nodeValues childBytes } }

def addElement (p : StepData) (itemIndex : Byte) (item : Item Hash32) (curNode : Node Hash32)
    (curNodePrefix : List Byte) : Exporting StepData :=
  let newPath := ⟨curNodePrefix, curNode, some itemIndex⟩ :: p.path.tail
  match item with
  | .empty => pure { p with path := newPath }
  | .leaf leafPrefix value =>
    pure (addLeaf settings p leafPrefix value itemIndex curNodePrefix newPath)
  | .nodePtr ptrPrefix ptr =>
    addNodePtr getNodeData settings p ptrPrefix ptr itemIndex curNodePrefix newPath

inductive ExportStep where
  | proceed (next : StepData)
  | done (data : ExportData) (lastPrefix : Option (List Byte))

def exportStep (p : StepData) : Exporting ExportStep :=
  match p.path with
  | [] => pure (.done p.expData none)
  | curNodeData :: rest =>
    if p.skip = 0 ∧ p.take = 0 then pure (.done p.expData (some curNodeData.keyPrefix))
    else
      match findNextNonEmptyItem settings curNodeData.decoded curNodeData.lastItemIndex with
      | some (itemIndex, item) =>
        .proceed <$> addElement getNodeData settings p itemIndex item curNodeData.decoded
          curNodeData.keyPrefix
      | none => pure (.proceed { p with path := rest })

/-- The loop of `sequential_export`. -/
def exportLoop : Nat → StepData → Exporting (ExportData × Option (List Byte))
  | 0, _ => panics
  | fuel + 1, p => do
    match ← exportStep getNodeData settings p with
    | .proceed next => exportLoop fuel next
    | .done data lastPrefix => pure (data, lastPrefix)

def rootExportData (rootHash : Hash32) (rootNodeSer : List Byte) : ExportData where
  nodePrefixes := pushIf settings.flagNodePrefixes [] []
  nodeKeys := pushIf settings.flagNodeKeys [] rootHash
  nodeValues := pushIf settings.flagNodeValues [] rootNodeSer

def sequentialExport (fuel : Nat) (rootHash : Hash32) (lastPrefix : Option (List Byte))
    (skipSize takeSize : Int32) : Exporting (ExportData × Option (List Byte)) :=
  if skipSize = 0 ∧ takeSize = 0 then
    throw "Export error: invalid initial conditions (skipSize, takeSize)==(0,0)."
  else
    match getNodeData rootHash with
    | none => pure ({}, none)
    | some rootNodeSer => do
      let start := lastPrefix.getD []
      let path ← initNodePath getNodeData (start.length + 1) rootHash [] start []
      exportLoop getNodeData settings fuel <|
        if lastPrefix.isSome then ⟨path, skipSize, takeSize, {}⟩
        else if 0 < skipSize then ⟨path, skipSize - 1, takeSize, {}⟩
        else ⟨path, skipSize, takeSize - 1, rootExportData settings rootHash rootNodeSer⟩

end Walk

abbrev PathItem := Hash32 × Option Byte

structure TrieNode where
  hash : Hash32
  isLeaf : Bool
  path : List PathItem
deriving DecidableEq

def createLastPrefix : List Hash32 → Except String (Option (List Byte))
  | [] => .ok none
  | size :: first :: second :: third :: fourth :: _ =>
    let sizePrefix := (size.bytes.headD 0).val
    if 128 < sizePrefix then
      .error s!"Invalid path during export: prefix size {sizePrefix} exceeds 128."
    else
      .ok (some ((first.bytes ++ second.bytes ++ third.bytes ++ fourth.bytes).take sizePrefix))
  | _ => .error "Invalid path during export: expected 5 prefix hashes."

def constructNodes (leafKeys nodeKeys : List Hash32) : List TrieNode :=
  leafKeys.map (fun k => ⟨k, true, []⟩) ++ nodeKeys.map fun k => ⟨k, false, []⟩

/-- Write the key of the last node, of 128 bytes at most, as a path. -/
def constructLastPath (lastPrefix : List Byte) (rootHash : Hash32) : Option (List PathItem) :=
  if 128 < lastPrefix.length then none
  else do
    let prefix128 := lastPrefix ++ List.replicate (128 - lastPrefix.length) 0
    let size ← Hash32.fromByteArray (Fin.ofNat 256 lastPrefix.length :: List.replicate 31 0)
    let parts ← [0, 32, 64, 96].mapM fun start =>
      (slice prefix128 start (start + 32)).bind Hash32.fromByteArray
    some ((rootHash, none) :: (size, none) :: parts.map fun part => (part, none))

def constructLastNode (lastHash : Hash32) (lastPath : List PathItem) : List TrieNode :=
  [⟨lastHash, false, lastPath⟩]

def traverseSettings : ExportDataSettings where
  flagNodePrefixes := false
  flagNodeKeys := true
  flagNodeValues := false
  flagLeafPrefixes := false
  flagLeafValues := true

def traverseHistory (fuel : Nat) (startPath : List PathItem) (skip take : Int32)
    (getFromHistory : NodeDataReader) : Exporting (List TrieNode) :=
  match startPath.map (·.1) with
  | [] => pure []
  | rootHash :: prefixSeq => do
    let lastPrefix ← ExceptT.mk (some (createLastPrefix prefixSeq))
    let (data, newLastPrefix) ←
      sequentialExport getFromHistory traverseSettings fuel rootHash lastPrefix skip take
    let nodes := (constructNodes data.leafValues data.nodeKeys).dropLast
    let lastPath ← unwrap (newLastPrefix.elim (some []) fun last =>
      constructLastPath last rootHash)
    let lastHistoryNode := data.nodeKeys.getLast?.elim [] fun lastHash =>
      constructLastNode lastHash lastPath
    pure (nodes ++ lastHistoryNode)

/-- An exporter over byte stores. -/
structure RSpaceExporterStore where
  historyStore : NodeDataReader
  valueStore : NodeDataReader

def getItems (store : NodeDataReader) (keys : List Hash32) : List (Hash32 × List Byte) :=
  keys.filterMap fun key => (store key).map fun bytes => (key, bytes)

/-- An error of the traversal is an empty list. -/
def RSpaceExporterStore.getNodes (exporter : RSpaceExporterStore) (fuel : Nat)
    (startPath : List PathItem) (skip take : Nat) : Option (List TrieNode) :=
  (traverseHistory fuel startPath (Int32.ofNat skip) (Int32.ofNat take)
    exporter.historyStore).run.map fun nodes => nodes.toOption.getD []

structure StoreItems where
  items : List (Hash32 × List Byte)
  lastPath : List PathItem
deriving DecidableEq

/-- One chunk of history and data items, and the path to resume at. -/
def getHistoryAndData (exporter : RSpaceExporterStore) (fuel : Nat) (startPath : List PathItem)
    (skip take : Nat) : Exporting (StoreItems × StoreItems) := do
  let nodes ← unwrap (exporter.getNodes fuel startPath skip take)
  let last ← okOrElse nodes.getLast? "EmptyHistoryException"
  let leafs := nodes.filter fun n => n.isLeaf
  let nonLeafs := nodes.filter fun n => !n.isLeaf
  let historyKeys := elements (nonLeafs.map (·.hash)).toFinset
  let dataKeys := elements (leafs.map (·.hash)).toFinset
  let historyItems := getItems exporter.historyStore historyKeys
  let dataItems := getItems exporter.valueStore dataKeys
  let lastPath := last.path ++ [(last.hash, none)]
  pure (⟨historyItems, lastPath⟩, ⟨dataItems, lastPath⟩)

/-- The chunks that are exported from a path to the end, in a row. -/
def drain (exporter : RSpaceExporterStore) (chunkSize : Nat) (fuel : Nat) :
    Nat → List PathItem → Exporting (List (Hash32 × List Byte) × List (Hash32 × List Byte))
  | 0, _ => panics
  | rounds + 1, startPath => do
    let (history, data) ← getHistoryAndData exporter fuel startPath 0 chunkSize
    if history.items.length < chunkSize then pure (history.items, data.items)
    else
      let (laterHistory, laterData) ← drain exporter chunkSize fuel rounds history.lastPath
      pure (history.items ++ laterHistory, data.items ++ laterData)

section Import

variable (create : List Byte → Hash32)

def checkHash (message : String → String → String) (item : Hash32 × List Byte) :
    Except String Unit :=
  if item.1 ≠ create item.2 then .error (message item.1.toHex (create item.2).toHex) else .ok ()

/-- The received nodes by their hashes, before those that the importer has. -/
def receivedOr (historyItems : List (Hash32 × List Byte)) (getFromHistory : NodeDataReader) :
    NodeDataReader :=
  historyItems.foldl (fun read item => Function.update read item.1 (some item.2)) getFromHistory

def validateStateItems (fuel : Nat) (historyItems dataItems : List (Hash32 × List Byte))
    (startPath : List PathItem) (chunkSize skip : Int32) (getFromHistory : NodeDataReader) :
    Exporting Unit := do
  let received := Int32.ofNat historyItems.length
  if ¬ (received = chunkSize ∨ received < chunkSize) then
    throw (s!"Input size of history items is not valid. Expected chunk size {chunkSize.toInt}, " ++
      s!"received {received.toInt}.")
  else
    ExceptT.mk <| some <| historyItems.forM <| checkHash create fun key decoded =>
      s!"Trie hash does not match decoded trie, key: {key}, decoded: {decoded}."
    let nodes ← traverseHistory fuel startPath skip chunkSize
      (receivedOr historyItems getFromHistory)
    let dataKeys := (nodes.filter fun n => n.isLeaf).map (·.hash)
    let historyKeys := (nodes.filter fun n => !n.isLeaf).map (·.hash)
    if historyItems.map (·.1) ≠ historyKeys then throw "History items are corrupted."
    else if dataItems.map (·.1) ≠ dataKeys then throw "Data items are corrupted."
    else
      ExceptT.mk <| some <| dataItems.forM <| checkHash create fun key decoded =>
        s!"Data hash does not match decoded data, key: {key}, decoded: {decoded}."

end Import

end RChain.Radix
