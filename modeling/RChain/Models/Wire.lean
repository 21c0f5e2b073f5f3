import Mathlib.Data.Nat.Size
import Mathlib.Tactic.Zify
import RChain.Models.BitSet

/-!
# Terms on the wire

Source: `models/src/wire.rs`, the messages of `models/proto/RhoTypes.proto` and
`models/src/errors.rs`.

The messages are in layers like the terms. A message field that holds a message may be missing,
and a repeated field may not. The integers of `num_bigint` are written as its documentation says,
in two's complement with the highest byte first and as short as possible. Reading a message back
descends with a bound on its depth; out of the bound is `none`.
-/

namespace RChain.Models

open BitCodec Blocks
open List (forall_mem_cons map_map mem_cons_self mem_map_of_mem)

/-- The errors of the models crate that the conversions return. -/
inductive ModelsError where
  | decode (message : String)
  | malformed (field : String)
deriving DecidableEq

namespace Proto

inductive VarInstance where
  | boundVar (level : Int32)
  | freeVar (level : Int32)
  | wildcard

structure Var where
  varInstance : Option VarInstance

structure Send (P : Type) where
  chan : Option P
  data : List P
  persistent : Bool
  locallyFree : List Byte
  connectiveUsed : Bool

structure ReceiveBind (P : Type) where
  patterns : List P
  source : Option P
  remainder : Option Var
  freeCount : Int32

structure Receive (P : Type) where
  binds : List (ReceiveBind P)
  body : Option P
  persistent : Bool
  peek : Bool
  bindCount : Int32
  locallyFree : List Byte
  connectiveUsed : Bool

/-- The injections are an ordered map. -/
structure New (P : Type) where
  bindCount : Int32
  p : Option P
  uri : List String
  injections : List (String × P)
  locallyFree : List Byte

structure MatchCase (P : Type) where
  pattern : Option P
  source : Option P
  freeCount : Int32

structure Match (P : Type) where
  target : Option P
  cases : List (MatchCase P)
  locallyFree : List Byte
  connectiveUsed : Bool

structure Bundle (P : Type) where
  body : Option P
  writeFlag : Bool
  readFlag : Bool

structure EList (P : Type) where
  ps : List P
  locallyFree : List Byte
  connectiveUsed : Bool
  remainder : Option Var

structure ETuple (P : Type) where
  ps : List P
  locallyFree : List Byte
  connectiveUsed : Bool

structure ESet (P : Type) where
  ps : List P
  locallyFree : List Byte
  connectiveUsed : Bool
  remainder : Option Var

structure KeyValuePair (P : Type) where
  key : Option P
  value : Option P

structure EMap (P : Type) where
  kvs : List (KeyValuePair P)
  locallyFree : List Byte
  connectiveUsed : Bool
  remainder : Option Var

structure EMethod (P : Type) where
  methodName : String
  target : Option P
  arguments : List P
  locallyFree : List Byte
  connectiveUsed : Bool

/-- The messages of operators with the same fields are one constructor. -/
inductive ExprInstance (P : Type) where
  | gBool (value : Bool)
  | gInt (value : Int64)
  | gBigInt (value : List Byte)
  | gString (value : String)
  | gUri (value : String)
  | gByteArray (value : List Byte)
  | unary (op : UnaryOp) (p : Option P)
  | eVar (v : Option Var)
  | binary (op : BinaryOp) (p1 p2 : Option P)
  | eList (list : EList P)
  | eTuple (tuple : ETuple P)
  | eSet (set : ESet P)
  | eMap (map : EMap P)
  | eMethod (method : EMethod P)

structure Expr (P : Type) where
  exprInstance : Option (ExprInstance P)

inductive UnfInstance where
  | gPrivate (id : List Byte)
  | gDeployId (sig : List Byte)
  | gDeployerId (publicKey : List Byte)
  | gSysAuthToken

structure GUnforgeable where
  unfInstance : Option UnfInstance

inductive ConnectiveInstance (P : Type) where
  | connAnd (ps : List P)
  | connOr (ps : List P)
  | connNot (p : P)
  | varRef (index depth : Int32)
  | simpleType (kind : ConnType) (used : Bool)

structure Connective (P : Type) where
  connectiveInstance : Option (ConnectiveInstance P)

structure Layer (P : Type) where
  sends : List (Send P)
  receives : List (Receive P)
  news : List (New P)
  exprs : List (Expr P)
  matches_ : List (Match P)
  unforgeables : List GUnforgeable
  bundles : List (Bundle P)
  connectives : List (Connective P)
  locallyFree : List Byte
  connectiveUsed : Bool

inductive Par where
  | mk (layer : Layer Par)

end Proto

section Values

/-- The bytes that `to_signed_bytes_be` needs, with a bit for the sign. -/
def signedWidth (value : Int) : Nat :=
  (if 0 ≤ value then value.toNat else (-value - 1).toNat).size / 8 + 1

def toSignedBytesBe (value : Int) : List Byte :=
  (toLeBytes (signedWidth value) (value % 256 ^ signedWidth value).toNat).reverse

def fromSignedBytesBe (bytes : List Byte) : Int :=
  let value := fromLeBytes bytes.reverse
  if 2 * value < 256 ^ bytes.length then value else value - 256 ^ bytes.length

variable {Value : Type}

def insertEntry (key : String) (value : Value) : List (String × Value) → List (String × Value)
  | [] => [(key, value)]
  | entry :: entries =>
    if key < entry.1 then (key, value) :: entry :: entries
    else if key = entry.1 then (key, value) :: entries
    else entry :: insertEntry key value entries

/-- `collect` into an ordered map. -/
def collectMap (entries : List (String × Value)) : List (String × Value) :=
  entries.foldl (fun map entry => insertEntry entry.1 entry.2 map) []

end Values

section ToProto

variable {P : Type}

def varToProto : Var → Proto.Var
  | .boundVar level => ⟨some (.boundVar level)⟩
  | .freeVar level => ⟨some (.freeVar level)⟩
  | .wildcard => ⟨some .wildcard⟩
  | .empty => ⟨none⟩

def connectiveToProto : Connective P → Proto.Connective P
  | .connAnd ps => ⟨some (.connAnd ps)⟩
  | .connOr ps => ⟨some (.connOr ps)⟩
  | .connNot p => ⟨some (.connNot p)⟩
  | .varRef index depth => ⟨some (.varRef index depth)⟩
  | .simpleType kind used => ⟨some (.simpleType kind used)⟩
  | .empty => ⟨none⟩

def unforgeableToProto : GUnforgeable → Proto.GUnforgeable
  | .gPrivate id => ⟨some (.gPrivate id)⟩
  | .gDeployId sig => ⟨some (.gDeployId sig)⟩
  | .gDeployerId publicKey => ⟨some (.gDeployerId publicKey)⟩
  | .gSysAuthToken => ⟨some .gSysAuthToken⟩
  | .empty => ⟨none⟩

def elistToProto (el : EList P) : Proto.EList P where
  ps := el.ps
  locallyFree := bitsetToBytes el.locallyFree
  connectiveUsed := el.connectiveUsed
  remainder := el.remainder.map varToProto

def etupleToProto (et : ETuple P) : Proto.ETuple P where
  ps := et.ps
  locallyFree := bitsetToBytes et.locallyFree
  connectiveUsed := et.connectiveUsed

def esetToProto (es : ParSet P) : Proto.ESet P where
  ps := es.ps
  locallyFree := bitsetToBytes es.locallyFree
  connectiveUsed := es.connectiveUsed
  remainder := es.remainder.map varToProto

def emapToProto (em : ParMap P) : Proto.EMap P where
  kvs := em.kvs.map fun kv => ⟨some kv.1, some kv.2⟩
  locallyFree := bitsetToBytes em.locallyFree
  connectiveUsed := em.connectiveUsed
  remainder := em.remainder.map varToProto

def emethodToProto (em : EMethod P) : Proto.EMethod P where
  methodName := em.methodName
  target := some em.target
  arguments := em.arguments
  locallyFree := bitsetToBytes em.locallyFree
  connectiveUsed := em.connectiveUsed

def exprToProto : Expr P → Proto.Expr P
  | .gBool value => ⟨some (.gBool value)⟩
  | .gInt value => ⟨some (.gInt value)⟩
  | .gBigInt value => ⟨some (.gBigInt (toSignedBytesBe value))⟩
  | .gString value => ⟨some (.gString value)⟩
  | .gUri value => ⟨some (.gUri value)⟩
  | .gByteArray value => ⟨some (.gByteArray value)⟩
  | .unary op p => ⟨some (.unary op (some p))⟩
  | .eVar v => ⟨some (.eVar (some (varToProto v)))⟩
  | .binary op p1 p2 => ⟨some (.binary op (some p1) (some p2))⟩
  | .eList list => ⟨some (.eList (elistToProto list))⟩
  | .eTuple tuple => ⟨some (.eTuple (etupleToProto tuple))⟩
  | .eSet set => ⟨some (.eSet (esetToProto set))⟩
  | .eMap map => ⟨some (.eMap (emapToProto map))⟩
  | .eMethod method => ⟨some (.eMethod (emethodToProto method))⟩

def sendToProto (s : Send P) : Proto.Send P where
  chan := some s.chan
  data := s.data
  persistent := s.persistent
  locallyFree := bitsetToBytes s.locallyFree
  connectiveUsed := s.connectiveUsed

def receiveBindToProto (rb : ReceiveBind P) : Proto.ReceiveBind P where
  patterns := rb.patterns
  source := some rb.source
  remainder := rb.remainder.map varToProto
  freeCount := rb.freeCount.val

def receiveToProto (r : Receive P) : Proto.Receive P where
  binds := r.binds.map receiveBindToProto
  body := some r.body
  persistent := r.persistent
  peek := r.peek
  bindCount := r.bindCount
  locallyFree := bitsetToBytes r.locallyFree
  connectiveUsed := r.connectiveUsed

def newToProto (n : New P) : Proto.New P where
  bindCount := n.bindCount
  p := some n.p
  uri := n.uri
  injections := collectMap n.injections
  locallyFree := bitsetToBytes n.locallyFree

def matchCaseToProto (mc : MatchCase P) : Proto.MatchCase P where
  pattern := some mc.pattern
  source := some mc.source
  freeCount := mc.freeCount.val

def matchToProto (m : Match P) : Proto.Match P where
  target := some m.target
  cases := m.cases.map matchCaseToProto
  locallyFree := bitsetToBytes m.locallyFree
  connectiveUsed := m.connectiveUsed

def bundleToProto (b : Bundle P) : Proto.Bundle P where
  body := some b.body
  writeFlag := b.writeFlag
  readFlag := b.readFlag

def layerToProto (layer : Layer P) : Proto.Layer P where
  sends := layer.sends.map sendToProto
  receives := layer.receives.map receiveToProto
  news := layer.news.map newToProto
  exprs := layer.exprs.map exprToProto
  matches_ := layer.matches_.map matchToProto
  unforgeables := layer.unforgeables.map unforgeableToProto
  bundles := layer.bundles.map bundleToProto
  connectives := layer.connectives.map connectiveToProto
  locallyFree := bitsetToBytes layer.locallyFree
  connectiveUsed := layer.connectiveUsed

def parToProto : Par → Proto.Par := Par.fold fun layer => .mk (layerToProto layer)

end ToProto

abbrev Decoding := ExceptT ModelsError Option

section FromProto

variable {A B : Type} (decode : A → Decoding B)

def required (field : String) (value : Option A) : Decoding B :=
  match value with
  | some value => decode value
  | none => throw (.malformed field)

def varFromProto (p : Proto.Var) : Var :=
  match p.varInstance with
  | some (.boundVar level) => .boundVar level
  | some (.freeVar level) => .freeVar level
  | some .wildcard => .wildcard
  | none => .empty

def connectiveFromProto (p : Proto.Connective A) : Decoding (Connective B) :=
  match p.connectiveInstance with
  | some (.connAnd ps) => return .connAnd (← ps.mapM decode)
  | some (.connOr ps) => return .connOr (← ps.mapM decode)
  | some (.connNot p) => return .connNot (← decode p)
  | some (.varRef index depth) => return .varRef index depth
  | some (.simpleType kind used) => return .simpleType kind used
  | none => return .empty

def unforgeableFromProto (p : Proto.GUnforgeable) : Decoding GUnforgeable :=
  match p.unfInstance with
  | some (.gPrivate id) => return .gPrivate id
  | some (.gDeployId sig) => return .gDeployId sig
  | some (.gDeployerId publicKey) => return .gDeployerId publicKey
  | some .gSysAuthToken => return .gSysAuthToken
  | none => return .empty

def elistFromProto (p : Proto.EList A) : Decoding (EList B) := do
  return {
    ps := ← p.ps.mapM decode
    locallyFree := bytesToBitset p.locallyFree
    connectiveUsed := p.connectiveUsed
    remainder := p.remainder.map varFromProto }

def etupleFromProto (p : Proto.ETuple A) : Decoding (ETuple B) := do
  return {
    ps := ← p.ps.mapM decode
    locallyFree := bytesToBitset p.locallyFree
    connectiveUsed := p.connectiveUsed }

def esetFromProto (p : Proto.ESet A) : Decoding (ParSet B) := do
  return {
    ps := ← p.ps.mapM decode
    locallyFree := bytesToBitset p.locallyFree
    connectiveUsed := p.connectiveUsed
    remainder := p.remainder.map varFromProto }

def keyValueFromProto (kv : Proto.KeyValuePair A) : Decoding (B × B) := do
  return (← required decode "key" kv.key, ← required decode "value" kv.value)

def emapFromProto (p : Proto.EMap A) : Decoding (ParMap B) := do
  return {
    kvs := ← p.kvs.mapM (keyValueFromProto decode)
    locallyFree := bytesToBitset p.locallyFree
    connectiveUsed := p.connectiveUsed
    remainder := p.remainder.map varFromProto }

def emethodFromProto (p : Proto.EMethod A) : Decoding (EMethod B) := do
  return {
    methodName := p.methodName
    target := ← required decode "target" p.target
    arguments := ← p.arguments.mapM decode
    locallyFree := bytesToBitset p.locallyFree
    connectiveUsed := p.connectiveUsed }

/-- The names of the operands, which a missing one is reported by. -/
def operandFields : BinaryOp → String × String
  | .eMatches => ("target", "pattern")
  | _ => ("p1", "p2")

def exprFromProto (p : Proto.Expr A) : Decoding (Expr B) :=
  match p.exprInstance with
  | some (.gBool value) => return .gBool value
  | some (.gInt value) => return .gInt value
  | some (.gBigInt value) => return .gBigInt (fromSignedBytesBe value)
  | some (.gString value) => return .gString value
  | some (.gUri value) => return .gUri value
  | some (.gByteArray value) => return .gByteArray value
  | some (.unary op p) => return .unary op (← required decode "p" p)
  | some (.eVar v) => return .eVar (← required (fun v => pure (varFromProto v)) "v" v)
  | some (.binary op p1 p2) => do
    let first ← required decode (operandFields op).1 p1
    let second ← required decode (operandFields op).2 p2
    return .binary op first second
  | some (.eList list) => return .eList (← elistFromProto decode list)
  | some (.eTuple tuple) => return .eTuple (← etupleFromProto decode tuple)
  | some (.eSet set) => return .eSet (← esetFromProto decode set)
  | some (.eMap map) => return .eMap (← emapFromProto decode map)
  | some (.eMethod method) => return .eMethod (← emethodFromProto decode method)
  | none => return .gBool false

def sendFromProto (p : Proto.Send A) : Decoding (Send B) := do
  return {
    chan := ← required decode "chan" p.chan
    data := ← p.data.mapM decode
    persistent := p.persistent
    locallyFree := bytesToBitset p.locallyFree
    connectiveUsed := p.connectiveUsed }

/-- `FreeCount::try_from`. -/
def freeCountTryFrom (n : Int32) : Decoding FreeCount :=
  if nonneg : 0 ≤ n then pure ⟨n, nonneg⟩
  else throw (.decode s!"negative free-count: {n.toInt}")

def receiveBindFromProto (p : Proto.ReceiveBind A) : Decoding (ReceiveBind B) := do
  return {
    patterns := ← p.patterns.mapM decode
    source := ← required decode "source" p.source
    remainder := p.remainder.map varFromProto
    freeCount := ← freeCountTryFrom p.freeCount }

def receiveFromProto (p : Proto.Receive A) : Decoding (Receive B) := do
  return {
    binds := ← p.binds.mapM (receiveBindFromProto decode)
    body := ← required decode "body" p.body
    persistent := p.persistent
    peek := p.peek
    bindCount := p.bindCount
    locallyFree := bytesToBitset p.locallyFree
    connectiveUsed := p.connectiveUsed }

def injectionFromProto (entry : String × A) : Decoding (String × B) := do
  return (entry.1, ← decode entry.2)

def newFromProto (p : Proto.New A) : Decoding (New B) := do
  return {
    bindCount := p.bindCount
    p := ← required decode "p" p.p
    uri := p.uri
    injections := collectMap (← p.injections.mapM (injectionFromProto decode))
    locallyFree := bytesToBitset p.locallyFree }

def matchCaseFromProto (p : Proto.MatchCase A) : Decoding (MatchCase B) := do
  return {
    pattern := ← required decode "pattern" p.pattern
    source := ← required decode "source" p.source
    freeCount := ← freeCountTryFrom p.freeCount }

def matchFromProto (p : Proto.Match A) : Decoding (Match B) := do
  return {
    target := ← required decode "target" p.target
    cases := ← p.cases.mapM (matchCaseFromProto decode)
    locallyFree := bytesToBitset p.locallyFree
    connectiveUsed := p.connectiveUsed }

def bundleFromProto (p : Proto.Bundle A) : Decoding (Bundle B) := do
  return {
    body := ← required decode "body" p.body
    writeFlag := p.writeFlag
    readFlag := p.readFlag }

def layerFromProto (p : Proto.Layer A) : Decoding (Layer B) := do
  return {
    sends := ← p.sends.mapM (sendFromProto decode)
    receives := ← p.receives.mapM (receiveFromProto decode)
    news := ← p.news.mapM (newFromProto decode)
    exprs := ← p.exprs.mapM (exprFromProto decode)
    matches_ := ← p.matches_.mapM (matchFromProto decode)
    unforgeables := ← p.unforgeables.mapM unforgeableFromProto
    bundles := ← p.bundles.mapM (bundleFromProto decode)
    connectives := ← p.connectives.mapM (connectiveFromProto decode)
    locallyFree := bytesToBitset p.locallyFree
    connectiveUsed := p.connectiveUsed }

end FromProto

def parFromProto : Nat → Proto.Par → Decoding Par
  | 0, _ => .mk none
  | fuel + 1, .mk layer => return .mk (← layerFromProto (parFromProto fuel) layer)

section Ready

variable {P : Type}

def Expr.frees : Expr P → List BitSet
  | .eList list => [list.locallyFree]
  | .eTuple tuple => [tuple.locallyFree]
  | .eSet set => [set.locallyFree]
  | .eMap map => [map.locallyFree]
  | .eMethod method => [method.locallyFree]
  | _ => []

def Layer.frees (layer : Layer P) : List BitSet :=
  layer.locallyFree :: (layer.sends.map Send.locallyFree ++ layer.receives.map Receive.locallyFree ++
    layer.news.map New.locallyFree ++ layer.exprs.flatMap Expr.frees ++
    layer.matches_.map Match.locallyFree)

/-- The keys of an ordered map stand in increasing order. -/
def New.Ordered (new : New P) : Prop := (new.injections.map Prod.fst).Pairwise (· < ·)

instance (new : New P) : Decidable new.Ordered :=
  inferInstanceAs (Decidable ((new.injections.map Prod.fst).Pairwise (· < ·)))

/-- Every locally-free set of the term is proper, and the injections of every `new` are the ordered
map that the source has for them. -/
inductive Par.Proper : Par → Prop where
  | mk {layer : Layer Par} (frees : ∀ bitset ∈ layer.frees, bitset.Proper)
      (ordered : ∀ new ∈ layer.news, new.Ordered)
      (below : ∀ child ∈ Container.children layer, child.Proper) : Par.Proper (.mk layer)

def Par.depth : Par → Nat := Par.fold fun layer => (Container.children layer).foldr max 0 + 1

end Ready

section Values

variable {Value Other : Type} {entries : List (String × Value)}

theorem insert_last {key : String} (value : Value) (last : ∀ entry ∈ entries, entry.1 < key) :
    insertEntry key value entries = entries ++ [(key, value)] := by
  induction entries with
  | nil => rfl
  | cons entry _ ih =>
    rw [forall_mem_cons] at last
    have apart : key ≠ entry.1 := by
      rintro rfl
      exact String.lt_irrefl _ last.1
    rw [insertEntry, if_neg (String.lt_asymm last.1), if_neg apart, ih last.2, List.cons_append]

theorem collect_ordered (ordered : (entries.map Prod.fst).Pairwise (· < ·)) :
    collectMap entries = entries := by
  have loop (later earlier : List (String × Value))
      (sorted : ((earlier ++ later).map Prod.fst).Pairwise (· < ·)) :
      later.foldl (fun map entry => insertEntry entry.1 entry.2 map) earlier = earlier ++ later := by
    induction later generalizing earlier with
    | nil => rw [List.foldl_nil, List.append_nil]
    | cons entry _ ih =>
      have last : ∀ other ∈ earlier, other.1 < entry.1 := by
        intro _ mem
        rw [List.map_append, List.pairwise_append] at sorted
        exact sorted.2.2 _ (mem_map_of_mem mem) _ mem_cons_self
      rw [List.foldl_cons, insert_last _ last, ih, List.append_assoc, List.singleton_append]
      rwa [List.append_assoc, List.singleton_append]
  exact loop entries [] ordered

theorem size_fits (magnitude : Nat) : 2 * (magnitude + 1) ≤ 256 ^ (magnitude.size / 8 + 1) := by
  have below : magnitude < 2 ^ (8 * (magnitude.size / 8 + 1) - 1) :=
    Nat.size_le.mp (by omega)
  have double : 2 ^ (8 * (magnitude.size / 8 + 1) - 1) * 2 = 256 ^ (magnitude.size / 8 + 1) := by
    rw [← Nat.pow_succ, Nat.succ_eq_add_one, Nat.sub_add_cancel (by omega), Nat.pow_mul]
  omega

theorem signed_width_bound (value : Int) : -(256 ^ signedWidth value : Nat) ≤ 2 * value ∧
    2 * value < (256 ^ signedWidth value : Nat) := by
  have fits := size_fits (if 0 ≤ value then value.toNat else (-value - 1).toNat)
  rw [← signedWidth] at fits
  split_ifs at fits <;> omega

theorem signed_bytes_round_trip (value : Int) :
    fromSignedBytesBe (toSignedBytesBe value) = value := by
  obtain ⟨_, _⟩ := signed_width_bound value
  have positive : (0 : Int) < 256 ^ signedWidth value := Int.pow_pos (by decide)
  have nonneg := Int.emod_nonneg value positive.ne'
  have small := Int.emod_lt_of_pos value positive
  have read : fromLeBytes (toSignedBytesBe value).reverse =
      (value % 256 ^ signedWidth value).toNat := by
    rw [toSignedBytesBe, List.reverse_reverse, from_to_le_bytes, Nat.mod_eq_of_lt]
    zify
    rwa [Int.toNat_of_nonneg nonneg]
  have length : (toSignedBytesBe value).length = signedWidth value := by
    rw [toSignedBytesBe, List.length_reverse, to_le_bytes_length]
  have power : ((256 ^ signedWidth value : Nat) : Int) = 256 ^ signedWidth value := by
    push_cast
    rfl
  unfold fromSignedBytesBe
  dsimp only
  rw [read, length]
  generalize (256 : Int) ^ signedWidth value = whole at *
  by_cases negative : value < 0
  · have residue : value % whole = value + whole := by
      rw [← Int.add_emod_right, Int.emod_eq_of_lt (by omega) (by omega)]
    rw [if_neg (by omega), residue]
    omega
  · have residue : value % whole = value := Int.emod_eq_of_lt (by omega) (by omega)
    rw [if_pos (by omega), residue]
    omega

end Values

section RoundTrip

variable {A B : Type} {encode : B → A} {decode : A → Decoding B}

theorem map_m_round_trip {X Y : Type} {write : X → Y} {read : Y → Decoding X} {xs : List X}
    (back : ∀ x ∈ xs, read (write x) = pure x) : (xs.map write).mapM read = pure xs := by
  induction xs with
  | nil => rfl
  | cons x _ ih =>
    rw [forall_mem_cons] at back
    rw [List.map_cons, List.mapM_cons, back.1, pure_bind, ih back.2, pure_bind]

theorem var_round_trip (v : Var) : varFromProto (varToProto v) = v := by
  cases v <;> rfl

theorem remainder_round_trip (remainder : Option Var) :
    (remainder.map varToProto).map varFromProto = remainder := by
  cases remainder with
  | none => rfl
  | some => rw [Option.map_some, Option.map_some, var_round_trip]

theorem unforgeable_round_trip (u : GUnforgeable) :
    unforgeableFromProto (unforgeableToProto u) = pure u := by
  cases u <;> rfl

theorem free_count_round_trip (count : FreeCount) : freeCountTryFrom count.val = pure count :=
  dif_pos count.property

variable {F : Type → Type} {xs : List (F B)} {layer : Layer Par}

theorem all_round_trip [Container F] {Message : Type} (write : F A → Message)
    {read : Message → Decoding (F B)}
    (back : ∀ x ∈ xs, read (write (Container.map encode x)) = pure x) :
    ((Container.mapAll encode xs).map write).mapM read = pure xs := by
  rw [Container.mapAll, map_map]
  exact map_m_round_trip back

theorem below_member [Container F] {Holds : B → Prop}
    (below : ∀ c ∈ Container.allChildren xs, Holds c) {x : F B} (mem : x ∈ xs) :
    ∀ c ∈ Container.children x, Holds c :=
  fun c inside => below c (List.mem_flatMap.mpr ⟨x, mem, inside⟩)

theorem send_round_trip {s : Send B} (proper : s.locallyFree.Proper)
    (below : ∀ c ∈ Container.children s, decode (encode c) = pure c) :
    sendFromProto decode (sendToProto (Container.map encode s)) = pure s := by
  obtain ⟨chan, data⟩ := forall_mem_cons.mp below
  simp only [sendFromProto, sendToProto, Container.map, required, chan, pure_bind,
    map_m_round_trip data, bitset_round_trip proper]

theorem receive_bind_round_trip {rb : ReceiveBind B}
    (below : ∀ c ∈ Container.children rb, decode (encode c) = pure c) :
    receiveBindFromProto decode (receiveBindToProto (Container.map encode rb)) = pure rb := by
  obtain ⟨source, patterns⟩ := forall_mem_cons.mp below
  simp only [receiveBindFromProto, receiveBindToProto, Container.map, required, source, pure_bind,
    map_m_round_trip patterns, remainder_round_trip, free_count_round_trip]

theorem receive_round_trip {r : Receive B} (proper : r.locallyFree.Proper)
    (below : ∀ c ∈ Container.children r, decode (encode c) = pure c) :
    receiveFromProto decode (receiveToProto (Container.map encode r)) = pure r := by
  obtain ⟨body, binds⟩ := forall_mem_cons.mp below
  have back := all_round_trip receiveBindToProto
    fun rb mem => receive_bind_round_trip (below_member binds mem)
  simp only [receiveFromProto, receiveToProto, Container.map, required, body, pure_bind, back,
    bitset_round_trip proper]

theorem new_round_trip {n : New B} (proper : n.locallyFree.Proper) (ordered : n.Ordered)
    (below : ∀ c ∈ Container.children n, decode (encode c) = pure c) :
    newFromProto decode (newToProto (Container.map encode n)) = pure n := by
  obtain ⟨p, values⟩ := forall_mem_cons.mp below
  have keys : ((n.injections.map (Prod.map id encode)).map Prod.fst).Pairwise (· < ·) := by
    rw [map_map]
    exact ordered
  have back : (n.injections.map (Prod.map id encode)).mapM (injectionFromProto decode) =
      pure n.injections := by
    apply map_m_round_trip
    intro entry mem
    have value := values entry.2 (mem_map_of_mem mem)
    simp only [injectionFromProto, Prod.map, id, value, pure_bind]
  simp only [newFromProto, newToProto, Container.map, required, p, pure_bind, collect_ordered keys,
    back, collect_ordered ordered, bitset_round_trip proper]

theorem match_case_round_trip {mc : MatchCase B}
    (below : ∀ c ∈ Container.children mc, decode (encode c) = pure c) :
    matchCaseFromProto decode (matchCaseToProto (Container.map encode mc)) = pure mc := by
  obtain ⟨pattern, rest⟩ := forall_mem_cons.mp below
  have source := rest mc.source mem_cons_self
  simp only [matchCaseFromProto, matchCaseToProto, Container.map, required, pattern, source,
    pure_bind, free_count_round_trip]

theorem match_round_trip {m : Match B} (proper : m.locallyFree.Proper)
    (below : ∀ c ∈ Container.children m, decode (encode c) = pure c) :
    matchFromProto decode (matchToProto (Container.map encode m)) = pure m := by
  obtain ⟨target, cases⟩ := forall_mem_cons.mp below
  have back := all_round_trip matchCaseToProto
    fun mc mem => match_case_round_trip (below_member cases mem)
  simp only [matchFromProto, matchToProto, Container.map, required, target, pure_bind, back,
    bitset_round_trip proper]

theorem bundle_round_trip {b : Bundle B}
    (below : ∀ c ∈ Container.children b, decode (encode c) = pure c) :
    bundleFromProto decode (bundleToProto (Container.map encode b)) = pure b := by
  have body := below b.body mem_cons_self
  simp only [bundleFromProto, bundleToProto, Container.map, required, body, pure_bind]

theorem connective_round_trip {c : Connective B}
    (below : ∀ child ∈ Container.children c, decode (encode child) = pure child) :
    connectiveFromProto decode (connectiveToProto (Container.map encode c)) = pure c := by
  cases c with
  | connAnd ps | connOr ps =>
    have bodies : ∀ p ∈ ps, decode (encode p) = pure p := below
    simp only [Container.map, Connective.map, connectiveToProto, connectiveFromProto,
      map_m_round_trip bodies, pure_bind]
  | connNot p =>
    have body := below p mem_cons_self
    simp only [Container.map, Connective.map, connectiveToProto, connectiveFromProto, body,
      pure_bind]
  | varRef | simpleType | empty => rfl

theorem map_round_trip {m : ParMap B} (proper : m.locallyFree.Proper)
    (below : ∀ c ∈ Container.children m, decode (encode c) = pure c) :
    emapFromProto decode (emapToProto (Container.map encode m)) = pure m := by
  obtain ⟨keys, values⟩ := List.forall_mem_append.mp below
  have back : ((m.kvs.map (Prod.map encode encode)).map fun kv =>
      (⟨some kv.1, some kv.2⟩ : Proto.KeyValuePair A)).mapM (keyValueFromProto decode) =
        pure m.kvs := by
    rw [map_map]
    apply map_m_round_trip
    intro kv mem
    have key := keys kv.1 (mem_map_of_mem mem)
    have value := values kv.2 (mem_map_of_mem mem)
    simp only [Function.comp_apply, keyValueFromProto, Prod.map, required, key, value, pure_bind]
  simp only [emapFromProto, emapToProto, Container.map, back, pure_bind, remainder_round_trip,
    bitset_round_trip proper]

theorem expr_round_trip {e : Expr B} (proper : ∀ bitset ∈ e.frees, bitset.Proper)
    (below : ∀ c ∈ Container.children e, decode (encode c) = pure c) :
    exprFromProto decode (exprToProto (Container.map encode e)) = pure e := by
  cases e with
  | gBool | gInt | gString | gUri | gByteArray => rfl
  | gBigInt =>
    simp only [Container.map, Expr.map, exprToProto, exprFromProto, signed_bytes_round_trip]
  | unary _ p =>
    have body := below p mem_cons_self
    simp only [Container.map, Expr.map, exprToProto, exprFromProto, required, body, pure_bind]
  | eVar =>
    simp only [Container.map, Expr.map, exprToProto, exprFromProto, required, var_round_trip,
      pure_bind]
  | binary _ _ p2 =>
    obtain ⟨first, rest⟩ := forall_mem_cons.mp below
    have second := rest p2 mem_cons_self
    simp only [Container.map, Expr.map, exprToProto, exprFromProto, required, first, second,
      pure_bind]
  | eList list =>
    have free := proper _ mem_cons_self
    have elements : ∀ p ∈ list.ps, decode (encode p) = pure p := below
    have back : elistFromProto decode (elistToProto (Container.map encode list)) = pure list := by
      simp only [elistFromProto, elistToProto, Container.map, map_m_round_trip elements, pure_bind,
        remainder_round_trip, bitset_round_trip free]
    change (elistFromProto decode _ >>= fun list => pure (Expr.eList list)) = _
    rw [back, pure_bind]
  | eTuple tuple =>
    have free := proper _ mem_cons_self
    have elements : ∀ p ∈ tuple.ps, decode (encode p) = pure p := below
    have back : etupleFromProto decode (etupleToProto (Container.map encode tuple)) =
        pure tuple := by
      simp only [etupleFromProto, etupleToProto, Container.map, map_m_round_trip elements, pure_bind,
        bitset_round_trip free]
    change (etupleFromProto decode _ >>= fun tuple => pure (Expr.eTuple tuple)) = _
    rw [back, pure_bind]
  | eSet set =>
    have free := proper _ mem_cons_self
    have elements : ∀ p ∈ set.ps, decode (encode p) = pure p := below
    have back : esetFromProto decode (esetToProto (Container.map encode set)) = pure set := by
      simp only [esetFromProto, esetToProto, Container.map, map_m_round_trip elements, pure_bind,
        remainder_round_trip, bitset_round_trip free]
    change (esetFromProto decode _ >>= fun set => pure (Expr.eSet set)) = _
    rw [back, pure_bind]
  | eMap map =>
    change (emapFromProto decode _ >>= fun map => pure (Expr.eMap map)) = _
    rw [map_round_trip (proper _ mem_cons_self) below, pure_bind]
  | eMethod method =>
    have free := proper _ mem_cons_self
    obtain ⟨target, arguments⟩ := forall_mem_cons.mp below
    have back : emethodFromProto decode (emethodToProto (Container.map encode method)) =
        pure method := by
      simp only [emethodFromProto, emethodToProto, Container.map, required, target, pure_bind,
        map_m_round_trip arguments, bitset_round_trip free]
    change (emethodFromProto decode _ >>= fun method => pure (Expr.eMethod method)) = _
    rw [back, pure_bind]

theorem layer_round_trip {layer : Layer B} (proper : ∀ bitset ∈ layer.frees, bitset.Proper)
    (ordered : ∀ new ∈ layer.news, new.Ordered)
    (below : ∀ c ∈ Container.children layer, decode (encode c) = pure c) :
    layerFromProto decode (layerToProto (Container.map encode layer)) = pure layer := by
  simp only [Layer.frees, forall_mem_cons, List.forall_mem_append] at proper
  obtain ⟨free, ⟨⟨⟨sendsFree, receivesFree⟩, newsFree⟩, exprsFree⟩, matchesFree⟩ := proper
  simp only [Container.children, List.forall_mem_append] at below
  obtain ⟨sends, receives, news, exprs, matches_, bundles, connectives⟩ := below
  have sendsBack := all_round_trip sendToProto fun s mem =>
    send_round_trip (sendsFree _ (mem_map_of_mem mem)) (below_member sends mem)
  have receivesBack := all_round_trip receiveToProto fun r mem =>
    receive_round_trip (receivesFree _ (mem_map_of_mem mem)) (below_member receives mem)
  have newsBack := all_round_trip newToProto fun n mem =>
    new_round_trip (newsFree _ (mem_map_of_mem mem)) (ordered n mem) (below_member news mem)
  have exprsBack := all_round_trip exprToProto fun e mem =>
    expr_round_trip (fun bitset inside => exprsFree bitset
      (List.mem_flatMap.mpr ⟨e, mem, inside⟩)) (below_member exprs mem)
  have matchesBack := all_round_trip matchToProto fun m mem =>
    match_round_trip (matchesFree _ (mem_map_of_mem mem)) (below_member matches_ mem)
  have bundlesBack := all_round_trip bundleToProto fun b mem =>
    bundle_round_trip (below_member bundles mem)
  have connectivesBack := all_round_trip connectiveToProto fun c mem =>
    connective_round_trip (below_member connectives mem)
  have unforgeablesBack := map_m_round_trip fun u (_ : u ∈ layer.unforgeables) =>
    unforgeable_round_trip u
  simp only [layerFromProto, layerToProto, Container.map, sendsBack, receivesBack, newsBack,
    exprsBack, matchesBack, unforgeablesBack, bundlesBack, connectivesBack, pure_bind,
    bitset_round_trip free]

theorem depth_below {child : Par} (mem : child ∈ Container.children layer) :
    child.depth < (Par.mk layer).depth := by
  rw [Par.depth, fold_mk, Container.children_map, Nat.lt_succ_iff, ← Par.depth]
  generalize Container.children layer = children at mem
  induction children with
  | nil => cases mem
  | cons _ _ ih =>
    rw [List.map_cons, List.foldr_cons]
    rcases List.mem_cons.mp mem with rfl | later
    · exact Nat.le_max_left _ _
    · exact (ih later).trans (Nat.le_max_right _ _)

theorem from_to_proto {par : Par} (proper : par.Proper) {fuel : Nat} (enough : par.depth ≤ fuel) :
    parFromProto fuel (parToProto par) = pure par := by
  induction proper generalizing fuel with
  | @mk layer frees ordered below ih =>
    cases fuel with
    | zero =>
      rw [Par.depth, fold_mk] at enough
      omega
    | succ fuel =>
      have children : ∀ c ∈ Container.children layer,
          parFromProto fuel (parToProto c) = pure c := by
        intro c mem
        exact ih c mem (by have := depth_below mem; omega)
      rw [parToProto, fold_mk, ← parToProto, parFromProto,
        layer_round_trip frees ordered children, pure_bind]

/-- A proper term comes back from its message, with its locally-free sets and flags, at every
depth. -/
theorem wire_round_trip {par : Par} (proper : par.Proper) {fuel : Nat} (enough : par.depth ≤ fuel) :
    (parFromProto fuel (parToProto par)).run = some (.ok par) := by
  rw [from_to_proto proper enough]
  rfl

theorem proper_of_leaf (frees : ∀ bitset ∈ layer.frees, bitset.Proper)
    (ordered : ∀ new ∈ layer.news, new.Ordered) (leaf : Container.children layer = []) :
    (Par.mk layer).Proper :=
  .mk frees ordered (by simp [leaf])

def wireSample : Par := .mk {
  sends := [{
    chan := .mk {}
    data := [.mk { exprs := [.gBigInt (-300)], locallyFree := [0, 2], connectiveUsed := true }]
    locallyFree := [1, 65] }]
  locallyFree := [1, 65] }

theorem wire_sample_round_trip :
    (parFromProto 2 (parToProto wireSample)).run = some (.ok wireSample) := by
  apply wire_round_trip
  · apply Par.Proper.mk (by decide) (by decide)
    intro _ member
    rcases List.mem_cons.mp member with rfl | other
    · exact proper_of_leaf (by decide) (by decide) rfl
    · cases List.mem_singleton.mp other
      exact proper_of_leaf (by decide) (by decide) rfl
  · decide

end RoundTrip

end RChain.Models
