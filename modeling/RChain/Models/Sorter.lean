import RChain.Models.Ast
import Mathlib.Data.List.Sort
import Mathlib.Data.String.Basic

/-!
# The canonicalizing sorter

Source: `models/src/sorter.rs`.

Each term gets a score tree. A process is sorted by the scores of its components, field by
field; the lists inside a component keep their order. The functions on components take their
children already sorted and scored, and `sortPar` is the fold over the term.
-/

namespace RChain.Models

open BitCodec

/-- The score constants. -/
inductive Score where
  | absent | bool | int | string | uri | private_ | eList | eTuple | eSet | eMap | deployerAuth
  | deployId | sysAuthToken | bigInt | boundVar | freeVar | wildcard | eVar
  | unary (op : UnaryOp) | binary (op : BinaryOp) | eMethod | eByteArr
  | send | receive | new | match_ | bundleEquiv | bundleRead | bundleWrite | bundleReadWrite
  | connectiveNot | connectiveAnd | connectiveOr | connectiveVarRef | connective (kind : ConnType)
  | par
deriving DecidableEq

def Score.code : Score → Int
  | .absent => 0
  | .bool => 1
  | .int => 2
  | .string => 3
  | .uri => 4
  | .private_ => 5
  | .eList => 6
  | .eTuple => 7
  | .eSet => 8
  | .eMap => 9
  | .deployerAuth => 10
  | .deployId => 11
  | .sysAuthToken => 12
  | .bigInt => 13
  | .boundVar => 50
  | .freeVar => 51
  | .wildcard => 52
  | .eVar => 100
  | .unary .eNeg => 101
  | .binary .eMult => 102
  | .binary .eDiv => 103
  | .binary .ePlus => 104
  | .binary .eMinus => 105
  | .binary .eLt => 106
  | .binary .eLte => 107
  | .binary .eGt => 108
  | .binary .eGte => 109
  | .binary .eEq => 110
  | .binary .eNeq => 111
  | .unary .eNot => 112
  | .binary .eAnd => 113
  | .binary .eOr => 114
  | .eMethod => 115
  | .eByteArr => 116
  | .binary .eMatches => 118
  | .binary .ePercentPercent => 119
  | .binary .ePlusPlus => 120
  | .binary .eMinusMinus => 121
  | .binary .eMod => 122
  | .binary .eShortAnd => 123
  | .binary .eShortOr => 124
  | .send => 300
  | .receive => 301
  | .new => 303
  | .match_ => 304
  | .bundleEquiv => 305
  | .bundleRead => 306
  | .bundleWrite => 307
  | .bundleReadWrite => 308
  | .connectiveNot => 400
  | .connectiveAnd => 401
  | .connectiveOr => 402
  | .connectiveVarRef => 403
  | .connective .connBool => 404
  | .connective .connInt => 405
  | .connective .connString => 406
  | .connective .connUri => 407
  | .connective .connByteArray => 408
  | .connective .connBigInt => 409
  | .par => 999

section ScoreTree

inductive ScoreAtom where
  | int (value : Int)
  | bigInt (value : Int)
  | str (value : String)
  | bytes (value : List Byte)
deriving DecidableEq

def signedByte (b : Byte) : Int := if b.val < 128 then b.val else b.val - 256

/-- Bytes compare as signed numbers, and a front of a list comes before the list. -/
def compareBytesSigned : List Byte → List Byte → Ordering
  | x :: xs, y :: ys => (compare (signedByte x) (signedByte y)).then (compareBytesSigned xs ys)
  | _ :: _, [] => .gt
  | [], _ :: _ => .lt
  | [], [] => .eq

def ScoreAtom.cmp : ScoreAtom → ScoreAtom → Ordering
  | .int a, .int b => compare a b
  | .int _, _ => .lt
  | _, .int _ => .gt
  | .bigInt a, .bigInt b => compare a b
  | .bigInt _, _ => .lt
  | _, .bigInt _ => .gt
  | .str a, .str b => compare a b
  | .str _, _ => .lt
  | _, .str _ => .gt
  | .bytes a, .bytes b => compareBytesSigned a b

inductive Tree where
  | leaf (atom : ScoreAtom)
  | node (children : List Tree)

mutual

def Tree.cmp : Tree → Tree → Ordering
  | .leaf a, .leaf b => a.cmp b
  | .leaf _, .node _ => .lt
  | .node _, .leaf _ => .gt
  | .node a, .node b => compareChildren a b

def compareChildren : List Tree → List Tree → Ordering
  | [], [] => .eq
  | [], _ :: _ => .lt
  | _ :: _, [] => .gt
  | x :: a, y :: b => (x.cmp y).then (compareChildren a b)

end

theorem signed_byte_inj {a b : Byte} : signedByte a = signedByte b ↔ a = b := by
  constructor
  · intro same
    have := a.isLt
    have := b.isLt
    unfold signedByte at same
    split_ifs at same <;> exact Fin.ext (by omega)
  · rintro rfl
    rfl

theorem compare_bytes_swap (a b : List Byte) :
    (compareBytesSigned a b).swap = compareBytesSigned b a := by
  induction a generalizing b with
  | nil => cases b <;> rfl
  | cons x a ih =>
    cases b with
    | nil => rfl
    | cons =>
      rw [compareBytesSigned, compareBytesSigned, Ordering.swap_then, ih, ← Std.OrientedOrd.eq_swap]

theorem compare_bytes_eq {a b : List Byte} : compareBytesSigned a b = .eq ↔ a = b := by
  induction a generalizing b with
  | nil => cases b <;> simp [compareBytesSigned]
  | cons x a ih =>
    cases b with
    | nil => simp [compareBytesSigned]
    | cons =>
      rw [compareBytesSigned, Ordering.then_eq_eq, compare_eq_iff_eq, signed_byte_inj, ih,
        List.cons.injEq]

theorem compare_bytes_trans {a b c : List Byte} (first : compareBytesSigned a b = .lt)
    (second : compareBytesSigned b c = .lt) : compareBytesSigned a c = .lt := by
  induction a generalizing b c with
  | nil =>
    cases b with
    | nil => cases first
    | cons =>
      cases c with
      | nil => cases second
      | cons => rfl
  | cons x a ih =>
    cases b with
    | nil => cases first
    | cons =>
      cases c with
      | nil => cases second
      | cons =>
        simp only [compareBytesSigned, Ordering.then_eq_lt, compare_lt_iff_lt,
          compare_eq_iff_eq] at first second ⊢
        rcases first with below | ⟨same, first⟩
        · rcases second with above | ⟨same, _⟩
          · exact .inl (below.trans above)
          · exact .inl (same ▸ below)
        · rcases second with above | ⟨alike, second⟩
          · exact .inl (same ▸ above)
          · exact .inr ⟨same.trans alike, ih first second⟩

theorem ScoreAtom.cmp_swap (a b : ScoreAtom) : (a.cmp b).swap = b.cmp a := by
  cases a <;> cases b <;>
    first
      | rfl
      | exact compare_bytes_swap _ _
      | exact Std.OrientedOrd.eq_swap.symm

theorem ScoreAtom.cmp_eq {a b : ScoreAtom} : a.cmp b = .eq ↔ a = b := by
  cases a <;> cases b <;> simp [ScoreAtom.cmp, compare_bytes_eq]

theorem ScoreAtom.cmp_trans {a b c : ScoreAtom} (first : a.cmp b = .lt) (second : b.cmp c = .lt) :
    a.cmp c = .lt := by
  cases a <;> cases b <;> cases c <;>
    simp only [ScoreAtom.cmp, compare_lt_iff_lt, reduceCtorEq] at first second ⊢ <;>
    first
      | exact first.trans second
      | exact compare_bytes_trans first second

mutual

theorem Tree.cmp_swap : ∀ a b : Tree, (a.cmp b).swap = b.cmp a
  | .leaf a, .leaf b => a.cmp_swap b
  | .leaf _, .node _ => rfl
  | .node _, .leaf _ => rfl
  | .node a, .node b => compare_children_swap a b

theorem compare_children_swap : ∀ a b : List Tree, (compareChildren a b).swap = compareChildren b a
  | [], [] => rfl
  | [], _ :: _ => rfl
  | _ :: _, [] => rfl
  | x :: a, y :: b => by
    rw [compareChildren, compareChildren, Ordering.swap_then, x.cmp_swap y,
      compare_children_swap a b]

end

mutual

theorem Tree.cmp_eq : ∀ {a b : Tree}, a.cmp b = .eq ↔ a = b
  | .leaf a, .leaf b => by rw [Tree.cmp, ScoreAtom.cmp_eq, Tree.leaf.injEq]
  | .leaf _, .node _ => by simp [Tree.cmp]
  | .node _, .leaf _ => by simp [Tree.cmp]
  | .node a, .node b => by rw [Tree.cmp, compare_children_eq, Tree.node.injEq]

theorem compare_children_eq : ∀ {a b : List Tree}, compareChildren a b = .eq ↔ a = b
  | [], [] => by simp [compareChildren]
  | [], _ :: _ => by simp [compareChildren]
  | _ :: _, [] => by simp [compareChildren]
  | x :: a, y :: b => by
    rw [compareChildren, Ordering.then_eq_eq, Tree.cmp_eq, compare_children_eq, List.cons.injEq]

end

mutual

theorem Tree.cmp_trans : ∀ {a b c : Tree}, a.cmp b = .lt → b.cmp c = .lt → a.cmp c = .lt
  | .leaf _, .leaf _, .leaf _, first, second => ScoreAtom.cmp_trans first second
  | .leaf _, .leaf _, .node _, _, _ => rfl
  | .leaf _, .node _, .node _, _, _ => rfl
  | .node _, .node _, .node _, first, second => compare_children_trans first second

theorem compare_children_trans : ∀ {a b c : List Tree}, compareChildren a b = .lt →
    compareChildren b c = .lt → compareChildren a c = .lt
  | [], _ :: _, _ :: _, _, _ => rfl
  | _ :: _, _ :: _, _ :: _, first, second => by
    simp only [compareChildren, Ordering.then_eq_lt, Tree.cmp_eq] at first second ⊢
    rcases first with below | ⟨same, first⟩
    · rcases second with above | ⟨same, _⟩
      · exact .inl (Tree.cmp_trans below above)
      · exact .inl (same ▸ below)
    · rcases second with above | ⟨alike, second⟩
      · exact .inl (same ▸ above)
      · exact .inr ⟨same.trans alike, compare_children_trans first second⟩

end

theorem Tree.cmp_ne_gt {a b : Tree} : a.cmp b ≠ .gt ↔ a.cmp b = .lt ∨ a = b := by
  rw [← Tree.cmp_eq]
  cases a.cmp b <;> simp

theorem Tree.cmp_gt {a b : Tree} : a.cmp b = .gt ↔ b.cmp a = .lt := by
  rw [← b.cmp_swap a, Ordering.swap_eq_gt]

instance : LinearOrder Tree where
  le a b := a.cmp b ≠ .gt
  lt a b := a.cmp b = .lt
  le_refl a := Tree.cmp_ne_gt.mpr (.inr rfl)
  le_trans a b c first second := by
    rcases Tree.cmp_ne_gt.mp first with below | rfl
    · rcases Tree.cmp_ne_gt.mp second with above | rfl
      · exact Tree.cmp_ne_gt.mpr (.inl (Tree.cmp_trans below above))
      · exact first
    · exact second
  lt_iff_le_not_ge a b := by
    rw [not_not, Tree.cmp_gt]
    exact ⟨fun below => ⟨Tree.cmp_ne_gt.mpr (.inl below), below⟩, And.right⟩
  le_antisymm a b first second := by
    rcases Tree.cmp_ne_gt.mp first with below | same
    · exact absurd (Tree.cmp_gt.mpr below) second
    · exact same
  le_total a b := by
    by_cases above : a.cmp b = .gt
    · exact .inr (Tree.cmp_ne_gt.mpr (.inl (Tree.cmp_gt.mp above)))
    · exact .inl above
  toDecidableLE a b := inferInstanceAs (Decidable (a.cmp b ≠ .gt))
  toDecidableLT a b := inferInstanceAs (Decidable (a.cmp b = .lt))
  toDecidableEq a b := decidable_of_iff _ Tree.cmp_eq

end ScoreTree

/-- A term paired with its score tree. -/
structure ScoredTerm (T : Type) where
  term : T
  score : Tree

section Scores

def leafInt (value : Int) : Tree := .leaf (.int value)

def leafBigInt (value : Int) : Tree := .leaf (.bigInt value)

def leafStr (value : String) : Tree := .leaf (.str value)

def leafBytes (value : List Byte) : Tree := .leaf (.bytes value)

def leafScore (score : Score) : Tree := leafInt score.code

def leafFlag (flag : Bool) : Tree := leafInt (if flag then 1 else 0)

def leaves (score : Score) (values : List Int) : Tree :=
  .node (leafScore score :: values.map leafInt)

def nodeScore (score : Score) (children : List Tree) : Tree := .node (leafScore score :: children)

/-- Sort by score; terms of one score keep their order. -/
def sortByScore {T : Type} (scored : List (ScoredTerm T)) : List (ScoredTerm T) :=
  scored.insertionSort fun a b => a.score ≤ b.score

end Scores

section Matchers

def sortVar (v : Var) : ScoredTerm Var :=
  { term := v
    score := match v with
      | .boundVar level => leaves .boundVar [level.toInt]
      | .freeVar level => leaves .freeVar [level.toInt]
      | .wildcard => leaves .wildcard []
      | .empty => leafScore .absent }

def sortGBool (g : Bool) : ScoredTerm Bool :=
  { term := g, score := if g then leaves .bool [0] else leaves .bool [1] }

def sortSend (s : Send (ScoredTerm Par)) : ScoredTerm (Send Par) :=
  { term :=
      { chan := s.chan.term
        data := s.data.map ScoredTerm.term
        persistent := s.persistent
        locallyFree := s.locallyFree
        connectiveUsed := s.connectiveUsed }
    score := nodeScore .send ([leafFlag s.persistent, s.chan.score] ++
      s.data.map ScoredTerm.score ++ [leafFlag s.connectiveUsed]) }

def sortedRemainder : Option Var → Tree
  | some var => (sortVar var).score
  | none => leafScore .absent

def sortReceiveBind (bind : ReceiveBind (ScoredTerm Par)) : ScoredTerm (ReceiveBind Par) :=
  { term :=
      { patterns := bind.patterns.map ScoredTerm.term
        source := bind.source.term
        remainder := bind.remainder
        freeCount := bind.freeCount }
    score := .node ([bind.source.score] ++ bind.patterns.map ScoredTerm.score ++
      [sortedRemainder bind.remainder]) }

def sortReceive (r : Receive (ScoredTerm Par)) : ScoredTerm (Receive Par) :=
  let binds := r.binds.map sortReceiveBind
  { term :=
      { binds := binds.map ScoredTerm.term
        body := r.body.term
        persistent := r.persistent
        peek := r.peek
        bindCount := r.bindCount
        locallyFree := r.locallyFree
        connectiveUsed := r.connectiveUsed }
    score := nodeScore .receive ([leafFlag r.persistent, leafFlag r.peek] ++
      binds.map ScoredTerm.score ++
      [r.body.score, leafInt r.bindCount.toInt, leafFlag r.connectiveUsed]) }

def sortNew (n : New (ScoredTerm Par)) : ScoredTerm (New Par) :=
  let uri := n.uri.insertionSort (· ≤ ·)
  let uriScore := if uri.isEmpty then [leafScore .absent] else uri.map leafStr
  -- The entries are listed in the order of their keys already: the sort by key changes nothing.
  let injectionsScore := if n.injections.isEmpty then [leafScore .absent]
    else n.injections.map fun entry => .node [leafStr entry.1, entry.2.score]
  { term :=
      { bindCount := n.bindCount
        p := n.p.term
        uri := uri
        injections := n.injections.map fun entry => (entry.1, entry.2.term)
        locallyFree := n.locallyFree }
    score := .node ([leafScore .new, leafInt n.bindCount.toInt] ++ uriScore ++ injectionsScore ++
      [n.p.score]) }

def sortMatchCase (case : MatchCase (ScoredTerm Par)) : ScoredTerm (MatchCase Par) :=
  { term :=
      { pattern := case.pattern.term
        source := case.source.term
        freeCount := case.freeCount }
    score := .node [case.pattern.score, case.source.score, leafInt case.freeCount.val.toInt] }

def sortMatch (m : Match (ScoredTerm Par)) : ScoredTerm (Match Par) :=
  let cases := m.cases.map sortMatchCase
  { term :=
      { target := m.target.term
        cases := cases.map ScoredTerm.term
        locallyFree := m.locallyFree
        connectiveUsed := m.connectiveUsed }
    score := nodeScore .match_ ([m.target.score] ++ cases.map ScoredTerm.score ++
      [leafFlag m.connectiveUsed]) }

def sortBundle (b : Bundle (ScoredTerm Par)) : ScoredTerm (Bundle Par) :=
  let score : Score :=
    if b.writeFlag && b.readFlag then .bundleReadWrite
    else if b.writeFlag && !b.readFlag then .bundleWrite
    else if !b.writeFlag && b.readFlag then .bundleRead
    else .bundleEquiv
  { term := { body := b.body.term, writeFlag := b.writeFlag, readFlag := b.readFlag }
    score := nodeScore score [b.body.score] }

def sortConnective : Connective (ScoredTerm Par) → ScoredTerm (Connective Par)
  | .connAnd ps =>
    { term := .connAnd (ps.map ScoredTerm.term)
      score := nodeScore .connectiveAnd (ps.map ScoredTerm.score) }
  | .connOr ps =>
    { term := .connOr (ps.map ScoredTerm.term)
      score := nodeScore .connectiveOr (ps.map ScoredTerm.score) }
  | .connNot p => { term := .connNot p.term, score := nodeScore .connectiveNot [p.score] }
  | .varRef index depth =>
    { term := .varRef index depth, score := leaves .connectiveVarRef [index.toInt, depth.toInt] }
  | .simpleType kind used =>
    { term := .simpleType kind used, score := nodeScore (.connective kind) [leafFlag used] }
  | .empty => { term := .empty, score := leafScore .absent }

def sortUnforgeable (unf : GUnforgeable) : ScoredTerm GUnforgeable :=
  { term := unf
    score := match unf with
      | .gPrivate id => nodeScore .private_ [leafBytes id]
      | .gDeployerId publicKey => nodeScore .deployerAuth [leafBytes publicKey]
      | .gDeployId sig => nodeScore .deployId [leafBytes sig]
      | .gSysAuthToken => nodeScore .sysAuthToken []
      | .empty => nodeScore .absent [] }

def remainderScore : Option Var → Tree
  | some var => (sortVar var).score
  | none => leafInt (-1)

def sortExpr : Expr (ScoredTerm Par) → ScoredTerm (Expr Par)
  | .gBool g => { term := .gBool g, score := (sortGBool g).score }
  | .gInt v => { term := .gInt v, score := leaves .int [v.toInt] }
  | .gBigInt v => { term := .gBigInt v, score := nodeScore .bigInt [leafBigInt v] }
  | .gString v => { term := .gString v, score := nodeScore .string [leafStr v] }
  | .gUri v => { term := .gUri v, score := nodeScore .uri [leafStr v] }
  | .gByteArray v => { term := .gByteArray v, score := nodeScore .eByteArr [leafBytes v] }
  | .unary op p => { term := .unary op p.term, score := nodeScore (.unary op) [p.score] }
  | .eVar v => { term := .eVar (sortVar v).term, score := nodeScore .eVar [(sortVar v).score] }
  | .binary op p1 p2 =>
    { term := .binary op p1.term p2.term, score := nodeScore (.binary op) [p1.score, p2.score] }
  | .eList list =>
    { term := .eList
        { ps := list.ps.map ScoredTerm.term
          locallyFree := list.locallyFree
          connectiveUsed := list.connectiveUsed
          remainder := list.remainder }
      score := .node ([leafScore .eList, remainderScore list.remainder] ++
        list.ps.map ScoredTerm.score ++ [leafFlag list.connectiveUsed]) }
  | .eTuple tuple =>
    { term := .eTuple
        { ps := tuple.ps.map ScoredTerm.term
          locallyFree := tuple.locallyFree
          connectiveUsed := tuple.connectiveUsed }
      score := .node ([leafScore .eTuple] ++ tuple.ps.map ScoredTerm.score ++
        [leafFlag tuple.connectiveUsed]) }
  | .eSet set =>
    { term := .eSet
        { ps := set.ps.map ScoredTerm.term
          connectiveUsed := set.connectiveUsed
          locallyFree := set.locallyFree
          remainder := set.remainder }
      score := .node ([leafScore .eSet, remainderScore set.remainder] ++
        set.ps.map ScoredTerm.score ++ [leafFlag set.connectiveUsed]) }
  | .eMap map =>
    -- The score of an entry is the score of its key.
    { term := .eMap
        { kvs := map.kvs.map fun kv => (kv.1.term, kv.2.term)
          connectiveUsed := map.connectiveUsed
          locallyFree := map.locallyFree
          remainder := map.remainder }
      score := .node ([leafScore .eMap, remainderScore map.remainder] ++
        map.kvs.map (fun kv => kv.1.score) ++ [leafFlag map.connectiveUsed]) }
  | .eMethod em =>
    { term := .eMethod
        { methodName := em.methodName
          target := em.target.term
          arguments := em.arguments.map ScoredTerm.term
          locallyFree := em.locallyFree
          connectiveUsed := em.connectiveUsed }
      score := .node ([leafScore .eMethod, leafStr em.methodName, em.target.score] ++
        em.arguments.map ScoredTerm.score ++ [leafFlag em.connectiveUsed]) }

/-- Sort the components of one layer, whose children are sorted and scored. -/
def sortLayer (par : Layer (ScoredTerm Par)) : ScoredTerm Par :=
  let sends := sortByScore (par.sends.map sortSend)
  let receives := sortByScore (par.receives.map sortReceive)
  let exprs := sortByScore (par.exprs.map sortExpr)
  let news := sortByScore (par.news.map sortNew)
  let matches_ := sortByScore (par.matches_.map sortMatch)
  let bundles := sortByScore (par.bundles.map sortBundle)
  let connectives := sortByScore (par.connectives.map sortConnective)
  let unforgeables := sortByScore (par.unforgeables.map sortUnforgeable)
  { term := .mk
      { sends := sends.map ScoredTerm.term
        receives := receives.map ScoredTerm.term
        exprs := exprs.map ScoredTerm.term
        news := news.map ScoredTerm.term
        matches_ := matches_.map ScoredTerm.term
        bundles := bundles.map ScoredTerm.term
        connectives := connectives.map ScoredTerm.term
        unforgeables := unforgeables.map ScoredTerm.term
        locallyFree := par.locallyFree
        connectiveUsed := par.connectiveUsed }
    score := nodeScore .par (sends.map ScoredTerm.score ++ receives.map ScoredTerm.score ++
      exprs.map ScoredTerm.score ++ news.map ScoredTerm.score ++ matches_.map ScoredTerm.score ++
      bundles.map ScoredTerm.score ++ connectives.map ScoredTerm.score ++
      unforgeables.map ScoredTerm.score ++ [leafFlag par.connectiveUsed]) }

def sortPar : Par → ScoredTerm Par := Par.fold sortLayer

def sortParTerm (par : Par) : Par := (sortPar par).term

end Matchers

end RChain.Models
