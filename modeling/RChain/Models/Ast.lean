import RChain.Lib.BitCodec
import RChain.Lib.Container

/-!
# The rholang term structure

Source: `models/src/ast.rs`.

A term is built in layers: the type of the subterms is a parameter of the records, and `Par`
ties the knot. The sort of a term, a phantom parameter of the source, has no value and is left
out. Operators with the same fields are one constructor that carries the operator.
-/

namespace RChain.Models

open BitCodec

/-- A set of free-variable levels, as the list that the code keeps. -/
abbrev BitSet := List Int32

abbrev FreeCount := { count : Int32 // 0 ≤ count }

/-- A variable, by its de Bruijn level. -/
inductive Var where
  | boundVar (level : Int32)
  | freeVar (level : Int32)
  | wildcard
  | empty
deriving DecidableEq

structure Send (P : Type) where
  chan : P
  data : List P
  persistent : Bool := false
  locallyFree : BitSet := []
  connectiveUsed : Bool := false
deriving DecidableEq

structure ReceiveBind (P : Type) where
  patterns : List P
  source : P
  remainder : Option Var := none
  freeCount : FreeCount := ⟨0, by decide⟩
deriving DecidableEq

structure Receive (P : Type) where
  binds : List (ReceiveBind P)
  body : P
  persistent : Bool := false
  peek : Bool := false
  bindCount : Int32 := 0
  locallyFree : BitSet := []
  connectiveUsed : Bool := false
deriving DecidableEq

/-- A `new`; the injections are listed in the order of their keys. -/
structure New (P : Type) where
  bindCount : Int32 := 0
  p : P
  uri : List String := []
  injections : List (String × P) := []
  locallyFree : BitSet := []
deriving DecidableEq

structure MatchCase (P : Type) where
  pattern : P
  source : P
  freeCount : FreeCount := ⟨0, by decide⟩
deriving DecidableEq

structure Match (P : Type) where
  target : P
  cases : List (MatchCase P)
  locallyFree : BitSet := []
  connectiveUsed : Bool := false
deriving DecidableEq

structure Bundle (P : Type) where
  body : P
  writeFlag : Bool := false
  readFlag : Bool := false
deriving DecidableEq

structure EList (P : Type) where
  ps : List P
  locallyFree : BitSet := []
  connectiveUsed : Bool := false
  remainder : Option Var := none
deriving DecidableEq

structure ETuple (P : Type) where
  ps : List P
  locallyFree : BitSet := []
  connectiveUsed : Bool := false
deriving DecidableEq

structure ParSet (P : Type) where
  ps : List P
  connectiveUsed : Bool := false
  locallyFree : BitSet := []
  remainder : Option Var := none
deriving DecidableEq

structure ParMap (P : Type) where
  kvs : List (P × P)
  connectiveUsed : Bool := false
  locallyFree : BitSet := []
  remainder : Option Var := none
deriving DecidableEq

structure EMethod (P : Type) where
  methodName : String
  target : P
  arguments : List P
  locallyFree : BitSet := []
  connectiveUsed : Bool := false
deriving DecidableEq

inductive UnaryOp where
  | eNot | eNeg
deriving DecidableEq

inductive BinaryOp where
  | eMult | eDiv | eMod | ePlus | eMinus | eLt | eLte | eGt | eGte | eEq | eNeq | eAnd | eOr
  | eShortAnd | eShortOr | eMatches | ePercentPercent | ePlusPlus | eMinusMinus
deriving DecidableEq

inductive Expr (P : Type) where
  | gBool (value : Bool)
  | gInt (value : Int64)
  | gBigInt (value : Int)
  | gString (value : String)
  | gUri (value : String)
  | gByteArray (value : List Byte)
  | unary (op : UnaryOp) (p : P)
  | eVar (v : Var)
  | binary (op : BinaryOp) (p1 p2 : P)
  | eList (list : EList P)
  | eTuple (tuple : ETuple P)
  | eSet (set : ParSet P)
  | eMap (map : ParMap P)
  | eMethod (method : EMethod P)
deriving DecidableEq

inductive GUnforgeable where
  | gPrivate (id : List Byte)
  | gDeployId (sig : List Byte)
  | gDeployerId (publicKey : List Byte)
  | gSysAuthToken
  | empty
deriving DecidableEq

inductive ConnType where
  | connBool | connInt | connBigInt | connString | connUri | connByteArray
deriving DecidableEq

inductive Connective (P : Type) where
  | connAnd (ps : List P)
  | connOr (ps : List P)
  | connNot (p : P)
  | varRef (index depth : Int32)
  | simpleType (kind : ConnType) (used : Bool)
  | empty
deriving DecidableEq

/-- The flat record of a process, over the type of its subterms. -/
@[ext]
structure Layer (P : Type) where
  sends : List (Send P) := []
  receives : List (Receive P) := []
  news : List (New P) := []
  exprs : List (Expr P) := []
  matches_ : List (Match P) := []
  unforgeables : List GUnforgeable := []
  bundles : List (Bundle P) := []
  connectives : List (Connective P) := []
  locallyFree : BitSet := []
  connectiveUsed : Bool := false
deriving DecidableEq

inductive Par where
  | mk (layer : Layer Par)

def Par.layer : Par → Layer Par
  | .mk layer => layer

section Containers

variable {A B : Type}

open Container

instance : Container Send where
  map f x := { x with chan := f x.chan, data := x.data.map f }
  children x := x.chan :: x.data

instance : Container ReceiveBind where
  map f x := { x with patterns := x.patterns.map f, source := f x.source }
  children x := x.source :: x.patterns

instance : Container Receive where
  map f x := { x with binds := mapAll f x.binds, body := f x.body }
  children x := x.body :: allChildren x.binds
  map_map f g x := by simp [map_map_all]
  children_map f x := by simp [all_children_map]
  ext {A x y} shapes below := by
    cases x
    cases y
    simp only [Receive.mk.injEq, List.cons.injEq] at shapes below ⊢
    exact ⟨ext_all shapes.1 below.2, below.1, shapes.2.2⟩

theorem entries_ext {K : Type} {xs ys : List (K × A)} (keys : xs.map Prod.fst = ys.map Prod.fst)
    (values : xs.map Prod.snd = ys.map Prod.snd) : xs = ys := by
  rw [← List.zip_unzip xs, ← List.zip_unzip ys, List.unzip_eq_map, List.unzip_eq_map, keys, values]

instance : Container New where
  map f x := { x with p := f x.p, injections := x.injections.map (Prod.map id f) }
  children x := x.p :: x.injections.map Prod.snd
  ext {A x y} shapes below := by
    cases x
    cases y
    simp only [New.mk.injEq, List.cons.injEq] at shapes below ⊢
    have keys := congrArg (List.map Prod.fst) shapes.2.2.2.1
    rw [List.map_map, List.map_map] at keys
    exact ⟨shapes.1, below.1, shapes.2.2.1, entries_ext keys below.2, shapes.2.2.2.2⟩

instance : Container MatchCase where
  map f x := { x with pattern := f x.pattern, source := f x.source }
  children x := [x.pattern, x.source]

instance : Container Match where
  map f x := { x with target := f x.target, cases := mapAll f x.cases }
  children x := x.target :: allChildren x.cases
  map_map f g x := by simp [map_map_all]
  children_map f x := by simp [all_children_map]
  ext {A x y} shapes below := by
    cases x
    cases y
    simp only [Match.mk.injEq, List.cons.injEq] at shapes below ⊢
    exact ⟨below.1, ext_all shapes.2.1 below.2, shapes.2.2⟩

instance : Container Bundle where
  map f x := { x with body := f x.body }
  children x := [x.body]

instance : Container EList where
  map f x := { x with ps := x.ps.map f }
  children x := x.ps

instance : Container ETuple where
  map f x := { x with ps := x.ps.map f }
  children x := x.ps

instance : Container ParSet where
  map f x := { x with ps := x.ps.map f }
  children x := x.ps

instance : Container ParMap where
  map f x := { x with kvs := x.kvs.map (Prod.map f f) }
  children x := x.kvs.map Prod.fst ++ x.kvs.map Prod.snd
  children_map f x := by simp [Function.comp_def]
  ext {A x y} shapes below := by
    cases x
    cases y
    simp only [ParMap.mk.injEq] at shapes below ⊢
    have lengths := congrArg List.length shapes.1
    simp only [List.length_map] at lengths
    obtain ⟨keys, values⟩ := List.append_inj below (by rw [List.length_map, List.length_map, lengths])
    exact ⟨entries_ext keys values, shapes.2⟩

instance : Container EMethod where
  map f x := { x with target := f x.target, arguments := x.arguments.map f }
  children x := x.target :: x.arguments

@[simp]
def Expr.map (f : A → B) : Expr A → Expr B
  | .gBool value => .gBool value
  | .gInt value => .gInt value
  | .gBigInt value => .gBigInt value
  | .gString value => .gString value
  | .gUri value => .gUri value
  | .gByteArray value => .gByteArray value
  | .unary op p => .unary op (f p)
  | .eVar v => .eVar v
  | .binary op p1 p2 => .binary op (f p1) (f p2)
  | .eList list => .eList (Container.map f list)
  | .eTuple tuple => .eTuple (Container.map f tuple)
  | .eSet set => .eSet (Container.map f set)
  | .eMap map => .eMap (Container.map f map)
  | .eMethod method => .eMethod (Container.map f method)

@[simp]
def Expr.children : Expr A → List A
  | .unary _ p => [p]
  | .binary _ p1 p2 => [p1, p2]
  | .eList list => Container.children list
  | .eTuple tuple => Container.children tuple
  | .eSet set => Container.children set
  | .eMap map => Container.children map
  | .eMethod method => Container.children method
  | _ => []

instance : Container Expr where
  map := Expr.map
  children := Expr.children
  map_map f g x := by cases x <;> simp [Expr.map, Container.map_map]
  children_map f x := by cases x <;> simp [Expr.map, Expr.children, Container.children_map]
  ext {A x y} shapes below := by
    cases x <;> cases y <;> simp only [Expr.map, reduceCtorEq, Expr.eList.injEq, Expr.eTuple.injEq,
      Expr.eSet.injEq, Expr.eMap.injEq, Expr.eMethod.injEq] at shapes <;>
      first
        | exact shapes
        | exact congrArg _ (Container.ext shapes below)
        | simp_all [Expr.children]

@[simp]
def Connective.map (f : A → B) : Connective A → Connective B
  | .connAnd ps => .connAnd (ps.map f)
  | .connOr ps => .connOr (ps.map f)
  | .connNot p => .connNot (f p)
  | .varRef index depth => .varRef index depth
  | .simpleType kind used => .simpleType kind used
  | .empty => .empty

@[simp]
def Connective.children : Connective A → List A
  | .connAnd ps => ps
  | .connOr ps => ps
  | .connNot p => [p]
  | _ => []

instance : Container Connective where
  map := Connective.map
  children := Connective.children
  map_map f g x := by cases x <;> simp [Connective.map]
  children_map f x := by cases x <;> simp [Connective.map, Connective.children]
  ext {A x y} shapes below := by
    cases x <;> cases y <;> simp_all [Connective.map, Connective.children]

instance : Container Layer where
  map f x := { x with
    sends := mapAll f x.sends
    receives := mapAll f x.receives
    news := mapAll f x.news
    exprs := mapAll f x.exprs
    matches_ := mapAll f x.matches_
    bundles := mapAll f x.bundles
    connectives := mapAll f x.connectives }
  children x := allChildren x.sends ++ (allChildren x.receives ++ (allChildren x.news ++
    (allChildren x.exprs ++ (allChildren x.matches_ ++ (allChildren x.bundles ++
      allChildren x.connectives)))))
  map_map f g x := by simp only [map_map_all]
  children_map f x := by simp only [all_children_map, List.map_append]
  ext {A x y} shapes below := by
    cases x
    cases y
    simp only [Layer.mk.injEq] at shapes below ⊢
    obtain ⟨sends, receives, news, exprs, matches_, unforgeables, bundles, connectives, rest⟩ := shapes
    obtain ⟨belowSends, below⟩ := List.append_inj below (all_children_length sends)
    obtain ⟨belowReceives, below⟩ := List.append_inj below (all_children_length receives)
    obtain ⟨belowNews, below⟩ := List.append_inj below (all_children_length news)
    obtain ⟨belowExprs, below⟩ := List.append_inj below (all_children_length exprs)
    obtain ⟨belowMatches, below⟩ := List.append_inj below (all_children_length matches_)
    obtain ⟨belowBundles, belowConnectives⟩ := List.append_inj below (all_children_length bundles)
    exact ⟨ext_all sends belowSends, ext_all receives belowReceives, ext_all news belowNews,
      ext_all exprs belowExprs, ext_all matches_ belowMatches, unforgeables,
      ext_all bundles belowBundles, ext_all connectives belowConnectives, rest⟩

end Containers

section Fold

variable {B : Type} (alg : Layer B → B)

open Container

mutual

/-- The value of a term, from the values of the subterms of each layer. -/
def Par.fold : Par → B
  | .mk { sends, receives, news, exprs, matches_, unforgeables, bundles, connectives,
          locallyFree, connectiveUsed } =>
      alg { sends := foldSends sends, receives := foldReceives receives, news := foldNews news
            exprs := foldExprs exprs, matches_ := foldMatches matches_, unforgeables
            bundles := foldBundles bundles, connectives := foldConnectives connectives
            locallyFree, connectiveUsed }

def foldPars : List Par → List B
  | [] => []
  | p :: ps => p.fold :: foldPars ps

def foldSends : List (Send Par) → List (Send B)
  | [] => []
  | { chan, data, persistent, locallyFree, connectiveUsed } :: sends =>
    { chan := chan.fold, data := foldPars data, persistent, locallyFree, connectiveUsed } ::
      foldSends sends

def foldBinds : List (ReceiveBind Par) → List (ReceiveBind B)
  | [] => []
  | { patterns, source, remainder, freeCount } :: binds =>
    { patterns := foldPars patterns, source := source.fold, remainder, freeCount } ::
      foldBinds binds

def foldReceives : List (Receive Par) → List (Receive B)
  | [] => []
  | { binds, body, persistent, peek, bindCount, locallyFree, connectiveUsed } :: receives =>
    { binds := foldBinds binds, body := body.fold, persistent, peek, bindCount, locallyFree
      connectiveUsed } :: foldReceives receives

def foldInjections : List (String × Par) → List (String × B)
  | [] => []
  | (key, p) :: injections => (key, p.fold) :: foldInjections injections

def foldNews : List (New Par) → List (New B)
  | [] => []
  | { bindCount, p, uri, injections, locallyFree } :: news =>
    { bindCount, p := p.fold, uri, injections := foldInjections injections, locallyFree } ::
      foldNews news

def foldCases : List (MatchCase Par) → List (MatchCase B)
  | [] => []
  | { pattern, source, freeCount } :: cases =>
    { pattern := pattern.fold, source := source.fold, freeCount } :: foldCases cases

def foldMatches : List (Match Par) → List (Match B)
  | [] => []
  | { target, cases, locallyFree, connectiveUsed } :: matches_ =>
    { target := target.fold, cases := foldCases cases, locallyFree, connectiveUsed } ::
      foldMatches matches_

def foldBundles : List (Bundle Par) → List (Bundle B)
  | [] => []
  | { body, writeFlag, readFlag } :: bundles =>
    { body := body.fold, writeFlag, readFlag } :: foldBundles bundles

def foldPairs : List (Par × Par) → List (B × B)
  | [] => []
  | (key, value) :: kvs => (key.fold, value.fold) :: foldPairs kvs

def foldExpr : Expr Par → Expr B
  | .gBool value => .gBool value
  | .gInt value => .gInt value
  | .gBigInt value => .gBigInt value
  | .gString value => .gString value
  | .gUri value => .gUri value
  | .gByteArray value => .gByteArray value
  | .unary op p => .unary op p.fold
  | .eVar v => .eVar v
  | .binary op p1 p2 => .binary op p1.fold p2.fold
  | .eList { ps, locallyFree, connectiveUsed, remainder } =>
    .eList { ps := foldPars ps, locallyFree, connectiveUsed, remainder }
  | .eTuple { ps, locallyFree, connectiveUsed } =>
    .eTuple { ps := foldPars ps, locallyFree, connectiveUsed }
  | .eSet { ps, connectiveUsed, locallyFree, remainder } =>
    .eSet { ps := foldPars ps, connectiveUsed, locallyFree, remainder }
  | .eMap { kvs, connectiveUsed, locallyFree, remainder } =>
    .eMap { kvs := foldPairs kvs, connectiveUsed, locallyFree, remainder }
  | .eMethod { methodName, target, arguments, locallyFree, connectiveUsed } =>
    .eMethod { methodName, target := target.fold, arguments := foldPars arguments, locallyFree
               connectiveUsed }

def foldExprs : List (Expr Par) → List (Expr B)
  | [] => []
  | e :: exprs => foldExpr e :: foldExprs exprs

def foldConnectives : List (Connective Par) → List (Connective B)
  | [] => []
  | .connAnd ps :: connectives => .connAnd (foldPars ps) :: foldConnectives connectives
  | .connOr ps :: connectives => .connOr (foldPars ps) :: foldConnectives connectives
  | .connNot p :: connectives => .connNot p.fold :: foldConnectives connectives
  | .varRef index depth :: connectives => .varRef index depth :: foldConnectives connectives
  | .simpleType kind used :: connectives => .simpleType kind used :: foldConnectives connectives
  | .empty :: connectives => .empty :: foldConnectives connectives

end

theorem fold_pars_eq (ps : List Par) : foldPars alg ps = ps.map (Par.fold alg) := by
  induction ps with
  | nil => rfl
  | cons p _ ih => rw [foldPars, ih, List.map_cons]

theorem fold_sends_eq (sends : List (Send Par)) : foldSends alg sends = mapAll (Par.fold alg) sends := by
  induction sends with
  | nil => rfl
  | cons _ _ ih =>
    rw [foldSends, fold_pars_eq, ih]
    rfl

theorem fold_binds_eq (binds : List (ReceiveBind Par)) :
    foldBinds alg binds = mapAll (Par.fold alg) binds := by
  induction binds with
  | nil => rfl
  | cons _ _ ih =>
    rw [foldBinds, fold_pars_eq, ih]
    rfl

theorem fold_receives_eq (receives : List (Receive Par)) :
    foldReceives alg receives = mapAll (Par.fold alg) receives := by
  induction receives with
  | nil => rfl
  | cons _ _ ih =>
    rw [foldReceives, fold_binds_eq, ih]
    rfl

theorem fold_injections_eq (injections : List (String × Par)) :
    foldInjections alg injections = injections.map (Prod.map id (Par.fold alg)) := by
  induction injections with
  | nil => rfl
  | cons _ _ ih =>
    rw [foldInjections, ih]
    rfl

theorem fold_news_eq (news : List (New Par)) : foldNews alg news = mapAll (Par.fold alg) news := by
  induction news with
  | nil => rfl
  | cons _ _ ih =>
    rw [foldNews, fold_injections_eq, ih]
    rfl

theorem fold_cases_eq (cases : List (MatchCase Par)) :
    foldCases alg cases = mapAll (Par.fold alg) cases := by
  induction cases with
  | nil => rfl
  | cons _ _ ih =>
    rw [foldCases, ih]
    rfl

theorem fold_matches_eq (matches_ : List (Match Par)) :
    foldMatches alg matches_ = mapAll (Par.fold alg) matches_ := by
  induction matches_ with
  | nil => rfl
  | cons m _ ih =>
    rw [foldMatches, fold_cases_eq, ih]
    rfl

theorem fold_bundles_eq (bundles : List (Bundle Par)) :
    foldBundles alg bundles = mapAll (Par.fold alg) bundles := by
  induction bundles with
  | nil => rfl
  | cons _ _ ih =>
    rw [foldBundles, ih]
    rfl

theorem fold_pairs_eq (kvs : List (Par × Par)) :
    foldPairs alg kvs = kvs.map (Prod.map (Par.fold alg) (Par.fold alg)) := by
  induction kvs with
  | nil => rfl
  | cons _ _ ih =>
    rw [foldPairs, ih]
    rfl

theorem fold_expr_eq (e : Expr Par) : foldExpr alg e = Container.map (Par.fold alg) e := by
  cases e <;> simp only [foldExpr, fold_pars_eq, fold_pairs_eq] <;> rfl

theorem fold_exprs_eq (exprs : List (Expr Par)) :
    foldExprs alg exprs = mapAll (Par.fold alg) exprs := by
  induction exprs with
  | nil => rfl
  | cons e _ ih =>
    rw [foldExprs, fold_expr_eq, ih]
    rfl

theorem fold_connectives_eq (connectives : List (Connective Par)) :
    foldConnectives alg connectives = mapAll (Par.fold alg) connectives := by
  induction connectives with
  | nil => rfl
  | cons connective _ ih =>
    cases connective <;> simp only [foldConnectives, fold_pars_eq, ih] <;> rfl

theorem fold_mk (layer : Layer Par) :
    Par.fold alg (.mk layer) = alg (Container.map (Par.fold alg) layer) := by
  rw [Par.fold, fold_sends_eq, fold_receives_eq, fold_news_eq, fold_exprs_eq, fold_matches_eq,
    fold_bundles_eq, fold_connectives_eq]
  rfl

end Fold

section Induction

open Container

/-- Every child of a layer is smaller than the layer. -/
class Shrinking (F : Type → Type) [Container F] [SizeOf (F Par)] : Prop where
  child_size : ∀ {x : F Par} {c : Par}, c ∈ children x → sizeOf c < sizeOf x

theorem child_size_all {F : Type → Type} [Container F] [SizeOf (F Par)] [Shrinking F]
    {xs : List (F Par)} {c : Par} (mem : c ∈ allChildren xs) : sizeOf c < sizeOf xs := by
  obtain ⟨_, within, below⟩ := List.mem_flatMap.mp mem
  exact (Shrinking.child_size below).trans (List.sizeOf_lt_of_mem within)

theorem cons_size {P : Type} [SizeOf P] {head c : P} {tail : List P} (mem : c ∈ head :: tail) :
    sizeOf c ≤ sizeOf head ∨ sizeOf c < sizeOf tail :=
  (List.mem_cons.mp mem).imp (fun same => (congrArg sizeOf same).le) List.sizeOf_lt_of_mem

theorem cons_size_all {F : Type → Type} [Container F] [SizeOf (F Par)] [Shrinking F] {head c : Par}
    {tail : List (F Par)} (mem : c ∈ head :: allChildren tail) :
    sizeOf c ≤ sizeOf head ∨ sizeOf c < sizeOf tail :=
  (List.mem_cons.mp mem).imp (fun same => (congrArg sizeOf same).le) child_size_all

instance : Shrinking Send where
  child_size {x c} member := by
    have smaller := cons_size member
    cases x
    simp only [Send.mk.sizeOf_spec] at smaller ⊢
    omega

instance : Shrinking ReceiveBind where
  child_size {x c} member := by
    have smaller := cons_size member
    cases x
    simp only [ReceiveBind.mk.sizeOf_spec] at smaller ⊢
    omega

instance : Shrinking Receive where
  child_size {x c} member := by
    have smaller := cons_size_all member
    cases x
    simp only [Receive.mk.sizeOf_spec] at smaller ⊢
    omega

instance : Shrinking New where
  child_size {x c} member := by
    cases x with
    | mk bindCount p uri injections =>
      rcases List.mem_cons.mp member with rfl | later
      · simp only [New.mk.sizeOf_spec]
        omega
      · obtain ⟨⟨_, _⟩, within, rfl⟩ := List.mem_map.mp later
        have smaller := List.sizeOf_lt_of_mem within
        simp only [New.mk.sizeOf_spec, Prod.mk.sizeOf_spec] at smaller ⊢
        omega

instance : Shrinking MatchCase where
  child_size {x c} member := by
    cases x with
    | mk pattern source =>
      simp only [children, List.mem_cons, List.not_mem_nil, or_false] at member
      rcases member with rfl | rfl <;> simp only [MatchCase.mk.sizeOf_spec] <;> omega

instance : Shrinking Match where
  child_size {x c} member := by
    have smaller := cons_size_all member
    cases x
    simp only [Match.mk.sizeOf_spec] at smaller ⊢
    omega

instance : Shrinking Bundle where
  child_size {x c} member := by
    cases x with
    | mk body =>
      cases List.mem_singleton.mp member
      simp only [Bundle.mk.sizeOf_spec]
      omega

instance : Shrinking Expr where
  child_size {x c} member := by
    cases x with
    | unary op p =>
      cases List.mem_singleton.mp member
      simp only [Expr.unary.sizeOf_spec]
      omega
    | binary op p1 p2 =>
      simp only [children, Expr.children, List.mem_cons, List.not_mem_nil, or_false] at member
      rcases member with rfl | rfl <;> simp only [Expr.binary.sizeOf_spec] <;> omega
    | eList list =>
      have smaller : sizeOf c < sizeOf list.ps := List.sizeOf_lt_of_mem member
      cases list
      simp only [Expr.eList.sizeOf_spec, EList.mk.sizeOf_spec] at smaller ⊢
      omega
    | eTuple tuple =>
      have smaller : sizeOf c < sizeOf tuple.ps := List.sizeOf_lt_of_mem member
      cases tuple
      simp only [Expr.eTuple.sizeOf_spec, ETuple.mk.sizeOf_spec] at smaller ⊢
      omega
    | eSet set =>
      have smaller : sizeOf c < sizeOf set.ps := List.sizeOf_lt_of_mem member
      cases set
      simp only [Expr.eSet.sizeOf_spec, ParSet.mk.sizeOf_spec] at smaller ⊢
      omega
    | eMap map =>
      have entry : ∃ kv ∈ map.kvs, c = kv.1 ∨ c = kv.2 := by
        rcases List.mem_append.mp member with among | among
        all_goals
          obtain ⟨kv, within, rfl⟩ := List.mem_map.mp among
          exact ⟨kv, within, by simp⟩
      obtain ⟨⟨_, _⟩, within, which⟩ := entry
      have smaller := List.sizeOf_lt_of_mem within
      cases map
      simp only [Expr.eMap.sizeOf_spec, ParMap.mk.sizeOf_spec, Prod.mk.sizeOf_spec] at smaller ⊢
      rcases which with rfl | rfl <;> omega
    | eMethod method =>
      have smaller := cons_size member
      cases method
      simp only [Expr.eMethod.sizeOf_spec, EMethod.mk.sizeOf_spec] at smaller ⊢
      omega
    | _ => cases member

instance : Shrinking Connective where
  child_size {x c} member := by
    cases x with
    | connAnd ps =>
      have smaller : sizeOf c < sizeOf ps := List.sizeOf_lt_of_mem member
      simp only [Connective.connAnd.sizeOf_spec]
      omega
    | connOr ps =>
      have smaller : sizeOf c < sizeOf ps := List.sizeOf_lt_of_mem member
      simp only [Connective.connOr.sizeOf_spec]
      omega
    | connNot p =>
      cases List.mem_singleton.mp member
      simp only [Connective.connNot.sizeOf_spec]
      omega
    | _ => cases member

instance : Shrinking Layer where
  child_size {x c} member := by
    simp only [children, List.mem_append] at member
    cases x
    simp only [Layer.mk.sizeOf_spec]
    rcases member with among | among | among | among | among | among | among
    all_goals
      have smaller := child_size_all among
      dsimp only at smaller
      omega

theorem Par.induct {motive : Par → Prop}
    (step : ∀ layer : Layer Par, (∀ c ∈ children layer, motive c) → motive (.mk layer)) (p : Par) :
    motive p := by
  induction size : sizeOf p using Nat.strong_induction_on generalizing p with
  | _ size ih =>
    obtain ⟨layer⟩ := p
    refine step layer fun c mem => ih _ ?_ c rfl
    rw [← size, Par.mk.sizeOf_spec]
    exact (Shrinking.child_size mem).trans (by omega)

end Induction

section Equality

open Container

/-- Whether each test of a list accepts the term at its place in another list. -/
def accept : List (Par → Bool) → List Par → Bool
  | [], [] => true
  | test :: tests, p :: ps => test p && accept tests ps
  | _, _ => false

def Par.same : Par → Par → Bool :=
  Par.fold fun layer q => decide (shape layer = shape q.layer) && accept (children layer) (children q.layer)

theorem accept_iff {ps qs : List Par} (exact_ : ∀ p ∈ ps, ∀ q, p.same q = true ↔ p = q) :
    accept (ps.map Par.same) qs = true ↔ ps = qs := by
  induction ps generalizing qs with
  | nil => cases qs <;> simp [accept]
  | cons p _ ih =>
    cases qs with
    | nil => simp [accept]
    | cons =>
      rw [List.map_cons, accept, Bool.and_eq_true, exact_ p List.mem_cons_self,
        ih fun p mem => exact_ p (List.mem_cons_of_mem _ mem), List.cons.injEq]

theorem same_iff (p q : Par) : p.same q = true ↔ p = q := by
  induction p using Par.induct generalizing q with
  | step _ ih =>
    obtain ⟨_⟩ := q
    rw [Par.same, fold_mk, Bool.and_eq_true, decide_eq_true_eq, shape_map, children_map,
      ← Par.same, accept_iff ih, Par.mk.injEq]
    constructor
    · rintro ⟨shapes, below⟩
      exact ext shapes below
    · rintro rfl
      exact ⟨rfl, rfl⟩

instance : DecidableEq Par := fun p q => decidable_of_iff _ (same_iff p q)

end Equality

section LocallyFree

open Container

variable {P : Type} (g : BitSet → BitSet)

@[simp]
def Expr.mapFree : Expr P → Expr P
  | .eList list => .eList { list with locallyFree := g list.locallyFree }
  | .eTuple tuple => .eTuple { tuple with locallyFree := g tuple.locallyFree }
  | .eSet set => .eSet { set with locallyFree := g set.locallyFree }
  | .eMap map => .eMap { map with locallyFree := g map.locallyFree }
  | .eMethod method => .eMethod { method with locallyFree := g method.locallyFree }
  | e => e

def Layer.mapFree (layer : Layer P) : Layer P :=
  { layer with
    sends := layer.sends.map fun send => { send with locallyFree := g send.locallyFree }
    receives := layer.receives.map fun receive => { receive with locallyFree := g receive.locallyFree }
    news := layer.news.map fun new => { new with locallyFree := g new.locallyFree }
    exprs := layer.exprs.map (Expr.mapFree g)
    matches_ := layer.matches_.map fun m => { m with locallyFree := g m.locallyFree }
    locallyFree := g layer.locallyFree }

/-- Change the locally-free sets of a term, at every depth. -/
def Par.mapFree : Par → Par := Par.fold fun layer => .mk (layer.mapFree g)

/-- The term without its locally-free sets. -/
def Par.erase : Par → Par := Par.mapFree fun _ => []

/-- The derived equality: locally-free sets always compare as equal. -/
def Par.eq (p q : Par) : Bool := decide (p.erase = q.erase)

end LocallyFree

end RChain.Models
