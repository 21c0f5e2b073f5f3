import RChain.Rholang.Accounting

/-!
# Bundles

Source: `Bundle` of `models/src/ast.rs`, `single_bundle` and `prepend_bundle` of
`models/src/par_ops.rs`, `normalize_bundle` of `rholang/src/normalizer.rs`,
`substitute_bundle_no_sort` of `rholang/src/substitute.rs`, the channels of `resolve_send` and
`unbundle_receive` of `rholang/src/reduce.rs`, and `spatial_match_bundle` of
`rholang/src/matcher/spatial_matcher.rs`.

The evaluation and substitution of what stands in a bundle are given by their results.
-/

namespace RChain.Rholang

open RChain.Models

/-- Keep the other's body, and only the permissions that both give. -/
def mergeBundles (bundle other : Bundle Par) : Bundle Par where
  body := other.body
  writeFlag := bundle.writeFlag && other.writeFlag
  readFlag := bundle.readFlag && other.readFlag

def singleBundle (p : Par) : Option (Bundle Par) :=
  match p.layer with
  | { sends := [], receives := [], news := [], exprs := [], matches_ := [], unforgeables := [],
      bundles := [bundle], connectives := [], .. } => some bundle
  | _ => none

def unionFree (a b : BitSet) : BitSet := (a ++ b).dedup.mergeSort

def prependBundle (par : Par) (b : Bundle Par) : Par :=
  .mk { par.layer with
    bundles := b :: par.layer.bundles
    locallyFree := unionFree b.body.layer.locallyFree par.layer.locallyFree }

inductive BundleKind where
  | bundleReadWrite | bundleRead | bundleWrite | bundleEquiv
deriving DecidableEq

/-- The permissions that a bundle of a kind gives: to write and to read. -/
def BundleKind.flags : BundleKind → Bool × Bool
  | .bundleReadWrite => (true, true)
  | .bundleRead => (false, true)
  | .bundleWrite => (true, false)
  | .bundleEquiv => (false, false)

/-- The bundle around a normalized body, before the process `par`; `closed` says that the body left
no free variables or wildcards. -/
def normalizeBundle (kind : BundleKind) (target : Par) (closed : Bool) (par : Par) :
    Except RholangError Par :=
  let outermost : Bundle Par := ⟨target, kind.flags.1, kind.flags.2⟩
  if target.layer.connectives ≠ [] then
    .error (.unexpectedBundleContent "Illegal top level connective in bundle.")
  else if closed = false then
    .error (.unexpectedBundleContent "Bundle's content must not have free variables or wildcards.")
  else
    .ok (prependBundle par
      (match singleBundle target with
        | some single => mergeBundles outermost single
        | none => outermost))

/-- A bundle whose body becomes `sub`. -/
def substituteBundle (bundle : Bundle Par) (sub : Par) : Bundle Par :=
  match singleBundle sub with
  | some single => mergeBundles bundle single
  | none => { bundle with body := sub }

/-- The channel that a send takes, from the evaluated and substituted one. -/
def sendChannel (chan : Par) : Except RholangError Par :=
  match singleBundle chan with
  | some value =>
    if value.writeFlag then .ok value.body
    else .error (.reduceError "Trying to send on non-writeable channel.")
  | none => .ok chan

/-- The channel that a receive takes, from the evaluated and substituted one. -/
def unbundleReceive (source : Par) : Except RholangError Par :=
  match singleBundle source with
  | some value =>
    if value.readFlag then .ok value.body
    else .error (.reduceError "Trying to read from non-readable channel.")
  | none => .ok source

def spatialMatchBundle {FreeMap : Type} (target pattern : Bundle Par) (fm : FreeMap) :
    List FreeMap :=
  if pattern.body.eq target.body ∧ pattern.writeFlag = target.writeFlag ∧
      pattern.readFlag = target.readFlag then [fm] else []

/-- A channel with the permissions of all bundles that were put around it, outermost first:
by normalization, and by substitution into the body of a bundle. -/
inductive Bundled : Par → List (Bool × Bool) → Par → Prop where
  | bare {channel : Par} (plain : singleBundle channel = none) : Bundled channel [] channel
  | normalized {channel : Par} {flags : List (Bool × Bool)} {target p : Par} (kind : BundleKind)
      (inner : Bundled channel flags target)
      (normal : normalizeBundle kind target true (.mk {}) = .ok p) :
      Bundled channel (kind.flags :: flags) p
  | substituted {channel other : Par} {outer flags : List (Bool × Bool)} {holder sub p : Par}
      {bundle : Bundle Par} (around : Bundled other outer holder)
      (held : singleBundle holder = some bundle) (inner : Bundled channel flags sub)
      (single : singleBundle p = some (substituteBundle bundle sub)) :
      Bundled channel (outer ++ flags) p

def joined (channel : Par) (flags : List (Bool × Bool)) : Option (Bundle Par) :=
  match flags with
  | [] => none
  | _ => some ⟨channel, flags.all (·.1), flags.all (·.2)⟩

theorem single_prepend (b : Bundle Par) : singleBundle (prependBundle (.mk {}) b) = some b := rfl

theorem single_bundled {channel p : Par} {flags : List (Bool × Bool)}
    (bundled : Bundled channel flags p) :
    singleBundle p = joined channel flags ∧ (flags = [] → p = channel) := by
  induction bundled with
  | bare plain => simp [joined, plain]
  | @normalized channel flags target p kind _ normal ih =>
    simp only [normalizeBundle, Bool.true_eq_false, if_false] at normal
    split_ifs at normal
    cases normal
    rw [single_prepend, ih.1]
    cases flags with
    | nil => simp [joined, ih.2 rfl]
    | cons => simp [joined, mergeBundles]
  | @substituted channel other outer flags holder sub p bundle _ held _ single around inner =>
    rw [around.1] at held
    cases outer with
    | nil => cases held
    | cons =>
      cases held
      rw [single, substituteBundle, inner.1]
      cases flags with
      | nil => simp [joined, inner.2 rfl]
      | cons => simp [joined, mergeBundles, Bool.and_assoc]

/-- A send takes effect on a channel exactly when every bundle around it allows to write, a receive
exactly when every one allows to read, and matching a bundle binds nothing. -/
theorem bundles_attenuate {channel p : Par} {flags : List (Bool × Bool)}
    (bundled : Bundled channel flags p) :
    (flags ≠ [] → singleBundle p = some ⟨channel, flags.all (·.1), flags.all (·.2)⟩) ∧
    sendChannel p = (if flags.all (·.1) then .ok channel
      else .error (.reduceError "Trying to send on non-writeable channel.")) ∧
    unbundleReceive p = (if flags.all (·.2) then .ok channel
      else .error (.reduceError "Trying to read from non-readable channel.")) ∧
    ∀ {FreeMap : Type} (pattern bundle : Bundle Par) (fm fm' : FreeMap),
      fm' ∈ spatialMatchBundle bundle pattern fm → fm' = fm := by
  have single := single_bundled bundled
  refine ⟨fun some => ?_, ?_, ?_, fun pattern bundle fm fm' member => ?_⟩
  · cases flags with
    | nil => exact absurd rfl some
    | cons => exact single.1
  · cases flags with
    | nil =>
      rw [sendChannel, single.1, single.2 rfl]
      rfl
    | cons => simp [sendChannel, single.1, joined]
  · cases flags with
    | nil =>
      rw [unbundleReceive, single.1, single.2 rfl]
      rfl
    | cons => simp [unbundleReceive, single.1, joined]
  · unfold spatialMatchBundle at member
    split_ifs at member
    · exact List.mem_singleton.mp member
    · cases member

def sampleName : Par := .mk { unforgeables := [.gPrivate [1]] }

/-- A name in a bundle to read, put into one to write by substitution, allows neither. -/
theorem read_in_write_attenuates :
    let variable_ : Par := .mk { exprs := [.eVar (.boundVar 0)] }
    let readable := prependBundle (.mk {}) ⟨sampleName, false, true⟩
    let p := prependBundle (.mk {}) (substituteBundle ⟨variable_, true, false⟩ readable)
    sendChannel p = .error (.reduceError "Trying to send on non-writeable channel.") ∧
      unbundleReceive p = .error (.reduceError "Trying to read from non-readable channel.") := by
  intro variable_ readable _
  have inner : Bundled sampleName [(false, true)] readable :=
    .normalized .bundleRead (.bare rfl) rfl
  have around : Bundled variable_ [(true, false)]
      (prependBundle (.mk {}) ⟨variable_, true, false⟩) :=
    .normalized .bundleWrite (.bare rfl) rfl
  have attenuated := bundles_attenuate (Bundled.substituted around rfl inner (single_prepend _))
  exact ⟨attenuated.2.1, attenuated.2.2.1⟩

end RChain.Rholang
