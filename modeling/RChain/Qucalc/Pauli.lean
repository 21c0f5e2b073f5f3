import Mathlib.Algebra.Group.Prod
import Mathlib.Data.List.Count
import RChain.Lib.BitCodec

/-!
# Twist histories

Source: `qucalc/src/lib.rs`.

The source's `i32` is `Int` with a check: an operation that leaves the range is `none`. A count of
letters, `i64` there, is a `Nat`.
-/

namespace RChain.Qucalc

open BitCodec List

def i32 (value : Int) : Option Int :=
  if -2 ^ 31 ≤ value ∧ value < 2 ^ 31 then some value else none

/-- An integer complex number. -/
abbrev C := Int × Int

/-- The rows of a matrix, one after the other. -/
abbrev Matrix := C × C × C × C

def twistMatrix (t : Byte) : Matrix :=
  match t.val with
  | 0 => ((0, 0), (0, -1), (0, 1), (0, 0))
  | 1 => ((0, 0), (0, 1), (0, -1), (0, 0))
  | 2 => ((0, 0), (1, 0), (1, 0), (0, 0))
  | 3 => ((0, 0), (-1, 0), (-1, 0), (0, 0))
  | 4 => ((1, 0), (0, 0), (0, 0), (-1, 0))
  | 5 => ((-1, 0), (0, 0), (0, 0), (1, 0))
  | 6 => ((1, 0), (0, 0), (0, 0), (1, 0))
  | 7 => ((-1, 0), (0, 0), (0, 0), (-1, 0))
  | _ => ((1, 0), (0, 0), (0, 0), (1, 0))

def cmul (a b : C) : Option C := do
  let re ← i32 ((← i32 (a.1 * b.1)) - (← i32 (a.2 * b.2)))
  let im ← i32 ((← i32 (a.1 * b.2)) + (← i32 (a.2 * b.1)))
  return (re, im)

def cadd (a b : C) : Option C := do
  return (← i32 (a.1 + b.1), ← i32 (a.2 + b.2))

/-- The product that `pauli_fold` writes out. -/
def product : Matrix → Matrix → Option Matrix
  | (a, b, c, d), (e, f, g, h) => do
    return (← cadd (← cmul a e) (← cmul b g), ← cadd (← cmul a f) (← cmul b h),
      ← cadd (← cmul c e) (← cmul d g), ← cadd (← cmul c f) (← cmul d h))

def identity : Matrix := ((1, 0), (0, 0), (0, 0), (1, 0))

def pauliFold (twists : List Byte) : Option Matrix :=
  twists.foldlM (fun acc t => product acc (twistMatrix t)) identity

inductive Phase where
  | plusI
  | minusI
  | plusImag
  | minusImag
deriving DecidableEq

def Phase.asC : Phase → C
  | plusI => (1, 0)
  | minusI => (-1, 0)
  | plusImag => (0, 1)
  | minusImag => (0, -1)

def phases : List Phase := [.plusI, .minusI, .plusImag, .minusImag]

def phaseOf : Matrix → Option Phase
  | (a, b, c, d) => if b ≠ (0, 0) ∨ c ≠ (0, 0) ∨ a ≠ d then none else phases.find? (·.asC = a)

def pauliPhase (twists : List Byte) : Option (Option Phase) :=
  (pauliFold twists).map phaseOf

def pauliClosed (twists : List Byte) : Option Bool :=
  (pauliPhase twists).map Option.isSome

def countBalanced (twists : List Byte) : Bool :=
  let (pos, neg) := twists.foldl (fun (p, n) t => if t.val % 2 = 0 then (p + 1, n) else (p, n + 1))
    ((0, 0) : Nat × Nat)
  pos = neg

def achievesZfa (twists : List Byte) : Option Bool :=
  (pauliClosed twists).map (· && countBalanced twists)

structure Synthesis where
  intersection : List Byte
  geometry : List Byte
  zfa : Bool
  phase : Option Phase

def dialecticalSynthesis (subject predicate : List Byte) : Option Synthesis := do
  let geometry := subject ++ predicate
  return ⟨subject ++ [6] ++ ([7] ++ predicate), geometry, ← achievesZfa geometry,
    ← pauliPhase geometry⟩

def cTimes (a b : C) : C := (a.1 * b.1 - a.2 * b.2, a.1 * b.2 + a.2 * b.1)

/-- The product without the range checks. -/
def times : Matrix → Matrix → Matrix
  | (a, b, c, d), (e, f, g, h) => (cTimes a e + cTimes b g, cTimes a f + cTimes b h,
      cTimes c e + cTimes d g, cTimes c f + cTimes d h)

theorem times_assoc (x y z : Matrix) : times (times x y) z = times x (times y z) := by
  simp only [times, cTimes, Prod.mk_add_mk, Prod.mk.injEq]
  refine ⟨⟨?_, ?_⟩, ⟨?_, ?_⟩, ⟨?_, ?_⟩, ?_, ?_⟩ <;> ring

theorem identity_times (x : Matrix) : times identity x = x := by
  simp [times, cTimes, identity, Prod.mk_zero_zero]

theorem times_identity (x : Matrix) : times x identity = x := by
  simp [times, cTimes, identity, Prod.mk_zero_zero]

/-- The phases times the four letters of positive sign. -/
def pauliGroup : List Matrix :=
  phases.flatMap fun p => ([6, 2, 0, 4] : List Byte).map fun t =>
    times (p.asC, (0, 0), (0, 0), p.asC) (twistMatrix t)

theorem twist_matrix_mem (t : Byte) : twistMatrix t ∈ pauliGroup := by
  unfold twistMatrix
  split <;> decide

set_option synthInstance.maxSize 1000 in
theorem pauli_group_closed : ∀ a ∈ pauliGroup, ∀ b ∈ pauliGroup,
    product a b = some (times a b) ∧ times a b ∈ pauliGroup := by
  decide +kernel

set_option synthInstance.maxSize 1000 in
/-- A product that is a phase does not depend on the order, phases commute with everything, and
their products are phases. -/
theorem pauli_group_phases : ∀ a ∈ pauliGroup, ∀ b ∈ pauliGroup,
    ((phaseOf (times a b)).isSome → times b a = times a b) ∧
      ((phaseOf b).isSome → times a b = times b a) ∧
      ((phaseOf a).isSome → (phaseOf b).isSome → (phaseOf (times a b)).isSome) := by
  decide +kernel

theorem pauli_group_entries : ∀ m ∈ pauliGroup, ∀ entry ∈ [m.1, m.2.1, m.2.2.1, m.2.2.2],
    entry.1 ∈ [-1, 0, 1] ∧ entry.2 ∈ [-1, 0, 1] := by
  decide

def folded (twists : List Byte) : Matrix :=
  twists.foldr (fun t rest => times (twistMatrix t) rest) identity

theorem folded_mem (twists : List Byte) : folded twists ∈ pauliGroup := by
  induction twists with
  | nil => decide
  | cons t twists ih => exact (pauli_group_closed _ (twist_matrix_mem t) _ ih).2

theorem folded_append (w v : List Byte) : folded (w ++ v) = times (folded w) (folded v) := by
  induction w with
  | nil => exact (identity_times _).symm
  | cons t w ih => exact (congrArg (times (twistMatrix t)) ih).trans (times_assoc ..).symm

theorem fold_from {m : Matrix} (mem : m ∈ pauliGroup) (twists : List Byte) :
    twists.foldlM (fun acc t => product acc (twistMatrix t)) m =
      some (times m (folded twists)) := by
  induction twists generalizing m with
  | nil => exact congrArg some (times_identity m).symm
  | cons t twists ih =>
    obtain ⟨next, known⟩ := pauli_group_closed m mem _ (twist_matrix_mem t)
    rw [foldlM_cons, next, Option.bind_eq_bind, Option.bind_some, ih known, times_assoc]
    rfl

theorem pauli_fold_eq (twists : List Byte) : pauliFold twists = some (folded twists) :=
  (fold_from (by decide) twists).trans (congrArg some (identity_times _))

theorem count_balanced_iff (twists : List Byte) : countBalanced twists = true ↔
    twists.countP (·.val % 2 = 0) = twists.countP (·.val % 2 = 1) := by
  have counts (p n : Nat) : twists.foldl
      (fun (p, n) t => if t.val % 2 = 0 then (p + 1, n) else (p, n + 1)) (p, n) =
        (p + twists.countP (·.val % 2 = 0), n + twists.countP (·.val % 2 = 1)) := by
    induction twists generalizing p n with
    | nil => rfl
    | cons t twists ih =>
      rw [foldl_cons]
      split_ifs with even
      · simp [ih, even]
        omega
      · have odd : t.val % 2 = 1 := by omega
        simp [ih, odd]
        omega
  rw [countBalanced, counts]
  simp

/-- A history that is Pauli-closed and count-balanced. -/
def Zfa (twists : List Byte) : Prop := achievesZfa twists = some true

theorem zfa_iff (twists : List Byte) : Zfa twists ↔ (phaseOf (folded twists)).isSome ∧
    twists.countP (·.val % 2 = 0) = twists.countP (·.val % 2 = 1) := by
  rw [← count_balanced_iff, Zfa, achievesZfa, pauliClosed, pauliPhase, pauli_fold_eq]
  simp

theorem pauli_fold_homomorphism :
    (∀ w v, ∃ m n p, pauliFold w = some m ∧ pauliFold v = some n ∧ product m n = some p ∧
      pauliFold (w ++ v) = some p) ∧
    (∀ w, ∃ a b c d, pauliFold w = some (a, b, c, d) ∧
      ∀ entry ∈ [a, b, c, d], entry.1 ∈ [-1, 0, 1] ∧ entry.2 ∈ [-1, 0, 1]) ∧
    (∀ w v, Zfa w → Zfa v → Zfa (w ++ v) ∧
      ∃ phase, dialecticalSynthesis w v = some ⟨w ++ [6, 7] ++ v, w ++ v, true, phase⟩) ∧
    (∀ w v, Zfa (w ++ v) → Zfa (v ++ w)) ∧
    ∀ w z v, Zfa z → Zfa (w ++ v) → Zfa (w ++ z ++ v) := by
  have insertion (w z v : List Byte) (closed : Zfa z) (around : Zfa (w ++ v)) :
      Zfa (w ++ z ++ v) := by
    rw [zfa_iff] at closed around ⊢
    rw [folded_append] at around
    have central := (pauli_group_phases _ (folded_mem w) _ (folded_mem z)).2.1 closed.1
    have inside := (pauli_group_closed _ (folded_mem w) _ (folded_mem v)).2
    rw [folded_append, folded_append, central, times_assoc]
    refine ⟨(pauli_group_phases _ (folded_mem z) _ inside).2.2 closed.1 around.1, ?_⟩
    simp only [countP_append] at around ⊢
    omega
  refine ⟨fun w v => ?_, fun w => ?_, fun w v first second => ?_, fun w v whole => ?_, insertion⟩
  · refine ⟨_, _, _, pauli_fold_eq w, pauli_fold_eq v,
      (pauli_group_closed _ (folded_mem w) _ (folded_mem v)).1, ?_⟩
    rw [pauli_fold_eq, folded_append]
  · exact ⟨_, _, _, _, pauli_fold_eq w, pauli_group_entries _ (folded_mem w)⟩
  · have added := insertion w v [] second (by rwa [append_nil])
    rw [append_nil] at added
    refine ⟨added, phaseOf (folded (w ++ v)), ?_⟩
    rw [Zfa] at added
    simp [dialecticalSynthesis, added, pauliPhase, pauli_fold_eq]
  · rw [zfa_iff, folded_append] at whole
    rw [zfa_iff, folded_append,
      (pauli_group_phases _ (folded_mem w) _ (folded_mem v)).1 whole.1]
    refine ⟨whole.1, ?_⟩
    have balanced := whole.2
    simp only [countP_append] at balanced ⊢
    omega

end RChain.Qucalc
