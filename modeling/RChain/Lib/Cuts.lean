import Mathlib.Data.List.Basic

/-!
# Cuts of a list behind marked elements

A list is cut behind every `size`-th element that is marked; what is left behind the last cut has
fewer marked elements and is the last piece.
-/

namespace Cuts

open List

variable {Event : Type} (mark : Event → Bool)

/-- Split a list behind the marked element with this number, if there are so many. -/
def cutAfter : Nat → List Event → Option (List Event × List Event)
  | 0, events => some ([], events)
  | _ + 1, [] => none
  | n + 1, event :: events =>
    (cutAfter (if mark event then n else n + 1) events).map fun cut => (event :: cut.1, cut.2)

def cutsWithin (size : Nat) : Nat → List Event → List (List Event)
  | 0, events => [events]
  | rounds + 1, events =>
    match cutAfter mark size events with
    | none => [events]
    | some (piece, rest) => piece :: cutsWithin size rounds rest

/-- The pieces of a list. -/
def cuts (size : Nat) (events : List Event) : List (List Event) :=
  cutsWithin mark size events.length events

variable {mark} {size n : Nat} {events piece rest : List Event}

theorem cut_zero : cutAfter mark 0 events = some ([], events) := by
  cases events <;> rfl

theorem cut_append (cut : cutAfter mark n events = some (piece, rest)) : events = piece ++ rest := by
  induction events generalizing n piece with
  | nil =>
    cases n with
    | zero => cases cut; rfl
    | succ => cases cut
  | cons _ _ ih =>
    cases n with
    | zero => cases cut; rfl
    | succ =>
      obtain ⟨⟨_, _⟩, found, same⟩ := Option.map_eq_some_iff.mp cut
      cases same
      rw [ih found, cons_append]

theorem cut_count (cut : cutAfter mark n events = some (piece, rest)) : piece.countP mark = n := by
  induction events generalizing n piece with
  | nil =>
    cases n with
    | zero => cases cut; rfl
    | succ => cases cut
  | cons event _ ih =>
    cases n with
    | zero => cases cut; rfl
    | succ =>
      obtain ⟨⟨_, _⟩, found, same⟩ := Option.map_eq_some_iff.mp cut
      cases same
      have counted := ih found
      by_cases marked : mark event = true
      · rw [if_pos marked] at counted
        rw [countP_cons_of_pos marked, counted]
      · rw [if_neg marked] at counted
        rw [countP_cons_of_neg marked, counted]

theorem uncut_count (uncut : cutAfter mark n events = none) : events.countP mark < n := by
  induction events generalizing n with
  | nil =>
    cases n with
    | zero => cases uncut
    | succ n => exact Nat.succ_pos n
  | cons event _ ih =>
    cases n with
    | zero => cases uncut
    | succ =>
      have counted := ih (Option.map_eq_none_iff.mp uncut)
      by_cases marked : mark event = true
      · rw [if_pos marked] at counted
        rw [countP_cons_of_pos marked]
        omega
      · rw [if_neg marked] at counted
        rw [countP_cons_of_neg marked]
        omega

theorem rest_shorter (positive : 0 < n) (cut : cutAfter mark n events = some (piece, rest)) :
    rest.length < events.length := by
  have counted := cut_count cut
  have bound : piece.countP mark ≤ piece.length := countP_le_length
  rw [cut_append cut, length_append]
  omega

theorem cuts_of_none (uncut : cutAfter mark size events = none) (rounds : Nat) :
    cutsWithin mark size rounds events = [events] := by
  cases rounds with
  | zero => rfl
  | succ => rw [cutsWithin, uncut]

theorem cuts_within_congr (positive : 0 < size) {left right : Nat} (enough : events.length ≤ left)
    (also : events.length ≤ right) :
    cutsWithin mark size left events = cutsWithin mark size right events := by
  induction left generalizing right events with
  | zero =>
    have empty : events = [] := length_eq_zero_iff.mp (Nat.le_zero.mp enough)
    have uncut : cutAfter mark size events = none := by
      rw [empty]
      cases size with
      | zero => exact absurd positive (Nat.lt_irrefl 0)
      | succ => rfl
    rw [cuts_of_none uncut, cuts_of_none uncut]
  | succ left ih =>
    cases cut : cutAfter mark size events with
    | none => rw [cuts_of_none cut, cuts_of_none cut]
    | some halves =>
      obtain ⟨_, rest⟩ := halves
      have shorter := rest_shorter positive cut
      cases right with
      | zero => omega
      | succ right =>
        have same : cutsWithin mark size left rest = cutsWithin mark size right rest :=
          ih (by omega) (by omega)
        simp only [cutsWithin, cut, same]

theorem cuts_of_some (positive : 0 < size) (cut : cutAfter mark size events = some (piece, rest)) :
    cuts mark size events = piece :: cuts mark size rest := by
  have shorter := rest_shorter positive cut
  obtain ⟨_, length⟩ := Nat.exists_eq_succ_of_ne_zero (Nat.ne_of_gt (Nat.zero_lt_of_lt shorter))
  rw [cuts, length, cutsWithin, cut]
  exact congrArg _ (cuts_within_congr positive (by omega) (Nat.le_refl _))

end Cuts
