import Mathlib.Data.Finmap

/-!
# Ledgers

The total of a finite map of amounts, and how writing or erasing one account changes
it. The amounts are of any type with a worth in the natural numbers.
-/

namespace Ledger

open Finmap

variable {Account Amount : Type*} [DecidableEq Account]

abbrev Book (Account Amount : Type*) := Finmap fun _ : Account => Amount

def total (worth : Amount → Nat) (book : Book Account Amount) : Nat :=
  (book.entries.map fun entry => worth entry.2).sum

/-- The worth of one account; an absent account is worth nothing. -/
def held (worth : Amount → Nat) (book : Book Account Amount) (account : Account) : Nat :=
  ((book.lookup account).map worth).getD 0

variable (worth : Amount → Nat) (book : Book Account Amount)

theorem total_insert_absent {account : Account} (amount : Amount) (absent : account ∉ book) :
    total worth (book.insert account amount) = worth amount + total worth book := by
  simp [total, entries_insert_of_notMem absent]

theorem insert_erase (account : Account) (amount : Amount) :
    (book.erase account).insert account amount = book.insert account amount := by
  apply ext_lookup
  intro other
  by_cases same : other = account
  · subst same
    rw [lookup_insert, lookup_insert]
  · rw [lookup_insert_of_ne _ same, lookup_insert_of_ne _ same, lookup_erase_ne same]

theorem erase_absent {account : Account} (absent : book.lookup account = none) :
    book.erase account = book := by
  apply ext_lookup
  intro other
  by_cases same : other = account
  · subst same
    rw [lookup_erase, absent]
  · rw [lookup_erase_ne same]

theorem insert_present {account : Account} {amount : Amount}
    (present : book.lookup account = some amount) : book.insert account amount = book := by
  apply ext_lookup
  intro other
  by_cases same : other = account
  · subst same
    rw [lookup_insert, present]
  · rw [lookup_insert_of_ne _ same]

theorem total_erase (account : Account) :
    total worth (book.erase account) + held worth book account = total worth book := by
  cases present : book.lookup account with
  | none => simp [held, present, erase_absent book present]
  | some amount =>
    have rebuilt := total_insert_absent worth (book.erase account) amount (notMem_erase_self)
    rw [insert_erase, insert_present book present] at rebuilt
    simp only [held, present, Option.map_some, Option.getD_some]
    omega

theorem total_insert (account : Account) (amount : Amount) :
    total worth (book.insert account amount) + held worth book account =
      total worth book + worth amount := by
  have written := total_insert_absent worth (book.erase account) amount (notMem_erase_self)
  rw [insert_erase] at written
  have erased := total_erase worth book account
  omega

theorem held_le_total (account : Account) : held worth book account ≤ total worth book := by
  have erased := total_erase worth book account
  omega

end Ledger
