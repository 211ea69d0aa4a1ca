/-
Sums and differences of words, which go round.

# Exact where it can be

`wadd w` and `wsub w` are what adding and subtracting words of `w` bits
leaves, on numbers. A sum below `2 ^ w` and a difference above zero are
exact; a sum that goes round is below both of its parts (`wadd_lt`), so
that a running total shows it by going down.
-/
import Mathlib.Algebra.Group.Nat.Defs
import Mathlib.Data.Nat.Basic
import Mathlib.Tactic.Common

namespace Narshare

/-- Adding words. -/
def wadd (w a b : ℕ) : ℕ := (a + b) % 2 ^ w

/-- Subtracting words. -/
def wsub (w a b : ℕ) : ℕ := (a + (2 ^ w - b)) % 2 ^ w

variable {w a b : ℕ}

theorem wadd_eq (h : a + b < 2 ^ w) : wadd w a b = a + b := Nat.mod_eq_of_lt h

/-- What is left of a sum that goes round. -/
theorem wadd_round (ha : a < 2 ^ w) (hb : b < 2 ^ w) (h : 2 ^ w ≤ a + b) :
    wadd w a b = a + b - 2 ^ w := by
  rw [wadd, Nat.mod_eq_sub_mod h, Nat.mod_eq_of_lt (by omega)]

/-- A sum that goes round goes down. -/
theorem wadd_lt (ha : a < 2 ^ w) (hb : b < 2 ^ w) (h : 2 ^ w ≤ a + b) : wadd w a b < a := by
  rw [wadd_round ha hb h]
  omega

theorem wsub_eq (ha : a < 2 ^ w) (h : b ≤ a) : wsub w a b = a - b := by
  have heq : a + (2 ^ w - b) = a - b + 2 ^ w := by omega
  rw [wsub, heq, Nat.add_mod_right, Nat.mod_eq_of_lt (by omega)]

end Narshare
