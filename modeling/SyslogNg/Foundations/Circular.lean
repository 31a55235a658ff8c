import Mathlib.Tactic

/-!
# Circular positions

The `i`-th position after `head` on a circle of `n` positions. Within one revolution
positions are distinct, and moving the head shifts them.
-/
namespace SyslogNg.Circular

def pos (n head i : ℕ) : ℕ := (head + i) % n

variable {n head i j : ℕ}

theorem pos_lt (hn : 0 < n) : pos n head i < n := Nat.mod_lt _ hn

theorem pos_inj (hi : i < n) (hj : j < n) (h : pos n head i = pos n head j) : i = j := by
  have hm : head + i ≡ head + j [MOD n] := h
  exact (Nat.ModEq.add_left_cancel' head hm).eq_of_lt_of_lt hi hj

theorem pos_shift (r : ℕ) : pos n ((head + r) % n) i = pos n head (r + i) := by
  unfold pos
  rw [Nat.mod_add_mod, Nat.add_assoc]

theorem pos_revolution : pos n head (n + i) = pos n head i := by
  unfold pos
  rw [show head + (n + i) = head + i + n by omega, Nat.add_mod_right]

end SyslogNg.Circular
