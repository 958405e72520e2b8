import Mathlib.Algebra.Group.Nat.Defs

namespace Foundation.Counter

-- A 64-bit counter that starts at zero shows the number of its increments modulo 2 ^ 64.
variable {w w' : UInt64} {m n : Nat}

theorem succ (h : w = .ofNat n) : w + 1 = .ofNat (n + 1) := by
  rw [h, UInt64.ofNat_add]
  rfl

theorem add (h : w = .ofNat n) (k : Nat) : w + .ofNat k = .ofNat (n + k) := by
  rw [h, UInt64.ofNat_add]

theorem toNat_eq (h : w = .ofNat n) (hn : n < 2 ^ 64) : w.toNat = n := by
  rw [h]
  exact UInt64.toNat_ofNat_of_lt' hn

-- The counter and the number it counts make the same move.
theorem move {a b : Nat} (h : w = .ofNat m) (hw : w' + .ofNat a = w + .ofNat b)
    (hm : n + a = m + b) : w' = .ofNat n := by
  have hsum : w' + .ofNat a = .ofNat n + .ofNat a := by
    rw [hw, h, ← UInt64.ofNat_add, ← UInt64.ofNat_add, hm]
  exact (UInt64.add_left_inj (.ofNat a)).mp hsum

end Foundation.Counter
