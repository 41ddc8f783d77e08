import Mathlib.Algebra.Group.Nat.Defs
import Mathlib.Tactic.Common

/-! A clock of 32 bits that wraps around, against one that does not. -/
namespace OpenPlc.Wrapping

theorem ofNat_add (a : Nat) (b : UInt32) : UInt32.ofNat a + b = UInt32.ofNat (a + b.toNat) := by
  rw [UInt32.ofNat_add,UInt32.ofNat_toNat]

theorem toNat_sub_ofNat (a b : Nat) : (UInt32.ofNat a - UInt32.ofNat b).toNat = (a + (2 ^ 32 - b % 2 ^ 32)) % 2 ^ 32 := by
  rw [UInt32.toNat_sub,UInt32.toNat_ofNat',UInt32.toNat_ofNat']
  omega

/-- What has elapsed is measured as long as it fits. -/
theorem elapsed_ofNat (start now : Nat) (later : start ≤ now) (fits : now < start + 2 ^ 32) :
    (UInt32.ofNat now - UInt32.ofNat start).toNat = now - start := by
  rw [toNat_sub_ofNat]
  omega

/-- Two times that are less than half a period apart are ordered by the sign of their difference. -/
theorem half_lt_sub_iff (a b : Nat) (below : a < b + 2 ^ 31) (above : b ≤ a + 2 ^ 31) :
    0x7fffffff < UInt32.ofNat a - UInt32.ofNat b ↔ a < b := by
  rw [UInt32.lt_iff_toNat_lt,toNat_sub_ofNat]
  change 2147483647 < _ ↔ _
  omega

end OpenPlc.Wrapping
