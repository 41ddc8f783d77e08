import Mathlib.Algebra.Group.Nat.Defs
import Mathlib.Logic.Function.Iterate
import OpenPlc.Tones.Tone

/-! How long a tone lasts: the callbacks toggle the pin as often as the counter says, and then drive it low. -/
namespace OpenPlc.Tones

section Duration
variable {ι : Type} {board : Board ι}

/-- Any number of callbacks toggle the pin this often, and from then on drive it low. -/
def Lasts (board : Board ι) (p : ι) (toggles : Nat) (s : State ι) : Prop :=
  ∀ n, ((tonePeriodElapsedCallback board)^[n] s).operations =
    s.operations ++ (List.replicate (min n toggles) (p,.toggle) ++ List.replicate (n - toggles) (p,.write false))

theorem callback_toggles {s : State ι} {p : ι} {count : Nat} (port : board.hasPort p = true)
    (info : s.pinInfo = ⟨some p,count + 1⟩) :
    tonePeriodElapsedCallback board s =
      {s with pinInfo := ⟨some p,count⟩, operations := s.operations ++ [(p,.toggle)]} := by
  have some_ : (count : Int) + 1 ≠ 0 := by omega
  have positive : (0 : Int) < count + 1 := by omega
  simp only [tonePeriodElapsedCallback,info,port,if_true,if_pos some_,if_pos positive,Int.add_sub_cancel]

theorem callback_drives {s : State ι} {p : ι} (port : board.hasPort p = true) (info : s.pinInfo = ⟨some p,0⟩) :
    tonePeriodElapsedCallback board s = {s with operations := s.operations ++ [(p,.write false)]} := by
  simp only [tonePeriodElapsedCallback,info,port,if_true,ne_eq,not_true_eq_false,if_false]

/-- The counter goes down with the toggles, and stays at zero. -/
theorem callbacks_count {s : State ι} {p : ι} {count : Nat} (port : board.hasPort p = true)
    (info : s.pinInfo = ⟨some p,count⟩) (n : Nat) :
    (tonePeriodElapsedCallback board)^[n] s = {s with
      pinInfo := ⟨some p,(count - n : Nat)⟩
      operations :=
        s.operations ++ (List.replicate (min n count) (p,.toggle) ++ List.replicate (n - count) (p,.write false))} := by
  induction n with
  | zero =>
    simp only [Function.iterate_zero_apply,Nat.sub_zero,Nat.zero_min,Nat.zero_sub,List.replicate_zero,List.append_nil,← info]
  | succ n ih =>
    rw [Function.iterate_succ_apply',ih]
    by_cases more : n < count
    · obtain ⟨rest,rfl⟩ := Nat.exists_eq_add_of_lt more
      have left : n + rest + 1 - n = rest + 1 := by omega
      have next : n + rest + 1 - (n + 1) = rest := by omega
      have low : n - (n + rest + 1) = 0 ∧ n + 1 - (n + rest + 1) = 0 := by omega
      have high : min n (n + rest + 1) = n ∧ min (n + 1) (n + rest + 1) = n + 1 := by omega
      rw [callback_toggles port (by rw [left]; rfl),next,low.1,low.2,high.1,high.2,List.replicate_succ']
      simp only [List.replicate_zero,List.append_nil,List.append_assoc]
    · have over_ : count - n = 0 ∧ count - (n + 1) = 0 := by omega
      have low : n + 1 - count = n - count + 1 := by omega
      have high : min n count = count ∧ min (n + 1) count = count := by omega
      rw [callback_drives port (by rw [over_.1]; rfl),over_.1,over_.2,low,high.1,high.2,List.replicate_succ']
      simp only [List.append_assoc]

theorem lasts_count [DecidableEq ι] {s : State ι} {p : ι} {count : Nat} (port : board.hasPort p = true)
    (info : s.pinInfo = ⟨some p,count⟩) (toggles : Nat) : Lasts board p toggles s ↔ count = toggles := by
  constructor
  · intro lasts
    have same := lasts (count + toggles)
    rw [callbacks_count port info] at same
    have counts := congrArg (List.count (p,Operation.toggle)) (List.append_cancel_left same)
    simp only [List.count_append,List.count_replicate,beq_self_eq_true,if_true] at counts
    have other : ((p,Operation.write false) == (p,Operation.toggle)) = false := by simp
    rw [other,if_neg Bool.false_ne_true,if_neg Bool.false_ne_true] at counts
    omega
  · rintro rfl n
    rw [callbacks_count port info]

theorem count_eq (product : UInt32) : (product / 1000).toInt32.toInt = (product.toNat / 1000 : Nat) := by
  have less := product.toNat_lt
  have small : 2 * (product / 1000).toNat < 2 ^ 32 := by
    rw [UInt32.toNat_div]
    change 2 * (product.toNat / 1000) < 4294967296
    omega
  have value : (product / 1000).toInt32.toInt = ((product / 1000).toNat : Int) := BitVec.toInt_eq_toNat_of_lt small
  rw [value,UInt32.toNat_div]
  rfl

theorem product_eq (frequency : Frequency) (duration : UInt32) :
    (2 * frequency.val * duration).toNat = 2 * frequency.val.toNat * duration.toNat % 2 ^ 32 := by
  rw [UInt32.toNat_mul,UInt32.toNat_mul,Nat.mod_mul_mod]
  rfl

section Requests
variable [DecidableEq ι] {s : State ι} (pin : ValidPin board) (frequency : Frequency) (duration : UInt32)

/-- The counter is the count of the toggles if the product does not wrap before it is divided. -/
theorem tone_lasts (timed : 0 < duration) (free : s.pinInfo.pin = none ∨ s.pinInfo.pin = some pin.name) (toggles : Nat) :
    ∃ after, tone board s pin.number frequency.val duration = some after ∧ (Lasts board pin.name toggles after ↔
      2 * frequency.val.toNat * duration.toNat % 2 ^ 32 / 1000 = toggles) := by
  refine ⟨_,tone_free pin frequency duration free,?_⟩
  rw [← product_eq]
  refine lasts_count pin.port ?_ toggles
  rw [if_pos timed,count_eq]

theorem duration_iff (timed : 0 < duration) (free : s.pinInfo.pin = none ∨ s.pinInfo.pin = some pin.name) :
    ∃ after, tone board s pin.number frequency.val duration = some after ∧
      (Lasts board pin.name (2 * frequency.val.toNat * duration.toNat / 1000) after ↔
        2 * frequency.val.toNat * duration.toNat < 2 ^ 32) := by
  obtain ⟨after,took,lasts⟩ := tone_lasts pin frequency duration timed free (2 * frequency.val.toNat * duration.toNat / 1000)
  refine ⟨after,took,lasts.trans ?_⟩
  omega

end Requests

theorem duration_iff_second :
    0 < (1000 : UInt32) ∧ ((boot : State UInt8).pinInfo.pin = none ∨ (boot : State UInt8).pinInfo.pin = some 5) ∧
      ∃ after, tone plainBoard boot 5 440 1000 = some after ∧
        (Lasts plainBoard 5 (2 * 440 * 1000 / 1000) after ↔ 2 * 440 * 1000 < 2 ^ 32) :=
  ⟨by decide,Or.inl rfl,duration_iff (plainPin 5) ⟨440,by decide⟩ 1000 (by decide) (Or.inl rfl)⟩

/-- A tone of ten minutes stops after one, its count having wrapped. -/
theorem duration_wraps :
    2 * 4000 * 600000 / 1000 < 2 ^ 31 ∧ ∃ after, tone plainBoard boot 5 4000 600000 = some after ∧
      ¬ Lasts plainBoard 5 (2 * 4000 * 600000 / 1000) after := by
  obtain ⟨after,took,lasts⟩ := tone_lasts (s := boot) (plainPin 5) ⟨4000,by decide⟩ 600000 (by decide) (Or.inl rfl)
    (2 * 4000 * 600000 / 1000)
  refine ⟨by decide,after,took,fun claimed => ?_⟩
  have wrapped := lasts.mp claimed
  exact absurd wrapped (by decide)

end Duration

end OpenPlc.Tones
