import Mathlib.Data.Rat.Cast.Order
import Mathlib.Algebra.Order.Field.Basic
import Mathlib.Tactic.Linarith
import OpenPlc.Serial.SoftwareSerial

/-! The prescaler and the compare value that `setSpeed` finds for a speed. -/
namespace OpenPlc.Serial.SoftwareSerial

section Search
variable {clockRate divisor : UInt32}

/-- The loop halves the clock as often as the quotient is too large for the compare register. -/
theorem prescale_halves (clockRate divisor pre : UInt32) : ∃ k,
    (prescale clockRate divisor pre).1 = pre * .ofNat (2 ^ k) ∧
      (prescale clockRate divisor pre).2.toNat = clockRate.toNat / 2 ^ k / divisor.toNat ∧
      (prescale clockRate divisor pre).2 < 65535 ∧ ∀ j < k, 65535 ≤ clockRate.toNat / 2 ^ j / divisor.toNat := by
  fun_induction prescale clockRate divisor pre with
  | case1 clockRate pre large ih =>
    obtain ⟨k,factor,value,small,before⟩ := ih
    have halves (j : Nat) : (clockRate / 2).toNat / 2 ^ j = clockRate.toNat / 2 ^ (j + 1) := by
      rw [UInt32.toNat_div,Nat.pow_succ',← Nat.div_div_eq_div_mul]
      rfl
    refine ⟨k + 1,?_,?_,small,fun j below => ?_⟩
    · rw [factor,Nat.pow_succ',UInt32.ofNat_mul,UInt32.mul_assoc]
      rfl
    · rw [value,halves]
    · cases j with
      | zero =>
        rw [Nat.pow_zero,Nat.div_one,← UInt32.toNat_div]
        exact UInt32.le_iff_toNat_le.mp large
      | succ j =>
        rw [← halves]
        exact before j (Nat.lt_of_succ_lt_succ below)
  | case2 clockRate pre small =>
    refine ⟨0,(UInt32.mul_one pre).symm,?_,UInt32.not_le.mp small,fun j below => absurd below (Nat.not_lt_zero j)⟩
    rw [UInt32.toNat_div,Nat.pow_zero,Nat.div_one]

/-- Fifteen halvings bring every clock of 32 bits below the limit for the smallest divisor. -/
theorem halvings_le {k : Nat} (divides : oversample ≤ divisor.toNat)
    (before : ∀ j < k, 65535 ≤ clockRate.toNat / 2 ^ j / divisor.toNat) : k ≤ 15 := by
  by_contra more
  have word := clockRate.toNat_lt
  have divisor_least : clockRate.toNat / 2 ^ 15 / divisor.toNat ≤ clockRate.toNat / 2 ^ 15 / 3 :=
    Nat.div_le_div_left divides (by decide)
  have large := before 15 (Nat.lt_of_not_le more)
  omega

end Search

/-- The registers hold a prescaler and a compare value whose product is that of the clock and the rate of the ticks but for
less than one step of the prescaler. -/
structure Prescaled (timer : Timer) (rate : Nat) : Prop where
  overflow_lt : timer.overflow.toNat < 65535
  overflow_pos : rate ≤ timer.clkFreq.toNat → 1 ≤ timer.overflow.toNat
  power : ∃ k ≤ 15, timer.prescaleFactor.toNat = 2 ^ k
  near : |(timer.prescaleFactor.toNat * timer.overflow.toNat : ℚ) - timer.clkFreq.toNat / rate| < timer.prescaleFactor.toNat

theorem quotient_near (clock : Nat) {factor rate : Nat} (positive : 0 < rate) (some_ : 0 < factor) :
    |(factor * (clock / factor / rate : Nat) : ℚ) - clock / rate| < factor := by
  have low : factor * (clock / factor / rate) * rate ≤ clock := by
    rw [Nat.div_div_eq_div_mul,Nat.mul_right_comm,Nat.mul_comm (factor * rate)]
    exact Nat.div_mul_le_self clock (factor * rate)
  have high : clock < factor * (clock / factor / rate + 1) * rate := by
    rw [Nat.div_div_eq_div_mul,Nat.mul_right_comm]
    exact Nat.lt_mul_div_succ clock (Nat.mul_pos some_ positive)
  have rate_pos : (0 : ℚ) < rate := by exact_mod_cast positive
  have below : (factor * (clock / factor / rate : Nat) : ℚ) ≤ clock / rate := by
    rw [le_div_iff₀ rate_pos]
    exact_mod_cast low
  have above : (clock : ℚ) / rate < factor * (clock / factor / rate : Nat) + factor := by
    rw [div_lt_iff₀ rate_pos]
    have scaled : (clock : ℚ) < factor * ((clock / factor / rate : Nat) + 1) * rate := by exact_mod_cast high
    linarith
  rw [abs_sub_lt_iff]
  have steps : (0 : ℚ) < factor := by exact_mod_cast some_
  constructor <;> linarith

theorem prescale_prescaled (clock divisor : UInt32) (divides : oversample ≤ divisor.toNat) :
    Prescaled ⟨clock,(prescale clock divisor 1).1,(prescale clock divisor 1).2,true,true⟩ divisor.toNat := by
  obtain ⟨k,factor,value,small,before⟩ := prescale_halves clock divisor 1
  have positive : 0 < divisor.toNat := Nat.lt_of_lt_of_le (by decide) divides
  have most : k ≤ 15 := halvings_le divides before
  have power : (prescale clock divisor 1).1.toNat = 2 ^ k := by
    have word : 2 ^ k < 2 ^ 32 := Nat.pow_lt_pow_right (by decide) (Nat.lt_of_le_of_lt most (by decide))
    rw [factor,UInt32.one_mul,UInt32.toNat_ofNat']
    exact Nat.mod_eq_of_lt word
  refine ⟨UInt32.lt_iff_toNat_lt.mp small,fun enough => ?_,⟨k,most,power⟩,?_⟩
  · change 1 ≤ (prescale clock divisor 1).2.toNat
    rw [value]
    cases k with
    | zero =>
      rw [Nat.pow_zero,Nat.div_one]
      exact (Nat.one_le_div_iff positive).mpr enough
    | succ k =>
      -- the quotient before the last halving was too large
      have last := before k (Nat.lt_succ_self k)
      have halved : clock.toNat / 2 ^ (k + 1) / divisor.toNat = clock.toNat / 2 ^ k / divisor.toNat / 2 := by
        rw [Nat.pow_succ,← Nat.div_div_eq_div_mul,Nat.div_right_comm]
      rw [halved]
      omega
  · have near := quotient_near clock.toNat positive (Nat.two_pow_pos k)
    rwa [← value,← power] at near

variable {ι : Type}

/-- The loop ends with registers for the speed, whatever the clock is. -/
theorem setSpeed_prescaled (s : State ι) (speed : UInt32) (changed : speed ≠ s.curSpeed) (some_ : 0 < speed)
    (fits : speed.toNat * oversample < 2 ^ 32) :
    (setSpeed s speed).timer.clkFreq = s.timer.clkFreq ∧ Prescaled (setSpeed s speed).timer (speed.toNat * oversample) := by
  have counted : 0 < speed.toNat := UInt32.lt_iff_toNat_lt.mp some_
  have nonzero : speed ≠ 0 := by
    rintro rfl
    exact absurd some_ (by decide)
  have rate : (speed * UInt32.ofNat oversample).toNat = speed.toNat * oversample := by
    rw [UInt32.toNat_mul]
    exact Nat.mod_eq_of_lt fits
  have prescaled := prescale_prescaled s.timer.clkFreq (speed * UInt32.ofNat oversample)
    (rate ▸ Nat.le_mul_of_pos_left oversample counted)
  rw [rate] at prescaled
  rw [setSpeed,if_pos changed,if_pos nonzero]
  exact ⟨rfl,prescaled⟩

/-- A clock of 240 MHz for 600 baud. -/
theorem setSpeed_prescaled_slow :
    (setSpeed (boot 240000000 fun _ : Unit => Port.construct false false) 600).timer.clkFreq = 240000000 ∧
      Prescaled (setSpeed (boot 240000000 fun _ : Unit => Port.construct false false) 600).timer (600 * oversample) :=
  setSpeed_prescaled (boot 240000000 fun _ => Port.construct false false) 600 (by decide) (by decide) (by decide)

end OpenPlc.Serial.SoftwareSerial
