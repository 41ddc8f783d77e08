import Mathlib.Data.Nat.ModEq
import Mathlib.Order.Monotone.Basic
import Mathlib.Tactic.Ring

/-! `getCurrentMicros` (`clock.c`) reads the tick count and the SysTick value twice, while the tick interrupt goes on. -/
namespace OpenPlc.Clock

/-- `HAL_TICK_FREQ_DEFAULT` -/
def uwTickFreq : UInt32 := 1

/-- `HAL_IncTick` -/
def incTick (uwTick : UInt32) : UInt32 := uwTick + uwTickFreq

def getCurrentMicros (m0 u0 m1 u1 load : UInt32) : UInt32 :=
  let tms := load + 1
  if m1 ≠ m0 then m1 * 1000 + ((tms - u1) * 1000) / tms else m0 * 1000 + ((tms - u0) * 1000) / tms

/-- `SysTick->VAL` and the tick count. -/
structure Counters where
  val : UInt32
  uwTick : UInt32

/-- A cycle of the counter, with `SysTick_Handler` at the reload. -/
def cycle (load : UInt32) (s : Counters) : Counters :=
  if s.val = 0 then ⟨load,incTick s.uwTick⟩ else {s with val := s.val - 1}

/-- The value of `LOAD` and the tick count with which a period starts. -/
structure SysTick where
  load : UInt32
  uwTick : UInt32
  fits : (load.toNat + 1) * 1000 < 2 ^ 32

namespace SysTick

def period (clock : SysTick) : Nat := clock.load.toNat + 1

def counters (clock : SysTick) : Nat → Counters
  | 0 => ⟨clock.load,clock.uwTick⟩
  | n + 1 => cycle clock.load (clock.counters n)

/-- The microseconds to the end of the cycle that runs, where a period has 1000. -/
def micros (clock : SysTick) (n : Nat) : Nat := 1000 * clock.uwTick.toNat + 1000 * (n + 1) / clock.period

end SysTick

/-- When a call reads the tick count and the value of the counter, and both again. -/
structure Call (clock : SysTick) where
  m0 : Nat
  u0 : Nat
  m1 : Nat
  u1 : Nat
  value : m0 ≤ u0
  again : u0 ≤ m1
  last : m1 ≤ u1
  within : u1 < m0 + clock.period

def Call.result {clock : SysTick} (call : Call clock) : UInt32 :=
  getCurrentMicros (clock.counters call.m0).uwTick (clock.counters call.u0).val (clock.counters call.m1).uwTick
    (clock.counters call.u1).val clock.load

section Pair
variable {high : Nat → Nat}

/-- Of two counters that are read twice, the first pair is of one time unless the high one went on in between, and then the
second pair is, where it goes on at most once. -/
theorem double_read (rises : Monotone high) {t0 t1 t2 t3 : Nat} (first : t0 ≤ t1) (second : t1 ≤ t2) (third : t2 ≤ t3)
    (once : high t3 ≤ high t0 + 1) :
    if high t2 = high t0 then high t1 = high t0 else high t3 = high t2 := by
  have low := rises first
  have middle := rises second
  have top := rises third
  split <;> omega

end Pair

namespace SysTick
variable (clock : SysTick)

theorem period_pos : 0 < clock.period := Nat.succ_pos _

theorem counters_spec (n : Nat) :
    (clock.counters n).val.toNat + n % clock.period = clock.load.toNat ∧
      (clock.counters n).uwTick = clock.uwTick + .ofNat (n / clock.period) := by
  induction n with
  | zero =>
    refine ⟨?_,?_⟩
    · rw [Nat.zero_mod,Nat.add_zero]
      rfl
    · rw [Nat.zero_div]
      exact (UInt32.add_zero _).symm
  | succ n ih =>
    obtain ⟨val,tick⟩ := ih
    have split := Nat.div_add_mod n clock.period
    have bound := Nat.mod_lt n clock.period_pos
    generalize n / clock.period = q at split tick
    generalize n % clock.period = r at split val bound
    have whole : clock.period = clock.load.toNat + 1 := rfl
    rw [counters,cycle]
    by_cases zero : (clock.counters n).val = 0
    · -- The period is over, and the handler runs.
      rw [zero,UInt32.toNat_zero,Nat.zero_add] at val
      have next : n + 1 = clock.period * (q + 1) := by
        rw [Nat.mul_add,Nat.mul_one]
        omega
      rw [if_pos zero,next,Nat.mul_mod_right,Nat.mul_div_cancel_left _ clock.period_pos]
      refine ⟨rfl,?_⟩
      simp only [incTick,uwTickFreq,tick,UInt32.ofNat_add,UInt32.add_assoc]
      rfl
    · have some : (clock.counters n).val.toNat ≠ 0 := fun none => zero (UInt32.toNat_inj.mp none)
      have next : n + 1 = clock.period * q + (r + 1) := by omega
      have inside : r + 1 < clock.period := by omega
      rw [if_neg zero,next,Nat.mul_add_mod,Nat.mod_eq_of_lt inside,Nat.mul_add_div clock.period_pos,Nat.div_eq_of_lt inside,
        Nat.add_zero]
      refine ⟨?_,tick⟩
      have less : ((clock.counters n).val - 1).toNat = (clock.counters n).val.toNat - 1 :=
        UInt32.toNat_sub_of_le _ _ (UInt32.le_iff_toNat_le.mpr (Nat.pos_of_ne_zero some))
      rw [less]
      omega

theorem micros_mono : Monotone clock.micros := by
  intro n m after
  exact Nat.add_le_add_left (Nat.div_le_div_right (Nat.mul_le_mul_left 1000 (Nat.succ_le_succ after))) _

/-- The expression of the code is the count at the time of the value, where the tick count is of the same period. -/
theorem micros_read (t n : Nat) (same : t / clock.period = n / clock.period) :
    (clock.counters t).uwTick * 1000 + ((clock.load + 1 - (clock.counters n).val) * 1000) / (clock.load + 1) =
      .ofNat (clock.micros n) := by
  obtain ⟨val,-⟩ := clock.counters_spec n
  obtain ⟨-,tick⟩ := clock.counters_spec t
  have fits := clock.fits
  have split := Nat.div_add_mod n clock.period
  have bound := Nat.mod_lt n clock.period_pos
  rw [tick,same]
  generalize n / clock.period = q at split
  generalize n % clock.period = r at split val bound
  have whole : clock.period = clock.load.toNat + 1 := rfl
  have tms : (clock.load + 1).toNat = clock.period := by
    rw [UInt32.toNat_add,UInt32.toNat_one,Nat.mod_eq_of_lt (by omega)]
    rfl
  have gone : (clock.load + 1 - (clock.counters n).val).toNat = r + 1 := by
    rw [UInt32.toNat_sub_of_le _ _ (UInt32.le_iff_toNat_le.mpr (by omega)),tms]
    omega
  have part : (((clock.load + 1 - (clock.counters n).val) * 1000) / (clock.load + 1)).toNat = 1000 * (r + 1) / clock.period := by
    have small : (r + 1) * 1000 < 2 ^ 32 := (Nat.mul_le_mul_right 1000 bound).trans_lt fits
    have scale : (1000 : UInt32).toNat = 1000 := rfl
    rw [UInt32.toNat_div,UInt32.toNat_mul,gone,tms,scale,Nat.mod_eq_of_lt small,Nat.mul_comm (r + 1)]
  have count : clock.micros n = (clock.uwTick.toNat + q) * 1000 + 1000 * (r + 1) / clock.period := by
    have cycles : 1000 * (n + 1) = clock.period * (1000 * q) + 1000 * (r + 1) := by
      rw [← split]
      ring
    rw [micros,cycles,Nat.mul_add_div clock.period_pos]
    ring
  rw [count,UInt32.ofNat_add,UInt32.ofNat_mul,UInt32.ofNat_add,UInt32.ofNat_toNat,← part,UInt32.ofNat_toNat]
  rfl

end SysTick

section Calls
variable {clock : SysTick}

/-- Which of the two values the count of the result is of. -/
def Call.instant (call : Call clock) : Nat :=
  if call.m1 / clock.period = call.m0 / clock.period then call.u0 else call.u1

theorem Call.periods (call : Call clock) : call.u1 / clock.period ≤ call.m0 / clock.period + 1 := by
  have later : call.u1 ≤ call.m0 + clock.period := call.within.le
  have step := Nat.div_le_div_right (c := clock.period) later
  rwa [Nat.add_div_right _ clock.period_pos] at step

theorem Call.tick_ne (call : Call clock) :
    (clock.counters call.m1).uwTick ≠ (clock.counters call.m0).uwTick ↔ call.m1 / clock.period ≠ call.m0 / clock.period := by
  obtain ⟨-,first⟩ := clock.counters_spec call.m0
  obtain ⟨-,second⟩ := clock.counters_spec call.m1
  rw [first,second,not_iff_not]
  refine ⟨fun same => ?_,fun same => by rw [same]⟩
  have low : call.m0 / clock.period ≤ call.m1 / clock.period := Nat.div_le_div_right (call.value.trans call.again)
  have high : call.m1 / clock.period ≤ call.m0 / clock.period + 1 := (Nat.div_le_div_right call.last).trans call.periods
  rcases Nat.eq_or_lt_of_le low with equal | less
  · exact equal.symm
  · have next : call.m1 / clock.period = call.m0 / clock.period + 1 := Nat.le_antisymm high less
    rw [next,UInt32.ofNat_add,← UInt32.add_assoc] at same
    exact absurd (UInt32.add_eq_left.mp same) (by decide)

theorem Call.instant_within (call : Call clock) : call.m0 ≤ call.instant ∧ call.instant ≤ call.u1 := by
  have := call.value
  have := call.again
  have := call.last
  rw [instant]
  split <;> omega

theorem Call.result_eq (call : Call clock) : call.result = .ofNat (clock.micros call.instant) := by
  have rises : Monotone fun t => t / clock.period := fun _ _ later => Nat.div_le_div_right later
  have pair := double_read rises call.value call.again call.last call.periods
  rw [result,getCurrentMicros,instant]
  by_cases same : call.m1 / clock.period = call.m0 / clock.period
  · rw [if_pos same] at pair
    rw [if_neg (not_not.mpr same ∘ call.tick_ne.mp),if_pos same]
    exact clock.micros_read call.m0 call.u0 pair.symm
  · rw [if_neg same] at pair
    rw [if_pos (call.tick_ne.mpr same),if_neg same]
    exact clock.micros_read call.m1 call.u1 pair.symm

/-- The result is the count at a time within the call, and so a later call is never behind: what it has more went by. -/
theorem getCurrentMicros_monotone (clock : SysTick) :
    (∀ call : Call clock, ∃ n, call.m0 ≤ n ∧ n ≤ call.u1 ∧ call.result = .ofNat (clock.micros n)) ∧
    ∀ first second : Call clock, first.u1 ≤ second.m0 →
      ∃ passed, clock.micros second.m0 - clock.micros first.u1 ≤ passed ∧
        passed ≤ clock.micros second.u1 - clock.micros first.m0 ∧
        second.result = first.result + .ofNat passed ∧ (second.result - first.result).toNat ≤ passed := by
  refine ⟨fun call => ⟨call.instant,call.instant_within.1,call.instant_within.2,call.result_eq⟩,fun first second later => ?_⟩
  obtain ⟨started,ended⟩ := first.instant_within
  obtain ⟨started',ended'⟩ := second.instant_within
  have order : clock.micros first.instant ≤ clock.micros second.instant := clock.micros_mono (ended.trans (later.trans started'))
  obtain ⟨passed,total⟩ := Nat.exists_eq_add_of_le order
  have least : clock.micros second.m0 - clock.micros first.u1 ≤ passed := by
    have low := clock.micros_mono started'
    have high := clock.micros_mono ended
    omega
  have most : passed ≤ clock.micros second.u1 - clock.micros first.m0 := by
    have low := clock.micros_mono started
    have high := clock.micros_mono ended'
    omega
  have sum : second.result = first.result + .ofNat passed := by
    rw [first.result_eq,second.result_eq,total,UInt32.ofNat_add]
  refine ⟨passed,least,most,sum,?_⟩
  rw [sum,UInt32.add_comm,UInt32.add_sub_cancel]
  exact Nat.mod_le _ _

/-- Periods of ten cycles, where the tick count wraps around with the first reload. -/
def lastTick : SysTick := ⟨9,0xFFFFFFFF,by decide⟩

def beforeReload : Call lastTick := ⟨1,2,3,4,by decide,by decide,by decide,by decide⟩

def acrossReload : Call lastTick := ⟨8,9,10,11,by decide,by decide,by decide,by decide⟩

theorem getCurrentMicros_wraps :
    beforeReload.result = 0xFFFFFD44 ∧ acrossReload.result = 200 ∧
      ∃ passed, acrossReload.result = beforeReload.result + .ofNat passed ∧
        (acrossReload.result - beforeReload.result).toNat ≤ passed := by
  obtain ⟨passed,-,-,sum,behind⟩ := (getCurrentMicros_monotone lastTick).2 beforeReload acrossReload (by decide)
  exact ⟨by decide,by decide,passed,sum,behind⟩

end Calls

end OpenPlc.Clock
