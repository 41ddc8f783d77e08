import Mathlib.Algebra.Order.Field.Basic
import Mathlib.Data.Rat.Cast.Order
import Mathlib.Tactic.Linarith
import OpenPlc.Timers.HardwareTimer

/-! The period that `setOverflow` programs, against the one that it is asked for. -/
namespace OpenPlc.Timers

/-- What the registers count to. -/
def Registers.cycles (t : Registers) : Nat := (t.arr.toNat + 1) * (t.psc.toNat + 1)

/-- The clock cycles of the period that is asked for. -/
def periodCycles (clk overflow : UInt32) : TimerFormat → ℚ
  | .microsec => overflow.toNat * clk.toNat / 1000000
  | .hertz => clk.toNat / overflow.toNat
  | .tick => overflow.toNat

/-- A period is programmed if the registers reach it to within their own steps, if it is not cut to a shorter one
where they do not reach it, and if they can be read back. -/
structure Programmed (exact : ℚ) (t : Registers) : Prop where
  reached : 1 ≤ exact → exact < 4294967296 →
    t.psc.toNat ≤ 65535 ∧ t.arr.toNat ≤ 65535 ∧ |(t.cycles : ℚ) - exact| < t.psc.toNat + 2
  longest : 4294967296 < exact → 4294967296 ≤ t.cycles
  read : t.period.toNat = t.cycles

section Period
variable (t : Registers) (periodCyc : UInt32)

theorem setReload_arr : (setReload t periodCyc).arr.toNat = periodCyc.toNat - 1 := by
  rw [setReload]
  by_cases some_ : 0 < periodCyc
  · have positive : (1 : UInt32) ≤ periodCyc := UInt32.le_iff_toNat_le.mpr (UInt32.lt_iff_toNat_lt.mp some_)
    rw [if_pos some_,UInt32.toNat_sub_of_le _ _ positive]
    rfl
  · have zero : ¬ 0 < periodCyc.toNat := fun positive => some_ (UInt32.lt_iff_toNat_lt.mpr positive)
    rw [if_neg some_]
    exact (Nat.sub_eq_zero_of_le (by omega)).symm

theorem factor_eq : (periodCyc / 0x10000 + 1).toNat = periodCyc.toNat / 65536 + 1 := by
  have less := periodCyc.toNat_lt
  rw [UInt32.toNat_add,UInt32.toNat_div]
  change (periodCyc.toNat / 65536 + 1) % 4294967296 = _
  omega

theorem setPeriod_psc : (setPeriod t periodCyc).psc.toNat = periodCyc.toNat / 65536 := by
  rw [setPeriod,setReload]
  simp only [UInt32.add_sub_cancel,UInt32.toNat_div]
  rfl

theorem setPeriod_arr : (setPeriod t periodCyc).arr.toNat = periodCyc.toNat / (periodCyc.toNat / 65536 + 1) - 1 := by
  rw [setPeriod,setReload_arr,UInt32.toNat_div,factor_eq]

theorem setPeriod_fits : (setPeriod t periodCyc).psc.toNat ≤ 65535 ∧ (setPeriod t periodCyc).arr.toNat ≤ 65534 := by
  have less := periodCyc.toNat_lt
  rw [setPeriod_psc,setPeriod_arr]
  have ticks : periodCyc.toNat / (periodCyc.toNat / 65536 + 1) < 65536 := by
    rw [Nat.div_lt_iff_lt_mul (Nat.succ_pos _)]
    omega
  omega

theorem setPeriod_cycles (some_ : 1 ≤ periodCyc.toNat) :
    (setPeriod t periodCyc).cycles ≤ periodCyc.toNat ∧
      periodCyc.toNat ≤ (setPeriod t periodCyc).cycles + (setPeriod t periodCyc).psc.toNat := by
  have parts := Nat.div_add_mod periodCyc.toNat (periodCyc.toNat / 65536 + 1)
  have rest : periodCyc.toNat % (periodCyc.toNat / 65536 + 1) < periodCyc.toNat / 65536 + 1 :=
    Nat.mod_lt _ (Nat.succ_pos _)
  have ticks : 1 ≤ periodCyc.toNat / (periodCyc.toNat / 65536 + 1) := by
    rw [Nat.le_div_iff_mul_le (Nat.succ_pos _)]
    omega
  rw [Registers.cycles,setPeriod_psc,setPeriod_arr,Nat.sub_add_cancel ticks,Nat.mul_comm]
  omega

theorem period_eq (psc : t.psc.toNat ≤ 65535) (arr : t.arr.toNat ≤ 65534) : t.period.toNat = t.cycles := by
  have product : (t.arr.toNat + 1) * (t.psc.toNat + 1) ≤ 65535 * 65536 := Nat.mul_le_mul (by omega) (by omega)
  have ticks : (t.arr + 1).toNat = t.arr.toNat + 1 := by
    rw [UInt32.toNat_add]
    exact Nat.mod_eq_of_lt (Nat.lt_of_le_of_lt (Nat.succ_le_succ arr) (by decide))
  have factor : (t.psc + 1).toNat = t.psc.toNat + 1 := by
    rw [UInt32.toNat_add]
    exact Nat.mod_eq_of_lt (Nat.lt_of_le_of_lt (Nat.succ_le_succ psc) (by decide))
  rw [Registers.period,UInt32.toNat_mul,ticks,factor,Registers.cycles]
  exact Nat.mod_eq_of_lt (by omega)

theorem setPeriod_programmed {exact : ℚ} (below : (periodCyc.toNat : ℚ) ≤ exact) (above : exact < periodCyc.toNat + 1) :
    Programmed exact (setPeriod t periodCyc) := by
  obtain ⟨psc,arr⟩ := setPeriod_fits t periodCyc
  refine ⟨?_,?_,period_eq _ psc arr⟩
  · intro some_ _
    have counted : 1 ≤ periodCyc.toNat := by
      have positive : (0 : ℚ) < periodCyc.toNat := by linarith
      exact_mod_cast positive
    obtain ⟨least,most⟩ := setPeriod_cycles t periodCyc counted
    have least_ : ((setPeriod t periodCyc).cycles : ℚ) ≤ periodCyc.toNat := by exact_mod_cast least
    have most_ : (periodCyc.toNat : ℚ) ≤ (setPeriod t periodCyc).cycles + (setPeriod t periodCyc).psc.toNat := by
      exact_mod_cast most
    refine ⟨psc,Nat.le_succ_of_le arr,?_⟩
    rw [abs_sub_lt_iff]
    have steps : (0 : ℚ) ≤ (setPeriod t periodCyc).psc.toNat := Nat.cast_nonneg _
    constructor <;> linarith
  · intro beyond
    have less : periodCyc.toNat + 1 ≤ 4294967296 := periodCyc.toNat_lt
    have less_ : (periodCyc.toNat : ℚ) + 1 ≤ 4294967296 := by exact_mod_cast less
    linarith

end Period

section Requests
variable (clk overflow : UInt32) (t : Registers)

theorem hertz_programmed (positive : overflow ≠ 0) :
    ∃ next, setOverflow clk t overflow .hertz = some next ∧ Programmed (periodCycles clk overflow .hertz) next := by
  have some_ : (0 : ℚ) < overflow.toNat := by
    have counted : 0 < overflow.toNat := Nat.pos_of_ne_zero fun zero => positive (UInt32.toNat_inj.mp zero)
    exact_mod_cast counted
  have quotient : ((clk / overflow).toNat : ℚ) * overflow.toNat ≤ clk.toNat ∧
      (clk.toNat : ℚ) < ((clk / overflow).toNat + 1) * overflow.toNat := by
    rw [UInt32.toNat_div]
    constructor
    · exact_mod_cast Nat.div_mul_le_self clk.toNat overflow.toNat
    · have next := (Nat.div_lt_iff_lt_mul (by exact_mod_cast some_)).mp (Nat.lt_succ_self (clk.toNat / overflow.toNat))
      exact_mod_cast next
  refine ⟨setPeriod t (clk / overflow),?_,setPeriod_programmed t (clk / overflow) ?_ ?_⟩
  · rw [setOverflow,divide,if_neg positive,Option.map_some]
  · rw [periodCycles,le_div_iff₀ some_]
    exact quotient.1
  · rw [periodCycles,div_lt_iff₀ some_]
    exact quotient.2

theorem microsec_cycles (whole : 1000000 ∣ clk.toNat) :
    periodCycles clk overflow .microsec = (overflow.toNat * (clk.toNat / 1000000) : Nat) := by
  obtain ⟨mega,clk_eq⟩ := whole
  rw [periodCycles,clk_eq,Nat.mul_div_cancel_left _ (by decide)]
  push_cast
  rw [mul_left_comm,mul_div_cancel_left₀ _ (by norm_num)]

theorem microsec_programmed (whole : 1000000 ∣ clk.toNat) :
    Programmed (periodCycles clk overflow .microsec) (setPeriod t (overflow * (clk / 1000000))) ↔
      overflow.toNat * (clk.toNat / 1000000) ≤ 4294967296 := by
  have counted : (overflow * (clk / 1000000)).toNat = overflow.toNat * (clk.toNat / 1000000) % 4294967296 := by
    rw [UInt32.toNat_mul,UInt32.toNat_div]
    rfl
  obtain ⟨product,product_eq⟩ : ∃ product, product = overflow.toNat * (clk.toNat / 1000000) := ⟨_,rfl⟩
  rw [microsec_cycles clk overflow whole,← product_eq]
  rw [← product_eq] at counted
  obtain ⟨psc,arr⟩ := setPeriod_fits t (overflow * (clk / 1000000))
  constructor
  · intro programmed
    by_contra beyond
    have longest := programmed.longest (by exact_mod_cast Nat.lt_of_not_le beyond)
    have most : (setPeriod t (overflow * (clk / 1000000))).cycles ≤ 65535 * 65536 := Nat.mul_le_mul (by omega) (by omega)
    omega
  · intro within
    rcases Nat.lt_or_eq_of_le within with less | edge
    · rw [Nat.mod_eq_of_lt less] at counted
      apply setPeriod_programmed
      · rw [counted]
      · rw [counted]
        exact lt_add_one _
    · -- the registers reach this one, but it is not among the periods asked for
      refine ⟨?_,?_,period_eq _ psc arr⟩
      · intro _ less
        rw [edge] at less
        exact absurd less (by norm_num)
      · intro beyond
        rw [edge] at beyond
        exact absurd beyond (by norm_num)

/-- The request is programmed exactly if its cycles, where it gives microseconds, do not exceed those that the registers reach. -/
theorem overflow_programmed (format : TimerFormat) (asked : format ≠ .tick) (whole : 1000000 ∣ clk.toNat)
    (positive : overflow ≠ 0) :
    (∃ next, setOverflow clk t overflow format = some next ∧ Programmed (periodCycles clk overflow format) next) ↔
      (format = .microsec → overflow.toNat * (clk.toNat / 1000000) ≤ 4294967296) := by
  cases format with
  | tick => exact absurd rfl asked
  | hertz => exact iff_of_true (hertz_programmed clk overflow t positive) fun other => TimerFormat.noConfusion other
  | microsec =>
    rw [← microsec_programmed clk overflow t whole]
    constructor
    · rintro ⟨_,set,programmed⟩ _
      cases Option.some.inj set
      exact programmed
    · intro programmed
      exact ⟨_,rfl,programmed rfl⟩

/-- A period of 20 seconds at 240 MHz: the product is reduced to 505032704 cycles, which take 2.1 seconds. -/
theorem overflow_shortened :
    let t : Registers := ⟨0,65535,fun _ => 0⟩
    ¬ ∃ next, setOverflow 240000000 t 20000000 .microsec = some next ∧
      Programmed (periodCycles 240000000 20000000 .microsec) next := by
  rintro t ⟨_,set,programmed⟩
  cases Option.some.inj set
  have asked : periodCycles 240000000 20000000 .microsec = 20000000 * 240000000 / 1000000 := rfl
  have longest := programmed.longest (by rw [asked]; norm_num)
  exact absurd longest (by decide)

theorem overflow_programmed_second :
    (∃ next, setOverflow 240000000 ⟨0,65535,fun _ => 0⟩ 1000000 .microsec = some next ∧
      Programmed (periodCycles 240000000 1000000 .microsec) next) := by
  exact (overflow_programmed 240000000 1000000 ⟨0,65535,fun _ => 0⟩ .microsec (by decide) (by decide) (by decide)).mpr
    fun _ => by decide

end Requests

end OpenPlc.Timers
