import Mathlib.Tactic.Ring
import OpenPlc.Timers.HardwareTimer

/-! Compare values that are set and read back in a scale of their own: in percent or in the steps of a resolution. -/
namespace OpenPlc.Timers

/-- The value of a full period. -/
def CompareFormat.full : CompareFormat → Option UInt32
  | .percent => some 100
  | .resolution bits => some (fullScale bits)
  | _ => none

/-- What a step of `arr` is in the scale, rounded up. -/
def step (full arr : Nat) : Nat := (full + arr) / (arr + 1)

/-- The compare value of an unbounded computation. -/
def scaled (arr full value : Nat) : Nat :=
  if arr = 65535 ∧ (arr + 1) * value / full = 65536 then 65535 else (arr + 1) * value / full

section Scale
variable (arr full value ccr r : Nat)

theorem scaled_zero : scaled arr full 0 = 0 := by
  rw [scaled,Nat.mul_zero,Nat.zero_div]
  exact if_neg fun other => absurd other.2 (by decide)

theorem scaled_full (some_ : 0 < full) : scaled arr full full = if arr = 65535 then 65535 else arr + 1 := by
  rw [scaled,Nat.mul_div_cancel _ some_]
  split <;> split <;> omega

theorem quotient_le (within : value ≤ full) : (arr + 1) * value / full ≤ arr + 1 := by
  rcases Nat.eq_zero_or_pos full with none_ | some_
  · rw [none_,Nat.div_zero]
    exact Nat.zero_le _
  · have product : (arr + 1) * value / full ≤ (arr + 1) * full / full := Nat.div_le_div_right (Nat.mul_le_mul_left _ within)
    rwa [Nat.mul_div_cancel _ some_] at product

theorem scaled_le (within : value ≤ full) : scaled arr full value ≤ arr + 1 := by
  have most := quotient_le arr full value within
  rw [scaled]
  split <;> omega

theorem scaled_monotone {less : Nat} (below : less ≤ value) (within : value ≤ full) :
    scaled arr full less ≤ scaled arr full value := by
  have quotients : (arr + 1) * less / full ≤ (arr + 1) * value / full := Nat.div_le_div_right (Nat.mul_le_mul_left _ below)
  have most := quotient_le arr full value within
  rw [scaled,scaled]
  split <;> split <;> omega

theorem step_covers : full ≤ step full arr * (arr + 1) := by
  have parts := Nat.div_add_mod (full + arr) (arr + 1)
  have rest : (full + arr) % (arr + 1) < arr + 1 := Nat.mod_lt _ (Nat.succ_pos arr)
  rw [step,Nat.mul_comm]
  omega

theorem readback_near (some_ : 0 < arr) (less : value < full) (set : ccr = (arr + 1) * value / full) (read : r = ccr * full / arr) :
    r ≤ full ∧ r ≤ value + step full arr ∧ value ≤ r + step full arr := by
  have covers := step_covers arr full
  have set_le : ccr * full ≤ (arr + 1) * value := by
    rw [set]
    exact Nat.div_mul_le_self _ _
  have set_lt : (arr + 1) * value < (ccr + 1) * full := by
    rw [set]
    exact (Nat.div_lt_iff_lt_mul (by omega)).mp (Nat.lt_succ_self _)
  have read_le : r * arr ≤ ccr * full := by
    rw [read]
    exact Nat.div_mul_le_self _ _
  have read_lt : ccr * full < (r + 1) * arr := by
    rw [read]
    exact (Nat.div_lt_iff_lt_mul some_).mp (Nat.lt_succ_self _)
  -- the compare value is not the full one
  have within : ccr ≤ arr := by
    have bound : ccr * full < (arr + 1) * full := Nat.lt_of_le_of_lt set_le (Nat.mul_lt_mul_of_pos_left less (Nat.succ_pos arr))
    exact Nat.le_of_lt_succ (Nat.lt_of_mul_lt_mul_right bound)
  have ticks : ccr * full ≤ arr * full := Nat.mul_le_mul_right _ within
  refine ⟨?_,?_,?_⟩
  · apply Nat.le_of_mul_le_mul_right _ some_
    rw [Nat.mul_comm full]
    exact Nat.le_trans read_le ticks
  · apply Nat.le_of_mul_le_mul_right _ some_
    refine Nat.le_trans read_le (Nat.le_of_mul_le_mul_right ?_ (Nat.succ_pos arr))
    calc ccr * full * (arr + 1) = ccr * full * arr + ccr * full := Nat.mul_succ _ _
      _ ≤ (arr + 1) * value * arr + arr * full := Nat.add_le_add (Nat.mul_le_mul_right _ set_le) ticks
      _ ≤ (arr + 1) * value * arr + arr * (step full arr * (arr + 1)) := Nat.add_le_add_left (Nat.mul_le_mul_left _ covers) _
      _ = (value + step full arr) * arr * (arr + 1) := by ring
  · by_contra beyond
    have more : (arr + 1) * (r + step full arr + 1) ≤ (arr + 1) * value := Nat.mul_le_mul_left _ (Nat.lt_of_not_le beyond)
    have parts : (arr + 1) * (r + step full arr + 1) = (r + 1) * arr + (r + 1) + step full arr * (arr + 1) := by ring
    rw [Nat.succ_mul ccr] at set_lt
    omega

theorem readback_full (some_ : 0 < full) (positive : 0 < arr) : scaled arr full full * full / arr =
    if arr = 65535 then full else full + full / arr := by
  rw [scaled_full _ _ some_]
  split
  · rename_i most
    rw [most,Nat.mul_div_cancel_left _ (by decide)]
  · rw [Nat.succ_mul,Nat.mul_add_div positive]

theorem scaled_less (less : value < full) : scaled arr full value = (arr + 1) * value / full ∧ scaled arr full value ≤ arr := by
  have quotient : (arr + 1) * value / full < arr + 1 := by
    rw [Nat.div_lt_iff_lt_mul (by omega)]
    exact Nat.mul_lt_mul_of_pos_left less (Nat.succ_pos arr)
  rw [scaled,if_neg fun capped => by omega]
  exact ⟨rfl,Nat.le_of_lt_succ quotient⟩

end Scale

section Readback
variable (clk : UInt32) (t : Registers) (channel : Channel) (format : CompareFormat) (full v : UInt32)

theorem fullScale_toNat (bits : Bits) : (fullScale bits).toNat = 2 ^ bits.val - 1 := by
  have widths : ∀ bits ≤ 16, 1 ≤ bits → ((1 : UInt32) <<< UInt32.ofNat bits - 1).toNat = 2 ^ bits - 1 := by decide
  exact widths bits.val bits.property.2 bits.property.1

theorem full_bounds (scale : format.full = some full) : 0 < full.toNat ∧ full.toNat ≤ 65535 := by
  cases format with
  | percent =>
    cases scale
    decide
  | resolution bits =>
    cases scale
    rw [fullScale_toNat]
    have low : 2 ^ 1 ≤ 2 ^ bits.val := Nat.pow_le_pow_right (by decide) bits.property.1
    have high : 2 ^ bits.val ≤ 2 ^ 16 := Nat.pow_le_pow_right (by decide) bits.property.2
    omega
  | tick => cases scale
  | microsec => cases scale
  | hertz => cases scale

theorem divide_toNat (a b : UInt32) (some_ : 0 < b.toNat) : ∃ q, divide a b = some q ∧ q.toNat = a.toNat / b.toNat := by
  have other : b ≠ 0 := by
    rintro rfl
    exact absurd some_ (by decide)
  exact ⟨a / b,if_neg other,UInt32.toNat_div a b⟩

theorem compareValue_full (scale : format.full = some full) (compare : UInt32) :
    compareValue clk t compare format = divide ((t.arr + 1) * compare) full := by
  cases format with
  | percent =>
    cases scale
    rfl
  | resolution bits =>
    cases scale
    rfl
  | tick => cases scale
  | microsec => cases scale
  | hertz => cases scale

theorem getCaptureCompare_full (scale : format.full = some full) :
    getCaptureCompare clk t channel format = divide (t.ccr channel * full) t.arr := by
  cases format with
  | percent =>
    cases scale
    rfl
  | resolution bits =>
    cases scale
    rfl
  | tick => cases scale
  | microsec => cases scale
  | hertz => cases scale

theorem setCaptureCompare_scaled (scale : format.full = some full) (arr : t.arr.toNat ≤ 65535) (fits : v ≤ full) :
    ∃ next, setCaptureCompare clk t channel v format = some next ∧ next.arr = t.arr ∧
      (next.ccr channel).toNat = scaled t.arr.toNat full.toNat v.toNat := by
  obtain ⟨some_,most⟩ := full_bounds format full scale
  have below : v.toNat ≤ 65535 := Nat.le_trans (UInt32.le_iff_toNat_le.mp fits) most
  have product : (t.arr.toNat + 1) * v.toNat ≤ 65536 * 65535 := Nat.mul_le_mul (by omega) below
  have ticks : (t.arr + 1).toNat = t.arr.toNat + 1 := by
    rw [UInt32.toNat_add]
    exact Nat.mod_eq_of_lt (Nat.lt_of_le_of_lt (Nat.succ_le_succ arr) (by decide))
  have whole : ((t.arr + 1) * v).toNat = (t.arr.toNat + 1) * v.toNat := by
    rw [UInt32.toNat_mul,ticks]
    exact Nat.mod_eq_of_lt (Nat.lt_of_le_of_lt product (by decide))
  obtain ⟨value,value_,value_eq⟩ := divide_toNat ((t.arr + 1) * v) full some_
  rw [whole] at value_eq
  rw [setCaptureCompare,compareValue_full clk t format full scale,value_,Option.map_some]
  refine ⟨_,rfl,rfl,?_⟩
  simp only [Function.update_self]
  have cap : t.arr = maxReload ∧ value = maxReload + 1 ↔ t.arr.toNat = 65535 ∧ value.toNat = 65536 := by
    rw [← UInt32.toNat_inj,← UInt32.toNat_inj]
    rfl
  rw [scaled,← value_eq]
  by_cases capped : t.arr.toNat = 65535 ∧ value.toNat = 65536
  · rw [if_pos capped,if_pos (cap.mpr capped)]
    rfl
  · rw [if_neg capped,if_neg (mt cap.mp capped)]

theorem setCaptureCompare_again {next : Registers} (set : setCaptureCompare clk t channel v format = some next) :
    setCaptureCompare clk next channel v format = some next := by
  obtain ⟨value,value_,rfl⟩ := Option.map_eq_some_iff.mp set
  have same (ccr : Channel → UInt32) : compareValue clk {t with ccr := ccr} v format = compareValue clk t v format := by
    cases format <;> rfl
  rw [setCaptureCompare,same,value_,Option.map_some]
  simp only [Function.update_idem]

/-- What is read back is within the scale and a step of what was set. No division is by zero, and no product is reduced. -/
def ReadsBack : Prop :=
  ∃ next r, setCaptureCompare clk t channel v format = some next ∧ getCaptureCompare clk next channel format = some r ∧
    r ≤ full ∧ r.toNat ≤ v.toNat + step full.toNat t.arr.toNat ∧ v.toNat ≤ r.toNat + step full.toNat t.arr.toNat ∧
    (next.ccr channel).toNat = scaled t.arr.toNat full.toNat v.toNat ∧
    r.toNat = (next.ccr channel).toNat * full.toNat / t.arr.toNat

/-- The full value is divided by `arr`, though one more than `arr` is set for it. -/
theorem readsBack_iff (scale : format.full = some full) (arr : t.arr.toNat ≤ 65535) (fits : v ≤ full) :
    ReadsBack clk t channel format full v ↔ t.arr ≠ 0 ∧ (v < full ∨ full < t.arr ∨ t.arr = maxReload) := by
  obtain ⟨some_,most⟩ := full_bounds format full scale
  obtain ⟨set,sets,same,value⟩ := setCaptureCompare_scaled clk t channel format full v scale arr fits
  by_cases none_ : t.arr = 0
  · -- the read divides by zero
    refine iff_of_false ?_ fun condition => condition.1 none_
    rintro ⟨_,r,sets_,read,_⟩
    cases Option.some.inj (sets.symm.trans sets_)
    rw [getCaptureCompare_full clk set channel format full scale,same,none_] at read
    exact absurd read.symm (Option.some_ne_none r)
  · have positive : 0 < t.arr.toNat := Nat.pos_of_ne_zero fun zero => none_ (UInt32.toNat_inj.mp zero)
    obtain ⟨r,read,r_eq⟩ := divide_toNat (set.ccr channel * full) t.arr positive
    have product : scaled t.arr.toNat full.toNat v.toNat * full.toNat ≤ 65536 * 65535 :=
      Nat.mul_le_mul (Nat.le_trans (scaled_le _ _ _ (UInt32.le_iff_toNat_le.mp fits)) (Nat.succ_le_succ arr)) most
    rw [UInt32.toNat_mul,value,Nat.mod_eq_of_lt (Nat.lt_of_le_of_lt product (by decide))] at r_eq
    have reads : ReadsBack clk t channel format full v ↔ r.toNat ≤ full.toNat ∧
        r.toNat ≤ v.toNat + step full.toNat t.arr.toNat ∧ v.toNat ≤ r.toNat + step full.toNat t.arr.toNat := by
      constructor
      · rintro ⟨_,_,sets_,read_,below,above,near,_⟩
        cases Option.some.inj (sets.symm.trans sets_)
        rw [getCaptureCompare_full clk set channel format full scale,same,read] at read_
        cases Option.some.inj read_
        exact ⟨UInt32.le_iff_toNat_le.mp below,above,near⟩
      · rintro ⟨below,above,near⟩
        refine ⟨set,r,sets,?_,UInt32.le_iff_toNat_le.mpr below,above,near,value,by rw [value,r_eq]⟩
        rw [getCaptureCompare_full clk set channel format full scale,same,read]
    have condition : (v < full ∨ full < t.arr ∨ t.arr = maxReload) ↔
        (v.toNat < full.toNat ∨ full.toNat < t.arr.toNat ∨ t.arr.toNat = 65535) := by
      rw [UInt32.lt_iff_toNat_lt,UInt32.lt_iff_toNat_lt,← UInt32.toNat_inj]
      rfl
    rw [reads,and_iff_right none_,condition]
    rcases Nat.lt_or_eq_of_le (UInt32.le_iff_toNat_le.mp fits) with less | whole
    · obtain ⟨quotient,_⟩ := scaled_less t.arr.toNat full.toNat v.toNat less
      exact iff_of_true (readback_near _ _ _ _ _ positive less quotient r_eq) (Or.inl less)
    · rw [whole,readback_full _ _ some_ positive] at r_eq
      rw [whole,r_eq]
      have beyond : full.toNat / t.arr.toNat = 0 ↔ full.toNat < t.arr.toNat := by
        rw [Nat.div_eq_zero_iff]
        omega
      generalize full.toNat / t.arr.toNat = extra at beyond
      split <;> omega

/-- A duty cycle of 100 % on a period of 100 ticks reads back as 101 %. -/
theorem readback_over : ¬ ReadsBack 72000000 ⟨0,99,fun _ => 0⟩ .one .percent 100 100 := by
  rintro ⟨_,_,sets,read,below,_⟩
  cases Option.some.inj sets
  cases Option.some.inj read
  exact absurd below (by decide)

theorem readsBack_half : ReadsBack 72000000 ⟨0,999,fun _ => 0⟩ .one .percent 100 50 := by
  exact (readsBack_iff 72000000 ⟨0,999,fun _ => 0⟩ .one .percent 100 50 rfl (by decide) (by decide)).mpr
    ⟨by decide,Or.inl (by decide)⟩

end Readback

end OpenPlc.Timers
