import OpenPlc.Timers.Compare

/-! The resolution of the values that are written (`wiring_analog.c`), and the compare value that they come to. -/
namespace OpenPlc.Analog
open Timers

def maxPwmResolution : Nat := 16

structure Resolution where
  write : Nat
  range : 1 ≤ write ∧ write ≤ 32

/-- `none` where it is an error. -/
def analogWriteResolution (res : Int) : Option Resolution :=
  if range : 0 < res ∧ res ≤ 32 then some ⟨res.toNat,by omega⟩ else none

def Resolution.internalWrite (resolution : Resolution) : Bits :=
  if more : maxPwmResolution < resolution.write then ⟨maxPwmResolution,by decide⟩
  else ⟨resolution.write,resolution.range.1,Nat.le_of_not_lt more⟩

def mapResolution (value : UInt32) (source target : Nat) : UInt32 :=
  if source = target then value
  else if target < source then
    if value < 1 <<< UInt32.ofNat (source - target) then 0 else (value + 1) >>> UInt32.ofNat (source - target) - 1
  else if value ≠ 0 then (value + 1) <<< UInt32.ofNat (target - source) - 1
  else value

/-- The compare value that `pwm_start` sets, on the registers as it has set the period. -/
def duty (clk : UInt32) (resolution : Resolution) (t : Registers) (channel : Channel) (value : UInt32) : Option UInt32 :=
  (setCaptureCompare clk t channel (mapResolution value resolution.write resolution.internalWrite.val)
    (.resolution resolution.internalWrite)).map fun next => next.ccr channel

theorem analogWriteResolution_eq (resolution : Resolution) : analogWriteResolution resolution.write = some resolution := by
  obtain ⟨low,high⟩ := resolution.range
  exact dif_pos ⟨by omega,by omega⟩

/-- The mapping of an unbounded computation to no more bits than the value has. -/
def mapped (value source target : Nat) : Nat := (value + 1) / 2 ^ (source - target) - 1

section Mapped
variable (resolution : Resolution)

theorem internalWrite_eq : resolution.internalWrite.val = min resolution.write 16 := by
  rw [Resolution.internalWrite]
  split
  · rename_i more
    exact (Nat.min_eq_right (Nat.le_of_lt more)).symm
  · rename_i most
    exact (Nat.min_eq_left (Nat.le_of_not_lt most)).symm

theorem mapped_zero (source target : Nat) : mapped 0 source target = 0 := by
  have quotient : (0 + 1) / 2 ^ (source - target) ≤ 0 + 1 := Nat.div_le_self _ _
  rw [mapped]
  omega

theorem mapped_monotone {less value : Nat} (below : less ≤ value) (source target : Nat) :
    mapped less source target ≤ mapped value source target := by
  exact Nat.sub_le_sub_right (Nat.div_le_div_right (Nat.succ_le_succ below)) 1

theorem mapped_full {source target : Nat} (narrower : target ≤ source) (value : Nat) (full : value + 1 = 2 ^ source) :
    mapped value source target = 2 ^ target - 1 := by
  rw [mapped,full,Nat.pow_div (Nat.sub_le source target) (by decide),Nat.sub_sub_self narrower]

theorem mapped_same (value source : Nat) : mapped value source source = value := by
  rw [mapped,Nat.sub_self,Nat.pow_zero,Nat.div_one,Nat.add_sub_cancel]

theorem mapResolution_narrow (value : UInt32) {source target : Nat} (narrower : target < source) (near : source - target ≤ 20)
    (fits : value.toNat + 1 < 4294967296) : (mapResolution value source target).toNat = mapped value.toNat source target := by
  have shifts : ∀ k ≤ 20, ((1 : UInt32) <<< UInt32.ofNat k).toNat = 2 ^ k ∧ (UInt32.ofNat k).toNat % 32 = k := by decide
  obtain ⟨one_,places⟩ := shifts (source - target) near
  have next : (value + 1).toNat = value.toNat + 1 := by
    rw [UInt32.toNat_add]
    exact Nat.mod_eq_of_lt fits
  rw [mapResolution,if_neg (Nat.ne_of_gt narrower),if_pos narrower,mapped]
  split
  · rename_i short
    rw [UInt32.lt_iff_toNat_lt,one_] at short
    have quotient : (value.toNat + 1) / 2 ^ (source - target) ≤ 1 := by
      rw [Nat.div_le_iff_le_mul_add_pred (Nat.two_pow_pos _)]
      omega
    exact (Nat.sub_eq_zero_of_le quotient).symm
  · rename_i long
    rw [UInt32.lt_iff_toNat_lt,one_,Nat.not_lt] at long
    have quotient : ((value + 1) >>> UInt32.ofNat (source - target)).toNat = (value.toNat + 1) / 2 ^ (source - target) := by
      rw [UInt32.toNat_shiftRight,next,places,Nat.shiftRight_eq_div_pow]
    have some_ : (1 : UInt32) ≤ (value + 1) >>> UInt32.ofNat (source - target) := by
      rw [UInt32.le_iff_toNat_le,quotient]
      exact (Nat.one_le_div_iff (Nat.two_pow_pos _)).mpr (Nat.le_succ_of_le long)
    rw [UInt32.toNat_sub_of_le _ _ some_,quotient]
    rfl

/-- Only the full value of 32 bits is mapped past the end of a word. -/
theorem mapResolution_mapped (value : UInt32) (fits : value.toNat < 2 ^ resolution.write) :
    (mapResolution value resolution.write resolution.internalWrite.val).toNat =
      mapped value.toNat resolution.write resolution.internalWrite.val ↔
    ¬ (resolution.write = 32 ∧ value.toNat = 4294967295) := by
  obtain ⟨low,high⟩ := resolution.range
  rw [internalWrite_eq]
  rcases Nat.lt_or_ge 16 resolution.write with wide | narrow
  · rw [Nat.min_eq_right (Nat.le_of_lt wide)]
    have less := value.toNat_lt
    by_cases last : value.toNat = 4294967295
    · have width : resolution.write = 32 := by
        by_contra other
        have short : 2 ^ resolution.write ≤ 2 ^ 31 := Nat.pow_le_pow_right (by decide) (by omega)
        omega
      have value_eq : value = 4294967295 := UInt32.toNat_inj.mp last
      refine iff_of_false ?_ fun other => other ⟨width,last⟩
      rw [width,value_eq]
      decide
    · exact iff_of_true (mapResolution_narrow value wide (by omega) (by omega)) fun full => last full.2
  · rw [Nat.min_eq_left narrow,mapped_same,mapResolution,if_pos rfl]
    exact iff_of_true rfl fun last => by omega

end Mapped

section Duty
variable (clk : UInt32) (resolution : Resolution) (t : Registers) (channel : Channel) (value : UInt32)

/-- The compare value is what an unbounded computation gives, grows with the value, and reaches both ends of the period. -/
structure Duty (ccr : UInt32) : Prop where
  set : duty clk resolution t channel value = some ccr
  mapping : (mapResolution value resolution.write resolution.internalWrite.val).toNat =
    mapped value.toNat resolution.write resolution.internalWrite.val
  scaling : ccr.toNat = scaled t.arr.toNat (fullScale resolution.internalWrite).toNat
    (mapped value.toNat resolution.write resolution.internalWrite.val)
  monotone : ∀ less lower, less ≤ value → duty clk resolution t channel less = some lower → lower ≤ ccr
  zero : value = 0 → ccr = 0
  most : ccr.toNat ≤ t.arr.toNat + 1
  full : value.toNat + 1 = 2 ^ resolution.write → ccr.toNat = if t.arr.toNat = 65535 then 65535 else t.arr.toNat + 1

theorem internalWrite_le (resolution : Resolution) : resolution.internalWrite.val ≤ resolution.write := by
  rw [internalWrite_eq]
  exact Nat.min_le_left _ _

theorem mapped_fits (resolution : Resolution) (value : Nat) (fits : value < 2 ^ resolution.write) :
    mapped value resolution.write resolution.internalWrite.val ≤ (fullScale resolution.internalWrite).toNat := by
  have full := mapped_full (internalWrite_le resolution) (2 ^ resolution.write - 1) (Nat.sub_add_cancel (Nat.two_pow_pos _))
  rw [fullScale_toNat,← full]
  exact mapped_monotone (Nat.le_sub_one_of_lt fits) _ _

theorem duty_scaled (arr : t.arr.toNat ≤ 65535) (fits : value.toNat < 2 ^ resolution.write)
    (other : ¬ (resolution.write = 32 ∧ value.toNat = 4294967295)) :
    ∃ ccr, duty clk resolution t channel value = some ccr ∧
      ccr.toNat = scaled t.arr.toNat (fullScale resolution.internalWrite).toNat
        (mapped value.toNat resolution.write resolution.internalWrite.val) := by
  have mapping := (mapResolution_mapped resolution value fits).mpr other
  have within : mapResolution value resolution.write resolution.internalWrite.val ≤ fullScale resolution.internalWrite := by
    rw [UInt32.le_iff_toNat_le,mapping]
    exact mapped_fits resolution value.toNat fits
  obtain ⟨next,sets,_,ccr⟩ := setCaptureCompare_scaled clk t channel (.resolution resolution.internalWrite) _ _ rfl arr within
  rw [mapping] at ccr
  exact ⟨next.ccr channel,by rw [duty,sets,Option.map_some],ccr⟩

/-- The compare value is right exactly unless the full value of 32 bits is written. -/
theorem duty_iff (arr : t.arr.toNat ≤ 65535) (fits : value.toNat < 2 ^ resolution.write) :
    (∃ ccr, Duty clk resolution t channel value ccr) ↔ ¬ (resolution.write = 32 ∧ value.toNat = 4294967295) := by
  rw [← mapResolution_mapped resolution value fits]
  constructor
  · rintro ⟨_,written⟩
    exact written.mapping
  · intro mapping
    have other := (mapResolution_mapped resolution value fits).mp mapping
    obtain ⟨ccr,set,scaling⟩ := duty_scaled clk resolution t channel value arr fits other
    have within := mapped_fits resolution value.toNat fits
    obtain ⟨some_,_⟩ := full_bounds (.resolution resolution.internalWrite) _ rfl
    refine ⟨ccr,set,mapping,scaling,?_,?_,?_,?_⟩
    · intro less lower below set_
      have below_ := UInt32.le_iff_toNat_le.mp below
      obtain ⟨_,set_less,scaling_⟩ := duty_scaled clk resolution t channel less arr (Nat.lt_of_le_of_lt below_ fits)
        fun last => other ⟨last.1,Nat.le_antisymm (Nat.le_of_lt_succ value.toNat_lt) (last.2 ▸ below_)⟩
      cases Option.some.inj (set_.symm.trans set_less)
      rw [UInt32.le_iff_toNat_le,scaling_,scaling]
      exact scaled_monotone _ _ _ (mapped_monotone below_ _ _) within
    · rintro rfl
      rw [← UInt32.toNat_inj,scaling]
      change scaled _ _ (mapped 0 _ _) = 0
      rw [mapped_zero,scaled_zero]
    · rw [scaling]
      exact scaled_le _ _ _ within
    · intro full
      rw [scaling,mapped_full (internalWrite_le resolution) _ full,← fullScale_toNat,scaled_full _ _ some_]

/-- 100 % at 32 bits wraps to a value beyond the period. -/
theorem duty_wraps : ¬ ∃ ccr, Duty 72000000 ⟨32,by decide⟩ ⟨0,999,fun _ => 0⟩ .one 4294967295 ccr := by
  rintro ⟨ccr,written⟩
  cases Option.some.inj written.set
  exact absurd written.most (by decide)

theorem duty_half : ∃ ccr, Duty 72000000 ⟨8,by decide⟩ ⟨0,999,fun _ => 0⟩ .one 128 ccr := by
  exact (duty_iff 72000000 ⟨8,by decide⟩ ⟨0,999,fun _ => 0⟩ .one 128 (by decide) (by decide)).mpr (by decide)

end Duty

end OpenPlc.Analog
