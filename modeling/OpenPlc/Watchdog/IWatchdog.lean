import OpenPlc.Lib.While
import Mathlib.Data.Rat.Floor
import Mathlib.Tactic.Linarith
import Mathlib.Tactic.NormNum

/-! The independent watchdog (`IWatchdog.cpp`), whose expressions of type `float` are computed exactly. -/
namespace OpenPlc.Watchdog

def lsiValue : UInt32 := 32000

/-- `IWDG_RLR_RL` and `IWDG_WINR_WIN` -/
def iwdgRlrRl : UInt32 := 0xFFF

def iwdgWinrWin : UInt32 := 0xFFF

def iwdgTimeoutMin : UInt32 := 4 * 1000000 / lsiValue

def iwdgTimeoutMax : UInt32 := 256 * 1000000 / lsiValue * iwdgRlrRl

def isIwdgTimeout (timeout : UInt32) : Bool := iwdgTimeoutMin ≤ timeout && timeout ≤ iwdgTimeoutMax

/-- `LL_IWDG_PRESCALER_256` -/
def prescaler256 : UInt8 := 6

structure Iwdg where
  pr : UInt32
  rlr : UInt32
  winr : UInt32

def Iwdg.reset : Iwdg := ⟨0,iwdgRlrRl,iwdgWinrWin⟩

/-- A time in microseconds in periods of the oscillator. -/
def ticks (time : UInt32) : ℚ := time.toNat / 1000000 * lsiValue.toNat

structure Divider where
  div : UInt16
  prescaler : UInt8

/-- `div = 4 << prescaler; prescaler++;` -/
def Divider.next (s : Divider) : Divider := ⟨UInt16.ofNat (4 * 2 ^ s.prescaler.toNat),s.prescaler + 1⟩

/-- A quotient by zero is infinite. -/
def exceeds (t : ℚ) (div : UInt16) : Bool := if div = 0 then 0 < t else iwdgRlrRl.toNat < t / div.toNat

def divider (fuel : Nat) (t : ℚ) : Option Divider :=
  While.loop (fun s => exceeds t s.div) (fun s => some s.next) fuel (Divider.next ⟨0,0⟩)

/-- `(uint32_t)(t / div) - 1` -/
def counts (t : ℚ) (div : UInt16) : UInt32 := UInt32.ofNat ⌊t / div.toNat⌋.toNat - 1

inductive Outcome where
  | returned
  | programmed (iwdg : Iwdg)

/-- What `set` writes once it has a prescaler. -/
def program (iwdg : Iwdg) (timeout window : UInt32) (div : UInt16) (prescaler : UInt8) : Iwdg :=
  let reload := counts (ticks timeout) div
  let iwdg := {iwdg with pr := 7 &&& prescaler.toUInt32, rlr := iwdgRlrRl &&& reload}
  if window ≠ iwdgTimeoutMax ∧ iwdg.winr ≠ iwdgWinrWin then
    let reload := if timeout ≤ window then iwdgWinrWin else counts (ticks window) div
    {iwdg with winr := iwdgWinrWin &&& reload}
  else iwdg

/-- `IWatchdogClass::set`, in which the registers are ready at some time. -/
def set (enabled : Bool) (iwdg : Iwdg) (timeout window : UInt32) (fuel : Nat) : Option Outcome :=
  if enabled && !isIwdgTimeout timeout then some .returned
  else (divider fuel (ticks timeout)).map fun s =>
    let prescaler := s.prescaler - 1
    if prescaler256 < prescaler then .returned else .programmed (program iwdg timeout window s.div prescaler)

/-- The counts of the timeout fit the reload register with this prescaler. -/
def Fits (t : ℚ) (k : Nat) : Prop := t ≤ 4095 * (4 * 2 ^ k)

/-- The loop ends with a divider, and the call leaves the registers alone or programs one of the seven prescalers. -/
structure Ends (enabled : Bool) (iwdg : Iwdg) (timeout window : UInt32) : Prop where
  divides : (enabled && !isIwdgTimeout timeout) = true ∨ ∃ fuel s, divider fuel (ticks timeout) = some s ∧ s.div ≠ 0
  outcome : ∃ fuel outcome, set enabled iwdg timeout window fuel = some outcome ∧
    (outcome = .returned ∨ ∃ after, outcome = .programmed after ∧ after.pr.toNat ≤ 6)

section Dividers
variable {t : ℚ} {k : Nat}

theorem div_eq (small : k ≤ 13) : (UInt16.ofNat (4 * 2 ^ k)).toNat = 4 * 2 ^ k := by
  have bounded : ∀ k ≤ 13, (UInt16.ofNat (4 * 2 ^ k)).toNat = 4 * 2 ^ k := by decide
  exact bounded k small

theorem div_pos (small : k ≤ 13) : UInt16.ofNat (4 * 2 ^ k) ≠ 0 := by
  have bounded : ∀ k ≤ 13, UInt16.ofNat (4 * 2 ^ k) ≠ 0 := by decide
  exact bounded k small

theorem exceeds_iff (small : k ≤ 13) : exceeds t (UInt16.ofNat (4 * 2 ^ k)) = true ↔ ¬ Fits t k := by
  have positive : (0 : ℚ) < 4 * 2 ^ k := by positivity
  rw [exceeds,if_neg (div_pos small),decide_eq_true_iff,div_eq small,Fits,not_le]
  push_cast
  rw [lt_div_iff₀ positive]
  rfl

theorem next_eq (small : k ≤ 12) :
    (Divider.mk (UInt16.ofNat (4 * 2 ^ k)) (UInt8.ofNat (k + 1))).next =
      ⟨UInt16.ofNat (4 * 2 ^ (k + 1)),UInt8.ofNat (k + 1 + 1)⟩ := by
  have bounded : ∀ k ≤ 12, (UInt8.ofNat (k + 1)).toNat = k + 1 ∧ UInt8.ofNat (k + 1) + 1 = UInt8.ofNat (k + 1 + 1) := by decide
  obtain ⟨places,more⟩ := bounded k small
  rw [Divider.next,places,more]

theorem Fits.mono {j : Nat} (fits : Fits t j) (up : j ≤ k) : Fits t k := by
  have powers : (2 : ℚ) ^ j ≤ 2 ^ k := pow_le_pow_right₀ (by norm_num) up
  have scaled : (4095 : ℚ) * (4 * 2 ^ j) ≤ 4095 * (4 * 2 ^ k) := by linarith
  exact le_trans fits scaled

/-- The dividers that were passed over do not fit. -/
def Passed (t : ℚ) (s : Divider) : Prop :=
  ∃ k, k ≤ 13 ∧ s = ⟨UInt16.ofNat (4 * 2 ^ k),UInt8.ofNat (k + 1)⟩ ∧ ∀ j, j < k → ¬ Fits t j

theorem passed_first (t : ℚ) : Passed t (Divider.next ⟨0,0⟩) :=
  ⟨0,Nat.zero_le 13,rfl,fun _ before => absurd before (Nat.not_lt_zero _)⟩

/-- While the last divider fits, one that does not is none of the last. -/
theorem passed_next (fits : Fits t 13) (s : Divider) (passed : Passed t s) (more : exceeds t s.div = true) :
    ∃ next, some s.next = some next ∧ Passed t next ∧ 14 - next.prescaler.toNat < 14 - s.prescaler.toNat := by
  obtain ⟨k,small,rfl,before⟩ := passed
  have beyond : ¬ Fits t k := (exceeds_iff small).mp more
  have inner : k ≤ 12 := by
    by_contra last
    have same : k = 13 := by omega
    exact beyond (same ▸ fits)
  have places : ∀ k ≤ 13, (UInt8.ofNat (k + 1)).toNat = k + 1 := by decide
  refine ⟨_,rfl,?_,?_⟩
  · refine ⟨k + 1,by omega,next_eq inner,?_⟩
    intro j less
    rcases Nat.lt_succ_iff_lt_or_eq.mp less with earlier | rfl
    · exact before j earlier
    · exact beyond
  · rw [next_eq inner]
    simp only [places k small,places (k + 1) (by omega)]
    omega

/-- The divider doubles until the counts fit, within the sixteen bits that hold it. -/
theorem divider_smallest (fits : Fits t 13) :
    ∃ k, k ≤ 13 ∧ Fits t k ∧ (∀ j, j < k → ¬ Fits t j) ∧
      divider 15 t = some ⟨UInt16.ofNat (4 * 2 ^ k),UInt8.ofNat (k + 1)⟩ := by
  obtain ⟨s,ends,⟨k,small,rfl,before⟩,stops⟩ := While.loop_rule (Passed t) (fun s => 14 - s.prescaler.toNat)
    (passed_next fits) 15 (Divider.next ⟨0,0⟩) (passed_first t) (Nat.lt_succ_of_le (Nat.sub_le 14 _))
  have fitting : Fits t k := by
    by_contra beyond
    rw [(exceeds_iff small).mpr beyond] at stops
    exact Bool.noConfusion stops
  exact ⟨k,small,fitting,before,ends⟩

/-- Beyond thirteen places the divider has none of its bits in sixteen. -/
theorem next_div (s : Divider) : ∃ k, k ≤ 13 ∧ s.next.div = UInt16.ofNat (4 * 2 ^ k) ∨ s.next.div = 0 := by
  rcases Nat.lt_or_ge s.prescaler.toNat 14 with small | large
  · exact ⟨s.prescaler.toNat,Or.inl ⟨Nat.le_of_lt_succ small,rfl⟩⟩
  · obtain ⟨rest,places⟩ := Nat.exists_eq_add_of_le large
    refine ⟨0,Or.inr ?_⟩
    apply UInt16.toNat_inj.mp
    rw [Divider.next,places,UInt16.toNat_ofNat',pow_add,← mul_assoc]
    exact Nat.mul_mod_right 65536 (2 ^ rest)

theorem divider_endless (beyond : ¬ Fits t 13) (fuel : Nat) : divider fuel t = none := by
  have positive : 0 < t := by
    by_contra none_
    exact beyond (le_trans (not_lt.mp none_) (by positivity))
  have always (s : Divider) : exceeds t s.next.div = true := by
    obtain ⟨k,⟨small,div⟩ | zero⟩ := next_div s
    · rw [div]
      exact (exceeds_iff small).mpr fun fits => beyond (fits.mono small)
    · rw [zero,exceeds,if_pos rfl]
      exact decide_eq_true positive
  apply While.loop_endless (fun s => exceeds t s.div = true)
  · intro s more
    refine ⟨more,?_⟩
    rintro _ ⟨⟩
    exact always s
  · exact always ⟨0,0⟩

end Dividers

section Set
variable {enabled : Bool} {iwdg : Iwdg} {timeout window : UInt32}

theorem ticks_eq (time : UInt32) : ticks time = time.toNat * 4 / 125 := by
  have rate : (lsiValue.toNat : ℚ) = (32000 : Nat) := rfl
  rw [ticks,rate]
  push_cast
  ring

theorem fits_iff (k : Nat) : Fits (ticks timeout) k ↔ timeout.toNat * 4 ≤ 4095 * (4 * 2 ^ k) * 125 := by
  rw [Fits,ticks_eq,div_le_iff₀ (by norm_num)]
  exact_mod_cast Iff.rfl

/-- The timeouts that the call takes while the watchdog is enabled are far below those for which there is no divider. -/
theorem accepted_fits (accepted : (enabled && !isIwdgTimeout timeout) = false) (high : enabled = true ∨ timeout ≤ 4193280000) :
    Fits (ticks timeout) 13 := by
  rw [fits_iff]
  have most : timeout.toNat ≤ 4193280000 := by
    rcases high with on | high
    · rw [on,Bool.true_and,Bool.not_eq_false',isIwdgTimeout,Bool.and_eq_true,decide_eq_true_iff,decide_eq_true_iff] at accepted
      have below := UInt32.le_iff_toNat_le.mp accepted.2
      have limit : iwdgTimeoutMax.toNat = 32760000 := by decide
      omega
    · exact UInt32.le_iff_toNat_le.mp high
  omega

theorem set_divided {fuel k : Nat} (iwdg : Iwdg) (window : UInt32) (accepted : (enabled && !isIwdgTimeout timeout) = false)
    (small : k ≤ 13) (divided : divider fuel (ticks timeout) = some ⟨UInt16.ofNat (4 * 2 ^ k),UInt8.ofNat (k + 1)⟩) :
    set enabled iwdg timeout window fuel = some (if 6 < k then .returned
      else .programmed (program iwdg timeout window (UInt16.ofNat (4 * 2 ^ k)) (UInt8.ofNat k))) := by
  have back : ∀ k ≤ 13, UInt8.ofNat (k + 1) - 1 = UInt8.ofNat k ∧ (prescaler256 < UInt8.ofNat k ↔ 6 < k) := by decide
  obtain ⟨prescaler,beyond⟩ := back k small
  rw [set,accepted,if_neg Bool.false_ne_true,divided,Option.map_some]
  simp only [prescaler,beyond]

theorem program_pr (iwdg : Iwdg) (timeout window : UInt32) {k : Nat} (small : k ≤ 6) (div : UInt16) :
    (program iwdg timeout window div (UInt8.ofNat k)).pr.toNat = k := by
  have masked : ∀ k ≤ 6, (7 &&& (UInt8.ofNat k).toUInt32).toNat = k := by decide
  rw [program]
  split <;> exact masked k small

/-- The divider is found in sixteen bits exactly for the timeouts that thirteen places are enough for. -/
theorem ends_iff (enabled : Bool) (iwdg : Iwdg) (timeout window : UInt32) :
    Ends enabled iwdg timeout window ↔ enabled = true ∨ timeout ≤ 4193280000 := by
  constructor
  · intro ends
    by_contra high
    obtain ⟨off,above⟩ := not_or.mp high
    have beyond : ¬ Fits (ticks timeout) 13 := by
      rw [fits_iff]
      have more : ¬ timeout.toNat ≤ 4193280000 := UInt32.le_iff_toNat_le.not.mp above
      omega
    have accepted : (enabled && !isIwdgTimeout timeout) = false := by
      rw [Bool.eq_false_iff.mpr off,Bool.false_and]
    obtain ⟨fuel,outcome,done,_⟩ := ends.outcome
    rw [set,accepted,if_neg Bool.false_ne_true,divider_endless beyond] at done
    exact absurd done.symm (Option.some_ne_none outcome)
  · intro high
    by_cases rejected : (enabled && !isIwdgTimeout timeout) = true
    · exact ⟨Or.inl rejected,0,.returned,if_pos rejected,Or.inl rfl⟩
    · have accepted := Bool.not_eq_true _ ▸ rejected
      obtain ⟨k,small,_,_,divided⟩ := divider_smallest (accepted_fits accepted high)
      refine ⟨Or.inr ⟨15,_,divided,div_pos small⟩,15,_,set_divided iwdg window accepted small divided,?_⟩
      split
      · exact Or.inl rfl
      · rename_i within
        have least := Nat.not_lt.mp within
        exact Or.inr ⟨_,rfl,Nat.le_trans (Nat.le_of_eq (program_pr iwdg timeout window least _)) least⟩

/-- Before the watchdog is enabled a timeout of 4295 seconds is taken, and no divider of sixteen bits is large enough. -/
theorem ends_never : ¬ Ends false Iwdg.reset 4294967295 0 := by
  intro ends
  obtain off | ⟨fuel,s,found,_⟩ := ends.divides
  · exact Bool.noConfusion off
  · have beyond : ¬ Fits (ticks 4294967295) 13 := by
      rw [fits_iff]
      decide
    rw [divider_endless beyond] at found
    exact absurd found.symm (Option.some_ne_none s)

end Set

end OpenPlc.Watchdog
