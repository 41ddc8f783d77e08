import OpenPlc.Watchdog.IWatchdog

/-! What `IWatchdogClass::set` leaves in the registers for a window inside of the timeout. -/
namespace OpenPlc.Watchdog

def Smallest (timeout : UInt32) (k : Nat) : Prop := Fits (ticks timeout) k ∧ ∀ j, j < k → ¬ Fits (ticks timeout) j

/-- The smallest divider that the timeout fits, and both counts one below the periods that they stand for. -/
def Programmed (timeout window : UInt32) (after : Iwdg) : Prop :=
  ∃ k, k ≤ 6 ∧ Smallest timeout k ∧ after.pr.toNat = k ∧ (after.rlr.toNat : ℤ) = ⌊ticks timeout / (4 * 2 ^ k)⌋ - 1 ∧
    (after.winr.toNat : ℤ) = ⌊ticks window / (4 * 2 ^ k)⌋ - 1

/-- The timeout is no shorter than the one that the library names, the register of the window has another value than
after a reset, and the window is a period of the divider or more. -/
def Takes (iwdg : Iwdg) (timeout window : UInt32) : Prop :=
  iwdgTimeoutMin ≤ timeout ∧ iwdg.winr ≠ iwdgWinrWin ∧ ∀ k, Smallest timeout k → 4 * 2 ^ k ≤ ticks window

section Counts
variable {t : ℚ} {k : Nat}

theorem masked_toNat (value : UInt32) : (iwdgRlrRl &&& value).toNat = value.toNat % 4096 := by
  rw [UInt32.and_comm,UInt32.toNat_and]
  exact Nat.and_two_pow_sub_one_eq_mod value.toNat 12

/-- One is taken from a count of zero where the time is shorter than a period. -/
theorem counts_iff (some_ : 0 ≤ t) (fits : Fits t k) (small : k ≤ 13) :
    ((iwdgRlrRl &&& counts t (UInt16.ofNat (4 * 2 ^ k))).toNat : ℤ) = ⌊t / (4 * 2 ^ k)⌋ - 1 ↔ 4 * 2 ^ k ≤ t := by
  have positive : (0 : ℚ) < 4 * 2 ^ k := by positivity
  have low : 0 ≤ ⌊t / (4 * 2 ^ k)⌋ := Int.floor_nonneg.mpr (div_nonneg some_ positive.le)
  have high : ⌊t / (4 * 2 ^ k)⌋ ≤ 4095 := by
    have quotient : t / (4 * 2 ^ k) ≤ 4095 := (div_le_iff₀ positive).mpr fits
    exact Int.cast_le.mp (le_trans (Int.floor_le _) quotient)
  have period : 1 ≤ ⌊t / (4 * 2 ^ k)⌋ ↔ 4 * 2 ^ k ≤ t := by
    rw [Int.le_floor,Int.cast_one,one_le_div positive]
  rw [← period,masked_toNat,counts,div_eq small]
  push_cast
  obtain ⟨q,floor⟩ := Int.eq_ofNat_of_zero_le low
  rw [floor] at high ⊢
  rw [UInt32.toNat_sub,UInt32.toNat_ofNat']
  have one_ : (1 : UInt32).toNat = 1 := rfl
  rw [one_]
  simp only [Int.toNat_natCast]
  omega

end Counts

section Set
variable {enabled : Bool} {iwdg after : Iwdg} {timeout window : UInt32} {fuel k : Nat}

theorem ticks_nonneg (time : UInt32) : 0 ≤ ticks time := by
  rw [ticks]
  positivity

theorem ticks_mono (inside : window ≤ timeout) : ticks window ≤ ticks timeout := by
  have less : (window.toNat : ℚ) ≤ timeout.toNat := by exact_mod_cast UInt32.le_iff_toNat_le.mp inside
  rw [ticks,ticks]
  gcongr

theorem set_programmed (done : set enabled iwdg timeout window fuel = some (.programmed after)) :
    ∃ k, k ≤ 6 ∧ Smallest timeout k ∧
      after = program iwdg timeout window (UInt16.ofNat (4 * 2 ^ k)) (UInt8.ofNat k) := by
  have accepted : (enabled && !isIwdgTimeout timeout) = false := by
    by_contra rejected
    rw [set,if_pos (Bool.eq_true_of_not_eq_false rejected)] at done
    cases done
  have found := done
  rw [set,accepted,if_neg Bool.false_ne_true] at found
  obtain ⟨s,divided,_⟩ := Option.map_eq_some_iff.mp found
  have fits : Fits (ticks timeout) 13 := by
    by_contra beyond
    exact absurd ((divider_endless beyond fuel).symm.trans divided) (Option.some_ne_none s).symm
  obtain ⟨k,small,fitting,before,ends⟩ := divider_smallest fits
  cases While.loop_unique divided ends
  have outcome := done.symm.trans (set_divided iwdg window accepted small divided)
  split at outcome
  · cases outcome
  · rename_i within
    cases outcome
    exact ⟨k,Nat.not_lt.mp within,⟨fitting,before⟩,rfl⟩

theorem Smallest.unique {j : Nat} (smallest : Smallest timeout k) (too : Smallest timeout j) : j = k := by
  rcases Nat.lt_trichotomy j k with less | same | more
  · exact absurd too.1 (smallest.2 j less)
  · exact same
  · exact absurd smallest.1 (too.2 k more)

/-- With a larger divider than the first the timeout is above half of what the counter reaches. -/
theorem Smallest.period_iff (smallest : Smallest timeout k) : 4 * 2 ^ k ≤ ticks timeout ↔ iwdgTimeoutMin ≤ timeout := by
  have least : iwdgTimeoutMin ≤ timeout ↔ 4 ≤ ticks timeout := by
    have value : ticks timeout = timeout.toNat * 4 / 125 := ticks_eq timeout
    rw [value,le_div_iff₀ (by norm_num),UInt32.le_iff_toNat_le]
    have limit : iwdgTimeoutMin.toNat = 125 := by decide
    rw [limit]
    constructor
    · intro high
      have : (125 : ℚ) ≤ timeout.toNat := by exact_mod_cast high
      linarith
    · intro high
      have : (125 : ℚ) ≤ timeout.toNat := by linarith
      exact_mod_cast this
  rw [least]
  cases k with
  | zero => rw [pow_zero,mul_one]
  | succ k =>
    have above : 4095 * (4 * 2 ^ k) < ticks timeout := not_le.mp (smallest.2 k (Nat.lt_succ_self k))
    have power : (1 : ℚ) ≤ 2 ^ k := one_le_pow₀ (by norm_num)
    rw [pow_succ]
    exact iff_of_true (by linarith) (by linarith)

theorem Smallest.window_floor (smallest : Smallest timeout k) (inside : window ≤ timeout) :
    ⌊ticks window / (4 * 2 ^ k)⌋ ≤ 4095 := by
  have positive : (0 : ℚ) < 4 * 2 ^ k := by positivity
  have quotient : ticks window / (4 * 2 ^ k) ≤ 4095 :=
    (div_le_iff₀ positive).mpr (le_trans (ticks_mono inside) smallest.1)
  exact Int.cast_le.mp (le_trans (Int.floor_le _) quotient)

/-- A window inside of a timeout that fits is no window that is left out. -/
theorem Smallest.window_ne (smallest : Smallest timeout k) (small : k ≤ 6) (inside : window < timeout) :
    window ≠ iwdgTimeoutMax := by
  rintro rfl
  have most := (fits_iff 6).mp (smallest.1.mono small)
  have less := UInt32.lt_iff_toNat_lt.mp inside
  have limit : iwdgTimeoutMax.toNat = 32760000 := by decide
  omega

theorem programmed_written (inside : window < timeout)
    (programmed : Programmed timeout window (program iwdg timeout window (UInt16.ofNat (4 * 2 ^ k)) (UInt8.ofNat k))) :
    iwdg.winr ≠ iwdgWinrWin := by
  intro unset
  obtain ⟨j,_,smallest,_,_,winr⟩ := programmed
  have kept : (program iwdg timeout window (UInt16.ofNat (4 * 2 ^ k)) (UInt8.ofNat k)).winr = iwdgWinrWin := by
    rw [program,if_neg fun both => both.2 unset]
    exact unset
  have most := smallest.window_floor (UInt32.le_of_lt inside)
  have full : iwdgWinrWin.toNat = 4095 := rfl
  rw [kept,full] at winr
  omega

/-- The registers are what the timeout and the window ask for exactly if the window is written and neither count falls
below one. -/
theorem programmed_iff (inside : window < timeout) (done : set enabled iwdg timeout window fuel = some (.programmed after)) :
    Programmed timeout window after ↔ Takes iwdg timeout window := by
  obtain ⟨k,small,smallest,rfl⟩ := set_programmed done
  by_cases unset : iwdg.winr = iwdgWinrWin
  · exact iff_of_false (fun programmed => programmed_written inside programmed unset) fun takes => takes.2.1 unset
  · have written : program iwdg timeout window (UInt16.ofNat (4 * 2 ^ k)) (UInt8.ofNat k) =
        ⟨7 &&& (UInt8.ofNat k).toUInt32,iwdgRlrRl &&& counts (ticks timeout) (UInt16.ofNat (4 * 2 ^ k)),
          iwdgRlrRl &&& counts (ticks window) (UInt16.ofNat (4 * 2 ^ k))⟩ := by
      rw [program,if_pos ⟨smallest.window_ne small inside,unset⟩,if_neg (UInt32.not_le.mpr inside)]
      rfl
    have pr := program_pr iwdg timeout window small (UInt16.ofNat (4 * 2 ^ k))
    rw [written] at pr ⊢
    have fits : Fits (ticks window) k := le_trans (ticks_mono (UInt32.le_of_lt inside)) smallest.1
    have reload := counts_iff (ticks_nonneg timeout) smallest.1 (Nat.le_trans small (by decide))
    have winr := counts_iff (ticks_nonneg window) fits (Nat.le_trans small (by decide))
    rw [smallest.period_iff] at reload
    constructor
    · rintro ⟨j,_,too,_,timeouts,windows⟩
      cases smallest.unique too
      exact ⟨reload.mp timeouts,unset,fun i other => smallest.unique other ▸ winr.mp windows⟩
    · rintro ⟨long,_,periods⟩
      exact ⟨k,small,smallest,pr,reload.mpr long,winr.mpr (periods k smallest)⟩

theorem set_programs (iwdg : Iwdg) (window : UInt32) (accepted : isIwdgTimeout timeout = true) :
    ∃ after, set true iwdg timeout window 15 = some (.programmed after) := by
  have most : timeout.toNat ≤ iwdgTimeoutMax.toNat := by
    rw [isIwdgTimeout,Bool.and_eq_true,decide_eq_true_iff,decide_eq_true_iff] at accepted
    exact UInt32.le_iff_toNat_le.mp accepted.2
  have limit : iwdgTimeoutMax.toNat = 32760000 := by decide
  have fits : Fits (ticks timeout) 6 := by
    rw [fits_iff]
    omega
  have taken : (true && !isIwdgTimeout timeout) = false := by
    rw [accepted]
    rfl
  obtain ⟨k,small,_,before,divided⟩ := divider_smallest (fits.mono (by decide : 6 ≤ 13))
  have within : ¬ 6 < k := fun beyond => before 6 beyond fits
  have outcome := set_divided iwdg window taken small divided
  rw [if_neg within] at outcome
  exact ⟨_,outcome⟩

/-- After a reset the window is never written. -/
theorem window_unwritten : ∃ after, set true Iwdg.reset 1000000 500000 15 = some (.programmed after) ∧
    ¬ Programmed 1000000 500000 after := by
  obtain ⟨after,done⟩ := set_programs Iwdg.reset 500000 (by decide : isIwdgTimeout 1000000 = true)
  refine ⟨after,done,?_⟩
  intro programmed
  obtain ⟨k,_,_,rfl⟩ := set_programmed done
  exact programmed_written (by decide) programmed rfl

theorem programmed_half : ∃ after, set true ⟨0,4095,0⟩ 1000000 500000 15 = some (.programmed after) ∧
    Programmed 1000000 500000 after := by
  obtain ⟨after,done⟩ := set_programs ⟨0,4095,0⟩ 500000 (by decide : isIwdgTimeout 1000000 = true)
  refine ⟨after,done,(programmed_iff (by decide) done).mpr ⟨by decide,by decide,?_⟩⟩
  intro k smallest
  have fits : Fits (ticks 1000000) 1 := by
    rw [fits_iff]
    decide
  have first : k ≤ 1 := by
    by_contra more
    exact smallest.2 1 (Nat.not_le.mp more) fits
  have power : (2 : ℚ) ^ k ≤ 2 ^ 1 := pow_le_pow_right₀ (by norm_num) first
  have half : ticks 500000 = (500000 : UInt32).toNat * 4 / 125 := ticks_eq 500000
  have value : ((500000 : UInt32).toNat : ℚ) = (500000 : Nat) := rfl
  rw [half,value]
  linarith

end Set

end OpenPlc.Watchdog
