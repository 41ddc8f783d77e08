import OpenPlc.Lib.Loops

/-! The search for the I2C timing registers (`i2c_computeTiming` in `twi.c`), with the analog filter and without the
digital one. Times are in nanoseconds. A computation that would wrap around has no result. -/
namespace OpenPlc.Wire.Timing
open Loops

structure Charac where
  freq : Nat
  freqMin : Nat
  freqMax : Nat
  hddatMin : Nat
  vddatMax : Nat
  sudatMin : Nat
  lsclMin : Nat
  hsclMin : Nat
  trise : Nat
  tfall : Nat
  dnf : Nat

/-- `I2C_Charac`, by the index of the speed. -/
def i2cCharac : List Charac :=
  [⟨100000,80000,120000,0,3450,250,4700,4000,640,20,0⟩,⟨400000,320000,480000,0,900,100,1300,600,250,100,0⟩,
    ⟨1000000,800000,1200000,0,450,50,500,260,60,100,0⟩]

structure ClockTiming where
  inputClock : Nat
  timing : Nat

/-- `I2C_ClockTiming`, by the index of the speed. -/
def Cache := Nat → ClockTiming

def emptyCache : Cache := fun _ => ⟨0,0⟩

def validTimingNbr : Nat := 8
def analogFilterDelayMin : Nat := 50
def analogFilterDelayMax : Nat := 260
def prescMax : Nat := 16
def scldelMax : Nat := 16
def sdadelMax : Nat := 16
def sclhMax : Nat := 256
def scllMax : Nat := 256
def sec2nsec : Nat := 1000000000

/-- What is computed ahead of the loops. -/
structure Limits where
  ti2cclk : Nat
  ti2cspeed : Nat
  tsdadelMin : Nat
  tsdadelMax : Nat
  tscldelMin : Nat
  dnfDelay : Nat
  clkMin : Nat
  clkMax : Nat

/-- The variables that the loops change. -/
structure Best where
  ret : Nat
  prevError : Nat
  prevPresc : Nat
  validTimingNbr : Nat
  timing : Nat

def limits (c : Charac) (clkSrcFreq : Nat) : Option Limits := do
  let ti2cclk ← div (← add sec2nsec (clkSrcFreq / 2)) clkSrcFreq
  let ti2cspeed ← div (← add sec2nsec (c.freq / 2)) c.freq
  let clk ← signed ti2cclk
  let tsdadelMin ← signed (c.tfall + c.hddatMin)
  let tsdadelMin ← signed (tsdadelMin - analogFilterDelayMin)
  let tsdadelMin ← signed (tsdadelMin - (← signed ((c.dnf + 3) * clk)))
  let tsdadelMax ← signed (c.vddatMax - c.trise)
  let tsdadelMax ← signed (tsdadelMax - analogFilterDelayMax)
  let tsdadelMax ← signed (tsdadelMax - (← signed ((c.dnf + 4) * clk)))
  let tscldelMin ← signed (c.trise + c.sudatMin)
  let tsdadelMin := if tsdadelMin ≤ 0 then 0 else tsdadelMin
  let tsdadelMax := if tsdadelMax ≤ 0 then 0 else tsdadelMax
  let dnfDelay ← mul c.dnf ti2cclk
  return ⟨ti2cclk,ti2cspeed,tsdadelMin.toNat,tsdadelMax.toNat,tscldelMin.toNat,dnfDelay,sec2nsec / c.freqMax,
    sec2nsec / c.freqMin⟩

/-- The register with its fields, of which the fourth from above stays 0. -/
def packed (presc scldel sdadel sclh scll : Nat) : Option Nat := do
  return (← shl (presc &&& 15) 28) ||| (← shl (scldel &&& 15) 20) ||| (← shl (sdadel &&& 15) 16) |||
    (← shl (sclh &&& 255) 8) ||| (← shl (scll &&& 255) 0)

/-- The low or the high time of the clock for the field `sclx`. -/
def tsclx (k : Limits) (tpresc sclx : Nat) : Option Nat := do
  add (← add (← add analogFilterDelayMin k.dnfDelay) (← mul 2 k.ti2cclk)) (← mul (← add sclx 1) tpresc)

def sclhRound (c : Charac) (k : Limits) (presc scldel sdadel tpresc scll tscl_l sclh : Nat) (s : Best) : Option Best := do
  let tscl_h ← tsclx k tpresc sclh
  let tscl ← add (← add (← add tscl_l tscl_h) c.trise) c.tfall
  if k.clkMin ≤ tscl ∧ tscl ≤ k.clkMax ∧ c.hsclMin ≤ tscl_h ∧ k.ti2cclk < tscl_h then
    let error ← signed ((← signed tscl) - (← signed k.ti2cspeed))
    let error ← if error < 0 then signed (-error) else some error
    if error.toNat < s.prevError then
      let ret ← packed presc scldel sdadel sclh scll
      return {s with ret := ret, prevError := error.toNat, prevPresc := presc, timing := ret}
    else return s
  else return s

def scllRound (c : Charac) (k : Limits) (presc scldel sdadel tpresc scll : Nat) (s : Best) : Option Best := do
  let tscl_l ← tsclx k tpresc scll
  if c.lsclMin < tscl_l then
    let rest ← sub (← sub tscl_l analogFilterDelayMin) k.dnfDelay
    if k.ti2cclk < rest / 4 then each sclhMax (sclhRound c k presc scldel sdadel tpresc scll tscl_l) s else return s
  else return s

def sdadelRound (c : Charac) (k : Limits) (presc scldel sdadel : Nat) (s : Best) : Option (Flow Best) := do
  let tsdadel ← mul (← mul sdadel (← add presc 1)) k.ti2cclk
  if k.tsdadelMin ≤ tsdadel ∧ tsdadel ≤ k.tsdadelMax ∧ presc ≠ s.prevPresc then
    let nbr ← add s.validTimingNbr 1
    let s := {s with validTimingNbr := nbr}
    if validTimingNbr ≤ nbr then return .stop s
    let tpresc ← mul (← add presc 1) k.ti2cclk
    return .next (← each scllMax (scllRound c k presc scldel sdadel tpresc) s)
  else return .next s

def scldelRound (c : Charac) (k : Limits) (presc scldel : Nat) (s : Best) : Option (Flow Best) := do
  let tscldel ← mul (← mul (← add scldel 1) (← add presc 1)) k.ti2cclk
  if k.tscldelMin ≤ tscldel then loop sdadelMax (sdadelRound c k presc scldel) s else return .next s

def prescRound (c : Charac) (k : Limits) (presc : Nat) (s : Best) : Option (Flow Best) :=
  loop scldelMax (scldelRound c k presc) s

/-- `i2c_computeTiming(clkSrcFreq, i2c_speed)` with the cache that it leaves. -/
def computeTiming (cache : Cache) (clkSrcFreq i2c_speed : Nat) : Option (Nat × Cache) := do
  match i2cCharac[i2c_speed]? with
  | none => return (4294967295,cache)
  | some c =>
    let entry := cache i2c_speed
    if entry.inputClock = clkSrcFreq ∧ entry.timing ≠ 0 then return (entry.timing,cache)
    let k ← limits c clkSrcFreq
    let s := (← loop prescMax (prescRound c k) ⟨4294967295,k.ti2cspeed,prescMax,0,entry.timing⟩).state
    return (s.ret,fun speed => if speed = i2c_speed then ⟨clkSrcFreq,s.timing⟩ else cache speed)

/-- What the table promises about its entries: the sizes of their types, and that the shortest times of a speed make no
period that is too short for it. -/
structure Charac.Fits (c : Charac) : Prop where
  freq : 0 < c.freq ∧ c.freq ≤ 1000000000
  freqMin : 0 < c.freqMin
  freqMax : 0 < c.freqMax
  hddatMin : c.hddatMin < 65536
  vddatMax : c.vddatMax < 65536
  sudatMin : c.sudatMin < 65536
  trise : c.trise < 65536
  tfall : c.tfall < 65536
  dnf : c.dnf < 256
  period : sec2nsec ≤ (c.lsclMin + c.hsclMin + c.trise + c.tfall) * c.freqMax

theorem i2cCharac_fits (c : Charac) (member : c ∈ i2cCharac) : c.Fits := by
  simp only [i2cCharac,List.mem_cons,List.not_mem_nil,or_false] at member
  rcases member with rfl | rfl | rfl <;> constructor <;> decide

def period (clkSrcFreq : Nat) : Nat := (sec2nsec + clkSrcFreq / 2) / clkSrcFreq

theorem period_le (clkSrcFreq : Nat) (low : 1000000 ≤ clkSrcFreq) : period clkSrcFreq ≤ 1000 := by
  rw [period,sec2nsec]
  apply Nat.le_of_lt_succ
  rw [Nat.div_lt_iff_lt_mul (by omega)]
  omega

/-- The values ahead of the loops, where a difference below 0 is 0. -/
def limitsOf (c : Charac) (clkSrcFreq : Nat) : Limits where
  ti2cclk := period clkSrcFreq
  ti2cspeed := period c.freq
  tsdadelMin := c.tfall + c.hddatMin - (analogFilterDelayMin + (c.dnf + 3) * period clkSrcFreq)
  tsdadelMax := c.vddatMax - (c.trise + analogFilterDelayMax + (c.dnf + 4) * period clkSrcFreq)
  tscldelMin := c.trise + c.sudatMin
  dnfDelay := c.dnf * period clkSrcFreq
  clkMin := sec2nsec / c.freqMax
  clkMax := sec2nsec / c.freqMin

theorem limits_eq (c : Charac) (clkSrcFreq : Nat) (fits : c.Fits) (low : 1000000 ≤ clkSrcFreq)
    (high : clkSrcFreq < 4294967296) : limits c clkSrcFreq = some (limitsOf c clkSrcFreq) := by
  obtain ⟨freq,_,_,hddatMin,vddatMax,sudatMin,trise,tfall,dnf,_⟩ := fits
  have short := period_le clkSrcFreq low
  obtain ⟨t,t_eq⟩ : ∃ t, t = period clkSrcFreq := ⟨_,rfl⟩
  have filter : c.dnf * t ≤ 255 * 1000 := Nat.mul_le_mul (by omega) (by omega)
  have three : ((c.dnf : Int) + 3) * (t : Int) = (c.dnf * t : Nat) + 3 * (t : Int) := by
    rw [Int.add_mul,Int.natCast_mul]
  have four : ((c.dnf : Int) + 4) * (t : Int) = (c.dnf * t : Nat) + 4 * (t : Int) := by
    rw [Int.add_mul,Int.natCast_mul]
  have clamp : ∀ value : Int, (if value ≤ 0 then 0 else value).toNat = value.toNat := by
    intro value
    split <;> omega
  have clock : div (sec2nsec + clkSrcFreq / 2) clkSrcFreq = some t := by
    rw [div_eq _ _ (by omega),t_eq]
    rfl
  simp only [limits,limitsOf,Option.bind_eq_bind,analogFilterDelayMin,analogFilterDelayMax,← t_eq]
  rw [add_bind _ _ (by rw [sec2nsec]; omega),clock,Option.bind_some,add_bind _ _ (by rw [sec2nsec]; omega),
    div_eq _ _ (by omega),Option.bind_some,signed_bind t (by omega) (by omega)]
  simp only [three,four]
  rw [signed_bind _ (by omega) (by omega),signed_bind _ (by omega) (by omega),signed_bind _ (by omega) (by omega),
    signed_bind _ (by omega) (by omega),signed_bind _ (by omega) (by omega),signed_bind _ (by omega) (by omega),
    signed_bind _ (by omega) (by omega),signed_bind _ (by omega) (by omega),signed_bind _ (by omega) (by omega),
    mul_bind _ _ (by omega),clamp,clamp]
  rw [Option.pure_def,Option.some.injEq,Limits.mk.injEq,Nat.add_mul,Nat.add_mul]
  refine ⟨rfl,rfl,?_,?_,?_,rfl,rfl,rfl⟩ <;> omega

/-- The bounds of the values ahead of the loops, from which no computation in the loops wraps around. -/
structure Limits.Small (k : Limits) : Prop where
  clock : k.ti2cclk ≤ 1000
  filter : k.dnfDelay ≤ 255000
  speed : k.ti2cspeed ≤ 1500000000

theorem limitsOf_small (c : Charac) (clkSrcFreq : Nat) (fits : c.Fits) (low : 1000000 ≤ clkSrcFreq) :
    (limitsOf c clkSrcFreq).Small := by
  have short := period_le clkSrcFreq low
  refine ⟨short,?_,?_⟩
  · exact Nat.mul_le_mul (Nat.le_of_lt_succ fits.dnf) short
  · have whole := Nat.div_le_self (sec2nsec + c.freq / 2) c.freq
    have high := fits.freq.2
    rw [sec2nsec] at whole
    simp only [limitsOf,period,sec2nsec]
    omega

def time (k : Limits) (tpresc sclx : Nat) : Nat :=
  analogFilterDelayMin + k.dnfDelay + 2 * k.ti2cclk + (sclx + 1) * tpresc

def register (presc scldel sdadel sclh scll : Nat) : Nat :=
  presc * 268435456 + scldel * 1048576 + sdadel * 65536 + sclh * 256 + scll

theorem or_add (high low places unit : Nat) (power : 1 <<< places = unit) (fits : low < unit) (aligned : high % unit = 0) :
    high ||| low = high + low := by
  rw [← power,Nat.one_shiftLeft] at fits aligned
  have parts := Nat.two_pow_add_eq_or_of_lt fits (high / 2 ^ places)
  rw [Nat.mul_div_cancel' (Nat.dvd_of_mod_eq_zero aligned)] at parts
  exact parts.symm

theorem packed_eq (presc scldel sdadel sclh scll : Nat) (presc_lt : presc < 16) (scldel_lt : scldel < 16)
    (sdadel_lt : sdadel < 16) (sclh_lt : sclh < 256) (scll_lt : scll < 256) :
    packed presc scldel sdadel sclh scll = some (register presc scldel sdadel sclh scll) := by
  have four : ∀ field, field < 16 → field &&& 15 = field := by
    intro field inside
    rw [show 15 = 2 ^ 4 - 1 by rfl,Nat.and_two_pow_sub_one_eq_mod,Nat.mod_eq_of_lt inside]
  have eight : ∀ field, field < 256 → field &&& 255 = field := by
    intro field inside
    rw [show 255 = 2 ^ 8 - 1 by rfl,Nat.and_two_pow_sub_one_eq_mod,Nat.mod_eq_of_lt inside]
  simp only [packed,Option.bind_eq_bind]
  rw [four presc presc_lt,four scldel scldel_lt,four sdadel sdadel_lt,eight sclh sclh_lt,eight scll scll_lt]
  rw [shl_eq _ _ (by omega),Option.bind_some,shl_eq _ _ (by omega),Option.bind_some,shl_eq _ _ (by omega),Option.bind_some,
    shl_eq _ _ (by omega),Option.bind_some,shl_eq _ _ (by omega),Option.bind_some]
  rw [or_add _ (scldel <<< 20) 28 268435456 rfl (by omega) (by omega),
    or_add _ (sdadel <<< 16) 20 1048576 rfl (by omega) (by omega),or_add _ (sclh <<< 8) 16 65536 rfl (by omega) (by omega),
    or_add _ (scll <<< 0) 8 256 rfl (by omega) (by omega)]
  simp [register,Nat.shiftLeft_eq]

/-- The period of the clock with its edges. -/
def whole (c : Charac) (k : Limits) (tpresc scll sclh : Nat) : Nat :=
  time k tpresc scll + time k tpresc sclh + c.trise + c.tfall

/-- What the innermost loop tests. -/
def HighChecked (c : Charac) (k : Limits) (tpresc scll sclh : Nat) : Prop :=
  k.clkMin ≤ whole c k tpresc scll sclh ∧ whole c k tpresc scll sclh ≤ k.clkMax ∧ c.hsclMin ≤ time k tpresc sclh ∧
    k.ti2cclk < time k tpresc sclh

instance (c : Charac) (k : Limits) (tpresc scll sclh : Nat) : Decidable (HighChecked c k tpresc scll sclh) :=
  inferInstanceAs (Decidable (_ ∧ _ ∧ _ ∧ _))

def clockError (c : Charac) (k : Limits) (tpresc scll sclh : Nat) : Nat :=
  ((whole c k tpresc scll sclh : Int) - k.ti2cspeed).natAbs

def Best.improved (s : Best) (ret error presc : Nat) : Best :=
  {s with ret := ret, prevError := error, prevPresc := presc, timing := ret}

theorem magnitude_bind {T : Type} (value : Int) (low : -2147483648 < value) (high : value < 2147483648)
    (next : Int → Option T) :
    (if value < 0 then (signed (-value)).bind next else (some value).bind next) = next value.natAbs := by
  by_cases negative : value < 0
  · rw [if_pos negative,signed_bind _ (by omega) (by omega),Int.ofNat_natAbs_of_nonpos (by omega)]
  · rw [if_neg negative,Option.bind_some,Int.natAbs_of_nonneg (by omega)]

section Rounds
variable {c : Charac} {k : Limits} {presc scldel sdadel tpresc : Nat}

theorem time_le (small : k.Small) (step : tpresc ≤ 16000) (sclx : Nat) (inside : sclx < 256) :
    time k tpresc sclx ≤ 4353050 := by
  obtain ⟨clock,filter,_⟩ := small
  have rounds : (sclx + 1) * tpresc ≤ 256 * 16000 := Nat.mul_le_mul (by omega) step
  rw [time,analogFilterDelayMin]
  omega

theorem tsclx_eq (small : k.Small) (step : tpresc ≤ 16000) (sclx : Nat) (inside : sclx < 256) :
    tsclx k tpresc sclx = some (time k tpresc sclx) := by
  obtain ⟨clock,filter,_⟩ := small
  have rounds : (sclx + 1) * tpresc ≤ 256 * 16000 := Nat.mul_le_mul (by omega) step
  simp only [tsclx,Option.bind_eq_bind,analogFilterDelayMin]
  rw [add_bind _ _ (by omega),mul_bind _ _ (by omega),add_bind _ _ (by omega),add_bind _ _ (by omega),
    mul_bind _ _ (by omega),add_eq _ _ (by omega)]
  rfl

theorem sclhRound_eq (fits : c.Fits) (small : k.Small) (step : tpresc ≤ 16000) (presc_lt : presc < 16)
    (scldel_lt : scldel < 16) (sdadel_lt : sdadel < 16) (scll sclh : Nat) (scll_lt : scll < 256) (sclh_lt : sclh < 256)
    (s : Best) : sclhRound c k presc scldel sdadel tpresc scll (time k tpresc scll) sclh s =
      some (if HighChecked c k tpresc scll sclh ∧ clockError c k tpresc scll sclh < s.prevError then
        s.improved (register presc scldel sdadel sclh scll) (clockError c k tpresc scll sclh) presc else s) := by
  have low := time_le small step scll scll_lt
  have high := time_le small step sclh sclh_lt
  have rise := fits.trise
  have fall := fits.tfall
  have speed := small.speed
  have total : whole c k tpresc scll sclh < 9000000 := by
    rw [whole]
    omega
  simp only [sclhRound,Option.bind_eq_bind]
  rw [tsclx_eq small step sclh sclh_lt,Option.bind_some,add_bind _ _ (by omega),add_bind _ _ (by omega),
    add_bind _ _ (by omega)]
  rw [show time k tpresc scll + time k tpresc sclh + c.trise + c.tfall = whole c k tpresc scll sclh from rfl]
  have packs := packed_eq presc scldel sdadel sclh scll presc_lt scldel_lt sdadel_lt sclh_lt scll_lt
  by_cases checked : HighChecked c k tpresc scll sclh
  · have tested := checked
    rw [HighChecked] at tested
    rw [if_pos tested,signed_bind _ (by omega) (by omega),signed_bind _ (by omega) (by omega),
      signed_bind _ (by omega) (by omega)]
    rw [magnitude_bind _ (by omega) (by omega)]
    rw [Int.toNat_natCast]
    by_cases better : clockError c k tpresc scll sclh < s.prevError
    · have both : HighChecked c k tpresc scll sclh ∧ clockError c k tpresc scll sclh < s.prevError := ⟨checked,better⟩
      rw [if_pos both]
      rw [clockError] at better ⊢
      rw [if_pos better,packs]
      rfl
    · have never : ¬ (HighChecked c k tpresc scll sclh ∧ clockError c k tpresc scll sclh < s.prevError) :=
        fun both => better both.2
      rw [if_neg never]
      rw [clockError] at better
      rw [if_neg better]
      rfl
  · have fails := checked
    rw [HighChecked] at fails
    rw [if_neg fails,if_neg fun both => checked both.1]
    rfl

/-- What the loop over the low times tests. -/
def LowChecked (c : Charac) (k : Limits) (tpresc scll : Nat) : Prop :=
  c.lsclMin < time k tpresc scll ∧ k.ti2cclk < (time k tpresc scll - analogFilterDelayMin - k.dnfDelay) / 4

instance (c : Charac) (k : Limits) (tpresc scll : Nat) : Decidable (LowChecked c k tpresc scll) :=
  inferInstanceAs (Decidable (_ ∧ _))

theorem scllRound_eq (small : k.Small) (step : tpresc ≤ 16000) (scll : Nat) (inside : scll < 256) (s : Best) :
    scllRound c k presc scldel sdadel tpresc scll s =
      if LowChecked c k tpresc scll then
        each sclhMax (sclhRound c k presc scldel sdadel tpresc scll (time k tpresc scll)) s
      else some s := by
  simp only [scllRound,Option.bind_eq_bind]
  rw [tsclx_eq small step scll inside,Option.bind_some]
  by_cases long : c.lsclMin < time k tpresc scll
  · have above : analogFilterDelayMin + k.dnfDelay ≤ time k tpresc scll := by
      rw [time]
      omega
    rw [if_pos long,sub_eq _ _ (by omega),Option.bind_some,sub_eq _ _ (by omega),Option.bind_some]
    by_cases slow : k.ti2cclk < (time k tpresc scll - analogFilterDelayMin - k.dnfDelay) / 4
    · rw [if_pos slow,if_pos (show LowChecked c k tpresc scll from ⟨long,slow⟩)]
    · rw [if_neg slow,if_neg fun both : LowChecked c k tpresc scll => slow both.2]
      rfl
  · rw [if_neg long,if_neg fun both : LowChecked c k tpresc scll => long both.1]
    rfl

theorem sdadelRound_eq (small : k.Small) (sdadel : Nat) (presc_lt : presc < prescMax) (sdadel_lt : sdadel < sdadelMax)
    (s : Best) (counted : s.validTimingNbr < 4294967295) : sdadelRound c k presc scldel sdadel s =
      if k.tsdadelMin ≤ sdadel * (presc + 1) * k.ti2cclk ∧ sdadel * (presc + 1) * k.ti2cclk ≤ k.tsdadelMax ∧
          presc ≠ s.prevPresc then
        if validTimingNbr ≤ s.validTimingNbr + 1 then some (.stop {s with validTimingNbr := s.validTimingNbr + 1})
        else (each scllMax (scllRound c k presc scldel sdadel ((presc + 1) * k.ti2cclk))
          {s with validTimingNbr := s.validTimingNbr + 1}).map Flow.next
      else some (.next s) := by
  have step : (presc + 1) * k.ti2cclk ≤ 16000 := Nat.mul_le_mul presc_lt small.clock
  have product : sdadel * (presc + 1) ≤ 16 * 16 := Nat.mul_le_mul (Nat.le_of_lt sdadel_lt) presc_lt
  have delay : sdadel * (presc + 1) * k.ti2cclk ≤ 256 * 1000 := Nat.mul_le_mul product small.clock
  have inside : presc < 16 := presc_lt
  simp only [sdadelRound,Option.bind_eq_bind]
  rw [add_bind _ _ (by omega),mul_bind _ _ (by omega),mul_bind _ _ (by omega),add_bind _ _ (by omega),
    add_bind _ _ (by omega),mul_bind _ _ (by omega)]
  split
  · split
    · rfl
    · rw [Option.map_eq_bind]
      rfl
  · rfl

theorem scldelRound_eq (small : k.Small) (scldel : Nat) (presc_lt : presc < prescMax) (scldel_lt : scldel < scldelMax)
    (s : Best) : scldelRound c k presc scldel s =
      if k.tscldelMin ≤ (scldel + 1) * (presc + 1) * k.ti2cclk then loop sdadelMax (sdadelRound c k presc scldel) s
      else some (.next s) := by
  have product : (scldel + 1) * (presc + 1) ≤ 16 * 16 := Nat.mul_le_mul scldel_lt presc_lt
  have delay : (scldel + 1) * (presc + 1) * k.ti2cclk ≤ 256 * 1000 := Nat.mul_le_mul product small.clock
  have sizes : scldel < 16 ∧ presc < 16 := ⟨scldel_lt,presc_lt⟩
  simp only [scldelRound,Option.bind_eq_bind]
  rw [add_bind _ _ (by omega),add_bind _ _ (by omega),mul_bind _ _ (by omega),mul_bind _ _ (by omega)]
  rfl

end Rounds

/-- The indices of the five loops. -/
structure Setting where
  presc : Nat
  scldel : Nat
  sdadel : Nat
  sclh : Nat
  scll : Nat

def Setting.register (f : Setting) : Nat := Timing.register f.presc f.scldel f.sdadel f.sclh f.scll

/-- The outer loops reach these indices, and their tests let them through. -/
structure Entered (k : Limits) (presc scldel sdadel : Nat) : Prop where
  presc_lt : presc < prescMax
  scldel_lt : scldel < scldelMax
  sdadel_lt : sdadel < sdadelMax
  setup : k.tscldelMin ≤ (scldel + 1) * (presc + 1) * k.ti2cclk
  held : k.tsdadelMin ≤ sdadel * (presc + 1) * k.ti2cclk
  free : sdadel * (presc + 1) * k.ti2cclk ≤ k.tsdadelMax

/-- A setting that all the tests of the loops let through. -/
structure Accepted (c : Charac) (k : Limits) (f : Setting) : Prop where
  entered : Entered k f.presc f.scldel f.sdadel
  sclh : f.sclh < sclhMax
  scll : f.scll < scllMax
  low : LowChecked c k ((f.presc + 1) * k.ti2cclk) f.scll
  high : HighChecked c k ((f.presc + 1) * k.ti2cclk) f.scll f.sclh

/-- The result so far is none, or an accepted setting. -/
def Found (c : Charac) (k : Limits) (s : Best) : Prop :=
  s.ret = 4294967295 ∨ ∃ f, Accepted c k f ∧ s.ret = f.register

def Searching (c : Charac) (k : Limits) (s : Best) : Prop := Found c k s ∧ s.validTimingNbr < validTimingNbr

section Search
variable {c : Charac} {k : Limits} {presc scldel sdadel : Nat}

theorem tPresc_le (small : k.Small) (inside : presc < prescMax) : (presc + 1) * k.ti2cclk ≤ 16000 :=
  Nat.mul_le_mul inside small.clock

theorem sclh_search (fits : c.Fits) (small : k.Small) (entered : Entered k presc scldel sdadel) (scll : Nat)
    (scll_lt : scll < scllMax) (low : LowChecked c k ((presc + 1) * k.ti2cclk) scll) (s : Best)
    (searching : Searching c k s) :
    ∃ after, each sclhMax (sclhRound c k presc scldel sdadel ((presc + 1) * k.ti2cclk) scll
      (time k ((presc + 1) * k.ti2cclk) scll)) s = some after ∧ Searching c k after := by
  apply each_rule fun _ => Searching c k
  · intro sclh t sclh_lt ⟨found,counted⟩
    rw [sclhRound_eq fits small (tPresc_le small entered.presc_lt) entered.presc_lt entered.scldel_lt entered.sdadel_lt scll
      sclh scll_lt sclh_lt t]
    refine ⟨_,rfl,?_⟩
    split
    · rename_i better
      exact ⟨Or.inr ⟨⟨presc,scldel,sdadel,sclh,scll⟩,⟨entered,sclh_lt,scll_lt,low,better.1⟩,rfl⟩,counted⟩
    · exact ⟨found,counted⟩
  · exact searching

theorem scll_search (fits : c.Fits) (small : k.Small) (entered : Entered k presc scldel sdadel) (s : Best)
    (searching : Searching c k s) :
    ∃ after, each scllMax (scllRound c k presc scldel sdadel ((presc + 1) * k.ti2cclk)) s = some after ∧
      Searching c k after := by
  apply each_rule fun _ => Searching c k
  · intro scll t scll_lt searching
    rw [scllRound_eq small (tPresc_le small entered.presc_lt) scll scll_lt t]
    split
    · rename_i low
      exact sclh_search fits small entered scll scll_lt low t searching
    · exact ⟨t,rfl,searching⟩
  · exact searching

theorem sdadelRound_search (fits : c.Fits) (small : k.Small) (s : Best) (presc_lt : presc < prescMax)
    (scldel_lt : scldel < scldelMax) (sdadel_lt : sdadel < sdadelMax)
    (setup : k.tscldelMin ≤ (scldel + 1) * (presc + 1) * k.ti2cclk) (searching : Searching c k s) :
    ∃ flow, sdadelRound c k presc scldel sdadel s = some flow ∧ flow.Holds (Searching c k) (Found c k) := by
  obtain ⟨found,counted⟩ := id searching
  rw [sdadelRound_eq small sdadel presc_lt sdadel_lt s (Nat.lt_trans counted (by decide))]
  split
  · rename_i tested
    split
    · exact ⟨_,rfl,found⟩
    · rename_i few
      have entered : Entered k presc scldel sdadel := ⟨presc_lt,scldel_lt,sdadel_lt,setup,tested.1,tested.2.1⟩
      obtain ⟨after,ran,searching⟩ := scll_search fits small entered {s with validTimingNbr := s.validTimingNbr + 1}
        ⟨found,Nat.not_le.mp few⟩
      exact ⟨.next after,by rw [ran]; rfl,searching⟩
  · exact ⟨_,rfl,searching⟩

theorem scldelRound_search (fits : c.Fits) (small : k.Small) (s : Best) (presc_lt : presc < prescMax)
    (scldel_lt : scldel < scldelMax) (searching : Searching c k s) :
    ∃ flow, scldelRound c k presc scldel s = some flow ∧ flow.Holds (Searching c k) (Found c k) := by
  rw [scldelRound_eq small scldel presc_lt scldel_lt s]
  split
  · rename_i setup
    apply loop_rule (fun _ => Searching c k)
    · intro sdadel t sdadel_lt searching
      exact sdadelRound_search fits small t presc_lt scldel_lt sdadel_lt setup searching
    · exact searching
  · exact ⟨_,rfl,searching⟩

theorem search (fits : c.Fits) (small : k.Small) (s : Best) (searching : Searching c k s) :
    ∃ flow, loop prescMax (prescRound c k) s = some flow ∧ Found c k flow.state := by
  have runs : ∃ flow, loop prescMax (prescRound c k) s = some flow ∧ flow.Holds (Searching c k) (Found c k) := by
    apply loop_rule (fun _ => Searching c k)
    · intro presc t presc_lt searching
      apply loop_rule (fun _ => Searching c k)
      · intro scldel u scldel_lt searching
        exact scldelRound_search fits small u presc_lt scldel_lt searching
      · exact searching
    · exact searching
  obtain ⟨flow,ran,holds⟩ := runs
  refine ⟨flow,ran,?_⟩
  cases flow with
  | next after => exact holds.1
  | stop after => exact holds

end Search

def decoded (ret : Nat) : Setting where
  presc := ret >>> 28
  scldel := (ret >>> 20) &&& 15
  sdadel := (ret >>> 16) &&& 15
  sclh := (ret >>> 8) &&& 255
  scll := ret &&& 255

theorem decoded_register (f : Setting) (scldel : f.scldel < 16) (sdadel : f.sdadel < 16) (sclh : f.sclh < 256)
    (scll : f.scll < 256) : decoded f.register = f := by
  obtain ⟨a,b,d,h,l⟩ := f
  have four : ∀ field, field &&& 15 = field % 16 := fun field => Nat.and_two_pow_sub_one_eq_mod field 4
  have eight : ∀ field, field &&& 255 = field % 256 := fun field => Nat.and_two_pow_sub_one_eq_mod field 8
  simp only [decoded,Setting.register,register,four,eight,Nat.shiftRight_eq_div_pow]
  simp only at scldel sdadel sclh scll
  rw [Setting.mk.injEq]
  refine ⟨?_,?_,?_,?_,?_⟩ <;> omega

section Constraints
variable (c : Charac) (t : Nat) (f : Setting)

def tPresc : Nat := (f.presc + 1) * t

def tFilters : Nat := analogFilterDelayMin + c.dnf * t

def tClock (sclx : Nat) : Nat := tFilters c t + 2 * t + (sclx + 1) * tPresc t f

/-- `tSCL = tf + tLOW + tr + tHIGH` -/
def tScl : Nat := c.tfall + tClock c t f f.scll + c.trise + tClock c t f f.sclh

/-- What the comments of the function ask of a setting, for the period `t` of the source clock. The bounds of the hold time
are not below 0. -/
structure Meets : Prop where
  setup : c.trise + c.sudatMin ≤ (f.scldel + 1) * tPresc t f
  held : max 0 ((c.tfall : Int) + c.hddatMin - analogFilterDelayMin - (c.dnf + 3) * t) ≤ f.sdadel * tPresc t f
  free : (f.sdadel * tPresc t f : Int) ≤ max 0 ((c.vddatMax : Int) - c.trise - analogFilterDelayMax - (c.dnf + 4) * t)
  low : c.lsclMin < tClock c t f f.scll
  high : c.hsclMin ≤ tClock c t f f.sclh
  slow : 4 * t < tClock c t f f.scll - tFilters c t
  fast : t < tClock c t f f.sclh
  longest : tScl c t f * c.freqMin ≤ sec2nsec
  shortest : sec2nsec ≤ tScl c t f * c.freqMax

end Constraints

theorem Accepted.meets {c : Charac} {clkSrcFreq : Nat} {f : Setting} (fits : c.Fits)
    (accepted : Accepted c (limitsOf c clkSrcFreq) f) : Meets c (period clkSrcFreq) f := by
  obtain ⟨⟨_,_,_,setup,held,free⟩,_,_,⟨long,slow⟩,_,within,high,fast⟩ := accepted
  obtain ⟨t,t_eq⟩ : ∃ t, t = period clkSrcFreq := ⟨_,rfl⟩
  have filters : (limitsOf c clkSrcFreq).dnfDelay = c.dnf * t := by rw [t_eq]; rfl
  have clock : (limitsOf c clkSrcFreq).ti2cclk = t := t_eq.symm
  have times : ∀ sclx, time (limitsOf c clkSrcFreq) ((f.presc + 1) * t) sclx = tClock c t f sclx := by
    intro sclx
    rw [time,clock,filters]
    rfl
  have product : ∀ a, a * (f.presc + 1) * t = a * tPresc t f := fun a => Nat.mul_assoc a (f.presc + 1) t
  have sum : whole c (limitsOf c clkSrcFreq) ((f.presc + 1) * t) f.scll f.sclh = tScl c t f := by
    rw [whole,times,times,tScl]
    omega
  rw [clock,times] at long
  rw [clock,times,filters] at slow
  rw [clock,times] at high fast
  rw [clock,sum] at within
  rw [clock,product] at setup held free
  rw [← t_eq]
  have three : ((c.dnf : Int) + 3) * (t : Int) = ((c.dnf + 3) * t : Nat) := by
    rw [Int.natCast_mul]
    rfl
  have four : ((c.dnf : Int) + 4) * (t : Int) = ((c.dnf + 4) * t : Nat) := by
    rw [Int.natCast_mul]
    rfl
  simp only [limitsOf,← t_eq] at setup held free within
  have delay : ((f.sdadel * tPresc t f : Nat) : Int) = f.sdadel * tPresc t f := Int.natCast_mul _ _
  refine ⟨setup,?_,?_,long,high,?_,fast,?_,?_⟩
  · rw [three,← delay]
    omega
  · rw [four,← delay]
    omega
  · rw [tFilters]
    omega
  · exact (Nat.le_div_iff_mul_le fits.freqMin).mp within
  · calc sec2nsec ≤ (c.lsclMin + c.hsclMin + c.trise + c.tfall) * c.freqMax := fits.period
      _ ≤ tScl c t f * c.freqMax := by
        apply Nat.mul_le_mul_right
        rw [tScl]
        omega

theorem computeTiming_sound (clkSrcFreq i2c_speed : UInt32) (low : 1000000 ≤ clkSrcFreq.toNat)
    (high : clkSrcFreq.toNat ≤ 1000000000) :
    ∃ ret cache, computeTiming emptyCache clkSrcFreq.toNat i2c_speed.toNat = some (ret,cache) ∧
      (ret ≠ 4294967295 → ∃ c, i2cCharac[i2c_speed.toNat]? = some c ∧ Meets c (period clkSrcFreq.toNat) (decoded ret)) := by
  cases entry : i2cCharac[i2c_speed.toNat]? with
  | none => exact ⟨4294967295,emptyCache,by simp [computeTiming,entry],fun different => absurd rfl different⟩
  | some c =>
    have fits := i2cCharac_fits c (List.mem_of_getElem? entry)
    obtain ⟨flow,ran,found⟩ := search fits (limitsOf_small c clkSrcFreq.toNat fits low)
      ⟨4294967295,(limitsOf c clkSrcFreq.toNat).ti2cspeed,prescMax,0,0⟩ ⟨Or.inl rfl,Nat.succ_pos 7⟩
    refine ⟨flow.state.ret,_,by simp [computeTiming,entry,emptyCache,limits_eq c _ fits low (Nat.lt_of_le_of_lt high (by decide)),ran]; rfl,?_⟩
    intro different
    rcases found with none_ | ⟨f,accepted,ret⟩
    · exact absurd none_ different
    · rw [ret,decoded_register f accepted.entered.scldel_lt accepted.entered.sdadel_lt accepted.sclh accepted.scll]
      exact ⟨c,rfl,accepted.meets fits⟩

theorem computeTiming_sound_sixteen :
    ∃ ret cache, computeTiming emptyCache 16000000 0 = some (ret,cache) ∧
      (ret ≠ 4294967295 → ∃ c, i2cCharac[0]? = some c ∧ Meets c (period 16000000) (decoded ret)) :=
  computeTiming_sound 16000000 0 (by decide) (by decide)

end OpenPlc.Wire.Timing
