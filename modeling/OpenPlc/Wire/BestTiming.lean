import Mathlib.Algebra.GroupWithZero.Nat
import OpenPlc.Wire.Timing

/-! Which of the timings that `i2c_computeTiming` accepts it returns. The search is a walk over the prescalers, of which
only the number of delays that they allow and their least clock error matter. -/
namespace OpenPlc.Wire.Timing
open Loops

section Grid
variable (c : Charac) (k : Limits) (tpresc : Nat)

/-- The least field for the low time that is long enough. -/
def firstLow : Nat :=
  max ((c.lsclMin - analogFilterDelayMin - k.dnfDelay - 2 * k.ti2cclk) / tpresc) ((2 * k.ti2cclk + 3) / tpresc)

def firstHigh : Nat := (c.hsclMin - analogFilterDelayMin - k.dnfDelay - 2 * k.ti2cclk - 1) / tpresc

/-- The period of the clock without its multiple of `tpresc`. -/
def base : Nat := 2 * (analogFilterDelayMin + k.dnfDelay + 2 * k.ti2cclk) + c.trise + c.tfall

def fewest : Nat := firstLow c k tpresc + firstHigh c k tpresc + 2

def most : Nat := min 512 ((k.clkMax - base c k) / tpresc)

/-- How far `n` multiples of `tpresc` are from the wanted clock. -/
def miss (n : Nat) : Nat := (base c k + n * tpresc - k.ti2cspeed) + (k.ti2cspeed - (base c k + n * tpresc))

def within (n : Nat) : Nat := max (fewest c k tpresc) (min (most c k tpresc) n)

/-- The least clock error that a prescaler allows: that of the last multiple below the wanted clock, or of the next one. -/
def least : Option Nat :=
  if firstLow c k tpresc < 256 ∧ firstHigh c k tpresc < 256 ∧ fewest c k tpresc ≤ most c k tpresc then
    some (min (miss c k tpresc (within c k tpresc ((k.ti2cspeed - base c k) / tpresc)))
      (miss c k tpresc (within c k tpresc ((k.ti2cspeed - base c k) / tpresc + 1))))
  else none

end Grid

section Least
variable {c : Charac} {k : Limits} {tpresc : Nat}

theorem quotient_le (positive : 0 < tpresc) (value n : Nat) : value / tpresc ≤ n ↔ value < (n + 1) * tpresc := by
  rw [← Nat.lt_succ_iff,Nat.div_lt_iff_lt_mul positive]

theorem lowChecked_iff (positive : 0 < tpresc) (scll : Nat) :
    LowChecked c k tpresc scll ↔ firstLow c k tpresc ≤ scll := by
  have some_ : 0 < (scll + 1) * tpresc := Nat.mul_pos (Nat.succ_pos scll) positive
  rw [firstLow,Nat.max_le,quotient_le positive,quotient_le positive,LowChecked,time]
  omega

theorem highChecked_iff (positive : 0 < tpresc) (bound : k.clkMin ≤ c.lsclMin + c.hsclMin + c.trise + c.tfall) (scll sclh : Nat)
    (low : LowChecked c k tpresc scll) : HighChecked c k tpresc scll sclh ↔
      firstHigh c k tpresc ≤ sclh ∧ base c k + (scll + sclh + 2) * tpresc ≤ k.clkMax := by
  have some_ : 0 < (sclh + 1) * tpresc := Nat.mul_pos (Nat.succ_pos sclh) positive
  have sum : (scll + sclh + 2) * tpresc = (scll + 1) * tpresc + (sclh + 1) * tpresc := by
    rw [← Nat.add_mul]
    congr 1
    omega
  rw [LowChecked,time] at low
  rw [firstHigh,quotient_le positive,HighChecked,whole,time,time,base,sum,analogFilterDelayMin]
  rw [analogFilterDelayMin] at low
  omega

theorem clockError_eq (scll sclh : Nat) : clockError c k tpresc scll sclh = miss c k tpresc (scll + sclh + 2) := by
  have sum : (scll + sclh + 2) * tpresc = (scll + 1) * tpresc + (sclh + 1) * tpresc := by
    rw [← Nat.add_mul]
    congr 1
    omega
  rw [clockError,miss,whole,time,time,base,sum]
  omega

theorem most_iff (positive : 0 < tpresc) (n : Nat) (some_ : 0 < n) (few : n ≤ 512) :
    base c k + n * tpresc ≤ k.clkMax ↔ n ≤ most c k tpresc := by
  have product : 0 < n * tpresc := Nat.mul_pos some_ positive
  rw [most,Nat.le_min,Nat.le_div_iff_mul_le positive]
  omega

theorem miss_within (positive : 0 < tpresc) (n : Nat) (low : fewest c k tpresc ≤ n) (high : n ≤ most c k tpresc) :
    miss c k tpresc (within c k tpresc ((k.ti2cspeed - base c k) / tpresc)) ≤ miss c k tpresc n ∨
      miss c k tpresc (within c k tpresc ((k.ti2cspeed - base c k) / tpresc + 1)) ≤ miss c k tpresc n := by
  obtain ⟨last,last_eq⟩ : ∃ last, last = (k.ti2cspeed - base c k) / tpresc := ⟨_,rfl⟩
  have below : last * tpresc ≤ k.ti2cspeed - base c k := last_eq ▸ Nat.div_mul_le_self _ _
  have above : k.ti2cspeed - base c k < (last + 1) * tpresc := by
    rw [← Nat.div_lt_iff_lt_mul positive,last_eq]
    exact Nat.lt_succ_self _
  rw [← last_eq]
  by_cases before : n ≤ last
  · left
    have ahead : n ≤ within c k tpresc last := by
      rw [within]
      omega
    have reached : within c k tpresc last ≤ last := by
      rw [within]
      omega
    have first := Nat.mul_le_mul_right tpresc ahead
    have second := Nat.mul_le_mul_right tpresc reached
    have some_ : 0 < n * tpresc := by
      apply Nat.mul_pos _ positive
      rw [fewest] at low
      omega
    rw [miss,miss]
    omega
  · right
    have behind : within c k tpresc (last + 1) ≤ n := by
      rw [within]
      omega
    have passed : last + 1 ≤ within c k tpresc (last + 1) := by
      rw [within]
      omega
    have first := Nat.mul_le_mul_right tpresc behind
    have second := Nat.mul_le_mul_right tpresc passed
    rw [miss,miss]
    omega

theorem least_le (positive : 0 < tpresc) (bound : k.clkMin ≤ c.lsclMin + c.hsclMin + c.trise + c.tfall) (scll sclh : Nat)
    (scll_lt : scll < 256) (sclh_lt : sclh < 256) (low : LowChecked c k tpresc scll)
    (high : HighChecked c k tpresc scll sclh) :
    ∃ error, least c k tpresc = some error ∧ error ≤ clockError c k tpresc scll sclh := by
  obtain ⟨longer,shorter⟩ := (highChecked_iff positive bound scll sclh low).mp high
  have first := (lowChecked_iff positive scll).mp low
  have reached : fewest c k tpresc ≤ scll + sclh + 2 := by
    rw [fewest]
    omega
  have last := (most_iff positive (scll + sclh + 2) (by omega) (by omega)).mp shorter
  have nearest := miss_within positive (scll + sclh + 2) reached last
  refine ⟨_,if_pos ⟨by omega,by omega,by omega⟩,?_⟩
  rw [clockError_eq]
  omega

theorem least_attained (positive : 0 < tpresc) (bound : k.clkMin ≤ c.lsclMin + c.hsclMin + c.trise + c.tfall) (error : Nat)
    (least_ : least c k tpresc = some error) :
    ∃ scll sclh, scll < 256 ∧ sclh < 256 ∧ LowChecked c k tpresc scll ∧ HighChecked c k tpresc scll sclh ∧
      clockError c k tpresc scll sclh = error := by
  have reached (n : Nat) (low : firstLow c k tpresc < 256) (high : firstHigh c k tpresc < 256)
      (first : fewest c k tpresc ≤ n) (last : n ≤ most c k tpresc) :
      ∃ scll sclh, scll < 256 ∧ sclh < 256 ∧ LowChecked c k tpresc scll ∧ HighChecked c k tpresc scll sclh ∧
        clockError c k tpresc scll sclh = miss c k tpresc n := by
    have few : n ≤ 512 := Nat.le_trans last (Nat.min_le_left ..)
    rw [fewest] at first
    obtain ⟨scll,sclh,sum,scll_lt,sclh_lt,scll_le,sclh_le⟩ : ∃ scll sclh, scll + sclh + 2 = n ∧ scll < 256 ∧ sclh < 256 ∧
        firstLow c k tpresc ≤ scll ∧ firstHigh c k tpresc ≤ sclh :=
      ⟨max (firstLow c k tpresc) (n - 257),n - 2 - max (firstLow c k tpresc) (n - 257),by omega,by omega,by omega,by omega,
        by omega⟩
    have checked := (lowChecked_iff positive scll).mpr scll_le
    refine ⟨scll,sclh,scll_lt,sclh_lt,checked,?_,by rw [clockError_eq,sum]⟩
    rw [highChecked_iff positive bound scll sclh checked,sum]
    exact ⟨sclh_le,(most_iff positive n (by omega) few).mpr last⟩
  rw [least] at least_
  split at least_
  · rename_i some_
    obtain ⟨low,high,inside⟩ := some_
    have placed (n : Nat) : fewest c k tpresc ≤ within c k tpresc n ∧ within c k tpresc n ≤ most c k tpresc := by
      rw [within]
      omega
    rw [Option.some.injEq] at least_
    rw [Nat.min_def] at least_
    split at least_
    · exact least_ ▸ reached _ low high (placed _).1 (placed _).2
    · exact least_ ▸ reached _ low high (placed _).1 (placed _).2
  · exact absurd least_.symm (Option.some_ne_none _)

end Least

/-- What of the search depends on the prescaler alone. -/
structure Progress where
  error : Nat
  presc : Nat
  nbr : Nat

def Progress.look (a : Progress) (presc : Nat) : Option Nat → Progress
  | some error => if error < a.error then {a with error := error, presc := presc} else a
  | none => a

/-- The delays of a prescaler are tried one after the other, until one of them has lowered the error. -/
def tries (best : Option Nat) (presc : Nat) : Nat → Progress → Flow Progress
  | 0,a => .next a
  | delays + 1,a =>
    if a.presc = presc then .next a
    else if validTimingNbr ≤ a.nbr + 1 then .stop {a with nbr := a.nbr + 1}
    else tries best presc delays ({a with nbr := a.nbr + 1}.look presc best)

/-- How many setup delays are long enough. -/
def setups (k : Limits) (presc : Nat) : Nat := scldelMax - (k.tscldelMin - 1) / ((presc + 1) * k.ti2cclk)

/-- How many hold delays are within their bounds. -/
def holds (k : Limits) (presc : Nat) : Nat :=
  min sdadelMax (k.tsdadelMax / ((presc + 1) * k.ti2cclk) + 1) -
    (k.tsdadelMin + (presc + 1) * k.ti2cclk - 1) / ((presc + 1) * k.ti2cclk)

def delays (k : Limits) (presc : Nat) : Nat := if k.ti2cclk = 0 then 0 else setups k presc * holds k presc

def bestOf (c : Charac) (k : Limits) (presc : Nat) : Option Nat := least c k ((presc + 1) * k.ti2cclk)

/-- The walk over the prescalers. -/
def walk (c : Charac) (k : Limits) (a : Progress) : Option (Flow Progress) :=
  loop prescMax (fun presc a => some (tries (bestOf c k presc) presc (delays k presc) a)) a

section Tries
variable {best : Option Nat} {presc : Nat}

theorem tries_done (count : Nat) (a : Progress) (done : a.presc = presc) : tries best presc count a = .next a := by
  cases count with
  | zero => rfl
  | succ count => rw [tries,if_pos done]

theorem tries_add (first second : Nat) (a : Progress) : tries best presc (first + second) a =
    match tries best presc first a with
    | .next a => tries best presc second a
    | .stop a => .stop a := by
  induction first generalizing a with
  | zero => rw [Nat.zero_add]; rfl
  | succ first ih =>
    rw [Nat.succ_add,tries,tries]
    split
    · rename_i done
      exact (tries_done second a done).symm
    · split
      · rfl
      · exact ih _

theorem loopFrom_tries (weight : Nat → Nat) (rounds i : Nat) (a : Progress) :
    loopFrom (fun i a => some (tries best presc (weight i) a)) i rounds a =
      some (tries best presc ((List.range' i rounds).map weight).sum a) := by
  induction rounds generalizing i a with
  | zero => rfl
  | succ rounds ih =>
    rw [loopFrom,List.range'_succ,List.map_cons,List.sum_cons,tries_add]
    cases first : tries best presc (weight i) a with
    | next a =>
      simp only [Option.bind_eq_bind,Option.bind_some]
      exact ih (i + 1) a
    | stop a => simp

theorem loop_tries (weight : Nat → Nat) (n : Nat) (a : Progress) :
    loop n (fun i a => some (tries best presc (weight i) a)) a =
      some (tries best presc ((List.range n).map weight).sum a) := by
  rw [loop,loopFrom_tries,List.range_eq_range']

theorem sum_between (first last value n : Nat) :
    ((List.range n).map fun i => if first ≤ i ∧ i < last then value else 0).sum = (min n last - first) * value := by
  induction n with
  | zero => simp
  | succ n ih =>
    rw [List.range_succ,List.map_append,List.sum_append,ih,List.map_singleton,List.sum_singleton]
    split
    · rw [show min (n + 1) last - first = min n last - first + 1 by omega,Nat.succ_mul]
    · rw [show min (n + 1) last - first = min n last - first by omega,Nat.add_zero]

theorem tries_error (count : Nat) (a : Progress) : (tries best presc count a).state.error ≤ a.error := by
  induction count generalizing a with
  | zero => exact Nat.le_refl _
  | succ count ih =>
    rw [tries]
    split
    · exact Nat.le_refl _
    · split
      · exact Nat.le_refl _
      · refine Nat.le_trans (ih _) ?_
        unfold Progress.look
        split
        · split
          · rename_i lower
            exact Nat.le_of_lt lower
          · exact Nat.le_refl _
        · exact Nat.le_refl _

theorem tries_least (count : Nat) (a : Progress) (error : Nat) (some_ : count ≠ 0) (other : a.presc ≠ presc)
    (few : a.nbr + 1 < validTimingNbr) (best_ : best = some error) : (tries best presc count a).state.error ≤ error := by
  obtain ⟨count,rfl⟩ := Nat.exists_eq_succ_of_ne_zero some_
  rw [tries,if_neg other,if_neg (Nat.not_le.mpr few),best_]
  refine Nat.le_trans (tries_error _ _) ?_
  rw [Progress.look]
  split
  · exact Nat.le_refl _
  · rename_i higher
    exact Nat.not_lt.mp higher

end Tries

section Delays
variable {k : Limits} {presc : Nat}

theorem setup_iff (positive : 0 < k.ti2cclk) (some_ : 0 < k.tscldelMin) (scldel : Nat) :
    k.tscldelMin ≤ (scldel + 1) * (presc + 1) * k.ti2cclk ↔ (k.tscldelMin - 1) / ((presc + 1) * k.ti2cclk) ≤ scldel := by
  have step : 0 < (presc + 1) * k.ti2cclk := Nat.mul_pos (Nat.succ_pos presc) positive
  rw [quotient_le step,Nat.mul_assoc]
  omega

theorem held_iff (positive : 0 < k.ti2cclk) (sdadel : Nat) :
    (k.tsdadelMin ≤ sdadel * (presc + 1) * k.ti2cclk ∧ sdadel * (presc + 1) * k.ti2cclk ≤ k.tsdadelMax) ↔
      ((k.tsdadelMin + (presc + 1) * k.ti2cclk - 1) / ((presc + 1) * k.ti2cclk) ≤ sdadel ∧
        sdadel < k.tsdadelMax / ((presc + 1) * k.ti2cclk) + 1) := by
  have step : 0 < (presc + 1) * k.ti2cclk := Nat.mul_pos (Nat.succ_pos presc) positive
  rw [quotient_le step,Nat.lt_succ_iff,Nat.le_div_iff_mul_le step,Nat.succ_mul sdadel,Nat.mul_assoc]
  omega

theorem held_sum (positive : 0 < k.ti2cclk) :
    ((List.range sdadelMax).map fun sdadel =>
      if k.tsdadelMin ≤ sdadel * (presc + 1) * k.ti2cclk ∧ sdadel * (presc + 1) * k.ti2cclk ≤ k.tsdadelMax then 1
      else 0).sum = holds k presc := by
  simp only [held_iff positive]
  rw [sum_between,Nat.mul_one]
  rfl

theorem setup_sum (some_ : 0 < k.tscldelMin) :
    ((List.range scldelMax).map fun scldel =>
      if k.tscldelMin ≤ (scldel + 1) * (presc + 1) * k.ti2cclk then holds k presc else 0).sum = delays k presc := by
  rw [delays]
  split
  · rename_i stopped
    have never : ∀ scldel, ¬ k.tscldelMin ≤ (scldel + 1) * (presc + 1) * k.ti2cclk := by
      intro scldel
      rw [stopped]
      omega
    simp only [never,if_false]
    rfl
  · rename_i runs
    have counted := sum_between ((k.tscldelMin - 1) / ((presc + 1) * k.ti2cclk)) scldelMax (holds k presc) scldelMax
    rw [Nat.min_self] at counted
    rw [setups,← counted]
    refine congrArg List.sum (List.map_congr_left fun scldel inside => ?_)
    simp only [setup_iff (Nat.pos_of_ne_zero runs) some_,List.mem_range.mp inside,and_true]

end Delays

def Setting.error (c : Charac) (k : Limits) (f : Setting) : Nat := clockError c k ((f.presc + 1) * k.ti2cclk) f.scll f.sclh

section Scan
variable {c : Charac} {k : Limits} {presc scldel sdadel : Nat}

/-- The loops over the two times have gone from `s` to `t`, and the settings of `seen` are behind them. -/
structure Scanned (c : Charac) (k : Limits) (presc scldel sdadel : Nat) (seen : Nat → Nat → Prop) (s t : Best) : Prop where
  least : ∀ scll sclh, seen scll sclh → LowChecked c k ((presc + 1) * k.ti2cclk) scll →
    HighChecked c k ((presc + 1) * k.ti2cclk) scll sclh → t.prevError ≤ clockError c k ((presc + 1) * k.ti2cclk) scll sclh
  picked : t = s ∨ ∃ scll sclh, scll < scllMax ∧ sclh < sclhMax ∧ LowChecked c k ((presc + 1) * k.ti2cclk) scll ∧
    HighChecked c k ((presc + 1) * k.ti2cclk) scll sclh ∧
    clockError c k ((presc + 1) * k.ti2cclk) scll sclh < s.prevError ∧
    t = s.improved (register presc scldel sdadel sclh scll) (clockError c k ((presc + 1) * k.ti2cclk) scll sclh) presc

theorem Scanned.lower {seen : Nat → Nat → Prop} {s t : Best} (scanned : Scanned c k presc scldel sdadel seen s t) :
    t.prevError ≤ s.prevError := by
  rcases scanned.picked with same | ⟨scll,sclh,_,_,_,_,better,picked⟩
  · exact Nat.le_of_eq (congrArg Best.prevError same)
  · rw [picked]
    exact Nat.le_of_lt better

theorem Scanned.of {seen later : Nat → Nat → Prop} {s t : Best} (scanned : Scanned c k presc scldel sdadel seen s t)
    (all : ∀ scll sclh, later scll sclh → LowChecked c k ((presc + 1) * k.ti2cclk) scll → seen scll sclh) :
    Scanned c k presc scldel sdadel later s t :=
  ⟨fun scll sclh behind low => scanned.least scll sclh (all scll sclh behind low) low,scanned.picked⟩

theorem Scanned.look {seen : Nat → Nat → Prop} {s t : Best} (scanned : Scanned c k presc scldel sdadel seen s t)
    (scll sclh : Nat) (scll_lt : scll < scllMax) (sclh_lt : sclh < sclhMax)
    (low : LowChecked c k ((presc + 1) * k.ti2cclk) scll) :
    Scanned c k presc scldel sdadel (fun l h => seen l h ∨ l = scll ∧ h = sclh) s
      (if HighChecked c k ((presc + 1) * k.ti2cclk) scll sclh ∧
          clockError c k ((presc + 1) * k.ti2cclk) scll sclh < t.prevError then
        t.improved (register presc scldel sdadel sclh scll) (clockError c k ((presc + 1) * k.ti2cclk) scll sclh) presc
      else t) := by
  have lower := scanned.lower
  split
  · rename_i better
    obtain ⟨high,better⟩ := better
    constructor
    · intro l h behind checked tested
      change clockError c k ((presc + 1) * k.ti2cclk) scll sclh ≤ _
      rcases behind with before | ⟨rfl,rfl⟩
      · exact Nat.le_trans (Nat.le_of_lt better) (scanned.least l h before checked tested)
      · exact Nat.le_refl _
    · refine Or.inr ⟨scll,sclh,scll_lt,sclh_lt,low,high,Nat.lt_of_lt_of_le better lower,?_⟩
      rcases scanned.picked with same | ⟨_,_,_,_,_,_,_,picked⟩
      · rw [same]
      · rw [picked]
        rfl
  · rename_i worse
    refine ⟨?_,scanned.picked⟩
    intro l h behind checked tested
    rcases behind with before | ⟨rfl,rfl⟩
    · exact scanned.least l h before checked tested
    · exact Nat.not_lt.mp fun better => worse ⟨tested,better⟩

theorem grid_scanned (fits : c.Fits) (small : k.Small) (entered : Entered k presc scldel sdadel) (s : Best) :
    ∃ after, each scllMax (scllRound c k presc scldel sdadel ((presc + 1) * k.ti2cclk)) s = some after ∧
      Scanned c k presc scldel sdadel (fun l h => l < scllMax ∧ h < sclhMax) s after := by
  have step := tPresc_le small entered.presc_lt
  apply each_rule fun i => Scanned c k presc scldel sdadel (fun l h => l < i ∧ h < sclhMax) s
  · intro scll t scll_lt scanned
    rw [scllRound_eq small step scll scll_lt t]
    split
    · rename_i low
      have row : ∃ after, each sclhMax (sclhRound c k presc scldel sdadel ((presc + 1) * k.ti2cclk) scll
          (time k ((presc + 1) * k.ti2cclk) scll)) t = some after ∧
          Scanned c k presc scldel sdadel (fun l h => l < scll ∧ h < sclhMax ∨ l = scll ∧ h < sclhMax) s after := by
        apply each_rule fun j => Scanned c k presc scldel sdadel (fun l h => l < scll ∧ h < sclhMax ∨ l = scll ∧ h < j) s
        · intro sclh u sclh_lt scanned
          rw [sclhRound_eq fits small step entered.presc_lt entered.scldel_lt entered.sdadel_lt scll sclh scll_lt sclh_lt u]
          refine ⟨_,rfl,(scanned.look scll sclh scll_lt sclh_lt low).of fun l h behind _ => ?_⟩
          omega
        · exact scanned.of fun l h behind _ => by omega
      obtain ⟨after,ran,scanned⟩ := row
      exact ⟨after,ran,scanned.of fun l h behind _ => by omega⟩
    · rename_i short
      refine ⟨t,rfl,scanned.of fun l h behind low => ?_⟩
      by_cases here : l = scll
      · exact absurd (here ▸ low) short
      · exact ⟨by omega,behind.2⟩
  · exact ⟨fun l h behind => absurd behind.1 (Nat.not_lt_zero l),Or.inl rfl⟩

end Scan

/-- What the walk over the prescalers rests on. -/
structure Regular (c : Charac) (k : Limits) : Prop where
  fits : c.Fits
  small : k.Small
  shortest : k.clkMin ≤ c.lsclMin + c.hsclMin + c.trise + c.tfall
  setup : 0 < k.tscldelMin

theorem Regular.clock {c : Charac} {k : Limits} {product : Nat} (regular : Regular c k)
    (setup : k.tscldelMin ≤ product * k.ti2cclk) : 0 < k.ti2cclk := by
  apply Nat.pos_of_ne_zero
  intro stopped
  rw [stopped] at setup
  exact absurd (Nat.lt_of_lt_of_le regular.setup setup) (Nat.lt_irrefl 0)

/-- The search stands where the walk does. An entry `before` of the cache is kept until a setting is found. -/
structure Linked (c : Charac) (k : Limits) (before : Nat) (s : Best) (a : Progress) : Prop where
  error : s.prevError = a.error
  presc : s.prevPresc = a.presc
  nbr : s.validTimingNbr = a.nbr
  found : s.ret = 4294967295 ∧ s.timing = before ∧ s.prevError = k.ti2cspeed ∨
    ∃ f, Accepted c k f ∧ s.ret = f.register ∧ s.timing = f.register ∧ s.prevError = f.error c k

def Walking (c : Charac) (k : Limits) (before : Nat) (s : Best) (a : Progress) : Prop :=
  Linked c k before s a ∧ a.nbr < validTimingNbr

section Walk
variable {c : Charac} {k : Limits} {before presc scldel sdadel : Nat}

theorem Linked.look {s t : Best} {a : Progress} (linked : Linked c k before s a) (regular : Regular c k)
    (entered : Entered k presc scldel sdadel)
    (scanned : Scanned c k presc scldel sdadel (fun l h => l < scllMax ∧ h < sclhMax) s t) :
    Linked c k before t (a.look presc (bestOf c k presc)) := by
  have step : 0 < (presc + 1) * k.ti2cclk := Nat.mul_pos (Nat.succ_pos presc) (regular.clock entered.setup)
  rcases scanned.picked with same | ⟨scll,sclh,scll_lt,sclh_lt,low,high,better,picked⟩
  · have unlooked : a.look presc (bestOf c k presc) = a := by
      cases best : bestOf c k presc with
      | none => rfl
      | some error =>
        obtain ⟨scll,sclh,scll_lt,sclh_lt,low,high,attained⟩ := least_attained step regular.shortest error best
        have lower := scanned.least scll sclh ⟨scll_lt,sclh_lt⟩ low high
        rw [same,linked.error,attained] at lower
        exact if_neg (Nat.not_lt.mpr lower)
    rw [unlooked,same]
    exact linked
  · obtain ⟨error,best,under⟩ := least_le step regular.shortest scll sclh scll_lt sclh_lt low high
    obtain ⟨l,h,l_lt,h_lt,checked,tested,attained⟩ := least_attained step regular.shortest error best
    have lower := scanned.least l h ⟨l_lt,h_lt⟩ checked tested
    rw [attained,picked] at lower
    have exact_ : clockError c k ((presc + 1) * k.ti2cclk) scll sclh = error := Nat.le_antisymm lower under
    rw [exact_,linked.error] at better
    have looked : a.look presc (bestOf c k presc) = {a with error := error, presc := presc} := by
      rw [bestOf,best]
      exact if_pos better
    rw [looked,picked]
    exact ⟨exact_,rfl,linked.nbr,Or.inr ⟨⟨presc,scldel,sdadel,sclh,scll⟩,⟨entered,sclh_lt,scll_lt,low,high⟩,rfl,rfl,rfl⟩⟩

theorem Progress.look_nbr (a : Progress) (best : Option Nat) : (a.look presc best).nbr = a.nbr := by
  unfold Progress.look
  split
  · split
    · rfl
    · rfl
  · rfl

theorem sdadelRound_tries (regular : Regular c k) (presc_lt : presc < prescMax) (scldel_lt : scldel < scldelMax)
    (sdadel_lt : sdadel < sdadelMax) (setup : k.tscldelMin ≤ (scldel + 1) * (presc + 1) * k.ti2cclk) (s : Best)
    (a : Progress) (walking : Walking c k before s a) :
    ∃ flow, sdadelRound c k presc scldel sdadel s = some flow ∧ flow.Match (Walking c k before) (Linked c k before)
      (tries (bestOf c k presc) presc
        (if k.tsdadelMin ≤ sdadel * (presc + 1) * k.ti2cclk ∧ sdadel * (presc + 1) * k.ti2cclk ≤ k.tsdadelMax then 1 else 0)
        a) := by
  obtain ⟨linked,few⟩ := id walking
  rw [sdadelRound_eq regular.small sdadel presc_lt sdadel_lt s (by rw [linked.nbr]; exact Nat.lt_trans few (by decide))]
  by_cases held : k.tsdadelMin ≤ sdadel * (presc + 1) * k.ti2cclk ∧ sdadel * (presc + 1) * k.ti2cclk ≤ k.tsdadelMax
  · rw [if_pos held,tries]
    by_cases done : a.presc = presc
    · rw [if_neg fun all => all.2.2 (linked.presc.trans done).symm,if_pos done]
      exact ⟨_,rfl,walking⟩
    · rw [if_pos ⟨held.1,held.2,fun same => done (linked.presc.symm.trans same.symm)⟩,if_neg done,linked.nbr]
      have counted : Linked c k before {s with validTimingNbr := a.nbr + 1} {a with nbr := a.nbr + 1} :=
        ⟨linked.error,linked.presc,rfl,linked.found⟩
      split
      · exact ⟨_,rfl,counted⟩
      · rename_i more
        have entered : Entered k presc scldel sdadel := ⟨presc_lt,scldel_lt,sdadel_lt,setup,held.1,held.2⟩
        obtain ⟨after,ran,scanned⟩ := grid_scanned regular.fits regular.small entered {s with validTimingNbr := a.nbr + 1}
        refine ⟨.next after,by rw [ran]; rfl,counted.look regular entered scanned,?_⟩
        rw [Progress.look_nbr]
        exact Nat.not_le.mp more
  · rw [if_neg held,if_neg fun all => held ⟨all.1,all.2.1⟩]
    exact ⟨_,rfl,walking⟩

theorem scldelRound_tries (regular : Regular c k) (presc_lt : presc < prescMax) (scldel_lt : scldel < scldelMax) (s : Best)
    (a : Progress) (walking : Walking c k before s a) :
    ∃ flow, scldelRound c k presc scldel s = some flow ∧ flow.Match (Walking c k before) (Linked c k before)
      (tries (bestOf c k presc) presc
        (if k.tscldelMin ≤ (scldel + 1) * (presc + 1) * k.ti2cclk then holds k presc else 0) a) := by
  rw [scldelRound_eq regular.small scldel presc_lt scldel_lt s]
  split
  · rename_i setup
    obtain ⟨flow,model,ran,tried,same⟩ := loop_pair (fun sdadel t b sdadel_lt walking =>
      (sdadelRound_tries regular presc_lt scldel_lt sdadel_lt setup t b walking).imp fun flow both =>
        ⟨_,both.1,rfl,both.2⟩) s a walking
    rw [loop_tries,held_sum (regular.clock setup),Option.some.injEq] at tried
    exact ⟨flow,ran,tried ▸ same⟩
  · exact ⟨_,rfl,walking⟩

theorem search_walks (regular : Regular c k) (s : Best) (a : Progress) (walking : Walking c k before s a) :
    ∃ flow model, loop prescMax (prescRound c k) s = some flow ∧ walk c k a = some model ∧
      flow.Match (Walking c k before) (Linked c k before) model := by
  refine loop_pair (fun presc t b presc_lt walking => ?_) s a walking
  obtain ⟨flow,model,ran,tried,same⟩ := loop_pair (fun scldel u d scldel_lt walking =>
    (scldelRound_tries regular presc_lt scldel_lt u d walking).imp fun flow both => ⟨_,both.1,rfl,both.2⟩) t b walking
  rw [loop_tries,setup_sum regular.setup,Option.some.injEq] at tried
  exact ⟨flow,_,ran,rfl,tried ▸ same⟩

end Walk

/-- The error at which the walk ends. -/
def outcome (c : Charac) (k : Limits) : Nat :=
  ((walk c k ⟨k.ti2cspeed,prescMax,0⟩).map fun flow => flow.state.error).getD 0

def Optimal (c : Charac) (k : Limits) (error : Nat) : Prop :=
  ∀ presc < prescMax, delays k presc ≠ 0 → ∀ best ∈ bestOf c k presc, error ≤ best

instance (c : Charac) (k : Limits) (error : Nat) : Decidable (Optimal c k error) :=
  inferInstanceAs (Decidable (∀ presc < prescMax, delays k presc ≠ 0 → ∀ best ∈ bestOf c k presc, error ≤ best))

section Outcome
variable {c : Charac} {k : Limits}

theorem delays_ne_zero (regular : Regular c k) (presc : Nat) : delays k presc ≠ 0 ↔
    ∃ scldel sdadel, scldel < scldelMax ∧ sdadel < sdadelMax ∧
      k.tscldelMin ≤ (scldel + 1) * (presc + 1) * k.ti2cclk ∧ k.tsdadelMin ≤ sdadel * (presc + 1) * k.ti2cclk ∧
      sdadel * (presc + 1) * k.ti2cclk ≤ k.tsdadelMax := by
  by_cases stopped : k.ti2cclk = 0
  · constructor
    · intro some_
      exact absurd (if_pos stopped) some_
    · rintro ⟨scldel,_,_,_,setup,_⟩
      exact absurd (regular.clock setup) (by omega)
  · have clock := Nat.pos_of_ne_zero stopped
    rw [delays,if_neg stopped,Nat.mul_ne_zero_iff]
    constructor
    · rintro ⟨setup,hold⟩
      rw [setups] at setup
      rw [holds] at hold
      exact ⟨_,_,by omega,by omega,(setup_iff clock regular.setup _).mpr (Nat.le_refl _),
        (held_iff clock _).mpr ⟨Nat.le_refl _,by omega⟩⟩
    · rintro ⟨scldel,sdadel,scldel_lt,sdadel_lt,setup,held⟩
      rw [setup_iff clock regular.setup] at setup
      rw [held_iff clock] at held
      rw [setups,holds]
      omega

theorem Accepted.best {f : Setting} (accepted : Accepted c k f) (regular : Regular c k) :
    delays k f.presc ≠ 0 ∧ ∃ best, bestOf c k f.presc = some best ∧ best ≤ f.error c k := by
  obtain ⟨⟨presc_lt,scldel_lt,sdadel_lt,setup,held,free⟩,sclh_lt,scll_lt,low,high⟩ := accepted
  exact ⟨(delays_ne_zero regular f.presc).mpr ⟨f.scldel,f.sdadel,scldel_lt,sdadel_lt,setup,held,free⟩,
    least_le (Nat.mul_pos (Nat.succ_pos _) (regular.clock setup)) regular.shortest f.scll f.sclh scll_lt sclh_lt low high⟩

theorem best_accepted (regular : Regular c k) (presc best : Nat) (presc_lt : presc < prescMax) (some_ : delays k presc ≠ 0)
    (best_ : bestOf c k presc = some best) : ∃ f, Accepted c k f ∧ f.error c k = best := by
  obtain ⟨scldel,sdadel,scldel_lt,sdadel_lt,setup,held,free⟩ := (delays_ne_zero regular presc).mp some_
  obtain ⟨scll,sclh,scll_lt,sclh_lt,low,high,attained⟩ :=
    least_attained (Nat.mul_pos (Nat.succ_pos _) (regular.clock setup)) regular.shortest best best_
  exact ⟨⟨presc,scldel,sdadel,sclh,scll⟩,
    ⟨⟨presc_lt,scldel_lt,sdadel_lt,setup,held,free⟩,sclh_lt,scll_lt,low,high⟩,attained⟩

theorem optimal_iff (regular : Regular c k) (error : Nat) :
    Optimal c k error ↔ ∀ f, Accepted c k f → error ≤ f.error c k := by
  constructor
  · intro optimal f accepted
    obtain ⟨some_,best,best_,under⟩ := accepted.best regular
    exact Nat.le_trans (optimal f.presc accepted.entered.presc_lt some_ best best_) under
  · intro all presc presc_lt some_ best best_
    obtain ⟨f,accepted,attained⟩ := best_accepted regular presc best presc_lt some_ best_
    exact attained ▸ all f accepted

theorem Accepted.error_lt {f : Setting} (accepted : Accepted c k f) (slow : k.clkMax < 2 * k.ti2cspeed) :
    f.error c k < k.ti2cspeed := by
  obtain ⟨_,within,_,_⟩ := accepted.high
  have some_ : 0 < whole c k ((f.presc + 1) * k.ti2cclk) f.scll f.sclh := by
    rw [whole,time,analogFilterDelayMin]
    omega
  rw [Setting.error,clockError]
  omega

/-- The search finds a setting with the error at which the walk ends. -/
theorem search_outcome (regular : Regular c k) (before : Nat) :
    ∃ flow, loop prescMax (prescRound c k) ⟨4294967295,k.ti2cspeed,prescMax,0,before⟩ = some flow ∧
      flow.state.prevError = outcome c k ∧
      (flow.state.ret = 4294967295 ∧ flow.state.timing = before ∧ outcome c k = k.ti2cspeed ∨
        ∃ f, Accepted c k f ∧ flow.state.ret = f.register ∧ flow.state.timing = f.register ∧ f.error c k = outcome c k) := by
  obtain ⟨flow,model,ran,walked,same⟩ := search_walks regular ⟨4294967295,k.ti2cspeed,prescMax,0,before⟩
    ⟨k.ti2cspeed,prescMax,0⟩ ⟨⟨rfl,rfl,rfl,Or.inl ⟨rfl,rfl,rfl⟩⟩,Nat.succ_pos 7⟩
  have linked := same.state (fun _ _ walking => walking.1) (fun _ _ linked => linked)
  have ends : outcome c k = model.state.error := by
    rw [outcome,walked]
    rfl
  refine ⟨flow,ran,linked.error.trans ends.symm,?_⟩
  rw [ends]
  rcases linked.found with ⟨none_,kept,error⟩ | ⟨f,accepted,ret,timing,error⟩
  · exact Or.inl ⟨none_,kept,linked.error.symm.trans error⟩
  · exact Or.inr ⟨f,accepted,ret,timing,error.symm.trans linked.error⟩

/-- The first prescaler reaches everything that a later one does. -/
structure Coarse (k : Limits) : Prop where
  setup : k.tscldelMin ≤ 16 * k.ti2cclk
  held : k.tsdadelMin = 0
  reach : k.clkMax ≤ 256 * k.ti2cclk

theorem coarse_delays (regular : Regular c k) (coarse : Coarse k) : delays k 0 ≠ 0 := by
  rw [delays_ne_zero regular]
  refine ⟨15,0,by decide,by decide,?_,?_,?_⟩
  · simpa using coarse.setup
  · rw [coarse.held]
    exact Nat.zero_le _
  · simp

theorem coarse_best (regular : Regular c k) (coarse : Coarse k) (f : Setting) (accepted : Accepted c k f) :
    ∃ best, bestOf c k 0 = some best ∧ best ≤ f.error c k := by
  have clock : 0 < k.ti2cclk := regular.clock coarse.setup
  obtain ⟨_,_,_,low,high⟩ := accepted
  -- the times of `f`, which are multiples of the first prescaler's period too
  have same (sclx : Nat) : time k ((0 + 1) * k.ti2cclk) ((sclx + 1) * (f.presc + 1) - 1) =
      time k ((f.presc + 1) * k.ti2cclk) sclx := by
    have some_ : 0 < (sclx + 1) * (f.presc + 1) := Nat.mul_pos (Nat.succ_pos _) (Nat.succ_pos _)
    rw [time,time,Nat.sub_add_cancel some_,Nat.zero_add,Nat.one_mul,Nat.mul_assoc]
  have short (sclx : Nat) (reached : time k ((f.presc + 1) * k.ti2cclk) sclx ≤ k.clkMax) :
      (sclx + 1) * (f.presc + 1) - 1 < 256 := by
    have product : (sclx + 1) * (f.presc + 1) * k.ti2cclk ≤ 256 * k.ti2cclk := by
      have reach := coarse.reach
      rw [time] at reached
      rw [Nat.mul_assoc]
      omega
    have fields := Nat.le_of_mul_le_mul_right product clock
    omega
  have within := high.2.1
  rw [whole] at within
  have low_ : LowChecked c k ((0 + 1) * k.ti2cclk) ((f.scll + 1) * (f.presc + 1) - 1) := by
    rw [LowChecked,same]
    exact low
  have high_ : HighChecked c k ((0 + 1) * k.ti2cclk) ((f.scll + 1) * (f.presc + 1) - 1)
      ((f.sclh + 1) * (f.presc + 1) - 1) := by
    rw [HighChecked,whole,same,same]
    exact high
  obtain ⟨best,best_,under⟩ := least_le (by omega) regular.shortest _ _ (short _ (by omega)) (short _ (by omega)) low_ high_
  refine ⟨best,best_,Nat.le_trans under (Nat.le_of_eq ?_)⟩
  rw [Setting.error,clockError,clockError,whole,whole,same,same]

theorem outcome_first (best : Nat) (some_ : delays k 0 ≠ 0) (best_ : bestOf c k 0 = some best) : outcome c k ≤ best := by
  have other : prescMax ≠ 0 := Nat.succ_ne_zero 15
  have first := tries_least (delays k 0) ⟨k.ti2cspeed,prescMax,0⟩ best some_ other (show 0 + 1 < 8 by decide) best_
  obtain ⟨flow,walked,ends⟩ : ∃ flow, walk c k ⟨k.ti2cspeed,prescMax,0⟩ = some flow ∧
      flow.Holds (fun a => prescMax = 0 ∧ a = ⟨k.ti2cspeed,prescMax,0⟩ ∨ a.error ≤ best) (fun a => a.error ≤ best) := by
    apply loop_rule fun (presc : Nat) (a : Progress) => presc = 0 ∧ a = ⟨k.ti2cspeed,prescMax,0⟩ ∨ a.error ≤ best
    · intro presc a _ before
      have lower : (tries (bestOf c k presc) presc (delays k presc) a).state.error ≤ best := by
        rcases before with ⟨start,same⟩ | lower
        · rw [start,same]
          exact first
        · exact Nat.le_trans (tries_error _ _) lower
      refine ⟨_,rfl,?_⟩
      revert lower
      cases tries (bestOf c k presc) presc (delays k presc) a with
      | next after => exact Or.inr
      | stop after => exact id
    · exact Or.inl ⟨rfl,rfl⟩
  rw [outcome,walked]
  cases flow with
  | next after => exact ends.resolve_left fun start => absurd start.1 (Nat.succ_ne_zero 15)
  | stop after => exact ends

theorem coarse_optimal (regular : Regular c k) (coarse : Coarse k) : Optimal c k (outcome c k) := by
  rw [optimal_iff regular]
  intro f accepted
  obtain ⟨best,best_,under⟩ := coarse_best regular coarse f accepted
  exact Nat.le_trans (outcome_first best (coarse_delays regular coarse) best_) under

end Outcome

/-- The speeds and the periods of the source clock with a best prescaler that the search gives up before. A prescaler that brings
nothing does not become `prevPresc`, so that each pair of delays that it allows counts as another try. -/
def missed : List (Nat × Nat) :=
  [(0,4),(0,5),(0,6),(0,7),(0,9),(0,10),(0,11),(0,16),(0,27),(0,36),(0,41),(0,49),(1,5),(1,6),(1,15),(2,6)]

/-- The limits by the period of the source clock. -/
def limitsAt (c : Charac) (t : Nat) : Limits where
  ti2cclk := t
  ti2cspeed := period c.freq
  tsdadelMin := c.tfall + c.hddatMin - (analogFilterDelayMin + (c.dnf + 3) * t)
  tsdadelMax := c.vddatMax - (c.trise + analogFilterDelayMax + (c.dnf + 4) * t)
  tscldelMin := c.trise + c.sudatMin
  dnfDelay := c.dnf * t
  clkMin := sec2nsec / c.freqMax
  clkMax := sec2nsec / c.freqMin

theorem limitsOf_eq (c : Charac) (clkSrcFreq : Nat) : limitsOf c clkSrcFreq = limitsAt c (period clkSrcFreq) := rfl

/-- The period from which on the first prescaler is enough. -/
def enough : Nat → Nat
  | 0 => 56
  | 1 => 22
  | _ => 17

theorem coarse_of {speed : Nat} {c : Charac} (entry : i2cCharac[speed]? = some c) (t : Nat) (from_ : enough speed ≤ t) :
    Coarse (limitsAt c t) := by
  match speed,entry with
  | 0,entry | 1,entry | 2,entry =>
    cases Option.some.inj entry
    simp only [enough] at from_
    constructor <;> simp [limitsAt,analogFilterDelayMin,sec2nsec] <;> omega
  | speed + 3,entry => exact absurd entry (by simp [i2cCharac])

theorem missed_lt : ∀ pair ∈ missed, pair.2 < enough pair.1 := by decide

theorem standard_optimal : ∀ t < 56, ∀ c ∈ i2cCharac[0]?, Optimal c (limitsAt c t) (outcome c (limitsAt c t)) ↔
    (0,t) ∉ missed := by decide +kernel

theorem fast_optimal : ∀ t < 22, ∀ c ∈ i2cCharac[1]?, Optimal c (limitsAt c t) (outcome c (limitsAt c t)) ↔
    (1,t) ∉ missed := by decide +kernel

theorem fastPlus_optimal : ∀ t < 17, ∀ c ∈ i2cCharac[2]?, Optimal c (limitsAt c t) (outcome c (limitsAt c t)) ↔
    (2,t) ∉ missed := by decide +kernel

theorem missed_found : ∀ pair ∈ missed, ∀ c ∈ i2cCharac[pair.1]?,
    outcome c (limitsAt c pair.2) < (limitsAt c pair.2).ti2cspeed := by decide +kernel

section Table
variable {speed : Nat} {c : Charac} {t : Nat}

theorem limitsAt_regular (entry : i2cCharac[speed]? = some c) (short : t ≤ 1000) : Regular c (limitsAt c t) := by
  have member := List.mem_of_getElem? entry
  have fits := i2cCharac_fits c member
  refine ⟨fits,⟨short,Nat.mul_le_mul (Nat.le_of_lt_succ fits.dnf) short,?_⟩,?_,?_⟩
  · exact (limitsOf_small c 1000000 fits (Nat.le_refl _)).speed
  · exact Nat.div_le_of_le_mul (Nat.mul_comm _ _ ▸ fits.period)
  · simp only [i2cCharac,List.mem_cons,List.not_mem_nil,or_false] at member
    rcases member with rfl | rfl | rfl <;> exact Nat.succ_pos _

theorem limitsAt_slow (entry : i2cCharac[speed]? = some c) : (limitsAt c t).clkMax < 2 * (limitsAt c t).ti2cspeed := by
  have member := List.mem_of_getElem? entry
  simp only [i2cCharac,List.mem_cons,List.not_mem_nil,or_false] at member
  rcases member with rfl | rfl | rfl <;> simp [limitsAt,period,sec2nsec]

theorem optimal_iff_missed (entry : i2cCharac[speed]? = some c) (short : t ≤ 1000) :
    Optimal c (limitsAt c t) (outcome c (limitsAt c t)) ↔ (speed,t) ∉ missed := by
  by_cases few : t < enough speed
  · match speed,entry with
    | 0,entry => exact standard_optimal t few c entry
    | 1,entry => exact fast_optimal t few c entry
    | 2,entry => exact fastPlus_optimal t few c entry
    | speed + 3,entry => exact absurd entry (by simp [i2cCharac])
  · have optimal := coarse_optimal (limitsAt_regular entry short) (coarse_of entry t (Nat.not_lt.mp few))
    exact ⟨fun _ among => few (missed_lt _ among),fun _ => optimal⟩

theorem outcome_found (entry : i2cCharac[speed]? = some c) (short : t ≤ 1000) (f : Setting)
    (accepted : Accepted c (limitsAt c t) f) : outcome c (limitsAt c t) < (limitsAt c t).ti2cspeed := by
  by_cases among : (speed,t) ∈ missed
  · exact missed_found _ among c entry
  · have optimal := (optimal_iff_missed entry short).mpr among
    rw [optimal_iff (limitsAt_regular entry short)] at optimal
    exact Nat.lt_of_le_of_lt (optimal f accepted) (accepted.error_lt (limitsAt_slow entry))

end Table

theorem computeTiming_found (clkSrcFreq speed : Nat) (low : 1000000 ≤ clkSrcFreq) (high : clkSrcFreq < 4294967296)
    (c : Charac) (entry : i2cCharac[speed]? = some c) (some_ : ∃ f, Accepted c (limitsOf c clkSrcFreq) f) :
    ∃ ret cache f, computeTiming emptyCache clkSrcFreq speed = some (ret,cache) ∧ Accepted c (limitsOf c clkSrcFreq) f ∧
      ret = f.register ∧ f.error c (limitsOf c clkSrcFreq) = outcome c (limitsOf c clkSrcFreq) := by
  have short := period_le clkSrcFreq low
  have limits_ := limits_eq c clkSrcFreq (i2cCharac_fits c (List.mem_of_getElem? entry)) low high
  obtain ⟨flow,ran,_,found⟩ := search_outcome (limitsAt_regular entry short) 0
  obtain ⟨g,accepted⟩ := some_
  have better := outcome_found entry short g accepted
  rcases found with ⟨_,_,none_⟩ | ⟨f,accepted,ret,_,error⟩
  · exact absurd none_ (Nat.ne_of_lt better)
  · exact ⟨flow.state.ret,_,f,by simp [computeTiming,entry,emptyCache,limits_,limitsOf_eq,ran]; rfl,accepted,ret,error⟩

/-- Where a setting passes the tests the result is one, and none is better except for some speeds and clocks. -/
theorem computeTiming_best (clkSrcFreq i2c_speed : UInt32) (low : 1000000 ≤ clkSrcFreq.toNat)
    (high : clkSrcFreq.toNat ≤ 1000000000) (c : Charac) (k : Limits) (entry : i2cCharac[i2c_speed.toNat]? = some c)
    (ahead : limits c clkSrcFreq.toNat = some k) (some_ : ∃ f, Accepted c k f) :
    ∃ ret cache f, computeTiming emptyCache clkSrcFreq.toNat i2c_speed.toNat = some (ret,cache) ∧ Accepted c k f ∧
      ret = f.register ∧
      ((∀ g, Accepted c k g → f.error c k ≤ g.error c k) ↔ (i2c_speed.toNat,period clkSrcFreq.toNat) ∉ missed) := by
  have fits := i2cCharac_fits c (List.mem_of_getElem? entry)
  have word : clkSrcFreq.toNat < 4294967296 := Nat.lt_of_le_of_lt high (by decide)
  cases Option.some.inj (ahead.symm.trans (limits_eq c clkSrcFreq.toNat fits low word))
  have short := period_le clkSrcFreq.toNat low
  obtain ⟨ret,cache,f,computed,accepted,register_,error⟩ := computeTiming_found _ _ low word c entry some_
  refine ⟨ret,cache,f,computed,accepted,register_,?_⟩
  rw [← optimal_iff_missed entry short,optimal_iff (limitsAt_regular entry short),error]
  rfl

theorem computeTiming_best_sixteen :
    ∃ c k ret cache f, i2cCharac[0]? = some c ∧ limits c 16000000 = some k ∧
      computeTiming emptyCache 16000000 0 = some (ret,cache) ∧ Accepted c k f ∧ ret = f.register ∧
      ∀ g, Accepted c k g → f.error c k ≤ g.error c k := by
  obtain ⟨c,entry,accepted⟩ : ∃ c, i2cCharac[0]? = some c ∧ Accepted c (limitsOf c 16000000) ⟨0,15,0,60,71⟩ :=
    ⟨_,rfl,⟨⟨by decide,by decide,by decide,by decide,by decide,by decide⟩,by decide,by decide,⟨by decide,by decide⟩,
      by decide⟩⟩
  have ahead := limits_eq c 16000000 (i2cCharac_fits c (List.mem_of_getElem? entry)) (by decide) (by decide)
  obtain ⟨ret,cache,f,computed,valid,register_,best⟩ :=
    computeTiming_best 16000000 0 (by decide) (by decide) c _ entry ahead ⟨_,accepted⟩
  exact ⟨c,_,ret,cache,f,entry,ahead,computed,valid,register_,best.mpr (by decide)⟩

/-- With a clock of 100 MHz the tries for the standard speed are used up by prescaler 6, which brings nothing and is tried six
times, before the one that fits exactly. -/
theorem computeTiming_gives_up :
    ∃ c k ret cache f g, i2cCharac[0]? = some c ∧ limits c 100000000 = some k ∧
      computeTiming emptyCache 100000000 0 = some (ret,cache) ∧ Accepted c k f ∧ ret = f.register ∧ Accepted c k g ∧
      g.error c k < f.error c k := by
  obtain ⟨c,entry⟩ : ∃ c, i2cCharac[0]? = some c := ⟨_,rfl⟩
  have fits := i2cCharac_fits c (List.mem_of_getElem? entry)
  have missing : ¬ Optimal c (limitsAt c 10) (outcome c (limitsAt c 10)) :=
    fun optimal => (optimal_iff_missed entry (by decide)).mp optimal (by decide)
  rw [optimal_iff (limitsAt_regular entry (by decide))] at missing
  obtain ⟨g,worse⟩ := Classical.not_forall.mp missing
  obtain ⟨accepted,better⟩ := Classical.not_imp.mp worse
  obtain ⟨ret,cache,f,computed,valid,register_,error⟩ :=
    computeTiming_found 100000000 0 (by decide) (by decide) c entry ⟨g,accepted⟩
  refine ⟨c,_,ret,cache,f,g,entry,limits_eq c _ fits (by decide) (by decide),computed,valid,register_,accepted,?_⟩
  rw [error]
  exact Nat.not_le.mp better

end OpenPlc.Wire.Timing
