import OpenPlc.Lib.Run
import OpenPlc.Wire.BestTiming

/-! Calls of `i2c_computeTiming` one after the other, with the cache `I2C_ClockTiming` between them. -/
namespace OpenPlc.Wire.Timing
open Loops

structure Call where
  clkSrcFreq : UInt32
  i2c_speed : UInt32
  low : 1000000 ≤ clkSrcFreq.toNat

def Call.result (cache : Cache) (call : Call) : Option (Nat × Cache) :=
  computeTiming cache call.clkSrcFreq.toNat call.i2c_speed.toNat

def Call.step (cache : Cache) (call : Call) : Option Cache := (call.result cache).map Prod.snd

/-- The call returns what it would return without the cache. -/
def Coherent (cache : Cache) (call : Call) : Prop :=
  (call.result cache).map Prod.fst = (call.result emptyCache).map Prod.fst

/-- Whether a setting passes the tests of the loops. -/
def Call.Possible (call : Call) : Prop :=
  ∀ c ∈ i2cCharac[call.i2c_speed.toNat]?, ∃ f, Accepted c (limitsOf c call.clkSrcFreq.toNat) f

/-- No call for which no setting is possible finds its clock in an entry that has a timing. -/
def Fresh (cache : Cache) (call : Call) : Prop :=
  (cache call.i2c_speed.toNat).inputClock = call.clkSrcFreq.toNat → (cache call.i2c_speed.toNat).timing ≠ 0 → call.Possible

section Alike
variable {c : Charac} {k : Limits} {presc scldel sdadel : Nat}

/-- The search does not read the entry of the cache. -/
def Alike (s t : Best) : Prop := ∃ timing, t = {s with timing := timing}

theorem grid_alike (fits : c.Fits) (small : k.Small) (entered : Entered k presc scldel sdadel) (s t : Best) (alike : Alike s t) :
    ∃ after too, each scllMax (scllRound c k presc scldel sdadel ((presc + 1) * k.ti2cclk)) s = some after ∧
      each scllMax (scllRound c k presc scldel sdadel ((presc + 1) * k.ti2cclk)) t = some too ∧ Alike after too := by
  have step := tPresc_le small entered.presc_lt
  refine each_pair (fun scll s t scll_lt alike => ?_) s t alike
  rw [scllRound_eq small step scll scll_lt s,scllRound_eq small step scll scll_lt t]
  split
  · refine each_pair (fun sclh s t sclh_lt alike => ?_) s t alike
    rw [sclhRound_eq fits small step entered.presc_lt entered.scldel_lt entered.sdadel_lt scll sclh scll_lt sclh_lt s,
      sclhRound_eq fits small step entered.presc_lt entered.scldel_lt entered.sdadel_lt scll sclh scll_lt sclh_lt t]
    obtain ⟨timing,rfl⟩ := alike
    refine ⟨_,_,rfl,rfl,?_⟩
    simp only
    split
    · exact ⟨_,rfl⟩
    · exact ⟨timing,rfl⟩
  · exact ⟨s,t,rfl,rfl,alike⟩

/-- As long as the loops go on, the count of the candidates is small. -/
def Onward (s t : Best) : Prop := Alike s t ∧ s.validTimingNbr < validTimingNbr

theorem sdadelRound_alike (fits : c.Fits) (small : k.Small) (presc_lt : presc < prescMax) (scldel_lt : scldel < scldelMax)
    (sdadel_lt : sdadel < sdadelMax) (setup : k.tscldelMin ≤ (scldel + 1) * (presc + 1) * k.ti2cclk) (s t : Best)
    (onward : Onward s t) : ∃ flow too, sdadelRound c k presc scldel sdadel s = some flow ∧
      sdadelRound c k presc scldel sdadel t = some too ∧ flow.Match Onward Alike too := by
  obtain ⟨⟨timing,rfl⟩,few⟩ := id onward
  have counted : s.validTimingNbr < 4294967295 := Nat.lt_trans few (by decide)
  rw [sdadelRound_eq small sdadel presc_lt sdadel_lt s counted,
    sdadelRound_eq small sdadel presc_lt sdadel_lt {s with timing := timing} counted]
  simp only
  split
  · rename_i tested
    split
    · exact ⟨_,_,rfl,rfl,timing,rfl⟩
    · rename_i more
      have entered : Entered k presc scldel sdadel := ⟨presc_lt,scldel_lt,sdadel_lt,setup,tested.1,tested.2.1⟩
      obtain ⟨after,too,ran,also,alike⟩ := grid_alike fits small entered {s with validTimingNbr := s.validTimingNbr + 1}
        {s with validTimingNbr := s.validTimingNbr + 1, timing := timing} ⟨timing,rfl⟩
      obtain ⟨other,same,scanned⟩ := grid_scanned fits small entered {s with validTimingNbr := s.validTimingNbr + 1}
      cases Option.some.inj (same.symm.trans ran)
      refine ⟨.next after,.next too,by rw [ran]; rfl,by rw [also]; rfl,alike,?_⟩
      rcases scanned.picked with kept | ⟨_,_,_,_,_,_,_,picked⟩
      · rw [kept]
        exact Nat.not_le.mp more
      · rw [picked]
        exact Nat.not_le.mp more
  · exact ⟨_,_,rfl,rfl,onward⟩

theorem search_alike (fits : c.Fits) (small : k.Small) (s t : Best) (onward : Onward s t) :
    ∃ flow too, loop prescMax (prescRound c k) s = some flow ∧ loop prescMax (prescRound c k) t = some too ∧
      Alike flow.state too.state := by
  have runs : ∃ flow too, loop prescMax (prescRound c k) s = some flow ∧ loop prescMax (prescRound c k) t = some too ∧
      flow.Match Onward Alike too := by
    refine loop_pair (fun presc s t presc_lt onward => ?_) s t onward
    refine loop_pair (fun scldel s t scldel_lt onward => ?_) s t onward
    rw [scldelRound_eq small scldel presc_lt scldel_lt s,scldelRound_eq small scldel presc_lt scldel_lt t]
    split
    · rename_i setup
      exact loop_pair (fun sdadel s t sdadel_lt onward =>
        sdadelRound_alike fits small presc_lt scldel_lt sdadel_lt setup s t onward) s t onward
    · exact ⟨_,_,rfl,rfl,onward⟩
  obtain ⟨flow,too,ran,also,same⟩ := runs
  exact ⟨flow,too,ran,also,same.state (fun _ _ onward => onward.1) fun _ _ alike => alike⟩

end Alike

theorem Setting.register_lt {c : Charac} {k : Limits} {f : Setting} (accepted : Accepted c k f) : f.register < 4294967295 := by
  obtain ⟨⟨presc,scldel,sdadel,_,_,_⟩,sclh,scll,_,_⟩ := accepted
  rw [prescMax] at presc
  rw [scldelMax] at scldel
  rw [sdadelMax] at sdadel
  rw [sclhMax] at sclh
  rw [scllMax] at scll
  rw [Setting.register,Timing.register]
  omega

theorem computeTiming_miss (cache : Cache) {clkSrcFreq speed : Nat} {c : Charac} {k : Limits} {flow : Flow Best}
    (known : i2cCharac[speed]? = some c) (miss : ¬ ((cache speed).inputClock = clkSrcFreq ∧ (cache speed).timing ≠ 0))
    (ahead : limits c clkSrcFreq = some k)
    (ran : loop prescMax (prescRound c k) ⟨4294967295,k.ti2cspeed,prescMax,0,(cache speed).timing⟩ = some flow) :
    computeTiming cache clkSrcFreq speed = some (flow.state.ret,fun other =>
      if other = speed then ⟨clkSrcFreq,flow.state.timing⟩ else cache other) := by
  simp only [computeTiming,known,Option.bind_eq_bind]
  rw [if_neg miss,ahead,Option.bind_some,ran]
  rfl

namespace Call

theorem eq_of {first second : Call} (speed : first.i2c_speed.toNat = second.i2c_speed.toNat)
    (clock : first.clkSrcFreq.toNat = second.clkSrcFreq.toNat) : first = second := by
  cases first
  cases second
  cases UInt32.toNat_inj.mp speed
  cases UInt32.toNat_inj.mp clock
  rfl

def stored (cache : Cache) (call : Call) (timing : Nat) : Cache := fun speed =>
  if speed = call.i2c_speed.toNat then ⟨call.clkSrcFreq.toNat,timing⟩ else cache speed

theorem stored_own (cache : Cache) (call : Call) (timing : Nat) {speed : Nat} (own : speed = call.i2c_speed.toNat) :
    call.stored cache timing speed = ⟨call.clkSrcFreq.toNat,timing⟩ := if_pos own

theorem stored_other (cache : Cache) (call : Call) (timing : Nat) {speed : Nat} (other : speed ≠ call.i2c_speed.toNat) :
    call.stored cache timing speed = cache speed := if_neg other

/-- Without a hit, the call returns what it returns with an empty cache, and stores it if it is a timing. -/
theorem result_miss (cache : Cache) (call : Call) (c : Charac) (known : i2cCharac[call.i2c_speed.toNat]? = some c)
    (miss : ¬ ((cache call.i2c_speed.toNat).inputClock = call.clkSrcFreq.toNat ∧ (cache call.i2c_speed.toNat).timing ≠ 0)) :
    ∃ ret timing, call.result cache = some (ret,call.stored cache timing) ∧
      (call.result emptyCache).map Prod.fst = some ret ∧
      (call.Possible ∧ timing = ret ∧ (∃ f, Accepted c (limitsOf c call.clkSrcFreq.toNat) f ∧ ret = f.register) ∨
        ¬ call.Possible ∧ timing = (cache call.i2c_speed.toNat).timing ∧ ret = 4294967295) := by
  have short := period_le call.clkSrcFreq.toNat call.low
  have regular := limitsAt_regular known short
  have limits_ := limits_eq c call.clkSrcFreq.toNat regular.fits call.low call.clkSrcFreq.toNat_lt
  rw [limitsOf_eq] at limits_
  obtain ⟨flow,ran,_,found⟩ := search_outcome regular (cache call.i2c_speed.toNat).timing
  obtain ⟨first,second,also,too,timing,same⟩ := search_alike regular.fits regular.small
    ⟨4294967295,(limitsAt c (period call.clkSrcFreq.toNat)).ti2cspeed,prescMax,0,(cache call.i2c_speed.toNat).timing⟩
    ⟨4294967295,(limitsAt c (period call.clkSrcFreq.toNat)).ti2cspeed,prescMax,0,0⟩ ⟨⟨0,rfl⟩,Nat.succ_pos 7⟩
  cases Option.some.inj (also.symm.trans ran)
  have possible : call.Possible ↔ ∃ f, Accepted c (limitsAt c (period call.clkSrcFreq.toNat)) f := by
    simp [Possible,known,limitsOf_eq]
  refine ⟨flow.state.ret,flow.state.timing,?_,?_,?_⟩
  · exact computeTiming_miss cache known miss limits_ ran
  · rw [result,computeTiming_miss emptyCache known (fun hit => hit.2 rfl) limits_ too,same]
    rfl
  · rw [possible]
    rcases found with ⟨none_,kept,error⟩ | ⟨f,accepted,ret,timing,_⟩
    · refine Or.inr ⟨?_,kept,none_⟩
      rintro ⟨f,accepted⟩
      exact absurd error (Nat.ne_of_lt (outcome_found known short f accepted))
    · exact Or.inl ⟨⟨f,accepted⟩,timing.trans ret.symm,f,accepted,ret⟩

theorem result_hit (cache : Cache) (call : Call) (c : Charac) (known : i2cCharac[call.i2c_speed.toNat]? = some c)
    (clock : (cache call.i2c_speed.toNat).inputClock = call.clkSrcFreq.toNat)
    (some_ : (cache call.i2c_speed.toNat).timing ≠ 0) :
    call.result cache = some ((cache call.i2c_speed.toNat).timing,cache) := by
  simp only [result,computeTiming,known]
  rw [if_pos ⟨clock,some_⟩]
  rfl

theorem result_unknown (cache : Cache) (call : Call) (unknown : i2cCharac[call.i2c_speed.toNat]? = none) :
    call.result cache = some (4294967295,cache) := by
  simp only [result,computeTiming,unknown]
  rfl

end Call

/-- An entry has the timing of its clock, unless no setting is possible for it. -/
structure Faithful (cache : Cache) : Prop where
  same : ∀ call : Call, (cache call.i2c_speed.toNat).inputClock = call.clkSrcFreq.toNat →
    (cache call.i2c_speed.toNat).timing ≠ 0 → call.Possible → ∀ c ∈ i2cCharac[call.i2c_speed.toNat]?,
    (call.result emptyCache).map Prod.fst = some (cache call.i2c_speed.toNat).timing
  valid : ∀ speed, (cache speed).timing < 4294967295

theorem emptyCache_faithful : Faithful emptyCache :=
  ⟨fun _ _ some_ => absurd rfl some_,fun _ => Nat.succ_pos _⟩

theorem step_faithful (cache next : Cache) (call : Call) (faithful : Faithful cache) (taken : call.step cache = some next) :
    Faithful next := by
  cases known : i2cCharac[call.i2c_speed.toNat]? with
  | none =>
    rw [Call.step,call.result_unknown cache known] at taken
    cases Option.some.inj taken
    exact faithful
  | some c =>
    by_cases hit : (cache call.i2c_speed.toNat).inputClock = call.clkSrcFreq.toNat ∧ (cache call.i2c_speed.toNat).timing ≠ 0
    · rw [Call.step,call.result_hit cache c known hit.1 hit.2] at taken
      cases Option.some.inj taken
      exact faithful
    · obtain ⟨ret,timing,result,fresh,found⟩ := call.result_miss cache c known hit
      rw [Call.step,result,Option.map_some] at taken
      obtain rfl : call.stored cache timing = next := Option.some.inj taken
      constructor
      · intro other clock some_ possible d member
        by_cases own : other.i2c_speed.toNat = call.i2c_speed.toNat
        · rw [Call.stored_own cache call timing own] at clock ⊢
          cases Call.eq_of own clock.symm
          rcases found with ⟨_,same,_⟩ | ⟨never,_,_⟩
          · exact fresh.trans (congrArg some same.symm)
          · exact absurd possible never
        · rw [Call.stored_other cache call timing own] at clock some_ ⊢
          exact faithful.same other clock some_ possible d member
      · intro speed
        by_cases own : speed = call.i2c_speed.toNat
        · rw [Call.stored_own cache call timing own]
          rcases found with ⟨_,same,f,accepted,ret_⟩ | ⟨_,kept,_⟩
          · change timing < _
            rw [same,ret_]
            exact Setting.register_lt accepted
          · change timing < _
            rw [kept]
            exact faithful.valid _
        · rw [Call.stored_other cache call timing own]
          exact faithful.valid speed

theorem coherent_iff_fresh (cache : Cache) (call : Call) (faithful : Faithful cache) :
    Coherent cache call ↔ Fresh cache call := by
  cases known : i2cCharac[call.i2c_speed.toNat]? with
  | none =>
    have possible : call.Possible := by simp [Call.Possible,known]
    rw [Coherent,call.result_unknown cache known,call.result_unknown emptyCache known]
    exact ⟨fun _ _ _ => possible,fun _ => rfl⟩
  | some c =>
    by_cases hit : (cache call.i2c_speed.toNat).inputClock = call.clkSrcFreq.toNat ∧ (cache call.i2c_speed.toNat).timing ≠ 0
    · have stored := call.result_hit cache c known hit.1 hit.2
      by_cases possible : call.Possible
      · rw [Coherent,stored,faithful.same call hit.1 hit.2 possible c known]
        exact ⟨fun _ _ _ => possible,fun _ => rfl⟩
      · obtain ⟨ret,_,_,fresh,found⟩ := call.result_miss emptyCache c known fun hit => hit.2 rfl
        rcases found with ⟨sure,_⟩ | ⟨_,_,none_⟩
        · exact absurd sure possible
        · rw [Coherent,stored,fresh,none_]
          constructor
          · intro same
            exact absurd (Option.some.inj same) (Nat.ne_of_lt (faithful.valid _))
          · intro all
            exact absurd (all hit.1 hit.2) possible
    · obtain ⟨ret,_,result,fresh,_⟩ := call.result_miss cache c known hit
      rw [Coherent,result,fresh]
      exact ⟨fun _ clock some_ => absurd ⟨clock,some_⟩ hit,fun _ => rfl⟩

theorem step_some (cache : Cache) (call : Call) : ∃ next, call.step cache = some next := by
  have returns : ∃ both, call.result cache = some both := by
    cases known : i2cCharac[call.i2c_speed.toNat]? with
    | none => exact ⟨_,call.result_unknown cache known⟩
    | some c =>
      by_cases hit : (cache call.i2c_speed.toNat).inputClock = call.clkSrcFreq.toNat ∧
          (cache call.i2c_speed.toNat).timing ≠ 0
      · exact ⟨_,call.result_hit cache c known hit.1 hit.2⟩
      · obtain ⟨ret,timing,result,_⟩ := call.result_miss cache c known hit
        exact ⟨_,result⟩
  obtain ⟨both,result⟩ := returns
  exact ⟨both.2,by rw [Call.step,result]; rfl⟩

theorem calls_return (cache : Cache) (calls : List Call) :
    ∃ after, Run.after (fun cache call => Call.step cache call) cache calls = some after := by
  induction calls generalizing cache with
  | nil => exact ⟨cache,rfl⟩
  | cons call rest ih =>
    obtain ⟨next,taken⟩ := step_some cache call
    obtain ⟨after,onward⟩ := ih next
    exact ⟨after,by simp [taken,onward]⟩

/-- Calls return what they would return without the cache, in exactly the runs in which no clock that allows no setting
finds a timing of another clock in its entry. -/
theorem cache_coherent (calls : List Call) :
    (∃ cache, Run.after (fun cache call => Call.step cache call) emptyCache calls = some cache) ∧
      (Run.Meets Coherent (fun cache call => Call.step cache call) emptyCache calls ↔
        Run.Meets Fresh (fun cache call => Call.step cache call) emptyCache calls) :=
  ⟨calls_return emptyCache calls,Run.meets_iff Faithful Coherent Fresh
    (fun cache call _ faithful _ => coherent_iff_fresh cache call faithful)
    (fun cache call next faithful _ taken => step_faithful cache next call faithful taken) emptyCache calls
    emptyCache_faithful⟩

def sixteen : Call := ⟨16000000,2,by decide⟩

def eight : Call := ⟨8000000,2,by decide⟩

theorem eight_impossible : ¬ eight.Possible := by
  intro possible
  obtain ⟨c,known⟩ : ∃ c, i2cCharac[2]? = some c := ⟨_,rfl⟩
  obtain ⟨f,accepted⟩ := possible c known
  obtain ⟨_,best,found,_⟩ := accepted.best (limitsAt_regular known (by decide))
  have never : ∀ c ∈ i2cCharac[2]?, ∀ presc < prescMax, bestOf c (limitsAt c 125) presc = none := by decide
  exact Option.some_ne_none best (found.symm.trans (never c known f.presc accepted.entered.presc_lt))

/-- The timing of 16 MHz is returned for 8 MHz, which is too slow for the speed, when it is asked for again. -/
theorem stale_timing :
    ¬ Run.Meets Coherent (fun cache call => Call.step cache call) emptyCache [sixteen,eight,eight] := by
  intro meets
  obtain ⟨c,known,possible,short⟩ : ∃ c, i2cCharac[2]? = some c ∧ Accepted c (limitsOf c 16000000) ⟨0,1,0,1,5⟩ ∧
      ¬ LowChecked c (limitsOf c 16000000) ((0 + 1) * (limitsOf c 16000000).ti2cclk) 0 :=
    ⟨_,rfl,⟨⟨by decide,by decide,by decide,by decide,by decide,by decide⟩,by decide,by decide,⟨by decide,by decide⟩,
      by decide⟩,by decide⟩
  obtain ⟨ret,timing,first,_,found⟩ := sixteen.result_miss emptyCache c known fun hit => hit.2 rfl
  rcases found with ⟨_,same,f,accepted,register_⟩ | ⟨never,_⟩
  · have some_ : timing ≠ 0 := by
      rw [same,register_]
      intro zero
      obtain ⟨presc,scldel,sdadel,sclh,scll⟩ := f
      have low := accepted.low
      simp only [Setting.register,register] at zero
      obtain rfl : presc = 0 := by omega
      obtain rfl : scll = 0 := by omega
      exact short low
    have start : sixteen.step emptyCache = some (sixteen.stored emptyCache timing) := by
      rw [Call.step,first]
      rfl
    have faithful := step_faithful _ _ sixteen emptyCache_faithful start
    have left : (sixteen.stored emptyCache timing) eight.i2c_speed.toNat = ⟨16000000,timing⟩ := if_pos rfl
    obtain ⟨ret,later,second,_,found⟩ := eight.result_miss (sixteen.stored emptyCache timing) c known fun hit => by
      rw [left] at hit
      exact absurd hit.1 (show ¬ 16000000 = 8000000 by decide)
    rcases found with ⟨possible,_⟩ | ⟨_,kept,_⟩
    · exact eight_impossible possible
    · have next : eight.step (sixteen.stored emptyCache timing) =
          some (eight.stored (sixteen.stored emptyCache timing) later) := by
        rw [Call.step,second]
        rfl
      have faithful := step_faithful _ _ eight faithful next
      have stale : (eight.stored (sixteen.stored emptyCache timing) later) eight.i2c_speed.toNat = ⟨8000000,timing⟩ := by
        rw [Call.stored_own _ eight later rfl,kept,left]
        rfl
      obtain ⟨_,meets⟩ := meets _ start
      obtain ⟨_,meets⟩ := meets _ next
      obtain ⟨last,taken⟩ := step_some (eight.stored (sixteen.stored emptyCache timing) later) eight
      have fresh := (coherent_iff_fresh _ eight faithful).mp (meets last taken).1
      apply eight_impossible
      apply fresh
      · rw [stale]
        rfl
      · rw [stale]
        exact some_
  · exact never fun d member => by
      cases Option.some.inj (known.symm.trans member)
      exact ⟨_,possible⟩

end OpenPlc.Wire.Timing
