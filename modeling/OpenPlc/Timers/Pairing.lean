import OpenPlc.Lib.Run
import OpenPlc.Timers.Channels

/-! The two channels of a pair: a measurement of frequency and duty cycle takes both, and is recorded for both. -/
namespace OpenPlc.Timers

/-- The calls without a pin. `resume` is `resumeUpdate` and then the four channels. -/
inductive Step where
  | setMode (c : Channel) (mode : TimerMode)
  | resumeChannel (c : Channel)
  | pauseChannel (c : Channel)
  | resumeUpdate
  | pause

inductive TimerCall where
  | setMode (c : Channel) (mode : TimerMode)
  | resumeChannel (c : Channel)
  | pauseChannel (c : Channel)
  | resume
  | pause

def TimerCall.steps : TimerCall → List Step
  | .setMode c mode => [.setMode c mode]
  | .resumeChannel c => [.resumeChannel c]
  | .pauseChannel c => [.pauseChannel c]
  | .resume => [.resumeUpdate,.resumeChannel .one,.resumeChannel .two,.resumeChannel .three,.resumeChannel .four]
  | .pause => [.pause]

def Step.run (t : Timer) : Step → Timer
  | .setMode c mode => Timers.setMode t c mode none
  | .resumeChannel c => Timers.resumeChannel t c
  | .pauseChannel c => Timers.pauseChannel t c
  | .resumeUpdate => Timers.resumeUpdate t
  | .pause => Timers.pause t

/-- With the mode of the last `setMode` that configured each channel, itself or as the associated one. -/
structure Paired where
  timer : Timer
  last : Channel → Option TimerMode

def Step.record (last : Channel → Option TimerMode) : Step → Channel → Option TimerMode
  | .setMode c .freqDuty => Function.update (Function.update last (getAssociatedChannel c) (some .freqDuty)) c (some .freqDuty)
  | .setMode c mode => Function.update last c (some mode)
  | _ => last

def Paired.step (s : Paired) (step : Step) : Option Paired := some ⟨step.run s.timer,step.record s.last⟩

/-- A step of one channel touches another one only as the partner in a measurement. -/
def Isolated (s : Paired) (step : Step) : Prop :=
  match step with
  | .resumeChannel c | .pauseChannel c =>
    ∀ d, d ≠ c → (step.run s.timer).bits d ≠ s.timer.bits d → d = getAssociatedChannel c ∧ s.last d = some .freqDuty
  | _ => True

/-- A measuring channel is started or stopped while its partner measures too, or has the bits that the call gives it. -/
def Matched (s : Paired) (step : Step) : Prop :=
  match step with
  | .resumeChannel c => s.last c = some .freqDuty → s.last (getAssociatedChannel c) = some .freqDuty ∨
    s.timer.cce (getAssociatedChannel c) = true ∧ (s.timer.callbacks c = true → s.timer.cie (getAssociatedChannel c) = true)
  | .pauseChannel c => s.last c = some .freqDuty → s.last (getAssociatedChannel c) = some .freqDuty ∨
    s.timer.cce (getAssociatedChannel c) = false ∧ s.timer.cie (getAssociatedChannel c) = false
  | _ => True

def attached (t : Timer) (update : Bool) (callbacks : Channel → Bool) : Timer :=
  {setup t with updateCallback := update, callbacks := callbacks}

section Frames
variable {t : Timer} {c d : Channel} {on : Bool}

theorem pauseChannel_parts (t : Timer) (c : Channel) : ∃ own, Same t own ∧ (∀ d, d ≠ c → own.bits d = t.bits d) ∧
    pauseChannel t c = if t.channelMode c = .freqDuty then
      enableChannel (enableIT own (getAssociatedChannel c) false) (getAssociatedChannel c) false
      else own := by
  have stopped : Same t (enableIT t c false) := ⟨rfl,rfl,rfl,rfl,rfl,rfl,rfl⟩
  have disabled : Same (enableIT t c false) (enableChannel (enableIT t c false) c false) := enableChannel_same
  have same := (stopped.trans disabled).trans (releaseChannel_same (c := c))
  refine ⟨_,same,?_,?_⟩
  · intro d other
    rw [releaseChannel_bits,enableChannel_other other,enableIT_other other]
  · simp only [pauseChannel,same.channelMode]

theorem resumeChannel_single (other : d ≠ c) (single : t.channelMode c ≠ .freqDuty) :
    (resumeChannel t c).bits d = t.bits d := by
  obtain ⟨own,_,frame,parts⟩ := resumeChannel_parts t c
  rw [parts,if_neg single,frame d other]

theorem pauseChannel_single (other : d ≠ c) (single : t.channelMode c ≠ .freqDuty) :
    (pauseChannel t c).bits d = t.bits d := by
  obtain ⟨own,_,frame,parts⟩ := pauseChannel_parts t c
  rw [parts,if_neg single,frame d other]

theorem resumeChannel_unpaired (other : d ≠ c) (apart : d ≠ getAssociatedChannel c) :
    (resumeChannel t c).bits d = t.bits d := by
  obtain ⟨own,_,frame,parts⟩ := resumeChannel_parts t c
  rw [parts]
  split
  · split
    · rw [enableIT_other apart,enableChannel_other apart,frame d other]
    · rw [enableChannel_other apart,frame d other]
  · exact frame d other

theorem pauseChannel_unpaired (other : d ≠ c) (apart : d ≠ getAssociatedChannel c) :
    (pauseChannel t c).bits d = t.bits d := by
  obtain ⟨own,_,frame,parts⟩ := pauseChannel_parts t c
  rw [parts]
  split
  · rw [enableChannel_other apart,enableIT_other apart,frame d other]
  · exact frame d other

theorem enableChannel_plain (plain : t.isComplementary c = false) : (enableChannel t c on).bits c = (on,(t.bits c).2) := by
  simp only [enableChannel,plain,Bool.false_eq_true,if_false,Timer.bits,Function.update_self]

theorem enableIT_own : (enableIT t c on).bits c = ((t.bits c).1,(t.bits c).2.1,on) := by
  simp only [enableIT,Timer.bits,Function.update_self]

theorem resumeChannel_partner (measures : t.channelMode c = .freqDuty)
    (plain : t.isComplementary (getAssociatedChannel c) = false) :
    (resumeChannel t c).bits (getAssociatedChannel c) =
      (true,t.ccne (getAssociatedChannel c),t.callbacks c || t.cie (getAssociatedChannel c)) := by
  obtain ⟨own,same,frame,parts⟩ := resumeChannel_parts t c
  have plain_ : own.isComplementary (getAssociatedChannel c) = false := by rw [same.isComplementary,plain]
  rw [parts,if_pos measures]
  cases called : t.callbacks c with
  | true =>
    rw [if_pos rfl,enableIT_own,enableChannel_plain plain_,frame _ (associated_ne c)]
    rfl
  | false =>
    rw [if_neg Bool.false_ne_true,enableChannel_plain plain_,frame _ (associated_ne c)]
    rfl

theorem pauseChannel_partner (measures : t.channelMode c = .freqDuty)
    (plain : t.isComplementary (getAssociatedChannel c) = false) :
    (pauseChannel t c).bits (getAssociatedChannel c) = (false,t.ccne (getAssociatedChannel c),false) := by
  obtain ⟨own,same,frame,parts⟩ := pauseChannel_parts t c
  have plain_ : (enableIT own (getAssociatedChannel c) false).isComplementary (getAssociatedChannel c) = false := by
    rw [← plain,← same.isComplementary]
    rfl
  rw [parts,if_pos measures,enableChannel_plain plain_,enableIT_own,frame _ (associated_ne c)]
  rfl

end Frames

section Runs

/-- The recorded modes are those of the last calls, and no channel is complementary where no pin is given. -/
structure Recorded (s : Paired) : Prop where
  mode : ∀ c, s.timer.channelMode c = .freqDuty ↔ s.last c = some .freqDuty
  plain : ∀ c, s.timer.isComplementary c = false

/-- A call that gives the partner of a measuring channel the bits `given`, and touches no third channel. -/
theorem touches_iff {s : Paired} {next : Timer} {c : Channel} {given : Bool × Bool × Bool} (recorded : Recorded s)
    (single : s.timer.channelMode c ≠ .freqDuty → ∀ d, d ≠ c → next.bits d = s.timer.bits d)
    (unpaired : ∀ d, d ≠ c → d ≠ getAssociatedChannel c → next.bits d = s.timer.bits d)
    (partner : s.timer.channelMode c = .freqDuty → next.bits (getAssociatedChannel c) = given) :
    (∀ d, d ≠ c → next.bits d ≠ s.timer.bits d → d = getAssociatedChannel c ∧ s.last d = some .freqDuty) ↔
      (s.last c = some .freqDuty →
        s.last (getAssociatedChannel c) = some .freqDuty ∨ s.timer.bits (getAssociatedChannel c) = given) := by
  constructor
  · intro isolated measures
    by_cases same : s.timer.bits (getAssociatedChannel c) = given
    · exact Or.inr same
    · have touched : next.bits (getAssociatedChannel c) ≠ s.timer.bits (getAssociatedChannel c) := by
        rw [partner ((recorded.mode c).mpr measures)]
        exact Ne.symm same
      exact Or.inl (isolated _ (associated_ne c) touched).2
  · intro matched d other touched
    have measures : s.timer.channelMode c = .freqDuty := by
      by_contra alone
      exact touched (single alone d other)
    have paired : d = getAssociatedChannel c := by
      by_contra apart
      exact touched (unpaired d other apart)
    subst paired
    refine ⟨rfl,(matched ((recorded.mode c).mp measures)).resolve_right fun same => touched ?_⟩
    rw [partner measures,same]

theorem isolated_iff (s : Paired) (step : Step) (recorded : Recorded s) : Isolated s step ↔ Matched s step := by
  cases step with
  | setMode c mode => exact Iff.rfl
  | resumeUpdate => exact Iff.rfl
  | pause => exact Iff.rfl
  | resumeChannel c =>
    refine (touches_iff recorded (fun alone d other => resumeChannel_single other alone)
      (fun d other apart => resumeChannel_unpaired other apart)
      fun measures => resumeChannel_partner measures (recorded.plain _)).trans ?_
    simp only [Matched,Timer.bits,Prod.mk.injEq,true_and]
    cases s.timer.callbacks c <;> simp
  | pauseChannel c =>
    refine (touches_iff recorded (fun alone d other => pauseChannel_single other alone)
      (fun d other apart => pauseChannel_unpaired other apart)
      fun measures => pauseChannel_partner measures (recorded.plain _)).trans ?_
    simp only [Matched,Timer.bits,Prod.mk.injEq,true_and]

theorem pauseChannel_same (t : Timer) (c : Channel) : Same t (pauseChannel t c) := by
  obtain ⟨own,same,_,parts⟩ := pauseChannel_parts t c
  rw [parts]
  split
  · have stopped : Same own (enableIT own (getAssociatedChannel c) false) := ⟨rfl,rfl,rfl,rfl,rfl,rfl,rfl⟩
    exact same.trans (stopped.trans enableChannel_same)
  · exact same

theorem Recorded.same {s : Paired} {next : Timer} (recorded : Recorded s) (same : Same s.timer next) :
    Recorded ⟨next,s.last⟩ :=
  ⟨fun c => by rw [same.channelMode]; exact recorded.mode c,fun c => by rw [same.isComplementary]; exact recorded.plain c⟩

theorem record_update {modes : Channel → TimerMode} {last : Channel → Option TimerMode}
    (agree : ∀ d, modes d = .freqDuty ↔ last d = some .freqDuty) (c : Channel) (mode recorded : TimerMode)
    (same : mode = .freqDuty ↔ recorded = .freqDuty) (d : Channel) :
    Function.update modes c mode d = .freqDuty ↔ Function.update last c (some recorded) d = some .freqDuty := by
  by_cases here : d = c
  · subst here
    rw [Function.update_self,Function.update_self,same,Option.some_inj]
  · rw [Function.update_of_ne here,Function.update_of_ne here]
    exact agree d

theorem setMode_plain (t : Timer) (c : Channel) (mode : TimerMode) :
    (setMode t c mode none).isComplementary = t.isComplementary := by
  cases mode
  case outputCompare =>
    rw [setMode]
    split <;> rfl
  all_goals rfl

theorem setMode_recorded (s : Paired) (c : Channel) (mode : TimerMode) (recorded : Recorded s) :
    Recorded ⟨setMode s.timer c mode none,Step.record s.last (.setMode c mode)⟩ := by
  refine ⟨?_,fun d => by rw [setMode_plain]; exact recorded.plain d⟩
  cases mode
  case outputCompare =>
    have agree := record_update recorded.mode c .disabled .outputCompare (by decide)
    simp only [setMode]
    split
    · exact agree
    · rename_i already
      rw [ne_eq,Classical.not_not] at already
      rwa [← already,Function.update_eq_self] at agree
  case freqDuty =>
    have partner := record_update recorded.mode (getAssociatedChannel c) .freqDuty .freqDuty Iff.rfl
    exact record_update partner c .freqDuty .freqDuty Iff.rfl
  all_goals exact record_update recorded.mode c _ _ Iff.rfl

theorem step_recorded (s next : Paired) (step : Step) (recorded : Recorded s) (taken : s.step step = some next) :
    Recorded next := by
  cases Option.some.inj taken
  cases step with
  | setMode c mode => exact setMode_recorded s c mode recorded
  | resumeChannel c => exact recorded.same (resumeChannel_same s.timer c)
  | pauseChannel c => exact recorded.same (pauseChannel_same s.timer c)
  | resumeUpdate =>
    apply recorded.same
    change Same s.timer (if s.timer.updateCallback then baseStart {s.timer with uie := true} else s.timer)
    split
    · have enabled : Same s.timer {s.timer with uie := true} := ⟨rfl,rfl,rfl,rfl,rfl,rfl,rfl⟩
      exact enabled.trans baseStart_same
    · exact ⟨rfl,rfl,rfl,rfl,rfl,rfl,rfl⟩
  | pause => exact recorded.same ⟨rfl,rfl,rfl,rfl,rfl,rfl,rfl⟩

/-- Each call touches another channel only as the partner in a measurement, exactly if no measuring channel is started or
stopped once its partner has another mode, unless the partner has the bits already. -/
theorem pairing_iff (t : Timer) (update : Bool) (callbacks : Channel → Bool) (calls : List TimerCall) :
    Run.Meets Isolated Paired.step ⟨attached t update callbacks,fun _ => none⟩ (calls.flatMap TimerCall.steps) ↔
      Run.Meets Matched Paired.step ⟨attached t update callbacks,fun _ => none⟩ (calls.flatMap TimerCall.steps) := by
  apply Run.meets_iff Recorded Isolated Matched
  · intro s step next recorded _
    exact isolated_iff s step recorded
  · intro s step next recorded _ taken
    exact step_recorded s next step recorded taken
  · exact ⟨fun c => iff_of_false (fun same => TimerMode.noConfusion same) (Option.some_ne_none _ ·.symm),fun _ => rfl⟩

/-- The second channel of a measurement gets a mode of its own, and is stopped with the first. -/
theorem partner_stopped :
    ¬ Run.Meets Isolated Paired.step ⟨attached Timer.reset false fun _ => false,fun _ => none⟩
      ([.setMode .one .freqDuty,.setMode .two .pwm1,.resumeChannel .two,.pauseChannel .one].flatMap TimerCall.steps) := by
  intro isolated
  obtain ⟨_,isolated⟩ := isolated _ rfl
  obtain ⟨_,isolated⟩ := isolated _ rfl
  obtain ⟨_,isolated⟩ := isolated _ rfl
  obtain ⟨paused,_⟩ := isolated _ rfl
  have partner := paused .two (by decide) (by decide)
  exact absurd partner.2 (by decide)

end Runs

end OpenPlc.Timers
