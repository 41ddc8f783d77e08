import OpenPlc.Timers.HardwareTimer

/-! The channels of a timer: their modes, and when their outputs and interrupts are enabled (`HardwareTimer.cpp`, on the
functions of `stm32h7xx_hal_tim.c`). -/
namespace OpenPlc.Timers

inductive TimerMode where
  | disabled
  | outputCompare
  | active
  | inactive
  | toggle
  | pwm1
  | pwm2
  | forcedActive
  | forcedInactive
  | captureRising
  | captureFalling
  | captureBothedge
  | freqDuty
  | notUsed
  deriving DecidableEq

/-- The registers of a timer, and the object that drives it. `cce`, `ccne` and `cie` are the bits that enable the output or
input of a channel, its complementary output and its interrupt; the last four fields are the states of the handle. -/
structure Timer where
  registers : Registers
  clocked : Bool
  cen : Bool
  uie : Bool
  configured : Channel → TimerMode
  cce : Channel → Bool
  ccne : Channel → Bool
  cie : Channel → Bool
  channelMode : Channel → TimerMode
  isComplementary : Channel → Bool
  updateCallback : Bool
  callbacks : Channel → Bool
  busy : Bool
  channelBusy : Channel → Bool
  channelNBusy : Channel → Bool

/-- The registers of a timer after a reset, with no object. -/
def Timer.reset : Timer :=
  ⟨⟨0,65535,fun _ => 0⟩,false,false,false,fun _ => .disabled,fun _ => false,fun _ => false,fun _ => false,
    fun _ => .disabled,fun _ => false,false,fun _ => false,false,fun _ => false,fun _ => false⟩

def getAssociatedChannel : Channel → Channel
  | .one => .two
  | .two => .one
  | .three => .four
  | .four => .three

section Functions
variable (t : Timer) (c : Channel)

/-- `HAL_TIM_IC_ConfigChannel` disables the channel. -/
def configInput (mode : TimerMode) : Timer :=
  {t with configured := Function.update t.configured c mode, cce := Function.update t.cce c false}

/-- `HAL_TIM_OC_ConfigChannel` and `HAL_TIM_PWM_ConfigChannel` disable the complementary output as well. -/
def configOutput (mode : TimerMode) : Timer :=
  {t with
    configured := Function.update t.configured c mode
    cce := Function.update t.cce c false
    ccne := Function.update t.ccne c false}

def saveMode (mode : TimerMode) : Timer := {t with channelMode := Function.update t.channelMode c mode}

/-- `pin` says whether the output of the pin is complementary; there is none where the mode is set without a pin. -/
def setMode (mode : TimerMode) (pin : Option Bool) : Timer :=
  match mode with
  | .outputCompare => if t.channelMode c ≠ .disabled then configOutput (saveMode t c .disabled) c .disabled else t
  | mode =>
    let t :=
      match mode with
      | .freqDuty =>
        let t := saveMode (configInput t c mode) (getAssociatedChannel c) mode
        configInput t (getAssociatedChannel c) mode
      | .captureRising | .captureFalling | .captureBothedge => configInput t c mode
      | .notUsed => t
      | mode => configOutput t c mode
    let t := saveMode t c mode
    match pin with
    | some inverted => {t with isComplementary := Function.update t.isComplementary c inverted}
    | none => t

/-- What `getLLChannel` selects is enabled or disabled. -/
def enableChannel (on : Bool) : Timer :=
  if t.isComplementary c then {t with ccne := Function.update t.ccne c on} else {t with cce := Function.update t.cce c on}

def enableIT (on : Bool) : Timer := {t with cie := Function.update t.cie c on}

def baseStart : Timer := if t.busy then t else {t with busy := true, cen := true}

/-- `HAL_TIM_PWM_Start` and `HAL_TIM_OC_Start`. -/
def outputStart : Timer :=
  if t.channelBusy c then t
  else {t with channelBusy := Function.update t.channelBusy c true, cce := Function.update t.cce c true, cen := true}

/-- `HAL_TIMEx_PWMN_Start` and `HAL_TIMEx_OCN_Start`. -/
def outputNStart : Timer :=
  if t.channelNBusy c then t
  else {t with channelNBusy := Function.update t.channelNBusy c true, ccne := Function.update t.ccne c true, cen := true}

def inputStart : Timer :=
  if t.channelBusy c ∨ t.channelNBusy c then t
  else {t with
    channelBusy := Function.update t.channelBusy c true
    channelNBusy := Function.update t.channelNBusy c true
    cce := Function.update t.cce c true
    cen := true}

def startChannel : Timer :=
  match t.channelMode c with
  | .pwm1 | .pwm2 | .active | .inactive | .toggle | .forcedActive | .forcedInactive =>
    if t.isComplementary c then outputNStart t c else outputStart t c
  | .freqDuty | .captureRising | .captureFalling | .captureBothedge => inputStart t c
  | .outputCompare | .disabled => if t.cen then t else baseStart t
  | .notUsed => t

def resumeChannel : Timer :=
  let t := if t.callbacks c then enableIT t c true else t
  let t := startChannel t c
  if t.channelMode c = .freqDuty then
    let t := enableChannel t (getAssociatedChannel c) true
    if t.callbacks c then enableIT t (getAssociatedChannel c) true else t
  else t

def releaseChannel : Timer :=
  if t.isComplementary c then {t with channelNBusy := Function.update t.channelNBusy c false}
  else {t with channelBusy := Function.update t.channelBusy c false}

def pauseChannel : Timer :=
  let t := releaseChannel (enableChannel (enableIT t c false) c false) c
  if t.channelMode c = .freqDuty then enableChannel (enableIT t (getAssociatedChannel c) false) (getAssociatedChannel c) false
  else t

/-- The first half of `resume` starts the counter for the callback of the update. -/
def resumeUpdate : Timer := if t.updateCallback then baseStart {t with uie := true} else t

def resume : Timer :=
  resumeChannel (resumeChannel (resumeChannel (resumeChannel (resumeUpdate t) .one) .two) .three) .four

def pause : Timer :=
  {t with
    uie := false
    cie := fun _ => false
    cen := false
    busy := false
    channelBusy := fun _ => false
    channelNBusy := fun _ => false}

/-- The registers of the channels keep what they held. -/
def setup : Timer :=
  {t with
    clocked := true
    registers := {t.registers with psc := 0, arr := maxReload}
    channelMode := fun _ => .disabled
    isComplementary := fun _ => false
    updateCallback := false
    callbacks := fun _ => false
    busy := false
    channelBusy := fun _ => false
    channelNBusy := fun _ => false}

end Functions

def Timer.bits (t : Timer) (c : Channel) : Bool × Bool × Bool := (t.cce c,t.ccne c,t.cie c)

section Frames
variable {t : Timer} {c d : Channel} {on : Bool}

theorem associated_ne (c : Channel) : getAssociatedChannel c ≠ c := by
  cases c <;> exact fun same => Channel.noConfusion same

theorem enableIT_other (other : d ≠ c) : (enableIT t c on).bits d = t.bits d := by
  simp only [enableIT,Timer.bits,Function.update_of_ne other]

theorem enableChannel_other (other : d ≠ c) : (enableChannel t c on).bits d = t.bits d := by
  rw [enableChannel]
  split <;> simp only [Timer.bits,Function.update_of_ne other]

theorem baseStart_bits : (baseStart t).bits d = t.bits d := by
  rw [baseStart]
  split <;> rfl

theorem outputStart_other (other : d ≠ c) : (outputStart t c).bits d = t.bits d := by
  rw [outputStart]
  split
  · rfl
  · simp only [Timer.bits,Function.update_of_ne other]

theorem outputNStart_other (other : d ≠ c) : (outputNStart t c).bits d = t.bits d := by
  rw [outputNStart]
  split
  · rfl
  · simp only [Timer.bits,Function.update_of_ne other]

theorem inputStart_other (other : d ≠ c) : (inputStart t c).bits d = t.bits d := by
  rw [inputStart]
  split
  · rfl
  · simp only [Timer.bits,Function.update_of_ne other]

theorem called_other (other : d ≠ c) : (if t.callbacks c then enableIT t c true else t).bits d = t.bits d := by
  split
  · exact enableIT_other other
  · rfl

theorem startChannel_other (other : d ≠ c) : (startChannel t c).bits d = t.bits d := by
  rw [startChannel]
  split
  case h_1 | h_2 | h_3 | h_4 | h_5 | h_6 | h_7 =>
    split
    · exact outputNStart_other other
    · exact outputStart_other other
  case h_8 | h_9 | h_10 | h_11 => exact inputStart_other other
  case h_12 | h_13 =>
    split
    · rfl
    · exact baseStart_bits
  case h_14 => rfl

/-- Starting and stopping channels leaves the modes as they are. -/
structure Same (t next : Timer) : Prop where
  registers : next.registers = t.registers
  clocked : next.clocked = t.clocked
  configured : next.configured = t.configured
  channelMode : next.channelMode = t.channelMode
  isComplementary : next.isComplementary = t.isComplementary
  updateCallback : next.updateCallback = t.updateCallback
  callbacks : next.callbacks = t.callbacks

theorem Same.rfl : Same t t := ⟨.refl _,.refl _,.refl _,.refl _,.refl _,.refl _,.refl _⟩

theorem Same.trans {mid next : Timer} (first : Same t mid) (second : Same mid next) : Same t next :=
  ⟨second.registers.trans first.registers,second.clocked.trans first.clocked,second.configured.trans first.configured,
    second.channelMode.trans first.channelMode,second.isComplementary.trans first.isComplementary,
    second.updateCallback.trans first.updateCallback,second.callbacks.trans first.callbacks⟩

theorem enableChannel_same : Same t (enableChannel t c on) := by
  rw [enableChannel]
  split <;> exact ⟨rfl,rfl,rfl,rfl,rfl,rfl,rfl⟩

theorem called_same : Same t (if t.callbacks c then enableIT t c true else t) := by
  split <;> exact ⟨rfl,rfl,rfl,rfl,rfl,rfl,rfl⟩

theorem baseStart_same : Same t (baseStart t) := by
  rw [baseStart]
  split <;> exact ⟨rfl,rfl,rfl,rfl,rfl,rfl,rfl⟩

theorem outputStart_same : Same t (outputStart t c) := by
  rw [outputStart]
  split <;> exact ⟨rfl,rfl,rfl,rfl,rfl,rfl,rfl⟩

theorem outputNStart_same : Same t (outputNStart t c) := by
  rw [outputNStart]
  split <;> exact ⟨rfl,rfl,rfl,rfl,rfl,rfl,rfl⟩

theorem inputStart_same : Same t (inputStart t c) := by
  rw [inputStart]
  split <;> exact ⟨rfl,rfl,rfl,rfl,rfl,rfl,rfl⟩

theorem startChannel_same : Same t (startChannel t c) := by
  rw [startChannel]
  split
  case h_1 | h_2 | h_3 | h_4 | h_5 | h_6 | h_7 =>
    split
    · exact outputNStart_same
    · exact outputStart_same
  case h_8 | h_9 | h_10 | h_11 => exact inputStart_same
  case h_12 | h_13 =>
    split
    · exact Same.rfl
    · exact baseStart_same
  case h_14 => exact Same.rfl

theorem releaseChannel_same : Same t (releaseChannel t c) := by
  rw [releaseChannel]
  split <;> exact ⟨rfl,rfl,rfl,rfl,rfl,rfl,rfl⟩

theorem releaseChannel_bits : (releaseChannel t c).bits d = t.bits d := by
  rw [releaseChannel]
  split <;> rfl

/-- Before its partner is looked at, a call has touched the bits of its own channel only. -/
theorem resumeChannel_parts (t : Timer) (c : Channel) : ∃ own, Same t own ∧ (∀ d, d ≠ c → own.bits d = t.bits d) ∧
    resumeChannel t c = if t.channelMode c = .freqDuty then
      (if t.callbacks c then enableIT (enableChannel own (getAssociatedChannel c) true) (getAssociatedChannel c) true
        else enableChannel own (getAssociatedChannel c) true)
      else own := by
  have called : Same t (if t.callbacks c then enableIT t c true else t) := called_same
  have same := called.trans (startChannel_same (c := c))
  refine ⟨_,same,?_,?_⟩
  · intro d other
    rw [startChannel_other other,called_other other]
  · simp only [resumeChannel,same.channelMode,enableChannel_same.callbacks,same.callbacks]

theorem resumeChannel_same (t : Timer) (c : Channel) : Same t (resumeChannel t c) := by
  obtain ⟨own,same,_,parts⟩ := resumeChannel_parts t c
  rw [parts]
  split
  · split
    · exact same.trans (enableChannel_same.trans ⟨rfl,rfl,rfl,rfl,rfl,rfl,rfl⟩)
    · exact same.trans enableChannel_same
  · exact same

end Frames

end OpenPlc.Timers
