import OpenPlc.Timers.HardwareTimer

/-! The tones (`Tone.cpp`): one timer toggles the pin that a tone was asked for. -/
namespace OpenPlc.Tones

def maxFreq : UInt32 := 65535

/-- What a board fixes: the names of its pins, of which the ports of some exist, and the clock of the timer. -/
structure Board (ι : Type) where
  digitalPinToPinName : UInt8 → Option ι
  hasPort : ι → Bool
  timerClkFreq : UInt32

/-- `TimerTone_pinInfo`, where no pin stands for `NC`. -/
structure PinInfo (ι : Type) where
  pin : Option ι
  count : Int

/-- `digital_io_toggle` and `digital_io_write` -/
inductive Operation where
  | toggle
  | write (value : Bool)
deriving DecidableEq

structure Timer where
  registers : Timers.Registers
  attached : Bool
  running : Bool

/-- The static data, the pins that are outputs, and what the callback did to pins. -/
structure State (ι : Type) where
  pinInfo : PinInfo ι
  timerTone : Option Timer
  output : ι → Bool
  operations : List (ι × Operation)

def boot {ι : Type} : State ι := ⟨⟨none,0⟩,none,fun _ => false,[]⟩

/-- `new HardwareTimer(TIMER_TONE)` -/
def Timer.new : Timer := ⟨⟨0,Timers.maxReload,fun _ => 0⟩,false,false⟩

def Timer.pause (timer : Timer) : Timer := {timer with running := false}

def Timer.attachInterrupt (timer : Timer) : Timer := {timer with attached := true}

def Timer.resume (timer : Timer) : Timer := if timer.attached then {timer with running := true} else timer

section Functions
variable {ι : Type} [DecidableEq ι] (board : Board ι)

def tonePeriodElapsedCallback (s : State ι) : State ι :=
  match s.pinInfo.pin with
  | none => s
  | some pin =>
    if board.hasPort pin then
      if s.pinInfo.count ≠ 0 then
        let s := if 0 < s.pinInfo.count then {s with pinInfo := {s.pinInfo with count := s.pinInfo.count - 1}} else s
        {s with operations := s.operations ++ [(pin,.toggle)]}
      else {s with operations := s.operations ++ [(pin,.write false)]}
    else s

def timerTonePinDeinit (s : State ι) : State ι :=
  let s := {s with timerTone := s.timerTone.map Timer.pause}
  match s.pinInfo.pin with
  | none => s
  | some pin => {s with output := Function.update s.output pin false, pinInfo := {s.pinInfo with pin := none}}

/-- `none` where it uses a timer that does not exist or divides by zero. -/
def timerTonePinInit (s : State ι) (p : ι) (frequency duration : UInt32) : Option (State ι) :=
  let timFreq := 2 * frequency
  if frequency ≤ maxFreq then
    if frequency = 0 then some {s with timerTone := s.timerTone.map Timer.pause}
    else do
      let count : Int := if 0 < duration then ((timFreq * duration) / 1000).toInt32.toInt else -1
      let timer ← s.timerTone
      let registers ← Timers.setOverflow board.timerClkFreq timer.registers timFreq .hertz
      return {s with
        pinInfo := ⟨some p,count⟩, output := Function.update s.output p true,
        timerTone := some ({timer with registers} : Timer).attachInterrupt.resume}
  else some s

def tone (s : State ι) (pin : UInt8) (frequency duration : UInt32) : Option (State ι) :=
  let s := if s.timerTone.isNone then {s with timerTone := some .new} else s
  match board.digitalPinToPinName pin with
  | none => some s
  | some p =>
    if s.pinInfo.pin = none ∨ s.pinInfo.pin = some p then timerTonePinInit board s p frequency duration else some s

def noTone (s : State ι) (pin : UInt8) (destruct : Bool) : State ι :=
  match board.digitalPinToPinName pin,s.timerTone with
  | some p,some timer =>
    if s.pinInfo.pin = some p then
      if destruct then {timerTonePinDeinit s with timerTone := none}
      else {s with timerTone := some timer.pause}
    else s
  | _,_ => s

end Functions

/-- The number of a pin with a name, whose port exists. -/
structure ValidPin {ι : Type} (board : Board ι) where
  number : UInt8
  name : ι
  named : board.digitalPinToPinName number = some name
  port : board.hasPort name = true

abbrev Frequency := {frequency : UInt32 // 1 ≤ frequency ∧ frequency ≤ maxFreq}

/-- A board whose pins all exist, under their own numbers. -/
def plainBoard : Board UInt8 := ⟨some,fun _ => true,84000000⟩

def plainPin (number : UInt8) : ValidPin plainBoard := ⟨number,number,rfl,rfl⟩

section Spec
variable {ι : Type} [DecidableEq ι] {board : Board ι}

theorem timFreq_ne (frequency : Frequency) : 2 * frequency.val ≠ 0 := by
  obtain ⟨frequency,least,most⟩ := frequency
  have least_ : 1 ≤ frequency.toNat := UInt32.le_iff_toNat_le.mp least
  have most_ : frequency.toNat ≤ 65535 := UInt32.le_iff_toNat_le.mp most
  intro zero
  have product : 2 * frequency.toNat % 4294967296 = 0 := (UInt32.toNat_mul 2 frequency).symm.trans (congrArg UInt32.toNat zero)
  omega

theorem setOverflow_eq (clk : UInt32) (t : Timers.Registers) (frequency : Frequency) :
    Timers.setOverflow clk t (2 * frequency.val) .hertz = some (Timers.setPeriod t (clk / (2 * frequency.val))) := by
  rw [Timers.setOverflow,Timers.divide,if_neg (timFreq_ne frequency),Option.map_some]

theorem timerTonePinInit_eq {s : State ι} {timer : Timer} (exists_ : s.timerTone = some timer) (p : ι) (frequency : Frequency)
    (duration : UInt32) :
    timerTonePinInit board s p frequency.val duration = some {s with
      pinInfo := ⟨some p,if 0 < duration then ((2 * frequency.val * duration) / 1000).toInt32.toInt else -1⟩
      output := Function.update s.output p true
      timerTone := some ⟨Timers.setPeriod timer.registers (board.timerClkFreq / (2 * frequency.val)),true,true⟩} := by
  have some_ : frequency.val ≠ 0 := fun zero => timFreq_ne frequency (by rw [zero]; rfl)
  rw [timerTonePinInit,if_pos frequency.property.2,if_neg some_,exists_,Option.bind_eq_bind,Option.bind_some,setOverflow_eq]
  rfl

/-- What a call does on a pin that is free. -/
theorem tone_free {s : State ι} (pin : ValidPin board) (frequency : Frequency) (duration : UInt32)
    (free : s.pinInfo.pin = none ∨ s.pinInfo.pin = some pin.name) :
    tone board s pin.number frequency.val duration = some {s with
      pinInfo := ⟨some pin.name,if 0 < duration then ((2 * frequency.val * duration) / 1000).toInt32.toInt else -1⟩
      output := Function.update s.output pin.name true
      timerTone :=
        some ⟨Timers.setPeriod (s.timerTone.getD .new).registers (board.timerClkFreq / (2 * frequency.val)),true,true⟩} := by
  rw [tone,pin.named]
  cases exists_ : s.timerTone with
  | none =>
    rw [Option.isNone_none,if_pos rfl]
    dsimp only
    rw [if_pos free,timerTonePinInit_eq rfl]
    rfl
  | some timer =>
    rw [Option.isNone_some,if_neg Bool.false_ne_true]
    dsimp only
    rw [if_pos free,timerTonePinInit_eq exists_]
    rfl

end Spec

end OpenPlc.Tones
