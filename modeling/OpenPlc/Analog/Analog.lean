import OpenPlc.Analog.Resolution
import OpenPlc.Timers.Channels

/-! `analogWrite` and `pinMode` (`wiring_analog.c`, `wiring_digital.c`), with the timers and converters that they drive
(`analog.cpp`). -/
namespace OpenPlc.Analog
open Timers

/-- A port and a pin of it, one of the alternates of the pin, and whether its direct analog pad is meant. -/
structure PinName where
  port : Nat
  pin : Nat
  alternate : Nat
  dual : Bool
  deriving DecidableEq

/-- All names of a pin lead to one line. -/
def PinName.line (p : PinName) : Nat × Nat := (p.port,p.pin)

inductive Pull where
  | none
  | up
  | down

inductive PinFunction where
  | input (pull : Pull)
  | output
  | outputOpenDrain
  | alternate (afnum : Nat)
  | analog

inductive PinMode where
  | input
  | inputPullup
  | inputPulldown
  | inputAnalog
  | output
  | outputOpenDrain

def PinMode.function : PinMode → PinFunction
  | .input => .input .none
  | .inputPullup => .input .up
  | .inputPulldown => .input .down
  | .inputAnalog => .analog
  | .output => .output
  | .outputOpenDrain => .outputOpenDrain

/-- An entry of `PinMap_TIM`. -/
structure TimEntry where
  timer : Nat
  channel : Channel
  afnum : Nat
  inverted : Bool

/-- An entry of `PinMap_DAC`. -/
structure DacEntry where
  dac : Nat
  channel : Nat

/-- The maps of a variant, the clocks of its timers, and the converters whose clock `HAL_DAC_MspDeInit` disables. -/
structure Board where
  pinMapTim : List (PinName × TimEntry)
  pinMapDac : List (PinName × DacEntry)
  timerClk : Nat → UInt32
  clkDisable : Nat → Bool

structure DacChannel where
  configured : Bool
  enabled : Bool
  value : UInt32

structure Dac where
  clocked : Bool
  channel : Nat → DacChannel

/-- `handle` says which timers have an object. -/
structure State where
  resolution : Resolution
  writeFreq : UInt32
  configured : Nat × Nat → Bool
  gpio : Nat × Nat → PinFunction
  handle : Nat → Bool
  timer : Nat → Timer
  dac : Nat → Dac

def State.reset : State :=
  ⟨⟨8,by decide⟩,1000,fun _ => false,fun _ => .analog,fun _ => false,fun _ => Timer.reset,
    fun _ => ⟨false,fun _ => ⟨false,false,0⟩⟩⟩

def daccResolution : Nat := 12

section Pins
variable (s : State) (p : PinName)

/-- The pad of an analog function is not switched by the line. -/
def pinFunction (function : PinFunction) : State :=
  match p.dual, function with
  | true, .analog => s
  | _, _ => {s with gpio := Function.update s.gpio p.line function}

def setPinConfigured (on : Bool) : State := {s with configured := Function.update s.configured p.line on}

end Pins

section Pwm
variable (board : Board) (s : State)

def setTimer (index : Nat) (t : Timer) : State := {s with timer := Function.update s.timer index t}

/-- The timer that a pin is to use gets an object where it has none. -/
def obtainTimer (index : Nat) : State :=
  if s.handle index then s
  else {setTimer s index (setup (s.timer index)) with handle := Function.update s.handle index true}

def deleteTimer (index : Nat) : State :=
  {setTimer s index {s.timer index with clocked := false} with handle := Function.update s.handle index false}

/-- The period and the compare value. `none` where a frequency of zero is divided by. -/
def setDuty (e : TimEntry) (freq value : UInt32) (resolution : Bits) : Option State :=
  let t := s.timer e.timer
  (setOverflow (board.timerClk e.timer) t.registers freq .hertz).bind fun registers =>
    (setCaptureCompare (board.timerClk e.timer) registers e.channel value (.resolution resolution)).map fun registers =>
      setTimer s e.timer {t with registers := registers}

def pwmStart (p : PinName) (e : TimEntry) (freq value : UInt32) (resolution : Bits) : Option State :=
  let s := obtainTimer s e.timer
  let previousMode := (s.timer e.timer).channelMode e.channel
  let s :=
    if previousMode ≠ .pwm1 then
      pinFunction (setTimer s e.timer (setMode (s.timer e.timer) e.channel .pwm1 (some e.inverted))) p (.alternate e.afnum)
    else s
  (setDuty board s e freq value resolution).map fun s =>
    if previousMode ≠ .pwm1 then setTimer s e.timer (resume (s.timer e.timer)) else s

def pwmStop (e : TimEntry) : State := deleteTimer (obtainTimer s e.timer) e.timer

end Pwm

section Converter
variable (board : Board) (s : State)

/-- What the data register of a channel keeps. -/
def daccMax : UInt32 := 0xFFF

/-- A converter without a clock ignores what is written to it. -/
def Dac.write (d : Dac) (channel : Nat) (change : DacChannel → DacChannel) : Dac :=
  if d.clocked then {d with channel := Function.update d.channel channel (change (d.channel channel))} else d

def setDac (index : Nat) (d : Dac) : State := {s with dac := Function.update s.dac index d}

/-- `HAL_DAC_Init`, which enables the clock and routes the pin, and `HAL_DAC_ConfigChannel`. -/
def dacInit (p : PinName) (e : DacEntry) : State :=
  let s := pinFunction (setDac s e.dac {s.dac e.dac with clocked := true}) p .analog
  setDac s e.dac ((s.dac e.dac).write e.channel fun channel => {channel with configured := true})

def dacWriteValue (p : PinName) (e : DacEntry) (value : UInt32) (doInit : Bool) : State :=
  let s := if doInit then dacInit s p e else s
  let d := (s.dac e.dac).write e.channel fun channel => {channel with value := value &&& daccMax}
  setDac s e.dac (d.write e.channel fun channel => {channel with enabled := true})

/-- The whole converter is reset. -/
def dacStop (e : DacEntry) : State :=
  setDac s e.dac ⟨!board.clkDisable e.dac,fun _ => ⟨false,false,0⟩⟩

end Converter

section Calls
variable (board : Board) (s : State)

def pinMode (p : PinName) (mode : PinMode) : State :=
  let s :=
    if s.configured p.line then
      let s :=
        match board.pinMapDac.lookup p with
        | some e => dacStop board s e
        | none =>
          match board.pinMapTim.lookup p with
          | some e => pwmStop s e
          | none => s
      setPinConfigured s p false
    else s
  pinFunction s p mode.function

/-- A pin of neither map is written as a digital one, of which only the mode is kept here. -/
def analogWrite (p : PinName) (value : UInt32) : Option State :=
  match board.pinMapDac.lookup p with
  | some e =>
    let doInit := !s.configured p.line
    some (dacWriteValue (setPinConfigured s p true) p e (mapResolution value s.resolution.write daccResolution) doInit)
  | none =>
    match board.pinMapTim.lookup p with
    | some e =>
      pwmStart board (setPinConfigured s p true) p e s.writeFreq
        (mapResolution value s.resolution.write s.resolution.internalWrite.val) s.resolution.internalWrite
    | none => some (pinMode board s p .output)

end Calls

inductive Call where
  | analogWrite (p : PinName) (value : UInt32)
  | pinMode (p : PinName) (mode : PinMode)

def step (board : Board) (s : State) : Call → Option State
  | .analogWrite p value => analogWrite board s p value
  | .pinMode p mode => some (pinMode board s p mode)

end OpenPlc.Analog
