import Mathlib.Logic.Function.Basic
import Mathlib.Tactic.Common

/-! The serial ports made by software (`SoftwareSerial.cpp`): one timer gives all of them
their ticks, at most one of them sends and at most one receives. -/
namespace OpenPlc.Serial.SoftwareSerial

def oversample : Nat := 3

def maxRxBuff : Nat := 64

def halfduplexSwitchDelay : Nat := 5

/-- The data of one object. `transmitPin` is the level that its transmit pin was set to. -/
structure Port where
  speed : UInt32
  inverseLogic : Bool
  halfDuplex : Bool
  bufferOverflow : Bool
  outputPending : Bool
  receiveBuffer : Nat → UInt8
  tail : Nat
  head : Nat
  transmitPin : Bool

def Port.construct (inverseLogic halfDuplex : Bool) : Port :=
  { speed := 0, inverseLogic, halfDuplex, bufferOverflow := false, outputPending := false, receiveBuffer := fun _ => 0,
    tail := 0, head := 0, transmitPin := false }

/-- What is set of the timer, and the frequency that it has. -/
structure Timer where
  clkFreq : UInt32
  prescaleFactor : UInt32
  overflow : UInt32
  attached : Bool
  running : Bool

/-- The static data and the objects, which are named by `ι`. -/
structure State (ι : Type) where
  port : ι → Port
  timer : Timer
  activeListener : Option ι
  activeOut : Option ι
  activeIn : Option ι
  txTickCnt : Int
  rxTickCnt : Int
  txBuffer : UInt32
  txBitCnt : Int
  rxBuffer : UInt32
  rxBitCnt : Int
  curSpeed : UInt32

def boot {ι : Type} (clkFreq : UInt32) (port : ι → Port) : State ι :=
  { port, timer := ⟨clkFreq,1,0xFFFF,false,false⟩, activeListener := none, activeOut := none, activeIn := none, txTickCnt := 0,
    rxTickCnt := 0, txBuffer := 0, txBitCnt := 0, rxBuffer := 0, rxBitCnt := -1, curSpeed := 0 }

variable {ι : Type} [DecidableEq ι]

def modify (s : State ι) (self : ι) (change : Port → Port) : State ι :=
  {s with port := Function.update s.port self (change (s.port self))}

def setTX (s : State ι) (self : ι) : State ι := modify s self fun port => {port with transmitPin := !port.inverseLogic}

def setRXTX (s : State ι) (self : ι) (input : Bool) : State ι :=
  if (s.port self).halfDuplex then
    if input then
      if s.activeIn ≠ some self then {s with rxBitCnt := -1, rxTickCnt := 2, activeIn := some self} else s
    else if s.activeIn = some self then {setTX s self with activeIn := none}
    else s
  else s

theorem halved (clockRate divisor : UInt32) (large : 65535 ≤ clockRate / divisor) :
    (clockRate / 2).toNat < clockRate.toNat := by
  have bound := UInt32.le_iff_toNat_le.mp large
  rw [UInt32.toNat_div] at bound ⊢
  have below : 65535 ≤ clockRate.toNat := Nat.le_trans bound (Nat.div_le_self _ _)
  exact Nat.div_lt_self (by omega) (by decide)

/-- The loop of `setSpeed` over `clock_rate` and `pre`, with the compare value that ends it. -/
def prescale (clockRate divisor pre : UInt32) : UInt32 × UInt32 :=
  if 65535 ≤ clockRate / divisor then prescale (clockRate / 2) divisor (pre * 2) else (pre,clockRate / divisor)
termination_by clockRate.toNat
decreasing_by exact halved clockRate divisor ‹_›

def setSpeed (s : State ι) (speed : UInt32) : State ι :=
  if speed ≠ s.curSpeed then
    if speed ≠ 0 then
      let (pre,cmpValue) := prescale s.timer.clkFreq (speed * UInt32.ofNat oversample) 1
      {s with timer := ⟨s.timer.clkFreq,pre,cmpValue,true,true⟩, curSpeed := speed}
    else {s with timer := {s.timer with attached := false, running := false}, curSpeed := speed}
  else s

/-- `none` while the loop waits for the end of what is sent. -/
def stopListening (s : State ι) (self : ι) : Option (State ι) :=
  if s.activeListener = some self then
    if s.activeOut.isSome then none
    else
      let s := if (s.port self).halfDuplex then setRXTX s self false else s
      some (setSpeed {s with activeListener := none, activeIn := none} 0)
  else some s

/-- What `listen` does once the former listener is stopped. -/
def takeOver (s : State ι) (self : ι) : State ι :=
  let s := setSpeed {s with rxTickCnt := 1, rxBitCnt := -1} (s.port self).speed
  let s := {s with activeListener := some self}
  if !(s.port self).halfDuplex then {s with activeIn := some self}
  else if s.activeOut.isNone then setRXTX s self true
  else s

/-- `none` while the loop waits for the end of what is sent. -/
def listen (s : State ι) (self : ι) : Option (State ι) :=
  if s.activeListener = some self then some s
  else if s.activeOut.isSome then none
  else
    match s.activeListener with
    | some other => (stopListening s other).map fun s => takeOver s self
    | none => some (takeOver s self)

def begin (s : State ι) (self : ι) (speed : UInt32) : Option (State ι) :=
  let s := modify s self fun port => {port with speed := speed}
  if !(s.port self).halfDuplex then listen (setTX s self) self else some (setTX s self)

def «end» (s : State ι) (self : ι) : Option (State ι) := stopListening s self

/-- The first line of `write`, which is run before the loop that waits. -/
def request (s : State ι) (self : ι) : State ι := modify s self fun port => {port with outputPending := true}

/-- The word that is shifted out for a byte. -/
def framed (b : UInt8) : UInt32 := b.toUInt32 <<< 1 ||| 0x200

/-- What `write` does behind its loop, one assignment after the other. -/
def load (self : ι) (b : UInt8) : List (State ι → State ι) :=
  [fun s => {s with txBuffer := framed b},
    fun s => if (s.port self).inverseLogic then {s with txBuffer := ~~~s.txBuffer} else s,
    fun s => {s with txBitCnt := 0},
    fun s => {s with txTickCnt := oversample},
    fun s => setSpeed s (s.port self).speed,
    fun s => if (s.port self).halfDuplex then setRXTX s self false else s,
    fun s => modify s self fun port => {port with outputPending := false},
    fun s => {s with activeOut := some self}]

/-- `none` while the loop waits for the end of what is sent. -/
def write (s : State ι) (self : ι) (b : UInt8) : Option (State ι) :=
  let s := request s self
  if s.activeOut.isSome then none else some ((load self b).foldl (fun s assign => assign s) s)

def send (s : State ι) (self : ι) : State ι :=
  let s := {s with txTickCnt := s.txTickCnt - 1}
  if s.txTickCnt ≤ 0 then
    let more := decide (s.txBitCnt < 10)
    let s := {s with txBitCnt := s.txBitCnt + 1}
    if more then
      let s := modify s self fun port => {port with transmitPin := s.txBuffer &&& 1 != 0}
      {s with txBuffer := s.txBuffer >>> 1, txTickCnt := oversample}
    else
      let s := {s with txTickCnt := 1}
      if (s.port self).outputPending then {s with activeOut := none}
      else if 10 + oversample * halfduplexSwitchDelay < s.txBitCnt then
        let s := if (s.port self).halfDuplex ∧ s.activeListener = some self then setRXTX s self true else s
        {s with activeOut := none}
      else s
  else s

/-- Saves a byte at the tail of the buffer. -/
def Port.save (port : Port) (byte : UInt8) : Port :=
  let next := (port.tail + 1) % maxRxBuff
  if next ≠ port.head then {port with receiveBuffer := Function.update port.receiveBuffer port.tail byte, tail := next}
  else {port with bufferOverflow := true}

/-- `pin` is the level that `recv` reads from its receive pin. -/
def recv (s : State ι) (self : ι) (pin : Bool) : State ι :=
  let s := {s with rxTickCnt := s.rxTickCnt - 1}
  if s.rxTickCnt ≤ 0 then
    let inbit := pin ^^ (s.port self).inverseLogic
    if s.rxBitCnt = -1 then
      if !inbit then {s with rxBitCnt := 0, rxTickCnt := oversample + 1, rxBuffer := 0}
      else {s with rxTickCnt := 1}
    else if 8 ≤ s.rxBitCnt then
      let s := if inbit then modify s self fun port => port.save s.rxBuffer.toUInt8 else s
      {s with rxTickCnt := 1, rxBitCnt := -1}
    else
      let s := {s with rxBuffer := s.rxBuffer >>> 1}
      let s := if inbit then {s with rxBuffer := s.rxBuffer ||| 0x80} else s
      {s with rxBitCnt := s.rxBitCnt + 1, rxTickCnt := oversample}
  else s

/-- One tick of the timer, with the levels of the receive pins. -/
def handleInterrupt (s : State ι) (pins : ι → Bool) : State ι :=
  let s := match s.activeIn with
    | some self => recv s self (pins self)
    | none => s
  match s.activeOut with
  | some self => send s self
  | none => s

def ticks (s : State ι) (pins : Nat → ι → Bool) : Nat → State ι
  | 0 => s
  | n + 1 => handleInterrupt (ticks s pins n) (pins n)

end OpenPlc.Serial.SoftwareSerial
