import Mathlib.Logic.Function.Basic
import OpenPlc.Lib.Run

/-! The servos (`Servo.cpp`): one timer pulses the pins of up to twelve servos one after the other. -/
namespace OpenPlc.Servos

def minPulseWidth : Int := 544

def maxPulseWidth : Int := 2400

def defaultPulseWidth : UInt32 := 1500

def refreshInterval : UInt32 := 20000

def servosPerTimer : Nat := 12

def maxServos : Nat := 12

def invalidServo : UInt8 := 255

/-- An entry of the table `servos`. -/
structure Channel where
  nbr : UInt8
  isActive : Bool
  ticks : UInt32

/-- An object, whose `min` and `max` are what its memory held until it is attached. -/
structure Servo where
  servoIndex : UInt8
  min : Int8
  max : Int8

/-- The static data, the objects, which are named by `ι`, and the pins that the library has set high. -/
structure State (ι : Type) where
  servos : Nat → Channel
  timerChannel : Int
  servoCount : Nat
  cumulativeCount : UInt32
  overflow : UInt32
  running : Bool
  high : UInt8 → Bool
  object : ι → Option Servo

def boot {ι : Type} : State ι :=
  ⟨fun _ => ⟨0,false,0⟩,-1,0,0,0,false,fun _ => false,fun _ => none⟩

section Functions
variable {ι : Type}

/-- The first half of the callback ends the pulse of the present channel. -/
def lowerChannel (s : State ι) : State ι :=
  if s.timerChannel < 0 then {s with cumulativeCount := 0}
  else
    let channel := s.servos s.timerChannel.toNat
    if s.timerChannel < s.servoCount ∧ channel.isActive then {s with high := Function.update s.high channel.nbr false} else s

/-- The second half turns to the next channel. -/
def raiseChannel (s : State ι) : State ι :=
  let s := {s with timerChannel := s.timerChannel + 1}
  if s.timerChannel < s.servoCount ∧ s.timerChannel < (servosPerTimer : Int) then
    let channel := s.servos s.timerChannel.toNat
    let s := {s with overflow := channel.ticks, cumulativeCount := s.cumulativeCount + channel.ticks}
    if channel.isActive then {s with high := Function.update s.high channel.nbr true} else s
  else
    let s := if s.cumulativeCount + 4 < refreshInterval then {s with overflow := refreshInterval - s.cumulativeCount} else s
    {s with timerChannel := -1}

def periodElapsedCallback (s : State ι) : State ι := raiseChannel (lowerChannel s)

def timerServoInit (s : State ι) : State ι := {s with overflow := refreshInterval, running := true}

def isTimerActive (s : State ι) : Bool := (List.range servosPerTimer).any fun channel => (s.servos channel).isActive

def Servo.servoMin (servo : Servo) : Int := minPulseWidth - servo.min.toInt * 4

def Servo.servoMax (servo : Servo) : Int := maxPulseWidth - servo.max.toInt * 4

/-- `none` where it writes beyond the table. -/
def State.set (s : State ι) (servo : Servo) (change : Channel → Channel) : Option (State ι) :=
  if servo.servoIndex.toNat < maxServos then
    some {s with servos := Function.update s.servos servo.servoIndex.toNat (change (s.servos servo.servoIndex.toNat))}
  else none

def writeMicroseconds (s : State ι) (servo : Servo) (value : Int) : Option (State ι) :=
  if servo.servoIndex.toNat < maxServos then
    let value := if value < servo.servoMin then servo.servoMin else if servo.servoMax < value then servo.servoMax else value
    s.set servo fun channel => {channel with ticks := UInt32.ofInt value}
  else some s

/-- The function `map` of the core. -/
def map (x inMin inMax outMin outMax : Int) : Int := ((x - inMin) * (outMax - outMin)).tdiv (inMax - inMin) + outMin

def write (s : State ι) (servo : Servo) (value : Int) : Option (State ι) :=
  let value :=
    if value < minPulseWidth then
      let value := if value < 0 then 0 else if 180 < value then 180 else value
      map value 0 180 servo.servoMin servo.servoMax
    else value
  writeMicroseconds s servo value

end Functions

/-- The statements of the functions that the program calls. -/
inductive Statement (ι : Type) where
  | index (self : ι) (min max : Int8)
  | ticks (self : ι)
  | nbr (self : ι) (pin : Int)
  | write (self : ι) (value : Int)
  | writeMicroseconds (self : ι) (value : Int)
  | limits (self : ι) (min max : Int)
  | init
  | activate (self : ι)
  | deactivate (self : ι)
  | pause

inductive Call (ι : Type) where
  | construct (self : ι) (min max : Int8)
  | attach (self : ι) (pin min max value : Int)
  | write (self : ι) (value : Int)
  | writeMicroseconds (self : ι) (value : Int)
  | detach (self : ι)

section Program
variable {ι : Type} [DecidableEq ι]

/-- `none` where an object is used that is not constructed, or an entry beyond the table. -/
def exec (s : State ι) : Statement ι → Option (State ι)
  | .index self min max =>
    some <|
      if s.servoCount < maxServos then
        {s with object := Function.update s.object self (some ⟨UInt8.ofNat s.servoCount,min,max⟩), servoCount := s.servoCount + 1}
      else {s with object := Function.update s.object self (some ⟨invalidServo,min,max⟩)}
  | .ticks self => (s.object self).bind fun servo => s.set servo fun channel => {channel with ticks := defaultPulseWidth}
  | .nbr self pin => (s.object self).bind fun servo => s.set servo fun channel => {channel with nbr := UInt8.ofInt pin}
  | .write self value => (s.object self).bind fun servo => write s servo value
  | .writeMicroseconds self value => (s.object self).bind fun servo => writeMicroseconds s servo value
  | .limits self min max => (s.object self).map fun servo =>
    {s with object := Function.update s.object self (some {servo with
      min := Int8.ofInt ((minPulseWidth - min).tdiv 4), max := Int8.ofInt ((maxPulseWidth - max).tdiv 4)})}
  | .init => some (if isTimerActive s then s else timerServoInit s)
  | .activate self => (s.object self).bind fun servo => s.set servo fun channel => {channel with isActive := true}
  | .deactivate self => (s.object self).bind fun servo => s.set servo fun channel => {channel with isActive := false}
  | .pause => some (if isTimerActive s then s else {s with running := false})

def Call.body (s : State ι) : Call ι → Option (List (Statement ι))
  | .construct self min max => some (.index self min max :: if s.servoCount < maxServos then [.ticks self] else [])
  | .attach self pin min max value => (s.object self).map fun servo =>
    if servo.servoIndex.toNat < maxServos then
      [.nbr self pin,.write self value,.limits self min max,.init,.activate self]
    else []
  | .write self value => some [.write self value]
  | .writeMicroseconds self value => some [.writeMicroseconds self value]
  | .detach self => some [.deactivate self,.pause]

/-- `rest` is what is left of the call that the program is in. -/
structure Program (ι : Type) where
  state : State ι
  rest : List (Statement ι)

inductive Event (ι : Type) where
  | call (call : Call ι)
  | run
  | callback

/-- The callback of the timer comes between any two statements. -/
def Program.step (s : Program ι) : Event ι → Option (Program ι)
  | .call call =>
    match s.rest with
    | [] => (call.body s.state).map fun body => ⟨s.state,body⟩
    | _ :: _ => none
  | .run =>
    match s.rest with
    | [] => none
    | statement :: rest => (exec s.state statement).map fun state => ⟨state,rest⟩
  | .callback => some ⟨periodElapsedCallback s.state,s.rest⟩

end Program

end OpenPlc.Servos
