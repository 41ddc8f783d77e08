import OpenPlc.Lib.Memory
import OpenPlc.Lib.Run

/-! The I2C slave of `twi.c`: the callbacks of the HAL, in every order in which it can
deliver them, and the calls of `TwoWire::write` in the callback for a read request.
Interrupts of the slave do not interrupt each other. -/
namespace OpenPlc.Wire.Twi
open Memory

/-- `I2C_TXRX_BUFFER_SIZE`, for which 256 and more is refused. -/
structure BufferSize where
  bytes : Nat
  positive : 0 < bytes
  small : bytes < 256

theorem default_small : 32 < 256 := by decide

def defaultSize : BufferSize := ⟨32,Nat.succ_pos 31,default_small⟩

inductive SlaveMode
  | transmit
  | receive
  | listen
deriving DecidableEq

/-- The direction as the HAL gives it, seen from the master. -/
inductive Direction
  | transmit
  | receive

/-- What the slave does towards its user and towards the HAL. -/
inductive Action
  | onSlaveReceive (bytes : List UInt8)
  | onSlaveTransmit
  | seqReceive (index : Nat)
  | seqTransmit (bytes : List UInt8)
deriving DecidableEq

/-- `onSlaveTransmit` tells whether that callback is attached, and `armed` where the HAL puts
the next byte. Once a byte was put `outside` of the buffer, nothing is known any more. -/
structure State where
  slaveRxNbData : Nat
  slaveMode : SlaveMode
  buffer : Nat → UInt8
  bufferSize : Nat
  onSlaveTransmit : Bool
  inRequest : Bool
  armed : Option Nat
  outside : Bool
  accepted : List UInt8
  trace : List Action

inductive Event
  | address (direction : Direction)
  | write (data : List UInt8)
  | respond
  | byte (value : UInt8)
  | slaveTxCplt
  | listenCplt

/-- After `begin`, with whatever the buffer holds. -/
def start (buffer : Nat → UInt8) (attached : Bool) : State :=
  { slaveRxNbData := 0, slaveMode := .listen, buffer := buffer, bufferSize := 0, onSlaveTransmit := attached,
    inRequest := false, armed := none, outside := false, accepted := [], trace := [] }

/-- `i2c_onSlaveReceive`, which finds the received bytes in the buffer. -/
def onSlaveReceive (s : State) : State :=
  {s with trace := s.trace ++ [.onSlaveReceive (slice s.buffer 0 s.slaveRxNbData)]}

/-- `HAL_I2C_Slave_Seq_Receive_IT` for one byte at `slaveRxNbData`. -/
def seqReceive (s : State) : State :=
  {s with armed := some s.slaveRxNbData, trace := s.trace ++ [.seqReceive s.slaveRxNbData]}

def seqTransmit (s : State) : State :=
  {s with trace := s.trace ++ [.seqTransmit (slice s.buffer 0 s.bufferSize)]}

/-- The begin of `HAL_I2C_AddrCallback`: a segment that ended with a repeated start. -/
def settle (s : State) : State :=
  if s.slaveMode = .receive ∧ s.slaveRxNbData ≠ 0 then
    {onSlaveReceive s with slaveMode := .listen, slaveRxNbData := 0}
  else s

/-- `HAL_I2C_AddrCallback`, up to the return of `i2c_onSlaveTransmit` where that is called.
A receive that was armed before is given up by the HAL. -/
def addrCallback (s : State) (direction : Direction) : State :=
  let s := settle {s with armed := none}
  match direction with
  | .receive =>
    let s := {s with slaveMode := .transmit}
    if s.onSlaveTransmit then
      {s with bufferSize := 0, accepted := [], inRequest := true, trace := s.trace ++ [.onSlaveTransmit]}
    else seqTransmit s
  | .transmit => seqReceive {s with slaveRxNbData := 0, slaveMode := .receive}

/-- `HAL_I2C_AddrCallback` behind the callback. -/
def respond (s : State) : State := seqTransmit {s with inRequest := false}

/-- `i2c_slave_write_IT`, with whether it returns `I2C_OK`. Its `size` has 16 bits. -/
def slaveWrite (n : BufferSize) (s : State) (data : List UInt8) : State × Bool :=
  let size := data.length % 65536
  if n.bytes < size then (s,false)
  else
    ({ s with
      buffer := blit s.buffer s.bufferSize (data.take size), bufferSize := (s.bufferSize + size) % 256,
      outside := s.outside || decide (n.bytes < s.bufferSize + size) },true)

/-- `TwoWire::write` of a slave, which returns the whole `quantity` or 0. -/
def write (n : BufferSize) (s : State) (data : List UInt8) : State :=
  let (s,ok) := slaveWrite n s data
  if ok then {s with accepted := s.accepted ++ data} else s

def slaveRxCpltCallback (n : BufferSize) (s : State) : State :=
  let s := if s.slaveRxNbData < n.bytes then {s with slaveRxNbData := s.slaveRxNbData + 1} else s
  if s.slaveMode = .receive then seqReceive s else s

/-- A byte comes where the HAL was told to put it. -/
def byte (n : BufferSize) (s : State) (value : UInt8) : Option State :=
  s.armed.map fun index =>
    slaveRxCpltCallback n { s with
      armed := none, buffer := blit s.buffer index [value], outside := s.outside || decide (n.bytes ≤ index) }

def slaveTxCpltCallback (s : State) : State := {s with bufferSize := 0}

def listenCpltCallback (s : State) : State :=
  let s := {s with armed := none}
  let s := if s.slaveMode = .receive ∧ s.slaveRxNbData ≠ 0 then onSlaveReceive s else s
  {s with slaveMode := .listen, slaveRxNbData := 0}

def step (n : BufferSize) (s : State) (event : Event) : Option State :=
  if s.outside then none
  else if s.inRequest then
    match event with
    | .write data => some (write n s data)
    | .respond => some (respond s)
    | _ => none
  else
    match event with
    | .address direction => some (addrCallback s direction)
    | .byte value => byte n s value
    | .slaveTxCplt => some (slaveTxCpltCallback s)
    | .listenCplt => some (listenCpltCallback s)
    | _ => none

/-- What the slave has still to tell its user: the bytes of a segment that goes on. -/
def untold (s : State) : List Action :=
  if s.slaveMode = .receive ∧ s.slaveRxNbData ≠ 0 then [.onSlaveReceive (slice s.buffer 0 s.slaveRxNbData)] else []

theorem listenCpltCallback_eq (s : State) :
    listenCpltCallback s =
      {s with armed := none, slaveMode := .listen, slaveRxNbData := 0, trace := s.trace ++ untold s} := by
  simp only [listenCpltCallback,onSlaveReceive,untold]
  split <;> simp

theorem settle_eq (s : State) (counted : s.slaveRxNbData ≠ 0 → s.slaveMode = .receive) :
    ∃ mode, settle s = {s with slaveMode := mode, slaveRxNbData := 0, trace := s.trace ++ untold s} := by
  by_cases pending : s.slaveMode = .receive ∧ s.slaveRxNbData ≠ 0
  · exact ⟨.listen,by simp only [settle,onSlaveReceive,untold,if_pos pending]⟩
  · have zero : s.slaveRxNbData = 0 := by
      by_contra some_
      exact pending ⟨counted some_,some_⟩
    refine ⟨s.slaveMode,?_⟩
    simp only [settle,untold,if_neg pending,List.append_nil]
    rw [← zero]

theorem addrCallback_transmit (s : State) (counted : s.slaveRxNbData ≠ 0 → s.slaveMode = .receive) :
    addrCallback s .transmit = { s with
      armed := some 0, slaveMode := .receive, slaveRxNbData := 0, trace := s.trace ++ untold s ++ [.seqReceive 0]} := by
  obtain ⟨mode,settled⟩ := settle_eq {s with armed := none} counted
  simp only [addrCallback,settled,seqReceive]
  rfl

theorem addrCallback_receive (s : State) (counted : s.slaveRxNbData ≠ 0 → s.slaveMode = .receive) :
    addrCallback s .receive =
      if s.onSlaveTransmit then { s with
        armed := none, slaveMode := .transmit, slaveRxNbData := 0, bufferSize := 0, accepted := [], inRequest := true,
        trace := s.trace ++ untold s ++ [.onSlaveTransmit]}
      else { s with
        armed := none, slaveMode := .transmit, slaveRxNbData := 0,
        trace := s.trace ++ untold s ++ [.seqTransmit (slice s.buffer 0 s.bufferSize)]} := by
  obtain ⟨mode,settled⟩ := settle_eq {s with armed := none} counted
  simp only [addrCallback,settled,seqTransmit]
  rfl

theorem step_cases (n : BufferSize) (s : State) (event : Event) (next : State) (taken : step n s event = some next) :
    s.outside = false ∧
      match event with
      | .write data => s.inRequest = true ∧ next = write n s data
      | .respond => s.inRequest = true ∧ next = respond s
      | .address direction => s.inRequest = false ∧ next = addrCallback s direction
      | .byte value => s.inRequest = false ∧ byte n s value = some next
      | .slaveTxCplt => s.inRequest = false ∧ next = slaveTxCpltCallback s
      | .listenCplt => s.inRequest = false ∧ next = listenCpltCallback s := by
  unfold step at taken
  split at taken
  · contradiction
  · rename_i sound
    refine ⟨by simpa using sound,?_⟩
    split at taken
    · rename_i inside
      cases event with
      | write data => exact ⟨inside,(Option.some.inj taken).symm⟩
      | respond => exact ⟨inside,(Option.some.inj taken).symm⟩
      | _ => contradiction
    · rename_i outer
      have outer : s.inRequest = false := by simpa using outer
      cases event with
      | write data => contradiction
      | respond => contradiction
      | byte value => exact ⟨outer,taken⟩
      | _ => exact ⟨outer,(Option.some.inj taken).symm⟩

theorem write_eq (n : BufferSize) (s : State) (data : List UInt8) :
    write n s data =
      if n.bytes < data.length % 65536 then s
      else { s with
        buffer := blit s.buffer s.bufferSize (data.take (data.length % 65536)),
        bufferSize := (s.bufferSize + data.length % 65536) % 256,
        outside := s.outside || decide (n.bytes < s.bufferSize + data.length % 65536),
        accepted := s.accepted ++ data } := by
  simp only [write,slaveWrite]
  split <;> rfl

end OpenPlc.Wire.Twi
