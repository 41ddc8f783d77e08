import OpenPlc.Text.WString
import OpenPlc.Wire.Twi

/-! The class `TwoWire` (`Wire.cpp`), driven by the calls of its user and by what its slave
is told. A call whose allocation fails does not return, since `_Error_Handler` does not. -/
namespace OpenPlc.Wire.TwoWire
open CString
open Text (Alloc allocated)

def bufferLength : Nat := 32

/-- `WIRE_MAX_TX_BUFF_LENGTH`, which 16 bits must hold. -/
structure TxLimit where
  length : Nat
  small : length < 65536

theorem default_short : 1024 < 65536 := by decide

def defaultLimit : TxLimit := ⟨1024,default_short⟩

inductive Status
  | ok
  | timeout
  | dataTooLong
  | nackAddr
  | nackData
  | error
  | busy

/-- What `endTransmission` gave to the HAL, and which writes had been accepted for it. -/
structure Transmission where
  address : UInt8
  payload : List UInt8
  accepted : List UInt8

/-- `onReceive` and `onRequest` tell whether the user registered these callbacks, and
`listening` whether the HAL listens for a master. Once a byte `outside` of a buffer was
read or written, nothing is known any more. -/
structure State where
  rxBuffer : Option (List UInt8)
  rxBufferAllocated : Nat
  rxBufferIndex : Nat
  rxBufferLength : Nat
  txAddress : UInt8
  txBuffer : Option (List UInt8)
  txBufferAllocated : Nat
  txDataSize : Nat
  transmitting : Bool
  isMaster : Bool
  onReceive : Bool
  onRequest : Bool
  listening : Bool
  i2c : Twi.State
  outside : Bool
  accepted : List UInt8
  sent : List Transmission

/-- A static object before its first `begin`. -/
def start : State :=
  { rxBuffer := none, rxBufferAllocated := 0, rxBufferIndex := 0, rxBufferLength := 0, txAddress := 0, txBuffer := none,
    txBufferAllocated := 0, txDataSize := 0, transmitting := false, isMaster := false, onReceive := false,
    onRequest := false, listening := false, i2c := Twi.start (fun _ => 0) false, outside := false, accepted := [],
    sent := [] }

def masterAddress : UInt8 := 0x01

/-- The buffer of an object that is begun again is lost. -/
def begin (s : State) (address : UInt8) : State :=
  { s with
    rxBufferIndex := 0, rxBufferLength := 0, rxBuffer := none, rxBufferAllocated := 0, txDataSize := 0, txAddress := 0,
    txBuffer := none, txBufferAllocated := 0, onRequest := false, transmitting := false,
    isMaster := address == masterAddress, listening := address != masterAddress,
    i2c := {s.i2c with slaveRxNbData := 0, slaveMode := .listen},
    accepted := [] }

/-- `end` -/
def finish (s : State) : State :=
  { s with
    listening := false, txBuffer := none, txBufferAllocated := 0, rxBuffer := none, rxBufferAllocated := 0 }

/-- A buffer after `realloc`, when it has to grow, with its size in 16 bits. -/
def grown (buffer : Option (List UInt8)) (held length : Nat) (answer : Alloc) : Option (Option (List UInt8) × Nat) :=
  if held < length then
    let length := if length < bufferLength then bufferLength else length
    (allocated answer (buffer.getD []) length).map fun block => (some block,length % 65536)
  else some (buffer,held)

def allocateRxBuffer (s : State) (length : Nat) (answer : Alloc) : Option State :=
  (grown s.rxBuffer s.rxBufferAllocated length answer).map fun (buffer,held) =>
    {s with rxBuffer := buffer, rxBufferAllocated := held}

/-- The result is the length asked for, or 0 where that is too much. -/
def allocateTxBuffer (limit : TxLimit) (s : State) (length : Nat) (answer : Alloc) : Option (State × Nat) :=
  if limit.length < length then some (s,0)
  else
    (grown s.txBuffer s.txBufferAllocated length answer).map fun (buffer,held) =>
      ({s with txBuffer := buffer, txBufferAllocated := held},length)

/-- `memset` over the whole buffer. -/
def cleared (buffer : Option (List UInt8)) (held : Nat) : Option (List UInt8) :=
  buffer.map fun block => List.replicate held 0 ++ block.drop held

def resetRxBuffer (s : State) : State := {s with rxBuffer := cleared s.rxBuffer s.rxBufferAllocated}

def resetTxBuffer (s : State) : State := {s with txBuffer := cleared s.txBuffer s.txBufferAllocated}

def beginTransmission (s : State) (address : UInt8) : State :=
  {s with transmitting := true, txAddress := address <<< 1, txDataSize := 0, accepted := []}

/-- `memcpy` behind what the buffer holds already. -/
def store (s : State) (data : List UInt8) : State :=
  match s.txBuffer.bind fun block => put block s.txDataSize data with
  | some block =>
    { s with
      txBuffer := some block, txDataSize := (s.txDataSize + data.length) % 65536, accepted := s.accepted ++ data }
  | none => {s with outside := true}

/-- `write(data, quantity)`, where the sum of two sizes has 32 bits. -/
def write (n : Twi.BufferSize) (limit : TxLimit) (s : State) (data : List UInt8) (answer : Alloc) : Option (State × Nat) :=
  if s.transmitting then
    (allocateTxBuffer limit s ((s.txDataSize + data.length) % 4294967296) answer).map fun (s,ret) =>
      if ret = 0 then (s,0) else (store s data,data.length)
  else
    let (i2c,ok) := Twi.slaveWrite n s.i2c data
    some ({s with i2c := i2c},if ok then data.length else 0)

/-- `write(data)` -/
def writeByte (n : Twi.BufferSize) (limit : TxLimit) (s : State) (data : UInt8) (answer : Alloc) :
    Option (State × Nat) :=
  write n limit s [data] answer

/-- `i2c_master_write` with the transmit buffer, whatever becomes of it on the bus. -/
def masterWrite (s : State) : State :=
  let block := s.txBuffer.getD []
  { s with
    outside := s.outside || decide (block.length < s.txDataSize),
    sent := s.sent ++ [⟨s.txAddress,block.take s.txDataSize,s.accepted⟩] }

def endTransmission (s : State) (status : Status) : State × Nat :=
  if s.isMaster then
    let ret := match status with
      | .ok => 0
      | .dataTooLong => 1
      | .nackAddr => 2
      | .nackData => 3
      | _ => 4
    ({resetTxBuffer (masterWrite s) with txDataSize := 0, transmitting := false, accepted := []},ret)
  else (s,4)

/-- The loop of `requestFrom` over the internal address. -/
def writeAddress (n : Twi.BufferSize) (limit : TxLimit) (s : State) (iaddress : UInt32) (answers : Nat → Alloc) :
    Nat → Option State
  | 0 => some s
  | isize + 1 =>
    (writeByte n limit s (UInt8.ofNat (iaddress.toNat >>> (isize * 8))) (answers isize)).bind fun (s,_) =>
      writeAddress n limit s iaddress answers isize

/-- Bytes that are put at the begin of the receive buffer. -/
def load (s : State) (bytes : List UInt8) : State :=
  match put (s.rxBuffer.getD []) 0 bytes with
  | some block => {s with rxBuffer := s.rxBuffer.map fun _ => block}
  | none => {s with outside := true}

/-- What the bus answers to a request: the status of the internal address and of the
reading, and the bytes that were read before it ended. -/
structure Answer where
  addressed : Status
  status : Status
  received : List UInt8

def requestFrom (n : Twi.BufferSize) (limit : TxLimit) (s : State) (address quantity : UInt8) (iaddress : UInt32)
    (isize : UInt8) (answer : Alloc) (answers : Nat → Alloc) (bus : Answer) : Option (State × Nat) :=
  if s.isMaster then
    (allocateRxBuffer s quantity.toNat answer).bind fun s =>
      let addressed :=
        if 0 < isize.toNat then
          let isize := if 3 < isize.toNat then 3 else isize.toNat
          (writeAddress n limit (beginTransmission s address) iaddress answers isize).map fun s =>
            (endTransmission s bus.addressed).1
        else some s
      addressed.map fun s =>
        let s := load s (bus.received.take quantity.toNat)
        let read := match bus.status with
          | .ok => quantity.toNat
          | _ => 0
        ({s with rxBufferIndex := 0, rxBufferLength := read},read)
  else some (s,0)

def available (s : State) : Int := s.rxBufferLength - s.rxBufferIndex

def read (s : State) : State × Int :=
  if s.rxBufferIndex < s.rxBufferLength then
    match (s.rxBuffer.getD [])[s.rxBufferIndex]? with
    | some value => ({s with rxBufferIndex := (s.rxBufferIndex + 1) % 65536},value.toNat)
    | none => ({s with outside := true},-1)
  else (s,-1)

def peek (s : State) : State × Int :=
  if s.rxBufferIndex < s.rxBufferLength then
    match (s.rxBuffer.getD [])[s.rxBufferIndex]? with
    | some value => (s,value.toNat)
    | none => ({s with outside := true},-1)
  else (s,-1)

/-- What was written for the transmission is thrown away. -/
def flush (s : State) : State :=
  resetTxBuffer {resetRxBuffer {s with rxBufferIndex := 0, rxBufferLength := 0} with txDataSize := 0, accepted := []}

/-- Where the user registered a callback and has read everything, the bytes are copied. -/
def onReceiveService (s : State) (inBytes : List UInt8) (answer : Alloc) : Option State :=
  if s.onReceive then
    if s.rxBufferLength ≤ s.rxBufferIndex then
      (allocateRxBuffer s inBytes.length answer).map fun s =>
        {load s inBytes with rxBufferIndex := 0, rxBufferLength := inBytes.length}
    else some s
  else some s

def onRequestService (s : State) : State := if s.onRequest then {s with txDataSize := 0, accepted := []} else s

/-- The calls of the user, also those in its callbacks, and what the slave is told. -/
inductive Event
  | begin (address : UInt8)
  | finish
  | beginTransmission (address : UInt8)
  | write (data : List UInt8) (answer : Alloc)
  | endTransmission (status : Status)
  | requestFrom (address quantity : UInt8) (iaddress : UInt32) (isize : UInt8) (answer : Alloc) (answers : Nat → Alloc)
      (bus : Answer)
  | available
  | read
  | peek
  | flush
  | onReceive (registered : Bool)
  | onRequest (registered : Bool)
  | received (bytes : List UInt8) (answer : Alloc)
  | requested
  | answered

/-- A block has a size of 32 bits, and a slave receives no more than its buffer holds. -/
def step (n : Twi.BufferSize) (limit : TxLimit) (s : State) (event : Event) : Option State :=
  if s.outside ∨ s.i2c.outside then none
  else
    match event with
    | .begin address => some (begin s address)
    | .finish => some (finish s)
    | .beginTransmission address => some (beginTransmission s address)
    | .write data answer => if data.length < 4294967296 then (write n limit s data answer).map Prod.fst else none
    | .endTransmission status => some (endTransmission s status).1
    | .requestFrom address quantity iaddress isize answer answers bus =>
      (requestFrom n limit s address quantity iaddress isize answer answers bus).map Prod.fst
    | .available => some s
    | .read => some (read s).1
    | .peek => some (peek s).1
    | .flush => some (flush s)
    | .onReceive registered => some {s with onReceive := registered}
    | .onRequest registered => some {s with onRequest := registered}
    | .received bytes answer =>
      if s.listening ∧ bytes.length ≤ n.bytes then onReceiveService s bytes answer else none
    | .requested => if s.listening then some (onRequestService {s with i2c := {s.i2c with bufferSize := 0}}) else none
    | .answered => if s.listening then some {s with i2c := Twi.slaveTxCpltCallback s.i2c} else none

end OpenPlc.Wire.TwoWire
