import OpenPlc.Lib.Run
import OpenPlc.Lib.Slots

/-! The class `SPIClass` (`SPI.cpp`, `SPI.h`): the settings of each CS pin, and the
configuration that the peripheral has. -/
namespace OpenPlc.Spi

inductive BitOrder
  | lsbFirst
  | msbFirst
deriving DecidableEq

inductive SpiMode
  | mode0
  | mode1
  | mode2
  | mode3
deriving DecidableEq

inductive SPITransferMode
  | continue
  | last
deriving DecidableEq

/-- `pinCS` is -1 in a free slot. -/
structure SPISettings where
  pinCS : Int
  clk : Nat
  bOrder : BitOrder
  dMode : SpiMode
  noReceive : Bool
deriving DecidableEq

/-- `SPI_SPEED_CLOCK_DEFAULT` -/
def speedClockDefault : Nat := 4000000

/-- `SPISettings()` -/
def SPISettings.init : SPISettings :=
  { pinCS := -1, clk := speedClockDefault, bOrder := .msbFirst, dMode := .mode0, noReceive := false }

/-- One of `SPI_MODE0` to `SPI_MODE3`, and what else a mode may be given as. -/
def spiMode (dataMode : UInt8) : Option SpiMode :=
  if dataMode = 0x00 then some .mode0
  else if dataMode = 0x01 then some .mode1
  else if dataMode = 0x02 then some .mode2
  else if dataMode = 0x03 then some .mode3
  else none

/-- `SPISettings(clock, bitOrder, dataMode, noRecv)` -/
def SPISettings.make (clock : UInt32) (bitOrder : BitOrder) (dataMode : UInt8) (noRecv : Bool) : SPISettings :=
  { pinCS := -1, clk := clock.toNat, bOrder := bitOrder, dMode := (spiMode dataMode).getD .mode0, noReceive := noRecv }

/-- What a board and an object on it fix: `NUM_DIGITAL_PINS`, `digitalPinIsValid`,
`NB_SPI_SETTINGS`, whether the object has an SSEL pin, and the clock of its peripheral. -/
structure Board where
  numDigitalPins : UInt8
  digitalPinIsValid : UInt8 → Bool
  nbSpiSettings : Nat
  ssel : Bool
  clkFreq : Nat

/-- The arguments of `spi_init`, with NSS in hardware where there is an SSEL pin. -/
structure Configuration where
  speed : Nat
  mode : SpiMode
  msb : BitOrder
  nssHard : Bool
deriving DecidableEq

/-- Bytes that were clocked for a pin: under which configuration, with which settings in the
slot of the pin, and whether the CS line was an output and low. -/
structure Clocked where
  pin : UInt8
  configuration : Option Configuration
  settings : SPISettings
  selected : Bool
  bytes : List UInt8

structure State (board : Board) where
  spiSettings : Fin board.nbSpiSettings → SPISettings
  csPinConfig : Int
  configuration : Option Configuration
  output : UInt8 → Bool
  level : UInt8 → Bool
  clocked : List Clocked

/-- What the bus does in one transfer: the bytes that come back, and how many go before the
time is over. -/
structure Bus where
  received : Nat → UInt8
  inTime : Nat

variable {board : Board}

/-- The constructor, before which no pin was driven. -/
def start (board : Board) : State board :=
  { spiSettings := fun _ => .init, csPinConfig := -1, configuration := none, output := fun _ => false,
    level := fun _ => false, clocked := [] }

def csPinControlledByUser (board : Board) : UInt8 := board.numDigitalPins

def keys (s : State board) : Fin board.nbSpiSettings → Int := fun i => (s.spiSettings i).pinCS

def rejected (board : Board) (pin : UInt8) : Bool := decide (board.numDigitalPins < pin) && !board.digitalPinIsValid pin

/-- `pinIdx(_pin, GET_IDX)`, where no index stands for `NB_SPI_SETTINGS`. -/
def pinIdx (s : State board) (pin : UInt8) : Option (Fin board.nbSpiSettings) :=
  if rejected board pin then none else Slots.find (keys s) pin.toNat

def setSlot (s : State board) (i : Fin board.nbSpiSettings) (change : SPISettings → SPISettings) : State board :=
  {s with spiSettings := Function.update s.spiSettings i (change (s.spiSettings i))}

/-- `pinIdx(_pin, ADD_NEW_PIN)` -/
def pinIdxAdd (s : State board) (pin : UInt8) : State board × Option (Fin board.nbSpiSettings) :=
  if rejected board pin then (s,none)
  else
    match Slots.find (keys s) pin.toNat with
    | some i => (s,some i)
    | none =>
      match Slots.find (keys s) (-1) with
      | some i => (setSlot s i fun slot => {slot with pinCS := pin.toNat},some i)
      | none => (s,none)

/-- The settings of a slot that is given back. -/
def freed (slot : SPISettings) : SPISettings :=
  {slot with pinCS := -1, clk := speedClockDefault, bOrder := .msbFirst, dMode := .mode0}

def removePin (s : State board) (pin : UInt8) : State board :=
  if rejected board pin then s
  else
    {s with spiSettings := fun i => if (s.spiSettings i).pinCS = pin.toNat then freed (s.spiSettings i) else s.spiSettings i}

def removeAllPin (s : State board) : State board := {s with spiSettings := fun i => freed (s.spiSettings i)}

/-- Whether the class drives the CS pin. -/
def managed (board : Board) (pin : UInt8) : Bool := pin != csPinControlledByUser board && !board.ssel

def configurationOf (board : Board) (slot : SPISettings) : Configuration :=
  { speed := slot.clk, mode := slot.dMode, msb := slot.bOrder, nssHard := board.ssel }

/-- `spi_init` with the settings of a slot. -/
def spiInit (s : State board) (i : Fin board.nbSpiSettings) : State board :=
  {s with configuration := some (configurationOf board (s.spiSettings i))}

def digitalWrite (s : State board) (pin : UInt8) (high : Bool) : State board :=
  {s with level := Function.update s.level pin high}

/-- The CS pin of a new device, which is not selected. -/
def release (s : State board) (pin : UInt8) : State board :=
  if managed board pin then digitalWrite {s with output := Function.update s.output pin true} pin true else s

def begin (s : State board) (pin : UInt8) : State board :=
  match pinIdxAdd s pin with
  | (s,none) => s
  | (s,some i) => {spiInit (release s pin) i with csPinConfig := pin.toNat}

/-- The settings of a transaction, in the slot of its pin. -/
def given (settings slot : SPISettings) : SPISettings :=
  {slot with clk := settings.clk, dMode := settings.dMode, bOrder := settings.bOrder, noReceive := settings.noReceive}

def beginTransaction (s : State board) (pin : UInt8) (settings : SPISettings) : State board :=
  match pinIdxAdd s pin with
  | (s,none) => s
  | (s,some i) =>
    {spiInit (release (setSlot s i (given settings)) pin) i with csPinConfig := pin.toNat}

def endTransaction (s : State board) (pin : UInt8) : State board := {removePin s pin with csPinConfig := -1}

/-- `end`, with `spi_deinit`. -/
def finish (s : State board) : State board := {removeAllPin {s with configuration := none} with csPinConfig := -1}

/-- What the setters of single settings share: the peripheral gets the settings of this pin. -/
def change (s : State board) (pin : UInt8) (change : SPISettings → SPISettings) : State board :=
  match pinIdx s pin with
  | none => s
  | some i => spiInit (setSlot s i change) i

def setBitOrder (s : State board) (pin : UInt8) (bitOrder : BitOrder) : State board :=
  change s pin fun slot => {slot with bOrder := bitOrder}

def setDataMode (s : State board) (pin : UInt8) (mode : UInt8) : State board :=
  change s pin fun slot => {slot with dMode := (spiMode mode).getD slot.dMode}

def setClockDivider (s : State board) (pin : UInt8) (divider : UInt8) : State board :=
  change s pin fun slot =>
    {slot with clk := if divider = 0 then speedClockDefault else board.clkFreq / divider.toNat}

/-- `spi_transfer`: the bytes that are clocked and what the receive buffer holds then. -/
def exchange (bus : Bus) (skipReceive : Bool) (tx rx : List UInt8) : List UInt8 × List UInt8 :=
  let sent := tx.take (min (tx.length % 65536) (bus.inTime + 1))
  if skipReceive then (sent,rx) else (sent,(List.range sent.length).map bus.received ++ rx.drop sent.length)

/-- The peripheral is configured for another pin than before. -/
def configure (s : State board) (i : Fin board.nbSpiSettings) (pin : UInt8) : State board :=
  if (pin.toNat : Int) ≠ s.csPinConfig then {spiInit s i with csPinConfig := pin.toNat} else s

/-- A transfer with the peripheral configured. -/
def clock (s : State board) (i : Fin board.nbSpiSettings) (pin : UInt8) (tx rx : List UInt8) (mode : SPITransferMode)
    (bus : Bus) : State board × List UInt8 :=
  let s := if managed board pin then digitalWrite s pin false else s
  let (sent,rx) := exchange bus (s.spiSettings i).noReceive tx rx
  let s := {s with clocked := s.clocked ++ [⟨pin,s.configuration,s.spiSettings i,s.output pin && !s.level pin,sent⟩]}
  (if managed board pin ∧ mode = .last then digitalWrite s pin true else s,rx)

/-- What the transfers share from the first use of the index on. -/
def transferSlot (s : State board) (i : Fin board.nbSpiSettings) (pin : UInt8) (tx rx : List UInt8) (mode : SPITransferMode)
    (bus : Bus) : State board × List UInt8 :=
  clock (configure s i pin) i pin tx rx mode bus

def transfer (s : State board) (pin : UInt8) (data : UInt8) (mode : SPITransferMode) (bus : Bus) : State board × UInt8 :=
  match pinIdx s pin with
  | none => (s,0)
  | some i =>
    let (s,rx) := transferSlot s i pin [data] [0] mode bus
    (s,rx.headD 0)

/-- The bytes of a 16-bit word as they lie in memory, swapped for `MSBFIRST`. -/
def word (order : BitOrder) (data : UInt16) : List UInt8 :=
  let bytes := [data.toUInt8,(data >>> 8).toUInt8]
  if order = .msbFirst then bytes.reverse else bytes

def unword (order : BitOrder) (bytes : List UInt8) : UInt16 :=
  let bytes := if order = .msbFirst then bytes.reverse else bytes
  (bytes.headD 0).toUInt16 ||| ((bytes.getD 1 0).toUInt16 <<< 8)

def transfer16 (s : State board) (pin : UInt8) (data : UInt16) (mode : SPITransferMode) (bus : Bus) :
    State board × UInt16 :=
  match pinIdx s pin with
  | none => (s,0)
  | some i =>
    let order := (s.spiSettings i).bOrder
    let (s,rx) := transferSlot s i pin (word order data) [0,0] mode bus
    (s,unword order rx)

/-- `transfer` with one buffer, which is not `NULL`. -/
def transferBuffer (s : State board) (pin : UInt8) (buf : List UInt8) (mode : SPITransferMode) (bus : Bus) :
    State board × List UInt8 :=
  if buf.length = 0 then (s,buf)
  else
    match pinIdx s pin with
    | none => (s,buf)
    | some i => transferSlot s i pin buf buf mode bus

/-- `transfer` with a buffer for each direction, where none is `NULL` and the one for the
received bytes is as long as the other. -/
def transferBuffers (s : State board) (pin : UInt8) (bufout bufin : List UInt8) (mode : SPITransferMode) (bus : Bus) :
    State board × List UInt8 :=
  if bufout.length = 0 then (s,bufin)
  else
    match pinIdx s pin with
    | none => (s,bufin)
    | some i => transferSlot s i pin bufout bufin mode bus

inductive Event
  | begin (pin : UInt8)
  | beginTransaction (pin : UInt8) (settings : SPISettings)
  | endTransaction (pin : UInt8)
  | finish
  | setBitOrder (pin : UInt8) (bitOrder : BitOrder)
  | setDataMode (pin : UInt8) (mode : UInt8)
  | setClockDivider (pin : UInt8) (divider : UInt8)
  | transfer (pin data : UInt8) (mode : SPITransferMode) (bus : Bus)
  | transfer16 (pin : UInt8) (data : UInt16) (mode : SPITransferMode) (bus : Bus)
  | transferBuffer (pin : UInt8) (buf : List UInt8) (mode : SPITransferMode) (bus : Bus)
  | transferBuffers (pin : UInt8) (bufout bufin : List UInt8) (mode : SPITransferMode) (bus : Bus)

/-- Every call is possible at every time. -/
def step (s : State board) : Event → Option (State board)
  | .begin pin => some (begin s pin)
  | .beginTransaction pin settings => some (beginTransaction s pin settings)
  | .endTransaction pin => some (endTransaction s pin)
  | .finish => some (finish s)
  | .setBitOrder pin bitOrder => some (setBitOrder s pin bitOrder)
  | .setDataMode pin mode => some (setDataMode s pin mode)
  | .setClockDivider pin divider => some (setClockDivider s pin divider)
  | .transfer pin data mode bus => some (transfer s pin data mode bus).1
  | .transfer16 pin data mode bus => some (transfer16 s pin data mode bus).1
  | .transferBuffer pin buf mode bus => some (transferBuffer s pin buf mode bus).1
  | .transferBuffers pin bufout bufin mode bus => some (transferBuffers s pin bufout bufin mode bus).1

end OpenPlc.Spi
