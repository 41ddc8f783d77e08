import Mathlib.Logic.Function.Basic
import Mathlib.Tactic.Common

/-! Ethernet reception (`ethernetif.c`, `openplc_net_port.c`) on the descriptor ring of
`stm32h7xx_hal_eth.c`. The program advances by one access to what the DMA and the
interrupt share with it. The link comes up at some time and then stays up. -/
namespace OpenPlc.Net

def rxDescCnt : Nat := 4

def rxBufferCnt : Nat := 12

def rxBuffLen : Nat := 1536

/-- A receive descriptor: `DESC3` and the buffer that is attached to it. -/
structure Desc where
  own : Bool
  fd : Bool
  ld : Bool
  packetLength : Nat
  backupAddr0 : Option Nat

structure Pbuf where
  buff : Nat
  len : Nat
  totLen : Nat

inductive RxAllocStatus
  | ok
  | error
deriving DecidableEq

/-- Where `ETH_UpdateDescriptor` goes back to. -/
inductive Caller
  | readData (descidx : Nat) (rxdataready : Bool)
  | start

/-- What the program does next: it is outside of `openplc_net_process`, or at one of the
places in it, with the local variables there. -/
inductive Control
  | outside
  | eventPending
  | eventClear
  | lowLevelInput
  | readData (descidx desccnt desccntmax : Nat) (rxdataready : Bool)
  | updateDescriptor (descidx desccount : Nat) (caller : Caller)
  | input (p : List Pbuf)
  | inputDone
  | checkTimeouts
  | checkLink

structure State where
  started : Bool
  desc : Nat → Desc
  dmaIdx : Nat
  inFrame : Bool
  rxDescIdx : Nat
  rxDescCount : Nat
  rxDataLength : Nat
  rxBuildDescIdx : Nat
  rxBuildDescCnt : Nat
  pRxStart : List Pbuf
  pool : List Nat
  rxAllocStatus : RxAllocStatus
  ethRxEvent : Bool
  held : List (List Pbuf)
  control : Control

def start : State :=
  { started := false, desc := fun _ => ⟨false,false,false,0,none⟩, dmaIdx := 0, inFrame := false, rxDescIdx := 0,
    rxDescCount := 0, rxDataLength := 0, rxBuildDescIdx := 0, rxBuildDescCnt := 0, pRxStart := [],
    pool := List.range rxBufferCnt, rxAllocStatus := .ok, ethRxEvent := false, held := [], control := .outside }

def incrRxDescIndex (inx : Nat) : Nat := if rxDescCnt ≤ inx + 1 then inx + 1 - rxDescCnt else inx + 1

/-- `HAL_ETH_RxLinkCallback` -/
def rxLink (chain : List Pbuf) (buff length : Nat) : List Pbuf :=
  (chain ++ [Pbuf.mk buff length 0]).map fun p => {p with totLen := (p.totLen + length) % 65536}

def pbufFreeCustom (s : State) (buff : Nat) : State :=
  { s with
    pool := buff :: s.pool,
    rxAllocStatus := if s.rxAllocStatus = .error then .ok else s.rxAllocStatus }

/-- `pbuf_free` of a chain that nobody else refers to. -/
def pbufFree (s : State) (p : List Pbuf) : State := p.foldl (fun s q => pbufFreeCustom s q.buff) s

/-- `HAL_ETH_RxAllocateCallback` -/
def rxAllocate (s : State) : State × Option Nat :=
  match s.pool with
  | buff :: rest => ({s with pool := rest},some buff)
  | [] => ({s with rxAllocStatus := .error},none)

/-- The body of the loop in `HAL_ETH_ReadData`. A null buffer has no pbuf to link. -/
def readDescriptor (s : State) (descidx desccnt desccntmax : Nat) (rxdataready : Bool) : Option State :=
  let d := s.desc descidx
  if d.fd = true ∨ s.pRxStart ≠ [] then
    let rxDescCount := if d.fd then 0 else s.rxDescCount
    let rxDataLength := if d.fd then 0 else s.rxDataLength
    let bufflength := if d.ld then (d.packetLength + 4294967296 - rxDataLength) % 4294967296 else rxBuffLen
    d.backupAddr0.map fun buff =>
      { s with
        pRxStart := rxLink s.pRxStart buff (bufflength % 65536),
        rxDescCount := rxDescCount + 1,
        rxDataLength := (rxDataLength + bufflength) % 4294967296,
        desc := Function.update s.desc descidx {d with backupAddr0 := none},
        control := .readData (incrRxDescIndex descidx) (desccnt + 1) desccntmax (d.ld || rxdataready) }
  else some {s with control := .readData (incrRxDescIndex descidx) (desccnt + 1) desccntmax rxdataready}

/-- The end of `HAL_ETH_ReadData`, and of `low_level_input` with it. -/
def readDone (s : State) (descidx : Nat) (rxdataready : Bool) : State :=
  let s := {s with rxDescIdx := descidx}
  if rxdataready then {s with control := .input s.pRxStart, pRxStart := []} else {s with control := .checkTimeouts}

/-- The end of `ETH_UpdateDescriptor`, and what its caller does then. -/
def updateDone (s : State) (descidx desccount : Nat) (caller : Caller) : State :=
  let s := if s.rxBuildDescCnt ≠ desccount then {s with rxBuildDescIdx := descidx, rxBuildDescCnt := desccount} else s
  match caller with
  | .readData descidx rxdataready => readDone s descidx rxdataready
  | .start => {s with started := true, ethRxEvent := true, control := .outside}

/-- Giving the descriptor to the DMA with its buffer. -/
def arm (s : State) (descidx desccount buff : Nat) (caller : Caller) : State :=
  { s with
    desc := Function.update s.desc descidx ⟨true,false,false,0,some buff⟩,
    control := .updateDescriptor (incrRxDescIndex descidx) (desccount - 1) caller }

def updateDescriptor (s : State) (descidx desccount : Nat) (caller : Caller) : State :=
  if desccount = 0 then updateDone s descidx desccount caller
  else
    match (s.desc descidx).backupAddr0 with
    | some buff => arm s descidx desccount buff caller
    | none =>
      match rxAllocate s with
      | (s,some buff) => arm s descidx desccount buff caller
      | (s,none) => updateDone s descidx desccount caller

/-- The program up to its next access, where it does not wait for an answer. -/
def run (s : State) : Option State :=
  match s.control with
  | .outside => some {s with control := .eventPending}
  | .eventPending => some {s with control := if s.ethRxEvent then .eventClear else .checkTimeouts}
  | .eventClear => some {s with ethRxEvent := false, control := .lowLevelInput}
  | .lowLevelInput =>
    if s.rxAllocStatus = .ok ∧ s.started then
      some {s with control := .readData s.rxDescIdx 0 (rxDescCnt - s.rxBuildDescCnt) false}
    else some {s with control := .checkTimeouts}
  | .readData descidx desccnt desccntmax rxdataready =>
    if (s.desc descidx).own = false ∧ desccnt < desccntmax ∧ rxdataready = false then
      readDescriptor s descidx desccnt desccntmax rxdataready
    else
      let s := {s with rxBuildDescCnt := s.rxBuildDescCnt + desccnt}
      if s.rxBuildDescCnt ≠ 0 then
        some {s with control := .updateDescriptor s.rxBuildDescIdx s.rxBuildDescCnt (.readData descidx rxdataready)}
      else some (readDone s descidx rxdataready)
  | .updateDescriptor descidx desccount caller => some (updateDescriptor s descidx desccount caller)
  | .input _ => none
  | .inputDone => some {s with control := .lowLevelInput}
  | .checkTimeouts => some {s with control := .checkLink}
  | .checkLink => none

inductive Event
  | receive (last interrupt : Bool) (length : Nat)
  | interrupt
  | run
  | input (accepted : Bool)
  | link (comesUp : Bool)
  | release (i j : Nat)

/-- The DMA closes a descriptor with a part of a frame. The last part raises the receive
interrupt, which runs before the program goes on. -/
def receive (s : State) (last interrupt : Bool) (length : Nat) : Option State :=
  if s.started ∧ (s.desc s.dmaIdx).own ∧ (last → interrupt) then
    some { s with
      desc := Function.update s.desc s.dmaIdx
        {s.desc s.dmaIdx with own := false, fd := !s.inFrame, ld := last, packetLength := length},
      dmaIdx := incrRxDescIndex s.dmaIdx,
      inFrame := !last,
      ethRxEvent := s.ethRxEvent || interrupt }
  else none

/-- The answer of `netif->input`: lwIP takes the chain, or leaves it to be freed. -/
def input (s : State) (accepted : Bool) : Option State :=
  match s.control with
  | .input p =>
    if accepted then some {s with held := s.held ++ [p], control := .inputDone}
    else some (pbufFree {s with control := .lowLevelInput} p)
  | _ => none

/-- `ethernet_link_check_state`, with `HAL_ETH_Start_IT` when the link comes up. -/
def link (s : State) (comesUp : Bool) : Option State :=
  match s.control with
  | .checkLink =>
    if comesUp ∧ s.started = false then
      some {s with rxBuildDescCnt := rxDescCnt, control := .updateDescriptor s.rxBuildDescIdx rxDescCnt .start}
    else some {s with control := .outside}
  | _ => none

/-- The places from which lwIP or the application frees pbufs. -/
def frees : Control → Bool
  | .outside | .input _ | .inputDone | .checkTimeouts => true
  | _ => false

def release (s : State) (i j : Nat) : Option State := do
  if frees s.control then
    let p ← s.held[i]?
    let q ← p[j]?
    return pbufFreeCustom {s with held := s.held.set i (p.eraseIdx j)} q.buff
  else none

def step (s : State) : Event → Option State
  | .receive last interrupt length => receive s last interrupt length
  | .interrupt => some {s with ethRxEvent := true}
  | .run => run s
  | .input accepted => input s accepted
  | .link comesUp => link s comesUp
  | .release i j => release s i j

end OpenPlc.Net
