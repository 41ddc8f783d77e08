import OpenPlc.Usb.ReceiveRun

/-! Reception over USB CDC (`usbd_cdc_if.c`, `usbd_cdc.c`, `USBSerial.cpp`): the host
sends a packet while the OUT endpoint is enabled, the interrupt commits it and
enables the endpoint again, and reader calls resume a reception that stopped. -/
namespace OpenPlc.Usb.Reception
open Memory ReceiveQueue ReceiveRun

/-- The `USBSerial` calls that take bytes, with the `rest` still to be read. -/
inductive Call
  | read
  | readBytes (rest : Nat)
  | readBytesUntil (terminator : UInt8) (rest : Nat)

inductive Reader
  | idle
  | calling (call : Call)
  | loaded (call : Call) (write : Nat)
  | resuming (call : Call) (finished : Bool)

/-- The device. `armed` is the pointer the enabled OUT endpoint will copy the next
packet to (`some none` is enabled with a null pointer); `arrived` is a packet whose
`DataOut` callback has not run. `reserved`, `accepted` and `obtained` are ghosts. -/
structure State where
  queue : Queue
  rxBuffer : Option Nat
  receivePended : Bool
  armed : Option (Option Nat)
  arrived : Option (Option Nat × List UInt8)
  reader : Reader
  reserved : Option Nat
  accepted : List UInt8
  obtained : List UInt8

inductive Event
  | hostPacket (data : List UInt8)
  | receiveCallback
  | call (call : Call)
  | load
  | complete
  | resume (timedOut : Bool)

/-- `USBD_LL_PrepareReceive`: the endpoint takes one more packet whatever the pointer. -/
def prepareReceive (s : State) (pointer : Option Nat) : State := {s with armed := some pointer}

def setRxBuffer (s : State) (pointer : Option Nat) : State := {s with rxBuffer := pointer}

def receivePacket (s : State) : State := prepareReceive s s.rxBuffer

def clearBuffer (s : State) : State := prepareReceive s none

/-- `USBD_CDC_Init` of the interface, then of the class that arms the endpoint. -/
def start (m : PacketSize) (queue : Queue) : State :=
  let block := (reserveBlock m (init m queue)).2
  receivePacket {
    queue := (reserveBlock m (init m queue)).1, rxBuffer := block, receivePended := true,
    armed := none, arrived := none, reader := .idle, reserved := block, accepted := [], obtained := []}

def resumeReceive (m : PacketSize) (s : State) : State × Bool :=
  if s.receivePended then (s,false)
  else match reserveBlock m s.queue with
    | (queue,some block) =>
      (receivePacket (setRxBuffer {s with queue := queue, reserved := some block, receivePended := true}
        (some block)),true)
    | (queue,none) => ({s with queue := queue},false)

def receive (m : PacketSize) (s : State) (len : Nat) : State :=
  let s := {s with queue := commitBlock m s.queue (len % 65536), reserved := none, receivePended := false}
  match resumeReceive m s with
  | (s,true) => s
  | (s,false) => clearBuffer s

def Call.queueCall : Call → ReaderCall
  | .read => .dequeue
  | .readBytes rest => .read rest
  | .readBytesUntil terminator rest => .readUntil terminator rest

/-- `auto rest = static_cast<uint16_t>(length)` -/
def Call.entered : Call → Call
  | .read => .read
  | .readBytes length => .readBytes (length % 65536)
  | .readBytesUntil terminator length => .readBytesUntil terminator (length % 65536)

/-- What remains of a call after one round, and whether its loop is over. -/
def Call.advance (call : Call) (answer : Answer) : Call × Bool :=
  match call, answer with
  | .readBytes rest, .bytes copied => (.readBytes (rest - copied.length),rest - copied.length = 0)
  | .readBytesUntil terminator rest, .scanned _ scan =>
    (.readBytesUntil terminator (rest - scan.1.length),scan.2 || rest - scan.1.length = 0)
  | call, _ => (call,true)

def step (m : PacketSize) (s : State) : Event → Option State
  | .hostPacket data =>
    match s.armed, s.arrived with
    | some pointer, none =>
      if 1 ≤ data.length ∧ data.length ≤ m.bytes then
        let buffer := match pointer with
          | some block => blit s.queue.buffer block data
          | none => s.queue.buffer
        some {s with
          queue := {s.queue with buffer := buffer}, armed := none, arrived := some (pointer,data),
          accepted := s.accepted ++ data}
      else none
    | _, _ => none
  | .receiveCallback =>
    match s.arrived with
    | some (_,data) => some (receive m {s with arrived := none} data.length)
    | none => none
  | .call call =>
    match s.reader with
    | .idle => some {s with reader := .calling call.entered}
    | _ => none
  | .load =>
    match s.reader with
    | .calling call => some {s with reader := .loaded call s.queue.write}
    | _ => none
  | .complete =>
    match s.reader with
    | .loaded call write =>
      let (queue,answer) := perform call.queueCall write s.queue
      let (call,finished) := call.advance answer
      some {s with queue := queue, reader := .resuming call finished, obtained := s.obtained ++ answer.obtained}
    | _ => none
  | .resume timedOut =>
    match s.reader with
    | .resuming call finished =>
      let (s,_) := resumeReceive m s
      some {s with reader := if finished || timedOut then .idle else .calling call}
    | _ => none

/-- A whole packet still fits after the `size` bytes in the reserved block are committed. -/
def roomAfter (m : PacketSize) (queue : Queue) (size : Nat) : Prop :=
  let write := if queue.write + size = bufferSize m then 0 else queue.write + size
  (queue.read ≤ write ∧ (write + m.bytes < bufferSize m ∨ (write + m.bytes = bufferSize m ∧ 0 < queue.read) ∨
    m.bytes < queue.read)) ∨
  (write < queue.read ∧ write + m.bytes < queue.read)

/-- The interrupt of an arrived packet runs while the queue has room for one more. -/
def Room (m : PacketSize) (s : State) : Event → Prop
  | .receiveCallback => ∀ pointer data, s.arrived = some (pointer,data) → roomAfter m s.queue data.length
  | _ => True

def arrivedBytes (s : State) : List UInt8 := (s.arrived.map Prod.snd).getD []

/-- Flow control as the reader and the host see it. -/
structure Delivery (m : PacketSize) (s : State) : Prop where
  ordered : s.obtained <+: s.accepted
  whole : s.obtained ++ unread s.queue ++ arrivedBytes s = s.accepted
  armed_reserved : ∀ pointer, s.armed = some pointer → ∃ block, pointer = some block ∧ s.reserved = some block
  arrived_reserved : ∀ pointer data, s.arrived = some (pointer,data) →
    ∃ block, pointer = some block ∧ s.reserved = some block ∧ slice s.queue.buffer block data.length = data
  held_off : s.reserved = none → (reserveBlock m s.queue).2 = none → s.armed = none
  resumed : s.reader = .idle → s.armed = none → s.arrived = none → (reserveBlock m s.queue).2 = none

/-- While every interrupt finds room, a reserved block is always in use: the endpoint
is armed with it, or the packet that arrived lies at its start. -/
structure Inv (m : PacketSize) (s : State) : Prop where
  layout : Layout m s.queue s.reserved
  stream : ∃ fifo : Fifo UInt8, fifo.accepted = s.accepted ∧ fifo.delivered = s.obtained ∧
    fifo.pending = unread s.queue ++ arrivedBytes s
  pended : s.receivePended = true
  inUse : ∃ block, s.reserved = some block ∧ ((s.armed = some (some block) ∧ s.arrived = none) ∨
    (s.armed = none ∧ ∃ data, s.arrived = some (some block,data) ∧ data.length ≤ m.bytes ∧
      slice s.queue.buffer block data.length = data))
  snapshot : ∀ call write, s.reader = .loaded call write →
    Snapshot s.queue write ∧ write + m.bytes ≤ bufferSize m

theorem reserve_none_iff (m : PacketSize) (queue : Queue) :
    (reserveBlock m queue).2 = none ↔ ¬ RoomBehind m queue ∧ ¬ RoomInFront m queue := by
  rcases reserve_cases m queue with ⟨room,same⟩ | ⟨room,same⟩ | ⟨behind,front,same⟩ <;> simp_all

theorem roomAfter_iff (m : PacketSize) (queue : Queue) (block size : Nat)
    (layout : Layout m queue (some block)) (small : size ≤ m.bytes) :
    roomAfter m queue size ↔ (reserveBlock m (commitBlock m queue size)).2 ≠ none := by
  have positive := m.positive
  rw [ne_eq,reserve_none_iff]
  rcases commit_cases m queue block size layout small with ⟨same,short,_⟩ | ⟨same,last,_,_,_⟩
  · have partial_ : queue.write + size ≠ bufferSize m := by omega
    simp only [same,roomAfter,partial_,if_false,RoomBehind,RoomInFront]
    simp only [bufferSize]
    omega
  · simp only [same,roomAfter,last,if_true,RoomBehind,RoomInFront]
    simp only [bufferSize]
    omega

theorem start_inv (m : PacketSize) (queue : Queue) : Inv m (start m queue) := by
  have positive := m.positive
  have layout := reserve_layout m (init m queue) (init_layout m queue)
  have room : (reserveBlock m (init m queue)).2 ≠ none := by
    rw [ne_eq,reserve_none_iff]
    simp only [RoomBehind,init,bufferSize]
    omega
  obtain ⟨block,reserved⟩ := Option.ne_none_iff_exists'.mp room
  refine ⟨layout,⟨Fifo.empty,rfl,rfl,?_⟩,rfl,?_,?_⟩
  · simp [start,receivePacket,prepareReceive,arrivedBytes,reserve_unread,init_unread,Fifo.empty]
  · exact ⟨block,reserved,Or.inl ⟨by simp [start,receivePacket,prepareReceive,reserved],rfl⟩⟩
  · intro call write loaded
    simp [start,receivePacket,prepareReceive] at loaded

/-- The callback of an arrived packet commits it, and either the endpoint is armed
with a newly reserved block or, without room, it is armed with a null pointer. -/
theorem receive_spec (m : PacketSize) (s : State) (inv : Inv m s) (pointer : Option Nat) (data : List UInt8)
    (arrived : s.arrived = some (pointer,data)) :
    (roomAfter m s.queue data.length → Inv m (receive m {s with arrived := none} data.length)) ∧
    (¬ roomAfter m s.queue data.length →
      (receive m {s with arrived := none} data.length).armed = some none) := by
  obtain ⟨block,reserved,use⟩ := inv.inUse
  have layout : Layout m s.queue (some block) := reserved ▸ inv.layout
  obtain ⟨small,written⟩ : data.length ≤ m.bytes ∧ slice s.queue.buffer block data.length = data := by
    rcases use with ⟨_,absent⟩ | ⟨_,same,present,small,written⟩
    · simp [absent] at arrived
    · rw [arrived] at present
      cases present
      exact ⟨small,written⟩
  have narrow : data.length % 65536 = data.length := by
    have fits := m.fits
    exact Nat.mod_eq_of_lt (by omega)
  have committed := commit_layout m s.queue block data.length layout small
  have appended := commit_unread m s.queue block data.length layout small
  rw [written] at appended
  rw [roomAfter_iff m s.queue block data.length layout small]
  simp only [receive,resumeReceive,narrow]
  have stepped := reserve_layout m _ committed
  have kept := reserve_unread m (commitBlock m s.queue data.length)
  have early (write : Nat) (bound : write + m.bytes ≤ bufferSize m) (seen : Snapshot s.queue write) :=
    snapshot_reserve m _ write bound (snapshot_commit m s.queue block data.length write layout small seen)
  generalize reserveBlock m (commitBlock m s.queue data.length) = result at *
  obtain ⟨queue,next⟩ := result
  cases next with
  | none => simp [clearBuffer,prepareReceive]
  | some next =>
    refine ⟨fun _ => ?_,by simp⟩
    obtain ⟨fifo,accepted,delivered,pending⟩ := inv.stream
    refine ⟨stepped,⟨fifo,accepted,delivered,?_⟩,rfl,⟨next,rfl,Or.inl ⟨rfl,rfl⟩⟩,?_⟩
    · simp [pending,receivePacket,prepareReceive,setRxBuffer,arrivedBytes,kept,appended,arrived]
    · intro call write loaded
      obtain ⟨seen,bound⟩ := inv.snapshot call write loaded
      exact ⟨early write bound seen,bound⟩

theorem hostPacket_inv (m : PacketSize) (s next : State) (data : List UInt8) (inv : Inv m s)
    (taken : step m s (.hostPacket data) = some next) : Inv m next := by
  obtain ⟨block,reserved,use⟩ := inv.inUse
  obtain ⟨armed,absent⟩ : s.armed = some (some block) ∧ s.arrived = none := by
    rcases use with here | ⟨off,_⟩
    · exact here
    · simp [step,off] at taken
  simp only [step,armed,absent] at taken
  split at taken
  · rename_i sized
    cases Option.some.inj taken
    have layout : Layout m s.queue (some block) := reserved ▸ inv.layout
    have kept := fill_unread m s.queue block data layout sized.2
    obtain ⟨fifo,accepted,delivered,pending⟩ := inv.stream
    have moved : Layout m {s.queue with buffer := blit s.queue.buffer block data} s.reserved := by
      obtain ⟨a,b,c,d,e,f⟩ := inv.layout
      exact ⟨a,b,c,d,e,f⟩
    refine ⟨moved,⟨fifo.push data,?_,delivered,?_⟩,inv.pended,?_,inv.snapshot⟩
    · simp [accepted]
    · simp [pending,arrivedBytes,absent,kept]
    · exact ⟨block,reserved,Or.inr ⟨rfl,data,rfl,sized.2,slice_blit s.queue.buffer block data⟩⟩
  · contradiction

theorem complete_inv (m : PacketSize) (s next : State) (inv : Inv m s)
    (taken : step m s .complete = some next) : Inv m next := by
  simp only [step] at taken
  split at taken
  · rename_i call write loaded
    cases Option.some.inj taken
    obtain ⟨seen,_⟩ := inv.snapshot call write loaded
    obtain ⟨after,parted⟩ := perform_spec call.queueCall write s.queue inv.layout seen
    have buffer := perform_buffer call.queueCall write s.queue
    obtain ⟨fifo,accepted,delivered,pending⟩ := inv.stream
    refine ⟨after,⟨fifo.pop (perform call.queueCall write s.queue).2.obtained.length,accepted,?_,?_⟩,
      inv.pended,?_,by simp⟩
    · rw [Fifo.pop_delivered,delivered,pending,← parted,List.append_assoc,List.take_left]
    · rw [Fifo.pop_pending,pending,← parted,List.append_assoc,List.drop_left]
      rfl
    · simpa only [buffer] using inv.inUse
  · contradiction

theorem reader_inv (m : PacketSize) (s next : State) (event : Event) (inv : Inv m s)
    (reader : event matches .call _ | .load | .resume _) (taken : step m s event = some next) : Inv m next := by
  cases event with
  | call call =>
    simp only [step] at taken
    split at taken
    · cases Option.some.inj taken
      exact ⟨inv.layout,inv.stream,inv.pended,inv.inUse,by simp⟩
    · contradiction
  | load =>
    simp only [step] at taken
    split at taken
    · cases Option.some.inj taken
      refine ⟨inv.layout,inv.stream,inv.pended,inv.inUse,?_⟩
      intro call' write loaded
      obtain ⟨_,rfl⟩ : _ ∧ s.queue.write = write := by simpa using loaded
      obtain ⟨block,reserved,_⟩ := inv.inUse
      exact ⟨snapshot_load m s.queue s.reserved inv.layout,
        load_early m s.queue s.reserved inv.layout (by simp [reserved])⟩
    · contradiction
  | resume timedOut =>
    simp only [step,resumeReceive,inv.pended,if_true] at taken
    split at taken
    · rename_i call finished resuming
      cases Option.some.inj taken
      refine ⟨inv.layout,inv.stream,rfl,inv.inUse,?_⟩
      intro call' write loaded
      dsimp only at loaded
      split at loaded <;> contradiction
    · contradiction
  | _ => contradiction

theorem step_inv (m : PacketSize) (s : State) (event : Event) (next : State) (inv : Inv m s)
    (room : Room m s event) (taken : step m s event = some next) : Inv m next := by
  cases event with
  | hostPacket data => exact hostPacket_inv m s next data inv taken
  | receiveCallback =>
    simp only [step] at taken
    split at taken
    · rename_i pointer data arrived
      cases Option.some.inj taken
      exact (receive_spec m s inv pointer data arrived).1 (room pointer data arrived)
    · contradiction
  | complete => exact complete_inv m s next inv taken
  | call call => exact reader_inv m s next _ inv rfl taken
  | load => exact reader_inv m s next _ inv rfl taken
  | resume timedOut => exact reader_inv m s next _ inv rfl taken

theorem inv_delivery (m : PacketSize) (s : State) (inv : Inv m s) : Delivery m s := by
  obtain ⟨fifo,accepted,delivered,pending⟩ := inv.stream
  obtain ⟨block,reserved,use⟩ := inv.inUse
  have ledger := fifo.ledger
  rw [accepted,delivered,pending,← List.append_assoc] at ledger
  refine ⟨⟨unread s.queue ++ arrivedBytes s,by rw [← List.append_assoc,ledger]⟩,ledger,?_,?_,?_,?_⟩
  · intro pointer armed
    rcases use with ⟨here,_⟩ | ⟨off,_⟩
    · exact ⟨block,Option.some.inj (armed.symm.trans here),reserved⟩
    · simp [off] at armed
  · intro pointer data arrived
    rcases use with ⟨_,absent⟩ | ⟨_,same,present,_,written⟩
    · simp [absent] at arrived
    · rw [arrived] at present
      cases present
      exact ⟨block,rfl,reserved,written⟩
  · intro free _
    simp [free] at reserved
  · intro _ off absent
    rcases use with ⟨here,_⟩ | ⟨_,same,present,_⟩
    · simp [off] at here
    · simp [absent] at present

/-- Reception is flow controlled in exactly the runs in which the ring has room for a
whole packet whenever an arrived packet is committed. -/
theorem reception_iff_room (m : PacketSize) (queue : Queue) (events : List Event) :
    Run.Throughout (Delivery m) (step m) (start m queue) events ↔
      Run.Meets (Room m) (step m) (start m queue) events := by
  apply Run.throughout_iff_meets (Delivery m) (Inv m) (Room m) (inv_delivery m) (step_inv m)
  · intro s event next inv full taken delivered
    cases event with
    | receiveCallback =>
      simp only [step] at taken
      split at taken
      · rename_i pointer data arrived
        cases Option.some.inj taken
        have crowded : ¬ roomAfter m s.queue data.length := by
          intro room
          apply full
          intro pointer' data' same
          rw [arrived] at same
          cases same
          exact room
        have armed := (receive_spec m s inv pointer data arrived).2 crowded
        obtain ⟨block,wrong,_⟩ := delivered.armed_reserved none armed
        contradiction
      · contradiction
    | _ => exact full trivial
  · exact start_inv m queue

/-- Two full packets that nobody reads fill the ring of a full-speed device. -/
def slowReader : List Event :=
  [.hostPacket (List.replicate 64 1),.receiveCallback,.hostPacket (List.replicate 64 2),.receiveCallback]

/-- A slow reader: the endpoint stays enabled, with a null pointer. -/
theorem reception_slow_reader : ¬ Run.Throughout (Delivery fullSpeed) (step fullSpeed)
    (start fullSpeed ⟨fun _ => 0,0,0,0⟩) slowReader := by
  intro holds
  have reached : ∃ s, Run.after (step fullSpeed) (start fullSpeed ⟨fun _ => 0,0,0,0⟩) slowReader = some s ∧
      s.armed = some none := ⟨_,rfl,rfl⟩
  obtain ⟨s,after,armed⟩ := reached
  obtain ⟨block,wrong,_⟩ := (holds slowReader s (List.prefix_refl _) after).armed_reserved none armed
  contradiction

end OpenPlc.Usb.Reception
