import OpenPlc.Lib.Fifo
import OpenPlc.Lib.Run
import OpenPlc.Usb.TransmitQueue
import Mathlib.Algebra.GroupWithZero.Nat

/-! CDC transmission: `USBSerial::write` on the main thread, interrupted anywhere by
the completions of IN transfers (`USBD_CDC_DataIn`). Both contexts start transfers
through `CDC_continue_transmit`; the port stays connected. -/
namespace OpenPlc.Usb.Transmission
open Memory OpenPlc.Ring TransmitQueue

/-- Where the main thread stands in `USBSerial::write`, with the bytes that are not
yet in the queue. -/
inductive Writer
  | idle
  | loop (rest : List UInt8)
  | enqueue (portion : Nat) (rest : List UInt8)
  | publish (portion : Nat) (rest : List UInt8)
  | check (rest : List UInt8)
  | send (rest : List UInt8)

structure State where
  queue : Queue
  txState : Nat
  totalLength : Nat
  onWire : Bool
  writer : Writer
  written : List UInt8
  handed : List (List UInt8)
  advances : List Nat

inductive Event
  | write (buffer : List UInt8)
  | main
  | dataIn

def start (queue : Queue) : State := ⟨init queue,0,0,false,.idle,[],[],[]⟩

/-- `USBD_CDC_TransmitPacket` on the buffer and length set just before. -/
def transmitPacket (s : State) (block : List UInt8) : State :=
  let s := {s with handed := s.handed ++ [block]}
  if s.txState = 0 then {s with txState := 1, totalLength := block.length, onWire := true} else s

/-- `CDC_continue_transmit` behind its test of `TxState`. -/
def sendBlock (m : PacketSize) (s : State) : State :=
  let (queue,buffer,size) := readBlock m s.queue
  let s := {s with queue := queue}
  if 0 < size then transmitPacket s (slice queue.buffer buffer size) else s

def continueTransmit (m : PacketSize) (s : State) : State :=
  if s.txState = 0 then sendBlock m s else s

def commit (m : PacketSize) (s : State) : State :=
  {s with queue := commitRead m s.queue, advances := s.advances ++ [s.queue.reserved]}

def transmitCplt (m : PacketSize) (s : State) : State := continueTransmit m (commit m s)

/-- `USBD_CDC_DataIn`: a transfer that fills its last packet is followed by an empty one. -/
def dataIn (m : PacketSize) (maxpacket : Nat) (s : State) : State :=
  if 0 < s.totalLength ∧ s.totalLength % maxpacket = 0 then {s with totalLength := 0, onWire := true}
  else transmitCplt m {s with txState := 0, onWire := false}

/-- `if (rest < portion) portion = rest;` -/
def truncate (portion : Nat) (rest : List UInt8) : Nat :=
  if rest.length < portion then rest.length else portion

def mainStep (m : PacketSize) (s : State) : Option State :=
  match s.writer with
  | .idle => none
  | .loop rest =>
    if 0 < rest.length then
      let portion := truncate (writeSize m s.queue) rest
      if 0 < portion then some {s with writer := .enqueue portion rest} else some s
    else some {s with writer := .idle}
  | .enqueue portion rest =>
    some {s with queue := store m s.queue (rest.take portion), writer := .publish portion rest}
  | .publish portion rest =>
    some {s with queue := publish m s.queue portion, writer := .check (rest.drop portion)}
  | .check rest => some {s with writer := if s.txState = 0 then .send rest else .loop rest}
  | .send rest => some {sendBlock m s with writer := .loop rest}

/-- An IN completion comes only while a transfer is on the wire. -/
def step (m : PacketSize) (maxpacket : Nat) (s : State) : Event → Option State
  | .write buffer =>
    match s.writer with
    | .idle => some {s with writer := .loop buffer, written := s.written ++ buffer}
    | _ => none
  | .main => mainStep m s
  | .dataIn => if s.onWire then some (dataIn m maxpacket s) else none

/-- The bytes of the current call that the queue does not hold yet. -/
def Writer.rest : Writer → List UInt8
  | .idle => []
  | .loop rest => rest
  | .enqueue _ rest => rest
  | .publish _ rest => rest
  | .check rest => rest
  | .send rest => rest

/-- The bytes that the writer has made room for. -/
def Writer.portion : Writer → List UInt8
  | .enqueue portion rest => rest.take portion
  | .publish portion rest => rest.take portion
  | _ => []

/-- The bytes already copied behind `write`, which does not cover them yet. -/
def Writer.staged : Writer → List UInt8
  | .publish portion rest => rest.take portion
  | _ => []

/-- The writer is past its copies and has still to look whether a transfer must be started. -/
def Writer.starting : Writer → Prop
  | .check _ => True
  | .send _ => True
  | _ => False

/-- What a run owes the host in every state. -/
structure Faithful (m : PacketSize) (maxpacket : Nat) (s : State) : Prop where
  ordered : s.handed.flatten <+: s.written
  drained : s.txState = 0 → readSize m s.queue = 0 → s.handed.flatten ++ s.writer.rest = s.written
  started : s.txState = 0 → s.writer = .idle → s.handed.flatten = s.written
  sizes : writeSize m s.queue + readSize m s.queue = bufferSize m - 1
  kept : ∀ event next, step m maxpacket s event = some next → ∀ i, i < readSize m s.queue →
    next.queue.buffer ((s.queue.read + i) % bufferSize m) = s.queue.buffer ((s.queue.read + i) % bufferSize m)
  flying : s.txState ≠ 0 → ∃ done block, s.handed = done ++ [block] ∧ s.advances = done.map List.length ∧
    s.queue.reserved = block.length ∧ block.length ≤ readSize m s.queue ∧
    s.queue.read + block.length ≤ bufferSize m ∧ slice s.queue.buffer s.queue.read block.length = block
  settled : s.txState = 0 → s.advances = s.handed.map List.length
  advanced : s.queue.read = s.advances.sum % bufferSize m

/-- The used slots hold the block in flight, then what waits, then
what the writer has copied without having moved `write`. -/
structure Inv (m : PacketSize) (s : State) (flight : Option (List UInt8)) (fifo : Fifo UInt8) : Prop where
  bounds : Bounds m s.queue
  room : readSize m s.queue + s.writer.portion.length < bufferSize m
  chosen : ∀ portion rest, s.writer = .enqueue portion rest ∨ s.writer = .publish portion rest →
    portion ≤ rest.length
  accepted : fifo.accepted ++ s.writer.rest = s.written
  delivered : fifo.delivered = s.handed.flatten
  waiting : readSize m s.queue = (flight.getD [] ++ fifo.pending).length
  ring : cells s.queue.buffer (bufferSize m) s.queue.read (readSize m s.queue + s.writer.staged.length) =
    flight.getD [] ++ fifo.pending ++ s.writer.staged
  flying : ∀ block, flight = some block → s.txState = 1 ∧ s.queue.reserved = block.length ∧
    s.queue.read + block.length ≤ bufferSize m ∧ ∃ done, s.handed = done ++ [block] ∧
      s.advances = done.map List.length
  grounded : flight = none → s.txState = 0 ∧ s.onWire = false ∧ s.advances = s.handed.map List.length
  passed : ∀ rest, s.writer = .send rest → s.txState = 0
  advanced : s.queue.read = s.advances.sum % bufferSize m

/-- Without a transfer nothing waits, unless the writer is about to start one. -/
def Quiet (s : State) (flight : Option (List UInt8)) (fifo : Fifo UInt8) : Prop :=
  flight = none → ¬ s.writer.starting → fifo.pending = []

theorem start_inv (m : PacketSize) (queue : Queue) : Inv m (start queue) none Fifo.empty where
  bounds := init_bounds m queue
  room := readSize_lt m (init queue)
  chosen := by simp [start]
  accepted := rfl
  delivered := rfl
  waiting := by simp [start,init,readSize,Fifo.empty]
  ring := by simp [start,init,readSize,Fifo.empty,Writer.staged]
  flying := by simp
  grounded := by simp [start]
  passed := by simp [start]
  advanced := by simp [start,init]

theorem sendBlock_writer (m : PacketSize) (s : State) (writer : Writer) :
    {sendBlock m s with writer := writer} = sendBlock m {s with writer := writer} := by
  simp only [sendBlock,transmitPacket]
  split
  · split <;> rfl
  · rfl

@[simp] theorem sendBlock_buffer (m : PacketSize) (s : State) :
    (sendBlock m s).queue.buffer = s.queue.buffer := by
  simp only [sendBlock,transmitPacket]
  split
  · split <;> rfl
  · rfl

@[simp] theorem transmitCplt_buffer (m : PacketSize) (s : State) :
    (transmitCplt m s).queue.buffer = s.queue.buffer := by
  simp only [transmitCplt,continueTransmit]
  split
  · rw [sendBlock_buffer]
    rfl
  · rfl

theorem sendBlock_inv (m : PacketSize) (s : State) (fifo : Fifo UInt8) (inv : Inv m s none fifo)
    (clear : ∀ rest, s.writer ≠ .send rest) :
    ∃ flight fifo', Inv m (sendBlock m s) flight fifo' ∧ (flight = none → fifo'.pending = []) := by
  obtain ⟨same,located,within,flat,empty⟩ := readBlock_spec m s.queue inv.bounds
  obtain ⟨free,quiet,settled⟩ := inv.grounded rfl
  have waiting := inv.waiting
  have ring := inv.ring
  simp only [Option.getD_none,List.nil_append] at waiting ring
  generalize sized : (readBlock m s.queue).2.2 = size at *
  by_cases some_ : 0 < size
  · have block : slice s.queue.buffer s.queue.read size = fifo.pending.take size := by
      rw [slice_front _ _ _ _ size _ ring (by omega) flat,List.take_append_of_le_length (by omega)]
    have long : (slice s.queue.buffer s.queue.read size).length = size := slice_length _ _ _
    have sent : sendBlock m s = {s with
        queue := {s.queue with reserved := size}, txState := 1, totalLength := size, onWire := true,
        handed := s.handed ++ [slice s.queue.buffer s.queue.read size]} := by
      simp only [sendBlock,transmitPacket,sized,some_,same,located,free,long,if_true]
    rw [sent]
    refine ⟨some (fifo.pending.take size),fifo.pop size,?_,by simp⟩
    refine ⟨reserve_bounds m s.queue size inv.bounds,inv.room,inv.chosen,inv.accepted,?_,?_,?_,?_,by simp,?_,
      inv.advanced⟩
    · simp only [Fifo.pop_delivered,List.flatten_append,inv.delivered,block,List.flatten_singleton]
    · simpa only [Option.getD_some,Fifo.pop_pending,List.take_append_drop,readSize_reserve] using waiting
    · simpa only [Option.getD_some,Fifo.pop_pending,List.take_append_drop,readSize_reserve] using ring
    · intro other chosen
      cases Option.some.inj chosen
      rw [← block,long]
      exact ⟨rfl,rfl,flat,s.handed,rfl,settled⟩
    · intro rest standing
      exact absurd standing (clear rest)
  · have none_ : size = 0 := by omega
    have sent : sendBlock m s = {s with queue := {s.queue with reserved := 0}} := by
      simp only [sendBlock,sized,none_,same,Nat.lt_irrefl,if_false]
    rw [sent]
    refine ⟨none,fifo,⟨reserve_bounds m s.queue 0 inv.bounds,inv.room,inv.chosen,inv.accepted,inv.delivered,inv.waiting,
      inv.ring,by simp,fun _ => ⟨free,quiet,settled⟩,fun _ _ => free,inv.advanced⟩,fun _ => ?_⟩
    rw [empty.mp none_] at waiting
    exact List.eq_nil_of_length_eq_zero waiting.symm

theorem commitRead_inv (m : PacketSize) (s : State) (block : List UInt8) (fifo : Fifo UInt8)
    (inv : Inv m s (some block) fifo) :
    Inv m (commit m {s with txState := 0, onWire := false}) none fifo := by
  obtain ⟨_,reserved,flat,done,handed,settled⟩ := inv.flying block rfl
  have waiting := inv.waiting
  have ring := inv.ring
  simp only [Option.getD_some,List.length_append,List.append_assoc] at waiting ring
  have within : s.queue.reserved ≤ readSize m s.queue := by omega
  have shrunk := readSize_commitRead m s.queue inv.bounds within
  refine ⟨commitRead_bounds m s.queue inv.bounds,?_,inv.chosen,inv.accepted,inv.delivered,?_,?_,by simp,?_,
    fun _ _ => rfl,?_⟩
  · have room := inv.room
    simp only [commit,shrunk]
    omega
  · simp only [commit,shrunk,Option.getD_none,List.nil_append]
    omega
  · have rest := cells_behind _ _ _ _ block _ ring
    simp only [commit,commitRead_buffer,commitRead_read,shrunk,Option.getD_none,List.nil_append,reserved]
    rw [← rest]
    congr 1
    omega
  · intro _
    simp [commit,handed,settled,reserved]
  · have advanced := inv.advanced
    simp only [commit,commitRead_read,List.sum_append,List.sum_singleton,advanced,Nat.mod_add_mod]

theorem move_inv (m : PacketSize) (s : State) (writer : Writer) (flight : Option (List UInt8)) (fifo : Fifo UInt8)
    (inv : Inv m s flight fifo) (rest : writer.rest = s.writer.rest) (staged : writer.staged = s.writer.staged)
    (room : readSize m s.queue + writer.portion.length < bufferSize m)
    (chosen : ∀ portion rest, writer = .enqueue portion rest ∨ writer = .publish portion rest →
      portion ≤ rest.length)
    (passed : ∀ rest, writer = .send rest → s.txState = 0) :
    Inv m {s with writer := writer} flight fifo where
  bounds := inv.bounds
  room := room
  chosen := chosen
  accepted := by simpa only [rest] using inv.accepted
  delivered := inv.delivered
  waiting := inv.waiting
  ring := by simpa only [staged] using inv.ring
  flying := inv.flying
  grounded := inv.grounded
  passed := passed
  advanced := inv.advanced

theorem store_inv (m : PacketSize) (s : State) (portion : Nat) (rest : List UInt8)
    (flight : Option (List UInt8)) (fifo : Fifo UInt8) (inv : Inv m s flight fifo)
    (standing : s.writer = .enqueue portion rest) :
    Inv m {s with queue := store m s.queue (rest.take portion), writer := .publish portion rest} flight fifo := by
  have room := inv.room
  have accepted := inv.accepted
  have ring := inv.ring
  have short := inv.chosen portion rest (Or.inl standing)
  simp only [standing,Writer.portion,Writer.rest,Writer.staged,List.append_nil,List.length_nil,Nat.add_zero]
    at room accepted ring
  have stored := store_cells m s.queue (rest.take portion) inv.bounds room
  have kept : store m s.queue (rest.take portion) =
    {s.queue with buffer := wrapBlit s.queue.buffer (bufferSize m) s.queue.write (rest.take portion)} :=
    store_eq m s.queue _
  rw [kept] at stored ⊢
  refine ⟨⟨inv.bounds.write_lt,inv.bounds.read_lt⟩,room,?_,accepted,inv.delivered,inv.waiting,?_,inv.flying,
    inv.grounded,by simp,inv.advanced⟩
  · intro other tail chosen
    rcases chosen with same | same
    · contradiction
    · cases same
      exact short
  · rw [← ring]
    exact stored

theorem publish_inv (m : PacketSize) (s : State) (portion : Nat) (rest : List UInt8)
    (flight : Option (List UInt8)) (fifo : Fifo UInt8) (inv : Inv m s flight fifo)
    (standing : s.writer = .publish portion rest) :
    Inv m {s with queue := publish m s.queue portion, writer := .check (rest.drop portion)} flight
      (fifo.push (rest.take portion)) := by
  have room := inv.room
  have accepted := inv.accepted
  have ring := inv.ring
  have waiting := inv.waiting
  have short := inv.chosen portion rest (Or.inr standing)
  simp only [standing,Writer.portion,Writer.rest,Writer.staged,List.length_take,Nat.min_eq_left short]
    at room accepted ring
  have grown := readSize_publish m s.queue portion inv.bounds room
  have moved := publish_eq m s.queue portion inv.bounds (by omega)
  refine ⟨publish_bounds m s.queue portion inv.bounds (by omega),?_,by simp,?_,inv.delivered,?_,?_,?_,
    inv.grounded,by simp,?_⟩
  · simpa only [grown,Writer.portion,List.length_nil,Nat.add_zero] using room
  · simpa only [Fifo.push_accepted,Writer.rest,List.append_assoc,List.take_append_drop] using accepted
  · simp only [grown,waiting,Fifo.push_pending,List.length_append,List.length_take,Nat.min_eq_left short]
    omega
  · simp only [grown,Writer.staged,List.length_nil,Nat.add_zero,Fifo.push_pending,List.append_nil]
    rw [moved,← List.append_assoc]
    exact ring
  · intro block flying
    rw [moved]
    exact inv.flying block flying
  · rw [moved]
    exact inv.advanced

theorem dataIn_inv (m : PacketSize) (maxpacket : Nat) (s : State) (flight : Option (List UInt8))
    (fifo : Fifo UInt8) (inv : Inv m s flight fifo) (wire : s.onWire = true) :
    ∃ flight fifo, Inv m (dataIn m maxpacket s) flight fifo ∧ Quiet (dataIn m maxpacket s) flight fifo := by
  cases flight with
  | none => simp [(inv.grounded rfl).2.1] at wire
  | some block =>
    have busy := (inv.flying block rfl).1
    unfold dataIn
    split
    · exact ⟨some block,fifo,⟨inv.bounds,inv.room,inv.chosen,inv.accepted,inv.delivered,inv.waiting,inv.ring,
        inv.flying,by simp,inv.passed,inv.advanced⟩,by simp [Quiet]⟩
    · have done := commitRead_inv m s block fifo inv
      have clear (rest : List UInt8) : s.writer ≠ .send rest := by
        intro standing
        have := inv.passed rest standing
        omega
      obtain ⟨flight',fifo',onward,quiet⟩ := sendBlock_inv m _ fifo done clear
      exact ⟨flight',fifo',onward,fun free _ => quiet free⟩

theorem truncate_le (portion : Nat) (rest : List UInt8) :
    truncate portion rest ≤ rest.length ∧ truncate portion rest ≤ portion := by
  unfold truncate
  split <;> omega

theorem mainStep_inv (m : PacketSize) (s next : State) (flight : Option (List UInt8)) (fifo : Fifo UInt8)
    (inv : Inv m s flight fifo) (quiet : Quiet s flight fifo) (taken : mainStep m s = some next) :
    ∃ flight fifo, Inv m next flight fifo ∧ Quiet next flight fifo := by
  have sizes := sizes_add m s.queue inv.bounds
  have positive := bufferSize_pos m
  have used := readSize_lt m s.queue
  unfold mainStep at taken
  cases standing : s.writer with
  | idle => simp [standing] at taken
  | loop rest =>
    have still : ¬ s.writer.starting := by simp [standing,Writer.starting]
    obtain ⟨short,small⟩ := truncate_le (writeSize m s.queue) rest
    simp only [standing] at taken
    split at taken
    · split at taken
      · rename_i left room
        cases Option.some.inj taken
        refine ⟨flight,fifo,move_inv m s _ flight fifo inv (by simp [standing,Writer.rest])
          (by simp [standing,Writer.staged]) ?_ ?_ (by simp),fun free _ => quiet free still⟩
        · simp only [Writer.portion,List.length_take]
          omega
        · intro portion tail chosen
          rcases chosen with same | same
          · cases same
            exact short
          · contradiction
      · cases Option.some.inj taken
        exact ⟨flight,fifo,inv,quiet⟩
    · rename_i finished
      cases Option.some.inj taken
      have done : rest = [] := List.eq_nil_of_length_eq_zero (by omega)
      exact ⟨flight,fifo,move_inv m s _ flight fifo inv (by simp [standing,Writer.rest,done])
        (by simp [standing,Writer.staged]) (by simpa [Writer.portion] using used) (by simp) (by simp),
        fun free _ => quiet free still⟩
  | enqueue portion rest =>
    simp only [standing] at taken
    cases Option.some.inj taken
    exact ⟨flight,fifo,store_inv m s portion rest flight fifo inv standing,
      fun free _ => quiet free (by simp [standing,Writer.starting])⟩
  | publish portion rest =>
    simp only [standing] at taken
    cases Option.some.inj taken
    exact ⟨flight,_,publish_inv m s portion rest flight fifo inv standing,
      fun _ still => absurd trivial still⟩
  | check rest =>
    simp only [standing] at taken
    cases Option.some.inj taken
    split
    · rename_i free
      exact ⟨flight,fifo,move_inv m s _ flight fifo inv (by simp [standing,Writer.rest])
        (by simp [standing,Writer.staged]) (by simpa [Writer.portion] using used) (by simp) (fun _ _ => free),
        fun _ still => absurd trivial still⟩
    · rename_i busy
      refine ⟨flight,fifo,move_inv m s _ flight fifo inv (by simp [standing,Writer.rest])
        (by simp [standing,Writer.staged]) (by simpa [Writer.portion] using used) (by simp) (by simp),?_⟩
      intro free
      exact absurd (inv.grounded free).1 busy
  | send rest =>
    simp only [standing] at taken
    cases Option.some.inj taken
    have grounded : flight = none := by
      cases flight with
      | none => rfl
      | some block =>
        have busy := (inv.flying block rfl).1
        have free := inv.passed rest standing
        omega
    subst grounded
    have moved := move_inv m s (.loop rest) none fifo inv (by simp [standing,Writer.rest])
      (by simp [standing,Writer.staged]) (by simpa [Writer.portion] using used) (by simp) (by simp)
    obtain ⟨flight',fifo',onward,quiet'⟩ := sendBlock_inv m _ fifo moved (by simp)
    rw [sendBlock_writer]
    exact ⟨flight',fifo',onward,fun free _ => quiet' free⟩

theorem step_inv (m : PacketSize) (maxpacket : Nat) (s : State) (event : Event) (next : State)
    (inv : ∃ flight fifo, Inv m s flight fifo ∧ Quiet s flight fifo)
    (taken : step m maxpacket s event = some next) :
    ∃ flight fifo, Inv m next flight fifo ∧ Quiet next flight fifo := by
  obtain ⟨flight,fifo,inv,quiet⟩ := inv
  cases event with
  | write buffer =>
    simp only [step] at taken
    split at taken
    · rename_i standing
      cases Option.some.inj taken
      have accepted := inv.accepted
      have room := inv.room
      have ring := inv.ring
      simp only [standing,Writer.rest,List.append_nil] at accepted
      simp only [standing,Writer.portion] at room
      simp only [standing,Writer.staged] at ring
      refine ⟨flight,fifo,⟨inv.bounds,room,by simp,?_,inv.delivered,inv.waiting,ring,inv.flying,inv.grounded,
        by simp,inv.advanced⟩,fun free _ => quiet free (by simp [standing,Writer.starting])⟩
      simp only [Writer.rest,accepted]
    · contradiction
  | main => exact mainStep_inv m s next flight fifo inv quiet taken
  | dataIn =>
    simp only [step] at taken
    split at taken
    · rename_i wire
      cases Option.some.inj taken
      exact dataIn_inv m maxpacket s flight fifo inv wire
    · contradiction

theorem step_kept (m : PacketSize) (maxpacket : Nat) (s next : State) (event : Event)
    (flight : Option (List UInt8)) (fifo : Fifo UInt8) (inv : Inv m s flight fifo)
    (taken : step m maxpacket s event = some next) (i : Nat) (bound : i < readSize m s.queue) :
    next.queue.buffer ((s.queue.read + i) % bufferSize m) = s.queue.buffer ((s.queue.read + i) % bufferSize m) := by
  cases event with
  | write buffer =>
    simp only [step] at taken
    split at taken
    · cases Option.some.inj taken
      rfl
    · contradiction
  | dataIn =>
    simp only [step] at taken
    split at taken
    · cases Option.some.inj taken
      unfold dataIn
      split
      · rfl
      · rw [transmitCplt_buffer]
    · contradiction
  | main =>
    simp only [step,mainStep] at taken
    cases standing : s.writer with
    | idle => simp [standing] at taken
    | enqueue portion rest =>
      simp only [standing] at taken
      cases Option.some.inj taken
      have room := inv.room
      simp only [standing,Writer.portion] at room
      exact store_kept m s.queue (rest.take portion) inv.bounds room i bound
    | _ =>
      simp only [standing] at taken
      repeat' split at taken
      all_goals
        cases Option.some.inj taken
        simp [publish]

theorem inv_faithful (m : PacketSize) (maxpacket : Nat) (s : State) (flight : Option (List UInt8))
    (fifo : Fifo UInt8) (inv : Inv m s flight fifo) (quiet : Quiet s flight fifo) :
    Faithful m maxpacket s := by
  have accepted := inv.accepted
  have waiting := inv.waiting
  have free (idle : s.txState = 0) : flight = none := by
    cases flight with
    | none => rfl
    | some block => simp [(inv.flying block rfl).1] at idle
  refine ⟨?_,?_,?_,sizes_add m s.queue inv.bounds,?_,?_,?_,inv.advanced⟩
  · rw [← inv.delivered,← accepted]
    exact fifo.delivered_le.trans (List.prefix_append _ _)
  · intro idle empty
    rw [free idle,empty] at waiting
    rw [← inv.delivered,fifo.drained (List.eq_nil_of_length_eq_zero waiting.symm),accepted]
  · intro idle standing
    have nothing := quiet (free idle) (by simp [standing,Writer.starting])
    rw [standing,Writer.rest,List.append_nil] at accepted
    rw [← inv.delivered,fifo.drained nothing,accepted]
  · intro event next taken i bound
    exact step_kept m maxpacket s next event flight fifo inv taken i bound
  · intro busy
    cases flight with
    | none => exact absurd (inv.grounded rfl).1 busy
    | some block =>
      obtain ⟨_,reserved,flat,done,handed,settled⟩ := inv.flying block rfl
      simp only [Option.getD_some,List.length_append] at waiting
      have front := slice_front _ _ _ _ block.length _ inv.ring (by omega) flat
      simp only [Option.getD_some,List.append_assoc,List.take_left] at front
      exact ⟨done,block,handed,settled,reserved,by omega,flat,front⟩
  · intro idle
    exact (inv.grounded (free idle)).2.2

/-- Over every run of writes and IN completions from the initialised queue, the blocks
handed to the driver are the written stream in order, each is in the ring unharmed
until it is committed, and what is committed is that block. -/
theorem transmit_faithful (m : PacketSize) (maxpacket : Nat) (queue : Queue) (events : List Event) :
    Run.Throughout (Faithful m maxpacket) (step m maxpacket) (start queue) events := by
  intro done s _ reached
  have initial : ∃ flight fifo, Inv m (start queue) flight fifo ∧ Quiet (start queue) flight fifo :=
    ⟨none,Fifo.empty,start_inv m queue,fun _ _ => rfl⟩
  obtain ⟨flight,fifo,inv,quiet⟩ := Run.invariant (fun s => ∃ flight fifo, Inv m s flight fifo ∧ Quiet s flight fifo)
    (step_inv m maxpacket) _ s done initial reached
  exact inv_faithful m maxpacket s flight fifo inv quiet

end OpenPlc.Usb.Transmission
