import OpenPlc.Lib.Ring
import OpenPlc.Usb.ReceiveQueue

/-! The CDC transmit queue (`cdc_queue.c`): a ring of two packets with one slot kept
free. The writer moves `write`, the completion of a transfer moves `read` over the
block that was `reserved` when the transfer was started. -/
namespace OpenPlc.Usb.TransmitQueue
open Memory OpenPlc.Ring

structure Queue where
  buffer : Nat → UInt8
  write : Nat
  read : Nat
  reserved : Nat

def bufferSize (m : PacketSize) : Nat := m.bytes * 2

def init (queue : Queue) : Queue := {queue with read := 0, write := 0}

def writeSize (m : PacketSize) (queue : Queue) : Nat :=
  (queue.read + bufferSize m - queue.write - 1) % bufferSize m

def readSize (m : PacketSize) (queue : Queue) : Nat :=
  (queue.write + bufferSize m - queue.read) % bufferSize m

/-- The copies of `CDC_TransmitQueue_Enqueue`, one or two of them. -/
def store (m : PacketSize) (queue : Queue) (data : List UInt8) : Queue :=
  let sizeToEnd := bufferSize m - queue.write
  if data.length < sizeToEnd then {queue with buffer := blit queue.buffer queue.write data}
  else {queue with buffer := blit (blit queue.buffer queue.write (data.take sizeToEnd)) 0 (data.drop sizeToEnd)}

/-- The last statement of `CDC_TransmitQueue_Enqueue`: only now can the interrupt see the data. -/
def publish (m : PacketSize) (queue : Queue) (size : Nat) : Queue :=
  {queue with write := (queue.write + size) % 4294967296 % bufferSize m % 65536}

def enqueue (m : PacketSize) (queue : Queue) (data : List UInt8) : Queue :=
  publish m (store m queue data) data.length

/-- The queue with its reservation, and the offset and size of the block. -/
def readBlock (m : PacketSize) (queue : Queue) : Queue × Nat × Nat :=
  let size := if queue.read ≤ queue.write then queue.write - queue.read else bufferSize m - queue.read
  ({queue with reserved := size},queue.read,size)

def commitRead (m : PacketSize) (queue : Queue) : Queue :=
  {queue with read := (queue.read + queue.reserved) % bufferSize m}

structure Bounds (m : PacketSize) (queue : Queue) : Prop where
  write_lt : queue.write < bufferSize m
  read_lt : queue.read < bufferSize m

theorem bufferSize_pos (m : PacketSize) : 0 < bufferSize m := by
  have := m.positive
  simp only [bufferSize]
  omega

theorem bufferSize_lt (m : PacketSize) : bufferSize m < 65536 := by
  have := m.fits
  simp only [bufferSize]
  omega

theorem init_bounds (m : PacketSize) (queue : Queue) : Bounds m (init queue) :=
  ⟨bufferSize_pos m,bufferSize_pos m⟩

theorem readSize_distance (m : PacketSize) (queue : Queue) :
    readSize m queue = distance (bufferSize m) queue.read queue.write := rfl

theorem readSize_lt (m : PacketSize) (queue : Queue) : readSize m queue < bufferSize m :=
  distance_lt _ _ _ (bufferSize_pos m)

theorem sizes_add (m : PacketSize) (queue : Queue) (bounds : Bounds m queue) :
    writeSize m queue + readSize m queue = bufferSize m - 1 := by
  have before := bounds.read_lt
  have after := bounds.write_lt
  rw [readSize_distance]
  unfold writeSize
  rcases distance_cases _ _ _ before after with ⟨flat,used⟩ | ⟨wrapped,used⟩
  · rw [used,Nat.mod_eq_of_lt (by omega)]
    omega
  · rw [used,show queue.read + bufferSize m - queue.write - 1 = queue.read - queue.write - 1 + bufferSize m by omega,
      Nat.add_mod_right,Nat.mod_eq_of_lt (by omega)]
    omega

theorem store_eq (m : PacketSize) (queue : Queue) (data : List UInt8) :
    store m queue data = {queue with buffer := wrapBlit queue.buffer (bufferSize m) queue.write data} := by
  unfold store
  by_cases short : data.length < bufferSize m - queue.write
  · simp only [short,if_true]
    rw [wrapBlit_flat _ _ _ _ (by omega)]
  · simp only [short,if_false]
    rfl

theorem reserve_bounds (m : PacketSize) (queue : Queue) (size : Nat) (bounds : Bounds m queue) :
    Bounds m {queue with reserved := size} :=
  ⟨bounds.write_lt,bounds.read_lt⟩

@[simp] theorem readSize_reserve (m : PacketSize) (queue : Queue) (size : Nat) :
    readSize m {queue with reserved := size} = readSize m queue := rfl

theorem publish_eq (m : PacketSize) (queue : Queue) (size : Nat) (bounds : Bounds m queue)
    (small : size ≤ bufferSize m) :
    publish m queue size = {queue with write := (queue.write + size) % bufferSize m} := by
  have inside := bounds.write_lt
  have limit := bufferSize_lt m
  have below : (queue.write + size) % bufferSize m < bufferSize m := Nat.mod_lt _ (bufferSize_pos m)
  unfold publish
  rw [Nat.mod_eq_of_lt (show queue.write + size < 4294967296 by omega),
    Nat.mod_eq_of_lt (show (queue.write + size) % bufferSize m < 65536 by omega)]

theorem publish_bounds (m : PacketSize) (queue : Queue) (size : Nat) (bounds : Bounds m queue)
    (small : size ≤ bufferSize m) : Bounds m (publish m queue size) := by
  rw [publish_eq m queue size bounds small]
  exact ⟨Nat.mod_lt _ (bufferSize_pos m),bounds.read_lt⟩

theorem commitRead_bounds (m : PacketSize) (queue : Queue) (bounds : Bounds m queue) :
    Bounds m (commitRead m queue) :=
  ⟨bounds.write_lt,Nat.mod_lt _ (bufferSize_pos m)⟩

theorem readSize_publish (m : PacketSize) (queue : Queue) (size : Nat) (bounds : Bounds m queue)
    (room : readSize m queue + size < bufferSize m) :
    readSize m (publish m queue size) = readSize m queue + size := by
  rw [publish_eq m queue size bounds (by omega)]
  exact distance_push _ _ _ _ bounds.read_lt bounds.write_lt room

@[simp] theorem commitRead_buffer (m : PacketSize) (queue : Queue) :
    (commitRead m queue).buffer = queue.buffer := rfl

theorem commitRead_read (m : PacketSize) (queue : Queue) :
    (commitRead m queue).read = (queue.read + queue.reserved) % bufferSize m := rfl

theorem readSize_commitRead (m : PacketSize) (queue : Queue) (bounds : Bounds m queue)
    (within : queue.reserved ≤ readSize m queue) :
    readSize m (commitRead m queue) = readSize m queue - queue.reserved :=
  distance_pop _ _ _ _ bounds.read_lt bounds.write_lt within

theorem write_eq (m : PacketSize) (queue : Queue) (bounds : Bounds m queue) :
    (queue.read + readSize m queue) % bufferSize m = queue.write :=
  distance_head _ _ _ bounds.read_lt bounds.write_lt

theorem store_kept (m : PacketSize) (queue : Queue) (data : List UInt8) (bounds : Bounds m queue)
    (room : readSize m queue + data.length < bufferSize m) (i : Nat) (inside : i < readSize m queue) :
    (store m queue data).buffer ((queue.read + i) % bufferSize m) = queue.buffer ((queue.read + i) % bufferSize m) := by
  have kept := wrapBlit_kept queue.buffer (bufferSize m) queue.read (readSize m queue) data bounds.read_lt (by omega) i inside
  rw [write_eq m queue bounds] at kept
  rw [store_eq]
  exact kept

theorem store_cells (m : PacketSize) (queue : Queue) (data : List UInt8) (bounds : Bounds m queue)
    (room : readSize m queue + data.length < bufferSize m) :
    cells (store m queue data).buffer (bufferSize m) queue.read (readSize m queue + data.length) =
      cells queue.buffer (bufferSize m) queue.read (readSize m queue) ++ data := by
  have appended := cells_wrapBlit queue.buffer (bufferSize m) queue.read (readSize m queue) data
    bounds.read_lt (by omega)
  rw [write_eq m queue bounds] at appended
  rw [store_eq]
  exact appended

/-- What `CDC_TransmitQueue_ReadBlock` promises: the front of the used slots, in one piece. -/
theorem readBlock_spec (m : PacketSize) (queue : Queue) (bounds : Bounds m queue) :
    (readBlock m queue).1 = {queue with reserved := (readBlock m queue).2.2} ∧
      (readBlock m queue).2.1 = queue.read ∧
      (readBlock m queue).2.2 ≤ readSize m queue ∧
      queue.read + (readBlock m queue).2.2 ≤ bufferSize m ∧
      ((readBlock m queue).2.2 = 0 ↔ readSize m queue = 0) := by
  have before := bounds.read_lt
  have after := bounds.write_lt
  refine ⟨rfl,rfl,?_⟩
  rw [readSize_distance]
  unfold readBlock
  rcases distance_cases _ _ _ before after with ⟨flat,used⟩ | ⟨wrapped,used⟩
  · simp only [flat,if_true,used]
    exact ⟨Nat.le_refl _,by omega,trivial⟩
  · simp only [Nat.not_le.mpr wrapped,if_false,used]
    exact ⟨by omega,by omega,by omega⟩

end OpenPlc.Usb.TransmitQueue
