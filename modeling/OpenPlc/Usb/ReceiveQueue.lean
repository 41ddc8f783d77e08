import OpenPlc.Lib.Memory
import Mathlib.Tactic.Common

/-! The CDC receive queue (`cdc_queue.c`): three packets of flat storage whose wrap
point `length` moves with each reservation. Pointers into `buffer` are offsets and
a null pointer is `none`; the reader functions take the value of `write` that they
loaded first, because an interrupt may run before they load `length`. -/
namespace OpenPlc.Usb
open Memory

/-- `CDC_QUEUE_MAX_PACKET_SIZE`: three packets must be indexable by a `uint16_t`. -/
structure PacketSize where
  bytes : Nat
  positive : 0 < bytes
  fits : 3 * bytes < 65536

theorem fullSpeed_positive : 0 < 64 := by decide

def fullSpeed : PacketSize := ⟨64,fullSpeed_positive,by decide⟩

def highSpeed : PacketSize := ⟨512,by decide,by decide⟩

namespace ReceiveQueue

structure Queue where
  buffer : Nat → UInt8
  write : Nat
  read : Nat
  length : Nat

def bufferSize (m : PacketSize) : Nat := m.bytes * 3

def init (m : PacketSize) (queue : Queue) : Queue :=
  {queue with read := 0, write := 0, length := bufferSize m}

def reserveBlock (m : PacketSize) (queue : Queue) : Queue × Option Nat :=
  let limit := bufferSize m - m.bytes
  let read := queue.read
  if read ≤ queue.write then
    if queue.write < limit ∨ (queue.write = limit ∧ 0 < read) then (queue,some queue.write)
    else if m.bytes < read then ({queue with length := queue.write, write := 0},some 0)
    else (queue,none)
  else if queue.write + m.bytes < read then (queue,some queue.write)
  else (queue,none)

def commitBlock (m : PacketSize) (queue : Queue) (size : Nat) : Queue :=
  let write := (queue.write + size) % 65536
  let length := if queue.length ≤ write then bufferSize m else queue.length
  let write := if bufferSize m ≤ write then 0 else write
  {queue with write := write, length := length}

def readSize (write : Nat) (queue : Queue) : Nat :=
  if queue.read ≤ write then write - queue.read else queue.length + write - queue.read

/-- `if (queue->read >= length) queue->read = 0;` -/
def wrapRead (queue : Queue) : Queue :=
  if queue.length ≤ queue.read then {queue with read := 0} else queue

def dequeue (write : Nat) (queue : Queue) : Queue × Option UInt8 :=
  let queue := if queue.read = queue.length then {queue with read := 0} else queue
  if write = queue.read then (queue,none)
  else (wrapRead {queue with read := (queue.read + 1) % 65536},some (queue.buffer queue.read))

def peek (write : Nat) (queue : Queue) : Queue × Option UInt8 :=
  let queue := wrapRead queue
  if write = queue.read then (queue,none) else (queue,some (queue.buffer queue.read))

/-- The bytes that lie in one piece from `read` on, as far as `write` tells. -/
def available (write : Nat) (queue : Queue) : Nat :=
  if queue.read ≤ write then write - queue.read else queue.length - queue.read

def read (write : Nat) (queue : Queue) (size : Nat) : Queue × List UInt8 :=
  let queue := wrapRead queue
  let size := min (available write queue) size
  (wrapRead {queue with read := (queue.read + size) % 65536},slice queue.buffer queue.read size)

/-- The copying loop of `CDC_ReceiveQueue_ReadUntil`: the bytes before the
terminator and whether it was met. -/
def scanUntil (terminator : UInt8) : List UInt8 → List UInt8 × Bool
  | [] => ([],false)
  | ch :: rest =>
    if ch = terminator then ([],true)
    else (ch :: (scanUntil terminator rest).1,(scanUntil terminator rest).2)

/-- How far the loop moves `read`: over the terminator too when it was met. -/
def fetched (scan : List UInt8 × Bool) : Nat :=
  if scan.2 then scan.1.length + 1 else scan.1.length

/-- The bytes that leave the queue: those copied, and the terminator when it was met. -/
def consumed (terminator : UInt8) (scan : List UInt8 × Bool) : List UInt8 :=
  if scan.2 then scan.1 ++ [terminator] else scan.1

def readUntil (write : Nat) (queue : Queue) (terminator : UInt8) (size : Nat) :
    Queue × List UInt8 × Bool :=
  let queue := wrapRead queue
  let size := min (available write queue) size
  let scan := scanUntil terminator (slice queue.buffer queue.read size)
  (wrapRead {queue with read := (queue.read + fetched scan) % 65536},scan)

def unreadPositions (queue : Queue) : List Nat :=
  if queue.read ≤ queue.write then List.range' queue.read (queue.write - queue.read)
  else List.range' queue.read (queue.length - queue.read) ++ List.range' 0 queue.write

def unread (queue : Queue) : List UInt8 := (unreadPositions queue).map queue.buffer

private theorem range'_map (mem : Nat → UInt8) (start len : Nat) :
    (List.range' start len).map mem = slice mem start len := by
  rw [List.range'_eq_map_range,List.map_map]
  rfl

theorem unread_flat (queue : Queue) (flat : queue.read ≤ queue.write) :
    unread queue = slice queue.buffer queue.read (queue.write - queue.read) := by
  simp only [unread,unreadPositions,flat,if_true,range'_map]

theorem unread_wrapped (queue : Queue) (wrapped : queue.write < queue.read) :
    unread queue = slice queue.buffer queue.read (queue.length - queue.read) ++
      slice queue.buffer 0 queue.write := by
  simp only [unread,unreadPositions,Nat.not_le.mpr wrapped,if_false,List.map_append,range'_map]

/-- The invariant of the three indices, with the block that is reserved if any. -/
structure Layout (m : PacketSize) (queue : Queue) (reserved : Option Nat) : Prop where
  write_lt : queue.write < queue.length
  length_le : queue.length ≤ bufferSize m
  read_le : queue.read ≤ queue.length
  block : ∀ p, reserved = some p → p = queue.write
  flat_room : reserved.isSome → queue.read ≤ queue.write →
    queue.write + m.bytes < bufferSize m ∨ (queue.write + m.bytes = bufferSize m ∧ 0 < queue.read)
  wrapped_room : reserved.isSome → queue.write < queue.read → queue.write + m.bytes < queue.read

theorem init_layout (m : PacketSize) (queue : Queue) : Layout m (init m queue) none := by
  have positive := m.positive
  refine ⟨?_,?_,?_,by simp,by simp,by simp⟩
  all_goals simp only [init,bufferSize]; omega

theorem init_unread (m : PacketSize) (queue : Queue) : unread (init m queue) = [] := by
  rw [unread_flat _ (Nat.le_refl 0)]
  rfl

/-- A whole packet fits behind `write` without making the queue look empty. -/
def RoomBehind (m : PacketSize) (queue : Queue) : Prop :=
  (queue.read ≤ queue.write ∧ (queue.write < bufferSize m - m.bytes ∨
    (queue.write = bufferSize m - m.bytes ∧ 0 < queue.read))) ∨
  (queue.write < queue.read ∧ queue.write + m.bytes < queue.read)

/-- A whole packet fits in front of `read`, so that the block is taken from offset 0. -/
def RoomInFront (m : PacketSize) (queue : Queue) : Prop :=
  queue.read ≤ queue.write ∧ bufferSize m - m.bytes < queue.write ∧ m.bytes < queue.read

theorem reserve_cases (m : PacketSize) (queue : Queue) :
    (RoomBehind m queue ∧ reserveBlock m queue = (queue,some queue.write)) ∨
    (RoomInFront m queue ∧
      reserveBlock m queue = ({queue with length := queue.write, write := 0},some 0)) ∨
    (¬ RoomBehind m queue ∧ ¬ RoomInFront m queue ∧ reserveBlock m queue = (queue,none)) := by
  by_cases flat : queue.read ≤ queue.write
  · by_cases room : queue.write < bufferSize m - m.bytes ∨ (queue.write = bufferSize m - m.bytes ∧ 0 < queue.read)
    · exact Or.inl ⟨Or.inl ⟨flat,room⟩,by simp [reserveBlock,flat,room]⟩
    · have behind : ¬ RoomBehind m queue := by
        rintro (⟨_,inside⟩ | ⟨wrapped,_⟩)
        · exact room inside
        · omega
      by_cases front : m.bytes < queue.read
      · refine Or.inr (Or.inl ⟨⟨flat,by omega,front⟩,?_⟩)
        simp only [reserveBlock,flat,room,front,if_true,if_false]
      · refine Or.inr (Or.inr ⟨behind,fun inFront => front inFront.2.2,?_⟩)
        simp only [reserveBlock,flat,room,front,if_true,if_false]
  · have inFront : ¬ RoomInFront m queue := fun inFront => flat inFront.1
    by_cases room : queue.write + m.bytes < queue.read
    · exact Or.inl ⟨Or.inr ⟨by omega,room⟩,by simp [reserveBlock,flat,room]⟩
    · refine Or.inr (Or.inr ⟨?_,inFront,by simp [reserveBlock,flat,room]⟩)
      rintro (⟨unwrapped,_⟩ | ⟨_,inside⟩)
      · exact flat unwrapped
      · exact room inside

theorem reserve_layout (m : PacketSize) (queue : Queue) (layout : Layout m queue none) :
    Layout m (reserveBlock m queue).1 (reserveBlock m queue).2 := by
  have positive := m.positive
  have bounds := layout.write_lt
  have inside := layout.length_le
  have before := layout.read_le
  rcases reserve_cases m queue with ⟨room,same⟩ | ⟨room,same⟩ | ⟨_,_,same⟩
  · rw [same]
    refine ⟨bounds,inside,before,by simp,?_,?_⟩
    all_goals
      intro _ _
      simp only [RoomBehind,bufferSize] at *
      omega
  · rw [same]
    refine ⟨?_,?_,?_,by simp,?_,?_⟩
    all_goals
      simp only [RoomInFront,bufferSize] at *
      omega
  · rw [same]
    exact layout

theorem reserve_unread (m : PacketSize) (queue : Queue) : unread (reserveBlock m queue).1 = unread queue := by
  rcases reserve_cases m queue with ⟨_,same⟩ | ⟨room,same⟩ | ⟨_,_,same⟩
  · rw [same]
  · rw [same]
    have wrapped : ({queue with length := queue.write, write := 0} : Queue).write < queue.read := by
      have := room.2.2
      simp only
      omega
    rw [unread_wrapped _ wrapped,unread_flat queue room.1]
    simp
  · rw [same]

theorem commit_cases (m : PacketSize) (queue : Queue) (block size : Nat)
    (layout : Layout m queue (some block)) (small : size ≤ m.bytes) :
    (commitBlock m queue size = {queue with
        write := queue.write + size,
        length := if queue.length ≤ queue.write + size then bufferSize m else queue.length} ∧
      queue.write + size < bufferSize m ∧ (queue.write < queue.read → queue.write + size < queue.read)) ∨
    (commitBlock m queue size = {queue with write := 0, length := bufferSize m} ∧
      queue.write + size = bufferSize m ∧ size = m.bytes ∧ queue.read ≤ queue.write ∧ 0 < queue.read) := by
  have positive := m.positive
  have fits := m.fits
  have bounds := layout.write_lt
  have inside := layout.length_le
  have before := layout.read_le
  have flat := layout.flat_room rfl
  have wrapped := layout.wrapped_room rfl
  have exact_ : (queue.write + size) % 65536 = queue.write + size := by
    apply Nat.mod_eq_of_lt
    simp only [bufferSize] at inside flat
    omega
  simp only [commitBlock,exact_]
  by_cases full : bufferSize m ≤ queue.write + size
  · right
    have last : queue.length ≤ queue.write + size := by omega
    simp only [full,last,if_true,true_and]
    omega
  · left
    simp only [full,if_false,true_and]
    omega

theorem commit_layout (m : PacketSize) (queue : Queue) (block size : Nat)
    (layout : Layout m queue (some block)) (small : size ≤ m.bytes) :
    Layout m (commitBlock m queue size) none := by
  have inside := layout.length_le
  have before := layout.read_le
  rcases commit_cases m queue block size layout small with ⟨same,short,ahead⟩ | ⟨same,last,_,flat,_⟩
  · rw [same]
    refine ⟨?_,?_,?_,by simp,by simp,by simp⟩
    all_goals
      dsimp only
      split <;> omega
  · rw [same]
    refine ⟨?_,?_,?_,by simp,by simp,by simp⟩
    all_goals
      dsimp only
      omega

/-- A commit appends the first `size` bytes of the reserved block and nothing else. -/
theorem commit_unread (m : PacketSize) (queue : Queue) (block size : Nat)
    (layout : Layout m queue (some block)) (small : size ≤ m.bytes) :
    unread (commitBlock m queue size) = unread queue ++ slice queue.buffer block size := by
  have located := layout.block block rfl
  subst located
  rcases commit_cases m queue _ size layout small with ⟨same,_,ahead⟩ | ⟨same,last,full,flat,behind⟩
  · rw [same]
    by_cases flat : queue.read ≤ queue.write
    · have joined : queue.write + size - queue.read = (queue.write - queue.read) + size := by omega
      have start : queue.read + (queue.write - queue.read) = queue.write := by omega
      rw [unread_flat queue flat,unread_flat _ (by dsimp only; omega)]
      dsimp only
      rw [joined,slice_add,start]
    · have kept : ¬ queue.length ≤ queue.write + size := by
        have := layout.read_le
        omega
      rw [unread_wrapped queue (by omega),unread_wrapped _ (by dsimp only; omega)]
      dsimp only
      rw [if_neg kept,slice_add,Nat.zero_add,List.append_assoc]
  · rw [same,unread_flat queue flat,unread_wrapped _ (by dsimp only; omega)]
    dsimp only
    have joined : bufferSize m - queue.read = (queue.write - queue.read) + size := by omega
    have start : queue.read + (queue.write - queue.read) = queue.write := by omega
    rw [joined,slice_add,start,slice_zero,List.append_nil]

theorem reserved_apart (m : PacketSize) (queue : Queue) (block : Nat) (layout : Layout m queue (some block)) :
    block + m.bytes ≤ bufferSize m ∧ ∀ i ∈ unreadPositions queue,
      i < bufferSize m ∧ (i < block ∨ block + m.bytes ≤ i) := by
  have located := layout.block block rfl
  subst located
  have bounds := layout.write_lt
  have inside := layout.length_le
  have before := layout.read_le
  by_cases flat : queue.read ≤ queue.write
  · have room := layout.flat_room rfl flat
    refine ⟨by omega,?_⟩
    intro i member
    simp only [unreadPositions,flat,if_true,List.mem_range'_1] at member
    omega
  · have room := layout.wrapped_room rfl (by omega)
    refine ⟨by omega,?_⟩
    intro i member
    simp only [unreadPositions,flat,if_false,List.mem_append,List.mem_range'_1] at member
    omega

theorem fill_unread (m : PacketSize) (queue : Queue) (block : Nat) (data : List UInt8)
    (layout : Layout m queue (some block)) (small : data.length ≤ m.bytes) :
    unread {queue with buffer := blit queue.buffer block data} = unread queue := by
  have apart := (reserved_apart m queue block layout).2
  apply List.map_congr_left
  intro i member
  rcases (apart i member).2 with before | behind
  · exact blit_below queue.buffer block data i before
  · exact blit_above queue.buffer block data i (by omega)

/-- What the value of `write` that a reader loaded earlier still tells about the
queue: it bounds a part of the unread bytes, counted from `read`. -/
def Snapshot (queue : Queue) (write : Nat) : Prop :=
  (queue.read ≤ write ∧ write < queue.length ∧ (queue.read ≤ queue.write → write ≤ queue.write)) ∨
  (write < queue.read ∧ queue.write < queue.read ∧ write ≤ queue.write)

theorem snapshot_load (m : PacketSize) (queue : Queue) (reserved : Option Nat)
    (layout : Layout m queue reserved) : Snapshot queue queue.write := by
  have bounds := layout.write_lt
  unfold Snapshot
  omega

theorem load_early (m : PacketSize) (queue : Queue) (reserved : Option Nat)
    (layout : Layout m queue reserved) (held : reserved.isSome) : queue.write + m.bytes ≤ bufferSize m := by
  have flat := layout.flat_room held
  have wrapped := layout.wrapped_room held
  have inside := layout.length_le
  have before := layout.read_le
  omega

theorem snapshot_commit (m : PacketSize) (queue : Queue) (block size write : Nat)
    (layout : Layout m queue (some block)) (small : size ≤ m.bytes) (seen : Snapshot queue write) :
    Snapshot (commitBlock m queue size) write := by
  have inside := layout.length_le
  rcases commit_cases m queue block size layout small with ⟨same,short,ahead⟩ | ⟨same,last,_,flat,behind⟩
  · rw [same]
    simp only [Snapshot] at seen ⊢
    split <;> omega
  · rw [same]
    simp only [Snapshot] at seen ⊢
    omega

/-- A reservation that moves the wrap point leaves an older load of `write` valid,
because the load was made while a whole packet still fitted behind it. -/
theorem snapshot_reserve (m : PacketSize) (queue : Queue) (write : Nat)
    (early : write + m.bytes ≤ bufferSize m) (seen : Snapshot queue write) :
    Snapshot (reserveBlock m queue).1 write := by
  rcases reserve_cases m queue with ⟨_,same⟩ | ⟨room,same⟩ | ⟨_,_,same⟩
  · rw [same]
    exact seen
  · rw [same]
    simp only [Snapshot,RoomInFront] at seen room ⊢
    omega
  · rw [same]
    exact seen

end ReceiveQueue
end OpenPlc.Usb
