import OpenPlc.Lib.Run
import OpenPlc.Lib.Fifo
import OpenPlc.Usb.ReceiveReaders

/-! Runs of the receive queue: the interrupt side reserves, fills and commits blocks
while the reader side loads `write`, may be interrupted by commits, and only then
loads `length` and finishes its call. -/
namespace OpenPlc.Usb.ReceiveRun
open Memory ReceiveQueue

inductive ReaderCall
  | readSize
  | peek
  | dequeue
  | read (size : Nat)
  | readUntil (terminator : UInt8) (size : Nat)

inductive Answer
  | size (count : Nat)
  | peeked (byte : Option UInt8)
  | byte (byte : Option UInt8)
  | bytes (copied : List UInt8)
  | scanned (terminator : UInt8) (scan : List UInt8 × Bool)

/-- The second half of a reader call, from its load of `length` on. -/
def perform (call : ReaderCall) (write : Nat) (queue : Queue) : Queue × Answer :=
  match call with
  | .readSize => (queue,.size (readSize write queue))
  | .peek => ((peek write queue).1,.peeked (peek write queue).2)
  | .dequeue => ((dequeue write queue).1,.byte (dequeue write queue).2)
  | .read size => ((read write queue size).1,.bytes (read write queue size).2)
  | .readUntil terminator size =>
    ((readUntil write queue terminator size).1,.scanned terminator (readUntil write queue terminator size).2)

/-- The bytes the caller obtains: a peeked byte stays in the queue, a terminator leaves it. -/
def Answer.obtained : Answer → List UInt8
  | .size _ => []
  | .peeked _ => []
  | .byte taken => taken.toList
  | .bytes copied => copied
  | .scanned terminator scan => consumed terminator scan

structure State where
  queue : Queue
  reserved : Option Nat
  loaded : Option (ReaderCall × Nat)
  committedSinceLoad : Bool
  committed : List UInt8
  obtained : List UInt8

inductive Event
  | reserve
  | fill (data : List UInt8)
  | commit (size : Nat)
  | commitReserve (size : Nat)
  | load (call : ReaderCall)
  | complete

def start (m : PacketSize) (queue : Queue) : State := ⟨init m queue,none,none,false,[],[]⟩

def commit (m : PacketSize) (s : State) (size : Nat) : Option State :=
  match s.reserved with
  | none => none
  | some block =>
    if size ≤ m.bytes then some {s with
      queue := commitBlock m s.queue size, reserved := none, committedSinceLoad := true,
      committed := s.committed ++ slice s.queue.buffer block size}
    else none

def reserve (m : PacketSize) (s : State) : State :=
  {s with queue := (reserveBlock m s.queue).1, reserved := (reserveBlock m s.queue).2}

/-- A block is reserved once at a time. Between the two loads of a reader call only
the interrupt runs, so a reservation happens there only right after a commit. -/
def step (m : PacketSize) (s : State) : Event → Option State
  | .reserve => if s.reserved = none ∧ s.loaded.isNone then some (reserve m s) else none
  | .fill data =>
    match s.reserved with
    | none => none
    | some block =>
      if data.length ≤ m.bytes then
        some {s with queue := {s.queue with buffer := blit s.queue.buffer block data}}
      else none
  | .commit size => commit m s size
  | .commitReserve size => (commit m s size).map (reserve m)
  | .load call =>
    if s.loaded.isNone then some {s with loaded := some (call,s.queue.write), committedSinceLoad := false}
    else none
  | .complete =>
    match s.loaded with
    | none => none
    | some (call,write) => some {s with
        queue := (perform call write s.queue).1, loaded := none,
        obtained := s.obtained ++ (perform call write s.queue).2.obtained}

/-- Some reader that is not interrupted is told that nothing is there. -/
def looksEmpty (queue : Queue) : Prop :=
  readSize queue.write queue = 0 ∨ (dequeue queue.write queue).2 = none ∨ (peek queue.write queue).2 = none

/-- What a run owes its reader in every state. -/
structure Faithful (m : PacketSize) (s : State) : Prop where
  ordered : s.obtained <+: s.committed
  complete : unread s.queue = s.committed.drop s.obtained.length
  inside : ∀ i ∈ unreadPositions s.queue, i < bufferSize m
  block : ∀ p, s.reserved = some p →
    p + m.bytes ≤ bufferSize m ∧ ∀ i ∈ unreadPositions s.queue, i < p ∨ p + m.bytes ≤ i
  answered : ∀ call write, s.loaded = some (call,write) →
    s.obtained ++ (perform call write s.queue).2.obtained <+: s.committed
  peeked : ∀ call write byte, s.loaded = some (call,write) →
    (perform call write s.queue).2 = .peeked (some byte) → s.obtained ++ [byte] <+: s.committed
  sized : ∀ call write count, s.loaded = some (call,write) →
    (perform call write s.queue).2 = .size count → count ≤ s.committed.length - s.obtained.length ∧
      (s.committedSinceLoad = false → count = s.committed.length - s.obtained.length)
  visible : looksEmpty s.queue → s.obtained = s.committed
  commits : ∀ size next, step m s (.commit size) = some next ∨ step m s (.commitReserve size) = some next →
    looksEmpty next.queue → looksEmpty s.queue

/-- The run invariant: the queue is a window on a stream that loses nothing, and a
load of `write` in progress still tells the truth. -/
structure Inv (m : PacketSize) (s : State) : Prop where
  layout : Layout m s.queue s.reserved
  stream : ∃ fifo : Fifo UInt8, fifo.accepted = s.committed ∧ fifo.delivered = s.obtained ∧
    fifo.pending = unread s.queue
  snapshot : ∀ call write, s.loaded = some (call,write) → Snapshot s.queue write ∧
    (s.reserved.isSome → write + m.bytes ≤ bufferSize m) ∧
    (s.committedSinceLoad = false → write = s.queue.write)

theorem perform_spec {m : PacketSize} {reserved : Option Nat} (call : ReaderCall) (write : Nat) (queue : Queue)
    (layout : Layout m queue reserved) (seen : Snapshot queue write) :
    Layout m (perform call write queue).1 reserved ∧
      (perform call write queue).2.obtained ++ unread (perform call write queue).1 = unread queue := by
  cases call with
  | readSize => exact ⟨layout,rfl⟩
  | peek =>
    obtain ⟨after,kept,_⟩ := peek_spec queue write layout seen
    exact ⟨after,kept⟩
  | dequeue =>
    obtain ⟨after,taken,_⟩ := dequeue_spec queue write layout seen
    exact ⟨after,taken⟩
  | read size => exact read_spec queue write size layout seen
  | readUntil terminator size => exact readUntil_spec queue write size terminator layout seen

theorem perform_buffer (call : ReaderCall) (write : Nat) (queue : Queue) :
    (perform call write queue).1.buffer = queue.buffer := by
  cases call with
  | readSize => rfl
  | peek =>
    simp only [perform,peek]
    split <;> simp
  | dequeue =>
    simp only [perform,dequeue]
    by_cases last : queue.read = queue.length <;> simp only [last,if_true,if_false] <;> split <;> simp
  | read size => simp [perform,ReceiveQueue.read]
  | readUntil terminator size => simp [perform,readUntil]

theorem looksEmpty_iff {m : PacketSize} {reserved : Option Nat} (queue : Queue)
    (layout : Layout m queue reserved) : looksEmpty queue ↔ unread queue = [] := by
  have seen := snapshot_load m queue reserved layout
  obtain ⟨wrapped,_,ahead,kept⟩ := wrapRead_ready queue queue.write layout seen
  have caught_up (same : queue.write = (wrapRead queue).read) : unread queue = [] := by
    rw [← kept,unread_flat (wrapRead queue) (by simp [same]),wrapRead_write,same,Nat.sub_self]
    rfl
  constructor
  · rintro (zero | missing | missing)
    · rw [readSize_eq queue layout] at zero
      exact List.eq_nil_of_length_eq_zero zero
    · exact caught_up ((dequeue_spec queue queue.write layout seen).2.2 missing)
    · exact caught_up ((peek_spec queue queue.write layout seen).2.2.2 missing)
  · intro empty
    left
    rw [readSize_eq queue layout,empty]
    rfl

theorem start_inv (m : PacketSize) (queue : Queue) : Inv m (start m queue) :=
  ⟨init_layout m queue,⟨Fifo.empty,rfl,rfl,(init_unread m queue).symm⟩,by simp [start]⟩

theorem commit_inv (m : PacketSize) (s next : State) (size : Nat) (inv : Inv m s)
    (taken : commit m s size = some next) :
    Inv m next ∧ next.reserved = none ∧ next.loaded = s.loaded ∧
      (∀ call write, s.loaded = some (call,write) → write + m.bytes ≤ bufferSize m) ∧
      next.committedSinceLoad = true ∧ (unread next.queue = [] → unread s.queue = []) := by
  unfold commit at taken
  cases held : s.reserved with
  | none => simp [held] at taken
  | some block =>
    have layout : Layout m s.queue (some block) := held ▸ inv.layout
    rw [held] at taken
    dsimp only at taken
    split at taken
    · rename_i small
      cases Option.some.inj taken
      obtain ⟨fifo,accepted,delivered,pending⟩ := inv.stream
      have appended := commit_unread m s.queue block size layout small
      refine ⟨⟨commit_layout m s.queue block size layout small,?_,?_⟩,rfl,rfl,?_,rfl,?_⟩
      · exact ⟨fifo.push (slice s.queue.buffer block size),by simp [accepted],by simp [delivered],
          by simp [pending,appended]⟩
      · intro call write loaded
        obtain ⟨seen,_,_⟩ := inv.snapshot call write loaded
        exact ⟨snapshot_commit m s.queue block size write layout small seen,by simp,by simp⟩
      · intro call write loaded
        exact (inv.snapshot call write loaded).2.1 (by simp [held])
      · intro empty
        rw [appended] at empty
        exact (List.append_eq_nil_iff.mp empty).1
    · contradiction

theorem reserve_inv (m : PacketSize) (s : State) (inv : Inv m s) (free : s.reserved = none)
    (early : ∀ call write, s.loaded = some (call,write) →
      write + m.bytes ≤ bufferSize m ∧ s.committedSinceLoad = true) : Inv m (reserve m s) := by
  have layout : Layout m s.queue none := free ▸ inv.layout
  obtain ⟨fifo,accepted,delivered,pending⟩ := inv.stream
  refine ⟨reserve_layout m s.queue layout,?_,?_⟩
  · exact ⟨fifo,accepted,delivered,by simp only [reserve,reserve_unread,pending]⟩
  · intro call write loaded
    obtain ⟨seen,_,_⟩ := inv.snapshot call write loaded
    obtain ⟨bound,since⟩ := early call write loaded
    exact ⟨snapshot_reserve m s.queue write bound seen,fun _ => bound,by simp [reserve,since]⟩

theorem step_inv (m : PacketSize) (s : State) (event : Event) (next : State) (inv : Inv m s)
    (taken : step m s event = some next) : Inv m next := by
  obtain ⟨fifo,accepted,delivered,pending⟩ := inv.stream
  cases event with
  | reserve =>
    simp only [step] at taken
    split at taken
    · rename_i idle
      cases Option.some.inj taken
      apply reserve_inv m s inv idle.1
      intro call write loaded
      simp [loaded] at idle
    · contradiction
  | fill data =>
    simp only [step] at taken
    split at taken
    · contradiction
    · rename_i block held
      split at taken
      · rename_i small
        cases Option.some.inj taken
        have layout : Layout m s.queue (some block) := held ▸ inv.layout
        have kept := fill_unread m s.queue block data layout small
        have moved : Layout m {s.queue with buffer := blit s.queue.buffer block data} s.reserved := by
          obtain ⟨a,b,c,d,e,f⟩ := inv.layout
          exact ⟨a,b,c,d,e,f⟩
        exact ⟨moved,⟨fifo,accepted,delivered,pending.trans kept.symm⟩,inv.snapshot⟩
      · contradiction
  | commit size => exact (commit_inv m s next size inv taken).1
  | commitReserve size =>
    simp only [step] at taken
    obtain ⟨middle,first,rfl⟩ := Option.map_eq_some_iff.mp taken
    obtain ⟨kept,free,loads,early,since,_⟩ := commit_inv m s middle size inv first
    apply reserve_inv m middle kept free
    intro call write loaded
    exact ⟨early call write (loads ▸ loaded),since⟩
  | load call =>
    simp only [step] at taken
    split at taken
    · cases Option.some.inj taken
      refine ⟨inv.layout,⟨fifo,accepted,delivered,pending⟩,?_⟩
      intro call' write loaded
      cases Option.some.inj loaded
      exact ⟨snapshot_load m s.queue s.reserved inv.layout,load_early m s.queue s.reserved inv.layout,
        fun _ => rfl⟩
    · contradiction
  | complete =>
    simp only [step] at taken
    split at taken
    · contradiction
    · rename_i call write loaded
      cases Option.some.inj taken
      obtain ⟨after,parted⟩ := perform_spec call write s.queue inv.layout (inv.snapshot call write loaded).1
      refine ⟨after,⟨fifo.pop (perform call write s.queue).2.obtained.length,accepted,?_,?_⟩,by simp⟩
      · rw [Fifo.pop_delivered,delivered,pending,← parted,List.take_left]
      · rw [Fifo.pop_pending,pending,← parted,List.drop_left]

theorem inv_faithful (m : PacketSize) (s : State) (inv : Inv m s) : Faithful m s := by
  obtain ⟨fifo,accepted,delivered,pending⟩ := inv.stream
  have split_ := fifo.ledger
  rw [accepted,delivered,pending] at split_
  have inside : ∀ i ∈ unreadPositions s.queue, i < bufferSize m := by
    intro i member
    have bounds := inv.layout.write_lt
    have within := inv.layout.length_le
    unfold unreadPositions at member
    split at member
    · simp only [List.mem_range'_1] at member
      omega
    · simp only [List.mem_append,List.mem_range'_1] at member
      omega
  have counted : (unread s.queue).length = s.committed.length - s.obtained.length := by
    have := congrArg List.length split_
    rw [List.length_append] at this
    omega
  have empty (looks : looksEmpty s.queue) : unread s.queue = [] := (looksEmpty_iff s.queue inv.layout).mp looks
  refine ⟨⟨_,split_⟩,?_,inside,?_,?_,?_,?_,?_,?_⟩
  · rw [← split_,List.drop_left]
  · intro p held
    obtain ⟨fits,apart⟩ := reserved_apart m s.queue p (held ▸ inv.layout)
    exact ⟨fits,fun i member => (apart i member).2⟩
  · intro call write loaded
    obtain ⟨_,parted⟩ := perform_spec call write s.queue inv.layout (inv.snapshot call write loaded).1
    exact ⟨_,by rw [List.append_assoc,parted,split_]⟩
  · intro call write byte loaded answer
    cases call with
    | peek =>
      have front := (peek_spec s.queue write inv.layout (inv.snapshot _ write loaded).1).2.2.1 byte
        (by simpa [perform] using answer)
      exact ⟨(unread s.queue).drop 1,by rw [List.append_assoc,← front,List.take_append_drop,split_]⟩
    | _ => simp [perform] at answer
  · intro call write count loaded answer
    cases call with
    | readSize =>
      have counts : readSize write s.queue = count := by simpa [perform] using answer
      obtain ⟨seen,_,fresh⟩ := inv.snapshot _ write loaded
      rw [← counts,← counted]
      refine ⟨readSize_le s.queue write inv.layout seen,fun quiet => ?_⟩
      rw [fresh quiet,readSize_eq s.queue inv.layout]
    | _ => simp [perform] at answer
  · intro looks
    rw [empty looks,List.append_nil] at split_
    exact split_
  · intro size next taken looks
    rw [looksEmpty_iff s.queue inv.layout]
    rcases taken with alone | reserving
    · obtain ⟨kept,_,_,_,_,shrinks⟩ := commit_inv m s next size inv alone
      exact shrinks ((looksEmpty_iff next.queue kept.layout).mp looks)
    · have kept := step_inv m s _ next inv reserving
      have bare := (looksEmpty_iff next.queue kept.layout).mp looks
      obtain ⟨middle,first,rfl⟩ := Option.map_eq_some_iff.mp reserving
      obtain ⟨_,_,_,_,_,shrinks⟩ := commit_inv m s middle size inv first
      apply shrinks
      rw [← bare,reserve,reserve_unread]

/-- Over every run from `CDC_ReceiveQueue_Init`, whatever the packet sizes and wherever
the interrupts fall, the reader sees the committed stream and nothing else. -/
theorem receive_faithful (m : PacketSize) (queue : Queue) (events : List Event) :
    Run.Throughout (Faithful m) (step m) (start m queue) events := by
  intro done s _ reached
  exact inv_faithful m s (Run.invariant (Inv m) (step_inv m) _ s done (start_inv m queue) reached)

end OpenPlc.Usb.ReceiveRun
