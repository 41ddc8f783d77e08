import OpenPlc.Usb.ReceiveQueue

/-! The reader side of the receive queue. Every reader takes bytes from the front
of the unread bytes, whatever an interrupt committed after its load of `write`. -/
namespace OpenPlc.Usb.ReceiveQueue
open Memory

variable {m : PacketSize} {reserved : Option Nat}

@[simp] theorem wrapRead_write (queue : Queue) : (wrapRead queue).write = queue.write := by
  unfold wrapRead
  split <;> rfl

@[simp] theorem wrapRead_length (queue : Queue) : (wrapRead queue).length = queue.length := by
  unfold wrapRead
  split <;> rfl

@[simp] theorem wrapRead_buffer (queue : Queue) : (wrapRead queue).buffer = queue.buffer := by
  unfold wrapRead
  split <;> rfl

theorem wrapRead_lt (queue : Queue) (layout : Layout m queue reserved) :
    (wrapRead queue).read < queue.length := by
  have bounds := layout.write_lt
  unfold wrapRead
  split
  · dsimp only
    omega
  · omega

theorem wrapRead_layout (queue : Queue) (layout : Layout m queue reserved) :
    Layout m (wrapRead queue) reserved := by
  have positive := m.positive
  have bounds := layout.write_lt
  have inside := layout.length_le
  have before := layout.read_le
  have room := layout.wrapped_room
  unfold wrapRead
  split
  · refine ⟨bounds,inside,Nat.zero_le _,layout.block,?_,?_⟩
    · intro held _
      have := room held (by omega)
      dsimp only
      omega
    · intro _ wrapped
      dsimp only at wrapped
      omega
  · exact layout

theorem wrapRead_unread (queue : Queue) (layout : Layout m queue reserved) :
    unread (wrapRead queue) = unread queue := by
  have bounds := layout.write_lt
  have before := layout.read_le
  unfold wrapRead
  split
  · rename_i last
    have same : queue.read = queue.length := by omega
    rw [unread_flat _ (Nat.zero_le _),unread_wrapped queue (by omega),same,Nat.sub_self]
    rfl
  · rfl

theorem snapshot_wrapRead (queue : Queue) (write : Nat) (layout : Layout m queue reserved)
    (seen : Snapshot queue write) : Snapshot (wrapRead queue) write := by
  have bounds := layout.write_lt
  unfold wrapRead
  split
  · simp only [Snapshot] at seen ⊢
    omega
  · exact seen

theorem available_le (queue : Queue) (write : Nat) (seen : Snapshot queue write) :
    available write queue ≤ available queue.write queue := by
  simp only [Snapshot,available] at seen ⊢
  split <;> split <;> omega

theorem unread_take (queue : Queue) (count : Nat) (within : count ≤ available queue.write queue) :
    (unread queue).take count = slice queue.buffer queue.read count := by
  unfold available at within
  split at within
  · rename_i flat
    rw [unread_flat queue flat,slice_take _ _ _ _ within]
  · rename_i wrapped
    rw [unread_wrapped queue (by omega),List.take_append_of_le_length (by simpa using within),
      slice_take _ _ _ _ within]

theorem consume (queue : Queue) (count : Nat) (layout : Layout m queue reserved)
    (ahead : queue.read < queue.length) (within : count ≤ available queue.write queue) :
    Layout m (wrapRead {queue with read := (queue.read + count) % 65536}) reserved ∧
      unread (wrapRead {queue with read := (queue.read + count) % 65536}) = (unread queue).drop count := by
  have positive := m.positive
  have fits := m.fits
  have bounds := layout.write_lt
  have inside := layout.length_le
  have flat_room := layout.flat_room
  have wrapped_room := layout.wrapped_room
  have reached : queue.read + count ≤ queue.length := by
    unfold available at within
    split at within <;> omega
  have exact_ : (queue.read + count) % 65536 = queue.read + count := by
    apply Nat.mod_eq_of_lt
    simp only [bufferSize] at inside
    omega
  rw [exact_]
  have moved : Layout m {queue with read := queue.read + count} reserved := by
    refine ⟨bounds,inside,reached,layout.block,?_,?_⟩
    · intro held flat
      have near := flat_room held
      have far := wrapped_room held
      unfold available at within
      dsimp only at flat ⊢
      split at within <;> omega
    · intro held wrapped
      have far := wrapped_room held
      unfold available at within
      dsimp only at wrapped ⊢
      split at within <;> omega
  refine ⟨wrapRead_layout _ moved,?_⟩
  rw [wrapRead_unread _ moved]
  unfold available at within
  split at within
  · rename_i flat
    rw [unread_flat queue flat,unread_flat _ (by dsimp only; omega),slice_drop _ _ _ _ within]
    dsimp only
    rw [Nat.sub_add_eq]
  · rename_i wrapped
    rw [unread_wrapped queue (by omega),unread_wrapped _ (by dsimp only; omega),
      List.drop_append_of_le_length (by simpa using within),slice_drop _ _ _ _ within]
    dsimp only
    rw [Nat.sub_add_eq]

theorem readSize_le (queue : Queue) (write : Nat) (layout : Layout m queue reserved)
    (seen : Snapshot queue write) : readSize write queue ≤ (unread queue).length := by
  have bounds := layout.write_lt
  have before := layout.read_le
  simp only [Snapshot,readSize] at seen ⊢
  by_cases flat : queue.read ≤ queue.write
  · rw [unread_flat queue flat,slice_length]
    split <;> omega
  · rw [unread_wrapped queue (by omega),List.length_append,slice_length,slice_length]
    split <;> omega

theorem readSize_eq (queue : Queue) (layout : Layout m queue reserved) :
    readSize queue.write queue = (unread queue).length := by
  have before := layout.read_le
  unfold readSize
  split
  · rename_i flat
    rw [unread_flat queue flat,slice_length]
  · rename_i wrapped
    rw [unread_wrapped queue (by omega),List.length_append,slice_length,slice_length]
    omega

theorem wrapRead_ready (queue : Queue) (write : Nat) (layout : Layout m queue reserved)
    (seen : Snapshot queue write) :
    Layout m (wrapRead queue) reserved ∧ Snapshot (wrapRead queue) write ∧
      (wrapRead queue).read < (wrapRead queue).length ∧ unread (wrapRead queue) = unread queue :=
  ⟨wrapRead_layout queue layout,snapshot_wrapRead queue write layout seen,
    by simpa using wrapRead_lt queue layout,wrapRead_unread queue layout⟩

theorem one_available (queue : Queue) (write : Nat) (seen : Snapshot queue write)
    (ahead : queue.read < queue.length) (more : write ≠ queue.read) :
    1 ≤ available queue.write queue := by
  refine Nat.le_trans ?_ (available_le queue write seen)
  simp only [Snapshot,available] at seen ⊢
  split <;> omega

theorem scanUntil_take (terminator : UInt8) (window : List UInt8) :
    consumed terminator (scanUntil terminator window) =
      window.take (fetched (scanUntil terminator window)) := by
  induction window with
  | nil => rfl
  | cons ch rest ih =>
    unfold scanUntil
    split
    · rename_i same
      simp [same,consumed,fetched]
    · cases found : (scanUntil terminator rest).2 <;>
        simpa [consumed,fetched,found] using ih

theorem fetched_le (terminator : UInt8) (window : List UInt8) :
    fetched (scanUntil terminator window) ≤ window.length := by
  induction window with
  | nil => simp [scanUntil,fetched]
  | cons ch rest ih =>
    unfold scanUntil
    split
    · simp [fetched]
    · cases found : (scanUntil terminator rest).2 <;> simp_all [fetched]

theorem dequeue_spec (queue : Queue) (write : Nat) (layout : Layout m queue reserved)
    (seen : Snapshot queue write) :
    Layout m (dequeue write queue).1 reserved ∧
      ((dequeue write queue).2.toList ++ unread (dequeue write queue).1 = unread queue) ∧
      ((dequeue write queue).2 = none → write = (wrapRead queue).read) := by
  have before := layout.read_le
  have same : (if queue.read = queue.length then {queue with read := 0} else queue) = wrapRead queue := by
    unfold wrapRead
    by_cases last : queue.read = queue.length
    · simp [last]
    · simp only [last,if_false,show ¬ queue.length ≤ queue.read by omega]
  obtain ⟨wrapped,view,ahead,kept⟩ := wrapRead_ready queue write layout seen
  simp only [dequeue,same]
  generalize wrapRead queue = inner at *
  by_cases empty : write = inner.read
  · simp [empty,wrapped,kept]
  · have room := one_available inner write view ahead empty
    obtain ⟨after,rest⟩ := consume inner 1 wrapped ahead room
    have front := unread_take inner 1 room
    simp only [empty,if_false]
    refine ⟨after,?_,by simp⟩
    rw [rest,← kept]
    conv_rhs => rw [← List.take_append_drop 1 (unread inner),front]
    rfl

theorem peek_spec (queue : Queue) (write : Nat) (layout : Layout m queue reserved)
    (seen : Snapshot queue write) :
    Layout m (peek write queue).1 reserved ∧ unread (peek write queue).1 = unread queue ∧
      (∀ byte, (peek write queue).2 = some byte → (unread queue).take 1 = [byte]) ∧
      ((peek write queue).2 = none → write = (wrapRead queue).read) := by
  obtain ⟨wrapped,view,ahead,kept⟩ := wrapRead_ready queue write layout seen
  simp only [peek]
  rw [← kept]
  generalize wrapRead queue = inner at *
  by_cases empty : write = inner.read
  · simp [empty,wrapped]
  · have room := one_available inner write view ahead empty
    simp only [empty,if_false]
    refine ⟨wrapped,trivial,?_,by simp⟩
    intro byte taken
    rw [unread_take inner 1 room,← Option.some.inj taken]
    rfl

theorem read_spec (queue : Queue) (write size : Nat) (layout : Layout m queue reserved)
    (seen : Snapshot queue write) :
    Layout m (read write queue size).1 reserved ∧
      (read write queue size).2 ++ unread (read write queue size).1 = unread queue := by
  obtain ⟨wrapped,view,ahead,kept⟩ := wrapRead_ready queue write layout seen
  simp only [read]
  rw [← kept]
  generalize wrapRead queue = inner at *
  have room : min (available write inner) size ≤ available inner.write inner :=
    Nat.le_trans (Nat.min_le_left _ _) (available_le inner write view)
  obtain ⟨after,rest⟩ := consume inner _ wrapped ahead room
  refine ⟨after,?_⟩
  rw [rest,← unread_take inner _ room,List.take_append_drop]

theorem readUntil_spec (queue : Queue) (write size : Nat) (terminator : UInt8)
    (layout : Layout m queue reserved) (seen : Snapshot queue write) :
    Layout m (readUntil write queue terminator size).1 reserved ∧
      consumed terminator (readUntil write queue terminator size).2 ++
        unread (readUntil write queue terminator size).1 = unread queue := by
  obtain ⟨wrapped,view,ahead,kept⟩ := wrapRead_ready queue write layout seen
  simp only [readUntil]
  rw [← kept]
  generalize wrapRead queue = inner at *
  have room : min (available write inner) size ≤ available inner.write inner :=
    Nat.le_trans (Nat.min_le_left _ _) (available_le inner write view)
  generalize min (available write inner) size = count at *
  have window := unread_take inner count room
  have copied := scanUntil_take terminator (slice inner.buffer inner.read count)
  have inside := fetched_le terminator (slice inner.buffer inner.read count)
  rw [slice_length] at inside
  rw [copied]
  generalize fetched (scanUntil terminator (slice inner.buffer inner.read count)) = taken at *
  obtain ⟨after,rest⟩ := consume inner taken wrapped ahead (Nat.le_trans inside room)
  refine ⟨after,?_⟩
  rw [rest,← window,List.take_take,Nat.min_eq_left inside,List.take_append_drop]

end OpenPlc.Usb.ReceiveQueue
