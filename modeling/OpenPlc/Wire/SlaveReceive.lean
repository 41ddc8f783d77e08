import OpenPlc.Wire.Twi

/-! What the slave tells its user about the bytes it receives, and where it lets the HAL
put them. -/
namespace OpenPlc.Wire.Twi
open Memory

/-- Every index given to the HAL lies in the buffer, and every count passed on fits it. -/
structure Bounded (n : BufferSize) (s : State) : Prop where
  indices : ∀ index, Action.seqReceive index ∈ s.trace → index < n.bytes
  counts : ∀ bytes, Action.onSlaveReceive bytes ∈ s.trace → bytes.length ≤ n.bytes

/-- A byte that is received does not fill the buffer. -/
def Unfilled (n : BufferSize) (s : State) : Event → Prop
  | .byte _ => s.slaveRxNbData + 1 < n.bytes
  | _ => True

/-- The HAL puts a byte behind those counted, and only while a segment is received. -/
structure Receiving (s : State) : Prop where
  armed : ∀ index, s.armed = some index → s.slaveMode = .receive ∧ index = s.slaveRxNbData
  counted : s.slaveRxNbData ≠ 0 → s.slaveMode = .receive

theorem start_receiving (buffer : Nat → UInt8) (attached : Bool) : Receiving (start buffer attached) :=
  ⟨by simp [start],by simp [start]⟩

theorem byte_eq (n : BufferSize) (s next : State) (value : UInt8) (inv : Receiving s) (taken : byte n s value = some next) :
    next = { s with
      buffer := blit s.buffer s.slaveRxNbData [value], outside := s.outside || decide (n.bytes ≤ s.slaveRxNbData),
      slaveRxNbData := if s.slaveRxNbData < n.bytes then s.slaveRxNbData + 1 else s.slaveRxNbData,
      armed := some (if s.slaveRxNbData < n.bytes then s.slaveRxNbData + 1 else s.slaveRxNbData),
      trace := s.trace ++ [.seqReceive (if s.slaveRxNbData < n.bytes then s.slaveRxNbData + 1 else s.slaveRxNbData)] } := by
  obtain ⟨index,armed,rfl⟩ := Option.map_eq_some_iff.mp taken
  obtain ⟨mode,rfl⟩ := inv.armed index armed
  simp only [slaveRxCpltCallback,seqReceive]
  split <;> simp [mode]

theorem receiving_step (n : BufferSize) (s : State) (event : Event) (next : State) (inv : Receiving s)
    (taken : step n s event = some next) : Receiving next := by
  obtain ⟨_,shape⟩ := step_cases n s event next taken
  cases event with
  | write data =>
    obtain ⟨_,rfl⟩ := shape
    rw [write_eq]
    split
    · exact inv
    · exact ⟨inv.armed,inv.counted⟩
  | respond =>
    obtain ⟨_,rfl⟩ := shape
    exact ⟨inv.armed,inv.counted⟩
  | address direction =>
    obtain ⟨_,rfl⟩ := shape
    cases direction with
    | transmit =>
      rw [addrCallback_transmit s inv.counted]
      exact ⟨by simp,by simp⟩
    | receive =>
      rw [addrCallback_receive s inv.counted]
      split
      · exact ⟨by simp,by simp⟩
      · exact ⟨by simp,by simp⟩
  | byte value =>
    obtain ⟨_,put_⟩ := shape
    obtain ⟨index,armed,_⟩ := Option.map_eq_some_iff.mp put_
    have mode := (inv.armed index armed).1
    rw [byte_eq n s next value inv put_]
    exact ⟨by simp [mode],fun _ => mode⟩
  | slaveTxCplt =>
    obtain ⟨_,rfl⟩ := shape
    exact ⟨inv.armed,inv.counted⟩
  | listenCplt =>
    obtain ⟨_,rfl⟩ := shape
    rw [listenCpltCallback_eq]
    exact ⟨by simp,by simp⟩

theorem untold_length (n : BufferSize) (s : State) (within : s.slaveRxNbData ≤ n.bytes) (bytes : List UInt8)
    (told : Action.onSlaveReceive bytes ∈ untold s) : bytes.length ≤ n.bytes := by
  unfold untold at told
  split at told
  · simp only [List.mem_singleton,Action.onSlaveReceive.injEq] at told
    rw [told,slice_length]
    exact within
  · contradiction

theorem untold_quiet (s : State) (index : Nat) : Action.seqReceive index ∉ untold s := by
  unfold untold
  split <;> simp

theorem Bounded.more {n : BufferSize} {s next : State} (bounded : Bounded n s) (said : List Action)
    (longer : next.trace = s.trace ++ said) (indices : ∀ index, Action.seqReceive index ∈ said → index < n.bytes)
    (counts : ∀ bytes, Action.onSlaveReceive bytes ∈ said → bytes.length ≤ n.bytes) : Bounded n next := by
  constructor
  · intro index member
    rw [longer] at member
    rcases List.mem_append.mp member with before | new
    · exact bounded.indices index before
    · exact indices index new
  · intro bytes member
    rw [longer] at member
    rcases List.mem_append.mp member with before | new
    · exact bounded.counts bytes before
    · exact counts bytes new

/-- The counter stays below the size as long as no byte fills the buffer. -/
structure Below (n : BufferSize) (s : State) : Prop where
  receiving : Receiving s
  below : s.slaveRxNbData < n.bytes
  bounded : Bounded n s

theorem start_below (n : BufferSize) (buffer : Nat → UInt8) (attached : Bool) : Below n (start buffer attached) :=
  ⟨start_receiving buffer attached,n.positive,by simp [start],by simp [start]⟩

theorem below_step (n : BufferSize) (s : State) (event : Event) (next : State) (inv : Below n s) (room : Unfilled n s event)
    (taken : step n s event = some next) : Below n next := by
  have receiving := receiving_step n s event next inv.receiving taken
  have told := untold_length n s inv.below.le
  have positive := n.positive
  obtain ⟨_,shape⟩ := step_cases n s event next taken
  cases event with
  | write data =>
    obtain ⟨_,rfl⟩ := shape
    refine ⟨receiving,?_,inv.bounded.more [] ?_ (by simp) (by simp)⟩
    · rw [write_eq]
      split <;> exact inv.below
    · rw [write_eq]
      split <;> simp
  | respond =>
    obtain ⟨_,rfl⟩ := shape
    exact ⟨receiving,inv.below,inv.bounded.more [_] rfl (by simp) (by simp)⟩
  | address direction =>
    obtain ⟨_,rfl⟩ := shape
    cases direction with
    | transmit =>
      rw [addrCallback_transmit s inv.receiving.counted] at receiving ⊢
      refine ⟨receiving,positive,inv.bounded.more (untold s ++ [.seqReceive 0]) (List.append_assoc ..) ?_ ?_⟩
      · simpa [untold_quiet] using positive
      · simpa using told
    | receive =>
      rw [addrCallback_receive s inv.receiving.counted] at receiving ⊢
      split at receiving
      · rename_i attached
        rw [if_pos attached]
        refine ⟨receiving,positive,inv.bounded.more (untold s ++ [.onSlaveTransmit]) (List.append_assoc ..) ?_ ?_⟩
        · simp [untold_quiet]
        · simpa using told
      · rename_i detached
        rw [if_neg detached]
        refine ⟨receiving,positive,inv.bounded.more (untold s ++ [.seqTransmit _]) (List.append_assoc ..) ?_ ?_⟩
        · simp [untold_quiet]
        · simpa using told
  | byte value =>
    obtain ⟨_,put_⟩ := shape
    have room : s.slaveRxNbData + 1 < n.bytes := room
    have same := byte_eq n s next value inv.receiving put_
    rw [if_pos inv.below] at same
    subst same
    refine ⟨receiving,room,inv.bounded.more [_] rfl ?_ (by simp)⟩
    simpa using room
  | slaveTxCplt =>
    obtain ⟨_,rfl⟩ := shape
    exact ⟨receiving,inv.below,inv.bounded.indices,inv.bounded.counts⟩
  | listenCplt =>
    obtain ⟨_,rfl⟩ := shape
    rw [listenCpltCallback_eq] at receiving ⊢
    refine ⟨receiving,positive,inv.bounded.more (untold s) rfl ?_ told⟩
    simp [untold_quiet]

theorem filled_breaks (n : BufferSize) (s : State) (event : Event) (next : State) (inv : Below n s)
    (full : ¬ Unfilled n s event) (taken : step n s event = some next) : ¬ Bounded n next := by
  obtain ⟨_,shape⟩ := step_cases n s event next taken
  intro bounded
  cases event with
  | byte value =>
    have full : n.bytes ≤ s.slaveRxNbData + 1 := Nat.not_lt.mp full
    have same := byte_eq n s next value inv.receiving shape.2
    rw [if_pos inv.below] at same
    have inside := bounded.indices (s.slaveRxNbData + 1) (by rw [same]; simp)
    omega
  | _ => exact full trivial

/-- The slave stays inside of its buffer in exactly the runs in which no received byte
fills it. -/
theorem bounded_iff_unfilled (n : BufferSize) (buffer : Nat → UInt8) (attached : Bool) (events : List Event) :
    Run.Throughout (Bounded n) (step n) (start buffer attached) events ↔
      Run.Meets (Unfilled n) (step n) (start buffer attached) events :=
  Run.throughout_iff_meets (Bounded n) (Below n) (Unfilled n) (fun _ inv => inv.bounded) (below_step n) (filled_breaks n)
    (start buffer attached) events (start_below n buffer attached)

/-- A transfer of 32 bytes: behind the last one the HAL is given the byte behind the buffer. -/
theorem full_buffer_armed : ¬ Run.Throughout (Bounded defaultSize) (step defaultSize) (start (fun _ => 0) true)
    (.address .transmit :: List.replicate 32 (.byte 7)) := by
  intro holds
  have reached : ∃ s, Run.after (step defaultSize) (start (fun _ => 0) true)
      (.address .transmit :: List.replicate 32 (.byte 7)) = some s ∧ Action.seqReceive 32 ∈ s.trace := ⟨_,rfl,by decide⟩
  obtain ⟨s,after,armed⟩ := reached
  exact absurd ((holds _ s (List.prefix_refl _) after).indices 32 armed) (by decide)

end OpenPlc.Wire.Twi
