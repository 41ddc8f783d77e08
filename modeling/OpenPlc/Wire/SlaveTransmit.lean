import OpenPlc.Wire.SlaveReceive

/-! What the slave answers: the calls of `TwoWire::write` in the callback for a read request
fill the buffer together. -/
namespace OpenPlc.Wire.Twi
open Memory

/-- The size is one of the buffer, and the answer is what was accepted so far. -/
structure Kept (n : BufferSize) (s : State) : Prop where
  size : s.bufferSize ≤ n.bytes
  answer : s.inRequest = true → slice s.buffer 0 s.bufferSize = s.accepted

/-- The law of one write: what fits is appended and changes nothing outside of the buffer, and
what does not fit is refused. -/
def Lawful (n : BufferSize) (s : State) : Event → Prop
  | .write data =>
    let (next,ok) := slaveWrite n s data
    if s.bufferSize + data.length ≤ n.bytes then
      ok = true ∧ slice next.buffer 0 next.bufferSize = slice s.buffer 0 s.bufferSize ++ data ∧
        ∀ i, n.bytes ≤ i → next.buffer i = s.buffer i
    else ok = false ∧ next = s
  | _ => True

/-- A write fits behind the others, or is refused because 16 bits of its length are already
more than the whole buffer. -/
def Fits (n : BufferSize) (s : State) : Event → Prop
  | .write data => s.bufferSize + data.length ≤ n.bytes ∨ n.bytes < data.length % 65536
  | _ => True

theorem slaveWrite_fits (n : BufferSize) (s : State) (data : List UInt8) (fits : s.bufferSize + data.length ≤ n.bytes) :
    slaveWrite n s data = ({ s with
        buffer := blit s.buffer s.bufferSize data, bufferSize := s.bufferSize + data.length },true) ∧
      slice (blit s.buffer s.bufferSize data) 0 (s.bufferSize + data.length) = slice s.buffer 0 s.bufferSize ++ data := by
  have small := n.small
  have size : data.length % 65536 = data.length := Nat.mod_eq_of_lt (by omega)
  have sum : (s.bufferSize + data.length) % 256 = s.bufferSize + data.length := Nat.mod_eq_of_lt (by omega)
  constructor
  · have inside : ¬ n.bytes < s.bufferSize + data.length := by omega
    have whole : ¬ n.bytes < data.length := by omega
    simp [slaveWrite,size,sum,inside,whole]
  · have appended := slice_blit_append s.buffer 0 s.bufferSize data
    rw [Nat.zero_add] at appended
    exact appended

theorem slaveWrite_refused (n : BufferSize) (s : State) (data : List UInt8) (long : n.bytes < data.length % 65536) :
    slaveWrite n s data = (s,false) := by
  simp only [slaveWrite,if_pos long]

theorem lawful_iff_fits (n : BufferSize) (s : State) (event : Event) : Lawful n s event ↔ Fits n s event := by
  cases event with
  | write data =>
    by_cases fits : s.bufferSize + data.length ≤ n.bytes
    · obtain ⟨same,appended⟩ := slaveWrite_fits n s data fits
      simp only [Lawful,Fits,same,fits,if_true,true_or,iff_true]
      exact ⟨trivial,appended,fun i beyond => blit_above _ _ _ _ (by omega)⟩
    · simp only [Lawful,Fits,fits,if_false,false_or]
      constructor
      · rintro ⟨refused,_⟩
        by_contra short
        simp [slaveWrite,short] at refused
      · intro long
        rw [slaveWrite_refused n s data long]
        exact ⟨rfl,rfl⟩
  | _ => exact Iff.rfl

theorem kept_step (n : BufferSize) (s : State) (event : Event) (next : State) (kept : Kept n s ∧ Receiving s)
    (fits : Fits n s event) (taken : step n s event = some next) : Kept n next ∧ Receiving next := by
  obtain ⟨kept,receiving⟩ := kept
  refine ⟨?_,receiving_step n s event next receiving taken⟩
  obtain ⟨_,shape⟩ := step_cases n s event next taken
  cases event with
  | write data =>
    obtain ⟨inside,rfl⟩ := shape
    rcases fits with fits | long
    · obtain ⟨same,appended⟩ := slaveWrite_fits n s data fits
      simp only [write,same,if_true]
      refine ⟨fits,fun _ => ?_⟩
      rw [appended,kept.answer inside]
    · simp only [write,slaveWrite_refused n s data long]
      exact kept
  | respond =>
    obtain ⟨_,rfl⟩ := shape
    exact ⟨kept.size,by simp [respond,seqTransmit]⟩
  | address direction =>
    obtain ⟨outer,rfl⟩ := shape
    cases direction with
    | transmit =>
      rw [addrCallback_transmit s receiving.counted]
      exact ⟨kept.size,by simp [outer]⟩
    | receive =>
      rw [addrCallback_receive s receiving.counted]
      split
      · exact ⟨Nat.zero_le _,fun _ => rfl⟩
      · exact ⟨kept.size,by simp [outer]⟩
  | byte value =>
    obtain ⟨outer,put_⟩ := shape
    rw [byte_eq n s next value receiving put_]
    exact ⟨kept.size,by simp [outer]⟩
  | slaveTxCplt =>
    obtain ⟨outer,rfl⟩ := shape
    exact ⟨Nat.zero_le _,by simp [slaveTxCpltCallback,outer]⟩
  | listenCplt =>
    obtain ⟨outer,rfl⟩ := shape
    rw [listenCpltCallback_eq]
    exact ⟨kept.size,by simp [outer]⟩

/-- The answers of the slave are kept in the buffer in exactly the runs in which every write
fits behind the ones before it, or is refused for its own length. -/
theorem answer_iff_fits (n : BufferSize) (buffer : Nat → UInt8) (attached : Bool) (events : List Event) :
    (Run.Throughout (Kept n) (step n) (start buffer attached) events ∧
        Run.Meets (Lawful n) (step n) (start buffer attached) events) ↔
      Run.Meets (Fits n) (step n) (start buffer attached) events := by
  have initial : Kept n (start buffer attached) ∧ Receiving (start buffer attached) :=
    ⟨⟨Nat.zero_le _,by simp [start]⟩,start_receiving buffer attached⟩
  have same : Run.Meets (Lawful n) (step n) (start buffer attached) events ↔
      Run.Meets (Fits n) (step n) (start buffer attached) events :=
    Run.meets_iff (fun s => Kept n s ∧ Receiving s) (Lawful n) (Fits n) (fun s event _ _ _ => lawful_iff_fits n s event)
      (kept_step n) (start buffer attached) events initial
  constructor
  · rintro ⟨_,lawful⟩
    exact same.mp lawful
  · intro fits
    exact ⟨Run.throughout_of_meets (Kept n) (fun s => Kept n s ∧ Receiving s) (Fits n) (fun _ inv => inv.1) (kept_step n)
      (start buffer attached) events initial fits,same.mpr fits⟩

/-- The second of two blocks of 20 bytes in one callback does not fit, and is accepted. -/
theorem second_block_overruns : ¬ (Run.Throughout (Kept defaultSize) (step defaultSize) (start (fun _ => 0) true)
      [.address .receive,.write (List.replicate 20 1),.write (List.replicate 20 2)] ∧
    Run.Meets (Lawful defaultSize) (step defaultSize) (start (fun _ => 0) true)
      [.address .receive,.write (List.replicate 20 1),.write (List.replicate 20 2)]) := by
  rintro ⟨_,lawful⟩
  obtain ⟨_,first⟩ := lawful _ rfl
  obtain ⟨_,second⟩ := first _ rfl
  obtain ⟨⟨refused,_⟩,_⟩ := second _ rfl
  exact absurd refused (by decide)

end OpenPlc.Wire.Twi
