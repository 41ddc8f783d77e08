import OpenPlc.Text.Represents
import OpenPlc.Wire.TwoWire

/-! The two buffers of `TwoWire` over every sequence of calls. -/
namespace OpenPlc.Wire.TwoWire
open CString
open Text (Alloc allocated allocated_cases)

/-- The sizes of a buffer are those of the block that it has, the reader and the writer stay
inside of it, and a transmission carries what was accepted for it. -/
structure Kept (s : State) : Prop where
  index : s.rxBufferIndex ≤ s.rxBufferLength
  length : s.rxBufferLength ≤ s.rxBufferAllocated
  size : s.txDataSize ≤ s.txBufferAllocated
  received : s.rxBufferAllocated = (s.rxBuffer.getD []).length
  written : s.txBufferAllocated = (s.txBuffer.getD []).length
  inside : s.outside = false
  slave : s.i2c.outside = false
  payloads : ∀ sent ∈ s.sent, sent.payload = sent.accepted

/-- The object ends with nothing left in its buffers, no block is so long that the sum of its
size and what is written wraps, and a write outside of a transmission fits the buffer of the
slave or is refused for its own length. -/
def Careful (n : Twi.BufferSize) (s : State) : Event → Prop
  | .finish => s.rxBufferLength = 0 ∧ s.txDataSize = 0
  | .write data _ =>
    if s.transmitting then s.txDataSize + data.length ≤ 4294967296
    else n.bytes < data.length % 65536 ∨ s.i2c.bufferSize + data.length % 65536 ≤ n.bytes
  | _ => True

/-- What is true besides, with the writes accepted so far in the transmit buffer. -/
structure Sound (limit : TxLimit) (s : State) : Prop extends Kept s where
  rxSmall : s.rxBufferAllocated < 65536
  txSmall : s.txBufferAllocated < 65536
  within : s.txDataSize ≤ limit.length
  gathered : (s.txBuffer.getD []).take s.txDataSize = s.accepted

variable {n : Twi.BufferSize} {limit : TxLimit} {s : State}

theorem start_sound : Sound limit start :=
  { index := Nat.le_refl _, length := Nat.le_refl _, size := Nat.le_refl _, received := rfl, written := rfl, inside := rfl,
    slave := rfl, payloads := by simp [start], rxSmall := by decide, txSmall := by decide, within := Nat.zero_le _,
    gathered := rfl }

theorem grown_spec (buffer after : Option (List UInt8)) (held held' length : Nat) (answer : Alloc)
    (whole : held = (buffer.getD []).length) (small : held < 65536) (short : length < 65536)
    (done : grown buffer held length answer = some (after,held')) :
    held' = (after.getD []).length ∧ held ≤ held' ∧ length ≤ held' ∧ held' < 65536 ∧
      (after.getD []).take held = buffer.getD [] := by
  unfold grown at done
  split at done
  · rename_i less
    obtain ⟨size,size_eq⟩ : ∃ size, size = if length < bufferLength then bufferLength else length := ⟨_,rfl⟩
    simp only [← size_eq] at done
    obtain ⟨block,granted,made⟩ := Option.map_eq_some_iff.mp done
    have enough : length ≤ size ∧ size < 65536 := by
      rw [size_eq]
      unfold bufferLength
      split <;> omega
    have exact_ : size % 65536 = size := Nat.mod_eq_of_lt enough.2
    rw [exact_] at made
    obtain ⟨rfl,rfl⟩ := Prod.mk.inj made
    rcases allocated_cases answer (buffer.getD []) size with refused | ⟨fill,_,filled⟩
    · rw [granted] at refused
      contradiction
    · rw [granted] at filled
      have fits : (buffer.getD []).take size = buffer.getD [] := List.take_of_length_le (by omega)
      rw [fits] at filled
      have block_eq := Option.some.inj filled
      refine ⟨?_,by omega,enough.1,enough.2,?_⟩
      · rw [Option.getD_some,block_eq,List.length_append,List.length_map,List.length_range]
        omega
      · rw [Option.getD_some,block_eq,whole,List.take_left]
  · obtain ⟨rfl,rfl⟩ := Prod.mk.inj (Option.some.inj done)
    refine ⟨whole,Nat.le_refl _,by omega,small,?_⟩
    rw [whole,List.take_length]

theorem allocateRxBuffer_sound (next : State) (length : Nat) (answer : Alloc) (sound : Sound limit s)
    (short : length < 65536) (done : allocateRxBuffer s length answer = some next) :
    (∃ buffer held, next = {s with rxBuffer := buffer, rxBufferAllocated := held}) ∧ Sound limit next ∧
      length ≤ next.rxBufferAllocated := by
  obtain ⟨⟨buffer,held⟩,grew,rfl⟩ := Option.map_eq_some_iff.mp done
  obtain ⟨whole,more,enough,small,_⟩ :=
    grown_spec s.rxBuffer buffer s.rxBufferAllocated held length answer sound.received sound.rxSmall short grew
  refine ⟨⟨buffer,held,rfl⟩,?_,enough⟩
  exact { sound with length := Nat.le_trans sound.length more, received := whole, rxSmall := small }

theorem allocateTxBuffer_sound (next : State) (length ret : Nat) (answer : Alloc) (sound : Sound limit s)
    (done : allocateTxBuffer limit s length answer = some (next,ret)) :
    (∃ buffer held, next = {s with txBuffer := buffer, txBufferAllocated := held}) ∧ Sound limit next ∧
      (ret ≠ 0 → ret = length ∧ length ≤ limit.length ∧ length ≤ next.txBufferAllocated) := by
  unfold allocateTxBuffer at done
  split at done
  · obtain ⟨rfl,rfl⟩ := Prod.mk.inj (Option.some.inj done)
    exact ⟨⟨s.txBuffer,s.txBufferAllocated,rfl⟩,sound,by simp⟩
  · rename_i less
    have short : length < 65536 := Nat.lt_of_le_of_lt (Nat.le_of_not_lt less) limit.small
    obtain ⟨⟨buffer,held⟩,grew,made⟩ := Option.map_eq_some_iff.mp done
    obtain ⟨rfl,rfl⟩ := Prod.mk.inj made
    obtain ⟨whole,more,enough,small,kept⟩ :=
      grown_spec s.txBuffer buffer s.txBufferAllocated held length answer sound.written sound.txSmall short grew
    refine ⟨⟨buffer,held,rfl⟩,?_,fun _ => ⟨rfl,Nat.le_of_not_lt less,enough⟩⟩
    refine { sound with size := Nat.le_trans sound.size more, written := whole, txSmall := small, gathered := ?_ }
    rw [← sound.gathered,← kept,List.take_take,Nat.min_eq_left sound.size]

theorem store_sound (data : List UInt8) (sound : Sound limit s) (some_ : 0 < s.txDataSize + data.length)
    (fits : s.txDataSize + data.length ≤ s.txBufferAllocated) (within : s.txDataSize + data.length ≤ limit.length) :
    Sound limit (store s data) := by
  have written := sound.written
  cases held : s.txBuffer with
  | none =>
    rw [held] at written
    simp only [Option.getD_none,List.length_nil] at written
    omega
  | some block =>
    rw [held,Option.getD_some] at written
    obtain ⟨after,done,front,_,same⟩ := put_spec block s.txDataSize data (by omega)
    have gathered := sound.gathered
    rw [held,Option.getD_some] at gathered
    have exact_ : (s.txDataSize + data.length) % 65536 = s.txDataSize + data.length :=
      Nat.mod_eq_of_lt (Nat.lt_of_le_of_lt within limit.small)
    simp only [store,held,Option.bind_some,done,exact_]
    refine { sound with size := fits, written := ?_, within := within, gathered := ?_ }
    · rw [written]
      exact same.symm
    · rw [Option.getD_some,front,gathered]

theorem write_sound (next : State) (data : List UInt8) (answer : Alloc) (ret : Nat) (sound : Sound limit s)
    (transmitting : s.transmitting = true) (unwrapped : s.txDataSize + data.length ≤ 4294967296)
    (done : write n limit s data answer = some (next,ret)) :
    Sound limit next ∧ next.transmitting = true ∧ next.rxBufferAllocated = s.rxBufferAllocated := by
  simp only [write,transmitting,if_true] at done
  obtain ⟨⟨grown,granted⟩,allocated,made⟩ := Option.map_eq_some_iff.mp done
  obtain ⟨⟨buffer,held,rfl⟩,sound',room⟩ := allocateTxBuffer_sound grown _ granted answer sound allocated
  simp only at made
  split at made
  · obtain ⟨rfl,rfl⟩ := Prod.mk.inj made
    exact ⟨sound',transmitting,rfl⟩
  · rename_i granted_
    obtain ⟨rfl,rfl⟩ := Prod.mk.inj made
    obtain ⟨rfl,within,enough⟩ := room granted_
    -- a sum of exactly 2 ^ 32 asks for nothing, and is refused
    have small : (s.txDataSize + data.length) % 4294967296 = s.txDataSize + data.length := by omega
    rw [small] at granted_ within enough
    refine ⟨store_sound data sound' (Nat.pos_of_ne_zero granted_) enough within,?_⟩
    unfold store
    split
    · exact ⟨transmitting,rfl⟩
    · exact ⟨transmitting,rfl⟩

theorem cleared_length (buffer : Option (List UInt8)) (held : Nat) (whole : held = (buffer.getD []).length) :
    held = ((cleared buffer held).getD []).length := by
  cases buffer with
  | none => exact whole
  | some block =>
    rw [Option.getD_some] at whole
    simp [cleared,whole]

theorem endTransmission_sound (status : Status) (sound : Sound limit s) : Sound limit (endTransmission s status).1 := by
  unfold endTransmission
  split
  · have fits := sound.size
    have written := sound.written
    have inside : decide ((s.txBuffer.getD []).length < s.txDataSize) = false := by
      rw [decide_eq_false_iff_not]
      omega
    refine { sound with size := Nat.zero_le _, written := ?_, inside := ?_, payloads := ?_, within := Nat.zero_le _, gathered := rfl }
    · exact cleared_length s.txBuffer s.txBufferAllocated written
    · simp only [resetTxBuffer,masterWrite,inside,sound.inside,Bool.or_self]
    · intro sent among
      rcases List.mem_append.mp among with earlier | last
      · exact sound.payloads sent earlier
      · rw [List.mem_singleton.mp last]
        exact sound.gathered
  · exact sound

theorem beginTransmission_sound (address : UInt8) (sound : Sound limit s) : Sound limit (beginTransmission s address) :=
  { sound with size := Nat.zero_le _, within := Nat.zero_le _, gathered := rfl }

theorem writeAddress_sound (isize : Nat) (next : State) (iaddress : UInt32) (answers : Nat → Alloc) (sound : Sound limit s)
    (transmitting : s.transmitting = true) (done : writeAddress n limit s iaddress answers isize = some next) :
    Sound limit next ∧ next.rxBufferAllocated = s.rxBufferAllocated := by
  induction isize generalizing s with
  | zero =>
    cases Option.some.inj done
    exact ⟨sound,rfl⟩
  | succ isize ih =>
    obtain ⟨⟨middle,ret⟩,first,onward⟩ := Option.bind_eq_some_iff.mp done
    have unwrapped : s.txDataSize + [UInt8.ofNat (iaddress.toNat >>> (isize * 8))].length ≤ 4294967296 := by
      have within := sound.within
      have small := limit.small
      rw [List.length_singleton]
      omega
    obtain ⟨sound',transmitting',same⟩ := write_sound middle _ (answers isize) ret sound transmitting unwrapped first
    obtain ⟨whole,same'⟩ := ih sound' transmitting' onward
    exact ⟨whole,same'.trans same⟩

theorem load_sound (bytes : List UInt8) (length : Nat) (sound : Sound limit s) (short : bytes.length ≤ s.rxBufferAllocated)
    (whole : length ≤ s.rxBufferAllocated) :
    Sound limit {load s bytes with rxBufferIndex := 0, rxBufferLength := length} := by
  have received := sound.received
  obtain ⟨after,done,_,_,same⟩ := put_spec (s.rxBuffer.getD []) 0 bytes (by omega)
  simp only [load,done]
  refine { sound with index := Nat.zero_le _, length := whole, received := ?_ }
  cases held : s.rxBuffer with
  | none => simpa [held] using received
  | some block =>
    rw [held] at received same
    rw [received]
    exact same.symm

theorem requestFrom_sound (next : State) (address quantity : UInt8) (iaddress : UInt32) (isize : UInt8) (answer : Alloc)
    (answers : Nat → Alloc) (bus : Answer) (read : Nat) (sound : Sound limit s)
    (done : requestFrom n limit s address quantity iaddress isize answer answers bus = some (next,read)) :
    Sound limit next := by
  unfold requestFrom at done
  split at done
  · obtain ⟨grown,allocated,done⟩ := Option.bind_eq_some_iff.mp done
    have short : quantity.toNat < 65536 := Nat.lt_trans quantity.toNat_lt (by decide)
    obtain ⟨⟨buffer,held,same⟩,sound',enough⟩ := allocateRxBuffer_sound grown quantity.toNat answer sound short allocated
    obtain ⟨addressed,told,made⟩ := Option.map_eq_some_iff.mp done
    obtain ⟨rfl,rfl⟩ := Prod.mk.inj made
    have ready : Sound limit addressed ∧ quantity.toNat ≤ addressed.rxBufferAllocated := by
      split at told
      · obtain ⟨written,wrote,rfl⟩ := Option.map_eq_some_iff.mp told
        obtain ⟨whole,unread⟩ := writeAddress_sound _ written iaddress answers (beginTransmission_sound address sound') rfl wrote
        refine ⟨endTransmission_sound bus.addressed whole,?_⟩
        have held : (endTransmission written bus.addressed).1.rxBufferAllocated = written.rxBufferAllocated := by
          unfold endTransmission
          split <;> rfl
        rw [held,unread]
        exact enough
      · cases Option.some.inj told
        exact ⟨sound',enough⟩
    apply load_sound _ _ ready.1
    · exact Nat.le_trans (List.length_take_le _ _) ready.2
    · split
      · exact ready.2
      · exact Nat.zero_le _
  · obtain ⟨rfl,rfl⟩ := Prod.mk.inj (Option.some.inj done)
    exact sound

theorem read_sound (sound : Sound limit s) : Sound limit (read s).1 := by
  have length := sound.length
  have received := sound.received
  unfold read
  split
  · rename_i unread
    have inside : s.rxBufferIndex < (s.rxBuffer.getD []).length := by omega
    have small : (s.rxBufferIndex + 1) % 65536 ≤ s.rxBufferLength := Nat.le_trans (Nat.mod_le _ _) unread
    rw [List.getElem?_eq_getElem inside]
    exact { sound with index := small }
  · exact sound

theorem peek_eq (sound : Sound limit s) : (peek s).1 = s := by
  have length := sound.length
  have received := sound.received
  unfold peek
  split
  · rename_i unread
    have inside : s.rxBufferIndex < (s.rxBuffer.getD []).length := by omega
    rw [List.getElem?_eq_getElem inside]
  · rfl

theorem flush_sound (sound : Sound limit s) : Sound limit (flush s) :=
  { sound with
    index := Nat.le_refl _, length := Nat.zero_le _, size := Nat.zero_le _,
    received := cleared_length s.rxBuffer s.rxBufferAllocated sound.received,
    written := cleared_length s.txBuffer s.txBufferAllocated sound.written, within := Nat.zero_le _, gathered := rfl }

theorem begin_sound (address : UInt8) (sound : Sound limit s) : Sound limit (begin s address) := by
  exact { sound with
    index := Nat.le_refl _, length := Nat.le_refl _, size := Nat.le_refl _, received := rfl, written := rfl,
    rxSmall := Nat.succ_pos _, txSmall := Nat.succ_pos _, within := Nat.zero_le _, gathered := rfl }

theorem onReceiveService_sound (next : State) (inBytes : List UInt8) (answer : Alloc) (sound : Sound limit s)
    (short : inBytes.length ≤ n.bytes) (done : onReceiveService s inBytes answer = some next) : Sound limit next := by
  unfold onReceiveService at done
  split at done
  · split at done
    · obtain ⟨grown,allocated,rfl⟩ := Option.map_eq_some_iff.mp done
      have small : inBytes.length < 65536 := Nat.lt_trans (Nat.lt_of_le_of_lt short n.small) (by decide)
      obtain ⟨_,sound',enough⟩ := allocateRxBuffer_sound grown inBytes.length answer sound small allocated
      exact load_sound inBytes inBytes.length sound' enough enough
    · cases Option.some.inj done
      exact sound
  · cases Option.some.inj done
    exact sound

theorem onRequestService_sound (sound : Sound limit s) : Sound limit (onRequestService s) := by
  unfold onRequestService
  split
  · exact { sound with size := Nat.zero_le _, within := Nat.zero_le _, gathered := rfl }
  · exact sound

theorem finish_sound (sound : Sound limit s) (read : s.rxBufferLength = 0) (sent : s.txDataSize = 0) :
    Sound limit (finish s) := by
  have gathered := sound.gathered
  rw [sent,List.take_zero] at gathered
  refine { sound with
    length := Nat.le_of_eq read, size := Nat.le_of_eq sent, received := rfl, written := rfl, rxSmall := Nat.succ_pos _,
    txSmall := Nat.succ_pos _, gathered := ?_ }
  simpa [finish] using gathered

theorem slave_sound (next : State) (data : List UInt8) (answer : Alloc) (ret : Nat) (sound : Sound limit s)
    (closed : s.transmitting = false)
    (careful : n.bytes < data.length % 65536 ∨ s.i2c.bufferSize + data.length % 65536 ≤ n.bytes)
    (done : write n limit s data answer = some (next,ret)) : Sound limit next := by
  simp only [write,closed,Bool.false_eq_true,if_false] at done
  obtain ⟨rfl,_⟩ := Prod.mk.inj (Option.some.inj done)
  refine { sound with slave := ?_ }
  unfold Twi.slaveWrite
  simp only
  split
  · exact sound.slave
  · rename_i long
    have fits := careful.resolve_left long
    simpa [sound.slave] using fits

/-- The size of a block that wraps asks for less than is in the buffer, so that it is granted,
and all of the block is copied. -/
theorem wrapped_outside (next : State) (data : List UInt8) (answer : Alloc) (ret : Nat) (sound : Sound limit s)
    (transmitting : s.transmitting = true) (short : data.length < 4294967296)
    (wraps : 4294967296 < s.txDataSize + data.length) (done : write n limit s data answer = some (next,ret)) :
    next.outside ≠ false := by
  have size := sound.size
  have within := sound.within
  have written := sound.written
  have small := sound.txSmall
  obtain ⟨rest,rest_eq⟩ : ∃ rest, (s.txDataSize + data.length) % 4294967296 = rest := ⟨_,rfl⟩
  have less : 0 < rest ∧ rest < s.txDataSize := by
    have below := limit.small
    omega
  have room : allocateTxBuffer limit s rest answer = some (s,rest) := by
    have short : ¬ limit.length < rest := by omega
    have held : ¬ s.txBufferAllocated < rest := by omega
    simp [allocateTxBuffer,grown,short,held]
  simp only [write,transmitting,if_true,rest_eq,room,Option.map_some,if_neg (Nat.ne_of_gt less.1)] at done
  obtain ⟨rfl,_⟩ := Prod.mk.inj (Option.some.inj done)
  have beyond : s.txBuffer.bind (fun block => put block s.txDataSize data) = none := by
    cases held : s.txBuffer with
    | none => rfl
    | some block =>
      rw [held,Option.getD_some] at written
      exact if_neg (by omega)
  simp [store,beyond]

theorem sound_step (s : State) (event : Event) (next : State) (sound : Sound limit s) (careful : Careful n s event)
    (taken : step n limit s event = some next) : Sound limit next := by
  have going : ¬ (s.outside = true ∨ s.i2c.outside = true) := by simp [sound.inside,sound.slave]
  simp only [step,if_neg going] at taken
  cases event with
  | begin address =>
    cases Option.some.inj taken
    exact begin_sound address sound
  | finish =>
    cases Option.some.inj taken
    exact finish_sound sound careful.1 careful.2
  | beginTransmission address =>
    cases Option.some.inj taken
    exact beginTransmission_sound address sound
  | write data answer =>
    simp only at taken
    split at taken
    · obtain ⟨⟨after,ret⟩,done,rfl⟩ := Option.map_eq_some_iff.mp taken
      simp only [Careful] at careful
      split at careful
      · rename_i transmitting
        exact (write_sound after data answer ret sound transmitting careful done).1
      · rename_i closed
        exact slave_sound after data answer ret sound (by simpa using closed) careful done
    · contradiction
  | endTransmission status =>
    cases Option.some.inj taken
    exact endTransmission_sound status sound
  | requestFrom address quantity iaddress isize answer answers bus =>
    obtain ⟨⟨after,read⟩,done,rfl⟩ := Option.map_eq_some_iff.mp taken
    exact requestFrom_sound after address quantity iaddress isize answer answers bus read sound done
  | available =>
    cases Option.some.inj taken
    exact sound
  | read =>
    cases Option.some.inj taken
    exact read_sound sound
  | peek =>
    cases Option.some.inj taken
    rw [peek_eq sound]
    exact sound
  | flush =>
    cases Option.some.inj taken
    exact flush_sound sound
  | onReceive registered =>
    cases Option.some.inj taken
    exact { sound with }
  | onRequest registered =>
    cases Option.some.inj taken
    exact { sound with }
  | received bytes answer =>
    simp only at taken
    split at taken
    · rename_i told
      exact onReceiveService_sound next bytes answer sound told.2 taken
    · contradiction
  | requested =>
    simp only at taken
    split at taken
    · cases Option.some.inj taken
      exact onRequestService_sound { sound with }
    · contradiction
  | answered =>
    simp only at taken
    split at taken
    · cases Option.some.inj taken
      exact { sound with }
    · contradiction

/-- Where a step is not careful, a size is left without its block or a byte is written
outside of one. -/
theorem careless_breaks (s : State) (event : Event) (next : State) (sound : Sound limit s) (careless : ¬ Careful n s event)
    (taken : step n limit s event = some next) : ¬ Kept next := by
  have going : ¬ (s.outside = true ∨ s.i2c.outside = true) := by simp [sound.inside,sound.slave]
  simp only [step,if_neg going] at taken
  intro kept
  cases event with
  | finish =>
    cases Option.some.inj taken
    exact careless ⟨Nat.le_zero.mp kept.length,Nat.le_zero.mp kept.size⟩
  | write data answer =>
    simp only at taken
    split at taken
    · rename_i short
      obtain ⟨⟨after,ret⟩,done,rfl⟩ := Option.map_eq_some_iff.mp taken
      simp only [Careful] at careless
      split at careless
      · rename_i transmitting
        exact wrapped_outside after data answer ret sound transmitting short (by omega) done kept.inside
      · rename_i closed
        push Not at careless
        simp only [write,closed,Bool.false_eq_true,if_false,Twi.slaveWrite,if_neg (Nat.not_lt.mpr careless.1)] at done
        obtain ⟨rfl,_⟩ := Prod.mk.inj (Option.some.inj done)
        have outside := kept.slave
        simp [sound.slave,careless.2] at outside
    · contradiction
  | _ => exact careless trivial

/-- The buffers and their sizes belong together in exactly the runs in which every end finds
them empty, no block wraps, and the slave is not made to write too much. -/
theorem kept_iff_careful (n : Twi.BufferSize) (limit : TxLimit) (events : List Event) :
    Run.Throughout Kept (step n limit) start events ↔ Run.Meets (Careful n) (step n limit) start events :=
  Run.throughout_iff_meets Kept (Sound limit) (Careful n) (fun _ sound => sound.toKept) sound_step careless_breaks start
    events start_sound

/-- Four bytes are requested and the object is ended before they are read. -/
theorem ended_unread : ¬ Run.Throughout Kept (step Twi.defaultSize defaultLimit) start
    [.begin masterAddress,.requestFrom 0x50 4 0 0 (.grant fun _ => 0) (fun _ => .refuse) ⟨.ok,.ok,[1,2,3,4]⟩,.finish] := by
  intro holds
  obtain ⟨s,reached,left⟩ : ∃ s, Run.after (step Twi.defaultSize defaultLimit) start
      [.begin masterAddress,.requestFrom 0x50 4 0 0 (.grant fun _ => 0) (fun _ => .refuse) ⟨.ok,.ok,[1,2,3,4]⟩,.finish] = some s ∧
      s.rxBufferLength = 4 ∧ s.rxBufferAllocated = 0 := ⟨_,rfl,rfl,rfl⟩
  have length := (holds _ s (List.prefix_refl _) reached).length
  rw [left.1,left.2] at length
  exact absurd length (by decide)

end OpenPlc.Wire.TwoWire
