import OpenPlc.Lib.Memory
import OpenPlc.Spi.Spi

/-! `spi_transfer` on the buffers in memory, and the overloads of `SPIClass::transfer` that pass a count to it. A `size_t` has 32 bits. -/
namespace OpenPlc.Spi
open Memory

inductive SpiStatus
  | ok
  | timeout
  | error
deriving DecidableEq

def halMaxDelay : UInt32 := 0xFFFFFFFF

def spiTransferTimeout : UInt32 := 1000

/-- The memory, the two pointers and the bytes that were clocked. -/
structure Shift where
  mem : Nat → UInt8
  txBuffer : Nat
  rxBuffer : Nat
  sent : List UInt8

/-- A round of `while (size--)`. The flags that it waits for are set after a while. -/
def shift (bus : Bus) (skipReceive : Bool) (s : Shift) : Shift :=
  let s := {s with txBuffer := s.txBuffer + 1, sent := s.sent ++ [s.mem s.txBuffer]}
  if skipReceive then s
  else {s with mem := Function.update s.mem s.rxBuffer (bus.received (s.sent.length - 1)), rxBuffer := s.rxBuffer + 1}

/-- `HAL_GetTick() - tickstart >= Timeout` after so many bytes -/
def late (bus : Bus) (timeout : UInt32) (bytes : Nat) : Bool := timeout != halMaxDelay && decide (bus.inTime < bytes)

def shiftLoop (bus : Bus) (timeout : UInt32) (skipReceive : Bool) : Nat → Shift → Shift × SpiStatus
  | 0,s => (s,.ok)
  | size + 1,s =>
    let s := shift bus skipReceive s
    if late bus timeout s.sent.length then (s,.timeout) else shiftLoop bus timeout skipReceive size s

def spiTransfer (bus : Bus) (mem : Nat → UInt8) (txBuffer rxBuffer : Nat) (len : UInt16) (timeout : UInt32) (skipReceive : Bool) :
    Shift × SpiStatus :=
  if len = 0 ∨ timeout = 0 then (⟨mem,txBuffer,rxBuffer,[]⟩,if 0 < timeout then .error else .timeout)
  else shiftLoop bus timeout skipReceive len.toNat ⟨mem,txBuffer,rxBuffer,[]⟩

variable {board : Board}

/-- What the overloads share from the first use of the index on. -/
def transferMemory (s : State board) (i : Fin board.nbSpiSettings) (pin : UInt8) (bufout bufin : Nat) (count : UInt32)
    (mode : SPITransferMode) (bus : Bus) (mem : Nat → UInt8) : State board × (Nat → UInt8) :=
  let s := configure s i pin
  let s := if managed board pin then digitalWrite s pin false else s
  let (done,_) := spiTransfer bus mem bufout bufin count.toUInt16 spiTransferTimeout (s.spiSettings i).noReceive
  let s := {s with clocked := s.clocked ++ [⟨pin,s.configuration,s.spiSettings i,s.output pin && !s.level pin,done.sent⟩]}
  (if managed board pin ∧ mode = .last then digitalWrite s pin true else s,done.mem)

/-- `transfer(_pin, _bufout, _bufin, _count, _mode)`, where a null pointer is `none`. -/
def transferInto (s : State board) (pin : UInt8) (bufout bufin : Option Nat) (count : UInt32) (mode : SPITransferMode) (bus : Bus)
    (mem : Nat → UInt8) : State board × (Nat → UInt8) :=
  match bufout,bufin with
  | some bufout,some bufin =>
    if count = 0 then (s,mem)
    else
      match pinIdx s pin with
      | none => (s,mem)
      | some i => transferMemory s i pin bufout bufin count mode bus mem
  | _,_ => (s,mem)

/-- `transfer(_pin, _buf, _count, _mode)` -/
def transferInPlace (s : State board) (pin : UInt8) (buf : Option Nat) (count : UInt32) (mode : SPITransferMode) (bus : Bus)
    (mem : Nat → UInt8) : State board × (Nat → UInt8) :=
  match buf with
  | some buf =>
    if count = 0 then (s,mem)
    else
      match pinIdx s pin with
      | none => (s,mem)
      | some i => transferMemory s i pin buf buf count mode bus mem
  | none => (s,mem)

section Loop
variable {bus : Bus} {timeout : UInt32} {skipReceive : Bool} {mem : Nat → UInt8} {tx rx : Nat}

/-- The bytes that come back for so many that go out. -/
def back (bus : Bus) (count : Nat) : List UInt8 := (List.range count).map bus.received

/-- A received byte is stored where the byte number `k` was before that one is sent. -/
def Replaced (skipReceive : Bool) (tx rx k : Nat) : Prop := skipReceive = false ∧ tx < rx ∧ rx ≤ tx + k

instance (skipReceive : Bool) (tx rx k : Nat) : Decidable (Replaced skipReceive tx rx k) :=
  inferInstanceAs (Decidable (_ ∧ _))

def passed (bus : Bus) (skipReceive : Bool) (mem : Nat → UInt8) (tx rx k : Nat) : UInt8 :=
  if Replaced skipReceive tx rx k then bus.received (tx + k - rx) else mem (tx + k)

def shifted (bus : Bus) (skipReceive : Bool) (mem : Nat → UInt8) (tx rx count : Nat) : Shift :=
  { mem := if skipReceive then mem else blit mem rx (back bus count)
    txBuffer := tx + count
    rxBuffer := if skipReceive then rx else rx + count
    sent := (List.range count).map (passed bus skipReceive mem tx rx) }

theorem back_length (bus : Bus) (count : Nat) : (back bus count).length = count := by
  rw [back,List.length_map,List.length_range]

theorem back_succ (bus : Bus) (count : Nat) : back bus (count + 1) = back bus count ++ [bus.received count] := by
  rw [back,List.range_succ,List.map_append]
  rfl

@[simp] theorem shifted_sent_length (bus : Bus) (skipReceive : Bool) (mem : Nat → UInt8) (tx rx count : Nat) :
    (shifted bus skipReceive mem tx rx count).sent.length = count := by
  rw [shifted,List.length_map,List.length_range]

theorem shifted_zero (bus : Bus) (skipReceive : Bool) (mem : Nat → UInt8) (tx rx : Nat) :
    shifted bus skipReceive mem tx rx 0 = ⟨mem,tx,rx,[]⟩ := by
  cases skipReceive with
  | true => rfl
  | false =>
    have nothing : blit mem rx (back bus 0) = mem := blit_nil mem rx
    simp only [shifted,Bool.false_eq_true,if_false,nothing]
    rfl

theorem shifted_reads (bus : Bus) (skipReceive : Bool) (mem : Nat → UInt8) (tx rx count : Nat) :
    (shifted bus skipReceive mem tx rx count).mem (tx + count) = passed bus skipReceive mem tx rx count := by
  cases skipReceive with
  | true => rfl
  | false =>
    have stored : (shifted bus false mem tx rx count).mem = blit mem rx (back bus count) := rfl
    rw [stored,passed]
    by_cases replaced : Replaced false tx rx count
    · obtain ⟨-,inside,before⟩ := replaced
      have bound : tx + count - rx < (back bus count).length := by
        rw [back_length]
        omega
      have place : rx + (tx + count - rx) = tx + count := by omega
      rw [if_pos ⟨rfl,inside,before⟩,← place,blit_inside mem rx _ _ bound,place]
      simp only [back,List.getElem_map,List.getElem_range]
    · rw [if_neg replaced]
      rcases Nat.lt_or_ge (tx + count) rx with before | reached
      · exact blit_below mem rx _ _ before
      · have behind : rx ≤ tx := Nat.le_of_not_lt fun inside => replaced ⟨rfl,inside,reached⟩
        refine blit_above mem rx _ _ ?_
        rw [back_length]
        omega

theorem shift_shifted (bus : Bus) (skipReceive : Bool) (mem : Nat → UInt8) (tx rx count : Nat) :
    shift bus skipReceive (shifted bus skipReceive mem tx rx count) = shifted bus skipReceive mem tx rx (count + 1) := by
  have sent : (shifted bus skipReceive mem tx rx count).sent ++ [(shifted bus skipReceive mem tx rx count).mem (tx + count)] =
      (shifted bus skipReceive mem tx rx (count + 1)).sent := by
    rw [shifted_reads]
    simp only [shifted,List.range_succ,List.map_append,List.map_cons,List.map_nil]
  have pointer : (shifted bus skipReceive mem tx rx count).txBuffer = tx + count := rfl
  rw [shift,pointer,sent]
  cases skipReceive with
  | true => rfl
  | false =>
    have stored : Function.update (blit mem rx (back bus count)) (rx + count) (bus.received count) =
        blit mem rx (back bus (count + 1)) := by
      rw [back_succ,blit_append,back_length,blit_singleton]
    simp only [shifted_sent_length,Nat.add_sub_cancel,Bool.false_eq_true,if_false]
    simp only [shifted,Bool.false_eq_true,if_false,stored]
    rfl

/-- The loop stops after the size that it is given, or with the first byte that is late. -/
theorem shiftLoop_shifted (bounded : timeout ≠ halMaxDelay) (size done : Nat) (prompt : done ≤ bus.inTime) :
    shiftLoop bus timeout skipReceive size (shifted bus skipReceive mem tx rx done) =
      (shifted bus skipReceive mem tx rx (min (done + size) (bus.inTime + 1)),
        if done + size ≤ bus.inTime then .ok else .timeout) := by
  have finite : (timeout != halMaxDelay) = true := bne_iff_ne.mpr bounded
  induction size generalizing done with
  | zero =>
    rw [Nat.add_zero,if_pos prompt,min_eq_left (Nat.le_succ_of_le prompt)]
    rfl
  | succ size ih =>
    rw [shiftLoop,shift_shifted,shifted_sent_length,late,finite,Bool.true_and]
    by_cases beyond : bus.inTime < done + 1
    · have last : min (done + (size + 1)) (bus.inTime + 1) = done + 1 := by omega
      rw [if_pos (decide_eq_true beyond),last,if_neg (by omega)]
    · have total : done + 1 + size = done + (size + 1) := by omega
      rw [decide_eq_false beyond,if_neg Bool.false_ne_true,ih (done + 1) (Nat.le_of_not_lt beyond),total]

theorem spiTransfer_shifted (bus : Bus) (skipReceive : Bool) (mem : Nat → UInt8) (tx rx : Nat) (len : UInt16) :
    spiTransfer bus mem tx rx len spiTransferTimeout skipReceive =
      (shifted bus skipReceive mem tx rx (min len.toNat (bus.inTime + 1)),
        if len = 0 then .error else if len.toNat ≤ bus.inTime then .ok else .timeout) := by
  have started := (shifted_zero bus skipReceive mem tx rx).symm
  by_cases empty : len = 0
  · subst empty
    rw [spiTransfer,if_pos (Or.inl rfl),if_pos rfl,started]
    rfl
  · have waits : ¬(len = 0 ∨ spiTransferTimeout = 0) := by
      rintro (none | none)
      · exact empty none
      · exact absurd none (by decide)
    rw [spiTransfer,if_neg waits,started,shiftLoop_shifted (by decide) len.toNat 0 (Nat.zero_le _),Nat.zero_add,if_neg empty]

theorem shifted_received (count : Nat) (receives : skipReceive = false) :
    (shifted bus skipReceive mem tx rx count).mem = blit mem rx (back bus count) := by
  subst receives
  rfl

theorem passed_apart (bus : Bus) (skipReceive : Bool) (mem : Nat → UInt8) (tx rx k : Nat) (apart : rx ≤ tx ∨ tx + k < rx) :
    passed bus skipReceive mem tx rx k = mem (tx + k) := by
  refine if_neg ?_
  rintro ⟨-,inside,before⟩
  omega

/-- Buffers that do not overlap, or are the same, see what `exchange` says. -/
theorem spiTransfer_exchange (bus : Bus) (skipReceive : Bool) (mem : Nat → UInt8) (tx rx : Nat) (count : UInt32)
    (apart : rx ≤ tx ∨ tx + count.toNat ≤ rx) :
    let done := (spiTransfer bus mem tx rx count.toUInt16 spiTransferTimeout skipReceive).1
    (done.sent,slice done.mem rx count.toNat) =
      exchange bus skipReceive (slice mem tx count.toNat) (slice mem rx count.toNat) := by
  intro done
  let sends := min (count.toNat % 65536) (bus.inTime + 1)
  have within : sends ≤ count.toNat := (min_le_left _ _).trans (Nat.mod_le _ _)
  have result : done = shifted bus skipReceive mem tx rx sends := by
    have cast : count.toUInt16.toNat = count.toNat % 65536 := rfl
    simp only [done,spiTransfer_shifted,cast]
    rfl
  have sent : done.sent = slice mem tx sends := by
    rw [result]
    refine List.map_congr_left fun k member => passed_apart bus skipReceive mem tx rx k ?_
    have below := List.mem_range.mp member
    omega
  have taken : (slice mem tx count.toNat).take sends = slice mem tx sends := slice_take mem tx _ _ within
  have length : (slice mem tx count.toNat).length = count.toNat := slice_length mem tx _
  cases skipReceive with
  | true =>
    rw [exchange,length,if_pos rfl,taken,sent,result]
    rfl
  | false =>
    have sentLength : (slice mem tx sends).length = sends := slice_length mem tx sends
    rw [exchange,length,if_neg Bool.false_ne_true,taken,sentLength,sent,result,shifted_received sends rfl]
    refine Prod.ext rfl ?_
    obtain ⟨rest,total⟩ := Nat.exists_eq_add_of_le within
    have front : slice (blit mem rx (back bus sends)) rx sends = back bus sends := by
      have read := slice_blit mem rx (back bus sends)
      rwa [back_length] at read
    have behind : slice (blit mem rx (back bus sends)) (rx + sends) rest = slice mem (rx + sends) rest := by
      refine slice_congr _ _ _ _ fun k _ => blit_above mem rx _ _ ?_
      rw [back_length]
      omega
    rw [slice_drop mem rx _ _ within]
    simp only [total,Nat.add_sub_cancel_left]
    rw [slice_add,front,behind]
    rfl

end Loop

section Buffers
variable {bus : Bus} {s : State board} {i : Fin board.nbSpiSettings} {pin : UInt8} {mem : Nat → UInt8} {tx rx : Nat}

/-- The transfer clocks the bytes of the buffer, and those that come back are stored. -/
structure Carried (s : State board) (i : Fin board.nbSpiSettings) (pin : UInt8) (tx rx count : Nat) (bus : Bus)
    (mem : Nat → UInt8) (after : State board × (Nat → UInt8)) : Prop where
  sent : ∃ entry : Clocked, after.1.clocked = s.clocked ++ [entry] ∧ entry.pin = pin ∧ entry.bytes = slice mem tx count
  received : (s.spiSettings i).noReceive = false → ∀ k < count, after.2 (rx + k) = bus.received k

/-- Where the receive buffer starts within the other one, no byte that is stored changes one that was not sent. -/
def Unchanged (skipReceive : Bool) (tx rx count : Nat) (bus : Bus) (mem : Nat → UInt8) : Prop :=
  ∀ k < count, Replaced skipReceive tx rx k → bus.received (tx + k - rx) = mem (tx + k)

theorem unchanged_apart (skipReceive : Bool) (bus : Bus) (mem : Nat → UInt8) (count : Nat) (apart : rx ≤ tx ∨ tx + count ≤ rx) :
    Unchanged skipReceive tx rx count bus mem := by
  rintro k below ⟨-,inside,before⟩
  omega

theorem passed_slice (bus : Bus) (skipReceive : Bool) (mem : Nat → UInt8) (tx rx count : Nat) :
    (List.range count).map (passed bus skipReceive mem tx rx) = slice mem tx count ↔ Unchanged skipReceive tx rx count bus mem := by
  rw [slice,List.map_inj_left]
  refine forall_congr' fun k => ?_
  rw [List.mem_range,passed]
  refine imp_congr_right fun _ => ?_
  by_cases replaced : Replaced skipReceive tx rx k
  · rw [if_pos replaced]
    exact ⟨fun same _ => same,fun same => same replaced⟩
  · rw [if_neg replaced]
    exact ⟨fun _ reached => absurd reached replaced,fun _ => rfl⟩

@[simp] theorem configure_settings (s : State board) (i : Fin board.nbSpiSettings) (pin : UInt8) :
    (configure s i pin).spiSettings = s.spiSettings := by
  rw [configure]
  split <;> rfl

@[simp] theorem configure_clocked (s : State board) (i : Fin board.nbSpiSettings) (pin : UInt8) :
    (configure s i pin).clocked = s.clocked := by
  rw [configure]
  split <;> rfl

theorem transferMemory_spec (s : State board) (i : Fin board.nbSpiSettings) (pin : UInt8) (tx rx : Nat) (count : UInt32)
    (mode : SPITransferMode) (bus : Bus) (mem : Nat → UInt8) :
    let done := (spiTransfer bus mem tx rx count.toUInt16 spiTransferTimeout (s.spiSettings i).noReceive).1
    (∃ entry : Clocked, (transferMemory s i pin tx rx count mode bus mem).1.clocked = s.clocked ++ [entry] ∧
      entry.pin = pin ∧ entry.bytes = done.sent) ∧ (transferMemory s i pin tx rx count mode bus mem).2 = done.mem := by
  intro done
  have drives (s : State board) (high : Bool) (drive : Prop) [Decidable drive] :
      (if drive then digitalWrite s pin high else s).clocked = s.clocked ∧
        (if drive then digitalWrite s pin high else s).spiSettings = s.spiSettings := by
    split <;> exact ⟨rfl,rfl⟩
  let low := if managed board pin then digitalWrite (configure s i pin) pin false else configure s i pin
  have clocked : low.clocked = s.clocked := (drives _ false _).1.trans (configure_clocked s i pin)
  have settings : low.spiSettings i = s.spiSettings i :=
    congrFun ((drives _ false _).2.trans (configure_settings s i pin)) i
  have shifts : (spiTransfer bus mem tx rx count.toUInt16 spiTransferTimeout (low.spiSettings i).noReceive).1 = done := by
    rw [settings]
  refine ⟨⟨⟨pin,low.configuration,low.spiSettings i,low.output pin && !low.level pin,done.sent⟩,?_,rfl,rfl⟩,?_⟩
  · rw [← clocked,← shifts]
    exact (drives _ true _).1
  · rw [← shifts]
    rfl

theorem transferMemory_slot (s : State board) (i : Fin board.nbSpiSettings) (pin : UInt8) (tx rx : Nat) (count : UInt32)
    (mode : SPITransferMode) (bus : Bus) (mem : Nat → UInt8) (apart : rx ≤ tx ∨ tx + count.toNat ≤ rx) :
    let after := transferMemory s i pin tx rx count mode bus mem
    (after.1,slice after.2 rx count.toNat) =
      transferSlot s i pin (slice mem tx count.toNat) (slice mem rx count.toNat) mode bus := by
  intro after
  let low := if managed board pin then digitalWrite (configure s i pin) pin false else configure s i pin
  have same := spiTransfer_exchange bus (low.spiSettings i).noReceive mem tx rx count apart
  simp only [transferSlot,clock]
  rw [← same]
  rfl

/-- On the bytes of the buffers the calls do what the ones for lists of bytes do. -/
theorem transferInto_buffers (s : State board) (pin : UInt8) (tx rx : Nat) (count : UInt32) (mode : SPITransferMode) (bus : Bus)
    (mem : Nat → UInt8) (apart : rx ≤ tx ∨ tx + count.toNat ≤ rx) :
    let after := transferInto s pin (some tx) (some rx) count mode bus mem
    (after.1,slice after.2 rx count.toNat) = transferBuffers s pin (slice mem tx count.toNat) (slice mem rx count.toNat) mode bus := by
  intro after
  rw [transferBuffers,slice_length]
  by_cases empty : count = 0
  · subst empty
    rfl
  · have some_ : count.toNat ≠ 0 := fun none => empty (UInt32.toNat_inj.mp none)
    rw [if_neg some_]
    simp only [after,transferInto,if_neg empty]
    cases pinIdx s pin with
    | none => rfl
    | some i => exact transferMemory_slot s i pin tx rx count mode bus mem apart

theorem transferInPlace_buffer (s : State board) (pin : UInt8) (buf : Nat) (count : UInt32) (mode : SPITransferMode) (bus : Bus)
    (mem : Nat → UInt8) :
    let after := transferInPlace s pin (some buf) count mode bus mem
    (after.1,slice after.2 buf count.toNat) = transferBuffer s pin (slice mem buf count.toNat) mode bus :=
  transferInto_buffers s pin buf buf count mode bus mem (Or.inl le_rfl)

theorem toUInt16_lt (count : UInt32) : count.toUInt16.toNat = count.toNat ↔ count < 65536 := by
  have cast : count.toUInt16.toNat = count.toNat % 65536 := rfl
  rw [cast,UInt32.lt_iff_toNat_lt]
  exact ⟨fun same => same ▸ Nat.mod_lt _ (by decide),Nat.mod_eq_of_lt⟩

theorem spiTransfer_inTime (bus : Bus) (skipReceive : Bool) (mem : Nat → UInt8) (tx rx : Nat) (len : UInt16)
    (inTime : (spiTransfer bus mem tx rx len spiTransferTimeout skipReceive).2 ≠ .timeout) :
    (spiTransfer bus mem tx rx len spiTransferTimeout skipReceive).1 = shifted bus skipReceive mem tx rx len.toNat := by
  rw [spiTransfer_shifted] at inTime ⊢
  have all : len.toNat ≤ bus.inTime := by
    by_contra beyond
    have some : len ≠ 0 := by
      rintro rfl
      exact beyond (Nat.zero_le _)
    simp only [if_neg some,if_neg beyond] at inTime
    exact inTime rfl
  rw [min_eq_left (Nat.le_succ_of_le all)]

theorem transferMemory_iff (s : State board) (i : Fin board.nbSpiSettings) (pin : UInt8) (tx rx : Nat) (count : UInt32)
    (mode : SPITransferMode) (bus : Bus) (mem : Nat → UInt8)
    (inTime : (spiTransfer bus mem tx rx count.toUInt16 spiTransferTimeout (s.spiSettings i).noReceive).2 ≠ .timeout) :
    Carried s i pin tx rx count.toNat bus mem (transferMemory s i pin tx rx count mode bus mem) ↔
      count < 65536 ∧ Unchanged (s.spiSettings i).noReceive tx rx count.toNat bus mem := by
  obtain ⟨⟨entry,clocked,ofPin,bytes⟩,stored⟩ := transferMemory_spec s i pin tx rx count mode bus mem
  rw [spiTransfer_inTime bus _ mem tx rx _ inTime] at bytes stored
  rw [← toUInt16_lt count]
  constructor
  · rintro ⟨⟨other,clocked',-,bytes'⟩,-⟩
    have same : other = entry := List.singleton_inj.mp (List.append_cancel_left (clocked'.symm.trans clocked))
    rw [same,bytes] at bytes'
    -- As many bytes were clocked as the buffer has.
    have whole : count.toUInt16.toNat = count.toNat := by
      have lengths := congrArg List.length bytes'
      rwa [shifted_sent_length,slice_length] at lengths
    rw [whole] at bytes'
    exact ⟨whole,(passed_slice bus _ mem tx rx count.toNat).mp bytes'⟩
  · rintro ⟨whole,unchanged⟩
    rw [whole] at bytes stored
    refine ⟨⟨entry,clocked,ofPin,bytes.trans ((passed_slice bus _ mem tx rx count.toNat).mpr unchanged)⟩,?_⟩
    intro receives k below
    have bound : k < (back bus count.toNat).length := by rwa [back_length]
    rw [stored,shifted_received count.toNat receives,blit_inside mem rx _ k bound]
    simp only [back,List.getElem_map,List.getElem_range]

/-- Both overloads carry a buffer out and in as long as the count fits in 16 bits. -/
theorem transfers_iff (s : State board) (i : Fin board.nbSpiSettings) (pin : UInt8) (slot : pinIdx s pin = some i) (count : UInt32)
    (wanted : 0 < count) (mode : SPITransferMode) (bus : Bus) (mem : Nat → UInt8) :
    (∀ bufout bufin,
      (spiTransfer bus mem bufout bufin count.toUInt16 spiTransferTimeout (s.spiSettings i).noReceive).2 ≠ .timeout →
        (Carried s i pin bufout bufin count.toNat bus mem (transferInto s pin (some bufout) (some bufin) count mode bus mem) ↔
          count < 65536 ∧ Unchanged (s.spiSettings i).noReceive bufout bufin count.toNat bus mem)) ∧
    ∀ buf, (spiTransfer bus mem buf buf count.toUInt16 spiTransferTimeout (s.spiSettings i).noReceive).2 ≠ .timeout →
      (Carried s i pin buf buf count.toNat bus mem (transferInPlace s pin (some buf) count mode bus mem) ↔ count < 65536) := by
  have counted : count ≠ 0 := by
    rintro rfl
    exact absurd wanted (by decide)
  refine ⟨fun bufout bufin inTime => ?_,fun buf inTime => ?_⟩
  · have call : transferInto s pin (some bufout) (some bufin) count mode bus mem =
        transferMemory s i pin bufout bufin count mode bus mem := by
      simp only [transferInto,if_neg counted,slot]
    rw [call]
    exact transferMemory_iff s i pin bufout bufin count mode bus mem inTime
  · have call : transferInPlace s pin (some buf) count mode bus mem = transferMemory s i pin buf buf count mode bus mem := by
      simp only [transferInPlace,if_neg counted,slot]
    rw [call,transferMemory_iff s i pin buf buf count mode bus mem inTime]
    exact and_iff_left (unchanged_apart _ bus mem _ (Or.inl le_rfl))

end Buffers

section Examples

def testBoard : Board := ⟨10,fun _ => true,1,false,100⟩

def firstSlot : Fin testBoard.nbSpiSettings := ⟨0,Nat.one_pos⟩

def quiet (inTime : Nat) : Bus := ⟨fun k => k.toUInt8 + 7,inTime⟩

def opened : State testBoard := begin (start testBoard) 3

theorem transfers_two :
    let mem : Nat → UInt8 := fun i => i.toUInt8
    Carried opened firstSlot 3 100 200 2 (quiet 5) mem (transferInto opened 3 (some 100) (some 200) 2 .last (quiet 5) mem) ∧
      Carried opened firstSlot 3 100 100 2 (quiet 5) mem (transferInPlace opened 3 (some 100) 2 .last (quiet 5) mem) := by
  intro mem
  obtain ⟨into,inPlace⟩ := transfers_iff opened firstSlot 3 rfl 2 (by decide) .last (quiet 5) mem
  exact ⟨(into 100 200 (by decide)).mpr ⟨by decide,unchanged_apart _ _ mem 2 (by decide)⟩,
    (inPlace 100 (by decide)).mpr (by decide)⟩

/-- A length of 65536 is 0 in 16 bits, and nothing is clocked. -/
theorem long_unclocked :
    pinIdx opened 3 = some firstSlot ∧ ∀ mem : Nat → UInt8,
      (spiTransfer (quiet 65536) mem 0 0 (65536 : UInt32).toUInt16 spiTransferTimeout (opened.spiSettings firstSlot).noReceive).2 ≠
          .timeout ∧
        ¬ Carried opened firstSlot 3 0 0 65536 (quiet 65536) mem
            (transferInPlace opened 3 (some 0) 65536 .last (quiet 65536) mem) := by
  refine ⟨rfl,fun mem => ?_⟩
  have refused : (spiTransfer (quiet 65536) mem 0 0 (65536 : UInt32).toUInt16 spiTransferTimeout
      (opened.spiSettings firstSlot).noReceive).2 = .error := rfl
  have inTime : (spiTransfer (quiet 65536) mem 0 0 (65536 : UInt32).toUInt16 spiTransferTimeout
      (opened.spiSettings firstSlot).noReceive).2 ≠ .timeout := by
    rw [refused]
    decide
  refine ⟨inTime,fun carried => ?_⟩
  have small := ((transferMemory_iff opened firstSlot 3 0 0 65536 .last (quiet 65536) mem inTime).mp carried).1
  exact absurd small (by decide)

end Examples

end OpenPlc.Spi
