import Mathlib.Data.Nat.Bitwise
import OpenPlc.Lib.Ring
import OpenPlc.Lib.Signal
import OpenPlc.Serial.SoftwareSerial

/-! What a listening software port makes of the frames on its line. The line is a function of
the time, which is counted in ticks over any ordered field. -/
namespace OpenPlc.Serial.SoftwareSerial
open Memory Signal

/-- The bytes that wait in the buffer. -/
def Port.stored (port : Port) : List UInt8 :=
  Ring.cells port.receiveBuffer maxRxBuff port.head (Ring.distance maxRxBuff port.head port.tail)

structure Port.Sound (port : Port) : Prop where
  head : port.head < maxRxBuff
  tail : port.tail < maxRxBuff

/-- `port` is `first` with `bytes` received: they are stored as far as they fit. -/
structure Port.Received (first : Port) (bytes : List UInt8) (port : Port) : Prop where
  sound : port.Sound
  head : port.head = first.head
  inverseLogic : port.inverseLogic = first.inverseLogic
  stored : port.stored = (first.stored ++ bytes).take (maxRxBuff - 1)
  overflow : port.bufferOverflow = (first.bufferOverflow || decide (maxRxBuff - 1 < (first.stored ++ bytes).length))

theorem Port.stored_length (port : Port) (sound : port.Sound) : port.stored.length ≤ maxRxBuff - 1 := by
  rw [stored,Ring.cells_length]
  exact Nat.le_sub_one_of_lt (Ring.distance_lt maxRxBuff port.head port.tail (Nat.zero_lt_of_lt sound.head))

theorem Port.received_nothing (port : Port) (sound : port.Sound) : port.Received [] port := by
  have bound := port.stored_length sound
  constructor
  · exact sound
  · rfl
  · rfl
  · rw [List.append_nil,List.take_of_length_le bound]
  · rw [List.append_nil,decide_eq_false (Nat.not_lt.mpr bound),Bool.or_false]

theorem Port.full_iff (port : Port) (sound : port.Sound) :
    (port.tail + 1) % maxRxBuff = port.head ↔ port.stored.length = maxRxBuff - 1 := by
  have head := sound.head
  have tail := sound.tail
  rw [stored,Ring.cells_length]
  unfold maxRxBuff at *
  rcases Ring.distance_cases 64 port.head port.tail head tail with ⟨_,used⟩ | ⟨_,used⟩ <;> omega

theorem Port.save_full (port : Port) (byte : UInt8) (sound : port.Sound) (full : port.stored.length = maxRxBuff - 1) :
    port.save byte = {port with bufferOverflow := true} := by
  rw [save,if_neg (not_not_intro ((port.full_iff sound).mpr full))]

theorem Port.save_room (port : Port) (byte : UInt8) (sound : port.Sound) (room : port.stored.length ≠ maxRxBuff - 1) :
    port.save byte =
      {port with receiveBuffer := Function.update port.receiveBuffer port.tail byte, tail := (port.tail + 1) % maxRxBuff} := by
  rw [save,if_pos fun full => room ((port.full_iff sound).mp full)]

theorem Port.stored_next (port : Port) (byte : UInt8) (sound : port.Sound) (room : port.stored.length ≠ maxRxBuff - 1) :
    Port.stored
      {port with receiveBuffer := Function.update port.receiveBuffer port.tail byte, tail := (port.tail + 1) % maxRxBuff} =
      port.stored ++ [byte] := by
  have head := sound.head
  have tail := sound.tail
  have short := port.stored_length sound
  have used : port.stored.length = Ring.distance maxRxBuff port.head port.tail := Ring.cells_length ..
  have moved := Ring.distance_push maxRxBuff port.head port.tail 1 head tail (by omega)
  have place := Ring.distance_head maxRxBuff port.head port.tail head tail
  have appended := Ring.cells_wrapBlit port.receiveBuffer maxRxBuff port.head
    (Ring.distance maxRxBuff port.head port.tail) [byte] head (by rw [List.length_singleton]; omega)
  rw [place,Ring.wrapBlit_flat _ _ _ _ (by rw [List.length_singleton]; omega),blit_singleton,List.length_singleton] at appended
  rw [stored,moved]
  exact appended

theorem Port.Received.save {first port : Port} {bytes : List UInt8} (received : first.Received bytes port) (byte : UInt8) :
    first.Received (bytes ++ [byte]) (port.save byte) := by
  have sound := received.sound
  have size := congrArg List.length received.stored
  rw [List.length_take] at size
  have longer : (first.stored ++ (bytes ++ [byte])).length = (first.stored ++ bytes).length + 1 := by
    rw [← List.append_assoc,List.length_append,List.length_singleton]
  by_cases full : port.stored.length = maxRxBuff - 1
  · rw [port.save_full byte sound full]
    refine ⟨⟨sound.head,sound.tail⟩,received.head,received.inverseLogic,?_,?_⟩
    · rw [← List.append_assoc,List.take_append_of_le_length (by omega)]
      exact received.stored
    · rw [decide_eq_true (by omega),Bool.or_true]
  · rw [port.save_room byte sound full]
    have positive : 0 < maxRxBuff := Nat.zero_lt_of_lt sound.head
    have room : (first.stored ++ bytes).length < maxRxBuff - 1 := by omega
    refine ⟨⟨sound.head,Nat.mod_lt _ positive⟩,received.head,received.inverseLogic,?_,?_⟩
    · rw [port.stored_next byte sound full,received.stored,List.take_of_length_le (Nat.le_of_lt room),List.append_assoc,
        List.take_of_length_le (by omega)]
    · change port.bufferOverflow = _
      rw [received.overflow,decide_eq_false (by omega),decide_eq_false (by omega)]

section Interrupts
variable {ι : Type}

/-- What a step leaves alone for the reception of `reader`. -/
structure Undisturbed (reader : ι) (s next : State ι) : Prop where
  activeListener : next.activeListener = s.activeListener
  activeIn : next.activeIn = s.activeIn
  rxTickCnt : next.rxTickCnt = s.rxTickCnt
  rxBitCnt : next.rxBitCnt = s.rxBitCnt
  rxBuffer : next.rxBuffer = s.rxBuffer
  port : ∃ level, next.port reader = {s.port reader with transmitPin := level}

theorem setSpeed_frame (s : State ι) (speed : UInt32) :
    setSpeed s speed = {s with timer := (setSpeed s speed).timer, curSpeed := (setSpeed s speed).curSpeed} := by
  unfold setSpeed
  split_ifs <;> rfl

variable [DecidableEq ι]

theorem recv_discards (s : State ι) (self : ι) (pin : Bool) (early : 1 < s.rxTickCnt) :
    recv s self pin = {s with rxTickCnt := s.rxTickCnt - 1} :=
  if_neg (by change ¬ s.rxTickCnt - 1 ≤ 0; omega)

theorem recv_starts (s : State ι) (self : ι) (pin : Bool) (due : s.rxTickCnt = 1) (waiting : s.rxBitCnt = -1)
    (low : (pin ^^ (s.port self).inverseLogic) = false) :
    recv s self pin = {s with rxBitCnt := 0, rxTickCnt := 4, rxBuffer := 0} := by
  simp [recv,due,waiting,low,oversample]

theorem recv_waits (s : State ι) (self : ι) (pin : Bool) (due : s.rxTickCnt = 1) (waiting : s.rxBitCnt = -1)
    (high : (pin ^^ (s.port self).inverseLogic) = true) : recv s self pin = {s with rxTickCnt := 1} := by
  simp [recv,due,waiting,high]

def shifted (buffer : UInt32) (inbit : Bool) : UInt32 :=
  if inbit then buffer >>> 1 ||| 0x80 else buffer >>> 1

theorem recv_bit (s : State ι) (self : ι) (pin : Bool) (k : Nat) (due : s.rxTickCnt = 1) (count : s.rxBitCnt = k)
    (data : k < 8) :
    recv s self pin =
      {s with rxBuffer := shifted s.rxBuffer (pin ^^ (s.port self).inverseLogic), rxBitCnt := s.rxBitCnt + 1, rxTickCnt := 3} := by
  have started : s.rxBitCnt ≠ -1 := by omega
  have more : ¬ 8 ≤ s.rxBitCnt := by omega
  cases high : pin ^^ (s.port self).inverseLogic <;> simp [recv,due,started,more,high,shifted,oversample]

theorem recv_stops (s : State ι) (self : ι) (pin : Bool) (due : s.rxTickCnt = 1) (count : s.rxBitCnt = 8)
    (high : (pin ^^ (s.port self).inverseLogic) = true) :
    recv s self pin =
      {modify s self fun port => port.save s.rxBuffer.toUInt8 with rxTickCnt := 1, rxBitCnt := -1} := by
  simp [recv,due,count,high,modify]

theorem recv_keeps (s : State ι) (self : ι) (pin : Bool) :
    (recv s self pin).activeListener = s.activeListener ∧ (recv s self pin).activeIn = s.activeIn := by
  simp only [recv,modify]
  split_ifs <;> exact ⟨rfl,rfl⟩

theorem send_undisturbed (s : State ι) (self sender : ι) (listener : s.activeListener = some self)
    (active : s.activeIn = some self) : Undisturbed self s (send s sender) := by
  have switched : ∀ t : State ι, t.activeIn = some self → t.activeListener = some self →
      (if (t.port sender).halfDuplex ∧ t.activeListener = some sender then setRXTX t sender true else t) = t := by
    intro t receives listens
    split
    · rename_i both
      have same : self = sender := Option.some.inj (listens.symm.trans both.2)
      simp [setRXTX,both.1,receives,same]
    · rfl
  unfold send
  simp only
  split
  · split
    · by_cases own : self = sender
      · subst own
        exact ⟨rfl,rfl,rfl,rfl,rfl,_,Function.update_self ..⟩
      · exact ⟨rfl,rfl,rfl,rfl,rfl,_,Function.update_of_ne own ..⟩
    · split
      · exact ⟨rfl,rfl,rfl,rfl,rfl,_,rfl⟩
      · split
        · rw [switched {s with txTickCnt := 1, txBitCnt := s.txBitCnt + 1} active listener]
          exact ⟨rfl,rfl,rfl,rfl,rfl,_,rfl⟩
        · exact ⟨rfl,rfl,rfl,rfl,rfl,_,rfl⟩
  · exact ⟨rfl,rfl,rfl,rfl,rfl,_,rfl⟩

/-- The state of a port that has just turned to its receiver. -/
structure Armed (s : State ι) (reader : ι) : Prop where
  activeListener : s.activeListener = some reader
  activeIn : s.activeIn = some reader
  rxBitCnt : s.rxBitCnt = -1
  rxTickCnt : 1 ≤ s.rxTickCnt
  sound : (s.port reader).Sound

def Relevelled (s next : State ι) : Prop := ∀ self, ∃ level, next.port self = {s.port self with transmitPin := level}

theorem setRXTX_relevelled (s : State ι) (self : ι) (input : Bool) : Relevelled s (setRXTX s self input) := by
  intro other
  unfold setRXTX setTX modify
  by_cases own : other = self
  · subst own
    split_ifs
    · exact ⟨_,rfl⟩
    · exact ⟨_,rfl⟩
    · exact ⟨_,Function.update_self ..⟩
    · exact ⟨_,rfl⟩
    · exact ⟨_,rfl⟩
  · split_ifs
    · exact ⟨_,rfl⟩
    · exact ⟨_,rfl⟩
    · exact ⟨_,Function.update_of_ne own ..⟩
    · exact ⟨_,rfl⟩
    · exact ⟨_,rfl⟩

theorem setRXTX_activeOut (s : State ι) (self : ι) (input : Bool) : (setRXTX s self input).activeOut = s.activeOut := by
  unfold setRXTX setTX modify
  split_ifs <;> rfl

theorem stopListening_relevelled (s : State ι) (self : ι) (silent : s.activeOut = none) :
    ∃ next, stopListening s self = some next ∧ next.activeOut = none ∧ Relevelled s next := by
  simp only [stopListening,silent,Option.isSome_none,Bool.false_eq_true,if_false]
  split
  · refine ⟨_,rfl,?_⟩
    rw [setSpeed_frame]
    split
    · exact ⟨(setRXTX_activeOut s self false).trans silent,setRXTX_relevelled s self false⟩
    · exact ⟨silent,fun _ => ⟨_,rfl⟩⟩
  · exact ⟨s,rfl,silent,fun _ => ⟨_,rfl⟩⟩

theorem takeOver_armed (s : State ι) (self : ι) (silent : s.activeOut = none) (sound : (s.port self).Sound) :
    Armed (takeOver s self) self ∧ (takeOver s self).port = s.port ∧
      ((s.port self).halfDuplex = false → (takeOver s self).rxTickCnt = 1) := by
  unfold takeOver
  rw [setSpeed_frame]
  cases half : (s.port self).halfDuplex with
  | false =>
    simp only [half,Bool.not_false,if_true]
    exact ⟨⟨rfl,rfl,rfl,le_refl (1 : Int),sound⟩,trivial,fun _ => trivial⟩
  | true =>
    simp only [half,silent,Bool.not_true,Bool.false_eq_true,if_false,Option.isNone_none,if_true,setRXTX]
    split
    · exact ⟨⟨rfl,rfl,rfl,(by decide : (1 : Int) ≤ 2),sound⟩,rfl,nofun⟩
    · rename_i already
      exact ⟨⟨rfl,not_not.mp already,rfl,le_refl (1 : Int),sound⟩,rfl,nofun⟩

/-- A port that listens from now on is armed, and looks at the next tick unless it is half duplex. -/
theorem listen_armed (s : State ι) (self : ι) (silent : s.activeOut = none) (other : s.activeListener ≠ some self)
    (sound : (s.port self).Sound) :
    ∃ next, listen s self = some next ∧ Armed next self ∧ Relevelled s next ∧
      ((s.port self).halfDuplex = false → next.rxTickCnt = 1) := by
  simp only [listen,if_neg other,silent,Option.isSome_none,Bool.false_eq_true,if_false]
  cases s.activeListener with
  | none =>
    obtain ⟨armed,kept,now⟩ := takeOver_armed s self silent sound
    exact ⟨_,rfl,armed,fun other => ⟨_,congrFun kept other⟩,now⟩
  | some former =>
    obtain ⟨t,stops,quiet,levels⟩ := stopListening_relevelled s former silent
    obtain ⟨level,same⟩ := levels self
    have placed : (t.port self).Sound := by
      rw [same]
      exact ⟨sound.head,sound.tail⟩
    have duplex : (t.port self).halfDuplex = (s.port self).halfDuplex := by rw [same]
    obtain ⟨armed,kept,now⟩ := takeOver_armed t self quiet placed
    refine ⟨takeOver t self,?_,armed,?_,?_⟩
    · simp only [stops,Option.map_some]
    · rw [Relevelled,kept]
      exact levels
    · rw [← duplex]
      exact now

end Interrupts

section Frames
variable {K : Type*}

/-- A frame of eight data bits without parity. -/
structure Frame (K : Type*) where
  start : K
  byte : UInt8

def Frame.bits (frame : Frame K) : List Bool := false :: (List.range 8).map frame.byte.toNat.testBit ++ [true]

def Frame.burst (frame : Frame K) : Burst K := ⟨frame.start,frame.bits⟩

theorem Frame.bits_length (frame : Frame K) : frame.bits.length = 10 := rfl

theorem Frame.bits_data (frame : Frame K) (k : Nat) (data : k < 8) (inside : k + 1 < frame.bits.length) :
    frame.bits[k + 1] = frame.byte.toNat.testBit k := by
  simp [bits,data]

/-- The register holds the low bits of the byte at its upper end. -/
theorem shifted_held (buffer : UInt32) (byte k : Nat) (data : k < 8) (held : buffer.toNat = byte % 2 ^ k * 2 ^ (8 - k)) :
    (shifted buffer (byte.testBit k)).toNat = byte % 2 ^ (k + 1) * 2 ^ (8 - (k + 1)) := by
  obtain ⟨rest,full⟩ : ∃ rest, 8 - k = rest + 1 := ⟨7 - k,by omega⟩
  have left : 8 - (k + 1) = rest := by omega
  have top : 2 ^ k * 2 ^ rest = 128 := by
    rw [← pow_add,show k + rest = 7 by omega]
    rfl
  have moved : (buffer >>> 1).toNat = byte % 2 ^ k * 2 ^ rest := by
    rw [UInt32.toNat_shiftRight,held,full,pow_succ,← mul_assoc]
    simp [Nat.shiftRight_eq_div_pow]
  have below : byte % 2 ^ k * 2 ^ rest < 2 ^ 7 := by
    rw [show 2 ^ 7 = 2 ^ k * 2 ^ rest from top.symm]
    exact Nat.mul_lt_mul_of_pos_right (Nat.mod_lt _ (Nat.two_pow_pos k)) (Nat.two_pow_pos rest)
  rw [left,Nat.mod_pow_succ,← Nat.toNat_testBit,add_mul]
  cases bit : byte.testBit k with
  | false => simp [shifted,moved]
  | true =>
    have joined : 128 + byte % 2 ^ k * 2 ^ rest = 128 ||| byte % 2 ^ k * 2 ^ rest := Nat.two_pow_add_eq_or_of_lt below 1
    simp only [shifted,if_true,UInt32.toNat_or,moved,Bool.toNat_true,mul_one]
    rw [top,Nat.or_comm,add_comm]
    exact joined.symm

theorem held_whole (buffer : UInt32) (byte : UInt8) (held : buffer.toNat = byte.toNat % 2 ^ 8 * 2 ^ (8 - 8)) :
    buffer.toUInt8 = byte := by
  have small : byte.toNat < 256 := byte.toNat_lt
  apply UInt8.toNat_inj.mp
  rw [UInt32.toNat_toUInt8,held]
  omega

variable [Field K] [LinearOrder K] {ι : Type}

/-- Where the reception stands before tick `n`: the frames that it has, and whether it waits for an edge or has
seen one at the tick `seen` and is about to sample bit `k + 1` of the frame. -/
inductive Phase (s : State ι) (n : Nat) : List (Frame K) → List (Frame K) → Prop
  | waiting (received rest : List (Frame K)) (idle : s.rxBitCnt = -1) (count : 1 ≤ s.rxTickCnt)
      (ended : ∀ frame ∈ received, frame.start + 29 ≤ n) (ahead : ∀ frame ∈ rest, n + s.rxTickCnt - 2 < frame.start) :
      Phase s n received (received ++ rest)
  | reading (received : List (Frame K)) (frame : Frame K) (rest : List (Frame K)) (seen k : Nat)
      (edge : frame.start ≤ seen) (soon : seen < frame.start + 1) (bit : s.rxBitCnt = k) (data : k ≤ 8)
      (count : 1 ≤ s.rxTickCnt) (due : n + s.rxTickCnt = seen + 5 + 3 * k)
      (held : s.rxBuffer.toNat = frame.byte.toNat % 2 ^ k * 2 ^ (8 - k))
      (ended : ∀ frame ∈ received, frame.start + 29 ≤ n) : Phase s n received (received ++ frame :: rest)

structure Receives (reader : ι) (first : Port) (frames : List (Frame K)) (n : Nat) (s : State ι) : Prop where
  activeListener : s.activeListener = some reader
  activeIn : s.activeIn = some reader
  phase : ∃ received, Phase s n received frames ∧ first.Received (received.map Frame.byte) (s.port reader)

theorem Receives.undisturbed {self : ι} {first : Port} {frames : List (Frame K)} {n : Nat} {s next : State ι}
    (receives : Receives self first frames n s) (same : Undisturbed self s next) : Receives self first frames n next := by
  obtain ⟨received,phase,port⟩ := receives.phase
  refine ⟨same.activeListener.trans receives.activeListener,same.activeIn.trans receives.activeIn,received,?_,?_⟩
  · cases phase with
    | waiting rest idle count ended ahead =>
      rw [← same.rxBitCnt] at idle
      rw [← same.rxTickCnt] at count ahead
      exact .waiting _ rest idle count ended ahead
    | reading frame rest seen k edge soon bit data count due held ended =>
      rw [← same.rxBitCnt] at bit
      rw [← same.rxTickCnt] at count due
      rw [← same.rxBuffer] at held
      exact .reading _ frame rest seen k edge soon bit data count due held ended
  · obtain ⟨level,changed⟩ := same.port
    rw [changed]
    exact ⟨⟨port.sound.head,port.sound.tail⟩,port.head,port.inverseLogic,port.stored,port.overflow⟩

theorem armed_receives (frames : List (Frame K)) (self : ι) (s : State ι) (armed : Armed s self)
    (future : ∀ frame ∈ frames, (s.rxTickCnt : K) - 2 < frame.start) : Receives self (s.port self) frames 0 s := by
  refine ⟨armed.activeListener,armed.activeIn,[],?_,(s.port self).received_nothing armed.sound⟩
  apply Phase.waiting [] frames armed.rxBitCnt armed.rxTickCnt
  · exact fun frame before => absurd before List.not_mem_nil
  · intro frame after
    have later := future frame after
    rw [Nat.cast_zero,zero_add]
    exact later

theorem behind {period : K} (received rest : List (Frame K)) (frame : Frame K)
    (apart : (received ++ frame :: rest).Pairwise fun f g => f.start + 10 * period ≤ g.start) :
    ∀ later ∈ rest, frame.start + 10 * period ≤ later.start :=
  (List.pairwise_cons.mp (List.pairwise_append.mp apart).2.1).1

section Timing
variable [IsStrictOrderedRing K] {period : K} {frames : List (Frame K)}

theorem line_frame (positive : 0 ≤ period) (apart : frames.Pairwise fun f g => f.start + 10 * period ≤ g.start)
    (frame : Frame K) (among : frame ∈ frames) (t : K) (i : Nat) (inside : i < frame.bits.length)
    (begun : frame.start + i * period ≤ t) (on : t < frame.start + (i + 1) * period) :
    line period (frames.map Frame.burst) t = frame.bits[i] := by
  have bursts : (frames.map Frame.burst).Pairwise fun a b => a.finish period ≤ b.start := by
    rw [List.pairwise_map]
    apply apart.imp
    intro f g ordered
    rw [Burst.finish]
    exact_mod_cast ordered
  exact line_bit positive _ bursts frame.burst (List.mem_map_of_mem among) t i inside begun on

theorem line_between (positive : 0 ≤ period) (fast : period ≤ 309 / 100) (received rest : List (Frame K)) (t : K)
    (ended : ∀ frame ∈ received, frame.start + 28 ≤ t) (ahead : ∀ frame ∈ rest, t < frame.start) :
    line period ((received ++ rest).map Frame.burst) t = true := by
  apply line_rests
  intro burst among begun on
  obtain ⟨frame,member,rfl⟩ := List.mem_map.mp among
  rcases List.mem_append.mp member with before | after
  · have stop := ended frame before
    have length : frame.burst.finish period = frame.start + 10 * period := rfl
    exact wave_at positive frame.bits frame.start t 9 (Nat.lt_succ_self 9) (by norm_num; linarith) (by norm_num; linarith)
  · exact absurd begun (not_le.mpr (ahead frame after))

/-- The sample of bit `i`, which is taken three ticks behind the one before it, is taken while the bit is sent. -/
theorem line_sample (slow : 291 / 100 ≤ period) (fast : period ≤ 309 / 100)
    (apart : frames.Pairwise fun f g => f.start + 10 * period ≤ g.start) (frame : Frame K) (among : frame ∈ frames)
    (seen k : Nat) (edge : frame.start ≤ seen) (soon : seen < frame.start + 1) (inside : k + 1 < frame.bits.length) :
    line period (frames.map Frame.burst) (seen + 4 + 3 * k : Nat) = frame.bits[k + 1] := by
  have data : (k : K) ≤ 8 := by
    rw [frame.bits_length] at inside
    exact_mod_cast (show k ≤ 8 by omega)
  have positive : (0 : K) ≤ k := Nat.cast_nonneg k
  have least := mul_le_mul_of_nonneg_left slow positive
  have most := mul_le_mul_of_nonneg_left fast positive
  apply line_frame (by linarith) apart frame among
  · push_cast
    linarith
  · push_cast
    linarith

/-- The frames that a port has received are the ones whose stop bit it has sampled. -/
theorem Phase.received {s : State ι} {n : Nat} {received frames : List (Frame K)} (phase : Phase s n received frames)
    (slow : 291 / 100 ≤ period) (apart : frames.Pairwise fun f g => f.start + 10 * period ≤ g.start) :
    frames.filter (fun frame => decide (frame.start + 29 ≤ (n : K))) = received := by
  have all : ∀ part : List (Frame K), (∀ frame ∈ part, frame.start + 29 ≤ (n : K)) →
      part.filter (fun frame => decide (frame.start + 29 ≤ (n : K))) = part :=
    fun part ended => List.filter_eq_self.mpr fun frame member => decide_eq_true (ended frame member)
  have none : ∀ part : List (Frame K), (∀ frame ∈ part, (n : K) < frame.start + 29) →
      part.filter (fun frame => decide (frame.start + 29 ≤ (n : K))) = [] :=
    fun part later => List.filter_eq_nil_iff.mpr fun frame member past =>
      not_le.mpr (later frame member) (of_decide_eq_true past)
  cases phase with
  | waiting rest idle count ended ahead =>
    rw [List.filter_append,all received ended,none rest,List.append_nil]
    intro frame after
    have later := ahead frame after
    have least : (1 : K) ≤ s.rxTickCnt := by exact_mod_cast count
    linarith
  | reading frame rest seen k edge soon bit data count due held ended =>
    have near : (n : K) + 1 ≤ seen + 29 := by exact_mod_cast (show n + 1 ≤ seen + 29 by omega)
    rw [List.filter_append,all received ended,none (frame :: rest),List.append_nil]
    intro other after
    rcases List.mem_cons.mp after with rfl | later
    · linarith
    · have follow := behind received rest frame apart other later
      linarith

theorem ended_succ (received : List (Frame K)) (n : Nat) (ended : ∀ frame ∈ received, frame.start + 29 ≤ (n : K)) :
    ∀ frame ∈ received, frame.start + 29 ≤ ((n + 1 : Nat) : K) := by
  intro frame before
  have past := ended frame before
  push_cast
  linarith

variable [DecidableEq ι]

theorem recv_counts (self : ι) (first : Port) (n : Nat) (s : State ι) (pin : Bool) (receives : Receives self first frames n s)
    (early : 1 < s.rxTickCnt) : Receives self first frames (n + 1) (recv s self pin) := by
  obtain ⟨received,phase,port⟩ := receives.phase
  rw [recv_discards s self pin early]
  refine ⟨receives.activeListener,receives.activeIn,received,?_,port⟩
  cases phase with
  | waiting rest idle count ended ahead =>
    refine .waiting _ rest idle (by change 1 ≤ s.rxTickCnt - 1; omega) (ended_succ received n ended) ?_
    intro frame after
    have later := ahead frame after
    push_cast
    linarith
  | reading frame rest seen k edge soon bit data count due held ended =>
    exact .reading _ frame rest seen k edge soon bit data (by change 1 ≤ s.rxTickCnt - 1; omega)
      (by change _ + (s.rxTickCnt - 1) = _; push_cast; omega) held (ended_succ received n ended)

theorem recv_seeks (slow : 291 / 100 ≤ period) (fast : period ≤ 309 / 100) (received rest : List (Frame K))
    (apart : (received ++ rest).Pairwise fun f g => f.start + 10 * period ≤ g.start) (self : ι) (n : Nat) (s : State ι)
    (pin : Bool) (wired : (pin ^^ (s.port self).inverseLogic) = line period ((received ++ rest).map Frame.burst) n)
    (idle : s.rxBitCnt = -1) (now : s.rxTickCnt = 1) (ended : ∀ frame ∈ received, frame.start + 29 ≤ (n : K))
    (ahead : ∀ frame ∈ rest, (n : K) - 1 < frame.start) :
    Phase (recv s self pin) (n + 1) received (received ++ rest) ∧ (recv s self pin).port = s.port := by
  have passed := ended_succ received n ended
  by_cases quiet : ∀ frame ∈ rest, (n : K) < frame.start
  · have high := line_between (by linarith) fast received rest (n : K)
      (fun frame before => by linarith [ended frame before]) quiet
    rw [recv_waits s self pin now idle (wired.trans high)]
    refine ⟨.waiting _ rest idle (le_refl 1) passed ?_,rfl⟩
    intro frame after
    have later := quiet frame after
    push_cast
    linarith
  · cases rest with
    | nil => exact absurd (fun frame member => absurd member List.not_mem_nil) quiet
    | cons frame rest =>
      have follow := behind received rest frame apart
      have edge : frame.start ≤ (n : K) := by
        by_contra before
        apply quiet
        intro other member
        rcases List.mem_cons.mp member with rfl | later
        · exact not_le.mp before
        · linarith [follow other later]
      have soon := ahead frame List.mem_cons_self
      have low := line_frame (by linarith) apart frame (by simp) (n : K) 0 (Nat.zero_lt_succ 9)
        (by norm_num; exact edge) (by norm_num; linarith)
      rw [recv_starts s self pin now idle (wired.trans low)]
      refine ⟨.reading _ frame rest n 0 edge (by linarith) rfl (Nat.zero_le 8) (by change (1 : Int) ≤ 4; decide) rfl ?_ passed,rfl⟩
      simp [Nat.mod_one]

theorem recv_data (received rest : List (Frame K)) (frame : Frame K) (self : ι) (seen k : Nat) (s : State ι) (pin : Bool)
    (wired : (pin ^^ (s.port self).inverseLogic) = frame.byte.toNat.testBit k) (edge : frame.start ≤ seen)
    (soon : seen < frame.start + 1) (bit : s.rxBitCnt = k) (data : k < 8) (now : s.rxTickCnt = 1)
    (held : s.rxBuffer.toNat = frame.byte.toNat % 2 ^ k * 2 ^ (8 - k))
    (ended : ∀ frame ∈ received, frame.start + 29 ≤ ((seen + 4 + 3 * k : Nat) : K)) :
    Phase (recv s self pin) (seen + 4 + 3 * k + 1) received (received ++ frame :: rest) ∧ (recv s self pin).port = s.port := by
  have passed := ended_succ received (seen + 4 + 3 * k) ended
  rw [recv_bit s self pin k now bit data,wired]
  refine ⟨.reading _ frame rest seen (k + 1) edge soon ?_ data (by change (1 : Int) ≤ 3; decide) ?_ ?_ passed,rfl⟩
  · change s.rxBitCnt + 1 = _
    rw [bit]
    rfl
  · change _ + (3 : Int) = _
    omega
  · exact shifted_held s.rxBuffer frame.byte.toNat k data held

/-- Behind the stop bit the port waits again, in time for a frame that follows at once. -/
theorem recv_stop (slow : 291 / 100 ≤ period) (received rest : List (Frame K)) (frame : Frame K)
    (apart : (received ++ frame :: rest).Pairwise fun f g => f.start + 10 * period ≤ g.start) (self : ι) (seen : Nat)
    (s : State ι) (pin : Bool) (wired : (pin ^^ (s.port self).inverseLogic) = true) (edge : frame.start ≤ seen)
    (soon : seen < frame.start + 1) (bit : s.rxBitCnt = 8) (now : s.rxTickCnt = 1)
    (held : s.rxBuffer.toNat = frame.byte.toNat % 2 ^ 8 * 2 ^ (8 - 8))
    (ended : ∀ frame ∈ received, frame.start + 29 ≤ ((seen + 4 + 3 * 8 : Nat) : K)) :
    Phase (recv s self pin) (seen + 4 + 3 * 8 + 1) (received ++ [frame]) (received ++ frame :: rest) ∧
      (recv s self pin).port self = (s.port self).save frame.byte := by
  rw [recv_stops s self pin now bit wired]
  constructor
  · rw [List.append_cons received frame rest]
    apply Phase.waiting (received ++ [frame]) rest
    · rfl
    · exact le_refl (1 : Int)
    · intro other before
      rcases List.mem_append.mp before with earlier | own
      · exact ended_succ received (seen + 4 + 3 * 8) ended other earlier
      · rw [List.mem_singleton.mp own]
        push_cast
        linarith
    · intro later after
      have follow := behind received rest frame apart later after
      push_cast
      linarith
  · change Function.update s.port self ((s.port self).save s.rxBuffer.toUInt8) self = _
    rw [Function.update_self,held_whole s.rxBuffer frame.byte held]

theorem recv_samples (slow : 291 / 100 ≤ period) (fast : period ≤ 309 / 100) (received rest : List (Frame K)) (frame : Frame K)
    (apart : (received ++ frame :: rest).Pairwise fun f g => f.start + 10 * period ≤ g.start) (self : ι) (first : Port)
    (seen k : Nat) (s : State ι) (pin : Bool) (port : first.Received (received.map Frame.byte) (s.port self))
    (wired : (pin ^^ (s.port self).inverseLogic) =
      line period ((received ++ frame :: rest).map Frame.burst) (seen + 4 + 3 * k : Nat))
    (edge : frame.start ≤ seen) (soon : seen < frame.start + 1) (bit : s.rxBitCnt = k) (data : k ≤ 8) (now : s.rxTickCnt = 1)
    (held : s.rxBuffer.toNat = frame.byte.toNat % 2 ^ k * 2 ^ (8 - k))
    (ended : ∀ frame ∈ received, frame.start + 29 ≤ ((seen + 4 + 3 * k : Nat) : K)) :
    ∃ now, Phase (recv s self pin) (seen + 4 + 3 * k + 1) now (received ++ frame :: rest) ∧
      first.Received (now.map Frame.byte) ((recv s self pin).port self) := by
  have inside : k + 1 < frame.bits.length := Nat.lt_of_le_of_lt (Nat.succ_le_succ data) (Nat.lt_succ_self 9)
  rw [line_sample slow fast apart frame (by simp) seen k edge soon inside] at wired
  rcases Nat.lt_or_eq_of_le data with more | rfl
  · rw [frame.bits_data k more] at wired
    obtain ⟨phase,same⟩ := recv_data received rest frame self seen k s pin wired edge soon bit more now held ended
    rw [same]
    exact ⟨received,phase,port⟩
  · obtain ⟨phase,saved⟩ := recv_stop slow received rest frame apart self seen s pin wired edge soon bit now held ended
    refine ⟨received ++ [frame],phase,?_⟩
    rw [saved,List.map_append]
    exact port.save frame.byte

theorem recv_receives (slow : 291 / 100 ≤ period) (fast : period ≤ 309 / 100)
    (apart : frames.Pairwise fun f g => f.start + 10 * period ≤ g.start) (self : ι) (first : Port) (n : Nat) (s : State ι)
    (pin : Bool) (receives : Receives self first frames n s)
    (wired : (pin ^^ first.inverseLogic) = line period (frames.map Frame.burst) n) :
    Receives self first frames (n + 1) (recv s self pin) := by
  by_cases early : 1 < s.rxTickCnt
  · exact recv_counts self first n s pin receives early
  · obtain ⟨received,phase,port⟩ := receives.phase
    obtain ⟨listener,active⟩ := recv_keeps s self pin
    rw [← port.inverseLogic] at wired
    refine ⟨listener.trans receives.activeListener,active.trans receives.activeIn,?_⟩
    cases phase with
    | waiting rest idle count ended ahead =>
      have now : s.rxTickCnt = 1 := by omega
      have near : ∀ frame ∈ rest, (n : K) - 1 < frame.start := by
        intro frame after
        have later := ahead frame after
        rw [now] at later
        push_cast at later
        linarith
      obtain ⟨phase,same⟩ := recv_seeks slow fast received rest apart self n s pin wired idle now ended near
      rw [same]
      exact ⟨received,phase,port⟩
    | reading frame rest seen k edge soon bit data count due held ended =>
      have now : s.rxTickCnt = 1 := by omega
      have place : n = seen + 4 + 3 * k := by omega
      subst place
      exact recv_samples slow fast received rest frame apart self first seen k s pin port wired edge soon bit data now held ended

theorem handleInterrupt_receives (slow : 291 / 100 ≤ period) (fast : period ≤ 309 / 100)
    (apart : frames.Pairwise fun f g => f.start + 10 * period ≤ g.start) (self : ι) (first : Port) (n : Nat) (s : State ι)
    (pins : ι → Bool) (receives : Receives self first frames n s)
    (wired : (pins self ^^ first.inverseLogic) = line period (frames.map Frame.burst) n) :
    Receives self first frames (n + 1) (handleInterrupt s pins) := by
  have received := recv_receives slow fast apart self first n s (pins self) receives wired
  unfold handleInterrupt
  simp only [receives.activeIn]
  split
  · exact received.undisturbed (send_undisturbed _ self _ received.activeListener received.activeIn)
  · exact received

/-- A port that listens stores the bytes of the frames on its line in their order, each once its stop bit is
sampled, as long as there is room for them. -/
theorem frames_decoded (slow : 291 / 100 ≤ period) (fast : period ≤ 309 / 100) (frames : List (Frame K))
    (apart : frames.Pairwise fun f g => f.start + 10 * period ≤ g.start) (self : ι) (s : State ι) (armed : Armed s self)
    (future : ∀ frame ∈ frames, (s.rxTickCnt : K) - 2 < frame.start) (pins : Nat → ι → Bool)
    (wired : ∀ n : Nat, pins n self = (line period (frames.map Frame.burst) (n : K) ^^ (s.port self).inverseLogic)) (n : Nat) :
    (s.port self).Received ((frames.filter fun frame => decide (frame.start + 29 ≤ (n : K))).map Frame.byte) ((ticks s pins n).port self) := by
  have receives : Receives self (s.port self) frames n (ticks s pins n) := by
    induction n with
    | zero => exact armed_receives frames self s armed future
    | succ n ih =>
      apply handleInterrupt_receives slow fast apart self (s.port self) n (ticks s pins n) (pins n) ih
      rw [wired n,Bool.xor_assoc,Bool.xor_self,Bool.xor_false]
  obtain ⟨received,phase,port⟩ := receives.phase
  rw [phase.received slow apart]
  exact port

/-- Two frames without a gap between them, at the fastest rate, for a port with inverse logic. -/
theorem frames_decoded_joined :
    ∃ s, begin (boot 84000000 fun _ : Unit => Port.construct true false) () 9600 = some s ∧
      (s.port ()).Received [0x41,0xC2]
        ((ticks s (fun n _ => line (291 / 100 : ℚ) ([⟨1 / 3,0x41⟩,⟨1 / 3 + 291 / 10,0xC2⟩].map Frame.burst) n ^^ true) 60).port ()) := by
  obtain ⟨s,listens,armed,levels,now⟩ := listen_armed
    (setTX (modify (boot 84000000 fun _ : Unit => Port.construct true false) () fun port => {port with speed := 9600}) ()) ()
    rfl nofun ⟨by decide,by decide⟩
  obtain ⟨level,same⟩ := levels ()
  have due := now rfl
  have inverse : (s.port ()).inverseLogic = true := by
    rw [same]
    rfl
  have decoded := frames_decoded (le_refl (291 / 100 : ℚ)) (by norm_num)
    [⟨1 / 3,0x41⟩,⟨1 / 3 + 291 / 10,0xC2⟩] (by norm_num) () s armed (by rw [due]; norm_num)
    (fun n _ => line (291 / 100 : ℚ) ([⟨1 / 3,0x41⟩,⟨1 / 3 + 291 / 10,0xC2⟩].map Frame.burst) n ^^ true)
    (fun n => by rw [inverse]) 60
  have both : ([⟨1 / 3,0x41⟩,⟨1 / 3 + 291 / 10,0xC2⟩] : List (Frame ℚ)).filter
      (fun frame => decide (frame.start + 29 ≤ ((60 : Nat) : ℚ))) = [⟨1 / 3,0x41⟩,⟨1 / 3 + 291 / 10,0xC2⟩] := by
    norm_num [List.filter]
  rw [both] at decoded
  exact ⟨s,listens,decoded⟩

end Timing

end Frames

end OpenPlc.Serial.SoftwareSerial
