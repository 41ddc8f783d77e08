import OpenPlc.Lib.Run
import OpenPlc.Serial.Decoding
import OpenPlc.Serial.Receive

/-! A program that reads from a software port, interrupted anywhere by ticks. The buffer of the port is the ring of
`Receive` under other names, so that what the calls return is known from there. -/
namespace OpenPlc.Serial.SoftwareSerial.Reader
open Signal

def rxSize : Receive.BufferSize := ⟨maxRxBuff,by decide,by decide⟩

variable {ι : Type}

/-- The byte that `recv` saves at this tick. -/
def saved (s : State ι) (self : ι) (pin : Bool) : Option UInt8 :=
  if s.rxTickCnt ≤ 1 ∧ 8 ≤ s.rxBitCnt ∧ (pin ^^ (s.port self).inverseLogic) = true then some s.rxBuffer.toUInt8 else none

/-- The ticks so far, where a call stands, and the bytes that were saved and the results of the calls. -/
structure Session (ι : Type) where
  serial : State ι
  ticks : Nat
  stage : Option Receive.Stage
  log : List Receive.Entry

inductive Event where
  | tick
  | call (operation : Receive.Operation)
  | run

def start (serial : State ι) : Session ι := ⟨serial,0,none,[]⟩

def leave (s : Session ι) (entry : Receive.Entry) : Session ι := {s with stage := none, log := s.log ++ [entry]}

variable [DecidableEq ι] (self : ι)

/-- `read`, `peek` and `available`, one access to the indices or the buffer after the other. -/
def mainStep (s : Session ι) : Receive.Stage → Session ι
  | .readCheck =>
    if (s.serial.port self).head = (s.serial.port self).tail then leave s (.read none) else {s with stage := some .readLoad}
  | .readLoad => {s with stage := some (.readAdvance ((s.serial.port self).receiveBuffer (s.serial.port self).head))}
  | .readAdvance c =>
    leave {s with serial := modify s.serial self fun port => {port with head := (port.head + 1) % maxRxBuff}} (.read (some c))
  | .peekCheck =>
    if (s.serial.port self).head = (s.serial.port self).tail then leave s (.peek none) else {s with stage := some .peekLoad}
  | .peekLoad => leave s (.peek (some ((s.serial.port self).receiveBuffer (s.serial.port self).head)))
  | .availableLoad =>
    leave s (.available (((s.serial.port self).tail + maxRxBuff - (s.serial.port self).head) % maxRxBuff))

/-- `pins` has the levels of the receive pins at each tick. -/
def step (pins : Nat → ι → Bool) (s : Session ι) : Event → Option (Session ι)
  | .tick => some {s with
      serial := handleInterrupt s.serial (pins s.ticks)
      ticks := s.ticks + 1
      log := s.log ++ (if s.serial.activeIn = some self then
        (saved s.serial self (pins s.ticks self)).toList.map .received else [])}
  | .call operation => if s.stage.isSome then none else some {s with stage := some (Receive.enter operation)}
  | .run => s.stage.map (mainStep self s)

/-- The buffer of the port, of which the tail is where bytes are written. -/
def ring (port : Port) (stage : Option Receive.Stage) (log : List Receive.Entry) : Receive.State :=
  ⟨port.receiveBuffer,port.tail,port.head,stage,log⟩

def view (s : Session ι) : Receive.State := ring (s.serial.port self) s.stage s.log

def received (log : List Receive.Entry) : List UInt8 :=
  log.filterMap fun
    | .received c => some c
    | _ => none

section Reception
variable {K : Type*} [Field K] [LinearOrder K] {s next : State ι} {n : Nat} {frames done : List (Frame K)} {self : ι}

omit [DecidableEq ι] in
theorem phase_same (phase : Phase s n done frames) (count : next.rxTickCnt = s.rxTickCnt) (bits : next.rxBitCnt = s.rxBitCnt)
    (buffer : next.rxBuffer = s.rxBuffer) : Phase next n done frames := by
  cases phase with
  | waiting rest idle positive ended ahead =>
    rw [← bits] at idle
    rw [← count] at positive ahead
    exact .waiting _ rest idle positive ended ahead
  | reading frame rest seen k edge soon bit data positive due held ended =>
    rw [← bits] at bit
    rw [← count] at positive due
    rw [← buffer] at held
    exact .reading _ frame rest seen k edge soon bit data positive due held ended

variable [IsStrictOrderedRing K] {period : K}

omit [DecidableEq ι] in
theorem phase_counts (phase : Phase s n done frames) (early : 1 < s.rxTickCnt) :
    Phase {s with rxTickCnt := s.rxTickCnt - 1} (n + 1) done frames := by
  cases phase with
  | waiting rest idle count ended ahead =>
    refine .waiting _ rest idle (by change 1 ≤ s.rxTickCnt - 1; omega) (ended_succ done n ended) ?_
    intro frame after
    have later := ahead frame after
    push_cast
    linarith
  | reading frame rest seen k edge soon bit data count due held ended =>
    exact .reading _ frame rest seen k edge soon bit data (by change 1 ≤ s.rxTickCnt - 1; omega)
      (by change _ + (s.rxTickCnt - 1) = _; push_cast; omega) held (ended_succ done n ended)

theorem recv_phase (slow : 291 / 100 ≤ period) (fast : period ≤ 309 / 100)
    (apart : frames.Pairwise fun f g => f.start + 10 * period ≤ g.start) (pin : Bool) (phase : Phase s n done frames)
    (wired : (pin ^^ (s.port self).inverseLogic) = line period (frames.map Frame.burst) n) :
    ∃ more : List (Frame K), Phase (recv s self pin) (n + 1) (done ++ more) frames ∧
      (saved s self pin).toList = more.map Frame.byte := by
  by_cases early : 1 < s.rxTickCnt
  · rw [recv_discards s self pin early]
    refine ⟨[],?_,?_⟩
    · rw [List.append_nil]
      exact phase_counts phase early
    · rw [saved,if_neg fun due => absurd due.1 (Int.not_le.mpr early)]
      rfl
  · cases phase with
    | waiting rest idle count ended ahead =>
      have now : s.rxTickCnt = 1 := by omega
      have near : ∀ frame ∈ rest, (n : K) - 1 < frame.start := by
        intro frame after
        have later := ahead frame after
        rw [now] at later
        push_cast at later
        linarith
      obtain ⟨phase,_⟩ := recv_seeks slow fast done rest apart self n s pin wired idle now ended near
      refine ⟨[],?_,?_⟩
      · rw [List.append_nil]
        exact phase
      · rw [saved,if_neg fun due => absurd due.2.1 (by rw [idle]; decide)]
        rfl
    | reading frame rest seen k edge soon bit data count due held ended =>
      have now : s.rxTickCnt = 1 := by omega
      have place : n = seen + 4 + 3 * k := by omega
      subst place
      have inside : k + 1 < frame.bits.length := Nat.lt_of_le_of_lt (Nat.succ_le_succ data) (Nat.lt_succ_self 9)
      rw [line_sample slow fast apart frame (by simp) seen k edge soon inside] at wired
      rcases Nat.lt_or_eq_of_le data with more | rfl
      · rw [frame.bits_data k more] at wired
        obtain ⟨phase,_⟩ := recv_data done rest frame self seen k s pin wired edge soon bit more now held ended
        refine ⟨[],?_,?_⟩
        · rw [List.append_nil]
          exact phase
        · rw [saved,if_neg fun due => absurd due.2.1 (by rw [bit]; omega)]
          rfl
      · obtain ⟨phase,_⟩ := recv_stop slow done rest frame apart self seen s pin wired edge soon bit now held ended
        refine ⟨[frame],phase,?_⟩
        have stop : (pin ^^ (s.port self).inverseLogic) = true := wired
        rw [saved,if_pos ⟨now.le,by rw [bit]; decide,stop⟩,held_whole s.rxBuffer frame.byte held]
        rfl

end Reception

section Buffer
variable {self : ι}

/-- The bytes that a tick leaves in the port. -/
theorem recv_saves (s : State ι) (pin : Bool) :
    (recv s self pin).port self = (saved s self pin).toList.foldl Port.save (s.port self) := by
  by_cases due : s.rxTickCnt ≤ 1 ∧ 8 ≤ s.rxBitCnt ∧ (pin ^^ (s.port self).inverseLogic) = true
  · obtain ⟨now,whole,stop⟩ := due
    have ready : s.rxTickCnt - 1 ≤ 0 := by omega
    have started : s.rxBitCnt ≠ -1 := by omega
    rw [saved,if_pos ⟨now,whole,stop⟩]
    simp only [recv,ready,started,whole,stop,if_true,if_false,modify,Function.update_self]
    rfl
  · rw [saved,if_neg due]
    simp only [recv]
    split_ifs with ready started low whole high
    · rfl
    · rfl
    · exact absurd ⟨by omega,whole,high⟩ due
    · rfl
    · rfl
    · rfl
    · rfl

theorem handleInterrupt_saves (s : State ι) (pins : ι → Bool) (listener : s.activeListener = some self)
    (active : s.activeIn = some self) :
    Undisturbed self (recv s self (pins self)) (handleInterrupt s pins) := by
  obtain ⟨keptListener,keptActive⟩ := recv_keeps s self (pins self)
  unfold handleInterrupt
  simp only [active]
  split
  · exact send_undisturbed _ self _ (keptListener.trans listener) (keptActive.trans active)
  · exact ⟨rfl,rfl,rfl,rfl,rfl,_,rfl⟩

/-- The buffer holds what the log says, and the flag tells whether a byte was dropped. -/
structure Buffered (port : Port) (stage : Option Receive.Stage) (log : List Receive.Entry) : Prop where
  ring : Receive.Inv rxSize (ring port stage log)
  fewer : (Receive.account rxSize log).accepted.length ≤ (received log).length
  overflow : port.bufferOverflow = decide ((Receive.account rxSize log).accepted.length < (received log).length)

theorem received_append (log : List Receive.Entry) (entry : Receive.Entry) :
    received (log ++ [entry]) = received log ++ received [entry] := List.filterMap_append ..

theorem ring_save (port : Port) (stage : Option Receive.Stage) (log : List Receive.Entry) (c : UInt8) :
    ring (port.save c) stage (log ++ [.received c]) = Receive.rxCompleteIrq rxSize (ring port stage log) (some c) := by
  have next : rxSize.index ((port.tail + 1) % maxRxBuff) = (port.tail + 1) % maxRxBuff :=
    Receive.index_lt (Nat.mod_lt _ rxSize.positive)
  have slots : rxSize.slots = maxRxBuff := rfl
  simp only [ring,Port.save,Receive.rxCompleteIrq,slots,next]
  split_ifs <;> rfl

theorem Buffered.save {port : Port} {stage : Option Receive.Stage} {log : List Receive.Entry} (buffered : Buffered port stage log)
    (c : UInt8) : Buffered (port.save c) stage (log ++ [.received c]) := by
  obtain ⟨inv,fewer,overflow⟩ := buffered
  have used : (Receive.account rxSize log).pending.length = Ring.distance maxRxBuff port.head port.tail := inv.length
  have more : (received (log ++ [.received c])).length = (received log).length + 1 := by
    rw [received_append,List.length_append]
    rfl
  have full := Ring.distance_full maxRxBuff port.head port.tail inv.tail inv.head
  have most := Ring.distance_lt maxRxBuff port.head port.tail rxSize.positive
  refine ⟨?_,?_,?_⟩
  · rw [ring_save]
    exact Receive.inv_rx inv (some c)
  · rw [Receive.account_append,Receive.record,more]
    split_ifs
    · rw [Fifo.push_accepted,List.length_append]
      exact Nat.add_le_add_right fewer 1
    · omega
  · rw [Receive.account_append,Receive.record,more]
    have slots : rxSize.slots = maxRxBuff := rfl
    by_cases room : (port.tail + 1) % maxRxBuff ≠ port.head
    · rw [if_pos (by rw [used,slots]; omega),Port.save,if_pos room,Fifo.push_accepted,List.length_append]
      simp only [overflow,List.length_singleton,Nat.add_lt_add_iff_right]
    · rw [if_neg (by rw [used,slots]; omega),Port.save,if_neg room,decide_eq_true (by omega)]

theorem Buffered.same {port next : Port} {stage : Option Receive.Stage} {log : List Receive.Entry}
    (buffered : Buffered port stage log) (level : ∃ pin, next = {port with transmitPin := pin}) : Buffered next stage log := by
  obtain ⟨pin,rfl⟩ := level
  exact ⟨buffered.ring,buffered.fewer,buffered.overflow⟩

theorem Buffered.heard {port : Port} {stage : Option Receive.Stage} {log : List Receive.Entry} (buffered : Buffered port stage log)
    (heard : Option UInt8) : Buffered (heard.toList.foldl Port.save port) stage (log ++ heard.toList.map .received) := by
  cases heard with
  | none =>
    rw [Option.toList_none,List.map_nil,List.append_nil]
    exact buffered
  | some c => exact buffered.save c

omit [DecidableEq ι] in
theorem saves_inverse (port : Port) (heard : Option UInt8) :
    (heard.toList.foldl Port.save port).inverseLogic = port.inverseLogic := by
  cases heard with
  | none => rfl
  | some c =>
    change (port.save c).inverseLogic = port.inverseLogic
    rw [Port.save]
    split_ifs <;> rfl

omit [DecidableEq ι] in
theorem received_heard (log : List Receive.Entry) (heard : Option UInt8) :
    received (log ++ heard.toList.map .received) = received log ++ heard.toList := by
  cases heard with
  | none => exact congrArg received (List.append_nil log) |>.trans (List.append_nil _).symm
  | some c => exact received_append log (.received c)

/-- What a call makes of the ring is what the calls of a hardware port make of theirs. -/
theorem view_main (s : Session ι) (stage : Receive.Stage) (head : (s.serial.port self).head < maxRxBuff) :
    view self (mainStep self s stage) = Receive.mainStep rxSize (view self s) stage := by
  have swap : (s.serial.port self).tail = (s.serial.port self).head ↔ (s.serial.port self).head = (s.serial.port self).tail :=
    ⟨Eq.symm,Eq.symm⟩
  cases stage with
  | readCheck =>
    simp only [mainStep,Receive.mainStep,view,ring,swap]
    split_ifs <;> rfl
  | readLoad => rfl
  | readAdvance c =>
    have next : rxSize.index ((s.serial.port self).head + 1) % maxRxBuff = ((s.serial.port self).head + 1) % maxRxBuff :=
      Receive.index_eq head
    simp only [mainStep,Receive.mainStep,view,ring,leave,Receive.leave,modify,Function.update_self]
    rw [show rxSize.slots = maxRxBuff from rfl,next]
  | peekCheck =>
    simp only [mainStep,Receive.mainStep,view,ring,swap]
    split_ifs <;> rfl
  | peekLoad => rfl
  | availableLoad =>
    simp only [mainStep,Receive.mainStep,view,ring,leave,Receive.leave]
    rw [show rxSize.slots = maxRxBuff from rfl,Nat.add_comm]

/-- What a call leaves alone. -/
structure Calls (reader : ι) (s next : Session ι) : Prop where
  activeListener : next.serial.activeListener = s.serial.activeListener
  activeIn : next.serial.activeIn = s.serial.activeIn
  rxTickCnt : next.serial.rxTickCnt = s.serial.rxTickCnt
  rxBitCnt : next.serial.rxBitCnt = s.serial.rxBitCnt
  rxBuffer : next.serial.rxBuffer = s.serial.rxBuffer
  ticks : next.ticks = s.ticks
  inverseLogic : (next.serial.port reader).inverseLogic = (s.serial.port reader).inverseLogic
  bufferOverflow : (next.serial.port reader).bufferOverflow = (s.serial.port reader).bufferOverflow
  received : received next.log = received s.log
  accepted : (Receive.account rxSize next.log).accepted = (Receive.account rxSize s.log).accepted

omit [DecidableEq ι] in
theorem calls_leave (s : Session ι) (entry : Receive.Entry) (silent : ∀ c, entry ≠ .received c) : Calls self s (leave s entry) := by
  refine ⟨rfl,rfl,rfl,rfl,rfl,rfl,rfl,rfl,?_,?_⟩
  · rw [leave,received_append]
    cases entry with
    | received c => exact absurd rfl (silent c)
    | read result => exact List.append_nil _
    | peek result => exact List.append_nil _
    | available result => exact List.append_nil _
  · rw [leave,Receive.account_append]
    cases entry with
    | received c => exact absurd rfl (silent c)
    | read result => cases result <;> rfl
    | peek result => rfl
    | available result => rfl

theorem calls_main (s : Session ι) (stage : Receive.Stage) : Calls self s (mainStep self s stage) := by
  have stays (next : Receive.Stage) : Calls self s {s with stage := some next} :=
    ⟨rfl,rfl,rfl,rfl,rfl,rfl,rfl,rfl,rfl,rfl⟩
  cases stage with
  | readCheck =>
    rw [mainStep]
    split_ifs
    · exact calls_leave s _ (by simp)
    · exact stays _
  | readLoad => exact stays _
  | readAdvance c =>
    obtain ⟨_,_,_,_,_,_,_,_,received,accepted⟩ : Calls self s (leave s (.read (some c))) := calls_leave s _ (by simp)
    refine ⟨rfl,rfl,rfl,rfl,rfl,rfl,?_,?_,received,accepted⟩
    · simp [mainStep,leave,modify]
    · simp [mainStep,leave,modify]
  | peekCheck =>
    rw [mainStep]
    split_ifs
    · exact calls_leave s _ (by simp)
    · exact stays _
  | peekLoad => exact calls_leave s _ (by simp)
  | availableLoad => exact calls_leave s _ (by simp)

end Buffer

section Run
variable {K : Type*} [Field K] [LinearOrder K] {self : ι} {inverse : Bool} {frames : List (Frame K)}

/-- What holds of a port that listens to these frames, behind any step of the program and of the timer. -/
structure Inv (reader : ι) (inverse : Bool) (frames : List (Frame K)) (s : Session ι) : Prop where
  activeListener : s.serial.activeListener = some reader
  activeIn : s.serial.activeIn = some reader
  inverseLogic : (s.serial.port reader).inverseLogic = inverse
  phase : ∃ done, Phase s.serial s.ticks done frames ∧ received s.log = done.map Frame.byte
  buffered : Buffered (s.serial.port reader) s.stage s.log

theorem inv_main {s : Session ι} {stage : Receive.Stage} (inv : Inv self inverse frames s) (here : s.stage = some stage) :
    Inv self inverse frames (mainStep self s stage) := by
  have calls : Calls self s (mainStep self s stage) := calls_main s stage
  obtain ⟨done,phase,heard⟩ := inv.phase
  have ring : Receive.Inv rxSize (view self (mainStep self s stage)) := by
    rw [view_main s stage inv.buffered.ring.tail]
    exact Receive.inv_main inv.buffered.ring here
  refine ⟨calls.activeListener.trans inv.activeListener,calls.activeIn.trans inv.activeIn,
    calls.inverseLogic.trans inv.inverseLogic,⟨done,?_,calls.received.trans heard⟩,ring,?_,?_⟩
  · rw [calls.ticks]
    exact phase_same phase calls.rxTickCnt calls.rxBitCnt calls.rxBuffer
  · rw [calls.accepted,calls.received]
    exact inv.buffered.fewer
  · rw [calls.accepted,calls.received,calls.bufferOverflow]
    exact inv.buffered.overflow

variable [IsStrictOrderedRing K] {period : K} {pins : Nat → ι → Bool} {s next : Session ι}

theorem inv_tick (slow : 291 / 100 ≤ period) (fast : period ≤ 309 / 100)
    (apart : frames.Pairwise fun f g => f.start + 10 * period ≤ g.start) (inv : Inv self inverse frames s)
    (wired : pins s.ticks self = (line period (frames.map Frame.burst) s.ticks ^^ inverse)) (taken : step self pins s .tick = some next) :
    Inv self inverse frames next := by
  rw [step,if_pos inv.activeIn] at taken
  cases Option.some.inj taken
  obtain ⟨done,phase,heard⟩ := inv.phase
  have polarity : (pins s.ticks self ^^ (s.serial.port self).inverseLogic) = line period (frames.map Frame.burst) s.ticks := by
    rw [inv.inverseLogic,wired,Bool.xor_assoc,Bool.xor_self,Bool.xor_false]
  obtain ⟨more,onward,bytes⟩ := recv_phase slow fast apart (pins s.ticks self) phase polarity
  obtain ⟨listener,active⟩ := recv_keeps s.serial self (pins s.ticks self)
  obtain ⟨sameListener,sameActive,count,bits,buffer,level⟩ :=
    handleInterrupt_saves s.serial (pins s.ticks) inv.activeListener inv.activeIn
  obtain ⟨pin,port⟩ := level
  have stored := inv.buffered.heard (saved s.serial self (pins s.ticks self))
  rw [← recv_saves] at stored
  refine ⟨(sameListener.trans listener).trans inv.activeListener,(sameActive.trans active).trans inv.activeIn,?_,
    ⟨done ++ more,phase_same onward count bits buffer,?_⟩,stored.same ⟨pin,port⟩⟩
  · change ((handleInterrupt s.serial (pins s.ticks)).port self).inverseLogic = inverse
    rw [port,← inv.inverseLogic]
    change ((recv s.serial self (pins s.ticks self)).port self).inverseLogic = _
    rw [recv_saves,saves_inverse]
  · rw [received_heard,heard,bytes,List.map_append]

omit [IsStrictOrderedRing K] in
theorem inv_call {operation : Receive.Operation} (inv : Inv self inverse frames s)
    (taken : step self pins s (.call operation) = some next) : Inv self inverse frames next := by
  rw [step] at taken
  split_ifs at taken with busy
  cases Option.some.inj taken
  have entered : Receive.step rxSize (view self s) (.call operation) =
      some (view self {s with stage := some (Receive.enter operation)}) := if_neg busy
  have ring := Receive.inv_step (.call operation) _ inv.buffered.ring entered
  exact ⟨inv.activeListener,inv.activeIn,inv.inverseLogic,inv.phase,ring,inv.buffered.fewer,inv.buffered.overflow⟩

omit [IsStrictOrderedRing K] in
theorem inv_run (inv : Inv self inverse frames s) (taken : step self pins s .run = some next) : Inv self inverse frames next := by
  obtain ⟨stage,here,rfl⟩ := Option.map_eq_some_iff.mp taken
  exact inv_main inv here

/-- What a program gets that reads from a port, whenever the ticks come: the bytes of the frames on the line. -/
structure Gets (reader : ι) (bytes : List UInt8) (s : Session ι) : Prop where
  received : received s.log = bytes
  correct : Receive.Correct rxSize (view reader s)
  overflow : (s.serial.port reader).bufferOverflow = decide ((Receive.account rxSize s.log).accepted.length < bytes.length)

omit [DecidableEq ι] [IsStrictOrderedRing K] in
theorem inv_start (serial : State ι) (armed : Armed serial self) (empty : (serial.port self).tail = (serial.port self).head)
    (clear : (serial.port self).bufferOverflow = false) (future : ∀ frame ∈ frames, (serial.rxTickCnt : K) - 2 < frame.start) :
    Inv self (serial.port self).inverseLogic frames (start serial) := by
  have none_ : Ring.distance rxSize.slots (view self (start serial)).tail (view self (start serial)).head = 0 :=
    (Ring.distance_eq_zero _ _ _ armed.sound.head armed.sound.tail).mpr empty
  have ring : Receive.Inv rxSize (view self (start serial)) := by
    refine ⟨armed.sound.tail,armed.sound.head,?_,fun _ here => absurd here.symm (Option.some_ne_none _),?_⟩
    · rw [none_]
      rfl
    · intro before entry shorter
      exact absurd (List.prefix_nil.mp shorter) (List.append_ne_nil_of_right_ne_nil before (List.cons_ne_nil entry []))
  refine ⟨armed.activeListener,armed.activeIn,rfl,⟨[],?_,rfl⟩,ring,le_refl 0,clear⟩
  apply Phase.waiting [] frames armed.rxBitCnt armed.rxTickCnt
  · exact fun frame before => absurd before List.not_mem_nil
  · intro frame after
    have later := future frame after
    rw [start,Nat.cast_zero,zero_add]
    exact later

omit [DecidableEq ι] in
theorem accepted_heard (log : List Receive.Entry) : List.Sublist (Receive.account rxSize log).accepted (received log) := by
  induction log using List.reverseRecOn with
  | nil => exact List.Sublist.refl []
  | append_singleton log entry ih =>
    rw [received_append,Receive.account_append]
    cases entry with
    | received c =>
      rw [Receive.record]
      split_ifs
      · exact ih.append (List.Sublist.refl [c])
      · exact ih.trans (List.sublist_append_left _ _)
    | read result => cases result <;> exact ih.trans (List.sublist_append_left _ _)
    | peek result => exact ih.trans (List.sublist_append_left _ _)
    | available result => exact ih.trans (List.sublist_append_left _ _)

omit [DecidableEq ι] in
/-- As long as the flag is clear, all that came in was read or waits in the buffer. -/
theorem Gets.whole {bytes : List UInt8} (gets : Gets self bytes s) (clear : (s.serial.port self).bufferOverflow = false) :
    Receive.returned s.log ++ (s.serial.port self).stored = bytes := by
  have few : bytes.length ≤ (Receive.account rxSize s.log).accepted.length :=
    Nat.le_of_not_lt (of_decide_eq_false (gets.overflow.symm.trans clear))
  have all := (accepted_heard s.log).eq_of_length_le (by rw [gets.received]; exact few)
  have returned : Receive.returned s.log = (Receive.account rxSize s.log).delivered := gets.correct.returned
  have stored : (s.serial.port self).stored = (Receive.account rxSize s.log).pending := gets.correct.stored
  rw [returned,stored,Fifo.ledger,all,gets.received]

omit [DecidableEq ι] in
theorem gets_of_inv (slow : 291 / 100 ≤ period) (apart : frames.Pairwise fun f g => f.start + 10 * period ≤ g.start)
    (inv : Inv self inverse frames s) :
    Gets self ((frames.filter fun frame => decide (frame.start + 29 ≤ (s.ticks : K))).map Frame.byte) s ∧
      received s.log <+: frames.map Frame.byte := by
  obtain ⟨done,phase,heard⟩ := inv.phase
  have front : done <+: frames := by
    cases phase with
    | waiting => exact List.prefix_append _ _
    | reading => exact List.prefix_append _ _
  rw [phase.received slow apart,← heard]
  exact ⟨⟨rfl,Receive.correct_of_inv inv.buffered.ring,inv.buffered.overflow⟩,heard ▸ front.map Frame.byte⟩

end Run

end OpenPlc.Serial.SoftwareSerial.Reader
