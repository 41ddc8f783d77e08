import OpenPlc.Serial.Waveform

/-! The speed of the shared timer under the calls of a program to any number of full-duplex objects. -/
namespace OpenPlc.Serial.SoftwareSerial

section Program
variable {ι : Type}

inductive Call (ι : Type) where
  | begin (self : ι) (speed : UInt32)
  | listen (self : ι)
  | stopListening (self : ι)
  | «end» (self : ι)
  | write (self : ι) (b : UInt8)

/-- `inside` is the call that the program has not returned from. -/
structure Program (ι : Type) where
  serial : State ι
  inside : Option (Call ι)

inductive Step (ι : Type) where
  | call (call : Call ι)
  | leave
  | tick (pins : ι → Bool)

variable [DecidableEq ι]

/-- What a call does before the place where it may wait. -/
def Call.enter (s : State ι) : Call ι → State ι
  | .begin self speed => setTX (modify s self fun port => {port with speed := speed}) self
  | .write self _ => request s self
  | _ => s

/-- What it does from there, or `none` while it waits. -/
def Call.leave (s : State ι) : Call ι → Option (State ι)
  | .begin self _ => if !(s.port self).halfDuplex then SoftwareSerial.listen s self else some s
  | .listen self => SoftwareSerial.listen s self
  | .stopListening self => SoftwareSerial.stopListening s self
  | .end self => SoftwareSerial.end s self
  | .write self b => if s.activeOut.isSome then none else some ((load self b).foldl (fun s assign => assign s) s)

def Program.step (s : Program ι) : Step ι → Option (Program ι)
  | .call call =>
    match s.inside with
    | none => some ⟨call.enter s.serial,some call⟩
    | some _ => none
  | .leave => s.inside.bind fun call => (call.leave s.serial).map fun serial => ⟨serial,none⟩
  | .tick pins => some ⟨handleInterrupt s.serial pins,s.inside⟩

theorem begin_leaves (s : State ι) (self : ι) (speed : UInt32) :
    Call.leave (Call.enter s (.begin self speed)) (.begin self speed) = begin s self speed := by
  have duplex : ((Call.enter s (.begin self speed)).port self).halfDuplex = (s.port self).halfDuplex := by
    simp [Call.enter,setTX,modify]
  have before : ((modify s self fun port => {port with speed := speed}).port self).halfDuplex = (s.port self).halfDuplex := by
    simp [modify]
  unfold Call.leave begin
  simp only [duplex,before]
  rfl

theorem write_leaves (s : State ι) (self : ι) (b : UInt8) :
    Call.leave (Call.enter s (.write self b)) (.write self b) = write s self b := rfl

end Program

section Tune
variable {ι : Type}

/-- A timer with the interrupt and the period of a speed. -/
def Timer.Tuned (timer : Timer) (speed : UInt32) : Prop :=
  speed ≠ 0 → timer.running = true ∧ timer.attached = true ∧
    (timer.prescaleFactor,timer.overflow) = prescale timer.clkFreq (speed * UInt32.ofNat oversample) 1

/-- The timer runs at the speed of the listener. -/
def InTune (s : State ι) : Prop :=
  ∀ self, s.activeListener = some self → s.curSpeed = (s.port self).speed ∧ s.timer.Tuned (s.port self).speed

/-- Full-duplex objects and a timer that agrees with `cur_speed`. -/
structure Duplex (s : State ι) : Prop where
  full : ∀ self, (s.port self).halfDuplex = false
  timer : s.timer.Tuned s.curSpeed

/-- What a step leaves alone for the speed of the timer. -/
structure Apace (s next : State ι) : Prop where
  activeListener : next.activeListener = s.activeListener
  curSpeed : next.curSpeed = s.curSpeed
  timer : next.timer = s.timer
  speed : ∀ self, (next.port self).speed = (s.port self).speed
  halfDuplex : ∀ self, (next.port self).halfDuplex = (s.port self).halfDuplex

theorem Apace.refl (s : State ι) : Apace s s := ⟨rfl,rfl,rfl,fun _ => rfl,fun _ => rfl⟩

theorem Apace.trans {s t next : State ι} (first : Apace s t) (second : Apace t next) : Apace s next :=
  ⟨second.activeListener.trans first.activeListener,second.curSpeed.trans first.curSpeed,second.timer.trans first.timer,
    fun self => (second.speed self).trans (first.speed self),
    fun self => (second.halfDuplex self).trans (first.halfDuplex self)⟩

theorem Apace.inTune {s next : State ι} (same : Apace s next) : InTune next ↔ InTune s := by
  simp only [InTune,same.activeListener,same.curSpeed,same.timer,same.speed]

theorem Apace.duplex {s next : State ι} (same : Apace s next) (duplex : Duplex s) : Duplex next := by
  refine ⟨fun self => (same.halfDuplex self).trans (duplex.full self),?_⟩
  rw [same.timer,same.curSpeed]
  exact duplex.timer

theorem Duplex.inTune {s : State ι} (duplex : Duplex s) :
    InTune s ↔ ∀ self, s.activeListener = some self → s.curSpeed = (s.port self).speed := by
  constructor
  · exact fun tune self listener => (tune self listener).1
  · intro speed self listener
    refine ⟨speed self listener,?_⟩
    rw [← speed self listener]
    exact duplex.timer

theorem setSpeed_speed (s : State ι) (speed : UInt32) : (setSpeed s speed).curSpeed = speed := by
  unfold setSpeed
  split
  · split <;> rfl
  · rename_i same
    exact (not_not.mp same).symm

theorem setSpeed_tuned (s : State ι) (speed : UInt32) (tuned : s.timer.Tuned s.curSpeed) :
    (setSpeed s speed).timer.Tuned speed := by
  unfold setSpeed
  split
  · split
    · exact fun _ => ⟨rfl,rfl,rfl⟩
    · rename_i zero
      exact fun set => absurd set zero
  · rename_i same
    rw [not_not.mp same]
    exact tuned

theorem setSpeed_apace (s : State ι) (speed : UInt32) : ∃ timer,
    setSpeed s speed = {s with timer, curSpeed := speed} ∧ (s.timer.Tuned s.curSpeed → timer.Tuned speed) := by
  refine ⟨(setSpeed s speed).timer,?_,setSpeed_tuned s speed⟩
  conv_lhs => rw [setSpeed_frame,setSpeed_speed]

theorem foldl_apace (self : ι) (assigns : List (State ι → State ι))
    (each : ∀ assign ∈ assigns, ∀ s, (s.port self).halfDuplex = false → Apace s (assign s)) (s : State ι)
    (full : (s.port self).halfDuplex = false) : Apace s (assigns.foldl (fun s assign => assign s) s) := by
  induction assigns generalizing s with
  | nil => exact .refl s
  | cons assign rest ih =>
    have first := each assign List.mem_cons_self s full
    exact first.trans (ih (fun later among => each later (List.mem_cons_of_mem assign among)) (assign s)
      ((first.halfDuplex self).trans full))

theorem modify_apace [DecidableEq ι] (s : State ι) (self : ι) (change : Port → Port)
    (speed : (change (s.port self)).speed = (s.port self).speed)
    (half : (change (s.port self)).halfDuplex = (s.port self).halfDuplex) : Apace s (modify s self change) := by
  have both (other : ι) : ((modify s self change).port other).speed = (s.port other).speed ∧
      ((modify s self change).port other).halfDuplex = (s.port other).halfDuplex := by
    by_cases own : other = self
    · subst own
      have changed : (modify s other change).port other = change (s.port other) := Function.update_self ..
      rw [changed]
      exact ⟨speed,half⟩
    · have kept : (modify s self change).port other = s.port other := Function.update_of_ne own ..
      rw [kept]
      exact ⟨rfl,rfl⟩
  exact ⟨rfl,rfl,rfl,fun other => (both other).1,fun other => (both other).2⟩

variable [DecidableEq ι]

theorem recv_apace (s : State ι) (reader : ι) (pin : Bool) : Apace s (recv s reader pin) := by
  have saved := modify_apace s reader (fun port => port.save s.rxBuffer.toUInt8)
    (by simp only [Port.save]; split <;> rfl) (by simp only [Port.save]; split <;> rfl)
  unfold recv
  simp only
  split
  · split
    · split <;> exact ⟨rfl,rfl,rfl,fun _ => rfl,fun _ => rfl⟩
    · split
      · split
        · exact ⟨rfl,rfl,rfl,saved.speed,saved.halfDuplex⟩
        · exact ⟨rfl,rfl,rfl,fun _ => rfl,fun _ => rfl⟩
      · split <;> exact ⟨rfl,rfl,rfl,fun _ => rfl,fun _ => rfl⟩
  · exact ⟨rfl,rfl,rfl,fun _ => rfl,fun _ => rfl⟩

theorem send_apace (s : State ι) (self : ι) (full : (s.port self).halfDuplex = false) : Apace s (send s self) := by
  have levels (pin : Bool) := modify_apace s self (fun port => {port with transmitPin := pin}) rfl rfl
  unfold send
  simp only
  split
  · split
    · exact ⟨rfl,rfl,rfl,(levels _).speed,(levels _).halfDuplex⟩
    · split
      · exact ⟨rfl,rfl,rfl,fun _ => rfl,fun _ => rfl⟩
      · split
        · simp only [full,Bool.false_eq_true,false_and,if_false]
          exact ⟨rfl,rfl,rfl,fun _ => rfl,fun _ => rfl⟩
        · exact ⟨rfl,rfl,rfl,fun _ => rfl,fun _ => rfl⟩
  · exact ⟨rfl,rfl,rfl,fun _ => rfl,fun _ => rfl⟩

theorem handleInterrupt_apace (s : State ι) (pins : ι → Bool) (full : ∀ self, (s.port self).halfDuplex = false) :
    Apace s (handleInterrupt s pins) := by
  obtain ⟨t,source,step⟩ := handleInterrupt_order s pins
  have same : Apace s t := by
    rcases source with rfl | ⟨reader,pin,rfl⟩
    · exact .refl t
    · exact recv_apace s reader pin
  rw [step]
  cases t.activeOut with
  | none => exact same
  | some sender => exact same.trans (send_apace t sender ((same.halfDuplex sender).trans (full sender)))

/-- A frame is loaded at the speed of its object, whoever listens. -/
theorem load_speed (s : State ι) (self : ι) (b : UInt8) (duplex : Duplex s) :
    let next := (load self b).foldl (fun s assign => assign s) s
    next.activeListener = s.activeListener ∧ next.curSpeed = (s.port self).speed ∧
      (∀ other, (next.port other).speed = (s.port other).speed) ∧ Duplex next := by
  have split : load self b = (load self b).take 4 ++ (fun s => setSpeed s (s.port self).speed) :: (load self b).drop 5 := rfl
  have before : ∀ assign ∈ (load self b).take 4, ∀ s, (s.port self).halfDuplex = false → Apace s (assign s) := by
    intro assign among s _
    simp only [load,List.take,List.mem_cons,List.not_mem_nil,or_false] at among
    rcases among with rfl | rfl | rfl | rfl
    · exact ⟨rfl,rfl,rfl,fun _ => rfl,fun _ => rfl⟩
    · beta_reduce
      split <;> exact ⟨rfl,rfl,rfl,fun _ => rfl,fun _ => rfl⟩
    · exact ⟨rfl,rfl,rfl,fun _ => rfl,fun _ => rfl⟩
    · exact ⟨rfl,rfl,rfl,fun _ => rfl,fun _ => rfl⟩
  have behind : ∀ assign ∈ (load self b).drop 5, ∀ s, (s.port self).halfDuplex = false → Apace s (assign s) := by
    intro assign among s full
    simp only [load,List.drop,List.mem_cons,List.not_mem_nil,or_false] at among
    rcases among with rfl | rfl | rfl
    · beta_reduce
      rw [full,if_neg Bool.false_ne_true]
      exact .refl s
    · exact modify_apace s self _ rfl rfl
    · exact ⟨rfl,rfl,rfl,fun _ => rfl,fun _ => rfl⟩
  rw [split,List.foldl_append,List.foldl_cons]
  have first := foldl_apace self _ before s (duplex.full self)
  generalize ((load self b).take 4).foldl (fun s assign => assign s) s = t at first
  obtain ⟨timer,set,tuned⟩ := setSpeed_apace t (t.port self).speed
  have last := foldl_apace self _ behind (setSpeed t (t.port self).speed) (by rw [set]; exact (first.duplex duplex).full self)
  beta_reduce
  rw [set] at last ⊢
  have kept : Duplex {t with timer, curSpeed := (t.port self).speed} :=
    ⟨(first.duplex duplex).full,tuned (first.duplex duplex).timer⟩
  exact ⟨last.activeListener.trans first.activeListener,last.curSpeed.trans (first.speed self),
    fun other => (last.speed other).trans (first.speed other),last.duplex kept⟩

theorem takeOver_speed (s : State ι) (self : ι) (duplex : Duplex s) :
    InTune (takeOver s self) ∧ Duplex (takeOver s self) := by
  obtain ⟨timer,set,tuned⟩ := setSpeed_apace {s with rxTickCnt := 1, rxBitCnt := -1} (s.port self).speed
  unfold takeOver
  rw [set]
  simp only [duplex.full self,Bool.not_false,if_true]
  refine ⟨?_,duplex.full,tuned duplex.timer⟩
  intro other listener
  cases Option.some.inj listener
  exact ⟨rfl,tuned duplex.timer⟩

theorem stopListening_speed (s next : State ι) (self : ι) (duplex : Duplex s) (stops : stopListening s self = some next) :
    (next = s ∨ next.activeListener = none) ∧ Duplex next := by
  unfold stopListening at stops
  split at stops
  · split at stops
    · contradiction
    · cases Option.some.inj stops
      simp only [duplex.full self,Bool.false_eq_true,if_false]
      obtain ⟨timer,set,tuned⟩ := setSpeed_apace {s with activeListener := none, activeIn := none} 0
      rw [set]
      exact ⟨Or.inr rfl,duplex.full,tuned duplex.timer⟩
  · cases Option.some.inj stops
    exact ⟨Or.inl rfl,duplex⟩

theorem listen_speed (s next : State ι) (self : ι) (duplex : Duplex s) (listens : listen s self = some next) :
    (next = s ∧ s.activeListener = some self ∨ InTune next) ∧ Duplex next := by
  unfold listen at listens
  split at listens
  · rename_i already
    cases Option.some.inj listens
    exact ⟨Or.inl ⟨rfl,already⟩,duplex⟩
  · split at listens
    · contradiction
    · split at listens
      · rename_i other listener
        obtain ⟨t,stops,rfl⟩ := Option.map_eq_some_iff.mp listens
        obtain ⟨tune,kept⟩ := takeOver_speed t self (stopListening_speed s t other duplex stops).2
        exact ⟨Or.inr tune,kept⟩
      · cases Option.some.inj listens
        obtain ⟨tune,kept⟩ := takeOver_speed s self duplex
        exact ⟨Or.inr tune,kept⟩

/-- A call that leaves the timer with the listener: a listener is not given another speed, and whoever writes has the
speed of the listener. -/
def Attuned (s : Program ι) : Step ι → Prop
  | .call (.begin self speed) => s.serial.activeListener = some self → speed = (s.serial.port self).speed
  | .leave => ∀ self b, s.inside = some (.write self b) → ∀ other, s.serial.activeListener = some other →
      (s.serial.port self).speed = (s.serial.port other).speed
  | _ => True

theorem begin_enters (s : State ι) (self : ι) (speed : UInt32) :
    Apace {s with port := Function.update s.port self {s.port self with speed := speed}} (Call.enter s (.begin self speed)) :=
  modify_apace (modify s self fun port => {port with speed := speed}) self
    (fun port => {port with transmitPin := !port.inverseLogic}) rfl rfl

theorem begin_inTune (s : State ι) (self : ι) (speed : UInt32) (duplex : Duplex s) (tune : InTune s) :
    (InTune (Call.enter s (.begin self speed)) ↔ (s.activeListener = some self → speed = (s.port self).speed)) ∧
      Duplex (Call.enter s (.begin self speed)) := by
  have same := begin_enters s self speed
  have kept : Duplex {s with port := Function.update s.port self {s.port self with speed := speed}} := by
    refine ⟨?_,duplex.timer⟩
    intro other
    by_cases own : other = self
    · subst own
      simp [duplex.full other]
    · simp [Function.update_of_ne own,duplex.full other]
  refine ⟨?_,same.duplex kept⟩
  rw [same.inTune,kept.inTune]
  constructor
  · intro holds listener
    have now := holds self listener
    simp only [Function.update_self] at now
    exact now.symm.trans (tune self listener).1
  · intro agrees other listener
    by_cases own : other = self
    · subst own
      simp only [Function.update_self,agrees listener]
      exact (tune other listener).1
    · simp only [Function.update_of_ne own]
      exact (tune other listener).1

theorem leave_inTune (s next : State ι) (call : Call ι) (duplex : Duplex s) (tune : InTune s)
    (leaves : call.leave s = some next) :
    (InTune next ↔ ∀ self b, call = .write self b → ∀ other, s.activeListener = some other →
      (s.port self).speed = (s.port other).speed) ∧ Duplex next := by
  have listens (self : ι) (listens : listen s self = some next) : InTune next ∧ Duplex next := by
    obtain ⟨⟨rfl,_⟩ | tuned,kept⟩ := listen_speed s next self duplex listens
    · exact ⟨tune,kept⟩
    · exact ⟨tuned,kept⟩
  have stops (self : ι) (stops : stopListening s self = some next) : InTune next ∧ Duplex next := by
    obtain ⟨rfl | nobody,kept⟩ := stopListening_speed s next self duplex stops
    · exact ⟨tune,kept⟩
    · exact ⟨fun other listener => absurd (nobody.symm.trans listener) nofun,kept⟩
  cases call with
  | begin self speed =>
    simp only [Call.leave,duplex.full self,Bool.not_false,if_true] at leaves
    exact ⟨iff_of_true (listens self leaves).1 nofun,(listens self leaves).2⟩
  | listen self => exact ⟨iff_of_true (listens self leaves).1 nofun,(listens self leaves).2⟩
  | stopListening self => exact ⟨iff_of_true (stops self leaves).1 nofun,(stops self leaves).2⟩
  | «end» self => exact ⟨iff_of_true (stops self leaves).1 nofun,(stops self leaves).2⟩
  | write self b =>
    simp only [Call.leave] at leaves
    split at leaves
    · contradiction
    · cases Option.some.inj leaves
      obtain ⟨listener,now,speed,kept⟩ := load_speed s self b duplex
      refine ⟨?_,kept⟩
      rw [kept.inTune,listener,now]
      simp only [speed]
      constructor
      · rintro holds _ _ ⟨⟩
        exact holds
      · exact fun holds => holds self b rfl

/-- One step keeps the timer with the listener exactly when the step is attuned. -/
theorem step_inTune (s next : Program ι) (step : Step ι) (duplex : Duplex s.serial) (tune : InTune s.serial)
    (taken : s.step step = some next) : (InTune next.serial ↔ Attuned s step) ∧ Duplex next.serial := by
  cases step with
  | call call =>
    simp only [Program.step] at taken
    split at taken
    · cases Option.some.inj taken
      cases call with
      | begin self speed => exact begin_inTune s.serial self speed duplex tune
      | write self b =>
        have same : Apace s.serial (request s.serial self) := modify_apace s.serial self _ rfl rfl
        exact ⟨iff_of_true (same.inTune.mpr tune) trivial,same.duplex duplex⟩
      | listen self => exact ⟨iff_of_true tune trivial,duplex⟩
      | stopListening self => exact ⟨iff_of_true tune trivial,duplex⟩
      | «end» self => exact ⟨iff_of_true tune trivial,duplex⟩
    · contradiction
  | leave =>
    obtain ⟨call,inside,taken⟩ := Option.bind_eq_some_iff.mp taken
    obtain ⟨serial,leaves,rfl⟩ := Option.map_eq_some_iff.mp taken
    obtain ⟨tuned,kept⟩ := leave_inTune s.serial serial call duplex tune leaves
    refine ⟨tuned.trans ?_,kept⟩
    simp only [Attuned,inside,Option.some.injEq]
  | tick pins =>
    cases Option.some.inj taken
    have same := handleInterrupt_apace s.serial pins duplex.full
    exact ⟨iff_of_true (same.inTune.mpr tune) trivial,same.duplex duplex⟩

def Program.start (clkFreq : UInt32) (port : ι → Port) : Program ι := ⟨boot clkFreq port,none⟩

/-- Runs of attuned steps leave the timer at the speed of the listener whenever nothing is sent; they are the runs that
leave it there all the time. -/
theorem listener_speed (clkFreq : UInt32) (port : ι → Port) (full : ∀ self, (port self).halfDuplex = false)
    (steps : List (Step ι)) :
    (Run.Meets Attuned Program.step (Program.start clkFreq port) steps →
      Run.Throughout (fun s : Program ι => s.serial.activeOut = none → InTune s.serial) Program.step
        (Program.start clkFreq port) steps) ∧
    (Run.Throughout (fun s : Program ι => InTune s.serial) Program.step (Program.start clkFreq port) steps ↔
      Run.Meets Attuned Program.step (Program.start clkFreq port) steps) := by
  have initial : InTune (Program.start clkFreq port).serial ∧ Duplex (Program.start clkFreq port).serial :=
    ⟨nofun,full,fun set => absurd rfl set⟩
  have keeps : ∀ (s : Program ι) step next, InTune s.serial ∧ Duplex s.serial → Attuned s step → s.step step = some next →
      InTune next.serial ∧ Duplex next.serial := by
    rintro s step next ⟨tune,duplex⟩ attuned taken
    obtain ⟨holds,kept⟩ := step_inTune s next step duplex tune taken
    exact ⟨holds.mpr attuned,kept⟩
  constructor
  · exact Run.throughout_of_meets _ _ Attuned (fun s inv _ => inv.1) keeps _ steps initial
  · apply Run.throughout_iff_meets _ _ Attuned (fun s inv => inv.1) keeps _ _ steps initial
    rintro s step next ⟨tune,duplex⟩ disturbs taken holds
    exact disturbs ((step_inTune s next step duplex tune taken).1.mp holds)

theorem listener_speed_alone :
    Run.Throughout (fun s : Program Bool => s.serial.activeOut = none → InTune s.serial) Program.step
      (.start 84000000 fun _ : Bool => .construct false false)
      [.call (.begin true 9600),.leave,.call (.write true 65),.leave,.tick fun _ => true] := by
  apply (listener_speed 84000000 (fun _ : Bool => .construct false false) (fun _ => rfl) _).1
  rintro t ⟨⟩
  refine ⟨nofun,?_⟩
  rintro t ⟨⟩
  refine ⟨nofun,?_⟩
  rintro t ⟨⟩
  refine ⟨trivial,?_⟩
  rintro t ⟨⟩
  refine ⟨?_,?_⟩
  · rintro self b ⟨⟩ other listener
    cases Option.some.inj listener
    rfl
  · rintro t ⟨⟩
    exact ⟨trivial,trivial⟩

/-- A second object that writes at its own speed leaves the timer there when it is done. -/
theorem listener_detuned :
    ∃ s, Run.after Program.step (.start 84000000 fun _ : Bool => .construct false false)
        ([.call (.begin false 9600),.leave,.call (.begin true 4800),.leave,.call (.write false 65),.leave] ++
          List.replicate 48 (.tick fun _ => true)) = some s ∧ s.serial.activeOut = none ∧
      s.serial.activeListener = some true ∧ (s.serial.port true).speed = 4800 ∧ s.serial.curSpeed = 9600 := by
  refine ⟨_,rfl,?_,?_,?_,?_⟩
  · decide +kernel
  · decide +kernel
  · decide +kernel
  · decide +kernel

end Tune

end OpenPlc.Serial.SoftwareSerial
