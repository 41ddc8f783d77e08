import OpenPlc.Servos.Servo

/-! One pulse at a time: which pin is high under the calls of a program and the callback of the timer. -/
namespace OpenPlc.Servos

section Pulses
variable {ι : Type}

/-- At most one pin is high, that of an active servo whose turn it is, and none while the timer is paused. -/
structure Exclusive (s : State ι) : Prop where
  one : ∀ p q, s.high p = true → s.high q = true → p = q
  own : ∀ p, s.high p = true → ∃ k : Nat, s.timerChannel = k ∧ (s.servos k).isActive = true ∧ (s.servos k).nbr = p
  paused : s.running = false → ∀ p, s.high p = false

/-- The pulse of the object is on. -/
def Pulsing (s : State ι) (self : ι) : Prop :=
  ∃ servo, s.object self = some servo ∧ s.timerChannel = servo.servoIndex.toNat ∧
    s.high (s.servos servo.servoIndex.toNat).nbr = true

/-- No servo is detached, or attached to another pin, while its pulse is on. -/
def Statement.Calm (s : State ι) : Statement ι → Prop
  | .deactivate self => ¬ Pulsing s self
  | .nbr self pin => Pulsing s self → ∀ servo, s.object self = some servo →
      UInt8.ofInt pin = (s.servos servo.servoIndex.toNat).nbr
  | _ => True

def Calm (s : Program ι) : Event ι → Prop
  | .run => ∀ statement rest, s.rest = statement :: rest → statement.Calm s.state
  | _ => True

/-- Whether the timer runs by the time a servo becomes active. -/
def Ready (running : Bool) : List (Statement ι) → Prop
  | [] => True
  | .init :: rest => Ready true rest
  | .activate _ :: rest => running = true ∧ Ready running rest
  | .pause :: rest => Ready false rest
  | _ :: rest => Ready running rest

/-- The channels that the callback visits are taken, and the timer runs while a servo is active. -/
structure Kept (s : State ι) : Prop where
  own : ∀ p, s.high p = true → ∃ k : Nat, s.timerChannel = k ∧ (s.servos k).isActive = true ∧ (s.servos k).nbr = p
  least : -1 ≤ s.timerChannel
  taken : s.timerChannel < s.servoCount
  within : ∀ k, (s.servos k).isActive = true → k < servosPerTimer
  runs : ∀ k, (s.servos k).isActive = true → s.running = true

theorem Kept.exclusive {s : State ι} (kept : Kept s) : Exclusive s := by
  constructor
  · intro p q first second
    obtain ⟨j,turn,_,pin⟩ := kept.own p first
    obtain ⟨k,same,_,other⟩ := kept.own q second
    have equal : j = k := Int.ofNat_inj.mp (turn.symm.trans same)
    subst equal
    exact pin.symm.trans other
  · exact kept.own
  · intro paused p
    by_contra on
    obtain ⟨k,_,active,_⟩ := kept.own p (eq_true_of_ne_false on)
    exact absurd (paused.symm.trans (kept.runs k active)) Bool.false_ne_true

theorem isTimerActive_iff (s : State ι) : isTimerActive s = true ↔ ∃ k < servosPerTimer, (s.servos k).isActive = true := by
  simp [isTimerActive]

theorem lowerChannel_low (s : State ι) (kept : Kept s) :
    (∀ p, (lowerChannel s).high p = false) ∧ (lowerChannel s).servos = s.servos ∧
      (lowerChannel s).timerChannel = s.timerChannel ∧ (lowerChannel s).servoCount = s.servoCount ∧
      (lowerChannel s).running = s.running := by
  have off (p : UInt8) (other : ∀ k : Nat, s.timerChannel = k → (s.servos k).isActive = true → (s.servos k).nbr ≠ p) :
      s.high p = false := by
    by_contra on
    obtain ⟨k,turn,active,pin⟩ := kept.own p (eq_true_of_ne_false on)
    exact other k turn active pin
  unfold lowerChannel
  split
  · rename_i before
    exact ⟨fun p => off p fun k turn => by omega,rfl,rfl,rfl,rfl⟩
  · rename_i now
    obtain ⟨k,turn⟩ := Int.eq_ofNat_of_zero_le (Int.not_lt.mp now)
    have place : s.timerChannel.toNat = k := by omega
    simp only [place]
    split
    · refine ⟨fun p => ?_,rfl,rfl,rfl,rfl⟩
      by_cases own : p = (s.servos k).nbr
      · subst own
        exact Function.update_self ..
      · refine (Function.update_of_ne own ..).trans (off p fun j same _ => ?_)
        cases Int.ofNat_inj.mp (turn.symm.trans same)
        exact Ne.symm own
    · rename_i passive
      refine ⟨fun p => off p fun j same active => ?_,rfl,rfl,rfl,rfl⟩
      cases Int.ofNat_inj.mp (turn.symm.trans same)
      exact absurd ⟨kept.taken,active⟩ passive

theorem callback_kept (s : State ι) (kept : Kept s) :
    Kept (periodElapsedCallback s) ∧ (periodElapsedCallback s).running = s.running := by
  obtain ⟨low,servos,turn,count,running⟩ := lowerChannel_low s kept
  unfold periodElapsedCallback
  generalize lowerChannel s = t at low servos turn count running
  have within : ∀ k, (t.servos k).isActive = true → k < servosPerTimer := by
    rw [servos]
    exact kept.within
  have runs : ∀ k, (t.servos k).isActive = true → t.running = true := by
    rw [servos,running]
    exact kept.runs
  have least := kept.least
  unfold raiseChannel
  simp only
  split
  · rename_i next
    obtain ⟨k,place⟩ := Int.eq_ofNat_of_zero_le (show 0 ≤ t.timerChannel + 1 by omega)
    simp only [place,Int.toNat_natCast] at next ⊢
    split
    · rename_i active
      refine ⟨⟨?_,by change (-1 : Int) ≤ k; omega,next.1,within,runs⟩,running⟩
      intro p on
      by_cases own : p = (t.servos k).nbr
      · exact ⟨k,rfl,active,own.symm⟩
      · have off : Function.update t.high (t.servos k).nbr true p = false := (Function.update_of_ne own ..).trans (low p)
        exact absurd (off.symm.trans on) Bool.false_ne_true
    · exact ⟨⟨fun p on => absurd ((low p).symm.trans on) Bool.false_ne_true,by change (-1 : Int) ≤ k; omega,next.1,within,runs⟩,
        running⟩
  · have some : (-1 : Int) < t.servoCount := by omega
    split
    · exact ⟨⟨fun p on => absurd ((low p).symm.trans on) Bool.false_ne_true,Int.le_refl (-1),some,within,runs⟩,running⟩
    · exact ⟨⟨fun p on => absurd ((low p).symm.trans on) Bool.false_ne_true,Int.le_refl (-1),some,within,runs⟩,running⟩

/-- A pin that is high is that of the channel whose turn it is. -/
theorem Kept.turn {s : State ι} (kept : Kept s) (k : Nat) (p : UInt8) (on : s.high p = true) (turn : s.timerChannel = k) :
    (s.servos k).isActive = true ∧ (s.servos k).nbr = p := by
  obtain ⟨j,same,active,pin⟩ := kept.own p on
  cases Int.ofNat_inj.mp (same.symm.trans turn)
  exact ⟨active,pin⟩

def place (s : State ι) (j : Nat) (channel : Channel) : State ι := {s with servos := Function.update s.servos j channel}

/-- A new entry for a channel leaves a single pulse when it leaves that of the channel alone. -/
theorem place_kept {s : State ι} (kept : Kept s) (j : Nat) (channel : Channel)
    (runs : channel.isActive = true → j < servosPerTimer ∧ s.running = true)
    (turn : ∀ p, s.high p = true → s.timerChannel = j → channel.isActive = true ∧ channel.nbr = p) :
    Kept (place s j channel) := by
  refine ⟨?_,kept.least,kept.taken,?_,?_⟩
  · intro p on
    obtain ⟨k,now,active,pin⟩ := kept.own p on
    refine ⟨k,now,?_⟩
    by_cases own : k = j
    · subst own
      simp only [place,Function.update_self]
      exact turn p on now
    · simp only [place,Function.update_of_ne own]
      exact ⟨active,pin⟩
  · intro k active
    by_cases own : k = j
    · subst own
      simp only [place,Function.update_self] at active
      exact (runs active).1
    · simp only [place,Function.update_of_ne own] at active
      exact kept.within k active
  · intro k active
    by_cases own : k = j
    · subst own
      simp only [place,Function.update_self] at active
      exact (runs active).2
    · simp only [place,Function.update_of_ne own] at active
      exact kept.runs k active

theorem place_exclusive {s : State ι} (j : Nat) (channel : Channel) (exclusive : Exclusive (place s j channel)) (p : UInt8)
    (on : s.high p = true) (turn : s.timerChannel = j) : channel.isActive = true ∧ channel.nbr = p := by
  obtain ⟨k,now,held⟩ := exclusive.own p on
  cases Int.ofNat_inj.mp (now.symm.trans turn)
  simp only [place,Function.update_self] at held
  exact held

theorem set_eq (s next : State ι) (servo : Servo) (change : Channel → Channel) (sets : s.set servo change = some next) :
    servo.servoIndex.toNat < maxServos ∧
      next = place s servo.servoIndex.toNat (change (s.servos servo.servoIndex.toNat)) := by
  unfold State.set at sets
  split at sets
  · rename_i inside
    exact ⟨inside,(Option.some.inj sets).symm⟩
  · contradiction

theorem set_ticks (s next : State ι) (servo : Servo) (ticks : UInt32) (kept : Kept s)
    (sets : s.set servo (fun channel => {channel with ticks}) = some next) : Kept next := by
  obtain ⟨inside,rfl⟩ := set_eq s next servo _ sets
  apply place_kept kept
  · exact fun active => ⟨kept.within _ active,kept.runs _ active⟩
  · exact fun p on turn => kept.turn _ p on turn

theorem writeMicroseconds_kept (s next : State ι) (servo : Servo) (value : Int) (kept : Kept s)
    (writes : writeMicroseconds s servo value = some next) : Kept next := by
  unfold writeMicroseconds at writes
  split at writes
  · exact set_ticks s next servo _ kept writes
  · cases Option.some.inj writes
    exact kept

/-- The statement can come next as far as the timer is concerned. -/
def Statement.Started (running : Bool) : Statement ι → Prop
  | .activate _ => running = true
  | _ => True

theorem Ready.later {rest : List (Statement ι)} (ready : Ready false rest) (running : Bool) : Ready running rest := by
  induction rest with
  | nil => trivial
  | cons statement rest ih =>
    cases statement with
    | init => exact ready
    | activate self => exact absurd ready.1 Bool.false_ne_true
    | pause => exact ready
    | index | ticks | nbr | write | writeMicroseconds | limits | deactivate => exact ih ready

theorem set_running (s next : State ι) (servo : Servo) (change : Channel → Channel) (sets : s.set servo change = some next) :
    next.running = s.running := by
  obtain ⟨_,rfl⟩ := set_eq s next servo change sets
  rfl

theorem writeMicroseconds_running (s next : State ι) (servo : Servo) (value : Int)
    (writes : writeMicroseconds s servo value = some next) : next.running = s.running := by
  unfold writeMicroseconds at writes
  split at writes
  · exact set_running s next servo _ writes
  · cases Option.some.inj writes
    rfl

theorem body_ready (s : State ι) (call : Call ι) (body : List (Statement ι)) (calls : call.body s = some body) :
    Ready s.running body := by
  cases call with
  | construct self min max =>
    cases Option.some.inj calls
    split <;> trivial
  | attach self pin min max value =>
    obtain ⟨servo,_,rfl⟩ := Option.map_eq_some_iff.mp calls
    split
    · exact ⟨rfl,trivial⟩
    · trivial
  | write self value | writeMicroseconds self value | detach self =>
    cases Option.some.inj calls
    trivial

/-- Between two statements of a program. -/
structure Sound (s : Program ι) : Prop where
  kept : Kept s.state
  ready : Ready s.state.running s.rest

theorem boot_sound : Sound (⟨boot,[]⟩ : Program ι) :=
  ⟨⟨nofun,Int.le_refl (-1),show (-1 : Int) < (0 : Nat) by decide,nofun,nofun⟩,trivial⟩

variable [DecidableEq ι]

theorem exec_exclusive (s next : State ι) (statement : Statement ι) (kept : Kept s) (started : statement.Started s.running)
    (taken : exec s statement = some next) :
    (Exclusive next ↔ statement.Calm s) ∧ (statement.Calm s → Kept next) := by
  have always (after : Kept next) (calm : statement.Calm s) :
      (Exclusive next ↔ statement.Calm s) ∧ (statement.Calm s → Kept next) :=
    ⟨iff_of_true after.exclusive calm,fun _ => after⟩
  cases statement with
  | index self min max =>
    cases Option.some.inj taken
    apply always _ trivial
    split
    · exact ⟨kept.own,kept.least,by have room := kept.taken; change s.timerChannel < (s.servoCount + 1 : Nat); omega,kept.within,
        kept.runs⟩
    · exact ⟨kept.own,kept.least,kept.taken,kept.within,kept.runs⟩
  | ticks self =>
    obtain ⟨servo,_,sets⟩ := Option.bind_eq_some_iff.mp taken
    exact always (set_ticks s next servo _ kept sets) trivial
  | nbr self pin =>
    obtain ⟨servo,object,sets⟩ := Option.bind_eq_some_iff.mp taken
    obtain ⟨_,rfl⟩ := set_eq s next servo _ sets
    have holds : Statement.Calm s (.nbr self pin) → Kept (place s servo.servoIndex.toNat
        {s.servos servo.servoIndex.toNat with nbr := UInt8.ofInt pin}) := by
      intro calm
      refine place_kept kept _ _ (fun active => ⟨kept.within _ active,kept.runs _ active⟩) ?_
      intro p on turn
      obtain ⟨active,own⟩ := kept.turn _ p on turn
      refine ⟨active,(calm ⟨servo,object,turn,?_⟩ servo object).trans own⟩
      rw [own]
      exact on
    refine ⟨⟨?_,fun calm => (holds calm).exclusive⟩,holds⟩
    rintro exclusive ⟨_,found,turn,on⟩ _ same
    cases Option.some.inj (object.symm.trans found)
    cases Option.some.inj (object.symm.trans same)
    exact (place_exclusive _ _ exclusive _ on turn).2
  | write self value =>
    obtain ⟨servo,_,writes⟩ := Option.bind_eq_some_iff.mp taken
    exact always (writeMicroseconds_kept s next servo _ kept writes) trivial
  | writeMicroseconds self value =>
    obtain ⟨servo,_,writes⟩ := Option.bind_eq_some_iff.mp taken
    exact always (writeMicroseconds_kept s next servo _ kept writes) trivial
  | limits self min max =>
    obtain ⟨servo,_,rfl⟩ := Option.map_eq_some_iff.mp taken
    exact always ⟨kept.own,kept.least,kept.taken,kept.within,kept.runs⟩ trivial
  | init =>
    cases Option.some.inj taken
    apply always _ trivial
    split
    · exact kept
    · exact ⟨kept.own,kept.least,kept.taken,kept.within,fun _ _ => rfl⟩
  | activate self =>
    obtain ⟨servo,_,sets⟩ := Option.bind_eq_some_iff.mp taken
    obtain ⟨inside,rfl⟩ := set_eq s next servo _ sets
    apply always _ trivial
    exact place_kept kept _ _ (fun _ => ⟨inside,started⟩) fun p on turn => ⟨rfl,(kept.turn _ p on turn).2⟩
  | deactivate self =>
    obtain ⟨servo,object,sets⟩ := Option.bind_eq_some_iff.mp taken
    obtain ⟨_,rfl⟩ := set_eq s next servo _ sets
    have holds : Statement.Calm s (.deactivate self) → Kept (place s servo.servoIndex.toNat
        {s.servos servo.servoIndex.toNat with isActive := false}) := by
      intro calm
      refine place_kept kept _ _ nofun ?_
      intro p on turn
      obtain ⟨active,own⟩ := kept.turn _ p on turn
      refine absurd ⟨servo,object,turn,?_⟩ calm
      rw [own]
      exact on
    refine ⟨⟨?_,fun calm => (holds calm).exclusive⟩,holds⟩
    rintro exclusive ⟨_,found,turn,on⟩
    cases Option.some.inj (object.symm.trans found)
    exact absurd (place_exclusive _ _ exclusive _ on turn).1 Bool.false_ne_true
  | pause =>
    cases Option.some.inj taken
    apply always _ trivial
    split
    · exact kept
    · rename_i passive
      refine ⟨kept.own,kept.least,kept.taken,kept.within,?_⟩
      intro k active
      exact absurd ((isTimerActive_iff s).mpr ⟨k,kept.within k active,active⟩) passive

theorem exec_ready (s next : State ι) (statement : Statement ι) (rest : List (Statement ι)) (kept : Kept s)
    (ready : Ready s.running (statement :: rest)) (taken : exec s statement = some next) :
    statement.Started s.running ∧ Ready next.running rest := by
  have same (unchanged : next.running = s.running) (later : Ready s.running rest) : Ready next.running rest := by
    rw [unchanged]
    exact later
  cases statement with
  | index self min max =>
    cases Option.some.inj taken
    exact ⟨trivial,same (by split <;> rfl) ready⟩
  | ticks self | nbr self pin | deactivate self =>
    obtain ⟨servo,_,sets⟩ := Option.bind_eq_some_iff.mp taken
    exact ⟨trivial,same (set_running s next servo _ sets) ready⟩
  | write self value | writeMicroseconds self value =>
    obtain ⟨servo,_,writes⟩ := Option.bind_eq_some_iff.mp taken
    exact ⟨trivial,same (writeMicroseconds_running s next servo _ writes) ready⟩
  | limits self min max =>
    obtain ⟨servo,_,rfl⟩ := Option.map_eq_some_iff.mp taken
    exact ⟨trivial,ready⟩
  | init =>
    cases Option.some.inj taken
    refine ⟨trivial,?_⟩
    split
    · rename_i active
      obtain ⟨k,_,on⟩ := (isTimerActive_iff s).mp active
      rw [kept.runs k on]
      exact ready
    · exact ready
  | activate self =>
    obtain ⟨servo,_,sets⟩ := Option.bind_eq_some_iff.mp taken
    exact ⟨ready.1,same (set_running s next servo _ sets) ready.2⟩
  | pause => exact ⟨trivial,Ready.later ready next.running⟩

theorem step_exclusive (s next : Program ι) (event : Event ι) (sound : Sound s) (taken : s.step event = some next) :
    (Exclusive next.state ↔ Calm s event) ∧ (Calm s event → Sound next) := by
  have always (after : Sound next) (calm : Calm s event) :
      (Exclusive next.state ↔ Calm s event) ∧ (Calm s event → Sound next) :=
    ⟨iff_of_true after.kept.exclusive calm,fun _ => after⟩
  cases event with
  | call call =>
    simp only [Program.step] at taken
    split at taken
    · obtain ⟨body,calls,rfl⟩ := Option.map_eq_some_iff.mp taken
      exact always ⟨sound.kept,body_ready s.state call body calls⟩ trivial
    · contradiction
  | run =>
    simp only [Program.step] at taken
    split at taken
    · contradiction
    · rename_i statement rest left
      obtain ⟨state,runs,rfl⟩ := Option.map_eq_some_iff.mp taken
      have ready := sound.ready
      rw [left] at ready
      obtain ⟨started,later⟩ := exec_ready s.state state statement rest sound.kept ready runs
      obtain ⟨exclusive,kept⟩ := exec_exclusive s.state state statement sound.kept started runs
      have calm : Calm s .run ↔ statement.Calm s.state := by
        constructor
        · exact fun calm => calm statement rest left
        · intro calm first others same
          cases List.cons.inj (left.symm.trans same) |>.1
          exact calm
      exact ⟨exclusive.trans calm.symm,fun holds => ⟨kept (calm.mp holds),later⟩⟩
  | callback =>
    cases Option.some.inj taken
    obtain ⟨kept,running⟩ := callback_kept s.state sound.kept
    refine always ⟨kept,?_⟩ trivial
    rw [running]
    exact sound.ready

/-- Throughout a run at most one pin is high, that of the servo whose turn it is, exactly when no servo loses its pin
during its pulse. -/
theorem pulses_exclusive (events : List (Event ι)) :
    Run.Throughout (fun s : Program ι => Exclusive s.state) Program.step ⟨boot,[]⟩ events ↔
      Run.Meets Calm Program.step ⟨boot,[]⟩ events := by
  apply Run.throughout_iff_meets _ Sound Calm (fun s sound => sound.kept.exclusive)
  · exact fun s event next sound calm taken => (step_exclusive s next event sound taken).2 calm
  · exact fun s event next sound hasty taken after => hasty ((step_exclusive s next event sound taken).1.mp after)
  · exact boot_sound

end Pulses

/-- A servo that is detached during its pulse leaves its pin high. -/
theorem pulse_left :
    ∃ s : Program Unit, Run.after Program.step ⟨boot,[]⟩
        ([.call (.construct () 0 0),.run,.run,.call (.attach () 5 544 2400 1500)] ++ List.replicate 5 .run ++
          [.callback,.call (.detach ()),.run,.run]) = some s ∧
      s.state.high 5 = true ∧ isTimerActive s.state = false ∧ s.state.running = false := by
  refine ⟨_,rfl,?_,?_,?_⟩
  · decide
  · decide
  · decide

end OpenPlc.Servos
