import OpenPlc.Servos.Servo

/-! The limits of a servo: `attach` stores them in units of four microseconds, and every pulse is kept within them. -/
namespace OpenPlc.Servos

variable {ι : Type}

/-- The pulse that a value asks for. An angle is taken within the limits that the servo has. -/
def Servo.asked (servo : Servo) (value : Int) : Int :=
  if value < minPulseWidth then
    map (if value < 0 then 0 else if 180 < value then 180 else value) 0 180 servo.servoMin servo.servoMax
  else value

/-- The offset from the default survives the conversion to its field. -/
def Fits (offset : Int) : Prop := -128 ≤ offset.tdiv 4 ∧ offset.tdiv 4 ≤ 127

inductive Order where
  | attach (pin min max value : Int)
  | write (value : Int)
  | writeMicroseconds (value : Int)
  | detach

def Order.call (self : ι) : Order → Call ι
  | .attach pin min max value => .attach self pin min max value
  | .write value => .write self value
  | .writeMicroseconds value => .writeMicroseconds self value
  | .detach => .detach self

def Call.run [DecidableEq ι] (s : State ι) (call : Call ι) : Option (State ι) :=
  (call.body s).bind fun body => body.foldlM exec s

/-- A servo, with the limits that its latest `attach` was given. -/
structure Driven (ι : Type) where
  state : State ι
  limits : Option (Int × Int)

def Driven.step [DecidableEq ι] (self : ι) (s : Driven ι) (order : Order) : Option (Driven ι) :=
  ((order.call self).run s.state).map fun state =>
    ⟨state,match order with | .attach _ min max _ => some (min,max) | _ => s.limits⟩

/-- Within less than a unit of four microseconds. -/
structure Within (s : State ι) (servo : Servo) (min max : Int) : Prop where
  entry : servo.servoIndex.toNat < maxServos
  minKept : min - 4 < servo.servoMin ∧ servo.servoMin < min + 4
  maxKept : max - 4 < servo.servoMax ∧ servo.servoMax < max + 4
  pulse : min - 4 < (s.servos servo.servoIndex.toNat).ticks.toNat ∧ (s.servos servo.servoIndex.toNat).ticks.toNat < max + 4

def InRange (self : ι) (s : Driven ι) : Prop :=
  ∀ min max, s.limits = some (min,max) → ∃ servo, s.state.object self = some servo ∧ Within s.state servo min max

/-- An `attach` is given limits that their fields hold, and a pulse that the servo's old limits
do not push out of the new ones. -/
def Attaches (self : ι) (s : Driven ι) : Order → Prop
  | .attach _ min max value => ∀ servo, s.state.object self = some servo →
    servo.servoIndex.toNat < maxServos ∧ Fits (minPulseWidth - min) ∧ Fits (maxPulseWidth - max) ∧
      (min - 4 < servo.asked value ∨ min - 4 < servo.servoMin) ∧
      (servo.asked value < max + 4 ∨ servo.servoMax < max + 4)
  | _ => True

theorem Servo.servoMin_bounds (servo : Servo) : 36 ≤ servo.servoMin ∧ servo.servoMin ≤ 1056 := by
  have low := Int8.le_toInt servo.min
  have high := Int8.toInt_lt servo.min
  rw [servoMin,minPulseWidth]
  omega

theorem Servo.servoMax_bounds (servo : Servo) : 1892 ≤ servo.servoMax ∧ servo.servoMax ≤ 2912 := by
  have low := Int8.le_toInt servo.max
  have high := Int8.toInt_lt servo.max
  rw [servoMax,maxPulseWidth]
  omega

theorem fits_iff (offset : Int) :
    Fits offset ↔ offset - 4 < (Int8.ofInt (offset.tdiv 4)).toInt * 4 ∧
      (Int8.ofInt (offset.tdiv 4)).toInt * 4 < offset + 4 := by
  have parts := Int.tdiv_mul_add_tmod offset 4
  have unit : (0 : Int) < 4 := by decide
  have less := Int.tmod_lt_of_pos offset unit
  have more := Int.lt_tmod_of_pos offset unit
  constructor
  · rintro ⟨low,high⟩
    rw [Int8.toInt_ofInt_of_le low (Int.lt_add_one_of_le high)]
    omega
  · intro near
    have low := Int8.le_toInt (Int8.ofInt (offset.tdiv 4))
    have high := Int8.toInt_lt (Int8.ofInt (offset.tdiv 4))
    -- an offset that does not fit is off by the size of the field at least
    have wraps : (Int8.ofInt (offset.tdiv 4)).toInt % 256 = offset.tdiv 4 % 256 := by
      rw [Int8.toInt_ofInt]
      exact Int.bmod_emod
    constructor <;> omega

def Servo.limit (servo : Servo) (min max : Int) : Servo :=
  {servo with min := Int8.ofInt ((minPulseWidth - min).tdiv 4), max := Int8.ofInt ((maxPulseWidth - max).tdiv 4)}

theorem limit_min (servo : Servo) (min max : Int) : Fits (minPulseWidth - min) ↔
    min - 4 < (servo.limit min max).servoMin ∧ (servo.limit min max).servoMin < min + 4 := by
  rw [fits_iff]
  simp only [Servo.limit,Servo.servoMin]
  omega

theorem limit_max (servo : Servo) (min max : Int) : Fits (maxPulseWidth - max) ↔
    max - 4 < (servo.limit min max).servoMax ∧ (servo.limit min max).servoMax < max + 4 := by
  rw [fits_iff]
  simp only [Servo.limit,Servo.servoMax]
  omega

theorem write_eq (s : State ι) (servo : Servo) (value : Int) :
    write s servo value = writeMicroseconds s servo (servo.asked value) := by
  rfl

theorem writeMicroseconds_stores (s : State ι) (servo : Servo) (value : Int) (entry : servo.servoIndex.toNat < maxServos) :
    ∃ next, writeMicroseconds s servo value = some next ∧ next.object = s.object ∧
      ((next.servos servo.servoIndex.toNat).ticks.toNat : Int) = max servo.servoMin (min servo.servoMax value) := by
  have low := servo.servoMin_bounds
  have high := servo.servoMax_bounds
  have kept : (if value < servo.servoMin then servo.servoMin else if servo.servoMax < value then servo.servoMax else value) =
      max servo.servoMin (min servo.servoMax value) := by
    split
    · omega
    · split <;> omega
  rw [writeMicroseconds,if_pos entry,kept,State.set,if_pos entry]
  refine ⟨_,rfl,rfl,?_⟩
  simp only [Function.update_self,UInt32.ofInt,UInt32.toNat_ofNat']
  omega

theorem set_frame {s next : State ι} {servo : Servo} {change : Channel → Channel} (sets : s.set servo change = some next)
    (same : ∀ channel, (change channel).ticks = channel.ticks) :
    next.object = s.object ∧ ∀ k, (next.servos k).ticks = (s.servos k).ticks := by
  unfold State.set at sets
  split at sets
  · cases Option.some.inj sets
    refine ⟨rfl,?_⟩
    intro k
    by_cases here : k = servo.servoIndex.toNat
    · subst here
      simp only [Function.update_self]
      exact same _
    · simp only [Function.update_of_ne here]
  · exact absurd sets.symm (Option.some_ne_none next)

theorem Within.pulsed {s : State ι} {servo : Servo} {min max value : Int} (entry : servo.servoIndex.toNat < maxServos)
    (minKept : min - 4 < servo.servoMin ∧ servo.servoMin < min + 4)
    (maxKept : max - 4 < servo.servoMax ∧ servo.servoMax < max + 4)
    (ticks : ((s.servos servo.servoIndex.toNat).ticks.toNat : Int) = Max.max servo.servoMin (Min.min servo.servoMax value)) :
    Within s servo min max := by
  have low := servo.servoMin_bounds
  have high := servo.servoMax_bounds
  exact ⟨entry,minKept,maxKept,by omega,by omega⟩

/-- The old limits keep a pulse from the new ones only on their own side. -/
theorem asked_near (servo : Servo) {min max value : Int} (minFit : min - 4 < 1056) (maxFit : 1892 < max + 4) :
    (min - 4 < Max.max servo.servoMin (Min.min servo.servoMax value) ∧
      Max.max servo.servoMin (Min.min servo.servoMax value) < max + 4) ↔
    (min - 4 < value ∨ min - 4 < servo.servoMin) ∧ (value < max + 4 ∨ servo.servoMax < max + 4) := by
  have low := servo.servoMin_bounds
  have high := servo.servoMax_bounds
  omega

section Calls
variable [DecidableEq ι] {s next : State ι} {self : ι} {servo : Servo}

theorem writeMicroseconds_run (object : s.object self = some servo) (entry : servo.servoIndex.toNat < maxServos)
    (value : Int) :
    ∃ next, (Call.writeMicroseconds self value).run s = some next ∧ next.object = s.object ∧
      ((next.servos servo.servoIndex.toNat).ticks.toNat : Int) = max servo.servoMin (min servo.servoMax value) := by
  obtain ⟨next,writes,same,ticks⟩ := writeMicroseconds_stores s servo value entry
  refine ⟨next,?_,same,ticks⟩
  simp [Call.run,Call.body,exec,object,writes]

theorem write_run (object : s.object self = some servo) (value : Int) :
    (Call.write self value).run s = (Call.writeMicroseconds self (servo.asked value)).run s := by
  simp [Call.run,Call.body,exec,object,write_eq]

theorem detach_run (taken : (Call.detach self).run s = some next) :
    next.object = s.object ∧ ∀ k, (next.servos k).ticks = (s.servos k).ticks := by
  simp only [Call.run,Call.body,Option.bind_some,List.foldlM_cons,List.foldlM_nil,Option.bind_eq_bind,exec,
    Option.bind_eq_some_iff] at taken
  obtain ⟨stopped,⟨servo,_,sets⟩,pauses⟩ := taken
  obtain ⟨object,ticks⟩ := set_frame sets fun _ => rfl
  rw [← Option.some.inj pauses]
  split <;> exact ⟨object,ticks⟩

theorem attach_run (object : s.object self = some servo) (entry : servo.servoIndex.toNat < maxServos)
    (pin min max value : Int) (taken : (Call.attach self pin min max value).run s = some next) :
    next.object self = some (servo.limit min max) ∧
      ((next.servos servo.servoIndex.toNat).ticks.toNat : Int) =
        Max.max servo.servoMin (Min.min servo.servoMax (servo.asked value)) := by
  simp only [Call.run,Call.body,object,Option.map_some,if_pos entry,Option.bind_some,List.foldlM_cons,List.foldlM_nil,
    Option.bind_eq_bind,exec,Option.bind_eq_some_iff,write_eq] at taken
  obtain ⟨named,names,written,⟨_,held,writes⟩,limited,limits,_,⟨_,_,activates⟩,ends⟩ := taken
  cases Option.some.inj ends
  obtain ⟨named_object,_⟩ := set_frame names fun _ => rfl
  rw [named_object,object] at held
  cases Option.some.inj held
  obtain ⟨_,stores,written_object,ticks⟩ := writeMicroseconds_stores named servo (servo.asked value) entry
  cases Option.some.inj (writes.symm.trans stores)
  rw [written_object,named_object,object,Option.map_some] at limits
  have started : ∀ t : State ι, t = (if isTimerActive limited then limited else timerServoInit limited) →
      t.object = limited.object ∧ t.servos = limited.servos := by
    rintro t rfl
    split <;> exact ⟨rfl,rfl⟩
  obtain ⟨next_object,next_ticks⟩ := set_frame activates fun _ => rfl
  rw [next_object,next_ticks,(started _ rfl).1,(started _ rfl).2,← Option.some.inj limits]
  exact ⟨Function.update_self _ _ _,ticks⟩

theorem attach_refused (object : s.object self = some servo) (refused : ¬ servo.servoIndex.toNat < maxServos)
    (pin min max value : Int) : (Call.attach self pin min max value).run s = some s := by
  simp [Call.run,Call.body,object,refused]

end Calls

section Steps
variable [DecidableEq ι] (self : ι) (s next : Driven ι)

theorem writeMicroseconds_inRange (value : Int) (inRange : InRange self s)
    (taken : s.step self (.writeMicroseconds value) = some next) : InRange self next := by
  obtain ⟨state,ran,rfl⟩ := Option.map_eq_some_iff.mp taken
  intro min max latest
  obtain ⟨servo,object,within⟩ := inRange min max latest
  obtain ⟨_,runs,same,ticks⟩ := writeMicroseconds_run object within.entry value
  cases Option.some.inj (ran.symm.trans runs)
  exact ⟨servo,by rw [same,object],.pulsed within.entry within.minKept within.maxKept ticks⟩

theorem attach_inRange (pin min max value : Int) (taken : s.step self (.attach pin min max value) = some next) :
    InRange self next ↔ Attaches self s (.attach pin min max value) := by
  obtain ⟨state,ran,rfl⟩ := Option.map_eq_some_iff.mp taken
  cases object : s.state.object self with
  | none =>
    simp only [Order.call,Call.run,Call.body,object,Option.map_none,Option.bind_none] at ran
    exact absurd ran.symm (Option.some_ne_none state)
  | some servo =>
    by_cases entry : servo.servoIndex.toNat < maxServos
    · obtain ⟨stored,ticks⟩ := attach_run object entry pin min max value ran
      have low := (servo.limit min max).servoMin_bounds
      have high := (servo.limit min max).servoMax_bounds
      constructor
      · intro inRange servo_ same
        cases Option.some.inj (object.symm.trans same)
        obtain ⟨_,same,_,minNear,maxNear,pulse⟩ := inRange min max rfl
        cases Option.some.inj (stored.symm.trans same)
        have near := (asked_near servo (by omega) (by omega)).mp (ticks ▸ pulse)
        exact ⟨entry,(limit_min servo min max).mpr minNear,(limit_max servo min max).mpr maxNear,near⟩
      · intro attaches
        obtain ⟨_,minFit,maxFit,near⟩ := attaches servo object
        have minNear := (limit_min servo min max).mp minFit
        have maxNear := (limit_max servo min max).mp maxFit
        have pulse := (asked_near servo (by omega) (by omega)).mpr near
        rintro _ _ ⟨⟩
        exact ⟨_,stored,entry,minNear,maxNear,ticks ▸ pulse⟩
    · have refused := attach_refused object entry pin min max value
      cases Option.some.inj (ran.symm.trans refused)
      constructor
      · intro inRange
        obtain ⟨_,same,within⟩ := inRange min max rfl
        cases Option.some.inj (object.symm.trans same)
        exact absurd within.entry entry
      · intro attaches
        exact absurd (attaches servo object).1 entry

theorem order_inRange (order : Order) (inRange : InRange self s) (taken : s.step self order = some next) :
    InRange self next ↔ Attaches self s order := by
  cases order with
  | attach pin min max value => exact attach_inRange self s next pin min max value taken
  | writeMicroseconds value =>
    exact iff_of_true (writeMicroseconds_inRange self s next value inRange taken) trivial
  | write value =>
    refine iff_of_true ?_ trivial
    cases object : s.state.object self with
    | none => simp [Driven.step,Order.call,Call.run,Call.body,exec,object] at taken
    | some servo =>
      apply writeMicroseconds_inRange self s next (servo.asked value) inRange
      simp only [← taken,Driven.step,Order.call,write_run object value]
  | detach =>
    refine iff_of_true ?_ trivial
    obtain ⟨state,ran,rfl⟩ := Option.map_eq_some_iff.mp taken
    obtain ⟨object,ticks⟩ := detach_run ran
    intro min max latest
    obtain ⟨servo,held,within⟩ := inRange min max latest
    exact ⟨servo,by rw [object,held],within.entry,within.minKept,within.maxKept,by rw [ticks]; exact within.pulse⟩

/-- After every call the pulse and the limits are as the latest `attach` asked, exactly if each
`attach` is given limits and a pulse that can be stored. -/
theorem range_kept (self : ι) (s : State ι) (orders : List Order) :
    Run.Throughout (InRange self) (Driven.step self) ⟨s,none⟩ orders ↔
      Run.Meets (Attaches self) (Driven.step self) ⟨s,none⟩ orders := by
  apply Run.throughout_iff_meets (InRange self) (InRange self) (Attaches self) (fun _ => id)
  · intro s order next inRange attaches taken
    exact (order_inRange self s next order inRange taken).mpr attaches
  · intro s order next inRange refused taken
    exact mt (order_inRange self s next order inRange taken).mp refused
  · intro _ _ latest
    exact absurd latest.symm (Option.some_ne_none _)

end Steps

/-- The offset of the first `attach` does not fit its field; the pulse of the second is stored while the old maximum holds. -/
theorem range_lost :
    let fresh : Driven Unit := ⟨{(boot : State Unit) with object := fun _ => some ⟨0,0,0⟩, servoCount := 1},none⟩
    ¬ Run.Throughout (InRange ()) (Driven.step ()) fresh [.attach 9 0 2400 1500] ∧
      ¬ Run.Throughout (InRange ()) (Driven.step ()) fresh [.attach 9 544 2000 2400] := by
  constructor
  · intro holds
    obtain ⟨_,object,within⟩ := holds _ _ (List.prefix_refl _) rfl 0 2400 rfl
    cases Option.some.inj object
    exact absurd within.minKept.2 (by decide)
  · intro holds
    obtain ⟨_,object,within⟩ := holds _ _ (List.prefix_refl _) rfl 544 2000 rfl
    cases Option.some.inj object
    exact absurd within.pulse.2 (by decide)

end OpenPlc.Servos
