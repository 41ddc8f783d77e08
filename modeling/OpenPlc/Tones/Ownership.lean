import OpenPlc.Lib.Run
import OpenPlc.Timers.Overflow
import OpenPlc.Tones.Tone

/-! Which pin the timer of the tones serves, over whole runs of calls. -/
namespace OpenPlc.Tones

/-- The pin is an output and the one that callbacks toggle, and the timer runs at two callbacks a period. -/
structure Plays {ι : Type} (board : Board ι) (p : ι) (frequency : Frequency) (s : State ι) : Prop where
  output : s.output p = true
  pin : s.pinInfo.pin = some p
  timer : ∃ timer, s.timerTone = some timer ∧ timer.attached = true ∧ timer.running = true ∧
    Timers.Programmed (Timers.periodCycles board.timerClkFreq (2 * frequency.val) .hertz) timer.registers

inductive Event {ι : Type} (board : Board ι) where
  | tone (pin : ValidPin board) (frequency : Frequency) (duration : UInt32)
  | noTone (pin : ValidPin board) (destruct : Bool)
  | elapsed

/-- A tone is active until the next `noTone` on its pin, which is held until the next one that destructs. -/
structure Tracked (ι : Type) where
  state : State ι
  active : ι → Frequency → Prop
  held : ι → Prop

def start {ι : Type} : Tracked ι := ⟨boot,fun _ _ => False,fun _ => False⟩

section Runs
variable {ι : Type} [DecidableEq ι] (board : Board ι)

def step (t : Tracked ι) : Event board → Option (Tracked ι)
  | .tone pin frequency duration => do
    let next ← tone board t.state pin.number frequency.val duration
    let took := Plays board pin.name frequency next
    return {
      state := next
      active := fun p f => (p = pin.name ∧ took ∧ f = frequency) ∨ (¬ (p = pin.name ∧ took) ∧ t.active p f)
      held := fun p => (p = pin.name ∧ took) ∨ t.held p}
  | .noTone pin destruct => some {
      state := noTone board t.state pin.number destruct
      active := fun p f => p ≠ pin.name ∧ t.active p f
      held := fun p => ¬ (p = pin.name ∧ destruct = true) ∧ t.held p}
  | .elapsed =>
    if t.state.timerTone.any fun timer => timer.attached && timer.running then
      some {t with state := tonePeriodElapsedCallback board t.state}
    else none

/-- What every call does, where `reserved` are the pins that keep others from playing. -/
structure Orderly (reserved : ι → Prop) (t : Tracked ι) : Prop where
  grants : ∀ (pin : ValidPin board) (frequency : Frequency) duration, (∀ p, reserved p → p = pin.name) →
    ∃ next, tone board t.state pin.number frequency.val duration = some next ∧ Plays board pin.name frequency next
  refuses : ∀ (pin : ValidPin board) (frequency : Frequency) duration p, reserved p → p ≠ pin.name →
    tone board t.state pin.number frequency.val duration = some t.state
  keeps : ∀ (pin : ValidPin board) destruct p frequency, t.active p frequency → p ≠ pin.name →
    noTone board t.state pin.number destruct = t.state

/-- The remembered pin is the one that is held, and it has a timer. -/
structure Inv (t : Tracked ι) : Prop where
  held : ∀ p, t.held p ↔ t.state.pinInfo.pin = some p
  timer : ∀ p, t.state.pinInfo.pin = some p → t.state.timerTone ≠ none
  active : ∀ p frequency, t.active p frequency → Plays board p frequency t.state

end Runs

section Calls
variable {ι : Type} [DecidableEq ι] {board : Board ι} {s : State ι}

theorem tone_plays (pin : ValidPin board) (frequency : Frequency) (duration : UInt32)
    (free : s.pinInfo.pin = none ∨ s.pinInfo.pin = some pin.name) :
    ∃ next, tone board s pin.number frequency.val duration = some next ∧ Plays board pin.name frequency next := by
  refine ⟨_,tone_free pin frequency duration free,Function.update_self ..,rfl,_,rfl,rfl,rfl,?_⟩
  obtain ⟨registers,set,programmed⟩ := Timers.hertz_programmed board.timerClkFreq (2 * frequency.val)
    (s.timerTone.getD .new).registers (timFreq_ne frequency)
  rw [setOverflow_eq] at set
  cases Option.some.inj set
  exact programmed

theorem tone_refused (pin : ValidPin board) (frequency duration : UInt32) {p : ι} (taken : s.pinInfo.pin = some p)
    (other : p ≠ pin.name) (timer : s.timerTone ≠ none) : tone board s pin.number frequency duration = some s := by
  have exists_ : s.timerTone.isNone ≠ true := fun absent => timer (Option.isNone_iff_eq_none.mp absent)
  have free : ¬ (s.pinInfo.pin = none ∨ s.pinInfo.pin = some pin.name) := by
    rw [taken]
    rintro (none_ | same)
    · exact Option.some_ne_none p none_
    · exact other (Option.some.inj same)
  rw [tone,pin.named,if_neg exists_]
  exact if_neg free

theorem noTone_other (pin : ValidPin board) (destruct : Bool) (other : s.pinInfo.pin ≠ some pin.name) :
    noTone board s pin.number destruct = s := by
  rw [noTone,pin.named]
  cases s.timerTone with
  | none => rfl
  | some timer => exact if_neg other

theorem noTone_pauses (pin : ValidPin board) (own : s.pinInfo.pin = some pin.name) {timer : Timer}
    (exists_ : s.timerTone = some timer) :
    noTone board s pin.number false = {s with timerTone := some timer.pause} := by
  rw [noTone,pin.named,exists_]
  exact if_pos own

theorem noTone_releases (pin : ValidPin board) (own : s.pinInfo.pin = some pin.name) (timer : s.timerTone ≠ none) :
    (noTone board s pin.number true).pinInfo.pin = none := by
  obtain ⟨timer,exists_⟩ := Option.ne_none_iff_exists'.mp timer
  rw [noTone,pin.named,exists_]
  dsimp only
  rw [if_pos own,if_pos rfl,timerTonePinDeinit]
  dsimp only
  rw [own]

omit [DecidableEq ι] in
theorem callback_frame (board : Board ι) (s : State ι) : ∃ count operations,
    tonePeriodElapsedCallback board s = {s with pinInfo := {s.pinInfo with count}, operations} := by
  rw [tonePeriodElapsedCallback]
  cases s.pinInfo.pin with
  | none => exact ⟨_,_,rfl⟩
  | some p =>
    dsimp only
    split_ifs
    · exact ⟨_,_,rfl⟩
    · exact ⟨_,_,rfl⟩
    · exact ⟨_,_,rfl⟩
    · exact ⟨_,_,rfl⟩

end Calls

section Runs
variable {ι : Type} [DecidableEq ι] {board : Board ι} {t : Tracked ι}

theorem inv_tone (inv : Inv board t) (pin : ValidPin board) (frequency : Frequency) (duration : UInt32) {next : Tracked ι}
    (taken : step board t (.tone pin frequency duration) = some next) : Inv board next := by
  by_cases free : t.state.pinInfo.pin = none ∨ t.state.pinInfo.pin = some pin.name
  · obtain ⟨after,called,plays⟩ := tone_plays pin frequency duration free
    rw [step,called] at taken
    cases Option.some.inj taken
    refine ⟨fun p => ?_,fun p _ => ?_,fun p f active => ?_⟩
    · dsimp only
      rw [plays.pin,inv.held]
      constructor
      · rintro (⟨rfl,_⟩ | held)
        · rfl
        · rcases free with none_ | own
          · exact absurd (none_.symm.trans held) (Option.some_ne_none p).symm
          · exact own.symm.trans held
      · intro same
        exact Or.inl ⟨(Option.some.inj same).symm,plays⟩
    · obtain ⟨timer,exists_,_⟩ := plays.timer
      dsimp only
      rw [exists_]
      exact Option.some_ne_none timer
    · rcases active with ⟨rfl,_,rfl⟩ | ⟨other,active⟩
      · exact plays
      · -- an active tone of another pin would have taken the pin
        have own := (inv.active p f active).pin
        rcases free with none_ | named
        · exact absurd (none_.symm.trans own) (Option.some_ne_none p).symm
        · exact absurd ⟨Option.some.inj (own.symm.trans named),plays⟩ other
  · obtain ⟨p,own⟩ := Option.ne_none_iff_exists'.mp fun none_ => free (Or.inl none_)
    have other : p ≠ pin.name := fun same => free (Or.inr (same ▸ own))
    rw [step,tone_refused pin frequency.val duration own other (inv.timer p own)] at taken
    cases Option.some.inj taken
    have without : ∀ q, ¬ (q = pin.name ∧ Plays board pin.name frequency t.state) :=
      fun q took => other (Option.some.inj (own.symm.trans took.2.pin))
    refine ⟨fun q => ?_,inv.timer,fun q f active => ?_⟩
    · dsimp only
      rw [or_iff_right (without q)]
      exact inv.held q
    · rcases active with ⟨rfl,took,_⟩ | ⟨_,active⟩
      · exact absurd ⟨rfl,took⟩ (without pin.name)
      · exact inv.active q f active

theorem inv_noTone (inv : Inv board t) (pin : ValidPin board) (destruct : Bool) {next : Tracked ι}
    (taken : step board t (.noTone pin destruct) = some next) : Inv board next := by
  rw [step] at taken
  cases Option.some.inj taken
  by_cases own : t.state.pinInfo.pin = some pin.name
  · have inactive : ∀ p f, ¬ (p ≠ pin.name ∧ t.active p f) := by
      rintro p f ⟨other,active⟩
      exact other (Option.some.inj ((inv.active p f active).pin.symm.trans own))
    obtain ⟨timer,exists_⟩ := Option.ne_none_iff_exists'.mp (inv.timer pin.name own)
    cases destruct with
    | false =>
      rw [noTone_pauses pin own exists_]
      refine ⟨fun p => ?_,fun p _ => Option.some_ne_none _,fun p f active => absurd active (inactive p f)⟩
      dsimp only
      rw [and_iff_right fun destructs => Bool.false_ne_true destructs.2]
      exact inv.held p
    | true =>
      have released := noTone_releases pin own (inv.timer pin.name own)
      refine ⟨fun p => ?_,fun p held => ?_,fun p f active => absurd active (inactive p f)⟩
      · dsimp only
        rw [released,inv.held,own]
        constructor
        · rintro ⟨other,same⟩
          exact absurd ⟨(Option.some.inj same).symm,rfl⟩ other
        · intro same
          exact absurd same.symm (Option.some_ne_none p)
      · exact absurd (released.symm.trans held).symm (Option.some_ne_none p)
  · rw [noTone_other pin destruct own]
    refine ⟨fun p => ?_,inv.timer,fun p f active => inv.active p f active.2⟩
    dsimp only
    rw [← inv.held]
    constructor
    · exact fun held => held.2
    · intro held
      exact ⟨fun destructs => own (destructs.1 ▸ (inv.held p).mp held),held⟩

theorem inv_elapsed (inv : Inv board t) {next : Tracked ι} (taken : step board t .elapsed = some next) : Inv board next := by
  rw [step] at taken
  split_ifs at taken with runs
  cases Option.some.inj taken
  obtain ⟨count,operations,frame⟩ := callback_frame board t.state
  rw [frame]
  refine ⟨inv.held,inv.timer,fun p f active => ?_⟩
  obtain ⟨output,pin,timer⟩ := inv.active p f active
  exact ⟨output,pin,timer⟩

theorem inv_step (event : Event board) (next : Tracked ι) (inv : Inv board t) (taken : step board t event = some next) :
    Inv board next := by
  cases event with
  | tone pin frequency duration => exact inv_tone inv pin frequency duration taken
  | noTone pin destruct => exact inv_noTone inv pin destruct taken
  | elapsed => exact inv_elapsed inv taken

theorem orderly_of_inv (inv : Inv board t) : Orderly board t.held t := by
  constructor
  · intro pin frequency duration alone
    refine tone_plays pin frequency duration ?_
    cases taken : t.state.pinInfo.pin with
    | none => exact Or.inl rfl
    | some p => exact Or.inr (congrArg some (alone p ((inv.held p).mpr taken)))
  · intro pin frequency duration p held other
    have own := (inv.held p).mp held
    exact tone_refused pin frequency.val duration own other (inv.timer p own)
  · intro pin destruct p frequency active other
    refine noTone_other pin destruct fun named => other ?_
    exact Option.some.inj ((inv.active p frequency active).pin.symm.trans named)

omit [DecidableEq ι] in
theorem inv_start : Inv board (start : Tracked ι) where
  held p := ⟨False.elim,fun named => absurd named.symm (Option.some_ne_none p)⟩
  timer p named := absurd named.symm (Option.some_ne_none p)
  active _ _ active := active.elim

theorem ownership (events : List (Event board)) (reached : Run.after (step board) start events = some t) :
    Orderly board t.held t ∧ ∀ p frequency, t.active p frequency → t.held p ∧ Plays board p frequency t.state := by
  have inv := Run.invariant (Inv board) (fun _ event next => inv_step event next) start t events inv_start reached
  refine ⟨orderly_of_inv inv,fun p frequency active => ?_⟩
  have plays := inv.active p frequency active
  exact ⟨(inv.held p).mpr plays.pin,plays⟩

end Runs

/-- A tone that is stopped without being destructed. -/
def stopped : List (Event plainBoard) := [.tone (plainPin 5) ⟨440,by decide⟩ 0,.noTone (plainPin 5) false]

theorem ownership_stopped : ∃ t, Run.after (step plainBoard) start stopped = some t ∧ Orderly plainBoard t.held t ∧
    ∀ p frequency, t.active p frequency → t.held p ∧ Plays plainBoard p frequency t.state :=
  ⟨_,rfl,ownership stopped rfl⟩

theorem stopped_refuses : ∃ t, Run.after (step plainBoard) start stopped = some t ∧
    ¬ Orderly plainBoard (fun p => ∃ frequency, t.active p frequency) t := by
  refine ⟨_,rfl,fun orderly => ?_⟩
  have granted := orderly.grants (plainPin 6) ⟨440,by decide⟩ 0 <| by
    rintro p ⟨frequency,other,⟨own,_⟩ | ⟨_,none_⟩⟩
    · exact absurd own other
    · exact none_.elim
  obtain ⟨next,called,plays⟩ := granted
  have kept : some 5 = next.pinInfo.pin := congrArg (fun s : State UInt8 => s.pinInfo.pin) (Option.some.inj called)
  exact absurd (kept.trans plays.pin) (by decide)

end OpenPlc.Tones
