import OpenPlc.Lib.Run
import OpenPlc.Analog.Pwm

/-! What a pin puts out once `analogWrite` has returned. -/
namespace OpenPlc.Analog
open Timers

/-- The pin is routed to its timer, the channel runs as the entry says, and with the compare value of the value written. -/
structure Effective (board : Board) (next : State) (resolution : Resolution) (p : PinName) (e : TimEntry) (value : UInt32) :
    Prop where
  routed : next.gpio p.line = .alternate e.afnum
  held : next.handle e.timer = true
  clocked : (next.timer e.timer).clocked = true
  runs : Runs (next.timer e.timer) e.channel
  complementary : (next.timer e.timer).isComplementary e.channel = e.inverted
  compare : duty (board.timerClk e.timer) resolution (next.timer e.timer).registers e.channel value =
    some ((next.timer e.timer).registers.ccr e.channel)

def TakesEffect (board : Board) (s : State) : Call → Prop
  | .analogWrite p value => board.pinMapDac.lookup p = none → ∀ e, board.pinMapTim.lookup p = some e →
    ∀ next, analogWrite board s p value = some next → Effective board next s.resolution p e value
  | .pinMode _ _ => True

/-- A pin whose channel is in its mode already is routed already, and its output is the one that the channel drives. -/
def Routed (board : Board) (s : State) : Call → Prop
  | .analogWrite p _ => board.pinMapDac.lookup p = none → ∀ e, board.pinMapTim.lookup p = some e → Already s e →
    s.gpio p.line = .alternate e.afnum ∧ (s.timer e.timer).isComplementary e.channel = e.inverted
  | .pinMode _ _ => True

/-- No timer has an object at the start. -/
def boot (s : State) : State := {s with handle := fun _ => false}

section Calls
variable {board : Board} {s next : State} {p : PinName} {e : TimEntry} {value : UInt32}

theorem pinFunction_sound (sound : Sound s) (p : PinName) (function : PinFunction) : Sound (pinFunction s p function) := by
  intro j held
  rw [(pinFunction_frame s p function).2] at held
  rw [(pinFunction_frame s p function).1]
  exact sound j held

theorem setPinConfigured_sound (sound : Sound s) (p : PinName) (on : Bool) : Sound (setPinConfigured s p on) := sound

theorem pwmStop_sound (sound : Sound s) (e : TimEntry) : Sound (pwmStop s e) := by
  obtain ⟨obtained,_,_,_⟩ := obtainTimer_spec sound e.timer
  intro j held
  by_cases here : j = e.timer
  · subst here
    simp only [pwmStop,deleteTimer,Function.update_self] at held
    exact absurd held Bool.false_ne_true
  · simp only [pwmStop,deleteTimer,setTimer,Function.update_of_ne here] at held ⊢
    exact obtained j held

theorem dacWriteValue_frame (s : State) (p : PinName) (e : DacEntry) (value : UInt32) (doInit : Bool) :
    (dacWriteValue s p e value doInit).timer = s.timer ∧ (dacWriteValue s p e value doInit).handle = s.handle := by
  cases doInit with
  | true =>
    obtain ⟨timer,handle⟩ := pinFunction_frame (setDac s e.dac {s.dac e.dac with clocked := true}) p .analog
    exact ⟨timer,handle⟩
  | false => exact ⟨rfl,rfl⟩

theorem pinMode_sound (board : Board) (sound : Sound s) (p : PinName) (mode : PinMode) : Sound (pinMode board s p mode) := by
  rw [pinMode]
  apply pinFunction_sound
  split
  · apply setPinConfigured_sound
    split
    · exact sound
    · split
      · exact pwmStop_sound sound _
      · exact sound
  · exact sound

theorem analogWrite_sound (sound : Sound s) (written : analogWrite board s p value = some next) : Sound next := by
  rw [analogWrite] at written
  split at written
  · cases Option.some.inj written
    intro j held
    rw [(dacWriteValue_frame _ _ _ _ _).2] at held
    rw [(dacWriteValue_frame _ _ _ _ _).1]
    exact sound j held
  · split at written
    · have configured : Sound (setPinConfigured s p true) := sound
      exact (pwmStart_spec configured written).1
    · cases Option.some.inj written
      exact pinMode_sound board sound p .output

theorem step_sound (call : Call) (sound : Sound s) (taken : step board s call = some next) : Sound next := by
  cases call with
  | analogWrite p value => exact analogWrite_sound sound taken
  | pinMode p mode =>
    cases Option.some.inj taken
    exact pinMode_sound board sound p mode

theorem analogWrite_pwm (unconverted : board.pinMapDac.lookup p = none) (mapped : board.pinMapTim.lookup p = some e) :
    analogWrite board s p value = pwmStart board (setPinConfigured s p true) p e s.writeFreq
      (mapResolution value s.resolution.write s.resolution.internalWrite.val) s.resolution.internalWrite := by
  rw [analogWrite,unconverted]
  simp only [mapped]

theorem analogWrite_effective (sound : Sound s) (unconverted : board.pinMapDac.lookup p = none)
    (mapped : board.pinMapTim.lookup p = some e) (written : analogWrite board s p value = some next) :
    Effective board next s.resolution p e value ↔ (Already s e →
      s.gpio p.line = .alternate e.afnum ∧ (s.timer e.timer).isComplementary e.channel = e.inverted) := by
  rw [analogWrite_pwm unconverted mapped] at written
  have configured : Sound (setPinConfigured s p true) := sound
  obtain ⟨again,held,runs,compare,_⟩ := pwmStart_spec configured written
  have duty_ : duty (board.timerClk e.timer) s.resolution (next.timer e.timer).registers e.channel value =
      some ((next.timer e.timer).registers.ccr e.channel) := by
    rw [duty,compare,Option.map_some]
  have clocked := (again e.timer held).clocked
  by_cases already : Already s e
  · have already_ : Already (setPinConfigured s p true) e := already
    obtain ⟨gpio,complementary⟩ := pwmStart_kept already_ written
    constructor
    · intro effective _
      have routed := effective.routed
      have driven := effective.complementary
      rw [gpio] at routed
      rw [complementary] at driven
      exact ⟨routed,driven⟩
    · intro routed
      obtain ⟨line,output⟩ := routed already
      exact ⟨by rw [gpio]; exact line,held,clocked,runs,by rw [complementary]; exact output,duty_⟩
  · have fresh : ¬ Already (setPinConfigured s p true) e := already
    obtain ⟨line,output⟩ := pwmStart_routed configured fresh written
    exact iff_of_true ⟨line,held,clocked,runs,output,duty_⟩ fun other => absurd other already

/-- Every `analogWrite` of a timer pin takes effect, exactly if none finds its channel in its mode with the pin not routed to
it or driven by the other of its outputs. -/
theorem output_iff (board : Board) (s : State) (calls : List Call) :
    Run.Meets (TakesEffect board) (step board) (boot s) calls ↔ Run.Meets (Routed board) (step board) (boot s) calls := by
  apply Run.meets_iff Sound
  · intro s call next sound taken
    cases call with
    | pinMode p mode => exact Iff.rfl
    | analogWrite p value =>
      constructor
      · intro effect unconverted e mapped
        exact (analogWrite_effective sound unconverted mapped taken).mp (effect unconverted e mapped next taken)
      · intro routed unconverted e mapped next_ written
        exact (analogWrite_effective sound unconverted mapped written).mpr (routed unconverted e mapped)
  · intro s call next sound _ taken
    exact step_sound call sound taken
  · intro i held
    exact absurd held Bool.false_ne_true

/-- PA0 and PA15, which share a channel. -/
def sharedChannel : Board :=
  ⟨[(⟨0,0,0,false⟩,⟨2,.one,1,false⟩),(⟨0,15,0,false⟩,⟨2,.one,1,false⟩)],[],fun _ => 240000000,fun _ => true⟩

/-- The second pin of the channel is not routed to it. -/
theorem output_missing : ¬ Run.Meets (TakesEffect sharedChannel) (step sharedChannel) (boot State.reset)
    [.analogWrite ⟨0,0,0,false⟩ 128,.analogWrite ⟨0,15,0,false⟩ 128] := by
  intro effect
  obtain ⟨_,effect⟩ := effect _ rfl
  obtain ⟨written,_⟩ := effect _ rfl
  have routed := (written rfl ⟨2,.one,1,false⟩ rfl _ rfl).routed
  exact PinFunction.noConfusion routed

end Calls

end OpenPlc.Analog
