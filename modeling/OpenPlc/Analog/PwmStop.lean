import OpenPlc.Lib.Run
import OpenPlc.Analog.PwmOutput

/-! What `pwm_stop` does to the pins that other starts drive: the object that it deletes is that of the whole timer. -/
namespace OpenPlc.Analog
open Timers

/-- With the pins that are started and not stopped. -/
structure Outputs where
  state : State
  driven : PinName → Bool

inductive PwmCall where
  | start (p : PinName) (freq value : UInt32) (resolution : Bits)
  | stop (p : PinName)

/-- A stop is of a pin that is driven. -/
def Outputs.step (board : Board) (s : Outputs) : PwmCall → Option Outputs
  | .start p freq value resolution =>
    (board.pinMapTim.lookup p).bind fun e => (pwmStart board s.state p e freq value resolution).map fun next =>
      ⟨next,Function.update s.driven p true⟩
  | .stop p =>
    if s.driven p then
      (board.pinMapTim.lookup p).map fun e => ⟨pwmStop s.state e,Function.update s.driven p false⟩
    else none

structure Output where
  running : Bool
  psc : UInt32
  arr : UInt32
  ccr : UInt32
  mode : TimerMode
  cce : Bool
  ccne : Bool

def output (s : State) (e : TimEntry) : Output :=
  let t := s.timer e.timer
  ⟨t.clocked && t.cen,t.registers.psc,t.registers.arr,t.registers.ccr e.channel,t.configured e.channel,t.cce e.channel,
    t.ccne e.channel⟩

/-- A stop ends the output of its pin, and every other one goes on as it was. -/
def Framed (board : Board) (s : Outputs) : PwmCall → Prop
  | .start _ _ _ _ => True
  | .stop p => ∀ e, board.pinMapTim.lookup p = some e → (output (pwmStop s.state e) e).running = false ∧
    ∀ q other, q ≠ p → s.driven q = true → board.pinMapTim.lookup q = some other →
      (pwmStop s.state e).gpio q.line = s.state.gpio q.line ∧ (output (pwmStop s.state e) other).running = true ∧
        output (pwmStop s.state e) other = output s.state other

/-- No other pin is driven by the timer of the pin that is stopped. -/
def Alone (board : Board) (s : Outputs) : PwmCall → Prop
  | .start _ _ _ _ => True
  | .stop p => ∀ e, board.pinMapTim.lookup p = some e →
    ∀ q other, q ≠ p → s.driven q = true → board.pinMapTim.lookup q = some other → other.timer ≠ e.timer

/-- The channel of every driven pin is in its mode. -/
structure Sounding (board : Board) (s : Outputs) : Prop where
  sound : Sound s.state
  driven : ∀ q e, s.driven q = true → board.pinMapTim.lookup q = some e → Already s.state e

section Stops
variable {board : Board} {s : State} {e other : TimEntry}

theorem pwmStop_timer (s : State) (e : TimEntry) : (output (pwmStop s e) e).running = false := by
  simp [output,pwmStop,deleteTimer,setTimer]

theorem pwmStop_gpio (s : State) (e : TimEntry) : (pwmStop s e).gpio = s.gpio := by
  rw [pwmStop,deleteTimer,setTimer,obtainTimer]
  split <;> rfl

theorem pwmStop_other (sound : Sound s) (apart : other.timer ≠ e.timer) :
    (pwmStop s e).timer other.timer = s.timer other.timer ∧ (pwmStop s e).handle other.timer = s.handle other.timer := by
  obtain ⟨_,_,others,_⟩ := obtainTimer_spec sound e.timer
  obtain ⟨timer,handle⟩ := others other.timer apart
  exact ⟨(Function.update_of_ne apart _ _).trans timer,(Function.update_of_ne apart _ _).trans handle⟩

theorem Already.running (already : Already s e) (sound : Sound s) : (output s e).running = true := by
  have driven := sound e.timer already.1
  rw [output]
  simp only [driven.clocked,(driven.runs already.2).counts]
  rfl

theorem framed_iff (s : Outputs) (call : PwmCall) (sounding : Sounding board s) : Framed board s call ↔ Alone board s call := by
  cases call with
  | start p freq value resolution => exact Iff.rfl
  | stop p =>
    constructor
    · intro framed e mapped q other apart driven mapped_ same
      have running := ((framed e mapped).2 q other apart driven mapped_).2.1
      have stopped := pwmStop_timer s.state e
      rw [output] at running stopped
      rw [same] at running
      exact absurd (running.symm.trans stopped) Bool.noConfusion
    · intro alone e mapped
      refine ⟨pwmStop_timer s.state e,?_⟩
      intro q other apart driven mapped_
      obtain ⟨timer,_⟩ := pwmStop_other sounding.sound (alone e mapped q other apart driven mapped_)
      have same : output (pwmStop s.state e) other = output s.state other := by
        rw [output,output,timer]
      rw [same]
      exact ⟨congrFun (pwmStop_gpio s.state e) _,(sounding.driven q other driven mapped_).running sounding.sound,rfl⟩

theorem pwmStart_already {next : State} {p : PinName} {freq value : UInt32} {resolution : Bits} (sound : Sound s)
    (started : pwmStart board s p e freq value resolution = some next) (already : Already s other) : Already next other := by
  obtain ⟨_,held,_,_,others⟩ := pwmStart_spec sound started
  by_cases here : other.timer = e.timer
  · refine ⟨by rw [here]; exact held,?_⟩
    have present : obtainTimer s e.timer = s := if_pos (here ▸ already.1)
    have mode := already.2
    rw [here] at mode ⊢
    by_cases again : Already s e
    · obtain ⟨registers,rfl,_⟩ := pwmStart_again again started
      rw [setTimer_self,present]
      exact mode
    · obtain ⟨registers,routed,rfl,rfl,_⟩ := pwmStart_first again started
      rw [present,setTimer_self]
      have driven := sound e.timer (here ▸ already.1)
      have unused := driven.unused fun same => again ⟨here ▸ already.1,same⟩
      obtain ⟨_,_,_,_,modes⟩ := start_driven driven unused e.inverted registers
      rw [modes]
      by_cases same : other.channel = e.channel
      · rw [same]
        exact Function.update_self _ _ _
      · rw [Function.update_of_ne same]
        exact mode
  · obtain ⟨timer,handle⟩ := others other.timer here
    exact ⟨handle.trans already.1,by rw [timer]; exact already.2⟩

theorem step_sounding (s : Outputs) (call : PwmCall) (next : Outputs) (sounding : Sounding board s) (alone : Alone board s call)
    (taken : s.step board call = some next) : Sounding board next := by
  cases call with
  | start p freq value resolution =>
    obtain ⟨e,mapped,starts⟩ := Option.bind_eq_some_iff.mp taken
    obtain ⟨state,started,rfl⟩ := Option.map_eq_some_iff.mp starts
    obtain ⟨sound,held,runs,_,_⟩ := pwmStart_spec sounding.sound started
    refine ⟨sound,?_⟩
    intro q other driven mapped_
    by_cases here : q = p
    · subst here
      cases Option.some.inj (mapped.symm.trans mapped_)
      exact ⟨held,runs.mode⟩
    · simp only [Function.update_of_ne here] at driven
      exact pwmStart_already sounding.sound started (sounding.driven q other driven mapped_)
  | stop p =>
    rw [Outputs.step] at taken
    split at taken
    · obtain ⟨e,mapped,rfl⟩ := Option.map_eq_some_iff.mp taken
      refine ⟨pwmStop_sound sounding.sound e,?_⟩
      intro q other driven mapped_
      by_cases here : q = p
      · subst here
        simp only [Function.update_self] at driven
        exact absurd driven Bool.false_ne_true
      · simp only [Function.update_of_ne here] at driven
        have already := sounding.driven q other driven mapped_
        obtain ⟨timer,handle⟩ := pwmStop_other sounding.sound (alone e mapped q other here driven mapped_)
        exact ⟨handle.trans already.1,by rw [timer]; exact already.2⟩
    · exact absurd taken.symm (Option.some_ne_none next)

/-- A stop leaves every other output alone, exactly if no other pin is driven by its timer. -/
theorem stop_iff (board : Board) (s : State) (calls : List PwmCall) :
    Run.Meets (Framed board) (Outputs.step board) ⟨boot s,fun _ => false⟩ calls ↔
      Run.Meets (Alone board) (Outputs.step board) ⟨boot s,fun _ => false⟩ calls := by
  apply Run.meets_iff (Sounding board)
  · intro s call next sounding _
    exact framed_iff s call sounding
  · exact step_sounding
  · exact ⟨fun i held => absurd held Bool.false_ne_true,fun q e driven => absurd driven Bool.false_ne_true⟩

/-- PA0 and PA1, which are two channels of one timer. -/
def sharedTimer : Board :=
  ⟨[(⟨0,0,0,false⟩,⟨2,.one,1,false⟩),(⟨0,1,0,false⟩,⟨2,.two,1,false⟩)],[],fun _ => 240000000,fun _ => true⟩

/-- The clock of the timer goes with the first pin that is stopped. -/
theorem stop_shared : ¬ Run.Meets (Framed sharedTimer) (Outputs.step sharedTimer) ⟨boot State.reset,fun _ => false⟩
    [.start ⟨0,0,0,false⟩ 1000 128 ⟨8,by decide⟩,.start ⟨0,1,0,false⟩ 1000 64 ⟨8,by decide⟩,.stop ⟨0,0,0,false⟩] := by
  intro framed
  obtain ⟨_,framed⟩ := framed _ rfl
  obtain ⟨_,framed⟩ := framed _ rfl
  obtain ⟨stopped,_⟩ := framed _ rfl
  have others := (stopped ⟨2,.one,1,false⟩ rfl).2 ⟨0,1,0,false⟩ ⟨2,.two,1,false⟩ (by decide) rfl rfl
  exact absurd others.2.1 Bool.false_ne_true

end Stops

end OpenPlc.Analog
