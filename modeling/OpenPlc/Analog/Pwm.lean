import OpenPlc.Analog.Analog

/-! The timers that only `pwm_start` and `pwm_stop` use: what a channel of theirs is in, and what a start makes of it. -/
namespace OpenPlc.Analog
open Timers

/-- A channel that no pin has used since the timer was set up. -/
structure Unused (t : Timer) (c : Channel) : Prop where
  mode : t.channelMode c = .disabled
  idle : t.channelBusy c = false
  idleN : t.channelNBusy c = false

/-- A channel that drives its output, or its complementary one. -/
structure Runs (t : Timer) (c : Channel) : Prop where
  mode : t.channelMode c = .pwm1
  configured : t.configured c = .pwm1
  output : t.cce c = !t.isComplementary c
  outputN : t.ccne c = t.isComplementary c
  counts : t.cen = true

/-- A channel that is set to its mode and not started. -/
structure Prepared (t : Timer) (c : Channel) : Prop where
  mode : t.channelMode c = .pwm1
  configured : t.configured c = .pwm1
  output : t.cce c = false
  outputN : t.ccne c = false
  idle : t.channelBusy c = false
  idleN : t.channelNBusy c = false

def Settled (t : Timer) (c : Channel) : Prop := Unused t c ∨ Runs t c

structure Driven (t : Timer) : Prop where
  clocked : t.clocked = true
  updateCallback : t.updateCallback = false
  callbacks : ∀ c, t.callbacks c = false
  channel : ∀ c, Settled t c

section Resume
variable {t : Timer} {c d : Channel}

theorem resumeChannel_start (silent : t.callbacks d = false) (single : t.channelMode d ≠ .freqDuty) :
    resumeChannel t d = startChannel t d := by
  simp only [resumeChannel,silent,Bool.false_eq_true,if_false,startChannel_same.channelMode,if_neg single]

theorem resumeChannel_unused (silent : t.callbacks d = false) (unused : Unused t d) :
    resumeChannel t d = if t.cen then t else baseStart t := by
  rw [resumeChannel_start silent (by rw [unused.mode]; decide),startChannel,unused.mode]

theorem resumeChannel_pwm (silent : t.callbacks d = false) (mode : t.channelMode d = .pwm1) :
    resumeChannel t d = if t.isComplementary d then outputNStart t d else outputStart t d := by
  rw [resumeChannel_start silent (by rw [mode]; decide),startChannel,mode]

/-- What a start of another channel leaves to a channel. -/
structure Beside (t next : Timer) (c : Channel) : Prop where
  output : next.cce c = t.cce c
  outputN : next.ccne c = t.ccne c
  idle : next.channelBusy c = t.channelBusy c
  idleN : next.channelNBusy c = t.channelNBusy c
  counts : t.cen = true → next.cen = true

theorem baseStart_beside : Beside t (if t.cen then t else baseStart t) c := by
  split
  · exact ⟨rfl,rfl,rfl,rfl,id⟩
  · rw [baseStart]
    split
    · exact ⟨rfl,rfl,rfl,rfl,id⟩
    · exact ⟨rfl,rfl,rfl,rfl,fun _ => rfl⟩

theorem outputStart_beside (other : c ≠ d) : Beside t (outputStart t d) c := by
  rw [outputStart]
  split
  · exact ⟨rfl,rfl,rfl,rfl,id⟩
  · exact ⟨Function.update_of_ne other _ _,rfl,Function.update_of_ne other _ _,rfl,fun _ => rfl⟩

theorem outputNStart_beside (other : c ≠ d) : Beside t (outputNStart t d) c := by
  rw [outputNStart]
  split
  · exact ⟨rfl,rfl,rfl,rfl,id⟩
  · exact ⟨rfl,Function.update_of_ne other _ _,rfl,Function.update_of_ne other _ _,fun _ => rfl⟩

theorem Unused.beside {next : Timer} (unused : Unused t c) (same : Same t next) (beside : Beside t next c) : Unused next c :=
  ⟨by rw [same.channelMode]; exact unused.mode,beside.idle.trans unused.idle,beside.idleN.trans unused.idleN⟩

theorem Runs.beside {next : Timer} (runs : Runs t c) (same : Same t next) (beside : Beside t next c) : Runs next c :=
  ⟨by rw [same.channelMode]; exact runs.mode,by rw [same.configured]; exact runs.configured,
    by rw [beside.output,same.isComplementary]; exact runs.output,
    by rw [beside.outputN,same.isComplementary]; exact runs.outputN,beside.counts runs.counts⟩

theorem Prepared.beside {next : Timer} (prepared : Prepared t c) (same : Same t next) (beside : Beside t next c) :
    Prepared next c :=
  ⟨by rw [same.channelMode]; exact prepared.mode,by rw [same.configured]; exact prepared.configured,
    beside.output.trans prepared.output,beside.outputN.trans prepared.outputN,
    beside.idle.trans prepared.idle,beside.idleN.trans prepared.idleN⟩

theorem Prepared.starts (prepared : Prepared t c) (silent : t.callbacks c = false) : Runs (resumeChannel t c) c := by
  rw [resumeChannel_pwm silent prepared.mode]
  cases complementary : t.isComplementary c with
  | true =>
    rw [if_pos rfl,outputNStart,prepared.idleN,if_neg Bool.false_ne_true]
    exact ⟨prepared.mode,prepared.configured,by simp [prepared.output,complementary],by simp [complementary],rfl⟩
  | false =>
    rw [if_neg Bool.false_ne_true,outputStart,prepared.idle,if_neg Bool.false_ne_true]
    exact ⟨prepared.mode,prepared.configured,by simp [complementary],by simp [prepared.outputN,complementary],rfl⟩

theorem Runs.again (runs : Runs t c) (silent : t.callbacks c = false) : Runs (resumeChannel t c) c := by
  rw [resumeChannel_pwm silent runs.mode]
  cases complementary : t.isComplementary c with
  | true =>
    rw [if_pos rfl,outputNStart]
    split
    · exact runs
    · exact ⟨runs.mode,runs.configured,runs.output,by simp [complementary],rfl⟩
  | false =>
    rw [if_neg Bool.false_ne_true,outputStart]
    split
    · exact runs
    · exact ⟨runs.mode,runs.configured,by simp [complementary],runs.outputN,rfl⟩

/-- The channels of such a timer touch each other only by starting the counter. -/
theorem resumeChannel_beside (silent : t.callbacks d = false) (known : Settled t d ∨ Prepared t d) (other : c ≠ d) :
    Beside t (resumeChannel t d) c := by
  have mode : Unused t d ∨ t.channelMode d = .pwm1 := by
    rcases known with (unused | runs) | prepared
    · exact Or.inl unused
    · exact Or.inr runs.mode
    · exact Or.inr prepared.mode
  rcases mode with unused | mode
  · rw [resumeChannel_unused silent unused]
    exact baseStart_beside
  · rw [resumeChannel_pwm silent mode]
    split
    · exact outputNStart_beside other
    · exact outputStart_beside other

theorem resumeChannel_settled (silent : t.callbacks d = false) (known : Settled t d ∨ Prepared t d) (settled : Settled t c) :
    Settled (resumeChannel t d) c := by
  have same := resumeChannel_same t d
  by_cases here : c = d
  · subst here
    rcases settled with unused | runs
    · have started := resumeChannel_unused silent unused
      rw [started] at same ⊢
      exact Or.inl (unused.beside same baseStart_beside)
    · exact Or.inr (runs.again silent)
  · have beside := resumeChannel_beside silent known here
    exact settled.imp (·.beside same beside) (·.beside same beside)

theorem resumes_settled (channels : List Channel) (t : Timer) (silent : ∀ c, t.callbacks c = false)
    (ready : ∀ c, Settled t c ∨ Prepared t c ∧ c ∈ channels) :
    Same t (channels.foldl resumeChannel t) ∧ ∀ c, Settled (channels.foldl resumeChannel t) c := by
  induction channels generalizing t with
  | nil =>
    exact ⟨Same.rfl,fun c => (ready c).resolve_right fun prepared => absurd prepared.2 List.not_mem_nil⟩
  | cons d channels ih =>
    have same := resumeChannel_same t d
    have known : Settled t d ∨ Prepared t d := (ready d).imp_right And.left
    obtain ⟨onward,settled⟩ := ih (resumeChannel t d) (by rw [same.callbacks]; exact silent) (by
      intro c
      rcases ready c with settled | ⟨prepared,inside⟩
      · exact Or.inl (resumeChannel_settled (silent d) known settled)
      · rcases List.mem_cons.mp inside with rfl | inside
        · exact Or.inl (Or.inr (prepared.starts (silent c)))
        · by_cases here : c = d
          · subst here
            exact Or.inl (Or.inr (prepared.starts (silent c)))
          · exact Or.inr ⟨prepared.beside same (resumeChannel_beside (silent d) known here),inside⟩)
    exact ⟨same.trans onward,settled⟩

theorem setMode_prepared (unused : Unused t c) (inverted : Bool) (registers : Registers) :
    Prepared {setMode t c .pwm1 (some inverted) with registers := registers} c :=
  ⟨Function.update_self _ _ _,Function.update_self _ _ _,Function.update_self _ _ _,Function.update_self _ _ _,
    unused.idle,unused.idleN⟩

theorem setMode_settled (settled : Settled t d) (other : d ≠ c) (inverted : Bool) (registers : Registers) :
    Settled {setMode t c .pwm1 (some inverted) with registers := registers} d := by
  rcases settled with unused | runs
  · exact Or.inl ⟨(Function.update_of_ne other _ _).trans unused.mode,unused.idle,unused.idleN⟩
  · have complementary : Function.update t.isComplementary c inverted d = t.isComplementary d :=
      Function.update_of_ne other _ _
    refine Or.inr ⟨(Function.update_of_ne other _ _).trans runs.mode,
      (Function.update_of_ne other _ _).trans runs.configured,?_,?_,runs.counts⟩
    · exact (Function.update_of_ne other _ _).trans (runs.output.trans (congrArg _ complementary.symm))
    · exact (Function.update_of_ne other _ _).trans (runs.outputN.trans complementary.symm)

theorem resume_channels (quiet : t.updateCallback = false) :
    resume t = [Channel.one,.two,.three,.four].foldl resumeChannel t := by
  rw [resume,resumeUpdate,quiet,if_neg Bool.false_ne_true]
  rfl

/-- A channel that is set to its mode is started, and the timer goes on driving the others. -/
theorem start_driven (driven : Driven t) (unused : Unused t c) (inverted : Bool) (registers : Registers) :
    let started := resume {setMode t c .pwm1 (some inverted) with registers := registers}
    Driven started ∧ Runs started c ∧ started.registers = registers ∧ started.isComplementary c = inverted ∧
      started.channelMode = Function.update t.channelMode c .pwm1 := by
  obtain ⟨u,u_eq⟩ : ∃ u, u = {setMode t c .pwm1 (some inverted) with registers := registers} := ⟨_,rfl⟩
  have prepared : Prepared u c := u_eq ▸ setMode_prepared unused inverted registers
  have silent : ∀ d, u.callbacks d = false := by
    rw [u_eq]
    exact driven.callbacks
  have quiet : u.updateCallback = false := by
    rw [u_eq]
    exact driven.updateCallback
  have ready (d : Channel) : Settled u d ∨ Prepared u d ∧ d ∈ [Channel.one,.two,.three,.four] := by
    by_cases here : d = c
    · subst here
      exact Or.inr ⟨prepared,by cases d <;> decide⟩
    · exact Or.inl (u_eq ▸ setMode_settled (driven.channel d) here inverted registers)
  obtain ⟨same,settled⟩ := resumes_settled [.one,.two,.three,.four] u silent ready
  rw [← resume_channels quiet] at same settled
  have running : Runs (resume u) c := (settled c).resolve_left fun idle => by
    have mode := idle.mode
    rw [same.channelMode,prepared.mode] at mode
    exact TimerMode.noConfusion mode
  rw [← u_eq]
  refine ⟨⟨?_,same.updateCallback.trans quiet,?_,settled⟩,running,?_,?_,?_⟩
  · rw [same.clocked,u_eq]
    exact driven.clocked
  · rw [same.callbacks]
    exact silent
  · rw [same.registers,u_eq]
  · rw [same.isComplementary,u_eq]
    exact Function.update_self _ _ _
  · rw [same.channelMode,u_eq]
    rfl

end Resume

section Start
variable {board : Board} {s next : State} {p : PinName} {e : TimEntry} {freq value : UInt32} {resolution : Bits}

/-- The timers that have an object are driven. -/
def Sound (s : State) : Prop := ∀ i, s.handle i = true → Driven (s.timer i)

/-- The channel has its mode already, so that a start leaves it as it is. -/
def Already (s : State) (e : TimEntry) : Prop :=
  s.handle e.timer = true ∧ (s.timer e.timer).channelMode e.channel = .pwm1

theorem setup_driven (t : Timer) : Driven (setup t) :=
  ⟨rfl,rfl,fun _ => rfl,fun _ => Or.inl ⟨rfl,rfl,rfl⟩⟩

theorem obtainTimer_spec (sound : Sound s) (i : Nat) :
    let obtained := obtainTimer s i
    Sound obtained ∧ obtained.handle i = true ∧ (∀ j, j ≠ i → obtained.timer j = s.timer j ∧ obtained.handle j = s.handle j) ∧
      obtained.gpio = s.gpio := by
  rw [obtainTimer]
  cases present : s.handle i with
  | true => exact ⟨sound,present,fun _ _ => ⟨rfl,rfl⟩,rfl⟩
  | false =>
    rw [if_neg Bool.false_ne_true]
    refine ⟨?_,Function.update_self _ _ _,?_,rfl⟩
    · intro j held
      by_cases here : j = i
      · subst here
        simp only [setTimer,Function.update_self]
        exact setup_driven _
      · simp only [setTimer,Function.update_of_ne here] at held ⊢
        exact sound j held
    · intro j other
      exact ⟨Function.update_of_ne other _ _,Function.update_of_ne other _ _⟩

theorem obtainTimer_mode (s : State) (e : TimEntry) :
    ((obtainTimer s e.timer).timer e.timer).channelMode e.channel = .pwm1 ↔ Already s e := by
  rw [obtainTimer,Already]
  cases present : s.handle e.timer with
  | true => simp
  | false => simp [setTimer,setup]

@[simp] theorem setTimer_self (s : State) (i : Nat) (t : Timer) : (setTimer s i t).timer i = t := Function.update_self _ _ _

@[simp] theorem setTimer_other (s : State) (t : Timer) {i j : Nat} (other : j ≠ i) : (setTimer s i t).timer j = s.timer j :=
  Function.update_of_ne other _ _

@[simp] theorem setTimer_handle (s : State) (i : Nat) (t : Timer) : (setTimer s i t).handle = s.handle := rfl

@[simp] theorem setTimer_gpio (s : State) (i : Nat) (t : Timer) : (setTimer s i t).gpio = s.gpio := rfl

@[simp] theorem setTimer_again (s : State) (i : Nat) (t u : Timer) : setTimer (setTimer s i t) i u = setTimer s i u := by
  simp only [setTimer,Function.update_idem]

theorem setDuty_spec (set : setDuty board s e freq value resolution = some next) :
    ∃ registers, next = setTimer s e.timer {s.timer e.timer with registers := registers} ∧
      setCaptureCompare (board.timerClk e.timer) registers e.channel value (.resolution resolution) = some registers := by
  obtain ⟨period,_,compares⟩ := Option.bind_eq_some_iff.mp set
  obtain ⟨registers,compare,rfl⟩ := Option.map_eq_some_iff.mp compares
  exact ⟨registers,rfl,setCaptureCompare_again _ _ _ _ _ compare⟩

theorem Sound.driven {i : Nat} (sound : Sound s) (driven : Driven (next.timer i))
    (others : ∀ j, j ≠ i → next.timer j = s.timer j ∧ next.handle j = s.handle j) : Sound next := by
  intro j held
  by_cases here : j = i
  · rw [here]
    exact driven
  · rw [(others j here).1]
    exact sound j ((others j here).2 ▸ held)

theorem Driven.runs {t : Timer} {c : Channel} (driven : Driven t) (mode : t.channelMode c = .pwm1) : Runs t c := by
  refine (driven.channel c).resolve_left fun unused => ?_
  rw [unused.mode] at mode
  exact TimerMode.noConfusion mode

theorem Driven.unused {t : Timer} {c : Channel} (driven : Driven t) (mode : t.channelMode c ≠ .pwm1) : Unused t c :=
  (driven.channel c).resolve_right fun runs => mode runs.mode

theorem Driven.rewrite {t : Timer} (driven : Driven t) (registers : Registers) : Driven {t with registers := registers} :=
  ⟨driven.clocked,driven.updateCallback,driven.callbacks,fun c => (driven.channel c).imp
    (fun unused => ⟨unused.mode,unused.idle,unused.idleN⟩)
    fun runs => ⟨runs.mode,runs.configured,runs.output,runs.outputN,runs.counts⟩⟩

theorem pinFunction_frame (s : State) (p : PinName) (function : PinFunction) :
    (pinFunction s p function).timer = s.timer ∧ (pinFunction s p function).handle = s.handle := by
  unfold pinFunction
  split <;> exact ⟨rfl,rfl⟩

/-- What a start does to a channel that is in its mode already: only the registers are written. -/
theorem pwmStart_again (already : Already s e) (started : pwmStart board s p e freq value resolution = some next) :
    ∃ registers, next = setTimer (obtainTimer s e.timer) e.timer
        {(obtainTimer s e.timer).timer e.timer with registers := registers} ∧
      setCaptureCompare (board.timerClk e.timer) registers e.channel value (.resolution resolution) = some registers := by
  have mode := (obtainTimer_mode s e).mpr already
  simp only [pwmStart,mode,ne_eq,not_true_eq_false,if_false,Option.map_id'] at started
  exact setDuty_spec started

/-- And to one that is not: the pin is routed and the channel started. -/
theorem pwmStart_first (fresh : ¬ Already s e) (started : pwmStart board s p e freq value resolution = some next) :
    ∃ registers routed, routed = pinFunction (setTimer (obtainTimer s e.timer) e.timer
        (setMode ((obtainTimer s e.timer).timer e.timer) e.channel .pwm1 (some e.inverted))) p (.alternate e.afnum) ∧
      next = setTimer routed e.timer (resume {setMode ((obtainTimer s e.timer).timer e.timer) e.channel .pwm1 (some e.inverted)
        with registers := registers}) ∧
      setCaptureCompare (board.timerClk e.timer) registers e.channel value (.resolution resolution) = some registers := by
  have mode := mt (obtainTimer_mode s e).mp fresh
  simp only [pwmStart,mode,ne_eq,not_false_eq_true,if_true] at started
  obtain ⟨written,set,rfl⟩ := Option.map_eq_some_iff.mp started
  obtain ⟨registers,rfl,compare⟩ := setDuty_spec set
  refine ⟨registers,_,rfl,?_,compare⟩
  simp only [setTimer_again,setTimer_self,pinFunction_frame]

theorem pinFunction_alternate (s : State) (p : PinName) (afnum : Nat) :
    (pinFunction s p (.alternate afnum)).gpio p.line = .alternate afnum := by
  unfold pinFunction
  split
  · rename_i same
    exact absurd same PinFunction.noConfusion
  · exact Function.update_self _ _ _

theorem pwmStart_kept (already : Already s e) (started : pwmStart board s p e freq value resolution = some next) :
    next.gpio = s.gpio ∧ (next.timer e.timer).isComplementary = (s.timer e.timer).isComplementary := by
  obtain ⟨registers,rfl,_⟩ := pwmStart_again already started
  have present : obtainTimer s e.timer = s := if_pos already.1
  rw [present,setTimer_self]
  exact ⟨rfl,rfl⟩

theorem pwmStart_routed (sound : Sound s) (fresh : ¬ Already s e)
    (started : pwmStart board s p e freq value resolution = some next) :
    next.gpio p.line = .alternate e.afnum ∧ (next.timer e.timer).isComplementary e.channel = e.inverted := by
  obtain ⟨obtained,handle,_,_⟩ := obtainTimer_spec sound e.timer
  have driven := obtained e.timer handle
  obtain ⟨registers,routed,rfl,rfl,_⟩ := pwmStart_first fresh started
  obtain ⟨_,_,_,complementary,_⟩ := start_driven driven (driven.unused (mt (obtainTimer_mode s e).mp fresh)) e.inverted registers
  rw [setTimer_gpio,setTimer_self]
  exact ⟨pinFunction_alternate _ p e.afnum,complementary⟩

theorem pwmStart_spec (sound : Sound s) (started : pwmStart board s p e freq value resolution = some next) :
    Sound next ∧ next.handle e.timer = true ∧ Runs (next.timer e.timer) e.channel ∧
      setCaptureCompare (board.timerClk e.timer) (next.timer e.timer).registers e.channel value (.resolution resolution) =
        some (next.timer e.timer).registers ∧
      (∀ j, j ≠ e.timer → next.timer j = s.timer j ∧ next.handle j = s.handle j) := by
  obtain ⟨obtained,handle,others,_⟩ := obtainTimer_spec sound e.timer
  have driven := obtained e.timer handle
  by_cases already : Already s e
  · obtain ⟨registers,rfl,compare⟩ := pwmStart_again already started
    have again := driven.rewrite registers
    have mode := (obtainTimer_mode s e).mpr already
    refine ⟨obtained.driven (i := e.timer) ?_ ?_,handle,?_,?_,?_⟩
    · rw [setTimer_self]
      exact again
    · intro j other
      exact ⟨setTimer_other _ _ other,rfl⟩
    · rw [setTimer_self]
      exact again.runs mode
    · rw [setTimer_self]
      exact compare
    · intro j other
      rw [setTimer_other _ _ other]
      exact others j other
  · obtain ⟨registers,routed,rfl,rfl,compare⟩ := pwmStart_first already started
    have mode := mt (obtainTimer_mode s e).mp already
    obtain ⟨again,runs,same,_⟩ := start_driven driven (driven.unused mode) e.inverted registers
    refine ⟨obtained.driven (i := e.timer) ?_ ?_,?_,?_,?_,?_⟩
    · rw [setTimer_self]
      exact again
    · intro j other
      constructor <;> simp only [pinFunction_frame,setTimer_other _ _ other,setTimer_handle]
    · simp only [setTimer_handle,pinFunction_frame]
      exact handle
    · rw [setTimer_self]
      exact runs
    · rw [setTimer_self,same]
      exact compare
    · intro j other
      simp only [pinFunction_frame,setTimer_other _ _ other,setTimer_handle]
      exact others j other

end Start

end OpenPlc.Analog
