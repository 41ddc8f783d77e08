import OpenPlc.Lib.Agenda
import OpenPlc.Lib.Run
import OpenPlc.Lib.Wrapping

/-! The timeouts of lwIP (`timeouts.c`), which `openplc_net_process` checks. Their times wrap around. Handlers run
between two turns of the loop of `sys_check_timeouts`, and start and stop timeouts themselves. -/
namespace OpenPlc.Net.Timeouts

def lwipMaxTimeout : UInt32 := 0x7fffffff

/-- `TIME_LESS_THAN` -/
def timeLessThan (t compareTo : UInt32) : Bool := decide (lwipMaxTimeout < t - compareTo)

/-- The code has no `id` and no `due`: they tell which registration this is and when it is due on a clock without end. -/
structure SysTimeo (η α : Type*) where
  h : Option η
  arg : α
  time : UInt32
  id : Nat
  due : Nat

/-- Where `sys_check_timeouts` stands, with the time that it has read. -/
inductive Stage where
  | idle
  | checking (now : UInt32)
  | handling (now : UInt32)

/-- What was registered, what expired and when, what was removed before, and when the check began that is under way
and the last one that returned. -/
structure History (η α : Type*) where
  registered : Nat
  expired : List (SysTimeo η α × Nat)
  removed : List (SysTimeo η α)
  current : Nat
  began : Nat
  checked : Nat

structure State (η α : Type*) where
  clock : Nat
  nextTimeout : List (SysTimeo η α)
  currentTimeoutDueTime : UInt32
  stage : Stage
  history : History η α

/-- `cyclic` is what `lwip_cyclic_timer` does behind its handler, for itself as the handler `h`. -/
inductive Event (η α : Type*) where
  | tick
  | timeout (msecs : UInt32) (h : Option η) (arg : α)
  | untimeout (h : Option η) (arg : α)
  | cyclic (interval : UInt32) (h : Option η) (arg : α)
  | check
  | turn
  | returns

variable {η α : Type*}

def start (clock : Nat) : State η α := ⟨clock,[],0,.idle,⟨0,[],[],0,clock,clock⟩⟩

def sysNow (s : State η α) : UInt32 := UInt32.ofNat s.clock

/-- Nothing is registered if the pool of `capacity` places is empty. -/
def sysTimeoutAbs (capacity : Nat) (s : State η α) (absTime : UInt32) (due : Nat) (h : Option η) (arg : α) : State η α :=
  if s.nextTimeout.length < capacity then
    {s with
      nextTimeout := Agenda.insertBy (fun a b => timeLessThan a.time b.time) ⟨h,arg,absTime,s.history.registered,due⟩ s.nextTimeout
      history := {s.history with registered := s.history.registered + 1}}
  else s

def sysTimeout (capacity : Nat) (s : State η α) (msecs : UInt32) (h : Option η) (arg : α) : State η α :=
  sysTimeoutAbs capacity s (sysNow s + msecs) (s.clock + msecs.toNat) h arg

def lwipCyclicTimer (capacity : Nat) (s : State η α) (interval : UInt32) (h : Option η) (arg : α) : State η α :=
  let nextTimeoutTime := s.currentTimeoutDueTime + interval
  if timeLessThan nextTimeoutTime (sysNow s) then
    sysTimeoutAbs capacity s (sysNow s + interval) (s.clock + interval.toNat) h arg
  else sysTimeoutAbs capacity s nextTimeoutTime (s.history.current + interval.toNat) h arg

/-- The check returns: it was the one that began last. -/
def returned (s : State η α) : State η α := {s with stage := .idle, history := {s.history with checked := s.history.began}}

/-- The loop of `sys_check_timeouts` up to the call of the handler -/
def turn (s : State η α) (now : UInt32) : State η α :=
  match s.nextTimeout with
  | [] => returned s
  | tmptimeout :: next =>
    if timeLessThan now tmptimeout.time then returned s
    else {s with
      nextTimeout := next
      currentTimeoutDueTime := tmptimeout.time
      stage := if tmptimeout.h.isSome then .handling now else .checking now
      history := {s.history with expired := s.history.expired ++ [(tmptimeout,s.clock)], current := tmptimeout.due}}

def sysTimeoutsSleeptime (s : State η α) : UInt32 :=
  match s.nextTimeout with
  | [] => 0xffffffff
  | first :: _ => if timeLessThan first.time (sysNow s) then 0 else first.time - sysNow s

variable [DecidableEq η] [DecidableEq α]

def sysUntimeout (s : State η α) (h : Option η) (arg : α) : State η α :=
  {s with
    nextTimeout := s.nextTimeout.eraseP fun t => t.h = h ∧ t.arg = arg
    history := {s.history with removed := s.history.removed ++ (s.nextTimeout.find? fun t => t.h = h ∧ t.arg = arg).toList}}

def step (capacity : Nat) (s : State η α) : Event η α → Option (State η α)
  | .tick => some {s with clock := s.clock + 1}
  | .timeout msecs h arg => some (sysTimeout capacity s msecs h arg)
  | .untimeout h arg => some (sysUntimeout s h arg)
  | .cyclic interval h arg =>
    match s.stage with
    | .handling _ => some (lwipCyclicTimer capacity s interval h arg)
    | _ => none
  | .check =>
    match s.stage with
    | .idle => some {s with stage := .checking (sysNow s), history := {s.history with began := s.clock}}
    | _ => none
  | .turn =>
    match s.stage with
    | .checking now => some (turn s now)
    | _ => none
  | .returns =>
    match s.stage with
    | .handling now => some {s with stage := .checking now}
    | _ => none

/-- A timeout is at most a quarter of the period of the clock, as the code asserts, and the times are compared before
the last check that returned is as long ago. -/
def Prompt (s : State η α) : Event η α → Prop
  | .timeout msecs _ _ => msecs.toNat < 2 ^ 30 ∧ s.clock < s.history.checked + 2 ^ 30
  | .cyclic interval _ _ => interval.toNat < 2 ^ 30 ∧ s.clock < s.history.checked + 2 ^ 30
  | .turn => s.clock < s.history.checked + 2 ^ 30
  | _ => True

instance (s : State η α) (event : Event η α) : Decidable (Prompt s event) :=
  match event with
  | .timeout msecs _ _ => inferInstanceAs (Decidable (msecs.toNat < 2 ^ 30 ∧ s.clock < s.history.checked + 2 ^ 30))
  | .cyclic interval _ _ => inferInstanceAs (Decidable (interval.toNat < 2 ^ 30 ∧ s.clock < s.history.checked + 2 ^ 30))
  | .turn => inferInstanceAs (Decidable (s.clock < s.history.checked + 2 ^ 30))
  | .tick | .untimeout _ _ | .check | .returns => isTrue trivial

def Before (a b : SysTimeo η α) : Prop := a.due < b.due ∨ a.due = b.due ∧ a.id < b.id

/-- Each registration expires once, or is removed, or is pending, and none is pending that was due before the last
check; none expires early, and they do in the order in which they are due, those that are due together in the order in
which they were registered. -/
structure Kept (capacity : Nat) (s : State η α) : Prop where
  few : s.nextTimeout.length ≤ capacity
  ledger : ((s.history.expired.map Prod.fst ++ s.history.removed ++ s.nextTimeout).map SysTimeo.id).Perm
    (List.range s.history.registered)
  order : (s.history.expired.map Prod.fst ++ s.nextTimeout).Pairwise Before
  early : ∀ e ∈ s.history.expired, e.1.due ≤ e.2
  late : ∀ t ∈ s.nextTimeout, s.history.checked ≤ t.due

section Keeping
variable {capacity : Nat} {s next : State η α}

omit [DecidableEq η] [DecidableEq α] in
theorem Before.trans {a b c : SysTimeo η α} (first : Before a b) (second : Before b c) : Before a c := by
  unfold Before at *
  omega

def Staged (s : State η α) : Prop :=
  match s.stage with
  | .idle => True
  | .checking now => now = UInt32.ofNat s.history.began ∧ s.history.checked ≤ s.history.began
  | .handling now => now = UInt32.ofNat s.history.began ∧ s.history.checked ≤ s.history.current ∧
      s.history.current ≤ s.history.began ∧ s.currentTimeoutDueTime = UInt32.ofNat s.history.current

structure Inv (capacity : Nat) (s : State η α) : Prop extends Kept capacity s where
  times : ∀ t ∈ s.nextTimeout, t.time = UInt32.ofNat t.due
  soon : ∀ t ∈ s.nextTimeout, t.due < s.clock + 2 ^ 30
  past : ∀ e ∈ s.history.expired, e.2 ≤ s.clock
  began : s.history.began ≤ s.clock
  checked : s.history.checked ≤ s.clock
  staged : Staged s

omit [DecidableEq η] [DecidableEq α] in
theorem Inv.ids (inv : Inv capacity s) (t : SysTimeo η α)
    (among : t ∈ s.history.expired.map Prod.fst ++ s.history.removed ++ s.nextTimeout) : t.id < s.history.registered := by
  have member := List.mem_map_of_mem (f := SysTimeo.id) among
  exact List.mem_range.mp (inv.ledger.mem_iff.mp member)

omit [DecidableEq η] [DecidableEq α] in
theorem inv_insert (inv : Inv capacity s) (prompt : s.clock < s.history.checked + 2 ^ 30) (due : Nat) (first : s.clock ≤ due)
    (last : due < s.clock + 2 ^ 30) (absTime : UInt32) (time : absTime = UInt32.ofNat due) (h : Option η) (arg : α) :
    Inv capacity (sysTimeoutAbs capacity s absTime due h arg) := by
  rw [sysTimeoutAbs]
  split_ifs with room
  · have mem (t : SysTimeo η α) : t ∈ Agenda.insertBy (fun a b => timeLessThan a.time b.time)
        ⟨h,arg,absTime,s.history.registered,due⟩ s.nextTimeout ↔ t = ⟨h,arg,absTime,s.history.registered,due⟩ ∨ t ∈ s.nextTimeout :=
      Agenda.mem_insertBy
    have perm : (Agenda.insertBy (fun a b => timeLessThan a.time b.time) ⟨h,arg,absTime,s.history.registered,due⟩
        s.nextTimeout).Perm (⟨h,arg,absTime,s.history.registered,due⟩ :: s.nextTimeout) :=
      Agenda.insertBy_perm _ s.nextTimeout
    have compared (t : SysTimeo η α) (among : t ∈ s.nextTimeout) : timeLessThan absTime t.time = decide (due < t.due) := by
      have late := inv.late t among
      have soon := inv.soon t among
      rw [timeLessThan,time,inv.times t among,decide_eq_decide]
      exact Wrapping.half_lt_sub_iff due t.due (by omega) (by omega)
    obtain ⟨gone,ordered,later⟩ := List.pairwise_append.mp inv.order
    refine ⟨⟨?_,?_,?_,inv.early,?_⟩,?_,?_,inv.past,inv.began,inv.checked,inv.staged⟩
    · rw [perm.length_eq]
      exact room
    · rw [List.range_succ]
      refine ((perm.append_left _).map SysTimeo.id).trans ((List.perm_middle.map SysTimeo.id).trans ?_)
      exact (inv.ledger.cons s.history.registered).trans (List.perm_append_singleton _ _).symm
    · refine List.pairwise_append.mpr ⟨gone,?_,?_⟩
      · refine Agenda.insertBy_pairwise (R := Before) Before.trans _ _ ordered ?_ ?_
        · intro b among less
          rw [compared b among] at less
          exact Or.inl (of_decide_eq_true less)
        · intro b among less
          rw [compared b among] at less
          have id := inv.ids b (List.mem_append_right _ among)
          have least := of_decide_eq_false less
          unfold Before
          dsimp only
          omega
      · intro a before b among
        rcases (mem b).mp among with rfl | among
        · obtain ⟨e,member,rfl⟩ := List.mem_map.mp before
          have early := inv.early e member
          have past := inv.past e member
          have id := inv.ids e.1 (List.mem_append_left _ (List.mem_append_left _ before))
          unfold Before
          dsimp only
          omega
        · exact later a before b among
    · intro t among
      rcases (mem t).mp among with rfl | among
      · exact inv.checked.trans first
      · exact inv.late t among
    · intro t among
      rcases (mem t).mp among with rfl | among
      · exact time
      · exact inv.times t among
    · intro t among
      rcases (mem t).mp among with rfl | among
      · exact last
      · exact inv.soon t among
  · exact inv

omit [DecidableEq η] [DecidableEq α] in
theorem inv_timeout (inv : Inv capacity s) (msecs : UInt32) (prompt : s.clock < s.history.checked + 2 ^ 30)
    (short : msecs.toNat < 2 ^ 30) (h : Option η) (arg : α) : Inv capacity (sysTimeout capacity s msecs h arg) :=
  inv_insert inv prompt _ (Nat.le_add_right _ _) (by omega) _ (Wrapping.ofNat_add s.clock msecs) h arg

omit [DecidableEq η] [DecidableEq α] in
/-- A cyclic timer is due again an interval after it was due, unless that is over already. -/
theorem inv_cyclic (inv : Inv capacity s) {now : UInt32} (handling : s.stage = .handling now) (interval : UInt32)
    (prompt : s.clock < s.history.checked + 2 ^ 30) (short : interval.toNat < 2 ^ 30) (h : Option η) (arg : α) :
    Inv capacity (lwipCyclicTimer capacity s interval h arg) := by
  have staged := inv.staged
  rw [Staged,handling] at staged
  obtain ⟨_,least,most,due⟩ := staged
  have began := inv.began
  have time : s.currentTimeoutDueTime + interval = UInt32.ofNat (s.history.current + interval.toNat) := by
    rw [due,Wrapping.ofNat_add]
  have overload : timeLessThan (s.currentTimeoutDueTime + interval) (sysNow s) =
      decide (s.history.current + interval.toNat < s.clock) := by
    rw [timeLessThan,time,decide_eq_decide]
    exact Wrapping.half_lt_sub_iff _ _ (by omega) (by omega)
  simp only [lwipCyclicTimer,overload,decide_eq_true_eq]
  split_ifs with over_
  · exact inv_insert inv prompt _ (Nat.le_add_right _ _) (by omega) _ (Wrapping.ofNat_add s.clock interval) h arg
  · exact inv_insert inv prompt _ (Nat.le_of_not_lt over_) (by omega) _ time h arg

theorem inv_untimeout (inv : Inv capacity s) (h : Option η) (arg : α) : Inv capacity (sysUntimeout s h arg) := by
  have kept : (s.nextTimeout.eraseP fun t => t.h = h ∧ t.arg = arg).Sublist s.nextTimeout := List.eraseP_sublist
  refine ⟨⟨kept.length_le.trans inv.few,?_,inv.order.sublist ((List.Sublist.refl _).append kept),inv.early,
    fun t among => inv.late t (kept.mem among)⟩,fun t among => inv.times t (kept.mem among),
    fun t among => inv.soon t (kept.mem among),inv.past,inv.began,inv.checked,inv.staged⟩
  have split := Agenda.eraseP_perm (fun t : SysTimeo η α => decide (t.h = h ∧ t.arg = arg)) s.nextTimeout
  refine List.Perm.trans (List.Perm.map SysTimeo.id ?_) inv.ledger
  simp only [sysUntimeout,List.append_assoc]
  exact (split.append_left _).append_left _

omit [DecidableEq η] [DecidableEq α] in
theorem inv_returned (inv : Inv capacity s) (late : ∀ t ∈ s.nextTimeout, s.history.began ≤ t.due) :
    Inv capacity (returned s) :=
  ⟨⟨inv.few,inv.ledger,inv.order,inv.early,late⟩,inv.times,inv.soon,inv.past,inv.began,inv.began,trivial⟩

omit [DecidableEq η] [DecidableEq α] in
theorem inv_expire (inv : Inv capacity s) (first : SysTimeo η α) (rest : List (SysTimeo η α)) (queue : s.nextTimeout = first :: rest)
    (due : first.due ≤ s.history.began) {stage : Stage}
    (staged : Staged ⟨s.clock,rest,first.time,stage,
      {s.history with expired := s.history.expired ++ [(first,s.clock)], current := first.due}⟩) :
    Inv capacity ⟨s.clock,rest,first.time,stage,
      {s.history with expired := s.history.expired ++ [(first,s.clock)], current := first.due}⟩ := by
  obtain ⟨⟨few,ledger,order,early,late⟩,times,soon,past,began,checked,_⟩ := inv
  rw [queue] at few ledger order late times soon
  have expired : (s.history.expired ++ [(first,s.clock)]).map Prod.fst = s.history.expired.map Prod.fst ++ [first] := List.map_append
  refine ⟨⟨(Nat.le_succ _).trans few,?_,?_,?_,fun t among => late t (List.mem_cons_of_mem _ among)⟩,
    fun t among => times t (List.mem_cons_of_mem _ among),fun t among => soon t (List.mem_cons_of_mem _ among),?_,began,checked,staged⟩
  · refine List.Perm.trans (List.Perm.map SysTimeo.id ?_) ledger
    simp only [expired,List.append_assoc,List.singleton_append]
    exact (List.perm_middle.symm).append_left _
  · simp only [expired,List.append_assoc,List.singleton_append]
    exact order
  · intro e among
    rcases List.mem_append.mp among with before | last
    · exact early e before
    · cases List.mem_singleton.mp last
      exact due.trans began
  · intro e among
    rcases List.mem_append.mp among with before | last
    · exact past e before
    · cases List.mem_singleton.mp last
      exact le_refl s.clock

omit [DecidableEq η] [DecidableEq α] in
theorem inv_turn (inv : Inv capacity s) {now : UInt32} (checking : s.stage = .checking now)
    (prompt : s.clock < s.history.checked + 2 ^ 30) : Inv capacity (turn s now) := by
  have staged := inv.staged
  rw [Staged,checking] at staged
  obtain ⟨rfl,least⟩ := staged
  have began := inv.began
  rw [turn]
  cases queue : s.nextTimeout with
  | nil => exact inv_returned inv fun t among => absurd (queue ▸ among) List.not_mem_nil
  | cons first rest =>
    have head : first ∈ s.nextTimeout := queue ▸ List.mem_cons_self
    have late := inv.late first head
    have soon := inv.soon first head
    have order := inv.order
    rw [queue] at order
    have ahead : timeLessThan (UInt32.ofNat s.history.began) first.time = decide (s.history.began < first.due) := by
      rw [timeLessThan,inv.times first head,decide_eq_decide]
      exact Wrapping.half_lt_sub_iff _ _ (by omega) (by omega)
    simp only [ahead,decide_eq_true_eq]
    by_cases pending : s.history.began < first.due
    · rw [if_pos pending]
      refine inv_returned inv fun t among => ?_
      rw [queue] at among
      rcases List.mem_cons.mp among with rfl | later
      · exact pending.le
      · have follows := (List.pairwise_cons.mp (List.pairwise_append.mp order).2.1).1 t later
        unfold Before at follows
        omega
    · rw [if_neg pending]
      refine inv_expire inv first rest queue (Nat.le_of_not_lt pending) ?_
      cases first.h with
      | none => exact ⟨rfl,least⟩
      | some h => exact ⟨rfl,late,Nat.le_of_not_lt pending,inv.times first head⟩

theorem inv_step (event : Event η α) (inv : Inv capacity s) (prompt : Prompt s event)
    (taken : step capacity s event = some next) : Inv capacity next := by
  cases event with
  | tick =>
    cases Option.some.inj taken
    exact ⟨⟨inv.few,inv.ledger,inv.order,inv.early,inv.late⟩,inv.times,fun t among =>
        (inv.soon t among).trans_le (Nat.add_le_add_right (Nat.le_succ s.clock) _),
      fun e among => Nat.le_succ_of_le (inv.past e among),Nat.le_succ_of_le inv.began,Nat.le_succ_of_le inv.checked,inv.staged⟩
  | timeout msecs h arg =>
    cases Option.some.inj taken
    exact inv_timeout inv msecs prompt.2 prompt.1 h arg
  | untimeout h arg =>
    cases Option.some.inj taken
    exact inv_untimeout inv h arg
  | cyclic interval h arg =>
    rw [step] at taken
    split at taken
    · rename_i now handling
      cases Option.some.inj taken
      exact inv_cyclic inv handling interval prompt.2 prompt.1 h arg
    · contradiction
  | check =>
    rw [step] at taken
    split at taken
    · cases Option.some.inj taken
      exact ⟨⟨inv.few,inv.ledger,inv.order,inv.early,inv.late⟩,inv.times,inv.soon,inv.past,le_refl s.clock,inv.checked,rfl,inv.checked⟩
    · contradiction
  | turn =>
    rw [step] at taken
    split at taken
    · rename_i now checking
      cases Option.some.inj taken
      exact inv_turn inv checking prompt
    · contradiction
  | returns =>
    rw [step] at taken
    split at taken
    · rename_i now handling
      cases Option.some.inj taken
      have staged := inv.staged
      rw [Staged,handling] at staged
      obtain ⟨same,least,most,_⟩ := staged
      exact ⟨⟨inv.few,inv.ledger,inv.order,inv.early,inv.late⟩,inv.times,inv.soon,inv.past,inv.began,inv.checked,same,least.trans most⟩
    · contradiction

omit [DecidableEq η] [DecidableEq α] in
theorem inv_start (clock : Nat) : Inv capacity (start (η := η) (α := α) clock) :=
  ⟨⟨Nat.zero_le capacity,List.Perm.refl _,List.Pairwise.nil,nofun,nofun⟩,nofun,nofun,nofun,le_refl clock,le_refl clock,trivial⟩

omit [DecidableEq η] [DecidableEq α] in
theorem sleeptime_eq (inv : Inv capacity s) (prompt : s.clock < s.history.checked + 2 ^ 30) (first : SysTimeo η α)
    (head : s.nextTimeout.head? = some first) : (sysTimeoutsSleeptime s).toNat = first.due - s.clock := by
  obtain ⟨rest,queue⟩ := List.head?_eq_some_iff.mp head
  have among : first ∈ s.nextTimeout := queue ▸ List.mem_cons_self
  have late := inv.late first among
  have soon := inv.soon first among
  have expired : timeLessThan first.time (sysNow s) = decide (first.due < s.clock) := by
    rw [timeLessThan,inv.times first among,decide_eq_decide]
    exact Wrapping.half_lt_sub_iff _ _ (by omega) (by omega)
  simp only [sysTimeoutsSleeptime,queue,expired,decide_eq_true_eq]
  split_ifs with past
  · rw [Nat.sub_eq_zero_of_le past.le]
    rfl
  · rw [inv.times first among]
    exact Wrapping.elapsed_ofNat s.clock first.due (Nat.le_of_not_lt past) (by omega)

/-- However the calls, the handlers and the clock interleave, and wherever the clock wraps around, and what a caller
would sleep is the time up to the next one. -/
theorem timeouts_kept (capacity clock : Nat) (events : List (Event η α)) (s : State η α)
    (reached : Run.after (step capacity) (start clock) events = some s)
    (prompt : Run.Meets Prompt (step capacity) (start clock) events) :
    Kept capacity s ∧ ∀ first, s.nextTimeout.head? = some first → s.clock < s.history.checked + 2 ^ 30 →
      (sysTimeoutsSleeptime s).toNat = first.due - s.clock := by
  have throughout := Run.throughout_of_meets (Inv capacity) (Inv capacity) Prompt (fun _ inv => inv)
    (fun _ event _ inv prompt taken => inv_step event inv prompt taken) (start clock) events (inv_start clock) prompt
  have inv := throughout events s (List.prefix_refl events) reached
  exact ⟨inv.toKept,fun first head within => sleeptime_eq inv within first head⟩

/-- Two timeouts are registered in front of the wrap around of the clock, of which the second is due first. -/
def wrapping : List (Event Nat Unit) :=
  [.timeout 9 (some 1) (),.timeout 5 (some 2) (),.tick,.tick,.tick,.tick,.tick,.tick,.check,.turn,.cyclic 5 (some 2) (),.returns,.turn]

theorem timeouts_kept_wrapping :
    ∃ s, Run.after (step 10) (start (2 ^ 32 - 3)) wrapping = some s ∧ Kept 10 s ∧ (sysTimeoutsSleeptime s).toNat = 3 := by
  have meets : Run.Meets Prompt (step 10) (start (2 ^ 32 - 3)) wrapping := by decide +kernel
  have shown : (Run.after (step 10) (start (2 ^ 32 - 3)) wrapping).map
      (fun s => (s.nextTimeout.head?.map SysTimeo.due,s.clock,s.history.checked)) =
        some (some (2 ^ 32 + 6),2 ^ 32 + 3,2 ^ 32 + 3) := by decide +kernel
  obtain ⟨s,reached,facts⟩ := Option.map_eq_some_iff.mp shown
  simp only [Prod.mk.injEq] at facts
  obtain ⟨queue,clock,checked⟩ := facts
  obtain ⟨first,head,due⟩ := Option.map_eq_some_iff.mp queue
  obtain ⟨kept,sleeps⟩ := timeouts_kept 10 (2 ^ 32 - 3) wrapping s reached meets
  refine ⟨s,reached,kept,?_⟩
  rw [sleeps first head (by rw [clock,checked]; decide),due,clock]
  rfl

end Keeping

end OpenPlc.Net.Timeouts
