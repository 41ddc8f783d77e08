import OpenPlc.Serial.Reader
import OpenPlc.Serial.Waveform

/-! Two boards: the transmit pin of a software port on one is wired to the receive pin of a software port on the other.
Each board has a timer of its own, and a program that is interrupted by it anywhere. -/
namespace OpenPlc.Serial.SoftwareSerial.Link
open OpenPlc.Signal

/-- The times of the ticks of the sender, where those of the receiver are `0`, `1` and so on. -/
structure Clocks where
  phase : ℚ
  interval : ℚ
  later : 0 ≤ phase
  slow : 97 / 100 ≤ interval
  fast : interval ≤ 103 / 100

/-- At tick `k` of the receiver the sender has had `m` ticks. -/
def Clocks.Due (clocks : Clocks) (m k : Nat) : Prop :=
  (m = 0 ∨ clocks.phase + (m - 1) * clocks.interval ≤ k) ∧ (k : ℚ) < clocks.phase + m * clocks.interval

instance (clocks : Clocks) (m k : Nat) : Decidable (clocks.Due m k) :=
  inferInstanceAs (Decidable ((m = 0 ∨ clocks.phase + (m - 1) * clocks.interval ≤ k) ∧ (k : ℚ) < clocks.phase + m * clocks.interval))

/-- A byte as the receiver sees it. -/
def Clocks.arrives (clocks : Clocks) (w : Nat × UInt8) : Frame ℚ := ⟨clocks.phase + (w.1 + 2) * clocks.interval,w.2⟩

variable {ι κ : Type}

structure Boards (ι κ : Type) where
  sender : Session ι
  receiver : Reader.Session κ

inductive Event (ι : Type) where
  | send (event : SoftwareSerial.Event ι)
  | receive (event : Reader.Event)

def Event.bytes : Event ι → List UInt8
  | .send event => event.bytes
  | .receive _ => []

variable [DecidableEq ι] [DecidableEq κ]

/-- The levels of the receive pins, with the wire at the one of `reader`. -/
def wired (sender : ι) (reader : κ) (pins : Nat → κ → Bool) (s : Boards ι κ) (k : Nat) : κ → Bool :=
  Function.update (pins k) reader (s.sender.serial.port sender).transmitPin

def receive (sender : ι) (reader : κ) (pins : Nat → κ → Bool) (s : Boards ι κ) (event : Reader.Event) : Option (Boards ι κ) :=
  (Reader.step reader (wired sender reader pins s) s.receiver event).map fun next => {s with receiver := next}

def step (sender : ι) (reader : κ) (clocks : Clocks) (pins : Nat → κ → Bool) (s : Boards ι κ) : Event ι → Option (Boards ι κ)
  | .send event => (s.sender.step sender event).map fun next => {s with sender := next}
  | .receive .tick => if clocks.Due s.sender.line.length s.receiver.ticks then receive sender reader pins s .tick else none
  | .receive event => receive sender reader pins s event

section Wire
variable {sender : ι} {inverse : Bool} {s next : Session ι}

/-- The transmit pin has the level that it got at the last tick. -/
structure Driven (sender : ι) (inverse : Bool) (s : Session ι) : Prop where
  sound : s.Sound sender inverse
  pin : (s.serial.port sender).transmitPin = s.line.getLast?.getD (!inverse)

theorem driven_step (driven : Driven sender inverse s) (event : SoftwareSerial.Event ι) (taken : s.step sender event = some next) :
    Driven sender inverse next ∧ s.line <+: next.line := by
  obtain ⟨sound,pin⟩ := driven
  have staged := sound.staged
  have onward := Session.step_sound sound taken
  cases Session.step_takes taken with
  | call b idle => exact ⟨⟨onward,(request_steady s.serial sender).transmitPin.trans pin⟩,List.prefix_refl _⟩
  | waits b waiting => exact ⟨⟨onward,pin⟩,List.prefix_refl _⟩
  | begins b waiting free => exact ⟨⟨onward,pin⟩,List.prefix_refl _⟩
  | loads b done assign loading next more =>
    rw [loading] at staged
    obtain ⟨_,same,_⟩ := load_loads staged.2 sound.full sound.inverseLogic more assign next
    exact ⟨⟨onward,same.trans pin⟩,List.prefix_refl _⟩
  | returns b done assign loading next last =>
    rw [loading] at staged
    have few := staged.1
    have seven : done = 7 := by
      rw [show (load sender b).length = 8 from rfl] at last
      omega
    subst seven
    cases Option.some.inj next
    exact ⟨⟨onward,pin⟩,List.prefix_refl _⟩
  | ticks pins =>
    refine ⟨⟨onward,?_⟩,List.prefix_append s.line _⟩
    rw [List.getLast?_concat]
    rfl

theorem driven_start (serial first : State ι) (speed : UInt32) (silent : serial.activeOut = none)
    (full : (serial.port sender).halfDuplex = false) (begun : begin serial sender speed = some first) :
    Driven sender (serial.port sender).inverseLogic (.start first) := by
  refine ⟨Session.start_sound serial first sender speed silent full begun,?_⟩
  rw [Session.start,(begin_full serial first sender speed full begun).1]
  rfl

theorem arrives_rests (clocks : Clocks) (written : List (Nat × UInt8)) (t : ℚ) (before : t < clocks.phase) :
    line (3 * clocks.interval) ((written.map clocks.arrives).map Frame.burst) t = true := by
  apply line_rests
  intro burst among begun
  obtain ⟨frame,member,rfl⟩ := List.mem_map.mp among
  obtain ⟨w,_,rfl⟩ := List.mem_map.mp member
  have first : clocks.phase + (w.1 + 2) * clocks.interval ≤ t := begun
  have ahead : 0 ≤ ((w.1 : ℚ) + 2) * clocks.interval := mul_nonneg (by positivity) (by linarith [clocks.slow])
  linarith

/-- From tick `n` of the sender to the next one the receiver sees the level of tick `n`. -/
theorem arrives_level (clocks : Clocks) (written : List (Nat × UInt8)) (n : Nat) (t : ℚ)
    (begun : clocks.phase + n * clocks.interval ≤ t) (on : t < clocks.phase + (n + 1) * clocks.interval) :
    line (3 * clocks.interval) ((written.map clocks.arrives).map Frame.burst) t = level written n := by
  have positive : 0 < clocks.interval := by linarith [clocks.slow]
  have first : (n : ℚ) ≤ (t - clocks.phase) / clocks.interval := (le_div_iff₀ positive).mpr (by linarith)
  have last : (t - clocks.phase) / clocks.interval < n + 1 := (div_lt_iff₀ positive).mpr (by linarith)
  have time : clocks.phase + (t - clocks.phase) / clocks.interval * clocks.interval = t := by
    rw [div_mul_cancel₀ _ positive.ne',add_sub_cancel]
  have frames : (written.map clocks.arrives).map Frame.burst =
      (written.map fun w => (sent w).burst).map (Burst.scale clocks.interval clocks.phase) := by
    rw [List.map_map,List.map_map]
    rfl
  have scaled : _ = line (3 : ℚ) _ _ := line_scale positive clocks.phase ((t - clocks.phase) / clocks.interval)
    (written.map fun w => (sent w).burst)
  rw [time,← frames] at scaled
  have whole : ∀ burst ∈ written.map (fun w => (sent w).burst), ∃ start : Nat, burst.start = start := by
    intro burst member
    obtain ⟨w,_,rfl⟩ := List.mem_map.mp member
    exact ⟨w.1 + 2,by simp [sent,Frame.burst]⟩
  exact scaled.trans (line_step (p := 3) first last _ whole)

omit [DecidableEq ι] in
/-- What the wire has at a tick of the receiver is what the frames say that are sent by the end. -/
theorem wire_level (clocks : Clocks) {final : Session ι} (driven : Driven sender inverse s) (sound : final.Sound sender inverse)
    (before : s.line <+: final.line) (k : Nat) (due : clocks.Due s.line.length k) :
    (s.serial.port sender).transmitPin =
      (line (3 * clocks.interval) ((final.written.map clocks.arrives).map Frame.burst) (k : ℚ) ^^ inverse) := by
  obtain ⟨since,until_⟩ := due
  rw [driven.pin]
  rcases List.eq_nil_or_concat s.line with none_ | ⟨rest,last,split⟩
  · rw [none_,List.length_nil,Nat.cast_zero,zero_mul,add_zero] at until_
    rw [none_,arrives_rests clocks final.written k until_,Bool.true_xor]
    rfl
  · rw [List.concat_eq_append] at split
    have length : s.line.length = rest.length + 1 := by rw [split,List.length_append,List.length_singleton]
    have inside : rest.length < final.line.length := by
      have most := before.length_le
      omega
    have shown : final.line[rest.length] = last := by
      rw [← before.getElem (by omega)]
      simp [split]
    have begun : clocks.phase + rest.length * clocks.interval ≤ k := by
      rcases since with none_ | since
      · omega
      · rw [length] at since
        push_cast at since
        linarith
    rw [length] at until_
    push_cast at until_
    rw [split,List.getLast?_concat,Option.getD_some,arrives_level clocks final.written rest.length k begun until_,← shown]
    exact sound.levels rest.length inside

end Wire

section Run
variable {sender : ι} {reader : κ} {clocks : Clocks} {pins : Nat → κ → Bool} {inverse : Bool} {s next first link : Boards ι κ}

theorem arrives_apart (clocks : Clocks) {written : List (Nat × UInt8)} (apart : Apart written) :
    (written.map clocks.arrives).Pairwise fun f g => f.start + 10 * (3 * clocks.interval) ≤ g.start := by
  rw [List.pairwise_map]
  apply apart.imp
  intro v w ordered
  have cast : (v.1 : ℚ) + 33 ≤ w.1 := by exact_mod_cast ordered
  have spaced : 30 * clocks.interval ≤ (w.1 - v.1) * clocks.interval :=
    mul_le_mul_of_nonneg_right (by linarith) (by linarith [clocks.slow])
  simp only [Clocks.arrives]
  linarith

/-- The two programs with the wire between them, while no more is sent than `final` tells. -/
structure Joined (sender : ι) (reader : κ) (clocks : Clocks) (inverse : Bool) (final : Session ι) (s : Boards ι κ) : Prop where
  driven : Driven sender inverse s.sender
  heard : s.sender.line <+: final.line → Reader.Inv reader inverse (final.written.map clocks.arrives) s.receiver

omit [DecidableEq ι] in
theorem receive_joined {final : Session ι} (joined : Joined sender reader clocks inverse final s)
    (sound : final.Sound sender inverse) (event : Reader.Event)
    (due : event = .tick → clocks.Due s.sender.line.length s.receiver.ticks)
    (taken : receive sender reader pins s event = some next) : Joined sender reader clocks inverse final next := by
  obtain ⟨receiver,moved,rfl⟩ := Option.map_eq_some_iff.mp taken
  refine ⟨joined.driven,fun before => ?_⟩
  have inv := joined.heard before
  have slow : 291 / 100 ≤ 3 * clocks.interval := by linarith [clocks.slow]
  have fast : 3 * clocks.interval ≤ 309 / 100 := by linarith [clocks.fast]
  cases event with
  | tick =>
    refine Reader.inv_tick slow fast (arrives_apart clocks sound.apart) inv ?_ moved
    rw [wired,Function.update_self]
    exact wire_level clocks joined.driven sound before s.receiver.ticks (due rfl)
  | call operation => exact Reader.inv_call inv moved
  | run => exact Reader.inv_run inv moved

theorem joined_step {final : Session ι} (joined : Joined sender reader clocks inverse final s)
    (sound : final.Sound sender inverse) (event : Event ι) (taken : step sender reader clocks pins s event = some next) :
    Joined sender reader clocks inverse final next := by
  cases event with
  | send event =>
    obtain ⟨session,moved,rfl⟩ := Option.map_eq_some_iff.mp taken
    obtain ⟨driven,longer⟩ := driven_step joined.driven event moved
    exact ⟨driven,fun before => joined.heard (longer.trans before)⟩
  | receive event =>
    cases event with
    | tick =>
      rw [step] at taken
      split_ifs at taken with due
      exact receive_joined joined sound .tick (fun _ => due) taken
    | call operation => exact receive_joined joined sound (.call operation) nofun taken
    | run => exact receive_joined joined sound .run nofun taken

theorem sender_step (event : Event ι) (taken : step sender reader clocks pins s event = some next)
    (driven : Driven sender inverse s.sender) :
    Driven sender inverse next.sender ∧ next.sender.written.map Prod.snd ++ next.sender.stage.bytes =
      s.sender.written.map Prod.snd ++ s.sender.stage.bytes ++ event.bytes := by
  have idle (event : Reader.Event) (taken : receive sender reader pins s event = some next) :
      Driven sender inverse next.sender ∧ next.sender.written.map Prod.snd ++ next.sender.stage.bytes =
        s.sender.written.map Prod.snd ++ s.sender.stage.bytes ++ [] := by
    obtain ⟨receiver,_,rfl⟩ := Option.map_eq_some_iff.mp taken
    exact ⟨driven,(List.append_nil _).symm⟩
  cases event with
  | send event =>
    obtain ⟨session,moved,rfl⟩ := Option.map_eq_some_iff.mp taken
    exact ⟨(driven_step driven event moved).1,Session.step_bytes moved⟩
  | receive event =>
    cases event with
    | tick =>
      rw [step] at taken
      split_ifs at taken
      exact idle .tick taken
    | call operation => exact idle (.call operation) taken
    | run => exact idle .run taken

theorem sender_after {events : List (Event ι)} (reached : Run.after (step sender reader clocks pins) first events = some link)
    (driven : Driven sender inverse first.sender) :
    Driven sender inverse link.sender ∧ link.sender.written.map Prod.snd ++ link.sender.stage.bytes =
      first.sender.written.map Prod.snd ++ first.sender.stage.bytes ++ events.flatMap Event.bytes := by
  induction events generalizing first with
  | nil =>
    cases Option.some.inj reached
    exact ⟨driven,(List.append_nil _).symm⟩
  | cons event rest ih =>
    rw [Run.after_cons] at reached
    obtain ⟨t,taken,onward⟩ := Option.bind_eq_some_iff.mp reached
    obtain ⟨moved,bytes⟩ := sender_step event taken driven
    obtain ⟨final,all⟩ := ih onward moved
    exact ⟨final,by rw [all,bytes,List.flatMap_cons,List.append_assoc]⟩

/-- A port that is about to listen for the first time. -/
structure Fresh (s : State κ) (reader : κ) : Prop where
  silent : s.activeOut = none
  other : s.activeListener ≠ some reader
  full : (s.port reader).halfDuplex = false
  sound : (s.port reader).Sound
  empty : (s.port reader).tail = (s.port reader).head
  clear : (s.port reader).bufferOverflow = false

theorem begin_fresh {s ready : State κ} (fresh : Fresh s reader) (speed : UInt32) (begun : begin s reader speed = some ready) :
    Armed ready reader ∧ ready.rxTickCnt = 1 ∧
      ready.port reader = {s.port reader with speed := speed, transmitPin := !(s.port reader).inverseLogic} := by
  have port := (begin_full s ready reader speed fresh.full begun).1
  have half : ((modify s reader fun port => {port with speed := speed}).port reader).halfDuplex = false := by
    simp [modify,fresh.full]
  simp only [begin,half,Bool.not_false,if_true] at begun
  obtain ⟨next,listens,armed,_,now⟩ := listen_armed
    (setTX (modify s reader fun port => {port with speed := speed}) reader) reader fresh.silent fresh.other
    (by simp only [setTX,modify,Function.update_self]; exact ⟨fresh.sound.head,fresh.sound.tail⟩)
  cases Option.some.inj (begun.symm.trans listens)
  exact ⟨armed,now (by simp [setTX,modify,fresh.full]),port⟩

omit [DecidableEq ι] in
theorem joined_start {s ready : State κ} (fresh : Fresh s reader) (speed : UInt32) (begun : begin s reader speed = some ready)
    {session final : Session ι} (driven : Driven sender (s.port reader).inverseLogic session) :
    Joined sender reader clocks (s.port reader).inverseLogic final ⟨session,Reader.start ready⟩ := by
  obtain ⟨armed,now,port⟩ := begin_fresh fresh speed begun
  refine ⟨driven,fun _ => ?_⟩
  have same : (ready.port reader).inverseLogic = (s.port reader).inverseLogic := by rw [port]
  rw [← same]
  refine Reader.inv_start ready armed (by rw [port]; exact fresh.empty) (by rw [port]; exact fresh.clear) ?_
  intro frame member
  obtain ⟨w,_,rfl⟩ := List.mem_map.mp member
  have ahead : 0 ≤ ((w.1 : ℚ) + 2) * clocks.interval := mul_nonneg (by positivity) (by linarith [clocks.slow])
  have later := clocks.later
  simp only [Clocks.arrives,now]
  norm_num
  linarith

/-- What one program writes the other one reads, in its order, whatever interrupts their calls. The bytes of the frames
that ended have come in, and as long as the flag is clear all of them are returned or wait in the buffer. -/
theorem link_delivers (clocks : Clocks) (sender : ι) (reader : κ) (s first : State ι) (speed : UInt32)
    (silent : s.activeOut = none) (full : (s.port sender).halfDuplex = false) (begun : begin s sender speed = some first)
    (t ready : State κ) (rate : UInt32) (fresh : Fresh t reader) (listens : begin t reader rate = some ready)
    (polarity : (t.port reader).inverseLogic = (s.port sender).inverseLogic) (pins : Nat → κ → Bool) (events : List (Event ι))
    (link : Boards ι κ)
    (reached : Run.after (step sender reader clocks pins) ⟨.start first,Reader.start ready⟩ events = some link) :
    Reader.Gets reader ((link.sender.written.filter fun w =>
      decide ((clocks.arrives w).start + 29 ≤ link.receiver.ticks)).map Prod.snd) link.receiver ∧
    ((link.receiver.serial.port reader).bufferOverflow = false →
      Receive.returned link.receiver.log ++ (link.receiver.serial.port reader).stored <+: events.flatMap Event.bytes) := by
  have start : Driven sender (t.port reader).inverseLogic (.start first) := by
    rw [polarity]
    exact driven_start s first speed silent full begun
  obtain ⟨final,bytes⟩ := sender_after reached start
  have joined : Joined sender reader clocks (t.port reader).inverseLogic link.sender link :=
    Run.invariant (Joined sender reader clocks (t.port reader).inverseLogic link.sender)
      (fun _ event _ joined taken => joined_step joined final.sound event taken) _ link events
      (joined_start fresh rate listens start) reached
  have inv := joined.heard (List.prefix_refl _)
  obtain ⟨gets,front⟩ := Reader.gets_of_inv (by linarith [clocks.slow]) (arrives_apart clocks final.sound.apart) inv
  rw [List.filter_map,List.map_map] at gets
  rw [List.map_map] at front
  refine ⟨gets,fun clear => ?_⟩
  rw [gets.whole clear,← gets.received]
  have written : link.sender.written.map Prod.snd <+: events.flatMap Event.bytes := ⟨link.sender.stage.bytes,bytes⟩
  exact front.trans written

/-- A call of `write`, and the ticks of both boards one behind the other. -/
def oneByte : List (Event Unit) :=
  .send (.call 65) :: List.replicate 9 (.send .run) ++
    (List.replicate 40 [.send (.tick fun _ => true),.receive .tick]).flatten ++ [.receive (.call .read),.receive .run]

/-- Both clocks have the same rate. -/
def even : Clocks := ⟨0,1,le_refl 0,by norm_num,by norm_num⟩

theorem link_delivers_one :
    ∃ first link, begin (boot 84000000 fun _ : Unit => Port.construct false false) () 9600 = some first ∧
      Run.after (step () () even fun _ _ => false) ⟨.start first,Reader.start first⟩ oneByte = some link ∧
      Reader.Gets () [65] link.receiver := by
  obtain ⟨first,begun⟩ : ∃ first, begin (boot 84000000 fun _ : Unit => Port.construct false false) () 9600 = some first := ⟨_,rfl⟩
  have runs : ((begin (boot 84000000 fun _ : Unit => Port.construct false false) () 9600).bind fun first =>
      Run.after (step () () even fun _ _ => false) ⟨.start first,Reader.start first⟩ oneByte).map
        (fun link => (link.sender.written,link.receiver.ticks)) = some ([(0,65)],40) := by decide +kernel
  rw [begun,Option.bind_some] at runs
  obtain ⟨link,reached,shown⟩ := Option.map_eq_some_iff.mp runs
  obtain ⟨written,ticks⟩ := Prod.mk.inj shown
  have gets := (link_delivers even () () _ first 9600 rfl rfl begun _ first 9600
    ⟨rfl,(Option.some_ne_none ()).symm,rfl,⟨by decide,by decide⟩,rfl,rfl⟩ begun rfl (fun _ _ => false) oneByte link reached).1
  have ended : [((0 : Nat),(65 : UInt8))].filter (fun w => decide ((even.arrives w).start + 29 ≤ ((40 : Nat) : ℚ))) = [(0,65)] := by
    decide +kernel
  rw [written,ticks,ended] at gets
  exact ⟨first,link,begun,reached,gets⟩

end Run

end OpenPlc.Serial.SoftwareSerial.Link
