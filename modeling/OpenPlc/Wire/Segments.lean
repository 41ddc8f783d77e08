import OpenPlc.Wire.SlaveTransmit

/-! The traffic of a master with the slave: segments of writing and of reading, each ended
by a stop or by the repeated start of the next one, and what the user is told of them. -/
namespace OpenPlc.Wire.Twi
open Memory

/-- The blocks are what the user writes in the callback of a read segment. The HAL reports
the end of the transmission, unless the master ends it early. -/
inductive Segment
  | write (bytes : List UInt8)
  | read (blocks : List (List UInt8)) (complete : Bool)

def Segment.events (attached : Bool) : Segment → List Event
  | .write bytes => .address .transmit :: bytes.map .byte
  | .read blocks complete =>
    .address .receive :: ((if attached then blocks.map .write ++ [.respond] else []) ++
      if complete then [.slaveTxCplt] else [])

/-- The segments with whether a stop follows them. -/
def events (attached : Bool) (traffic : List (Segment × Bool)) : List Event :=
  traffic.flatMap fun (segment,stop) => segment.events attached ++ if stop then [.listenCplt] else []

/-- What the user must be told of a segment. -/
def Segment.spoken (attached : Bool) : Segment → List Action
  | .write bytes => if bytes = [] then [] else [.onSlaveReceive bytes]
  | .read _ _ => if attached then [.onSlaveTransmit] else []

/-- A write segment at the end of the traffic may go on. -/
def waiting (traffic : List (Segment × Bool)) : List Action :=
  match traffic.getLast? with
  | some (.write bytes,false) => if bytes = [] then [] else [.onSlaveReceive bytes]
  | _ => []

def callbacks (trace : List Action) : List Action :=
  trace.filter fun
    | .onSlaveReceive _ | .onSlaveTransmit => true
    | _ => false

/-- The slave stands between two segments. -/
structure Between (attached : Bool) (s : State) : Prop where
  receiving : Receiving s
  outer : s.inRequest = false
  sound : s.outside = false
  attached : s.onSlaveTransmit = attached

theorem callbacks_append (first second : List Action) : callbacks (first ++ second) = callbacks first ++ callbacks second :=
  List.filter_append ..

theorem callbacks_untold (s : State) : callbacks (untold s) = untold s := by
  unfold untold
  split <;> rfl

variable {n : BufferSize} {attached : Bool}

theorem bytes_run (bytes : List UInt8) (s : State) (between : Between attached s) (mode : s.slaveMode = .receive)
    (armed : s.armed = some s.slaveRxNbData) (short : s.slaveRxNbData + bytes.length ≤ n.bytes) :
    ∃ t, Run.after (step n) s (bytes.map .byte) = some t ∧ Between attached t ∧ t.slaveMode = .receive ∧
      t.slaveRxNbData = s.slaveRxNbData + bytes.length ∧
      slice t.buffer 0 t.slaveRxNbData = slice s.buffer 0 s.slaveRxNbData ++ bytes ∧
      callbacks t.trace = callbacks s.trace := by
  induction bytes generalizing s with
  | nil => exact ⟨s,rfl,between,mode,rfl,by simp,rfl⟩
  | cons value rest ih =>
    rw [List.length_cons] at short
    obtain ⟨next,put_⟩ : ∃ next, byte n s value = some next := by simp [byte,armed]
    have taken : step n s (.byte value) = some next := by simp [step,between.sound,between.outer,put_]
    have same := byte_eq n s next value between.receiving put_
    have room : s.slaveRxNbData < n.bytes := by omega
    have inside : decide (n.bytes ≤ s.slaveRxNbData) = false := by simpa using room
    simp only [room,if_true,inside,between.sound,Bool.or_self] at same
    have onward : Between attached next := by
      refine ⟨receiving_step n s _ next between.receiving taken,?_,?_,?_⟩
      · rw [same]
        exact between.outer
      · rw [same]
      · rw [same]
        exact between.attached
    obtain ⟨t,reached,between',mode',count,gathered,said⟩ := ih next onward (by rw [same]; exact mode) (by rw [same])
      (by rw [same]; simp only; omega)
    refine ⟨t,by simp [taken,reached],between',mode',?_,?_,?_⟩
    · rw [count,same,List.length_cons]
      exact Nat.add_right_comm s.slaveRxNbData 1 rest.length
    · have appended := slice_blit_append s.buffer 0 s.slaveRxNbData [value]
      rw [Nat.zero_add] at appended
      rw [gathered,same]
      simp only
      rw [show s.slaveRxNbData + 1 = s.slaveRxNbData + [value].length from rfl,appended,List.append_assoc]
      rfl
    · rw [said,same]
      simp [callbacks]

/-- After a write segment the user has been told everything before it, and it waits itself. -/
theorem write_segment (bytes : List UInt8) (s : State) (between : Between attached s) (short : bytes.length ≤ n.bytes) :
    ∃ t, Run.after (step n) s (Segment.events attached (.write bytes)) = some t ∧ Between attached t ∧
      callbacks t.trace = callbacks s.trace ++ untold s ∧ untold t = Segment.spoken attached (.write bytes) := by
  obtain ⟨first,first_eq⟩ : ∃ first, first = addrCallback s .transmit := ⟨_,rfl⟩
  have taken : step n s (.address .transmit) = some first := by simp [step,between.sound,between.outer,first_eq]
  have receiving := receiving_step n s _ first between.receiving taken
  rw [addrCallback_transmit s between.receiving.counted] at first_eq
  have onward : Between attached first := by
    refine ⟨receiving,?_,?_,?_⟩
    · rw [first_eq]
      exact between.outer
    · rw [first_eq]
      exact between.sound
    · rw [first_eq]
      exact between.attached
  obtain ⟨t,reached,between',mode,count,gathered,said⟩ := bytes_run (n := n) bytes first onward (by rw [first_eq])
    (by rw [first_eq]) (by rw [first_eq]; simpa using short)
  refine ⟨t,by simp [Segment.events,taken,reached],between',?_,?_⟩
  · rw [said,first_eq]
    simp only [callbacks_append,callbacks_untold]
    simp [callbacks]
  · have empty : slice first.buffer 0 first.slaveRxNbData = [] := by rw [first_eq]; rfl
    have zero : first.slaveRxNbData = 0 := by rw [first_eq]
    rw [empty,List.nil_append] at gathered
    rw [zero,Nat.zero_add] at count
    rw [count] at gathered
    simp only [untold,mode,count,gathered,Segment.spoken,true_and,ne_eq,List.length_eq_zero_iff]
    split <;> simp_all

theorem writes_frame (blocks : List (List UInt8)) (s t : State) (inside : s.inRequest = true)
    (reached : Run.after (step n) s (blocks.map .write) = some t) :
    ∃ buffer size outside accepted,
      t = {s with buffer := buffer, bufferSize := size, outside := outside, accepted := accepted} := by
  induction blocks generalizing s with
  | nil =>
    have same : t = s := (Option.some.inj reached).symm
    exact ⟨s.buffer,s.bufferSize,s.outside,s.accepted,same⟩
  | cons data rest ih =>
    rw [List.map_cons,Run.after_cons] at reached
    obtain ⟨next,taken,onward⟩ := Option.bind_eq_some_iff.mp reached
    obtain ⟨_,_,same⟩ := step_cases n s _ next taken
    have frame : ∃ buffer size outside accepted,
        next = {s with buffer := buffer, bufferSize := size, outside := outside, accepted := accepted} := by
      rw [same,write_eq]
      split
      · exact ⟨s.buffer,s.bufferSize,s.outside,s.accepted,rfl⟩
      · exact ⟨_,_,_,_,rfl⟩
    obtain ⟨buffer,size,outside,accepted,frame⟩ := frame
    obtain ⟨buffer',size',outside',accepted',frame'⟩ := ih next (by rw [frame]; exact inside) onward
    exact ⟨buffer',size',outside',accepted',by rw [frame',frame]⟩

theorem writes_fit (blocks : List (List UInt8)) (s : State) (inside : s.inRequest = true) (sound : s.outside = false)
    (fits : s.bufferSize + blocks.flatten.length ≤ n.bytes) :
    ∃ t, Run.after (step n) s (blocks.map .write) = some t ∧ t.outside = false ∧ t.inRequest = true := by
  induction blocks generalizing s with
  | nil => exact ⟨s,rfl,sound,inside⟩
  | cons data rest ih =>
    rw [List.flatten_cons,List.length_append] at fits
    have taken : step n s (.write data) = some (write n s data) := by simp [step,sound,inside]
    have same := (slaveWrite_fits n s data (by omega)).1
    obtain ⟨t,reached,sound',inside'⟩ := ih (write n s data) (by simp [write,same,inside]) (by simp [write,same,sound])
      (by simp only [write,same,if_true]; omega)
    exact ⟨t,by simp [taken,reached],sound',inside'⟩

theorem reply_frame (blocks : List (List UInt8)) (s t : State) (inside : s.inRequest = true)
    (reached : Run.after (step n) s (blocks.map .write ++ [.respond]) = some t) :
    ∃ buffer size accepted, t = respond {s with buffer := buffer, bufferSize := size, outside := false, accepted := accepted} := by
  rw [Run.after_append] at reached
  obtain ⟨written,reached,onward⟩ := Option.bind_eq_some_iff.mp reached
  rw [Run.after_cons] at onward
  obtain ⟨next,taken,ended⟩ := Option.bind_eq_some_iff.mp onward
  obtain ⟨sound,_,answered⟩ := step_cases n written _ next taken
  obtain ⟨buffer,size,outside,accepted,frame⟩ := writes_frame blocks s written inside reached
  have same : t = next := (Option.some.inj ended).symm
  refine ⟨buffer,size,accepted,?_⟩
  rw [frame] at sound answered
  rw [same,answered,← sound]

/-- What the events behind the address match of a read segment leave. -/
structure Answered (s t : State) : Prop where
  armed : t.armed = s.armed
  mode : t.slaveMode = s.slaveMode
  count : t.slaveRxNbData = s.slaveRxNbData
  attached : t.onSlaveTransmit = s.onSlaveTransmit
  outer : t.inRequest = false
  sound : t.outside = false
  said : callbacks t.trace = callbacks s.trace

theorem transmitted (complete : Bool) (s t : State) (outer : s.inRequest = false) (sound : s.outside = false)
    (reached : Run.after (step n) s (if complete then [.slaveTxCplt] else []) = some t) : Answered s t := by
  cases complete with
  | false =>
    have same : t = s := (Option.some.inj reached).symm
    rw [same]
    exact ⟨rfl,rfl,rfl,rfl,outer,sound,rfl⟩
  | true =>
    simp only [if_true,Run.after_cons,step,sound,outer,Bool.false_eq_true,if_false] at reached
    have same : t = slaveTxCpltCallback s := (Option.some.inj reached).symm
    rw [same]
    exact ⟨rfl,rfl,rfl,rfl,outer,sound,rfl⟩

theorem Answered.trans {s t u : State} (first : Answered s t) (second : Answered t u) : Answered s u :=
  ⟨second.armed.trans first.armed,second.mode.trans first.mode,second.count.trans first.count,
    second.attached.trans first.attached,second.outer,second.sound,second.said.trans first.said⟩

/-- Before a read segment is answered the user has been told everything that was received. -/
theorem read_segment (blocks : List (List UInt8)) (complete : Bool) (s t : State) (between : Between attached s)
    (reached : Run.after (step n) s (Segment.events attached (.read blocks complete)) = some t) :
    Between attached t ∧ callbacks t.trace = callbacks s.trace ++ untold s ++ Segment.spoken attached (.read blocks complete) ∧
      untold t = [] := by
  rw [Segment.events,Run.after_cons] at reached
  obtain ⟨first,taken,onward⟩ := Option.bind_eq_some_iff.mp reached
  obtain ⟨_,_,opened⟩ := step_cases n s _ first taken
  rw [addrCallback_receive s between.receiving.counted,between.attached] at opened
  rw [Run.after_append] at onward
  obtain ⟨replied,reply,rest⟩ := Option.bind_eq_some_iff.mp onward
  have answered : Answered first replied ∧ first.armed = none ∧ first.slaveMode = .transmit ∧ first.slaveRxNbData = 0 ∧
      first.onSlaveTransmit = attached ∧
      callbacks first.trace = callbacks s.trace ++ untold s ++ Segment.spoken attached (.read blocks complete) := by
    cases attached with
    | false =>
      have same : replied = first := (Option.some.inj reply).symm
      rw [same,opened]
      refine ⟨⟨rfl,rfl,rfl,rfl,between.outer,between.sound,rfl⟩,rfl,rfl,rfl,rfl,?_⟩
      simp only [Bool.false_eq_true,if_false,callbacks_append,callbacks_untold]
      rfl
    | true =>
      have inside : first.inRequest = true := by rw [opened]; rfl
      obtain ⟨buffer,size,accepted,same⟩ := reply_frame blocks first replied inside reply
      refine ⟨?_,?_⟩
      · rw [same]
        exact ⟨rfl,rfl,rfl,rfl,rfl,rfl,by simp [respond,seqTransmit,callbacks]⟩
      · rw [opened]
        refine ⟨rfl,rfl,rfl,rfl,?_⟩
        simp only [if_true,callbacks_append,callbacks_untold]
        rfl
  obtain ⟨answered,unarmed,mode,count,kept,said⟩ := answered
  have ended := answered.trans (transmitted complete replied t answered.outer answered.sound rest)
  refine ⟨⟨⟨?_,?_⟩,ended.outer,ended.sound,ended.attached.trans kept⟩,ended.said.trans said,?_⟩
  · intro index armed
    rw [ended.armed,unarmed] at armed
    contradiction
  · intro some_
    exact absurd (ended.count.trans count) some_
  · simp [untold,ended.count.trans count]

theorem read_goes_on (blocks : List (List UInt8)) (complete : Bool) (s : State) (between : Between attached s)
    (fits : blocks.flatten.length ≤ n.bytes) :
    (Run.after (step n) s (Segment.events attached (.read blocks complete))).isSome := by
  have ends (replied : State) (outer : replied.inRequest = false) (sound : replied.outside = false) :
      (Run.after (step n) replied (if complete then [.slaveTxCplt] else [])).isSome := by
    cases complete with
    | false => rfl
    | true =>
      simp only [if_true,Run.after_cons,step,sound,outer,Bool.false_eq_true,if_false]
      rfl
  obtain ⟨first,opened⟩ : ∃ first, first = addrCallback s .receive := ⟨_,rfl⟩
  have taken : step n s (.address .receive) = some first := by simp [step,between.sound,between.outer,opened]
  rw [addrCallback_receive s between.receiving.counted,between.attached] at opened
  rw [Segment.events,Run.after_cons,taken,Option.bind_some,Run.after_append]
  cases attached with
  | false =>
    apply ends first
    · rw [opened]
      exact between.outer
    · rw [opened]
      exact between.sound
  | true =>
    obtain ⟨written,reached,sound,inside⟩ := writes_fit (n := n) blocks first (by rw [opened]; rfl)
      (by rw [opened]; exact between.sound) (by rw [opened]; simpa using fits)
    simp only [if_true,Run.after_append,reached,Option.bind_some,Run.after_cons,step,sound,inside,Bool.false_eq_true,if_false]
    exact ends (respond written) rfl sound

theorem stop_told (s : State) (between : Between attached s) :
    ∃ t, Run.after (step n) s [.listenCplt] = some t ∧ Between attached t ∧
      callbacks t.trace = callbacks s.trace ++ untold s ∧ untold t = [] := by
  refine ⟨listenCpltCallback s,by simp [step,between.sound,between.outer]; rfl,?_⟩
  rw [listenCpltCallback_eq]
  refine ⟨⟨⟨by simp,by simp⟩,between.outer,between.sound,between.attached⟩,?_,by simp [untold]⟩
  rw [callbacks_append,callbacks_untold]

theorem segment_told (segment : Segment) (stop : Bool) (s t : State) (between : Between attached s)
    (short : ∀ bytes, segment = .write bytes → bytes.length ≤ n.bytes)
    (reached : Run.after (step n) s (segment.events attached ++ if stop then [.listenCplt] else []) = some t) :
    Between attached t ∧ callbacks t.trace ++ untold t = callbacks s.trace ++ untold s ++ segment.spoken attached ∧
      untold t = waiting [(segment,stop)] := by
  rw [Run.after_append] at reached
  obtain ⟨held,spoken,onward⟩ := Option.bind_eq_some_iff.mp reached
  have told : Between attached held ∧ callbacks held.trace ++ untold held = callbacks s.trace ++ untold s ++ segment.spoken attached ∧
      untold held = waiting [(segment,false)] := by
    cases segment with
    | write bytes =>
      obtain ⟨found,reached,between',said,left⟩ := write_segment bytes s between (short bytes rfl)
      have same : held = found := Option.some.inj (spoken.symm.trans reached)
      rw [same]
      exact ⟨between',by rw [said,left],left⟩
    | read blocks complete =>
      obtain ⟨between',said,left⟩ := read_segment blocks complete s held between spoken
      exact ⟨between',by rw [said,left,List.append_nil],left⟩
  obtain ⟨between',said,left⟩ := told
  cases stop with
  | false =>
    have same : t = held := (Option.some.inj onward).symm
    rw [same]
    exact ⟨between',said,left⟩
  | true =>
    obtain ⟨found,reached,between'',told,none_⟩ := stop_told (n := n) held between'
    have same : t = found := Option.some.inj (onward.symm.trans reached)
    rw [same]
    refine ⟨between'',?_,?_⟩
    · rw [told,none_,List.append_nil,said]
    · rw [none_]
      cases segment <;> rfl

theorem start_between (buffer : Nat → UInt8) : Between attached (start buffer attached) :=
  ⟨start_receiving buffer attached,rfl,rfl,rfl⟩

theorem events_append (first second : List (Segment × Bool)) :
    events attached (first ++ second) = events attached first ++ events attached second :=
  List.flatMap_append ..

theorem traffic_told (buffer : Nat → UInt8) (traffic : List (Segment × Bool)) (t : State)
    (short : ∀ bytes stop, (Segment.write bytes,stop) ∈ traffic → bytes.length ≤ n.bytes)
    (reached : Run.after (step n) (start buffer attached) (events attached traffic) = some t) :
    Between attached t ∧ callbacks t.trace ++ untold t = traffic.flatMap (fun spoken => spoken.1.spoken attached) ∧
      untold t = waiting traffic := by
  induction traffic using List.reverseRecOn generalizing t with
  | nil =>
    have same : t = start buffer attached := (Option.some.inj reached).symm
    rw [same]
    exact ⟨start_between buffer,rfl,rfl⟩
  | append_singleton traffic last ih =>
    obtain ⟨segment,stop⟩ := last
    rw [events_append,Run.after_append] at reached
    obtain ⟨s,before,onward⟩ := Option.bind_eq_some_iff.mp reached
    obtain ⟨between,told,_⟩ := ih s (fun bytes stop among => short bytes stop (List.mem_append_left _ among)) before
    have ended : Run.after (step n) s (segment.events attached ++ if stop then [.listenCplt] else []) = some t := by
      simpa [events] using onward
    obtain ⟨between',said,left⟩ := segment_told segment stop s t between
      (by rintro bytes rfl; exact short bytes stop (by simp)) ended
    refine ⟨between',?_,?_⟩
    · rw [said,told]
      simp
    · rw [left]
      simp [waiting]

theorem traffic_goes_on (buffer : Nat → UInt8) (traffic : List (Segment × Bool))
    (short : ∀ bytes stop, (Segment.write bytes,stop) ∈ traffic → bytes.length ≤ n.bytes)
    (fits : ∀ blocks complete stop, (Segment.read blocks complete,stop) ∈ traffic → blocks.flatten.length ≤ n.bytes) :
    (Run.after (step n) (start buffer attached) (events attached traffic)).isSome := by
  induction traffic using List.reverseRecOn with
  | nil => rfl
  | append_singleton traffic last ih =>
    obtain ⟨segment,stop⟩ := last
    have earlier : ∀ bytes stop, (Segment.write bytes,stop) ∈ traffic → bytes.length ≤ n.bytes :=
      fun bytes stop among => short bytes stop (List.mem_append_left _ among)
    obtain ⟨s,reached⟩ := Option.isSome_iff_exists.mp
      (ih earlier fun blocks complete stop among => fits blocks complete stop (List.mem_append_left _ among))
    have between := (traffic_told buffer traffic s earlier reached).1
    have spoken : (Run.after (step n) s (segment.events attached)).isSome := by
      cases segment with
      | write bytes =>
        obtain ⟨t,reached,_⟩ := write_segment bytes s between (short bytes stop (by simp))
        exact Option.isSome_iff_exists.mpr ⟨t,reached⟩
      | read blocks complete => exact read_goes_on blocks complete s between (fits blocks complete stop (by simp))
    obtain ⟨held,spoken⟩ := Option.isSome_iff_exists.mp spoken
    rw [events_append,Run.after_append,reached,Option.bind_some]
    simp only [events,List.flatMap_singleton,Run.after_append,spoken,Option.bind_some]
    cases stop with
    | false => rfl
    | true =>
      have between' := (segment_told segment false s held between (by rintro bytes rfl; exact short bytes true (by simp))
        (by simpa using spoken)).1
      obtain ⟨t,reached,_⟩ := stop_told (n := n) held between'
      exact Option.isSome_iff_exists.mpr ⟨t,reached⟩

/-- Every write segment with bytes in it is told once, whole and in its place, as soon as
the next segment or a stop ends it, and the slave takes all traffic whose answers fit the
buffer. -/
theorem segments_delivered (n : BufferSize) (buffer : Nat → UInt8) (attached : Bool) (traffic : List (Segment × Bool))
    (short : ∀ bytes stop, (Segment.write bytes,stop) ∈ traffic → bytes.length ≤ n.bytes) :
    (∀ t, Run.after (step n) (start buffer attached) (events attached traffic) = some t →
      callbacks t.trace ++ waiting traffic = traffic.flatMap fun spoken => spoken.1.spoken attached) ∧
    ((∀ blocks complete stop, (Segment.read blocks complete,stop) ∈ traffic → blocks.flatten.length ≤ n.bytes) →
      (Run.after (step n) (start buffer attached) (events attached traffic)).isSome) := by
  constructor
  · intro t reached
    obtain ⟨_,said,left⟩ := traffic_told buffer traffic t short reached
    rw [← left]
    exact said
  · exact traffic_goes_on buffer traffic short

theorem segments_delivered_joined :
    ∃ t, Run.after (step defaultSize) (start (fun _ => 0) true)
        (events true [(.write [1,2],false),(.read [[3]] true,false),(.write [],false),(.write [4],true)]) = some t ∧
      callbacks t.trace = [.onSlaveReceive [1,2],.onSlaveTransmit,.onSlaveReceive [4]] := by
  have delivered := segments_delivered defaultSize (fun _ => 0) true
    [(.write [1,2],false),(.read [[3]] true,false),(.write [],false),(.write [4],true)]
    (by
      intro bytes stop among
      simp only [List.mem_cons,Prod.mk.injEq,Segment.write.injEq,List.not_mem_nil,or_false,reduceCtorEq,false_and,false_or] at among
      obtain ⟨rfl,_⟩ | ⟨rfl,_⟩ | ⟨rfl,_⟩ := among
      all_goals decide)
  obtain ⟨t,reached⟩ := Option.isSome_iff_exists.mp (delivered.2 (by simp [defaultSize]))
  refine ⟨t,reached,?_⟩
  have told := delivered.1 t reached
  simpa [waiting,Segment.spoken] using told

end OpenPlc.Wire.Twi
