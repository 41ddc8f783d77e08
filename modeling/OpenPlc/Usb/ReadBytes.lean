import OpenPlc.Usb.ReceiveRun

/-! `USBSerial::readBytes` and `USBSerial::readBytesUntil` on a receive queue that interrupts fill. A `size_t` has 32 bits. -/
namespace OpenPlc.Usb.ReadBytes
open Memory ReceiveQueue ReceiveRun

/-- What the interrupts and the host do to the queue. -/
inductive Arrival
  | reserve
  | fill (data : List UInt8)
  | commit (size : Nat)
  | commitReserve (size : Nat)

def Arrival.event : Arrival → Event
  | .reserve => .reserve
  | .fill data => .fill data
  | .commit size => .commit size
  | .commitReserve size => .commitReserve size

/-- A round of the loop: what arrives before the queue is read and between its two loads, and `millis()` at the end. -/
structure Round where
  before : List Arrival
  within : List Arrival
  now : UInt32

/-- The variables of a call: the memory with the place of `buffer`, and `rest`. -/
structure Progress where
  s : State
  mem : Nat → UInt8
  buffer : Nat
  rest : UInt16

structure Result where
  progress : Progress
  count : UInt32
  found : Bool

/-- `CDC_resume_receive`, where no block is reserved unless `receivePended` is set. -/
def resume (m : PacketSize) (s : State) : State := if s.reserved = none then reserve m s else s

/-- The queue read of `readBytes`, or of `readBytesUntil` with its terminator. -/
def queueCall (terminator : Option UInt8) (size : UInt16) : ReaderCall :=
  match terminator with
  | none => .read size.toNat
  | some terminator => .readUntil terminator size.toNat

/-- The bytes that a queue read stores in the buffer, and whether it met the terminator. -/
def stored : Answer → List UInt8 × Bool
  | .bytes copied => (copied,false)
  | .scanned _ scan => scan
  | _ => ([],false)

def arrive (m : PacketSize) (s : State) (arrivals : List Arrival) : Option State := Run.after (step m) s (arrivals.map Arrival.event)

/-- A queue read with what arrives in the meantime, and its answer. -/
def queueRead (m : PacketSize) (s : State) (call : ReaderCall) (round : Round) : Option (State × Answer) := do
  let s ← arrive m s round.before
  let s ← step m s (.load call)
  let s ← arrive m s round.within
  let (call,write) ← s.loaded
  let next ← step m s .complete
  return (next,(perform call write s.queue).2)

/-- The part of a round up to the tests. -/
def fetch (m : PacketSize) (terminator : Option UInt8) (p : Progress) (round : Round) : Option (Progress × Bool) := do
  let (s,answer) ← queueRead m p.s (queueCall terminator p.rest) round
  let (data,found) := stored answer
  return (⟨resume m s,blit p.mem p.buffer data,p.buffer + data.length,p.rest - .ofNat data.length⟩,found)

/-- The `do` loop. It has no result if the rounds are over before the function returns. -/
def loop (m : PacketSize) (terminator : Option UInt8) (length timeout startMillis : UInt32) (p : Progress) : List Round → Option Result
  | [] => none
  | round :: rounds => do
    let (p,found) ← fetch m terminator p round
    if found then some ⟨p,length - p.rest.toUInt32,true⟩
    else if p.rest = 0 then some ⟨p,length,false⟩
    else if round.now - startMillis < timeout then loop m terminator length timeout startMillis p rounds
    else some ⟨p,length - p.rest.toUInt32,false⟩

/-- `rest` starts as `static_cast<uint16_t>(length)`. -/
def enter (s : State) (mem : Nat → UInt8) (buffer : Nat) (length : UInt32) : Progress := ⟨s,mem,buffer,length.toUInt16⟩

def readBytes (m : PacketSize) (timeout startMillis : UInt32) (s : State) (mem : Nat → UInt8) (buffer : Nat) (length : UInt32)
    (rounds : List Round) : Option Result :=
  loop m none length timeout startMillis (enter s mem buffer length) rounds

def readBytesUntil (m : PacketSize) (timeout startMillis : UInt32) (s : State) (terminator : UInt8) (mem : Nat → UInt8) (buffer : Nat)
    (length : UInt32) (rounds : List Round) : Option Result :=
  loop m (some terminator) length timeout startMillis (enter s mem buffer length) rounds

section Queue
variable {m : PacketSize} {s next : State}

structure Kept (s next : State) : Prop where
  loaded : next.loaded = s.loaded
  obtained : next.obtained = s.obtained

theorem Kept.trans {last : State} (first : Kept s next) (second : Kept next last) : Kept s last :=
  ⟨second.loaded.trans first.loaded,second.obtained.trans first.obtained⟩

theorem commit_kept {size : Nat} (taken : commit m s size = some next) : Kept s next := by
  unfold commit at taken
  split at taken
  · contradiction
  · split at taken
    · cases Option.some.inj taken
      exact ⟨rfl,rfl⟩
    · contradiction

theorem arrival_kept (arrival : Arrival) (taken : step m s arrival.event = some next) : Kept s next := by
  cases arrival with
  | reserve =>
    change (if s.reserved = none ∧ s.loaded.isNone then some (reserve m s) else none) = some next at taken
    split at taken
    · cases Option.some.inj taken
      exact ⟨rfl,rfl⟩
    · contradiction
  | fill data =>
    simp only [Arrival.event,step] at taken
    split at taken
    · contradiction
    · split at taken
      · cases Option.some.inj taken
        exact ⟨rfl,rfl⟩
      · contradiction
  | commit size => exact commit_kept taken
  | commitReserve size =>
    obtain ⟨middle,first,rfl⟩ := Option.map_eq_some_iff.mp taken
    have kept := commit_kept first
    exact ⟨kept.loaded,kept.obtained⟩

theorem arrive_kept {arrivals : List Arrival} (taken : arrive m s arrivals = some next) : Kept s next := by
  induction arrivals generalizing s with
  | nil =>
    cases Option.some.inj taken
    exact ⟨rfl,rfl⟩
  | cons arrival arrivals ih =>
    rw [arrive,List.map_cons,Run.after_cons] at taken
    obtain ⟨middle,first,onward⟩ := Option.bind_eq_some_iff.mp taken
    exact (arrival_kept arrival first).trans (ih onward)

theorem arrive_inv {arrivals : List Arrival} (inv : Inv m s) (taken : arrive m s arrivals = some next) : Inv m next :=
  Run.invariant (Inv m) (step_inv m) s next _ inv taken

theorem resume_inv (inv : Inv m s) (idle : s.loaded = none) : Inv m (resume m s) := by
  rw [resume]
  split
  · rename_i free
    refine step_inv m s .reserve (reserve m s) inv ?_
    rw [step,if_pos ⟨free,by rw [idle]; rfl⟩]
  · exact inv

theorem resume_obtained (m : PacketSize) (s : State) : (resume m s).obtained = s.obtained := by
  rw [resume]
  split
  · rfl
  · rfl

end Queue

section Fetch
variable {m : PacketSize} {terminator : Option UInt8}

theorem scanUntil_free (t : UInt8) (window : List UInt8) : t ∉ (scanUntil t window).1 := by
  induction window with
  | nil => exact List.not_mem_nil
  | cons ch rest ih =>
    unfold scanUntil
    split
    · exact List.not_mem_nil
    · rename_i other
      exact fun member => (List.mem_cons.mp member).elim (fun same => other same.symm) ih

theorem scanUntil_length (t : UInt8) (window : List UInt8) : (scanUntil t window).1.length ≤ window.length := by
  refine Nat.le_trans ?_ (fetched_le t window)
  unfold fetched
  split
  · exact Nat.le_succ _
  · exact Nat.le_refl _

theorem consumed_eq (t : UInt8) (scan : List UInt8 × Bool) : consumed t scan = scan.1 ++ if scan.2 then [t] else [] := by
  rw [consumed]
  split
  · rfl
  · exact (List.append_nil _).symm

/-- What one read stores, and what it takes from the queue. -/
structure Stores (terminator : Option UInt8) (size : UInt16) (obtained data : List UInt8) (found : Bool) : Prop where
  taken : obtained = data ++ if found then terminator.toList else []
  within : data.length ≤ size.toNat
  free : ∀ t ∈ terminator, t ∉ data
  allowed : found = true → terminator.isSome

theorem perform_stores (terminator : Option UInt8) (size : UInt16) (write : Nat) (queue : Queue) :
    Stores terminator size (perform (queueCall terminator size) write queue).2.obtained
      (stored (perform (queueCall terminator size) write queue).2).1 (stored (perform (queueCall terminator size) write queue).2).2 := by
  cases terminator with
  | none =>
    refine ⟨(List.append_nil _).symm,?_,fun t never => absurd never (Option.not_mem_none t),
      fun never => absurd never Bool.false_ne_true⟩
    simp only [queueCall,perform,stored,ReceiveQueue.read,slice_length]
    exact Nat.min_le_right _ _
  | some t =>
    refine ⟨?_,?_,fun t' same => ?_,fun _ => rfl⟩
    · exact consumed_eq t (readUntil write queue t size.toNat).2
    · simp only [queueCall,perform,stored,readUntil]
      refine Nat.le_trans (scanUntil_length t _) ?_
      rw [slice_length]
      exact Nat.min_le_right _ _
    · obtain rfl := Option.some.inj same
      exact scanUntil_free _ _

/-- A round stores bytes that the queue delivers, and leaves the queue ready for another. -/
theorem fetch_spec {p next : Progress} {round : Round} {found : Bool} (inv : Inv m p.s)
    (taken : fetch m terminator p round = some (next,found)) :
    ∃ obtained data, next.s.obtained = p.s.obtained ++ obtained ∧ Stores terminator p.rest obtained data found ∧ Inv m next.s ∧
      next.mem = blit p.mem p.buffer data ∧ next.buffer = p.buffer + data.length ∧ next.rest = p.rest - .ofNat data.length := by
  obtain ⟨⟨s,answer⟩,asked,rest⟩ := Option.bind_eq_some_iff.mp taken
  cases Option.some.inj rest
  obtain ⟨first,before,asked⟩ := Option.bind_eq_some_iff.mp asked
  obtain ⟨second,loads,asked⟩ := Option.bind_eq_some_iff.mp asked
  obtain ⟨third,within,asked⟩ := Option.bind_eq_some_iff.mp asked
  obtain ⟨⟨call,write⟩,loaded,asked⟩ := Option.bind_eq_some_iff.mp asked
  obtain ⟨last,completes,asked⟩ := Option.bind_eq_some_iff.mp asked
  obtain ⟨rfl,rfl⟩ := Prod.mk.inj (Option.some.inj asked)
  rw [step] at loads
  split at loads
  · cases Option.some.inj loads
    have start := arrive_kept before
    have middle := arrive_kept within
    cases middle.loaded.symm.trans loaded
    have inside : Inv m third := by
      refine arrive_inv (step_inv m first (.load (queueCall terminator p.rest)) _ (arrive_inv inv before) ?_) within
      exact if_pos ‹_›
    have after := step_inv m third .complete _ inside completes
    simp only [step,loaded] at completes
    cases Option.some.inj completes
    refine ⟨_,_,?_,perform_stores terminator p.rest first.queue.write third.queue,resume_inv after rfl,rfl,rfl,rfl⟩
    refine (resume_obtained m _).trans ?_
    rw [← start.obtained]
    exact congrArg (· ++ _) middle.obtained
  · contradiction

end Fetch

section Calls
variable {m : PacketSize} {terminator : Option UInt8} {length timeout startMillis : UInt32} {rounds : List Round}
  {s : State} {mem : Nat → UInt8} {buffer : Nat} {result : Result}

/-- Where a call is after some rounds, with the bytes that it stored. -/
structure Collected (m : PacketSize) (s : State) (mem : Nat → UInt8) (buffer : Nat) (length : UInt32) (terminator : Option UInt8)
    (data : List UInt8) (found : Bool) (p : Progress) : Prop where
  inv : Inv m p.s
  mem : p.mem = blit mem buffer data
  buffer : p.buffer = buffer + data.length
  rest : p.rest.toNat + data.length = length.toNat % 65536
  obtained : p.s.obtained = s.obtained ++ data ++ if found then terminator.toList else []
  free : ∀ t ∈ terminator, t ∉ data
  allowed : found = true → terminator.isSome

theorem enter_collected (inv : Inv m s) (mem : Nat → UInt8) (buffer : Nat) (length : UInt32) (terminator : Option UInt8) :
    Collected m s mem buffer length terminator [] false (enter s mem buffer length) := by
  refine ⟨inv,(blit_nil mem buffer).symm,rfl,?_,?_,fun t _ => List.not_mem_nil,fun never => absurd never Bool.false_ne_true⟩
  · exact UInt32.toNat_toUInt16 length
  · rw [List.append_nil,if_neg Bool.false_ne_true,List.append_nil]
    rfl

theorem fetch_collected {data : List UInt8} {p next : Progress} {round : Round} {found : Bool}
    (collected : Collected m s mem buffer length terminator data false p) (taken : fetch m terminator p round = some (next,found)) :
    ∃ more, Collected m s mem buffer length terminator (data ++ more) found next := by
  obtain ⟨obtained,more,delivered,stores,inv,stored,moved,left⟩ := fetch_spec collected.inv taken
  refine ⟨more,inv,?_,?_,?_,?_,?_,stores.allowed⟩
  · rw [stored,collected.mem,collected.buffer,blit_append]
  · rw [moved,collected.buffer,List.length_append,Nat.add_assoc]
  · have word := p.rest.toNat_lt
    have within := stores.within
    have small : (UInt16.ofNat more.length).toNat = more.length := UInt16.toNat_ofNat_of_lt' (Nat.lt_of_le_of_lt within word)
    rw [left,UInt16.toNat_sub_of_le _ _ (UInt16.le_iff_toNat_le.mpr (small.symm ▸ within)),small,List.length_append]
    have total := collected.rest
    omega
  · rw [delivered,collected.obtained,stores.taken,if_neg Bool.false_ne_true,List.append_nil]
    simp only [List.append_assoc]
  · intro t member both
    obtain before | here := List.mem_append.mp both
    · exact collected.free t member before
    · exact stores.free t member here

structure Returned (length timeout startMillis : UInt32) (rounds : List Round) (data : List UInt8) (result : Result) : Prop where
  count : result.count.toNat = length.toNat - length.toNat % 65536 + data.length
  reason : result.count < length → result.found = true ∨ ∃ round ∈ rounds, timeout ≤ round.now - startMillis

theorem count_left {data : List UInt8} {p : Progress} {found : Bool}
    (collected : Collected m s mem buffer length terminator data found p) :
    (length - p.rest.toUInt32).toNat = length.toNat - length.toNat % 65536 + data.length := by
  have total := collected.rest
  have least := Nat.mod_le length.toNat 65536
  have wide : p.rest.toUInt32.toNat = p.rest.toNat := UInt16.toNat_toUInt32 p.rest
  rw [UInt32.toNat_sub_of_le _ _ (UInt32.le_iff_toNat_le.mpr (by omega)),wide]
  omega

theorem loop_returned {data : List UInt8} {p : Progress} (collected : Collected m s mem buffer length terminator data false p)
    (returned : loop m terminator length timeout startMillis p rounds = some result) :
    ∃ data, Collected m s mem buffer length terminator data result.found result.progress ∧
      Returned length timeout startMillis rounds data result := by
  induction rounds generalizing data p with
  | nil => contradiction
  | cons round rounds ih =>
    obtain ⟨⟨next,found⟩,taken,onward⟩ := Option.bind_eq_some_iff.mp returned
    obtain ⟨more,collected⟩ := fetch_collected collected taken
    dsimp only at onward
    cases found with
    | true =>
      cases Option.some.inj onward
      exact ⟨_,collected,count_left collected,fun _ => Or.inl rfl⟩
    | false =>
      rw [if_neg Bool.false_ne_true] at onward
      by_cases full : next.rest = 0
      · rw [if_pos full] at onward
        cases Option.some.inj onward
        have total := collected.rest
        rw [full,UInt16.toNat_zero,Nat.zero_add] at total
        refine ⟨_,collected,?_,fun fewer => absurd fewer (UInt32.lt_irrefl length)⟩
        have least := Nat.mod_le length.toNat 65536
        dsimp only
        omega
      · rw [if_neg full] at onward
        by_cases early : round.now - startMillis < timeout
        · rw [if_pos early] at onward
          obtain ⟨data,whole,result⟩ := ih collected onward
          refine ⟨data,whole,result.count,fun fewer => (result.reason fewer).imp_right ?_⟩
          rintro ⟨late,member,waited⟩
          exact ⟨late,List.mem_cons_of_mem round member,waited⟩
        · rw [if_neg early] at onward
          cases Option.some.inj onward
          exact ⟨_,collected,count_left collected,fun _ => Or.inr ⟨round,List.mem_cons_self,UInt32.not_lt.mp early⟩⟩

/-- The count is that of the bytes stored, which are the next of the stream, and it is short only for a reason. -/
structure Reads (s : State) (mem : Nat → UInt8) (buffer : Nat) (length : UInt32) (terminator : Option UInt8)
    (timeout startMillis : UInt32) (rounds : List Round) (result : Result) (data : List UInt8) : Prop where
  count : result.count.toNat = data.length
  within : data.length ≤ length.toNat
  mem : result.progress.mem = blit mem buffer data
  obtained : result.progress.s.obtained = s.obtained ++ data ++ if result.found then terminator.toList else []
  stream : result.progress.s.obtained <+: result.progress.s.committed
  free : ∀ t ∈ terminator, t ∉ data
  allowed : result.found = true → terminator.isSome
  reason : result.count < length → result.found = true ∨ ∃ round ∈ rounds, timeout ≤ round.now - startMillis

theorem reads_iff (inv : Inv m s)
    (returned : loop m terminator length timeout startMillis (enter s mem buffer length) rounds = some result) :
    (∃ data, Reads s mem buffer length terminator timeout startMillis rounds result data) ↔ length < 65536 := by
  obtain ⟨data,collected,returned⟩ := loop_returned (enter_collected inv mem buffer length terminator) returned
  have word : length < 65536 ↔ length.toNat < 65536 := UInt32.lt_iff_toNat_lt
  rw [word]
  constructor
  · rintro ⟨others,reads⟩
    have same := reads.obtained.symm.trans collected.obtained
    have lengths := congrArg List.length (List.append_cancel_left (List.append_cancel_right same))
    have count := returned.count
    rw [reads.count,lengths] at count
    omega
  · intro small
    have whole := Nat.mod_eq_of_lt small
    have count := returned.count
    have total := collected.rest
    rw [whole] at count total
    exact ⟨data,by omega,by omega,collected.mem,collected.obtained,(inv_faithful m _ collected.inv).ordered,collected.free,
      collected.allowed,returned.reason⟩

/-- Both functions are right exactly for the lengths that a `uint16_t` holds, whatever arrives and whenever it does. -/
theorem readers_iff (m : PacketSize) (queue : Queue) (events : List Event) (s : State)
    (reached : Run.after (step m) (start m queue) events = some s) (timeout startMillis : UInt32) (mem : Nat → UInt8) (buffer : Nat)
    (length : UInt32) (rounds : List Round) :
    (∀ result, readBytes m timeout startMillis s mem buffer length rounds = some result →
      ((∃ data, Reads s mem buffer length none timeout startMillis rounds result data) ↔ length < 65536)) ∧
    ∀ terminator result, readBytesUntil m timeout startMillis s terminator mem buffer length rounds = some result →
      ((∃ data, Reads s mem buffer length (some terminator) timeout startMillis rounds result data) ↔ length < 65536) := by
  have inv := Run.invariant (Inv m) (step_inv m) _ s events (start_inv m queue) reached
  exact ⟨fun result returned => reads_iff inv returned,fun terminator result returned => reads_iff inv returned⟩

def threeBytes : List Round := [⟨[.reserve,.fill [7,8,9],.commit 3],[],5⟩]

theorem readers_two :
    let s := start fullSpeed ⟨fun _ => 0,0,0,0⟩
    (∃ result, readBytes fullSpeed 1000 0 s (fun _ => 0) 0 2 threeBytes = some result ∧
      ∃ data, Reads s (fun _ => 0) 0 2 none 1000 0 threeBytes result data) ∧
    ∃ result, readBytesUntil fullSpeed 1000 0 s 8 (fun _ => 0) 0 2 threeBytes = some result ∧
      ∃ data, Reads s (fun _ => 0) 0 2 (some 8) 1000 0 threeBytes result data := by
  intro s
  obtain ⟨plain,ended⟩ := readers_iff fullSpeed ⟨fun _ => 0,0,0,0⟩ [] s rfl 1000 0 (fun _ => 0) 0 2 threeBytes
  obtain ⟨result,returned⟩ := Option.isSome_iff_exists.mp
    (by decide : (readBytes fullSpeed 1000 0 s (fun _ => 0) 0 2 threeBytes).isSome = true)
  obtain ⟨result',returned'⟩ := Option.isSome_iff_exists.mp
    (by decide : (readBytesUntil fullSpeed 1000 0 s 8 (fun _ => 0) 0 2 threeBytes).isSome = true)
  exact ⟨⟨result,returned,(plain result returned).mpr (by decide)⟩,
    ⟨result',returned',(ended 8 result' returned').mpr (by decide)⟩⟩

/-- `readBytes(buffer, 65536)` returns at once with 65536. -/
theorem long_unread :
    ∃ result, readBytes fullSpeed 1000 0 (start fullSpeed ⟨fun _ => 0,0,0,0⟩) (fun _ => 0) 0 65536 [⟨[],[],0⟩] = some result ∧
      ¬ ∃ data, Reads (start fullSpeed ⟨fun _ => 0,0,0,0⟩) (fun _ => 0) 0 65536 none 1000 0 [⟨[],[],0⟩] result data := by
  refine ⟨_,rfl,fun reads => ?_⟩
  have short : (65536 : UInt32) < 65536 := (reads_iff (start_inv fullSpeed ⟨fun _ => 0,0,0,0⟩) rfl).mp reads
  exact absurd short (by decide)

end Calls

end OpenPlc.Usb.ReadBytes
