import OpenPlc.Lib.Fifo
import OpenPlc.Lib.Run
import OpenPlc.Virtio.Buffer

/-! The virtual serial port (`VirtIOSerial.cpp`) over the mailbox and the messages of the host processor. The host puts
messages into the vring and kicks, the interrupt notes it, and the calls of the program poll. -/
namespace OpenPlc.Virtio.Serial
open Buffer

/-- `sends` tells whether `OPENAMP_send` gets a buffer. -/
inductive Operation where
  | available
  | peek
  | read
  | readBytes (length : Nat)
  | write (data : List UInt8) (sends : Bool)
  | flush

/-- What is left of a call: the check of the mailbox, the loop of `rpmsg_virtio_rx_callback`, the reset of the flag
behind it, and what the call does itself. -/
inductive Stage where
  | wait
  | check
  | notified
  | clear
  | availableLoad
  | peekLoad
  | readCheck
  | readOne
  | readMany (length : Nat)
  | transmit (data : List UInt8) (sends : Bool)
deriving DecidableEq

/-- The part of a message that was stored, and what calls returned. -/
inductive Entry where
  | message (kept : List UInt8)
  | available (count : Nat)
  | peek (result : Option UInt8)
  | read (result : Option UInt8)
  | readBytes (length : Nat) (data : List UInt8)
  | write (data : List UInt8) (result : Nat)

/-- The messages that were taken from the vring, how many of them by the notification under way, and those that were
sent. -/
structure History where
  taken : List (List UInt8)
  handled : Nat
  transmitted : List (List UInt8)
  log : List Entry

structure State where
  ring : Buffer
  firstMessageDiscarded : Bool
  endPointReady : Bool
  vring : List (List UInt8)
  kicked : Bool
  newMsg : Bool
  todo : List Stage
  history : History

inductive Event where
  | host (message : List UInt8)
  | interrupt
  | call (operation : Operation)
  | main

/-- `begin`, which waits for the first message. -/
def start (ring : Buffer) : State := ⟨init ring,false,false,[],false,false,[.wait],⟨[],0,[],[]⟩⟩

variable (n : Config)

/-- The loop of `rxCallback`, which is never left if it makes no progress. -/
def copy (src : List UInt8) : Nat → Buffer → Nat → Option Buffer
  | _,ring,0 => some ring
  | 0,_,_ + 1 => none
  | fuel + 1,ring,size + 1 =>
    let wrote := write n ring (src.take (size + 1))
    copy src fuel wrote.1 (size + 1 - wrote.2)

/-- `rxCallback` of a message, with the ring and the number of bytes that it copies. -/
def rxCallback (s : State) (message : List UInt8) : Option (Buffer × Nat) :=
  let rxXferSize := if s.firstMessageDiscarded then message.length else 0
  let size := min rxXferSize (writeAvailable n s.ring)
  (copy n message size s.ring size).map fun ring => (ring,size)

def enter : Operation → List Stage
  | .available => [.check,.availableLoad]
  | .peek => [.check,.peekLoad]
  | .read => [.check,.readCheck]
  | .readBytes length => [.check,.readMany length,.check]
  | .write data sends => [.check,.transmit data sends]
  | .flush => [.check]

def State.answer (s : State) (entry : Entry) : State := {s with history := {s.history with log := s.history.log ++ [entry]}}

/-- `MAILBOX_Poll` of the receiving vring -/
def poll (s : State) : State :=
  {s with todo := (if s.newMsg then [.notified,.clear] else []) ++ s.todo, history := {s.history with handled := 0}}

/-- A message was copied, and its place in the vring is given back. -/
def State.handle (s : State) (message : List UInt8) (rest : List (List UInt8)) (copied : Buffer × Nat) : State :=
  {s with
    ring := copied.1
    firstMessageDiscarded := true
    endPointReady := true
    vring := rest
    todo := .notified :: s.todo
    history := {s.history with
      taken := s.history.taken ++ [message]
      handled := s.history.handled + 1
      log := s.history.log ++ [.message (message.take copied.2)]}}

/-- One turn of `rpmsg_virtio_rx_callback` -/
def turn (s : State) : Option State :=
  match s.vring with
  | [] => some s
  | message :: rest => (rxCallback n s message).map (s.handle message rest)

/-- `s` has the stage no more. -/
def run (s : State) : Stage → Option State
  | .wait => some (if s.endPointReady then s else poll {s with todo := .wait :: s.todo})
  | .check => some (if n.total ≤ writeAvailable n s.ring then poll s else s)
  | .notified => turn n s
  | .clear => some {s with newMsg := false}
  | .availableLoad => some (s.answer (.available (readAvailable n s.ring)))
  | .peekLoad =>
    some (s.answer (.peek (if 0 < readAvailable n s.ring then (read n s.ring 1 true).2.head? else none)))
  | .readCheck =>
    some (if 0 < readAvailable n s.ring then {s with todo := [.check,.readOne,.check] ++ s.todo} else s.answer (.read none))
  | .readOne =>
    let copied := read n s.ring 1 false
    some ({s with ring := copied.1}.answer (.read copied.2.head?))
  | .readMany length =>
    let copied := read n s.ring (length % 65536) false
    some ({s with ring := copied.1}.answer (.readBytes length copied.2))
  | .transmit data sends =>
    let size := data.length % 65536
    some (if n.payload < size ∨ sends = false then s.answer (.write data 0)
      else {s with
        todo := .check :: s.todo
        history := {s.history with transmitted := s.history.transmitted ++ [data.take size]}}.answer (.write data data.length))

/-- The host has as many messages under way as the vring has places. -/
def step (s : State) : Event → Option State
  | .host message =>
    if message.length ≤ n.payload ∧ s.vring.length < n.buffs then some {s with vring := s.vring ++ [message], kicked := true} else none
  | .interrupt => if s.kicked then some {s with kicked := false, newMsg := true} else none
  | .call operation => if s.todo = [] then some {s with todo := enter operation} else none
  | .main =>
    match s.todo with
    | [] => none
    | stage :: rest => run n {s with todo := rest} stage

/-- A notification brings as many messages as the vring has places, as the size of the ring supposes, and no more than
fits into `uint16_t` is written at once. -/
def Bounded (s : State) : Event → Prop
  | .main => s.todo.head? = some .notified → s.vring ≠ [] → s.history.handled < n.buffs
  | .call (.write data _) => data.length < 65536
  | _ => True

instance (s : State) (event : Event) : Decidable (Bounded n s event) :=
  match event with
  | .main => inferInstanceAs (Decidable (s.todo.head? = some .notified → s.vring ≠ [] → s.history.handled < n.buffs))
  | .call (.write data _) => inferInstanceAs (Decidable (data.length < 65536))
  | .call .available | .call .peek | .call .read | .call (.readBytes _) | .call .flush => isTrue trivial
  | .host _ | .interrupt => isTrue trivial

section Account

def record (fifo : Fifo UInt8) : Entry → Fifo UInt8
  | .message kept => fifo.push kept
  | .read (some _) => fifo.pop 1
  | .readBytes length _ => fifo.pop (length % 65536)
  | .read none => fifo
  | .available _ => fifo
  | .peek _ => fifo
  | .write _ _ => fifo

def account (log : List Entry) : Fifo UInt8 := log.foldl record Fifo.empty

/-- What a call returns, in terms of the bytes that are stored then. -/
def Agrees (stored : List UInt8) : Entry → Prop
  | .message _ => True
  | .available count => count = stored.length
  | .peek result => result = stored.head?
  | .read result => result = stored.head?
  | .readBytes length data => data = stored.take (length % 65536)
  | .write data result => result = 0 ∨ result = data.length

def Answered (log : List Entry) : Prop :=
  ∀ before entry, before ++ [entry] <+: log → Agrees (account before).pending entry

def returned (log : List Entry) : List UInt8 :=
  log.flatMap fun
    | .read result => result.toList
    | .readBytes _ data => data
    | _ => []

/-- What the calls of `write` report as sent. -/
def written (log : List Entry) : List UInt8 :=
  log.flatMap fun
    | .write data result => data.take result
    | _ => []

end Account

/-- The messages that the host sent. -/
def messages (events : List Event) : List (List UInt8) :=
  events.filterMap fun
    | .host message => some message
    | _ => none

/-- No byte is lost, doubled or moved on its way: what came behind the first message was returned, or is stored, or is
under way; every call returns what is stored; what is sent is what `write` reports; and no call hangs. -/
structure Correct (sent : List (List UInt8)) (s : State) : Prop where
  received : (sent.drop 1).flatten =
    returned s.history.log ++ stored n s.ring ++ (s.vring.drop (if s.firstMessageDiscarded then 0 else 1)).flatten
  stored : stored n s.ring = (account s.history.log).pending
  answered : Answered s.history.log
  transmitted : s.history.transmitted.flatten = written s.history.log
  runs : s.todo ≠ [] → Bounded n s .main → (step n s .main).isSome = true

section Log
variable {log : List Entry}

@[simp] theorem account_append (log : List Entry) (entry : Entry) : account (log ++ [entry]) = record (account log) entry := by
  simp only [account,List.foldl_append,List.foldl_cons,List.foldl_nil]

theorem answered_append {entry : Entry} (answered : Answered log) (agrees : Agrees (account log).pending entry) :
    Answered (log ++ [entry]) := by
  intro before last shorter
  rcases List.prefix_concat_iff.mp shorter with same | shorter
  · obtain ⟨rfl,last_⟩ := List.append_inj' same rfl
    cases last_
    exact agrees
  · exact answered before last shorter

theorem returned_append (log : List Entry) (entry : Entry) : returned (log ++ [entry]) = returned log ++ returned [entry] :=
  List.flatMap_append ..

theorem written_append (log : List Entry) (entry : Entry) : written (log ++ [entry]) = written log ++ written [entry] :=
  List.flatMap_append ..

/-- What calls return is what they take. -/
theorem returned_eq (answered : Answered log) : returned log = (account log).delivered := by
  induction log using List.reverseRecOn with
  | nil => rfl
  | append_singleton log entry ih =>
    have before := ih fun first last shorter => answered first last (shorter.trans (List.prefix_append log [entry]))
    have agrees := answered log entry (List.prefix_refl _)
    rw [returned_append,before,account_append]
    cases entry with
    | message kept => exact List.append_nil _
    | available count => exact List.append_nil _
    | peek result => exact List.append_nil _
    | write data result => exact List.append_nil _
    | read result =>
      cases result with
      | none => exact List.append_nil _
      | some c =>
        rw [record,Fifo.pop_delivered,List.take_one,← show some c = _ from agrees]
        rfl
    | readBytes length data =>
      rw [record,Fifo.pop_delivered,← show data = _ from agrees]
      exact congrArg _ (List.append_nil data)

end Log

section Steps
variable {n : Config} {s next : State}

theorem copy_stored {ring : Buffer} (valid : Valid n ring) (src : List UInt8) (size : Nat) (within : size ≤ src.length)
    (free : size ≤ n.size - 1 - (stored n ring).length) :
    ∃ final, copy n src size ring size = some final ∧ Valid n final ∧ stored n final = stored n ring ++ src.take size := by
  cases size with
  | zero => exact ⟨ring,by rw [copy],valid,(List.append_nil _).symm⟩
  | succ size =>
    have length : (src.take (size + 1)).length = size + 1 := List.length_take_of_le within
    have whole : accepted n ring (src.take (size + 1)) = src.take (size + 1) := accepted_whole (by rw [length]; exact free)
    refine ⟨(write n ring (src.take (size + 1))).1,?_,write_valid valid _,?_⟩
    · rw [copy,write_count valid,whole,length,Nat.sub_self,copy]
    · rw [write_stored valid,whole]

theorem rxCallback_stored (valid : Valid n s.ring) (message : List UInt8) :
    ∃ ring, rxCallback n s message =
        some (ring,min (if s.firstMessageDiscarded then message.length else 0) (n.size - 1 - (stored n s.ring).length)) ∧
      Valid n ring ∧ stored n ring = stored n s.ring ++
        message.take (min (if s.firstMessageDiscarded then message.length else 0) (n.size - 1 - (stored n s.ring).length)) := by
  have within : min (if s.firstMessageDiscarded then message.length else 0) (n.size - 1 - (stored n s.ring).length) ≤ message.length := by
    refine (Nat.min_le_left _ _).trans ?_
    split_ifs
    · exact le_refl _
    · exact Nat.zero_le _
  obtain ⟨ring,copied,final,held⟩ := copy_stored valid message _ within (Nat.min_le_right _ _)
  refine ⟨ring,?_,final,held⟩
  rw [rxCallback,writeAvailable,wrapped_free valid]
  simp only [copied,Option.map_some]

/-- The stages that end with bytes taken from the ring. -/
def consuming : Stage → Bool
  | .readCheck | .readOne | .readMany _ => true
  | _ => false

structure Inv (n : Config) (s : State) : Prop where
  valid : Valid n s.ring
  stored : stored n s.ring = (account s.history.log).pending
  answered : Answered s.history.log
  once : s.todo.countP consuming ≤ 1
  found : .readOne ∈ s.todo → (account s.history.log).pending ≠ []
  first : s.firstMessageDiscarded = decide (s.history.taken ≠ [])
  ready : s.endPointReady = s.firstMessageDiscarded
  small : ∀ message ∈ s.vring, message.length ≤ n.payload
  lossless : (account s.history.log).accepted = (s.history.taken.drop 1).flatten
  room : .notified ∈ s.todo → n.payload * (n.buffs - s.history.handled) ≤ n.size - 1 - (account s.history.log).pending.length
  short : ∀ data sends, .transmit data sends ∈ s.todo → data.length < 65536
  transmitted : s.history.transmitted.flatten = written s.history.log

theorem Inv.rest (inv : Inv n s) {stage : Stage} {rest : List Stage} (here : s.todo = stage :: rest) : Inv n {s with todo := rest} := by
  have once := inv.once
  have found := inv.found
  have room := inv.room
  rw [here] at once found room
  exact ⟨inv.valid,inv.stored,inv.answered,((List.sublist_cons_self stage rest).countP_le).trans once,
    fun member => found (List.mem_cons_of_mem stage member),inv.first,inv.ready,inv.small,inv.lossless,
    fun member => room (List.mem_cons_of_mem stage member),
    fun data sends member => inv.short data sends (here ▸ List.mem_cons_of_mem stage member),inv.transmitted⟩

theorem inv_todo (inv : Inv n s) {todo : List Stage} (once : todo.countP consuming ≤ 1)
    (found : .readOne ∈ todo → (account s.history.log).pending ≠ [])
    (room : .notified ∈ todo → n.payload * (n.buffs - s.history.handled) ≤ n.size - 1 - (account s.history.log).pending.length)
    (short : ∀ data sends, .transmit data sends ∈ todo → data.length < 65536) : Inv n {s with todo := todo} :=
  ⟨inv.valid,inv.stored,inv.answered,once,found,inv.first,inv.ready,inv.small,inv.lossless,room,short,inv.transmitted⟩

theorem inv_poll (inv : Inv n s) (free : n.total ≤ n.size - 1 - (account s.history.log).pending.length) : Inv n (poll s) := by
  have added : ∀ stage ∈ (if s.newMsg then [Stage.notified,.clear] else []), stage = .notified ∨ stage = .clear := by
    split_ifs <;> simp
  refine ⟨inv.valid,inv.stored,inv.answered,?_,?_,inv.first,inv.ready,inv.small,inv.lossless,fun _ => free,?_,inv.transmitted⟩
  · rw [poll,List.countP_append,List.countP_eq_zero.mpr,Nat.zero_add]
    · exact inv.once
    · intro stage member
      rcases added stage member with rfl | rfl <;> decide
  · intro member
    rcases List.mem_append.mp member with before | behind
    · rcases added _ before with same | same <;> contradiction
    · exact inv.found behind
  · intro data sends member
    rcases List.mem_append.mp member with before | behind
    · rcases added _ before with same | same <;> contradiction
    · exact inv.short data sends behind

theorem inv_answer (inv : Inv n s) {entry : Entry} (agrees : Agrees (account s.history.log).pending entry)
    (same : record (account s.history.log) entry = account s.history.log) (silent : written [entry] = []) :
    Inv n (s.answer entry) := by
  refine ⟨inv.valid,?_,answered_append inv.answered agrees,inv.once,?_,inv.first,inv.ready,inv.small,?_,?_,inv.short,?_⟩
  · rw [State.answer,account_append,same]
    exact inv.stored
  · rw [State.answer,account_append,same]
    exact inv.found
  · rw [State.answer,account_append,same]
    exact inv.lossless
  · rw [State.answer,account_append,same]
    exact inv.room
  · rw [State.answer,written_append,silent,List.append_nil]
    exact inv.transmitted

/-- A call takes bytes from the ring and returns them. -/
theorem inv_take (inv : Inv n s) {entry : Entry} (count : Nat) (last : .readOne ∉ s.todo)
    (agrees : Agrees (account s.history.log).pending entry)
    (pops : record (account s.history.log) entry = (account s.history.log).pop count) (silent : written [entry] = []) :
    Inv n ({s with ring := (read n s.ring count false).1}.answer entry) := by
  refine ⟨read_valid inv.valid count,?_,answered_append inv.answered agrees,inv.once,fun member => absurd member last,inv.first,inv.ready,
    inv.small,?_,?_,inv.short,?_⟩
  · simp only [State.answer,account_append,pops,Fifo.pop_pending]
    rw [read_stored inv.valid,inv.stored]
  · rw [State.answer,account_append,pops]
    exact inv.lossless
  · intro member
    rw [State.answer,account_append,pops,Fifo.pop_pending,List.length_drop]
    exact (inv.room member).trans (Nat.sub_le_sub_left (Nat.sub_le _ _) _)
  · rw [State.answer,written_append,silent,List.append_nil]
    exact inv.transmitted

theorem Inv.last {stage : Stage} {rest : List Stage} (inv : Inv n s) (here : s.todo = stage :: rest) (consumes : consuming stage = true) :
    rest.countP consuming = 0 ∧ .readOne ∉ rest := by
  have once := inv.once
  rw [here,List.countP_cons_of_pos consumes] at once
  have none_ : rest.countP consuming = 0 := by omega
  exact ⟨none_,fun member => absurd (List.countP_eq_zero.mp none_ _ member) (by decide)⟩

/-- The message is stored whole, but for the first one, of which nothing is. -/
theorem inv_handle (inv : Inv n s) {message : List UInt8} {rest : List (List UInt8)} (queue : s.vring = message :: rest)
    (free : n.payload * (n.buffs - s.history.handled) ≤ n.size - 1 - (account s.history.log).pending.length)
    (few : s.history.handled < n.buffs) :
    ∃ copied, rxCallback n s message = some copied ∧ Inv n (s.handle message rest copied) := by
  have small := inv.small message (queue ▸ List.mem_cons_self)
  have split : n.payload * (n.buffs - s.history.handled) = n.payload * (n.buffs - (s.history.handled + 1)) + n.payload := by
    rw [← Nat.mul_succ]
    congr 1
    omega
  have space : message.length ≤ n.size - 1 - (account s.history.log).pending.length := by omega
  obtain ⟨ring,copied,valid,held⟩ := rxCallback_stored inv.valid message
  rw [inv.stored] at copied held
  generalize same : min (if s.firstMessageDiscarded then message.length else 0)
    (n.size - 1 - (account s.history.log).pending.length) = size at copied held
  have kept : message.take size = if s.firstMessageDiscarded then message else [] := by
    rw [← same]
    split_ifs
    · rw [Nat.min_eq_left space,List.take_length]
    · rw [Nat.zero_min,List.take_zero]
  have pushed : account (s.handle message rest (ring,size)).history.log = (account s.history.log).push (message.take size) := by
    rw [State.handle,account_append,record]
  have more : (message.take size).length ≤ n.payload := (List.length_take_le' _ _).trans small
  refine ⟨(ring,size),copied,valid,?_,answered_append inv.answered trivial,?_,?_,?_,rfl,
    fun other among => inv.small other (queue ▸ List.mem_cons_of_mem message among),?_,?_,
    fun data sends member => inv.short data sends ((List.mem_cons.mp member).resolve_left nofun),?_⟩
  · rw [pushed,Fifo.push_pending]
    exact held
  · exact inv.once
  · intro member
    rw [pushed,Fifo.push_pending]
    exact List.append_ne_nil_of_left_ne_nil (inv.found ((List.mem_cons.mp member).resolve_left nofun)) _
  · simp [State.handle]
  · rw [pushed,Fifo.push_accepted,inv.lossless,kept,inv.first]
    cases taken : s.history.taken with
    | nil => simp [State.handle,taken]
    | cons first later => simp [State.handle,taken]
  · intro _
    rw [pushed,Fifo.push_pending,List.length_append]
    change n.payload * (n.buffs - (s.history.handled + 1)) ≤ _
    omega
  · rw [State.handle,written_append]
    exact inv.transmitted.trans (List.append_nil _).symm

theorem inv_turn (inv : Inv n s) (free : n.payload * (n.buffs - s.history.handled) ≤
      n.size - 1 - (account s.history.log).pending.length) (bounded : s.vring ≠ [] → s.history.handled < n.buffs) :
    ∃ next, turn n s = some next ∧ Inv n next ∧ next.history.taken ++ next.vring = s.history.taken ++ s.vring := by
  rw [turn]
  cases queue : s.vring with
  | nil => exact ⟨s,rfl,inv,by rw [queue]⟩
  | cons message rest =>
    obtain ⟨copied,called,onward⟩ := inv_handle inv queue free (bounded (queue ▸ List.cons_ne_nil message rest))
    refine ⟨s.handle message rest copied,by simp only [called,Option.map_some],onward,?_⟩
    simp [State.handle]

/-- The messages that the host has sent. -/
def State.sent (s : State) : List (List UInt8) := s.history.taken ++ s.vring

theorem inv_wait {rest : List Stage} (inv : Inv n s) (here : s.todo = .wait :: rest) :
    ∃ next, run n {s with todo := rest} .wait = some next ∧ Inv n next ∧ next.sent = s.sent := by
  refine ⟨_,rfl,?_,?_⟩
  · split_ifs with ready
    · exact inv.rest here
    · have unset : s.endPointReady = false := Bool.not_eq_true _ ▸ ready
      have none_ : s.history.taken = [] := by
        have unready := inv.ready.symm.trans unset
        rw [inv.first] at unready
        exact not_not.mp (of_decide_eq_false unready)
      have empty : (account s.history.log).pending = [] := by
        have ledger := (account s.history.log).ledger
        rw [inv.lossless,none_] at ledger
        exact (List.append_eq_nil_iff.mp ledger).2
      have same : ({s with todo := .wait :: rest} : State) = s := by rw [← here]
      change Inv n (poll {s with todo := .wait :: rest})
      rw [same]
      refine inv_poll inv ?_
      have room := n.room
      rw [empty,List.length_nil]
      exact Nat.le_sub_one_of_lt room
  · split_ifs <;> rfl

theorem inv_readCheck {rest : List Stage} (inv : Inv n s) (here : s.todo = .readCheck :: rest) :
    ∃ next, run n {s with todo := rest} .readCheck = some next ∧ Inv n next ∧ next.sent = s.sent := by
  obtain ⟨none_,_⟩ := inv.last here rfl
  have dropped := inv.rest here
  have used : readAvailable n s.ring = (account s.history.log).pending.length := by rw [readAvailable,wrapped_used inv.valid,inv.stored]
  simp only [run,used]
  split_ifs with some_
  · refine ⟨_,rfl,inv_todo dropped ?_ (fun _ => List.length_pos_iff.mp some_) ?_ ?_,rfl⟩
    · rw [List.countP_append,none_]
      decide
    · intro member
      exact dropped.room ((List.mem_append.mp member).resolve_left (by decide))
    · intro data sends member
      exact dropped.short data sends ((List.mem_append.mp member).resolve_left (by simp))
  · refine ⟨_,rfl,inv_answer dropped ?_ rfl rfl,rfl⟩
    rw [List.length_eq_zero_iff.mp (Nat.eq_zero_of_not_pos some_)]
    rfl

theorem inv_transmit {rest : List Stage} {data : List UInt8} {sends : Bool} (inv : Inv n s)
    (here : s.todo = .transmit data sends :: rest) :
    ∃ next, run n {s with todo := rest} (.transmit data sends) = some next ∧ Inv n next ∧ next.sent = s.sent := by
  have dropped := inv.rest here
  have short := inv.short data sends (here ▸ List.mem_cons_self)
  refine ⟨_,rfl,?_,?_⟩
  · split_ifs
    · exact inv_answer dropped (Or.inl rfl) rfl rfl
    · have checked : Inv n {s with todo := .check :: rest} := inv_todo (s := {s with todo := rest}) dropped dropped.once
        (fun member => dropped.found ((List.mem_cons.mp member).resolve_left nofun))
        (fun member => dropped.room ((List.mem_cons.mp member).resolve_left nofun))
        fun data sends member => dropped.short data sends ((List.mem_cons.mp member).resolve_left nofun)
      obtain ⟨valid,stored,answered,once,found,first,ready,small,lossless,room,fits,transmitted⟩ := checked
      refine ⟨valid,?_,answered_append answered (Or.inr rfl),once,?_,first,ready,small,?_,?_,fits,?_⟩
      · rw [State.answer,account_append]
        exact stored
      · rw [State.answer,account_append]
        exact found
      · rw [State.answer,account_append]
        exact lossless
      · rw [State.answer,account_append]
        exact room
      · rw [State.answer,written_append]
        simp only [List.flatten_append,Nat.mod_eq_of_lt short]
        rw [transmitted]
        simp [written]
  · split_ifs <;> rfl

theorem inv_main {stage : Stage} {rest : List Stage} (inv : Inv n s) (here : s.todo = stage :: rest) (bounded : Bounded n s .main) :
    ∃ next, run n {s with todo := rest} stage = some next ∧ Inv n next ∧ next.sent = s.sent := by
  have dropped := inv.rest here
  cases stage with
  | wait => exact inv_wait inv here
  | check =>
    refine ⟨_,rfl,?_,?_⟩
    · rw [writeAvailable,wrapped_free inv.valid,inv.stored]
      split_ifs with free
      · exact inv_poll dropped free
      · exact dropped
    · split_ifs <;> rfl
  | notified => exact inv_turn dropped (inv.room (here ▸ List.mem_cons_self)) (bounded (by rw [here]; rfl))
  | clear =>
    exact ⟨_,rfl,⟨dropped.valid,dropped.stored,dropped.answered,dropped.once,dropped.found,dropped.first,dropped.ready,dropped.small,
      dropped.lossless,dropped.room,dropped.short,dropped.transmitted⟩,rfl⟩
  | availableLoad =>
    refine ⟨_,rfl,inv_answer dropped ?_ rfl rfl,rfl⟩
    rw [readAvailable,wrapped_used inv.valid,inv.stored]
    rfl
  | peekLoad =>
    refine ⟨_,rfl,inv_answer dropped ?_ rfl rfl,rfl⟩
    rw [readAvailable,wrapped_used inv.valid,read_data inv.valid,inv.stored]
    change _ = (account s.history.log).pending.head?
    cases (account s.history.log).pending <;> rfl
  | readCheck => exact inv_readCheck inv here
  | readOne =>
    obtain ⟨none_,last⟩ := inv.last here rfl
    have some_ := inv.found (here ▸ List.mem_cons_self)
    refine ⟨_,rfl,inv_take dropped 1 last ?_ ?_ rfl,rfl⟩
    · rw [read_data inv.valid,inv.stored]
      change _ = (account s.history.log).pending.head?
      cases (account s.history.log).pending <;> rfl
    · rw [read_data inv.valid,inv.stored]
      cases pending : (account s.history.log).pending with
      | nil => exact absurd pending some_
      | cons c more => rfl
  | readMany length =>
    obtain ⟨none_,last⟩ := inv.last here rfl
    refine ⟨_,rfl,inv_take dropped (length % 65536) last ?_ rfl rfl,rfl⟩
    rw [read_data inv.valid,inv.stored]
    rfl
  | transmit data sends => exact inv_transmit inv here

theorem inv_call {operation : Operation} (inv : Inv n s) (bounded : Bounded n s (.call operation)) :
    Inv n {s with todo := enter operation} := by
  refine inv_todo inv ?_ ?_ ?_ ?_
  · cases operation <;> simp [enter,consuming,List.countP_cons]
  · cases operation <;> simp [enter]
  · cases operation <;> simp [enter]
  · cases operation with
    | write data sends =>
      intro other others member
      simp only [enter,List.mem_cons,List.not_mem_nil,or_false,reduceCtorEq,false_or,Stage.transmit.injEq] at member
      rw [member.1]
      exact bounded
    | available | peek | read | readBytes | flush => simp [enter]

theorem inv_step (event : Event) (inv : Inv n s) (bounded : Bounded n s event) (taken : step n s event = some next) :
    Inv n next ∧ next.sent = s.sent ++ messages [event] := by
  cases event with
  | host message =>
    rw [step] at taken
    split_ifs at taken with fits
    cases Option.some.inj taken
    refine ⟨⟨inv.valid,inv.stored,inv.answered,inv.once,inv.found,inv.first,inv.ready,?_,inv.lossless,inv.room,inv.short,
      inv.transmitted⟩,(List.append_assoc ..).symm⟩
    intro other among
    rcases List.mem_append.mp among with before | last
    · exact inv.small other before
    · rw [List.mem_singleton.mp last]
      exact fits.1
  | interrupt =>
    rw [step] at taken
    split_ifs at taken
    cases Option.some.inj taken
    exact ⟨⟨inv.valid,inv.stored,inv.answered,inv.once,inv.found,inv.first,inv.ready,inv.small,inv.lossless,inv.room,inv.short,
      inv.transmitted⟩,(List.append_nil _).symm⟩
  | call operation =>
    rw [step] at taken
    split_ifs at taken
    cases Option.some.inj taken
    exact ⟨inv_call inv bounded,(List.append_nil _).symm⟩
  | main =>
    rw [step] at taken
    cases here : s.todo with
    | nil =>
      rw [here] at taken
      contradiction
    | cons stage rest =>
      rw [here] at taken
      obtain ⟨final,runs,onward,sent⟩ := inv_main inv here bounded
      cases Option.some.inj (runs.symm.trans taken)
      exact ⟨onward,sent.trans (List.append_nil _).symm⟩

theorem inv_start (ring : Buffer) : Inv n (start ring) :=
  ⟨init_valid ring,init_stored ring,fun before entry shorter =>
    absurd (List.prefix_nil.mp shorter) (List.append_ne_nil_of_right_ne_nil before (List.cons_ne_nil entry [])),Nat.zero_le 1,
    by simp [start],rfl,rfl,nofun,rfl,by simp [start],by simp [start],rfl⟩

end Steps

end OpenPlc.Virtio.Serial
