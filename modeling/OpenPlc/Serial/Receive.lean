import OpenPlc.Lib.Fifo
import OpenPlc.Lib.Ring
import OpenPlc.Lib.Run

/-! The receive path of `HardwareSerial`: `read`, `peek` and `available` on the main
thread, interrupted anywhere by `_rx_complete_irq`. -/
namespace OpenPlc.Serial.Receive
open OpenPlc.Ring

/-- `SERIAL_RX_BUFFER_SIZE`: the indices are at most `uint16_t`. -/
structure BufferSize where
  slots : Nat
  positive : 0 < slots
  fits : slots ≤ 65536

/-- The largest size with indices of eight bits -/
def byteSize : BufferSize := ⟨256,by decide,by decide⟩

/-- The conversion to `rx_buffer_index_t` -/
def BufferSize.index (n : BufferSize) (value : Nat) : Nat := value % if 256 < n.slots then 65536 else 256

inductive Operation where
  | read
  | peek
  | available

/-- Where a call stands, before its next access to the ring. -/
inductive Stage where
  | readCheck
  | readLoad
  | readAdvance (c : UInt8)
  | peekCheck
  | peekLoad
  | availableLoad

/-- What came in and what calls returned, where `none` is `-1`. -/
inductive Entry where
  | received (c : UInt8)
  | read (result : Option UInt8)
  | peek (result : Option UInt8)
  | available (result : Nat)

structure State where
  buffer : Nat → UInt8
  head : Nat
  tail : Nat
  stage : Option Stage
  log : List Entry

/-- `rx` carries what `uart_getc` reads, unless it fails. -/
inductive Event where
  | rx (c : Option UInt8)
  | call (operation : Operation)
  | main

def start (buffer : Nat → UInt8) : State := ⟨buffer,0,0,none,[]⟩

variable (n : BufferSize)

def rxCompleteIrq (s : State) : Option UInt8 → State
  | none => s
  | some c =>
    let s := {s with log := s.log ++ [.received c]}
    let i := n.index ((s.head + 1) % n.slots)
    if i ≠ s.tail then {s with buffer := Function.update s.buffer s.head c, head := i} else s

def enter : Operation → Stage
  | .read => .readCheck
  | .peek => .peekCheck
  | .available => .availableLoad

def leave (s : State) (entry : Entry) : State := {s with stage := none, log := s.log ++ [entry]}

def mainStep (s : State) : Stage → State
  | .readCheck => if s.head = s.tail then leave s (.read none) else {s with stage := some .readLoad}
  | .readLoad => {s with stage := some (.readAdvance (s.buffer s.tail))}
  | .readAdvance c => leave {s with tail := n.index (s.tail + 1) % n.slots} (.read (some c))
  | .peekCheck => if s.head = s.tail then leave s (.peek none) else {s with stage := some .peekLoad}
  | .peekLoad => leave s (.peek (some (s.buffer s.tail)))
  | .availableLoad => leave s (.available ((n.slots + s.head - s.tail) % n.slots))

def step (s : State) : Event → Option State
  | .rx c => some (rxCompleteIrq n s c)
  | .call operation => if s.stage.isSome then none else some {s with stage := some (enter operation)}
  | .main => s.stage.map (mainStep n s)

/-! The account that the log gives: which bytes were stored, and which of them a `read` returned. -/
section Account

/-- A byte is dropped if all places but one are taken, and a `read` that returns a byte takes the first. -/
def record (fifo : Fifo UInt8) : Entry → Fifo UInt8
  | .received c => if fifo.pending.length < n.slots - 1 then fifo.push [c] else fifo
  | .read (some _) => fifo.pop 1
  | .read none => fifo
  | .peek _ => fifo
  | .available _ => fifo

def account (log : List Entry) : Fifo UInt8 := log.foldl (record n) Fifo.empty

/-- What a call returns, in terms of the bytes that are stored at its end. -/
def Agrees (stored : List UInt8) : Entry → Prop
  | .received _ => True
  | .read result => result = stored.head?
  | .peek result => result = stored.head?
  | .available result => result = stored.length

def Answered (log : List Entry) : Prop :=
  ∀ before entry, before ++ [entry] <+: log → Agrees (account n before).pending entry

def returned (log : List Entry) : List UInt8 :=
  log.filterMap fun
    | .read result => result
    | _ => none

/-- A `peek` and the `read` that comes next. -/
structure Pair (log : List Entry) where
  before : List Entry
  peeked : Option UInt8
  between : List Entry
  next : Option UInt8
  logged : before ++ .peek peeked :: between ++ [.read next] <+: log
  nearest : ∀ result, .read result ∉ between

/-- The bytes that reads return are those that were stored, in their order; every call returns what is stored at its
end, so that a `read` returns what `peek` did, unless `peek` had none to return. -/
structure Correct (s : State) : Prop where
  head : s.head < n.slots
  tail : s.tail < n.slots
  stored : cells s.buffer n.slots s.tail (distance n.slots s.tail s.head) = (account n s.log).pending
  answered : Answered n s.log
  returned : returned s.log = (account n s.log).delivered
  peeked : ∀ pair : Pair s.log, pair.peeked ≠ none → pair.next = pair.peeked
  empty : ∀ pair : Pair s.log, pair.peeked = none → (∀ c, .received c ∉ pair.between) → pair.next = none

end Account

section Log
variable {n : BufferSize} {log : List Entry}

@[simp] theorem account_nil : account n [] = Fifo.empty := rfl

@[simp] theorem account_append (log : List Entry) (entry : Entry) :
    account n (log ++ [entry]) = record n (account n log) entry := by
  simp only [account,List.foldl_append,List.foldl_cons,List.foldl_nil]

theorem answered_append {entry : Entry} (answered : Answered n log) (agrees : Agrees (account n log).pending entry) :
    Answered n (log ++ [entry]) := by
  intro before last shorter
  rcases List.prefix_concat_iff.mp shorter with same | shorter
  · obtain ⟨rfl,last_⟩ := List.append_inj' same rfl
    cases last_
    exact agrees
  · exact answered before last shorter

theorem answered_front {entry : Entry} (answered : Answered n (log ++ [entry])) : Answered n log :=
  fun before last shorter => answered before last (shorter.trans (List.prefix_append log [entry]))

/-- What reads return is what they take. -/
theorem returned_eq (answered : Answered n log) : returned log = (account n log).delivered := by
  induction log using List.reverseRecOn with
  | nil => rfl
  | append_singleton log entry ih =>
    have before := ih (answered_front answered)
    have agrees := answered log entry (List.prefix_refl _)
    rw [returned] at before
    rw [returned,List.filterMap_append,before,account_append]
    cases entry with
    | received c =>
      rw [record]
      split_ifs <;> exact List.append_nil _
    | peek result => exact List.append_nil _
    | available result => exact List.append_nil _
    | read result =>
      cases result with
      | none => exact List.append_nil _
      | some c =>
        rw [record,Fifo.pop_delivered,List.take_one,← agrees]
        rfl

/-- Without a `read`, bytes are only stored, behind the others. -/
theorem stored_between (between : List Entry) (noRead : ∀ result, .read result ∉ between) :
    (account n log).pending <+: (account n (log ++ between)).pending := by
  induction between using List.reverseRecOn with
  | nil => rw [List.append_nil]
  | append_singleton between entry ih =>
    have before := ih fun result member => noRead result (List.mem_append_left _ member)
    rw [← List.append_assoc,account_append]
    cases entry with
    | received c =>
      rw [record]
      split_ifs
      · exact before.trans (List.prefix_append _ [c])
      · exact before
    | peek result => exact before
    | available result => exact before
    | read result => exact absurd (List.mem_append_right between (List.mem_singleton.mpr rfl)) (noRead result)

theorem stored_still (between : List Entry) (noRead : ∀ result, .read result ∉ between) (silent : ∀ c, .received c ∉ between) :
    (account n (log ++ between)).pending = (account n log).pending := by
  induction between using List.reverseRecOn with
  | nil => rw [List.append_nil]
  | append_singleton between entry ih =>
    have before := ih (fun result member => noRead result (List.mem_append_left _ member))
      (fun c member => silent c (List.mem_append_left _ member))
    rw [← List.append_assoc,account_append]
    cases entry with
    | received c => exact absurd (List.mem_append_right between (List.mem_singleton.mpr rfl)) (silent c)
    | peek result => exact before
    | available result => exact before
    | read result => exact absurd (List.mem_append_right between (List.mem_singleton.mpr rfl)) (noRead result)

theorem Pair.answers (pair : Pair log) (answered : Answered n log) :
    pair.peeked = (account n (pair.before ++ [.peek pair.peeked])).pending.head? ∧
      pair.next = (account n (pair.before ++ [.peek pair.peeked] ++ pair.between)).pending.head? := by
  obtain ⟨before,peeked,between,next,logged,_⟩ := pair
  have split : before ++ .peek peeked :: between ++ [.read next] = before ++ [.peek peeked] ++ between ++ [.read next] := by
    rw [List.append_assoc before [Entry.peek peeked] between,List.singleton_append]
  rw [split] at logged
  constructor
  · rw [account_append]
    exact answered before (.peek peeked) (((List.prefix_append _ between).trans (List.prefix_append _ _)).trans logged)
  · exact answered (before ++ [.peek peeked] ++ between) (.read next) logged

theorem Pair.next_eq (pair : Pair log) (answered : Answered n log) (some_ : pair.peeked ≠ none) : pair.next = pair.peeked := by
  obtain ⟨peeked,next⟩ := pair.answers answered
  have grows : (account n (pair.before ++ [.peek pair.peeked])).pending <+:
      (account n (pair.before ++ [.peek pair.peeked] ++ pair.between)).pending := stored_between pair.between pair.nearest
  obtain ⟨rest,stored⟩ := grows
  rw [next,← stored,List.head?_append,← peeked]
  obtain ⟨c,same⟩ := Option.ne_none_iff_exists'.mp some_
  rw [same,Option.some_or]

theorem Pair.next_none (pair : Pair log) (answered : Answered n log) (none_ : pair.peeked = none)
    (silent : ∀ c, .received c ∉ pair.between) : pair.next = none := by
  obtain ⟨peeked,next⟩ := pair.answers answered
  rw [next,stored_still pair.between pair.nearest silent,← peeked,none_]

end Log

section Steps
variable {n : BufferSize} {s : State}

theorem index_eq {value : Nat} (bound : value ≤ n.slots) : n.index value % n.slots = value % n.slots := by
  have fits := n.fits
  rw [BufferSize.index]
  split_ifs with wide
  · rcases Nat.lt_or_ge value 65536 with small | whole
    · rw [Nat.mod_eq_of_lt small]
    · rw [show value = n.slots by omega,show n.slots = 65536 by omega]
  · rcases Nat.lt_or_ge value 256 with small | whole
    · rw [Nat.mod_eq_of_lt small]
    · rw [show value = n.slots by omega,show n.slots = 256 by omega]

theorem index_lt {value : Nat} (bound : value < n.slots) : n.index value = value := by
  have fits := n.fits
  rw [BufferSize.index]
  split_ifs with wide
  · exact Nat.mod_eq_of_lt (by omega)
  · exact Nat.mod_eq_of_lt (by omega)

/-- What the check has found, which the interrupt does not undo. -/
def Stage.Holds (stored : List UInt8) : Stage → Prop
  | .readCheck => True
  | .readLoad => stored ≠ []
  | .readAdvance c => stored.head? = some c
  | .peekCheck => True
  | .peekLoad => stored ≠ []
  | .availableLoad => True

theorem Stage.Holds.append {stored : List UInt8} {stage : Stage} (holds : stage.Holds stored) (c : UInt8) :
    stage.Holds (stored ++ [c]) := by
  cases stage with
  | readCheck => trivial
  | readLoad => exact List.append_ne_nil_of_left_ne_nil holds [c]
  | readAdvance first =>
    change (stored ++ [c]).head? = some first
    rw [List.head?_append,show stored.head? = some first from holds,Option.some_or]
  | peekCheck => trivial
  | peekLoad => exact List.append_ne_nil_of_left_ne_nil holds [c]
  | availableLoad => trivial

structure Inv (n : BufferSize) (s : State) : Prop where
  head : s.head < n.slots
  tail : s.tail < n.slots
  stored : cells s.buffer n.slots s.tail (distance n.slots s.tail s.head) = (account n s.log).pending
  stage : ∀ stage, s.stage = some stage → stage.Holds (account n s.log).pending
  answered : Answered n s.log

theorem Inv.length (inv : Inv n s) : (account n s.log).pending.length = distance n.slots s.tail s.head := by
  rw [← inv.stored,cells_length]

theorem Inv.empty_iff (inv : Inv n s) : s.head = s.tail ↔ (account n s.log).pending = [] := by
  rw [← distance_eq_zero n.slots s.tail s.head inv.tail inv.head,← inv.length,List.length_eq_zero_iff]

theorem Inv.first (inv : Inv n s) (some_ : (account n s.log).pending ≠ []) :
    (account n s.log).pending.head? = some (s.buffer s.tail) := by
  rw [← inv.stored]
  refine cells_head s.buffer n.slots s.tail _ inv.tail ?_
  rw [← inv.length]
  exact List.length_pos_iff.mpr some_

theorem inv_rx (inv : Inv n s) (c : Option UInt8) : Inv n (rxCompleteIrq n s c) := by
  cases c with
  | none => exact inv
  | some c =>
    have used := distance_lt n.slots s.tail s.head n.positive
    have full := distance_full n.slots s.tail s.head inv.tail inv.head
    have answered : Answered n (s.log ++ [.received c]) := answered_append inv.answered trivial
    have next : n.index ((s.head + 1) % n.slots) = (s.head + 1) % n.slots := index_lt (Nat.mod_lt _ n.positive)
    simp only [rxCompleteIrq,next]
    by_cases room : (s.head + 1) % n.slots = s.tail
    · rw [if_neg (not_not.mpr room)]
      have dropped : account n (s.log ++ [.received c]) = account n s.log := by
        rw [account_append,record,inv.length,if_neg (by omega)]
      exact ⟨inv.head,inv.tail,by rw [dropped]; exact inv.stored,by rw [dropped]; exact inv.stage,answered⟩
    · rw [if_pos room]
      have some_ : distance n.slots s.tail s.head + 1 < n.slots := by omega
      have stored : (account n (s.log ++ [.received c])).pending = (account n s.log).pending ++ [c] := by
        rw [account_append,record,inv.length,if_pos (by omega),Fifo.push_pending]
      refine ⟨Nat.mod_lt _ n.positive,inv.tail,?_,fun stage here => ?_,answered⟩
      · have place := distance_head n.slots s.tail s.head inv.tail inv.head
        rw [stored,distance_push n.slots s.tail s.head 1 inv.tail inv.head some_,← inv.stored]
        nth_rewrite 1 [← place]
        exact cells_update s.buffer n.slots s.tail _ c inv.tail used
      · rw [stored]
        exact (inv.stage stage here).append c

theorem inv_leave (inv : Inv n s) {entry : Entry} (agrees : Agrees (account n s.log).pending entry)
    (same : record n (account n s.log) entry = account n s.log) : Inv n (leave s entry) where
  head := inv.head
  tail := inv.tail
  stored := by rw [leave,account_append,same]; exact inv.stored
  stage _ here := absurd here.symm (Option.some_ne_none _)
  answered := answered_append inv.answered agrees

theorem inv_check (inv : Inv n s) {entry : Entry} {stage : Stage} (agrees : Agrees [] entry)
    (same : record n (account n s.log) entry = account n s.log) (holds : ∀ stored, stored ≠ [] → stage.Holds stored) :
    Inv n (if s.head = s.tail then leave s entry else {s with stage := some stage}) := by
  split_ifs with empty
  · refine inv_leave inv ?_ same
    rw [inv.empty_iff.mp empty]
    exact agrees
  · refine ⟨inv.head,inv.tail,inv.stored,fun _ next => ?_,inv.answered⟩
    cases Option.some.inj next
    exact holds _ fun none_ => empty (inv.empty_iff.mpr none_)

/-- The store of the tail, which frees the place of the byte that the call returns. -/
theorem inv_advance (inv : Inv n s) (c : UInt8) (first : (account n s.log).pending.head? = some c) :
    Inv n (mainStep n s (.readAdvance c)) := by
  have some_ : 1 ≤ distance n.slots s.tail s.head := by
    rw [← inv.length]
    exact List.length_pos_iff.mpr fun empty => by simp [empty] at first
  have next : n.index (s.tail + 1) % n.slots = (s.tail + 1) % n.slots := index_eq inv.tail
  have agrees : Agrees (account n s.log).pending (.read (some c)) := first.symm
  refine ⟨inv.head,Nat.mod_lt _ n.positive,?_,fun _ here => absurd here.symm (Option.some_ne_none _),
    answered_append inv.answered agrees⟩
  simp only [mainStep,leave,account_append,record,Fifo.pop_pending,next]
  rw [distance_pop n.slots s.tail s.head 1 inv.tail inv.head some_,← cells_drop s.buffer n.slots s.tail _ 1 some_,inv.stored]

theorem inv_main (inv : Inv n s) {stage : Stage} (here : s.stage = some stage) : Inv n (mainStep n s stage) := by
  have holds := inv.stage stage here
  cases stage with
  | readCheck => exact inv_check inv rfl rfl fun _ some_ => some_
  | readLoad =>
    refine ⟨inv.head,inv.tail,inv.stored,fun _ next => ?_,inv.answered⟩
    cases Option.some.inj next
    exact inv.first holds
  | readAdvance c => exact inv_advance inv c holds
  | peekCheck => exact inv_check inv rfl rfl fun _ some_ => some_
  | peekLoad => exact inv_leave inv (inv.first holds).symm rfl
  | availableLoad =>
    refine inv_leave inv ?_ rfl
    have sum : n.slots + s.head - s.tail = s.head + n.slots - s.tail := by omega
    change (n.slots + s.head - s.tail) % n.slots = (account n s.log).pending.length
    rw [inv.length,distance,sum]

theorem inv_step (event : Event) (next : State) (inv : Inv n s) (taken : step n s event = some next) : Inv n next := by
  cases event with
  | rx c =>
    cases Option.some.inj taken
    exact inv_rx inv c
  | call operation =>
    rw [step] at taken
    split_ifs at taken
    cases Option.some.inj taken
    refine ⟨inv.head,inv.tail,inv.stored,fun stage here => ?_,inv.answered⟩
    cases Option.some.inj here
    cases operation <;> trivial
  | main =>
    obtain ⟨stage,here,rfl⟩ := Option.map_eq_some_iff.mp taken
    exact inv_main inv here

theorem inv_start (buffer : Nat → UInt8) : Inv n (start buffer) where
  head := n.positive
  tail := n.positive
  stored := by rw [(distance_eq_zero n.slots (start buffer).tail (start buffer).head n.positive n.positive).mpr rfl]; rfl
  stage _ here := absurd here.symm (Option.some_ne_none _)
  answered before entry shorter := by
    have none_ : before ++ [entry] = [] := List.prefix_nil.mp shorter
    exact absurd none_ (List.append_ne_nil_of_right_ne_nil before (List.cons_ne_nil entry []))

theorem correct_of_inv (inv : Inv n s) : Correct n s where
  head := inv.head
  tail := inv.tail
  stored := inv.stored
  answered := inv.answered
  returned := returned_eq inv.answered
  peeked pair some_ := pair.next_eq inv.answered some_
  empty pair none_ silent := pair.next_none inv.answered none_ silent

/-- Whatever interrupts come between the steps of the calls. -/
theorem receive_correct (n : BufferSize) (buffer : Nat → UInt8) (events : List Event)
    (reached : Run.after (step n) (start buffer) events = some s) : Correct n s :=
  correct_of_inv (Run.invariant (Inv n) (fun _ event next => inv_step event next) (start buffer) s events (inv_start buffer) reached)

end Steps

/-- A byte that comes between a `peek` and the next `read`. -/
def interrupted : List Event := [.call .peek,.main,.rx (some 7),.call .read,.main,.main,.main]

theorem receive_correct_interrupted :
    ∃ s, Run.after (step byteSize) (start fun _ => 0) interrupted = some s ∧ Correct byteSize s :=
  ⟨_,rfl,receive_correct byteSize (fun _ => 0) interrupted rfl⟩

theorem peek_before_read : ¬ ∀ events s, Run.after (step byteSize) (start fun _ => 0) events = some s →
    ∀ pair : Pair s.log, pair.next = pair.peeked := by
  intro claimed
  have pair := claimed interrupted _ rfl ⟨[],none,[.received 7],some 7,List.prefix_refl _,fun result member => by simp at member⟩
  exact Option.some_ne_none 7 pair

end OpenPlc.Serial.Receive
