import OpenPlc.Lib.Fifo
import OpenPlc.Lib.Ring
import OpenPlc.Lib.Run

/-! The transmit path of `HardwareSerial`: `write` on the main thread, with its calls
of itself, interrupted anywhere by `_tx_complete_irq`. The HAL takes a non-empty
range when it is idle and ignores any other. -/
namespace OpenPlc.Serial.Transmit
open Memory OpenPlc.Ring

/-- `SERIAL_TX_BUFFER_SIZE`: the indices are at most `uint16_t`. -/
structure RingSize where
  slots : Nat
  positive : 0 < slots
  fits : slots ≤ 65536

def defaultSize : RingSize := ⟨64,by decide,by decide⟩

/-- Where a call of `write` stands; the argument is `size_intermediate`. -/
inductive Stage
  | enter
  | wait
  | split
  | again
  | copy
  | publish (intermediate : Nat)
  | check (intermediate : Nat)
  | kick (intermediate : Nat)
  | attach (intermediate : Nat)

/-- The locals of the running call; `size` is the length of `buffer`. -/
structure Call where
  stage : Stage
  buffer : List UInt8
  ret : Nat
  available : Nat
  tillEnd : Nat

/-- What a call that waits for its inner call still needs: the inner call reads
`available` and `available_till_buffer_end` afresh. -/
structure Caller where
  buffer : List UInt8
  intermediate : Nat
  ret : Nat

structure State where
  buffer : Nat → UInt8
  head : Nat
  tail : Nat
  txSize : Nat
  hal : Option (Nat × Nat)
  call : Option Call
  callers : List Caller
  written : List UInt8
  accepted : List UInt8
  handed : List (Nat × List UInt8)
  sizes : List Nat
  returned : List Nat

inductive Event
  | write (buffer : List UInt8)
  | main
  | txComplete

def start (buffer : Nat → UInt8) : State := ⟨buffer,0,0,0,none,none,[],[],[],[],[],[]⟩

def availableForWrite (n : RingSize) (s : State) : Nat :=
  if s.tail ≤ s.head then n.slots - 1 - s.head + s.tail else s.tail - s.head - 1

/-- `uart_attach_tx_callback`: `HAL_UART_Transmit_IT` from `tx_tail` on. -/
def attachTxCallback (s : State) (size : Nat) : State :=
  let size := size % 65536
  let s := {s with handed := s.handed ++ [(s.tail,slice s.buffer s.tail size)]}
  if s.hal.isNone ∧ 0 < size then {s with hal := some (s.tail,size)} else s

/-- `_tx_complete_irq` behind the HAL, which is ready again when it calls back. -/
def txCompleteIrq (n : RingSize) (s : State) : State :=
  let s := {s with hal := none, tail := (s.tail + s.txSize) % n.slots}
  if s.head ≠ s.tail then
    let remaining := (n.slots + s.head - s.tail) % n.slots
    let s := {s with txSize := min remaining (n.slots - s.tail)}
    attachTxCallback s s.txSize
  else s

def enter (buffer : List UInt8) : Call := ⟨.enter,buffer,buffer.length,0,0⟩

/-- `return ret`: to the call that waits, or out of `write`. -/
def leave (s : State) (call : Call) : State :=
  match s.callers with
  | [] => {s with call := none, returned := s.returned ++ [call.ret]}
  | caller :: callers => {s with
      call := some ⟨.again,caller.buffer.drop caller.intermediate,caller.ret,0,0⟩, callers := callers}

def mainStep (n : RingSize) (s : State) (call : Call) : State :=
  match call.stage with
  | .enter => {s with call := some {call with
      available := availableForWrite n s, tillEnd := n.slots - s.head, stage := .wait}}
  | .wait =>
    if availableForWrite n s = 0 then s else {s with call := some {call with stage := .split}}
  | .split =>
    if call.tillEnd < call.buffer.length ∨ call.available < call.buffer.length then
      let intermediate := min call.available call.tillEnd
      {s with
        call := some (enter (call.buffer.take intermediate)),
        callers := ⟨call.buffer,intermediate,call.ret⟩ :: s.callers}
    else {s with call := some {call with stage := .copy}}
  | .again => {s with call := some {call with
      available := availableForWrite n s, tillEnd := n.slots - s.head, stage := .split}}
  | .copy =>
    if s.head + call.buffer.length ≤ n.slots then {s with
      buffer := blit s.buffer s.head call.buffer,
      call := some {call with stage := .publish call.buffer.length}}
    else
      let intermediate := n.slots - s.head
      {s with
        buffer := blit (blit s.buffer s.head (call.buffer.take intermediate)) 0 (call.buffer.drop intermediate),
        call := some {call with stage := .publish intermediate}}
  | .publish intermediate => {s with
      head := (s.head + call.buffer.length) % n.slots, accepted := s.accepted ++ call.buffer,
      call := some {call with stage := .check intermediate}}
  | .check intermediate =>
    if s.hal.isSome then leave s call else {s with call := some {call with stage := .kick intermediate}}
  | .kick intermediate => {s with
      txSize := intermediate, call := some {call with stage := .attach intermediate}}
  | .attach intermediate => leave (attachTxCallback s intermediate) call

/-- The interrupt comes only for a transfer that the HAL has taken. -/
def step (n : RingSize) (s : State) : Event → Option State
  | .write buffer =>
    match s.call with
    | none => some {s with
        call := some (enter buffer), written := s.written ++ buffer, sizes := s.sizes ++ [buffer.length]}
    | some _ => none
  | .main => s.call.map (mainStep n s)
  | .txComplete => if s.hal.isSome then some (txCompleteIrq n s) else none

/-- The bytes of the running call that `tx_head` does not cover yet. -/
def Call.owed (call : Call) : List UInt8 :=
  match call.stage with
  | .check _ => []
  | .kick _ => []
  | .attach _ => []
  | _ => call.buffer

def owed (s : State) : List UInt8 :=
  (s.call.map Call.owed).getD [] ++ s.callers.flatMap fun caller => caller.buffer.drop caller.intermediate

/-- What a run owes the caller and the line in every state. -/
structure Faithful (n : RingSize) (s : State) : Prop where
  ordered : (s.handed.flatMap Prod.snd) <+: s.accepted
  drained : s.head = s.tail → s.handed.flatMap Prod.snd = s.accepted
  account : s.accepted ++ owed s = s.written
  kept : ∀ event next, step n s event = some next → ∀ i, i < distance n.slots s.tail s.head →
    next.buffer ((s.tail + i) % n.slots) = s.buffer ((s.tail + i) % n.slots)
  flying : ∀ offset count, s.hal = some (offset,count) → ∃ done block, s.handed = done ++ [(offset,block)] ∧
    offset = s.tail ∧ count ≤ distance n.slots s.tail s.head ∧ slice s.buffer offset count = block
  contiguous : ∀ range, range ∈ s.handed → range.1 + range.2.length ≤ n.slots
  returns : s.returned <+: s.sizes ∧ (s.call = none → s.returned = s.sizes)

/-- The slots in use hold the range in flight, then what waits, then what the running
call has copied without having moved `tx_head`. -/
structure Core (n : RingSize) (s : State) (staged : List UInt8) (flight : Option (List UInt8))
    (fifo : Fifo UInt8) : Prop where
  head_lt : s.head < n.slots
  tail_lt : s.tail < n.slots
  accepted : fifo.accepted = s.accepted
  delivered : fifo.delivered = s.handed.flatMap Prod.snd
  waiting : distance n.slots s.tail s.head = (flight.getD [] ++ fifo.pending).length
  ring : cells s.buffer n.slots s.tail (distance n.slots s.tail s.head + staged.length) = flight.getD [] ++ fifo.pending ++ staged
  flying : ∀ block, flight = some block → s.hal = some (s.tail,block.length) ∧ s.txSize = block.length ∧
    s.tail + block.length ≤ n.slots ∧ ∃ done, s.handed = done ++ [(s.tail,block)]
  grounded : flight = none → s.hal = none
  contiguous : ∀ range, range ∈ s.handed → range.1 + range.2.length ≤ n.slots

def Call.staged (call : Call) : List UInt8 :=
  match call.stage with
  | .publish _ => call.buffer
  | _ => []

/-- A transfer of `size_intermediate` bytes, if it is to be started and anything waits,
takes bytes that wait and lie in one piece. -/
def Startable (n : RingSize) (s : State) (flight : Option (List UInt8)) (fifo : Fifo UInt8)
    (intermediate : Nat) : Prop :=
  intermediate < n.slots ∧ (flight = none → fifo.pending ≠ [] →
    s.tail + intermediate ≤ n.slots ∧ intermediate ≤ fifo.pending.length ∧ 0 < intermediate)

def Quiet (flight : Option (List UInt8)) (fifo : Fifo UInt8) : Prop := flight = none → fifo.pending = []

/-- What holds of the running call at each stage. -/
def StageInv (n : RingSize) (s : State) (flight : Option (List UInt8)) (fifo : Fifo UInt8) (call : Call) : Prop :=
  match call.stage with
  | .enter => Quiet flight fifo
  | .again => Quiet flight fifo
  | .wait => distance n.slots s.tail s.head + call.available < n.slots ∧ Quiet flight fifo
  | .split => distance n.slots s.tail s.head + call.available < n.slots ∧ Quiet flight fifo
  | .copy => distance n.slots s.tail s.head + call.buffer.length < n.slots ∧ Quiet flight fifo
  | .publish intermediate => distance n.slots s.tail s.head + call.buffer.length < n.slots ∧ intermediate ≤ call.buffer.length ∧
      s.head + intermediate ≤ n.slots ∧ (intermediate = 0 → call.buffer = []) ∧ Quiet flight fifo
  | .check intermediate => Startable n s flight fifo intermediate
  | .kick intermediate => s.hal = none ∧ Startable n s flight fifo intermediate
  | .attach intermediate => s.hal = none ∧ s.txSize = intermediate ∧ Startable n s flight fifo intermediate

/-- The size that the outermost call will return. -/
def outermost (call : Call) (callers : List Caller) : Nat :=
  (callers.getLast?.map Caller.ret).getD call.ret

structure Inv (n : RingSize) (s : State) (flight : Option (List UInt8)) (fifo : Fifo UInt8) : Prop where
  core : Core n s ((s.call.map Call.staged).getD []) flight fifo
  stage : ∀ call, s.call = some call → StageInv n s flight fifo call
  account : s.accepted ++ owed s = s.written
  idle : s.call = none → s.callers = [] ∧ s.returned = s.sizes ∧ Quiet flight fifo
  busy : ∀ call, s.call = some call → s.sizes = s.returned ++ [outermost call s.callers]

theorem Inv.going {n : RingSize} {s : State} {flight : Option (List UInt8)} {fifo : Fifo UInt8} (inv : Inv n s flight fifo)
    (call : Call) (running : s.call = some call) :
    Core n s call.staged flight fifo ∧
      s.accepted ++ (call.owed ++ s.callers.flatMap fun caller => caller.buffer.drop caller.intermediate) = s.written := by
  have core := inv.core
  have account := inv.account
  simp only [running,Option.map_some,Option.getD_some] at core
  simp only [owed,running,Option.map_some,Option.getD_some] at account
  exact ⟨core,account⟩

theorem start_inv (n : RingSize) (buffer : Nat → UInt8) : Inv n (start buffer) none Fifo.empty := by
  refine ⟨⟨n.positive,n.positive,rfl,rfl,?_,?_,by simp,by simp [start],by simp [start]⟩,by simp [start],rfl,?_,
    by simp [start]⟩
  · simp [start,Fifo.empty,distance]
  · simp [start,Fifo.empty,distance]
  · exact fun _ => ⟨rfl,rfl,fun _ => rfl⟩

@[simp] theorem attach_buffer (s : State) (size : Nat) : (attachTxCallback s size).buffer = s.buffer := by
  simp only [attachTxCallback]
  split <;> rfl

@[simp] theorem attach_tail (s : State) (size : Nat) : (attachTxCallback s size).tail = s.tail := by
  simp only [attachTxCallback]
  split <;> rfl

@[simp] theorem attach_head (s : State) (size : Nat) : (attachTxCallback s size).head = s.head := by
  simp only [attachTxCallback]
  split <;> rfl

/-- The fields that belong to the main thread alone. -/
def locals (s : State) : Option Call × List Caller × List UInt8 × List UInt8 × List Nat × List Nat :=
  (s.call,s.callers,s.written,s.accepted,s.sizes,s.returned)

theorem attach_locals (s : State) (size : Nat) : locals (attachTxCallback s size) = locals s := by
  simp only [attachTxCallback]
  split <;> rfl

@[simp] theorem irq_buffer (n : RingSize) (s : State) : (txCompleteIrq n s).buffer = s.buffer := by
  simp only [txCompleteIrq]
  split
  · rw [attach_buffer]
  · rfl

@[simp] theorem irq_head (n : RingSize) (s : State) : (txCompleteIrq n s).head = s.head := by
  simp only [txCompleteIrq]
  split
  · rw [attach_head]
  · rfl

theorem irq_locals (n : RingSize) (s : State) : locals (txCompleteIrq n s) = locals s := by
  simp only [txCompleteIrq]
  split
  · rw [attach_locals]
    rfl
  · rfl

theorem core_call {n : RingSize} {s : State} {staged : List UInt8} {flight : Option (List UInt8)}
    {fifo : Fifo UInt8} (core : Core n s staged flight fifo) (call : Option Call) (callers : List Caller)
    (written : List UInt8) (sizes returned : List Nat) :
    Core n {s with call := call, callers := callers, written := written, sizes := sizes, returned := returned}
      staged flight fifo :=
  ⟨core.head_lt,core.tail_lt,core.accepted,core.delivered,core.waiting,core.ring,core.flying,core.grounded,
    core.contiguous⟩

theorem attach_core (n : RingSize) (s : State) (staged : List UInt8) (fifo : Fifo UInt8) (size : Nat)
    (core : Core n s staged none fifo) (set : s.txSize = size) (small : size < n.slots)
    (piece : 0 < size → s.tail + size ≤ n.slots ∧ size ≤ fifo.pending.length) :
    ∃ flight, Core n (attachTxCallback s size) staged flight (fifo.pop size) ∧ (flight = none → size = 0) := by
  have fits := n.fits
  have free := core.grounded rfl
  have waiting := core.waiting
  have ring := core.ring
  have short : size % 65536 = size := Nat.mod_eq_of_lt (by omega)
  simp only [Option.getD_none,List.nil_append] at waiting ring
  by_cases some_ : 0 < size
  · obtain ⟨flat,within⟩ := piece some_
    have block : slice s.buffer s.tail size = fifo.pending.take size := by
      rw [slice_front _ _ _ _ size _ ring (by omega) flat,List.take_append_of_le_length (by omega)]
    have long : (fifo.pending.take size).length = size := by
      rw [List.length_take]
      omega
    have attached : attachTxCallback s size = {s with
        handed := s.handed ++ [(s.tail,fifo.pending.take size)], hal := some (s.tail,size)} := by
      simp [attachTxCallback,short,free,some_,block]
    rw [attached]
    refine ⟨some (fifo.pending.take size),⟨core.head_lt,core.tail_lt,core.accepted,?_,?_,?_,?_,by simp,?_⟩,by simp⟩
    · simp [core.delivered]
    · simpa only [Option.getD_some,Fifo.pop_pending,List.take_append_drop] using waiting
    · simpa only [Option.getD_some,Fifo.pop_pending,List.take_append_drop] using ring
    · intro other chosen
      cases Option.some.inj chosen
      rw [long]
      exact ⟨rfl,set,flat,s.handed,rfl⟩
    · refine List.forall_mem_append.mpr ⟨core.contiguous,List.forall_mem_singleton.mpr ?_⟩
      rw [long]
      exact flat
  · have none_ : size = 0 := by omega
    have attached : attachTxCallback s size = {s with handed := s.handed ++ [(s.tail,[])]} := by
      simp [attachTxCallback,none_]
    rw [attached]
    refine ⟨none,⟨core.head_lt,core.tail_lt,core.accepted,?_,?_,?_,by simp,fun _ => free,?_⟩,fun _ => none_⟩
    · simp [core.delivered,none_]
    · simpa [none_] using waiting
    · simpa [none_] using ring
    · exact List.forall_mem_append.mpr ⟨core.contiguous,List.forall_mem_singleton.mpr core.tail_lt.le⟩

theorem irq_core (n : RingSize) (s : State) (staged block : List UInt8) (fifo : Fifo UInt8)
    (core : Core n s staged (some block) fifo) :
    ∃ flight fifo', Core n (txCompleteIrq n s) staged flight fifo' ∧ Quiet flight fifo' ∧
      distance n.slots (txCompleteIrq n s).tail (txCompleteIrq n s).head ≤ distance n.slots s.tail s.head := by
  obtain ⟨_,sized,flat,_⟩ := core.flying block rfl
  have before := core.tail_lt
  have after := core.head_lt
  have waiting := core.waiting
  have ring := core.ring
  simp only [Option.getD_some,List.length_append,List.append_assoc] at waiting ring
  have shrunk : distance n.slots ((s.tail + s.txSize) % n.slots) s.head =
      distance n.slots s.tail s.head - s.txSize := distance_pop _ _ _ _ before after (by omega)
  have moved : Core n {s with hal := none, tail := (s.tail + s.txSize) % n.slots} staged none fifo := by
    refine ⟨after,Nat.mod_lt _ n.positive,core.accepted,core.delivered,?_,?_,by simp,fun _ => rfl,core.contiguous⟩
    · simp only [shrunk,Option.getD_none,List.nil_append]
      omega
    · have rest := cells_behind _ _ _ _ block _ ring
      simp only [shrunk,Option.getD_none,List.nil_append]
      rw [sized,← rest]
      congr 1
      omega
  have waits := moved.waiting
  simp only [Option.getD_none,List.nil_append] at waits
  have inside := moved.tail_lt
  unfold txCompleteIrq
  dsimp only
  split
  · rename_i pending
    have remaining : (n.slots + s.head - (s.tail + s.txSize) % n.slots) % n.slots = fifo.pending.length := by
      rw [Nat.add_comm n.slots]
      exact waits
    rw [remaining]
    have bound := distance_lt n.slots ((s.tail + s.txSize) % n.slots) s.head n.positive
    have some_ : fifo.pending.length ≠ 0 := by
      rw [← waits]
      intro zero
      exact pending ((distance_eq_zero _ _ _ inside after).mp zero)
    simp only at inside
    have set : Core n {s with hal := none, tail := (s.tail + s.txSize) % n.slots,
                              txSize := min fifo.pending.length (n.slots - (s.tail + s.txSize) % n.slots)}
        staged none fifo :=
      ⟨moved.head_lt,moved.tail_lt,moved.accepted,moved.delivered,moved.waiting,moved.ring,by simp,fun _ => rfl,
        moved.contiguous⟩
    obtain ⟨flight,onward,stops⟩ := attach_core n _ staged fifo _ set rfl (by dsimp only; omega)
      (fun _ => ⟨by dsimp only; omega,by dsimp only; omega⟩)
    refine ⟨flight,_,onward,fun free => ?_,?_⟩
    · have := stops free
      dsimp only at this
      omega
    · simp only [attach_tail,attach_head,shrunk]
      omega
  · rename_i caught
    refine ⟨none,fifo,moved,fun _ => ?_,?_⟩
    · apply List.eq_nil_of_length_eq_zero
      rw [← waits]
      exact (distance_eq_zero _ _ _ inside after).mpr (by simpa using caught)
    · simp only [shrunk]
      omega

theorem irq_inv (n : RingSize) (s : State) (flight : Option (List UInt8)) (fifo : Fifo UInt8)
    (inv : Inv n s flight fifo) (sending : s.hal.isSome) :
    ∃ flight fifo, Inv n (txCompleteIrq n s) flight fifo := by
  have kept := irq_locals n s
  simp only [locals,Prod.mk.injEq] at kept
  obtain ⟨call,callers,written,accepted,sizes,returned⟩ := kept
  cases flight with
  | none => simp [inv.core.grounded rfl] at sending
  | some block =>
    obtain ⟨flight',fifo',core,quiet,fewer⟩ := irq_core n s _ block fifo inv.core
    refine ⟨flight',fifo',?_,?_,?_,?_,?_⟩
    · rw [call]
      exact core
    · rw [call]
      intro running standing
      have before := inv.stage running standing
      unfold StageInv at before ⊢
      rw [irq_head] at fewer ⊢
      cases stage : running.stage with
      | enter => exact quiet
      | again => exact quiet
      | wait =>
        simp only [stage] at before ⊢
        exact ⟨by omega,quiet⟩
      | split =>
        simp only [stage] at before ⊢
        exact ⟨by omega,quiet⟩
      | copy =>
        simp only [stage] at before ⊢
        exact ⟨by omega,quiet⟩
      | publish intermediate =>
        simp only [stage] at before ⊢
        obtain ⟨room,within,flat,none_,_⟩ := before
        exact ⟨by omega,within,flat,none_,quiet⟩
      | check intermediate =>
        simp only [stage] at before ⊢
        exact ⟨before.1,fun free some_ => absurd (quiet free) some_⟩
      | kick intermediate =>
        simp only [stage] at before
        simp [before.1] at sending
      | attach intermediate =>
        simp only [stage] at before
        simp [before.1] at sending
    · simp only [owed,call,callers,accepted,written]
      exact inv.account
    · rw [call,callers,returned,sizes]
      intro idle
      obtain ⟨none_,all,_⟩ := inv.idle idle
      exact ⟨none_,all,quiet⟩
    · rw [call,callers,returned,sizes]
      exact inv.busy

/-- When `write` starts a transfer, what it has just copied is still in the ring. -/
def Unsent (s : State) : Event → Prop
  | .main => ∀ call intermediate, s.call = some call → call.stage = .attach intermediate →
      intermediate = 0 ∨ s.head ≠ s.tail
  | _ => True

theorem available_eq (n : RingSize) (s : State) (first : s.tail < n.slots) (second : s.head < n.slots) :
    distance n.slots s.tail s.head + availableForWrite n s = n.slots - 1 := by
  unfold availableForWrite
  rcases distance_cases n.slots s.tail s.head first second with ⟨flat,used⟩ | ⟨wrapped,used⟩
  · simp only [flat,if_true]
    omega
  · simp only [Nat.not_le.mpr wrapped,if_false]
    omega

theorem outermost_push (call inner : Call) (caller : Caller) (callers : List Caller) (same : caller.ret = call.ret) :
    outermost inner (caller :: callers) = outermost call callers := by
  cases callers with
  | nil => simp [outermost,same]
  | cons next rest => simp [outermost,List.getLast?_cons]

theorem leave_inv (n : RingSize) (s : State) (call : Call) (flight : Option (List UInt8)) (fifo : Fifo UInt8)
    (core : Core n s [] flight fifo) (quiet : Quiet flight fifo)
    (account : s.accepted ++ (s.callers.flatMap fun caller => caller.buffer.drop caller.intermediate) = s.written)
    (busy : s.sizes = s.returned ++ [outermost call s.callers]) : Inv n (leave s call) flight fifo := by
  unfold leave
  split
  · rename_i out
    rw [out] at account busy
    refine ⟨core_call core _ _ _ _ _,by simp,?_,?_,by simp⟩
    · simpa [owed,out] using account
    · intro _
      exact ⟨out,busy.symm,quiet⟩
  · rename_i caller callers waiting
    rw [waiting] at account busy
    refine ⟨core_call core _ _ _ _ _,?_,?_,by simp,?_⟩
    · intro running standing
      cases Option.some.inj standing
      exact quiet
    · simpa [owed,Call.owed] using account
    · intro running standing
      cases Option.some.inj standing
      rw [busy,← outermost_push _ call caller callers rfl]

/-- Both ways to copy write the bytes behind `tx_head`, and the first piece ends with the storage. -/
theorem copy_cases (n : RingSize) (s : State) (call : Call) (standing : call.stage = .copy) (inside : s.head < n.slots) :
    ∃ intermediate, intermediate ≤ call.buffer.length ∧ s.head + intermediate ≤ n.slots ∧
      (intermediate = 0 → call.buffer = []) ∧ mainStep n s call = {s with
        buffer := wrapBlit s.buffer n.slots s.head call.buffer,
        call := some {call with stage := .publish intermediate}} := by
  simp only [mainStep,standing]
  by_cases flat : s.head + call.buffer.length ≤ n.slots
  · refine ⟨call.buffer.length,Nat.le_refl _,flat,List.eq_nil_of_length_eq_zero,?_⟩
    rw [if_pos flat,wrapBlit_flat _ _ _ _ (by omega)]
  · refine ⟨n.slots - s.head,by omega,by omega,by omega,?_⟩
    rw [if_neg flat]
    rfl

theorem copy_inv (n : RingSize) (s : State) (call : Call) (flight : Option (List UInt8)) (fifo : Fifo UInt8)
    (inv : Inv n s flight fifo) (running : s.call = some call) (standing : call.stage = .copy) :
    Inv n (mainStep n s call) flight fifo := by
  have stage := inv.stage call running
  obtain ⟨core,account⟩ := inv.going call running
  have busy := inv.busy call running
  simp only [Call.owed,standing] at account
  simp only [StageInv,standing] at stage
  simp only [Call.staged,standing] at core
  obtain ⟨intermediate,within,flat,none_,same⟩ := copy_cases n s call standing core.head_lt
  have ring := core.ring
  simp only [List.length_nil,Nat.add_zero,List.append_nil] at ring
  have appended := cells_wrapBlit s.buffer n.slots s.tail (distance n.slots s.tail s.head) call.buffer
    core.tail_lt (by omega)
  rw [distance_head _ _ _ core.tail_lt core.head_lt,ring] at appended
  rw [same]
  refine ⟨⟨core.head_lt,core.tail_lt,core.accepted,core.delivered,core.waiting,appended,core.flying,core.grounded,
    core.contiguous⟩,?_,account,by simp,?_⟩
  · intro other other_running
    cases Option.some.inj other_running
    exact ⟨stage.1,within,flat,none_,stage.2⟩
  · intro other other_running
    cases Option.some.inj other_running
    exact busy

theorem publish_inv (n : RingSize) (s : State) (call : Call) (intermediate : Nat) (flight : Option (List UInt8))
    (fifo : Fifo UInt8) (inv : Inv n s flight fifo) (running : s.call = some call)
    (standing : call.stage = .publish intermediate) :
    Inv n (mainStep n s call) flight (fifo.push call.buffer) := by
  have stage := inv.stage call running
  obtain ⟨core,account⟩ := inv.going call running
  have busy := inv.busy call running
  simp only [Call.owed,standing] at account
  simp only [StageInv,standing] at stage
  simp only [Call.staged,standing] at core
  obtain ⟨room,within,flat,none_,quiet⟩ := stage
  have waiting := core.waiting
  have grown := distance_push n.slots s.tail s.head call.buffer.length core.tail_lt core.head_lt room
  simp only [mainStep,standing]
  refine ⟨⟨Nat.mod_lt _ n.positive,core.tail_lt,?_,core.delivered,?_,?_,core.flying,core.grounded,core.contiguous⟩,
    ?_,?_,by simp,?_⟩
  · simp [core.accepted]
  · simp only [grown,waiting,Fifo.push_pending,List.length_append]
    omega
  · simp only [grown,Option.map_some,Option.getD_some,Call.staged,List.length_nil,Nat.add_zero,
      Fifo.push_pending,List.append_nil,← List.append_assoc]
    exact core.ring
  · intro other other_running
    cases Option.some.inj other_running
    refine ⟨by omega,?_⟩
    intro free some_
    have before := quiet free
    rw [free,before] at waiting
    have empty : s.head = s.tail := (distance_eq_zero _ _ _ core.tail_lt core.head_lt).mp waiting
    simp only [Fifo.push_pending,before,List.nil_append] at some_ ⊢
    refine ⟨by omega,within,?_⟩
    apply Nat.pos_of_ne_zero
    exact fun zero => some_ (none_ zero)
  · simpa [owed,Call.owed] using account
  · intro other other_running
    cases Option.some.inj other_running
    exact busy

theorem attach_inv (n : RingSize) (s : State) (call : Call) (intermediate : Nat) (flight : Option (List UInt8))
    (fifo : Fifo UInt8) (inv : Inv n s flight fifo) (running : s.call = some call)
    (standing : call.stage = .attach intermediate) (unsent : intermediate = 0 ∨ s.head ≠ s.tail) :
    ∃ flight fifo, Inv n (mainStep n s call) flight fifo := by
  have stage := inv.stage call running
  obtain ⟨core,account⟩ := inv.going call running
  have busy := inv.busy call running
  have kept := attach_locals s intermediate
  simp only [locals,Prod.mk.injEq] at kept
  obtain ⟨_,callers,written,accepted,sizes,returned⟩ := kept
  simp only [Call.owed,standing,List.nil_append] at account
  simp only [StageInv,standing] at stage
  simp only [Call.staged,standing] at core
  obtain ⟨free,set,small,piece⟩ := stage
  have grounded : flight = none := by
    cases flight with
    | none => rfl
    | some block => simp [(core.flying block rfl).1] at free
  subst grounded
  have waiting := core.waiting
  simp only [Option.getD_none,List.nil_append] at waiting
  have empty := distance_eq_zero n.slots s.tail s.head core.tail_lt core.head_lt
  obtain ⟨flight',onward,stops⟩ := attach_core n s [] fifo intermediate core set small (by
    intro some_
    have pending : fifo.pending ≠ [] := by
      intro none_
      rw [none_,List.length_nil,empty] at waiting
      omega
    exact ⟨(piece rfl pending).1,(piece rfl pending).2.1⟩)
  refine ⟨flight',fifo.pop intermediate,?_⟩
  simp only [mainStep,standing]
  apply leave_inv n _ call flight' _ onward
  · intro none_
    have zero := stops none_
    rw [zero,Fifo.pop_pending,List.drop_zero]
    by_contra pending
    have := (piece rfl pending).2.2
    omega
  · rw [callers,accepted,written]
    exact account
  · rw [callers,sizes,returned]
    exact busy

theorem look_inv (n : RingSize) (s : State) (call next : Call) (flight : Option (List UInt8)) (fifo : Fifo UInt8)
    (inv : Inv n s flight fifo) (running : s.call = some call) (ret : next.ret = call.ret)
    (same : next.owed = call.owed) (copied : next.staged = call.staged) (stage : StageInv n s flight fifo next) :
    Inv n {s with call := some next} flight fifo := by
  obtain ⟨core,account⟩ := inv.going call running
  have busy := inv.busy call running
  refine ⟨?_,?_,?_,by simp,?_⟩
  · simp only [Option.map_some,Option.getD_some,copied]
    exact core_call core _ _ _ _ _
  · intro other other_running
    cases Option.some.inj other_running
    cases at_ : next.stage <;> simpa only [StageInv,at_,Startable] using stage
  · simpa only [owed,Option.map_some,Option.getD_some,same] using account
  · intro other other_running
    cases Option.some.inj other_running
    simpa only [outermost,ret] using busy

theorem mainStep_inv (n : RingSize) (s : State) (call : Call) (flight : Option (List UInt8)) (fifo : Fifo UInt8)
    (inv : Inv n s flight fifo) (running : s.call = some call) (unsent : Unsent s .main) :
    ∃ flight fifo, Inv n (mainStep n s call) flight fifo := by
  have stage := inv.stage call running
  have room := available_eq n s inv.core.tail_lt inv.core.head_lt
  have positive := n.positive
  cases standing : call.stage with
  | enter =>
    simp only [StageInv,standing] at stage
    simp only [mainStep,standing]
    refine ⟨flight,fifo,look_inv n s call _ flight fifo inv running rfl (by simp [Call.owed,standing])
      (by simp [Call.staged,standing]) ?_⟩
    exact ⟨by dsimp only; omega,stage⟩
  | again =>
    simp only [StageInv,standing] at stage
    simp only [mainStep,standing]
    refine ⟨flight,fifo,look_inv n s call _ flight fifo inv running rfl (by simp [Call.owed,standing])
      (by simp [Call.staged,standing]) ?_⟩
    exact ⟨by dsimp only; omega,stage⟩
  | wait =>
    simp only [StageInv,standing] at stage
    simp only [mainStep,standing]
    split
    · exact ⟨flight,fifo,inv⟩
    · exact ⟨flight,fifo,look_inv n s call _ flight fifo inv running rfl (by simp [Call.owed,standing])
        (by simp [Call.staged,standing]) stage⟩
  | split =>
    simp only [StageInv,standing] at stage
    simp only [mainStep,standing]
    split
    · obtain ⟨core,account⟩ := inv.going call running
      have busy := inv.busy call running
      simp only [Call.staged,standing] at core
      simp only [Call.owed,standing] at account
      refine ⟨flight,fifo,core_call core _ _ _ _ _,?_,?_,by simp,?_⟩
      · intro other other_running
        cases Option.some.inj other_running
        exact stage.2
      · simpa [owed,Call.owed,enter,← List.append_assoc] using account
      · intro other other_running
        cases Option.some.inj other_running
        dsimp only
        rw [outermost_push call _ _ _ rfl]
        exact busy
    · rename_i short
      refine ⟨flight,fifo,look_inv n s call _ flight fifo inv running rfl (by simp [Call.owed,standing])
        (by simp [Call.staged,standing]) ?_⟩
      exact ⟨by dsimp only; omega,stage.2⟩
  | copy => exact ⟨flight,fifo,copy_inv n s call flight fifo inv running standing⟩
  | publish intermediate => exact ⟨flight,_,publish_inv n s call intermediate flight fifo inv running standing⟩
  | check intermediate =>
    simp only [StageInv,standing] at stage
    simp only [mainStep,standing]
    split
    · rename_i sending
      obtain ⟨core,account⟩ := inv.going call running
      simp only [Call.staged,standing] at core
      simp only [Call.owed,standing,List.nil_append] at account
      refine ⟨flight,fifo,leave_inv n s call flight fifo core ?_ account (inv.busy call running)⟩
      intro free
      simp [core.grounded free] at sending
    · rename_i idle
      exact ⟨flight,fifo,look_inv n s call _ flight fifo inv running rfl (by simp [Call.owed,standing])
        (by simp [Call.staged,standing]) ⟨by simpa using idle,stage⟩⟩
  | kick intermediate =>
    simp only [StageInv,standing] at stage
    simp only [mainStep,standing]
    obtain ⟨free,startable⟩ := stage
    obtain ⟨core,account⟩ := inv.going call running
    have busy := inv.busy call running
    simp only [Call.staged,standing] at core
    simp only [Call.owed,standing] at account
    refine ⟨flight,fifo,⟨core.head_lt,core.tail_lt,core.accepted,core.delivered,core.waiting,core.ring,?_,
      core.grounded,core.contiguous⟩,?_,?_,by simp,?_⟩
    · intro block flying
      simp [(core.flying block flying).1] at free
    · intro other other_running
      cases Option.some.inj other_running
      exact ⟨free,rfl,startable⟩
    · simpa [owed,Call.owed] using account
    · intro other other_running
      cases Option.some.inj other_running
      exact busy
  | attach intermediate =>
    exact attach_inv n s call intermediate flight fifo inv running standing
      (unsent call intermediate running standing)

theorem step_inv (n : RingSize) (s : State) (event : Event) (next : State)
    (inv : ∃ flight fifo, Inv n s flight fifo) (unsent : Unsent s event) (taken : step n s event = some next) :
    ∃ flight fifo, Inv n next flight fifo := by
  obtain ⟨flight,fifo,inv⟩ := inv
  cases event with
  | write buffer =>
    simp only [step] at taken
    split at taken
    · rename_i free
      cases Option.some.inj taken
      have core := inv.core
      have account := inv.account
      obtain ⟨none_,all,quiet⟩ := inv.idle free
      simp only [free,Option.map_none,Option.getD_none] at core
      simp only [owed,free,none_,Option.map_none,Option.getD_none,List.flatMap_nil,List.append_nil] at account
      refine ⟨flight,fifo,core_call core _ _ _ _ _,?_,?_,by simp,?_⟩
      · intro call running
        cases Option.some.inj running
        exact quiet
      · simp [owed,Call.owed,enter,none_,account]
      · intro call running
        cases Option.some.inj running
        simp [outermost,none_,all,enter]
    · contradiction
  | main =>
    obtain ⟨call,running,rfl⟩ := Option.map_eq_some_iff.mp taken
    exact mainStep_inv n s call flight fifo inv running unsent
  | txComplete =>
    simp only [step] at taken
    split at taken
    · rename_i sending
      cases Option.some.inj taken
      exact irq_inv n s flight fifo inv sending
    · contradiction

theorem step_kept (n : RingSize) (s next : State) (event : Event) (flight : Option (List UInt8)) (fifo : Fifo UInt8)
    (inv : Inv n s flight fifo) (taken : step n s event = some next) (i : Nat)
    (bound : i < distance n.slots s.tail s.head) :
    next.buffer ((s.tail + i) % n.slots) = s.buffer ((s.tail + i) % n.slots) := by
  cases event with
  | write buffer =>
    simp only [step] at taken
    split at taken
    · cases Option.some.inj taken
      rfl
    · contradiction
  | txComplete =>
    simp only [step] at taken
    split at taken
    · cases Option.some.inj taken
      rw [irq_buffer]
    · contradiction
  | main =>
    obtain ⟨call,running,rfl⟩ := Option.map_eq_some_iff.mp taken
    cases standing : call.stage with
    | copy =>
      have stage := inv.stage call running
      simp only [StageInv,standing] at stage
      have core := inv.core
      obtain ⟨intermediate,_,_,_,same⟩ := copy_cases n s call standing core.head_lt
      have kept := wrapBlit_kept s.buffer n.slots s.tail (distance n.slots s.tail s.head) call.buffer core.tail_lt
        (by omega) i bound
      rw [distance_head _ _ _ core.tail_lt core.head_lt] at kept
      rw [same]
      exact kept
    | attach intermediate =>
      simp only [mainStep,standing,leave]
      split <;> rw [attach_buffer]
    | check intermediate =>
      simp only [mainStep,standing,leave]
      split
      · split <;> rfl
      · rfl
    | wait =>
      simp only [mainStep,standing]
      split <;> rfl
    | split =>
      simp only [mainStep,standing]
      split <;> rfl
    | _ => simp only [mainStep,standing]

theorem inv_faithful (n : RingSize) (s : State) (inv : ∃ flight fifo, Inv n s flight fifo) : Faithful n s := by
  obtain ⟨flight,fifo,inv⟩ := inv
  have core := inv.core
  have waiting := core.waiting
  refine ⟨?_,?_,inv.account,?_,?_,core.contiguous,?_⟩
  · rw [← core.delivered,← core.accepted]
    exact fifo.delivered_le
  · intro caught
    rw [(distance_eq_zero _ _ _ core.tail_lt core.head_lt).mpr caught] at waiting
    have empty := List.eq_nil_of_length_eq_zero waiting.symm
    rw [← core.delivered,fifo.drained (List.append_eq_nil_iff.mp empty).2,core.accepted]
  · intro event next taken i bound
    exact step_kept n s next event flight fifo inv taken i bound
  · intro offset count sending
    cases flight with
    | none => simp [core.grounded rfl] at sending
    | some block =>
      obtain ⟨here,_,flat,done,handed⟩ := core.flying block rfl
      rw [here] at sending
      cases sending
      simp only [Option.getD_some,List.length_append] at waiting
      have front := slice_front _ _ _ _ block.length _ core.ring (by omega) flat
      simp only [Option.getD_some,List.append_assoc,List.take_left] at front
      exact ⟨done,block,handed,rfl,by omega,front⟩
  · cases running : s.call with
    | none =>
      have all := (inv.idle running).2.1
      exact ⟨by rw [all],fun _ => all⟩
    | some call => exact ⟨⟨_,(inv.busy call running).symm⟩,by simp⟩

/-- A transfer of stale bytes is handed over beyond everything that was accepted. -/
theorem stale_unfaithful (n : RingSize) (s : State) (event : Event) (next : State)
    (inv : ∃ flight fifo, Inv n s flight fifo) (stale : ¬ Unsent s event) (taken : step n s event = some next) :
    ¬ Faithful n next := by
  obtain ⟨flight,fifo,inv⟩ := inv
  intro faithful
  cases event with
  | main =>
    simp only [Unsent,not_forall,not_or,ne_eq,Decidable.not_not] at stale
    obtain ⟨call,intermediate,running,standing,some_,caught⟩ := stale
    have stage := inv.stage call running
    have core := inv.core
    have fits := n.fits
    simp only [StageInv,standing] at stage
    obtain ⟨_,_,small,_⟩ := stage
    simp only [step,running,Option.map_some,mainStep,standing,Option.some.injEq] at taken
    have short : intermediate % 65536 = intermediate := Nat.mod_eq_of_lt (by omega)
    have handed : next.handed = s.handed ++ [(s.tail,slice s.buffer s.tail intermediate)] := by
      rw [← taken]
      simp only [leave,attachTxCallback,short]
      split <;> split <;> rfl
    have accepted : next.accepted = s.accepted := by
      rw [← taken]
      simp only [leave,attachTxCallback]
      split <;> split <;> rfl
    have sent : s.handed.flatMap Prod.snd = s.accepted :=
      (inv_faithful n s ⟨flight,fifo,inv⟩).drained caught
    have longer := faithful.ordered.length_le
    rw [handed,accepted,← sent] at longer
    simp at longer
    omega
  | _ => exact stale trivial

/-- The transmit path is faithful in exactly the runs in which no transfer that `write`
starts finds the ring already emptied by the interrupts. -/
theorem transmit_iff_unsent (n : RingSize) (buffer : Nat → UInt8) (events : List Event) :
    Run.Throughout (Faithful n) (step n) (start buffer) events ↔
      Run.Meets Unsent (step n) (start buffer) events :=
  Run.throughout_iff_meets (Faithful n) (fun s => ∃ flight fifo, Inv n s flight fifo) Unsent (inv_faithful n)
    (step_inv n) (stale_unfaithful n) (start buffer) events ⟨none,Fifo.empty,start_inv n buffer⟩

/-- One byte is on the line while the next is written; both are sent before `write`
looks whether it must start a transfer. -/
def lateLook : List Event :=
  .write [65] :: List.replicate 8 .main ++ .write [66] :: List.replicate 5 .main ++
    [.txComplete,.txComplete] ++ List.replicate 3 .main

/-- Then `write` sends a byte that nobody wrote. -/
theorem transmit_late_look : ¬ Run.Throughout (Faithful defaultSize) (step defaultSize) (start fun _ => 0) lateLook := by
  intro holds
  have reached : ∃ s, Run.after (step defaultSize) (start fun _ => 0) lateLook = some s ∧
      s.handed.flatMap Prod.snd = [65,66,0] ∧ s.accepted = [65,66] := ⟨_,rfl,by decide,by decide⟩
  obtain ⟨s,after,handed,accepted⟩ := reached
  have longer := (holds lateLook s (List.prefix_refl _) after).ordered.length_le
  rw [handed,accepted] at longer
  contradiction

end OpenPlc.Serial.Transmit
