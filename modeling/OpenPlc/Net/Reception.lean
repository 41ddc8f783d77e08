import OpenPlc.Lib.Run
import OpenPlc.Net.Driver

/-! Whether reception can stall: a frame unread or a descriptor not rebuilt, with a buffer
free in the pool and no event that makes the next `openplc_net_process` look. -/
namespace OpenPlc.Net

/-- Every descriptor is the DMA's, or holds a part of a frame that is not complete. -/
def Served (s : State) : Prop :=
  s.started = true → ∀ i, i < rxDescCnt →
    (s.desc i).own = true ∨ (s.desc i).backupAddr0.isSome = true ∧ (s.desc i).ld = false

/-- The property that reception does not stall. -/
def Live (s : State) : Prop :=
  s.control = .outside → s.pool ≠ [] → Served s ∨ s.ethRxEvent = true

/-- No buffer comes back outside of `ethernetif_input` while an allocation has failed and
no event is pending. -/
def Woken (s : State) : Event → Prop
  | .release _ _ =>
    match s.control with
    | .outside | .checkTimeouts => s.rxAllocStatus = .ok ∨ s.ethRxEvent = true
    | _ => True
  | _ => True

/-- The descriptor where the driver reads. -/
def readIdx (s : State) : Nat :=
  match s.control with
  | .readData descidx _ _ _ => descidx
  | .updateDescriptor _ _ (.readData descidx _) => descidx
  | _ => s.rxDescIdx

/-- The descriptor that is built next. -/
def buildIdx (s : State) : Nat :=
  match s.control with
  | .updateDescriptor descidx _ _ => descidx
  | _ => s.rxBuildDescIdx

/-- How many descriptors are to be built. Before the start these are all of them. -/
def unbuilt (s : State) : Nat :=
  match s.control with
  | .readData _ desccnt _ _ => s.rxBuildDescCnt + desccnt
  | .updateDescriptor _ desccount _ => desccount
  | _ => if s.started then s.rxBuildDescCnt else rxDescCnt

/-- A frame is partly read: a chain is begun, and not yet ready to be handed on. -/
def opened (s : State) : Bool :=
  match s.control with
  | .readData _ _ _ rxdataready => !rxdataready && !s.pRxStart.isEmpty
  | .updateDescriptor _ _ (.readData _ rxdataready) => !rxdataready && !s.pRxStart.isEmpty
  | _ => !s.pRxStart.isEmpty

/-- The places at which no loop over the descriptors is going on. -/
def between : Control → Bool
  | .readData _ _ _ _ | .updateDescriptor _ _ _ => false
  | _ => true

/-- The ring over all time: the driver has read `r` descriptors, the DMA has closed `d`,
and `e` were given to it. -/
structure Ring (s : State) (r d e : Nat) : Prop where
  closed : r ≤ d
  given : d ≤ e
  around : e + unbuilt s = r + rxDescCnt
  read : readIdx s = r % rxDescCnt
  dma : s.dmaIdx = d % rxDescCnt
  build : buildIdx s = e % rxDescCnt
  filled : ∀ i, r ≤ i → i < d → (s.desc (i % rxDescCnt)).own = false ∧ (s.desc (i % rxDescCnt)).backupAddr0.isSome = true
  armed : ∀ i, d ≤ i → i < e → (s.desc (i % rxDescCnt)).own = true ∧ (s.desc (i % rxDescCnt)).backupAddr0.isSome = true
  waiting : ∀ i, e ≤ i → i < r + rxDescCnt → (s.desc (i % rxDescCnt)).own = false ∧ (s.desc (i % rxDescCnt)).backupAddr0 = none
  first : r < d → (s.desc (r % rxDescCnt)).fd = true ∨ opened s = true
  follows : ∀ i, r ≤ i → i + 1 < d → (s.desc (i % rxDescCnt)).ld = true → (s.desc ((i + 1) % rxDescCnt)).fd = true
  last : ∀ i, r ≤ i → i + 1 = d → (s.desc (i % rxDescCnt)).ld = true → s.inFrame = false
  idle : r = d → opened s = false → s.inFrame = false

/-- No frame is complete among the closed descriptors. -/
def Partial (s : State) (r d : Nat) : Prop := ∀ i, r ≤ i → i < d → (s.desc (i % rxDescCnt)).ld = false

/-- Nothing is left to do, or there is a reason to come back. -/
def Settled (s : State) (r d : Nat) : Prop :=
  s.ethRxEvent = true ∨ s.rxAllocStatus = .error ∨ s.started = false ∨ (unbuilt s = 0 ∧ Partial s r d)

/-- Why the caller of `ETH_UpdateDescriptor` may go on when everything is built. -/
def Reason (s : State) (r d : Nat) : Caller → Prop
  | .readData _ rxdataready => s.started = true ∧ (rxdataready = true ∨ s.ethRxEvent = true ∨ Partial s r d)
  | .start => s.started = false

/-- What holds at each place of the program. -/
def At (s : State) (r d : Nat) : Control → Prop
  | .outside | .eventPending | .checkTimeouts | .checkLink => Settled s r d
  | .eventClear | .lowLevelInput | .input _ | .inputDone => True
  | .readData _ desccnt desccntmax _ =>
    s.started = true ∧ s.rxAllocStatus = .ok ∧ desccnt ≤ desccntmax ∧ s.rxBuildDescCnt + desccntmax = rxDescCnt
  | .updateDescriptor descidx desccount caller =>
    s.rxAllocStatus = .ok ∧ desccount ≤ s.rxBuildDescCnt ∧
      (desccount = s.rxBuildDescCnt → descidx = s.rxBuildDescIdx) ∧ Reason s r d caller

structure Inv (s : State) : Prop where
  ring : ∃ r d e, Ring s r d e ∧ At s r d s.control
  exhausted : s.rxAllocStatus = .error → s.pool = [] ∧ 0 < unbuilt s
  fresh : s.started = false → s.rxAllocStatus = .ok

theorem slot_ne (i j : Nat) (other : i ≠ j) (below : i < j + rxDescCnt) (above : j < i + rxDescCnt) :
    i % rxDescCnt ≠ j % rxDescCnt := by
  simp only [rxDescCnt] at *
  omega

theorem incr_slot (i : Nat) : incrRxDescIndex (i % rxDescCnt) = (i + 1) % rxDescCnt := by
  unfold incrRxDescIndex
  split
  · rename_i last
    simp only [rxDescCnt] at last ⊢
    omega
  · rename_i inner
    simp only [rxDescCnt] at inner ⊢
    omega

theorem Ring.congr {s t : State} {r d e : Nat} (ring : Ring s r d e) (desc : t.desc = s.desc) (dma : t.dmaIdx = s.dmaIdx)
    (frame : t.inFrame = s.inFrame) (read : readIdx t = readIdx s) (build : buildIdx t = buildIdx s)
    (waits : unbuilt t = unbuilt s) (chain : opened t = opened s) : Ring t r d e := by
  obtain ⟨closed,given_,around,read_,dma_,build_,filled,armed,waiting,first,follows,last,idle⟩ := ring
  refine ⟨closed,given_,by rw [waits]; exact around,by rw [read]; exact read_,by rw [dma]; exact dma_,
    by rw [build]; exact build_,by rw [desc]; exact filled,by rw [desc]; exact armed,by rw [desc]; exact waiting,?_,?_,?_,?_⟩
  · rw [desc,chain]
    exact first
  · rw [desc]
    exact follows
  · rw [desc,frame]
    exact last
  · rw [chain,frame]
    exact idle

theorem Ring.read_le {s : State} {r d e : Nat} (ring : Ring s r d e) : unbuilt s ≤ rxDescCnt := by
  have := ring.closed
  have := ring.given
  have := ring.around
  omega

theorem readIdx_between (s : State) (place : between s.control = true) : readIdx s = s.rxDescIdx := by
  cases control : s.control <;> simp_all [between,readIdx]

theorem buildIdx_between (s : State) (place : between s.control = true) : buildIdx s = s.rxBuildDescIdx := by
  cases control : s.control <;> simp_all [between,buildIdx]

theorem unbuilt_between (s : State) (place : between s.control = true) :
    unbuilt s = if s.started then s.rxBuildDescCnt else rxDescCnt := by
  cases control : s.control <;> simp_all [between,unbuilt]

theorem opened_between (s : State) (place : between s.control = true) : opened s = !s.pRxStart.isEmpty := by
  cases control : s.control <;> simp_all [between,opened]

theorem unbuilt_moved {s t : State} (before : between s.control = true) (after : between t.control = true)
    (started : t.started = s.started) (count : t.rxBuildDescCnt = s.rxBuildDescCnt) : unbuilt t = unbuilt s := by
  rw [unbuilt_between t after,unbuilt_between s before,started,count]

/-- The ring is left alone on the way from one place outside the loops to another. -/
theorem Ring.moved {s : State} {r d e : Nat} (ring : Ring s r d e) (before : between s.control = true) {control : Control}
    (after : between control = true) (pool : List Nat) (status : RxAllocStatus) (event : Bool) (held : List (List Pbuf)) :
    Ring {s with pool := pool, rxAllocStatus := status, ethRxEvent := event, held := held, control := control} r d e := by
  refine ring.congr rfl rfl rfl ?_ ?_ (unbuilt_moved before after rfl rfl) ?_
  · rw [readIdx_between _ after,readIdx_between s before]
  · rw [buildIdx_between _ after,buildIdx_between s before]
  · rw [opened_between _ after,opened_between s before]

theorem inv_start : Inv start := by
  refine ⟨⟨0,0,0,⟨by omega,by omega,rfl,rfl,rfl,rfl,?_,?_,?_,fun _ => by omega,fun _ _ _ => by omega,fun _ _ _ => by omega,
    fun _ _ => rfl⟩,Or.inr (Or.inr (Or.inl rfl))⟩,?_,?_⟩
  · intro i _ below
    omega
  · intro i _ below
    omega
  · intro i _ _
    exact ⟨rfl,rfl⟩
  · intro failed
    contradiction
  · intro _
    rfl

theorem Inv.live {s : State} (inv : Inv s) : Live s := by
  intro outside free
  obtain ⟨r,d,e,ring,settled⟩ := inv.ring
  rw [outside] at settled
  rcases settled with event | failed | idle | ⟨built,partial_⟩
  · exact Or.inr event
  · exact absurd (inv.exhausted failed).1 free
  · left
    intro started
    rw [idle] at started
    contradiction
  · left
    intro started i inside
    obtain ⟨closed,given_,around,_,_,_,filled,armed,_,_,_,_,_⟩ := ring
    rw [built] at around
    obtain ⟨k,low,high,slot⟩ : ∃ k, r ≤ k ∧ k < r + rxDescCnt ∧ k % rxDescCnt = i := by
      simp only [rxDescCnt] at *
      exact ⟨r + (i + 4 - r % 4) % 4,by omega,by omega,by omega⟩
    rw [← slot]
    by_cases behind : k < d
    · exact Or.inr ⟨(filled k low behind).2,partial_ k low behind⟩
    · exact Or.inl (armed k (by omega) (by omega)).1

theorem At.keep {s t : State} {r d d' : Nat} {control : Control} (here : At s r d control) (started : t.started = s.started)
    (status : t.rxAllocStatus = s.rxAllocStatus) (idx : t.rxBuildDescIdx = s.rxBuildDescIdx)
    (cnt : t.rxBuildDescCnt = s.rxBuildDescCnt) (waits : unbuilt t = unbuilt s)
    (quiet : t.ethRxEvent = true ∨ t.ethRxEvent = s.ethRxEvent ∧ (Partial s r d → Partial t r d')) : At t r d' control := by
  have settled : Settled s r d → Settled t r d' := by
    intro before
    simp only [Settled,started,status,waits]
    rcases quiet with event | ⟨same,extends_⟩
    · exact Or.inl event
    · rw [same]
      exact before.imp_right (Or.imp_right (Or.imp_right (And.imp_right extends_)))
  cases control with
  | outside => exact settled here
  | eventPending => exact settled here
  | checkTimeouts => exact settled here
  | checkLink => exact settled here
  | eventClear => trivial
  | lowLevelInput => trivial
  | input p => trivial
  | inputDone => trivial
  | readData descidx desccnt desccntmax rxdataready =>
    simp only [At,started,status,cnt] at here ⊢
    exact here
  | updateDescriptor descidx desccount caller =>
    cases caller with
    | start =>
      simp only [At,Reason,started,status,idx,cnt] at here ⊢
      exact here
    | readData descidx rxdataready =>
      simp only [At,Reason,started,status,idx,cnt] at here ⊢
      obtain ⟨ok,bound,same_idx,on,reason⟩ := here
      refine ⟨ok,bound,same_idx,on,?_⟩
      rcases quiet with event | ⟨same,extends_⟩
      · exact Or.inr (Or.inl event)
      · rw [same]
        exact reason.imp_right (Or.imp_right extends_)

section Moves

variable {s t : State} {r d e : Nat} (ring : Ring s r d e)

include ring in
theorem Ring.close (inside : d < e) (kept : ∀ i, i ≠ d % rxDescCnt → t.desc i = s.desc i)
    (own : (t.desc (d % rxDescCnt)).own = false) (buffer : (t.desc (d % rxDescCnt)).backupAddr0.isSome = true)
    (fd : (t.desc (d % rxDescCnt)).fd = !s.inFrame) (frame : t.inFrame = !(t.desc (d % rxDescCnt)).ld)
    (dma : t.dmaIdx = incrRxDescIndex s.dmaIdx) (read : readIdx t = readIdx s) (build : buildIdx t = buildIdx s)
    (waits : unbuilt t = unbuilt s) (chain : opened t = opened s) : Ring t r (d + 1) e := by
  obtain ⟨closed,given_,around,read_,dma_,build_,filled,armed,waiting,first,follows,last,idle⟩ := ring
  have others : ∀ i, r ≤ i → i < r + rxDescCnt → i ≠ d → t.desc (i % rxDescCnt) = s.desc (i % rxDescCnt) :=
    fun i low below other => kept _ (slot_ne i d other (by omega) (by omega))
  refine ⟨by omega,by omega,by omega,read.trans read_,by rw [dma,dma_,incr_slot],build.trans build_,?_,?_,?_,?_,?_,?_,?_⟩
  · intro i low below
    by_cases this_ : i = d
    · subst this_
      exact ⟨own,buffer⟩
    · rw [others i low (by omega) this_]
      exact filled i low (by omega)
  · intro i low below
    rw [others i (by omega) (by omega) (by omega)]
    exact armed i (by omega) below
  · intro i low below
    rw [others i (by omega) below (by omega)]
    exact waiting i low below
  · intro _
    rw [chain]
    by_cases none_ : r = d
    · rw [none_,fd]
      cases open_ : opened s with
      | true => exact Or.inr rfl
      | false =>
        rw [idle none_ open_]
        exact Or.inl rfl
    · rw [others r (Nat.le_refl _) (by omega) none_]
      exact first (by omega)
  · intro i low below ends
    rw [others i low (by omega) (by omega)] at ends
    by_cases this_ : i + 1 = d
    · rw [this_,fd,last i low this_ ends]
      rfl
    · rw [others (i + 1) (by omega) (by omega) this_]
      exact follows i low (by omega) ends
  · intro i low this_ ends
    have same : i = d := by omega
    rw [frame,← same,ends]
    rfl
  · intro none_
    omega

include ring in
theorem Ring.take (inside : r < d) (kept : ∀ i, i ≠ r % rxDescCnt → t.desc i = s.desc i)
    (own : (t.desc (r % rxDescCnt)).own = false) (buffer : (t.desc (r % rxDescCnt)).backupAddr0 = none)
    (frame : t.inFrame = s.inFrame) (dma : t.dmaIdx = s.dmaIdx) (read : readIdx t = incrRxDescIndex (readIdx s))
    (build : buildIdx t = buildIdx s) (waits : unbuilt t = unbuilt s + 1)
    (chain : opened t = !(s.desc (r % rxDescCnt)).ld) : Ring t (r + 1) d e := by
  obtain ⟨closed,given_,around,read_,dma_,build_,filled,armed,waiting,first,follows,last,idle⟩ := ring
  have others : ∀ i, r < i → i < r + rxDescCnt → t.desc (i % rxDescCnt) = s.desc (i % rxDescCnt) :=
    fun i low below => kept _ (slot_ne i r (by omega) (by omega) (by omega))
  refine ⟨by omega,by omega,by omega,by rw [read,read_,incr_slot],dma.trans dma_,build.trans build_,?_,?_,?_,?_,?_,?_,?_⟩
  · intro i low below
    rw [others i (by omega) (by omega)]
    exact filled i (by omega) below
  · intro i low below
    rw [others i (by omega) (by omega)]
    exact armed i low below
  · intro i low below
    by_cases this_ : i = r + rxDescCnt
    · rw [this_,Nat.add_mod_right]
      exact ⟨own,buffer⟩
    · rw [others i (by omega) (by omega)]
      exact waiting i low (by omega)
  · intro more
    rw [chain]
    cases ends : (s.desc (r % rxDescCnt)).ld with
    | false => exact Or.inr rfl
    | true =>
      left
      rw [others (r + 1) (by omega) (by omega)]
      exact follows r (Nat.le_refl _) more ends
  · intro i low below ends
    rw [others i (by omega) (by omega)] at ends
    rw [others (i + 1) (by omega) (by omega)]
    exact follows i (by omega) below ends
  · intro i low this_ ends
    rw [others i (by omega) (by omega)] at ends
    exact frame.trans (last i (by omega) this_ ends)
  · intro none_ shut
    rw [chain,Bool.not_eq_false'] at shut
    exact frame.trans (last r (Nat.le_refl _) none_ shut)

include ring in
theorem Ring.arm (some_ : 0 < unbuilt s) (kept : ∀ i, i ≠ e % rxDescCnt → t.desc i = s.desc i)
    (own : (t.desc (e % rxDescCnt)).own = true) (buffer : (t.desc (e % rxDescCnt)).backupAddr0.isSome = true)
    (frame : t.inFrame = s.inFrame) (dma : t.dmaIdx = s.dmaIdx) (read : readIdx t = readIdx s)
    (build : buildIdx t = incrRxDescIndex (buildIdx s)) (waits : unbuilt t + 1 = unbuilt s)
    (chain : opened t = opened s) : Ring t r d (e + 1) := by
  obtain ⟨closed,given_,around,read_,dma_,build_,filled,armed,waiting,first,follows,last,idle⟩ := ring
  have others : ∀ i, r ≤ i → i < r + rxDescCnt → i ≠ e → t.desc (i % rxDescCnt) = s.desc (i % rxDescCnt) :=
    fun i low below other => kept _ (slot_ne i e other (by omega) (by omega))
  refine ⟨closed,by omega,by omega,read.trans read_,dma.trans dma_,by rw [build,build_,incr_slot],?_,?_,?_,?_,?_,?_,?_⟩
  · intro i low below
    rw [others i low (by omega) (by omega)]
    exact filled i low below
  · intro i low below
    by_cases this_ : i = e
    · subst this_
      exact ⟨own,buffer⟩
    · rw [others i (by omega) (by omega) this_]
      exact armed i low (by omega)
  · intro i low below
    rw [others i (by omega) below (by omega)]
    exact waiting i (by omega) below
  · intro more
    rw [chain,others r (Nat.le_refl _) (by omega) (by omega)]
    exact first more
  · intro i low below ends
    rw [others i low (by omega) (by omega)] at ends
    rw [others (i + 1) (by omega) (by omega) (by omega)]
    exact follows i low below ends
  · intro i low this_ ends
    rw [others i low (by omega) (by omega)] at ends
    exact frame.trans (last i low this_ ends)
  · intro none_ shut
    rw [chain] at shut
    exact frame.trans (idle none_ shut)

include ring in
theorem Ring.dma_inside (owned : (s.desc s.dmaIdx).own = true) : d < e := by
  obtain ⟨closed,given_,around,_,dma_,_,filled,_,waiting,_,_,_,_⟩ := ring
  rw [dma_] at owned
  by_contra past
  have full : e = d := by omega
  subst full
  by_cases room : e < r + rxDescCnt
  · rw [(waiting e (Nat.le_refl _) room).1] at owned
    contradiction
  · have first := filled r (Nat.le_refl _) (by simp only [rxDescCnt] at room; omega)
    rw [show e % rxDescCnt = r % rxDescCnt by rw [show e = r + rxDescCnt by omega,Nat.add_mod_right],first.1] at owned
    contradiction

include ring in
theorem Ring.read_inside (free : (s.desc (readIdx s)).own = false) (room : unbuilt s < rxDescCnt) : r < d := by
  obtain ⟨closed,_,around,read_,_,_,_,armed,_,_,_,_,_⟩ := ring
  rw [read_] at free
  by_contra none_
  have first := armed r (by omega) (by omega)
  rw [first.1] at free
  contradiction

end Moves

theorem inv_receive (s next : State) (last interrupt : Bool) (length : Nat) (inv : Inv s)
    (taken : receive s last interrupt length = some next) : Inv next := by
  obtain ⟨⟨r,d,e,ring,here⟩,exhausted,fresh⟩ := inv
  simp only [receive] at taken
  split at taken
  · rename_i enabled
    cases taken
    obtain ⟨started,owned,raises⟩ := enabled
    have inside := ring.dma_inside owned
    have dma := ring.dma
    have buffer := (ring.armed d (Nat.le_refl _) inside).2
    refine ⟨⟨r,d + 1,e,ring.close inside ?_ ?_ ?_ ?_ ?_ rfl rfl rfl rfl rfl,here.keep rfl rfl rfl rfl rfl ?_⟩,exhausted,fresh⟩
    · intro i other
      rw [← dma] at other
      exact Function.update_of_ne other _ _
    · simp [dma]
    · simpa [dma] using buffer
    · simp [dma]
    · simp [dma]
    · cases interrupt with
      | true => exact Or.inl (Bool.or_true _)
      | false =>
        refine Or.inr ⟨Bool.or_false _,?_⟩
        intro before i low below
        by_cases this_ : i = d
        · simpa [this_,dma] using raises
        · have other := slot_ne i d this_ (by omega) (by have := ring.given; have := ring.around; omega)
          simpa [dma,Function.update_of_ne other] using before i low (by omega)
  · contradiction

theorem inv_interrupt (s : State) (inv : Inv s) : Inv {s with ethRxEvent := true} := by
  obtain ⟨⟨r,d,e,ring,here⟩,exhausted,fresh⟩ := inv
  exact ⟨⟨r,d,e,ring.congr rfl rfl rfl rfl rfl rfl rfl,here.keep rfl rfl rfl rfl rfl (Or.inl rfl)⟩,exhausted,fresh⟩

theorem pbufFreeCustom_status (s : State) (buff : Nat) : (pbufFreeCustom s buff).rxAllocStatus = .ok := by
  cases status : s.rxAllocStatus <;> simp [pbufFreeCustom,status]

theorem pbufFree_spec (s : State) (p : List Pbuf) :
    ∃ pool status, pbufFree s p = {s with pool := pool, rxAllocStatus := status} ∧
      (status = .error → pool = s.pool ∧ s.rxAllocStatus = .error) ∧ (s.rxAllocStatus = .ok → status = .ok) := by
  induction p generalizing s with
  | nil => exact ⟨s.pool,s.rxAllocStatus,rfl,fun failed => ⟨rfl,failed⟩,id⟩
  | cons q p ih =>
    obtain ⟨pool,status,freed,_,good⟩ := ih (pbufFreeCustom s q.buff)
    have ok := good (pbufFreeCustom_status s q.buff)
    refine ⟨pool,status,freed,?_,fun _ => ok⟩
    intro failed
    rw [ok] at failed
    contradiction

theorem inv_release (s next : State) (i j : Nat) (inv : Inv s) (woken : Woken s (.release i j))
    (taken : release s i j = some next) : Inv next := by
  obtain ⟨⟨r,d,e,ring,here⟩,_,_⟩ := inv
  unfold release at taken
  split at taken
  · rename_i place
    obtain ⟨p,_,taken⟩ := Option.bind_eq_some_iff.mp taken
    obtain ⟨q,_,taken⟩ := Option.bind_eq_some_iff.mp taken
    cases Option.some.inj taken
    have ok := pbufFreeCustom_status {s with held := s.held.set i (p.eraseIdx j)} q.buff
    have settled : s.rxAllocStatus = .ok ∨ s.ethRxEvent = true → Settled s r d →
        Settled (pbufFreeCustom {s with held := s.held.set i (p.eraseIdx j)} q.buff) r d := by
      intro awake before
      rcases before with event | failed | idle | done
      · exact Or.inl event
      · rcases awake with good | event
        · rw [good] at failed
          contradiction
        · exact Or.inl event
      · exact Or.inr (Or.inr (Or.inl idle))
      · exact Or.inr (Or.inr (Or.inr done))
    refine ⟨⟨r,d,e,ring.congr rfl rfl rfl rfl rfl rfl rfl,?_⟩,?_,fun _ => ok⟩
    · obtain ⟨t,same⟩ : ∃ t, t = pbufFreeCustom {s with held := s.held.set i (p.eraseIdx j)} q.buff := ⟨_,rfl⟩
      have at_ : t.control = s.control := by rw [same]; rfl
      rw [← same] at settled ⊢
      rw [at_]
      simp only [Woken] at woken
      cases control : s.control <;> simp only [control,frees] at place woken here ⊢ <;> try contradiction
      · exact settled woken here
      · trivial
      · trivial
      · exact settled woken here
    · intro failed
      rw [ok] at failed
      contradiction
  · contradiction

theorem inv_input (s next : State) (accepted : Bool) (inv : Inv s) (taken : input s accepted = some next) : Inv next := by
  obtain ⟨⟨r,d,e,ring,here⟩,exhausted,fresh⟩ := inv
  unfold input at taken
  split at taken
  · rename_i p control
    have place : between s.control = true := by rw [control]; rfl
    have waits := unbuilt_between s place
    rw [waits] at exhausted
    split at taken
    · cases taken
      exact ⟨⟨r,d,e,ring.moved place rfl _ _ _ _,trivial⟩,exhausted,fresh⟩
    · cases taken
      obtain ⟨pool,status,freed,failed,good⟩ := pbufFree_spec {s with control := .lowLevelInput} p
      rw [freed]
      refine ⟨⟨r,d,e,ring.moved place rfl _ _ _ _,trivial⟩,?_,fun idle => good (fresh idle)⟩
      intro error
      obtain ⟨same,before⟩ := failed error
      exact ⟨same.trans (exhausted before).1,(exhausted before).2⟩
  · contradiction

theorem inv_link (s next : State) (comesUp : Bool) (inv : Inv s) (taken : link s comesUp = some next) : Inv next := by
  obtain ⟨⟨r,d,e,ring,here⟩,exhausted,fresh⟩ := inv
  unfold link at taken
  split at taken
  · rename_i control
    have place : between s.control = true := by rw [control]; rfl
    have waits := unbuilt_between s place
    rw [control] at here
    split at taken
    · rename_i enabled
      obtain ⟨_,idle⟩ := enabled
      cases taken
      refine ⟨⟨r,d,e,?_,?_⟩,?_,fresh⟩
      · refine ring.congr rfl rfl rfl (readIdx_between s place).symm (buildIdx_between s place).symm ?_ (opened_between s place).symm
        rw [waits,idle]
        rfl
      · exact ⟨fresh idle,Nat.le_refl _,fun _ => rfl,idle⟩
      · intro failed
        rw [fresh idle] at failed
        contradiction
    · cases taken
      have settled : Settled s r d := here
      simp only [Settled,waits] at settled
      exact ⟨⟨r,d,e,ring.moved place rfl _ _ _ _,settled⟩,
        by rw [waits] at exhausted; exact exhausted,fresh⟩
  · contradiction

theorem inv_readDone (s : State) (r d e descidx : Nat) (rxdataready : Bool) (ring : Ring s r d e)
    (started : s.started = true) (read : readIdx s = descidx) (build : buildIdx s = s.rxBuildDescIdx)
    (waits : unbuilt s = s.rxBuildDescCnt) (chain : opened s = (!rxdataready && !s.pRxStart.isEmpty))
    (reason : rxdataready = true ∨ Settled s r d)
    (exhausted : s.rxAllocStatus = .error → s.pool = [] ∧ 0 < unbuilt s) : Inv (readDone s descidx rxdataready) := by
  have waits' : unbuilt s = if s.started then s.rxBuildDescCnt else rxDescCnt := by rw [waits,if_pos started]
  rw [waits'] at exhausted
  unfold readDone
  split
  · rename_i ready
    rw [ready] at chain
    exact ⟨⟨r,d,e,ring.congr rfl rfl rfl read.symm build.symm waits'.symm chain.symm,trivial⟩,exhausted,fun idle => by
      rw [started] at idle
      contradiction⟩
  · rename_i unready
    rw [Bool.eq_false_iff.mpr unready] at chain
    have settled : Settled s r d := reason.resolve_left unready
    simp only [Settled,waits'] at settled
    exact ⟨⟨r,d,e,ring.congr rfl rfl rfl read.symm build.symm waits'.symm chain.symm,settled⟩,exhausted,fun idle => by
      rw [started] at idle
      contradiction⟩

theorem inv_updateDone (s : State) (r d e descidx desccount : Nat) (caller : Caller) (ring : Ring s r d e)
    (control : s.control = .updateDescriptor descidx desccount caller)
    (same : desccount = s.rxBuildDescCnt → descidx = s.rxBuildDescIdx)
    (why : Reason s r d caller) (done : desccount = 0 ∨ s.rxAllocStatus = .error)
    (exhausted : s.rxAllocStatus = .error → s.pool = [] ∧ 0 < desccount) :
    Inv (updateDone s descidx desccount caller) := by
  have build : buildIdx s = descidx := by simp [buildIdx,control]
  have waits : unbuilt s = desccount := by simp [unbuilt,control]
  have stored : ∃ t : State, (if s.rxBuildDescCnt ≠ desccount then
      {s with rxBuildDescIdx := descidx, rxBuildDescCnt := desccount} else s) = t ∧
      t = {s with rxBuildDescIdx := descidx, rxBuildDescCnt := desccount} := by
    refine ⟨_,rfl,?_⟩
    split
    · rfl
    · rename_i equal
      rw [not_not] at equal
      rw [← equal,same equal.symm]
  obtain ⟨t,stores,t_eq⟩ := stored
  unfold updateDone
  rw [stores]
  subst t_eq
  cases caller with
  | start =>
    have read : readIdx s = s.rxDescIdx := by simp [readIdx,control]
    have chain : opened s = !s.pRxStart.isEmpty := by simp [opened,control]
    exact ⟨⟨r,d,e,ring.congr rfl rfl rfl read.symm build.symm waits.symm chain.symm,Or.inl rfl⟩,exhausted,
      fun idle => by contradiction⟩
  | readData idx rxdataready =>
    obtain ⟨started,reason⟩ := why
    have ring' : Ring {s with rxBuildDescIdx := descidx, rxBuildDescCnt := desccount} r d e := by
      refine ring.congr rfl rfl rfl ?_ ?_ ?_ ?_ <;> simp [readIdx,buildIdx,unbuilt,opened,control]
    apply inv_readDone _ r d e idx rxdataready ring' started
    · simp [readIdx,control]
    · simp [buildIdx,control]
    · simp [unbuilt,control]
    · simp [opened,control]
    · refine reason.imp_right (fun why => ?_)
      rcases why with event | partial_
      · exact Or.inl event
      · rcases done with built | failed
        · exact Or.inr (Or.inr (Or.inr ⟨by simp [unbuilt,control,built],partial_⟩))
        · exact Or.inr (Or.inl failed)
    · simpa [unbuilt,control] using exhausted

theorem inv_arm (s : State) (r d e descidx desccount buff : Nat) (caller : Caller) (ring : Ring s r d e)
    (control : s.control = .updateDescriptor descidx desccount caller) (some_ : desccount ≠ 0)
    (here : At s r d s.control) : Inv (arm s descidx desccount buff caller) := by
  have build : buildIdx s = descidx := by simp [buildIdx,control]
  have waits : unbuilt s = desccount := by simp [unbuilt,control]
  have slot : descidx = e % rxDescCnt := build.symm.trans ring.build
  have kept : ∀ i, i ≠ e % rxDescCnt → (arm s descidx desccount buff caller).desc i = s.desc i := by
    intro i other
    rw [← slot] at other
    exact Function.update_of_ne other _ _
  have partial_ : Partial s r d → Partial (arm s descidx desccount buff caller) r d := by
    intro before i low below
    have := ring.given
    have := ring.around
    rw [kept _ (slot_ne i e (by omega) (by omega) (by omega))]
    exact before i low below
  rw [control] at here
  refine ⟨⟨r,d,e + 1,ring.arm (by omega) kept ?_ ?_ rfl rfl ?_ ?_ ?_ ?_,?_⟩,?_,fun _ => here.1⟩
  · simp [arm,slot]
  · simp [arm,slot]
  · cases caller <;> simp [readIdx,arm,control]
  · simp [buildIdx,arm,control]
  · rw [waits]
    simp only [unbuilt,arm]
    omega
  · cases caller <;> simp [opened,arm,control]
  · obtain ⟨ok,bound,_,why⟩ := here
    refine ⟨ok,by simp only [arm]; omega,fun equal => by simp only [arm] at equal; omega,?_⟩
    cases caller with
    | start => exact why
    | readData idx rxdataready => exact ⟨why.1,why.2.imp_right (Or.imp_right partial_)⟩
  · intro failed
    have ok : s.rxAllocStatus = .ok := here.1
    simp only [arm,ok] at failed
    contradiction

theorem rxAllocate_cases (s : State) :
    (∃ buff rest, s.pool = buff :: rest ∧ rxAllocate s = ({s with pool := rest},some buff)) ∨
      s.pool = [] ∧ rxAllocate s = ({s with rxAllocStatus := .error},none) := by
  unfold rxAllocate
  split
  · rename_i buff rest pool
    exact Or.inl ⟨buff,rest,pool,rfl⟩
  · rename_i pool
    exact Or.inr ⟨pool,rfl⟩

theorem inv_updateDescriptor (s : State) (descidx desccount : Nat) (caller : Caller) (inv : Inv s)
    (control : s.control = .updateDescriptor descidx desccount caller) :
    Inv (updateDescriptor s descidx desccount caller) := by
  obtain ⟨⟨r,d,e,ring,here⟩,_,_⟩ := inv
  have at_ := here
  rw [control] at at_
  obtain ⟨ok,bound,same,why⟩ := at_
  unfold updateDescriptor
  split
  · rename_i built
    exact inv_updateDone s r d e descidx desccount caller ring control same why (Or.inl built) (by
      intro failed
      rw [ok] at failed
      contradiction)
  · rename_i some_
    split
    · rename_i buff _
      exact inv_arm s r d e descidx desccount buff caller ring control some_ here
    · rcases rxAllocate_cases s with ⟨buff,rest,pool,allocated⟩ | ⟨pool,allocated⟩
      · rw [allocated]
        exact inv_arm {s with pool := rest} r d e descidx desccount buff caller (ring.congr rfl rfl rfl rfl rfl rfl rfl) control some_
          (here.keep rfl rfl rfl rfl rfl (Or.inr ⟨rfl,id⟩))
      · rw [allocated]
        refine inv_updateDone {s with rxAllocStatus := .error} r d e descidx desccount caller (ring.congr rfl rfl rfl rfl rfl rfl rfl)
          control same ?_ (Or.inr rfl) (fun _ => ⟨pool,by omega⟩)
        cases caller with
        | start => exact why
        | readData idx rxdataready => exact why

theorem inv_readDescriptor (s next : State) (descidx desccnt desccntmax : Nat) (inv : Inv s)
    (control : s.control = .readData descidx desccnt desccntmax false) (free : (s.desc descidx).own = false)
    (more : desccnt < desccntmax) (taken : readDescriptor s descidx desccnt desccntmax false = some next) :
    Inv next := by
  obtain ⟨⟨r,d,e,ring,here⟩,_,_⟩ := inv
  rw [control] at here
  obtain ⟨started,ok,_,most⟩ := here
  have read : readIdx s = descidx := by simp [readIdx,control]
  have build : buildIdx s = s.rxBuildDescIdx := by simp [buildIdx,control]
  have waits : unbuilt s = s.rxBuildDescCnt + desccnt := by simp [unbuilt,control]
  have inside := ring.read_inside (by rw [read]; exact free) (by omega)
  have slot : descidx = r % rxDescCnt := read.symm.trans ring.read
  have begun : (s.desc descidx).fd = true ∨ s.pRxStart ≠ [] := by
    rw [slot]
    refine (ring.first inside).imp_right (fun open_ => ?_)
    simpa [opened,control] using open_
  have moved : ∃ ready, next.control = .readData (incrRxDescIndex descidx) (desccnt + 1) desccntmax ready ∧
      (∀ i, i ≠ descidx → next.desc i = s.desc i) ∧ (next.desc descidx).own = false ∧
      (next.desc descidx).backupAddr0 = none ∧ next.inFrame = s.inFrame ∧ opened next = !(s.desc descidx).ld ∧
      next.dmaIdx = s.dmaIdx ∧ next.rxBuildDescIdx = s.rxBuildDescIdx ∧ next.rxBuildDescCnt = s.rxBuildDescCnt ∧
      next.rxAllocStatus = s.rxAllocStatus ∧ next.started = s.started := by
    unfold readDescriptor at taken
    dsimp only at taken
    split at taken
    · obtain ⟨buff,_,rfl⟩ := Option.map_eq_some_iff.mp taken
      refine ⟨_,rfl,fun i other => Function.update_of_ne other _ _,?_,?_,rfl,?_,rfl,rfl,rfl,rfl,rfl⟩
      · simpa using free
      · simp
      · simp [opened,rxLink]
    · rename_i skipped
      exact absurd begun skipped
  obtain ⟨ready,control',kept,own,buffer,frame,chain,dma,build',cnt,status,started'⟩ := moved
  rw [slot] at kept own buffer chain
  refine ⟨⟨r + 1,d,e,ring.take inside kept own buffer frame dma ?_ ?_ ?_ chain,?_⟩,?_,?_⟩
  · rw [read]
    simp [readIdx,control']
  · rw [build,← build']
    simp [buildIdx,control']
  · rw [waits,← cnt]
    simp only [unbuilt,control']
    omega
  · rw [control']
    exact ⟨started'.trans started,status.trans ok,more,by rw [cnt]; exact most⟩
  · intro failed
    rw [status,ok] at failed
    contradiction
  · intro _
    exact status.trans ok

/-- The loop of `HAL_ETH_ReadData` stops with a frame, or where nothing is closed. -/
theorem readData_stops (s : State) (r d e descidx desccnt desccntmax : Nat) (rxdataready : Bool) (ring : Ring s r d e)
    (control : s.control = .readData descidx desccnt desccntmax rxdataready)
    (most : s.rxBuildDescCnt + desccntmax = rxDescCnt)
    (stop : ¬ ((s.desc descidx).own = false ∧ desccnt < desccntmax ∧ rxdataready = false)) :
    rxdataready = true ∨ Partial s r d := by
  cases rxdataready with
  | true => exact Or.inl rfl
  | false =>
    right
    have read : readIdx s = descidx := by simp [readIdx,control]
    have waits : unbuilt s = s.rxBuildDescCnt + desccnt := by simp [unbuilt,control]
    have closed := ring.closed
    have around := ring.around
    have given_ := ring.given
    have none_ : d = r := by
      by_cases owned : (s.desc descidx).own = false
      · have last : ¬ desccnt < desccntmax := fun more => stop ⟨owned,more,rfl⟩
        omega
      · by_contra some_
        have first := ring.filled r (Nat.le_refl _) (by omega)
        rw [← ring.read,read] at first
        exact owned first.1
    intro i low below
    omega

theorem inv_readStops (s : State) (descidx desccnt desccntmax : Nat) (rxdataready : Bool) (inv : Inv s)
    (control : s.control = .readData descidx desccnt desccntmax rxdataready)
    (stop : ¬ ((s.desc descidx).own = false ∧ desccnt < desccntmax ∧ rxdataready = false)) (next : State)
    (taken : (let s := {s with rxBuildDescCnt := s.rxBuildDescCnt + desccnt}
      if s.rxBuildDescCnt ≠ 0 then
        some {s with control := .updateDescriptor s.rxBuildDescIdx s.rxBuildDescCnt (.readData descidx rxdataready)}
      else some (readDone s descidx rxdataready)) = some next) : Inv next := by
  obtain ⟨⟨r,d,e,ring,here⟩,_,fresh⟩ := inv
  rw [control] at here
  obtain ⟨started,ok,_,most⟩ := here
  have reason := readData_stops s r d e descidx desccnt desccntmax rxdataready ring control most stop
  have failed : ∀ {P : Prop}, s.rxAllocStatus = .error → P := by
    intro P error
    rw [ok] at error
    contradiction
  dsimp only at taken
  split at taken
  · cases taken
    refine ⟨⟨r,d,e,ring.congr rfl rfl rfl ?_ ?_ ?_ ?_,ok,Nat.le_refl _,fun _ => rfl,started,?_⟩,failed,fresh⟩
    · simp [readIdx,control]
    · simp [buildIdx,control]
    · simp [unbuilt,control]
    · simp [opened,control]
    · exact reason.imp_right Or.inr
  · rename_i none_
    rw [not_not] at none_
    cases taken
    have zero : desccnt = 0 := by omega
    subst zero
    apply inv_readDone {s with rxBuildDescCnt := s.rxBuildDescCnt + 0} r d e descidx rxdataready
      (ring.congr rfl rfl rfl rfl rfl rfl rfl) started
    · simp [readIdx,control]
    · simp [buildIdx,control]
    · simp [unbuilt,control]
    · simp [opened,control]
    · refine reason.imp_right (fun partial_ => Or.inr (Or.inr (Or.inr ⟨?_,partial_⟩)))
      simp only [unbuilt,control]
      omega
    · exact failed

theorem inv_move (s : State) (event : Bool) (control : Control) (inv : Inv s) (before : between s.control = true)
    (after : between control = true)
    (goes : ∀ r d, At s r d s.control → At {s with ethRxEvent := event, control := control} r d control) :
    Inv {s with ethRxEvent := event, control := control} := by
  obtain ⟨⟨r,d,e,ring,here⟩,exhausted,fresh⟩ := inv
  have waits : unbuilt {s with ethRxEvent := event, control := control} = unbuilt s := unbuilt_moved before after rfl rfl
  exact ⟨⟨r,d,e,ring.moved before after _ _ _ _,goes r d here⟩,by rw [waits]; exact exhausted,fresh⟩

theorem settled_move (s : State) (control : Control) (r d : Nat) (before : between s.control = true)
    (after : between control = true) (settled : Settled s r d) : Settled {s with control := control} r d := by
  have waits : unbuilt {s with control := control} = unbuilt s := unbuilt_moved before after rfl rfl
  simp only [Settled,waits] at settled ⊢
  exact settled

theorem inv_lowLevelInput (s next : State) (inv : Inv s) (control : s.control = .lowLevelInput)
    (taken : run s = some next) : Inv next := by
  have place : between s.control = true := by rw [control]; rfl
  have waits := unbuilt_between s place
  simp only [run,control] at taken
  split at taken
  · rename_i enabled
    obtain ⟨ok,started⟩ := enabled
    cases taken
    rw [started,if_pos rfl] at waits
    obtain ⟨⟨r,d,e,ring,here⟩,exhausted,fresh⟩ := inv
    have bound := ring.read_le
    rw [waits] at bound
    refine ⟨⟨r,d,e,ring.congr rfl rfl rfl ?_ ?_ ?_ ?_,started,ok,Nat.zero_le _,Nat.add_sub_cancel' bound⟩,?_,fresh⟩
    · exact (readIdx_between s place).symm
    · exact (buildIdx_between s place).symm
    · exact waits.symm
    · exact (opened_between s place).symm
    · intro failed
      rw [ok] at failed
      contradiction
  · rename_i refused
    cases taken
    refine inv_move s s.ethRxEvent _ inv place rfl (fun r d _ => ?_)
    have either : s.rxAllocStatus = .error ∨ s.rxAllocStatus = .ok := by cases s.rxAllocStatus <;> simp
    rcases either with failed | ok
    · exact Or.inr (Or.inl failed)
    · exact Or.inr (Or.inr (Or.inl (by simpa [ok] using refused)))

theorem inv_run (s next : State) (inv : Inv s) (taken : run s = some next) : Inv next := by
  have stays (control : Control) (before : between s.control = true) (after : between control = true)
      (here : ∀ r d, At s r d s.control → Settled s r d) (there : ∀ t r d, Settled t r d → At t r d control) :
      Inv {s with control := control} :=
    inv_move s s.ethRxEvent control inv before after (fun r d at_ => there _ r d (settled_move s control r d before after
      (here r d at_)))
  cases control : s.control with
  | outside =>
    simp only [run,control] at taken
    cases taken
    exact stays _ (by rw [control]; rfl) rfl (by rw [control]; exact fun _ _ => id) (fun _ _ _ => id)
  | eventPending =>
    simp only [run,control] at taken
    cases taken
    split
    · exact inv_move s s.ethRxEvent _ inv (by rw [control]; rfl) rfl (fun _ _ _ => trivial)
    · exact stays _ (by rw [control]; rfl) rfl (by rw [control]; exact fun _ _ => id) (fun _ _ _ => id)
  | eventClear =>
    simp only [run,control] at taken
    cases taken
    exact inv_move s false _ inv (by rw [control]; rfl) rfl (fun _ _ _ => trivial)
  | lowLevelInput => exact inv_lowLevelInput s next inv control taken
  | readData descidx desccnt desccntmax rxdataready =>
    simp only [run,control] at taken
    split at taken
    · rename_i more
      rw [more.2.2] at control taken
      exact inv_readDescriptor s next descidx desccnt desccntmax inv control more.1 more.2.1 taken
    · rename_i stop
      exact inv_readStops s descidx desccnt desccntmax rxdataready inv control stop next taken
  | updateDescriptor descidx desccount caller =>
    simp only [run,control] at taken
    cases taken
    exact inv_updateDescriptor s descidx desccount caller inv control
  | input p =>
    simp only [run,control] at taken
    contradiction
  | inputDone =>
    simp only [run,control] at taken
    cases taken
    exact inv_move s s.ethRxEvent _ inv (by rw [control]; rfl) rfl (fun _ _ _ => trivial)
  | checkTimeouts =>
    simp only [run,control] at taken
    cases taken
    exact stays _ (by rw [control]; rfl) rfl (by rw [control]; exact fun _ _ => id) (fun _ _ _ => id)
  | checkLink =>
    simp only [run,control] at taken
    contradiction

theorem step_inv (s : State) (event : Event) (next : State) (inv : Inv s) (woken : Woken s event)
    (taken : step s event = some next) : Inv next := by
  cases event with
  | receive last interrupt length => exact inv_receive s next last interrupt length inv taken
  | interrupt =>
    cases taken
    exact inv_interrupt s inv
  | run => exact inv_run s next inv taken
  | input accepted => exact inv_input s next accepted inv taken
  | link comesUp => exact inv_link s next comesUp inv taken
  | release i j => exact inv_release s next i j inv woken taken

/-- Outside of `openplc_net_process` such a release stalls reception at once. -/
theorem release_stalls (s next : State) (i j : Nat) (inv : Inv s) (outside : s.control = .outside)
    (asleep : ¬ Woken s (.release i j)) (taken : step s (.release i j) = some next) : ¬ Live next := by
  simp only [Woken,outside,not_or] at asleep
  obtain ⟨failed,quiet⟩ := asleep
  have error : s.rxAllocStatus = .error := by
    cases status : s.rxAllocStatus with
    | ok => exact absurd status failed
    | error => rfl
  have started : s.started = true := by
    cases on : s.started with
    | true => rfl
    | false => exact absurd (inv.fresh on) failed
  obtain ⟨r,d,e,ring,_⟩ := inv.ring
  have unbuilt_ := (inv.exhausted error).2
  have around := ring.around
  have waiting := ring.waiting e (Nat.le_refl _) (by omega)
  simp only [step,release,outside,frees,if_true] at taken
  obtain ⟨p,_,taken⟩ := Option.bind_eq_some_iff.mp taken
  obtain ⟨q,_,taken⟩ := Option.bind_eq_some_iff.mp taken
  cases Option.some.inj taken
  intro live
  rcases live rfl (List.cons_ne_nil _ _) with served | event
  · rcases served started (e % rxDescCnt) (Nat.mod_lt _ (by decide)) with own | ⟨buffer,_⟩
    · have free := waiting.1
      simp only [pbufFreeCustom] at own
      rw [own] at free
      contradiction
    · simp only [pbufFreeCustom] at buffer
      rw [waiting.2] at buffer
      contradiction
  · exact quiet event

/-- The driver never reads a descriptor without a buffer: the program can always go on,
or waits for one of its answers. -/
theorem run_goes_on (s : State) (inv : Inv s) :
    (∃ next, run s = some next) ∨ s.control = .checkLink ∨ ∃ p, s.control = .input p := by
  cases control : s.control with
  | readData descidx desccnt desccntmax rxdataready =>
    left
    obtain ⟨r,d,e,ring,here⟩ := inv.ring
    rw [control] at here
    have read : readIdx s = descidx := by simp [readIdx,control]
    have waits : unbuilt s = s.rxBuildDescCnt + desccnt := by simp [unbuilt,control]
    simp only [run,control]
    split
    · rename_i more
      obtain ⟨_,_,_,most⟩ := here
      have inside := ring.read_inside (by rw [read]; exact more.1) (by omega)
      have filled := (ring.filled r (Nat.le_refl _) inside).2
      rw [← ring.read,read] at filled
      obtain ⟨buff,attached⟩ := Option.isSome_iff_exists.mp filled
      unfold readDescriptor
      dsimp only
      rw [attached]
      split
      · exact ⟨_,rfl⟩
      · exact ⟨_,rfl⟩
    · split
      · exact ⟨_,rfl⟩
      · exact ⟨_,rfl⟩
  | lowLevelInput =>
    left
    simp only [run,control]
    split
    · exact ⟨_,rfl⟩
    · exact ⟨_,rfl⟩
  | input p => exact Or.inr (Or.inr ⟨p,rfl⟩)
  | checkLink => exact Or.inr (Or.inl rfl)
  | _ => exact Or.inl ⟨_,by simp only [run,control]; rfl⟩

/-- The timers of lwIP free nothing in the state that `Woken` excludes. -/
def Calm (s : State) (event : Event) : Prop := s.control = .checkTimeouts → Woken s event

theorem sleep_stalls (s : State) (event : Event) (next : State) (inv : Inv s) (calm : Calm s event)
    (asleep : ¬ Woken s event) (taken : step s event = some next) : ¬ Live next := by
  cases event with
  | release i j =>
    cases control : s.control with
    | outside => exact release_stalls s next i j inv control asleep taken
    | checkTimeouts => exact absurd (calm control) asleep
    | _ =>
      refine absurd ?_ asleep
      simp only [Woken,control]
  | _ => exact absurd trivial asleep

/-- Reception never stalls in the runs in which no buffer comes back outside of
`ethernetif_input` while an allocation has failed and no event is pending; and where the
timers free nothing then, in no other runs. -/
theorem live_iff_woken (events : List Event) :
    (Run.Meets Woken step start events → Run.Throughout Live step start events) ∧
      (Run.Meets Calm step start events →
        (Run.Throughout Live step start events ↔ Run.Meets Woken step start events)) := by
  have enough := Run.throughout_of_meets Live Inv Woken (fun _ inv => inv.live) step_inv start events inv_start
  refine ⟨enough,fun calm => ⟨?_,enough⟩⟩
  exact Run.meets_of_throughout Live Inv Woken Calm step_inv sleep_stalls start events inv_start calm

/-- The link comes up: the first call of `openplc_net_process` builds all descriptors. -/
def linkUp : List Event := [.run,.run,.run,.link true] ++ List.replicate 5 .run

/-- A frame arrives, and a call reads it; lwIP keeps it. -/
def frameKept : List Event :=
  .receive true true 60 :: List.replicate 8 .run ++ [.input true] ++ List.replicate 4 .run ++ [.link false]

/-- The same for the frame after whose descriptor no buffer is left. -/
def lastFrameKept : List Event :=
  .receive true true 60 :: List.replicate 7 .run ++ [.input true] ++ List.replicate 3 .run ++ [.link false]

/-- lwIP keeps nine frames, and then frees the first one. -/
def exhaustion : List Event := linkUp ++ (List.replicate 8 frameKept).flatten ++ lastFrameKept ++ [.release 0 0]

set_option maxRecDepth 4000 in
/-- Then one descriptor is not rebuilt, although a buffer is free and no event is pending. -/
theorem exhaustion_stalls : ¬ Run.Throughout Live step start exhaustion := by
  intro live
  have reached : ∃ s, Run.after step start exhaustion = some s ∧ s.control = .outside ∧ s.pool ≠ [] ∧ s.started = true ∧
      (s.desc 0).own = false ∧ (s.desc 0).backupAddr0.isSome = false ∧ s.ethRxEvent = false :=
    ⟨_,rfl,rfl,by decide,rfl,rfl,rfl,rfl⟩
  obtain ⟨s,after,outside,free,started,own,buffer,quiet⟩ := reached
  rcases live exhaustion s (List.prefix_refl _) after outside free with served | event
  · rcases served started 0 (by decide) with owned | ⟨attached,_⟩
    · rw [own] at owned
      contradiction
    · rw [buffer] at attached
      contradiction
  · rw [quiet] at event
    contradiction

end OpenPlc.Net
