import Mathlib.Data.List.Perm.Basic
import Mathlib.Algebra.Order.Group.Multiset
import Mathlib.Data.Multiset.Range
import Mathlib.Data.Multiset.UnionInter
import Mathlib.Tactic.Abel
import OpenPlc.Net.Reception

/-! Where the receive buffers are: free in the pool, attached to a descriptor, in the chain of
a frame that is being read, or in a chain of lwIP. -/
namespace OpenPlc.Net

def buffs (p : List Pbuf) : List Nat := p.map Pbuf.buff

/-- The chain that is just handed to `netif->input`. -/
def handed : Control → List Pbuf
  | .input p => p
  | _ => []

@[simp] theorem handed_input (p : List Pbuf) : handed (.input p) = p := rfl

@[simp] theorem handed_readData (descidx desccnt desccntmax : Nat) (rxdataready : Bool) :
    handed (.readData descidx desccnt desccntmax rxdataready) = [] := rfl

@[simp] theorem handed_updateDescriptor (descidx desccount : Nat) (caller : Caller) :
    handed (.updateDescriptor descidx desccount caller) = [] := rfl

def attached (desc : Nat → Desc) : List Nat := (List.range rxDescCnt).filterMap fun i => (desc i).backupAddr0

/-- The places of the buffers, where a buffer in two places counts twice. -/
def places (s : State) : Multiset Nat :=
  ↑s.pool + ↑(attached s.desc) + ↑(buffs s.pRxStart) + ↑(buffs (handed s.control)) + ↑(buffs s.held.flatten)

/-- Each buffer is in one place, what the DMA may write is in nobody else's, and the driver
never links a descriptor that has no buffer. -/
structure Owned (s : State) : Prop where
  once : places s = Multiset.range rxBufferCnt
  dma : ∀ i, i < rxDescCnt → (s.desc i).own = true → ∃ buff, (s.desc i).backupAddr0 = some buff ∧
    buff ∉ s.pool ∧ buff ∉ buffs s.pRxStart ∧ buff ∉ buffs (handed s.control) ∧ buff ∉ buffs s.held.flatten
  goes : (∃ next, run s = some next) ∨ s.control = .checkLink ∨ ∃ p, s.control = .input p

theorem filterMap_take (f g : Nat → Option Nat) (n i value : Nat) (inside : i < n) (others : ∀ j, j ≠ i → g j = f j)
    (held : f i = some value) (empty : g i = none) :
    ((List.range n).filterMap f).Perm (value :: (List.range n).filterMap g) := by
  have split := List.perm_cons_erase (List.mem_range.mpr inside)
  have same : ((List.range n).erase i).filterMap f = ((List.range n).erase i).filterMap g := by
    apply List.filterMap_congr
    intro j among
    exact (others j (List.nodup_range.mem_erase_iff.mp among).1).symm
  have full := split.filterMap f
  have rest := split.filterMap g
  rw [List.filterMap_cons_some held,same] at full
  rw [List.filterMap_cons_none empty] at rest
  exact full.trans (rest.symm.cons value)

theorem attached_take (before after : Nat → Desc) (i buff : Nat) (inside : i < rxDescCnt)
    (others : ∀ j, j ≠ i → after j = before j) (held : (before i).backupAddr0 = some buff)
    (empty : (after i).backupAddr0 = none) : (attached before : Multiset Nat) = buff ::ₘ ↑(attached after) := by
  rw [Multiset.cons_coe,Multiset.coe_eq_coe]
  exact filterMap_take _ _ rxDescCnt i buff inside (fun j other => by rw [others j other]) held empty

theorem attached_congr (before after : Nat → Desc) (same : ∀ i, (after i).backupAddr0 = (before i).backupAddr0) :
    attached after = attached before := by
  simp only [attached,same]

theorem pbufFree_pool (s : State) (p : List Pbuf) : ((pbufFree s p).pool : Multiset Nat) = ↑s.pool + ↑(buffs p) := by
  induction p generalizing s with
  | nil => simp [pbufFree,buffs]
  | cons q p ih =>
    have rest := ih (pbufFreeCustom s q.buff)
    simp only [pbufFree,List.foldl_cons] at rest ⊢
    rw [rest]
    simp only [pbufFreeCustom,buffs,List.map_cons]
    rw [← Multiset.cons_coe,← Multiset.cons_coe,Multiset.cons_add,Multiset.add_cons]

theorem buffs_rxLink (chain : List Pbuf) (buff length : Nat) : buffs (rxLink chain buff length) = buffs chain ++ [buff] := by
  simp [buffs,rxLink,Function.comp_def]

theorem buffs_append (first second : List Pbuf) : buffs (first ++ second) = buffs first ++ buffs second := List.map_append

theorem places_congr (s t : State) (pool : t.pool = s.pool) (desc : ∀ i, (t.desc i).backupAddr0 = (s.desc i).backupAddr0)
    (chain : t.pRxStart = s.pRxStart) (frame : handed t.control = handed s.control) (held : t.held = s.held) :
    places t = places s := by
  simp only [places,pool,attached_congr s.desc t.desc desc,chain,frame,held]

theorem receive_places (s next : State) (last interrupt : Bool) (length : Nat)
    (taken : receive s last interrupt length = some next) : places next = places s := by
  simp only [receive] at taken
  split at taken
  · cases taken
    refine places_congr _ _ rfl ?_ rfl rfl rfl
    intro i
    by_cases here : i = s.dmaIdx
    · rw [here]
      simp
    · simp [Function.update_of_ne here]
  · contradiction

theorem flatten_take (held : List (List Pbuf)) (p : List Pbuf) (q : Pbuf) (i j : Nat) (chain : held[i]? = some p)
    (link_ : p[j]? = some q) : held.flatten.Perm (q :: (held.set i (p.eraseIdx j)).flatten) := by
  obtain ⟨inside,rfl⟩ := List.getElem?_eq_some_iff.mp chain
  obtain ⟨within,rfl⟩ := List.getElem?_eq_some_iff.mp link_
  have before := (List.getElem_cons_eraseIdx_perm inside).symm.flatten
  have after := (List.set_perm_cons_eraseIdx inside (held[i].eraseIdx j)).symm.flatten
  have links := (List.getElem_cons_eraseIdx_perm within).symm
  rw [List.flatten_cons] at before after
  exact (before.trans (links.append_right _)).trans (after.cons held[i][j])

theorem release_places (s next : State) (i j : Nat) (taken : release s i j = some next) : places next = places s := by
  unfold release at taken
  split at taken
  · obtain ⟨p,chain,taken⟩ := Option.bind_eq_some_iff.mp taken
    obtain ⟨q,link_,taken⟩ := Option.bind_eq_some_iff.mp taken
    cases Option.some.inj taken
    have moved : (buffs s.held.flatten : Multiset Nat) = q.buff ::ₘ ↑(buffs (s.held.set i (p.eraseIdx j)).flatten) := by
      rw [Multiset.cons_coe,Multiset.coe_eq_coe]
      exact (flatten_take s.held p q i j chain link_).map Pbuf.buff
    simp only [places,pbufFreeCustom,moved]
    rw [← Multiset.cons_coe,Multiset.add_cons]
    simp only [Multiset.cons_add]
  · contradiction

theorem input_places (s next : State) (accepted : Bool) (taken : input s accepted = some next) : places next = places s := by
  unfold input at taken
  split at taken
  · rename_i p control
    split at taken
    · cases taken
      simp only [places,control,handed,List.flatten_append,buffs_append,List.flatten_singleton,← Multiset.coe_add]
      simp only [buffs,List.map_nil,Multiset.coe_nil,add_zero,add_assoc]
      rw [add_comm (Multiset.ofList (p.map Pbuf.buff))]
    · cases taken
      obtain ⟨pool,status,freed,_⟩ := pbufFree_spec {s with control := .lowLevelInput} p
      have pooled := pbufFree_pool {s with control := .lowLevelInput} p
      rw [freed] at pooled ⊢
      simp only at pooled
      simp only [places,control,handed,pooled]
      simp only [buffs,List.map_nil,Multiset.coe_nil,add_zero]
      abel
  · contradiction

theorem link_places (s next : State) (comesUp : Bool) (taken : link s comesUp = some next) : places next = places s := by
  unfold link at taken
  split at taken
  · rename_i control
    split at taken <;> cases taken <;> exact places_congr _ _ rfl (fun _ => rfl) rfl (by rw [control]; rfl) rfl
  · contradiction

theorem readDone_places (s : State) (descidx : Nat) (rxdataready : Bool) (loop : handed s.control = []) :
    places (readDone s descidx rxdataready) = places s := by
  unfold readDone
  split
  · simp only [places,handed_input,loop]
    simp only [buffs,List.map_nil,Multiset.coe_nil,add_zero]
  · exact places_congr _ _ rfl (fun _ => rfl) rfl loop.symm rfl

theorem updateDone_places (s : State) (descidx desccount : Nat) (caller : Caller) (loop : handed s.control = []) :
    places (updateDone s descidx desccount caller) = places s := by
  obtain ⟨t,t_eq⟩ : ∃ t, t = if s.rxBuildDescCnt ≠ desccount then
      {s with rxBuildDescIdx := descidx, rxBuildDescCnt := desccount} else s := ⟨_,rfl⟩
  have same : places t = places s ∧ handed t.control = [] := by
    rw [t_eq]
    split <;> exact ⟨places_congr _ _ rfl (fun _ => rfl) rfl rfl rfl,loop⟩
  unfold updateDone
  rw [← t_eq]
  cases caller with
  | start =>
    refine Eq.trans ?_ same.1
    exact places_congr t _ rfl (fun _ => rfl) rfl same.2.symm rfl
  | readData idx rxdataready => exact (readDone_places t idx rxdataready same.2).trans same.1

/-- A descriptor that is given to the DMA keeps its buffer, or gets one from the pool. -/
theorem updateDescriptor_places (s : State) (descidx desccount : Nat) (caller : Caller) (inside : descidx < rxDescCnt)
    (control : s.control = .updateDescriptor descidx desccount caller) :
    places (updateDescriptor s descidx desccount caller) = places s := by
  have loop : handed s.control = [] := by rw [control]; rfl
  unfold updateDescriptor
  split
  · exact updateDone_places s descidx desccount caller loop
  · split
    · rename_i buff has
      refine places_congr _ _ rfl ?_ rfl loop.symm rfl
      intro i
      by_cases here : i = descidx
      · rw [here,has]
        simp [arm]
      · simp [arm,Function.update_of_ne here]
    · rename_i empty
      rcases rxAllocate_cases s with ⟨buff,rest,pool,allocated⟩ | ⟨_,allocated⟩
      · rw [allocated]
        have gained := attached_take (arm {s with pool := rest} descidx desccount buff caller).desc s.desc descidx buff inside
          (fun j other => (Function.update_of_ne other _ _).symm) (by simp [arm]) empty
        simp only [places,gained,loop,pool]
        simp only [arm,handed_updateDescriptor,← Multiset.cons_coe,Multiset.cons_add,Multiset.add_cons]
      · rw [allocated]
        exact updateDone_places {s with rxAllocStatus := .error} descidx desccount caller loop

theorem readDescriptor_places (s next : State) (descidx desccnt desccntmax : Nat) (rxdataready : Bool)
    (inside : descidx < rxDescCnt) (control : s.control = .readData descidx desccnt desccntmax rxdataready)
    (taken : readDescriptor s descidx desccnt desccntmax rxdataready = some next) : places next = places s := by
  have loop : handed s.control = [] := by rw [control]; rfl
  unfold readDescriptor at taken
  dsimp only at taken
  split at taken
  · obtain ⟨buff,has,rfl⟩ := Option.map_eq_some_iff.mp taken
    have lost := attached_take s.desc (Function.update s.desc descidx {s.desc descidx with backupAddr0 := none}) descidx buff
      inside (fun j other => Function.update_of_ne other _ _) has (by simp)
    simp only [places,lost,loop,handed_readData,buffs_rxLink,← Multiset.coe_add,Multiset.coe_singleton]
    rw [← Multiset.singleton_add]
    abel
  · cases taken
    exact places_congr _ _ rfl (fun _ => rfl) rfl loop.symm rfl

theorem run_places (s next : State) (read : readIdx s < rxDescCnt) (build : buildIdx s < rxDescCnt)
    (taken : run s = some next) : places next = places s := by
  cases control : s.control with
  | readData descidx desccnt desccntmax rxdataready =>
    have inside : descidx < rxDescCnt := by simpa [readIdx,control] using read
    have loop : handed s.control = [] := by rw [control]; rfl
    simp only [run,control] at taken
    split at taken
    · exact readDescriptor_places s next descidx desccnt desccntmax rxdataready inside control taken
    · split at taken
      · cases taken
        exact places_congr _ _ rfl (fun _ => rfl) rfl loop.symm rfl
      · cases taken
        refine (readDone_places _ descidx rxdataready ?_).trans ?_
        · rfl
        · exact places_congr _ _ rfl (fun _ => rfl) rfl loop.symm rfl
  | updateDescriptor descidx desccount caller =>
    have inside : descidx < rxDescCnt := by simpa [buildIdx,control] using build
    simp only [run,control] at taken
    cases taken
    exact updateDescriptor_places s descidx desccount caller inside control
  | lowLevelInput =>
    have loop : handed s.control = [] := by rw [control]; rfl
    simp only [run,control] at taken
    split at taken <;> cases taken <;> exact places_congr _ _ rfl (fun _ => rfl) rfl loop.symm rfl
  | eventPending =>
    have loop : handed s.control = [] := by rw [control]; rfl
    simp only [run,control] at taken
    cases taken
    refine places_congr _ _ rfl (fun _ => rfl) rfl ?_ rfl
    rw [loop]
    split <;> rfl
  | input p =>
    simp only [run,control] at taken
    contradiction
  | checkLink =>
    simp only [run,control] at taken
    contradiction
  | _ =>
    have loop : handed s.control = [] := by rw [control]; rfl
    simp only [run,control] at taken
    cases taken
    exact places_congr _ _ rfl (fun _ => rfl) rfl loop.symm rfl

/-- With an event pending. -/
def alarmed (s : State) : State := {s with ethRxEvent := true}

theorem alarmed_pbufFree (s : State) (p : List Pbuf) : pbufFree (alarmed s) p = alarmed (pbufFree s p) := by
  induction p generalizing s with
  | nil => rfl
  | cons q p ih => exact ih (pbufFreeCustom s q.buff)

theorem alarmed_readDone (s : State) (descidx : Nat) (rxdataready : Bool) :
    alarmed (readDone (alarmed s) descidx rxdataready) = alarmed (readDone s descidx rxdataready) := by
  unfold readDone
  split <;> rfl

theorem alarmed_updateDone (s : State) (descidx desccount : Nat) (caller : Caller) :
    alarmed (updateDone (alarmed s) descidx desccount caller) = alarmed (updateDone s descidx desccount caller) := by
  have stored : (if (alarmed s).rxBuildDescCnt ≠ desccount then
      {alarmed s with rxBuildDescIdx := descidx, rxBuildDescCnt := desccount} else alarmed s) =
      alarmed (if s.rxBuildDescCnt ≠ desccount then
        {s with rxBuildDescIdx := descidx, rxBuildDescCnt := desccount} else s) := by
    by_cases other : s.rxBuildDescCnt ≠ desccount
    · rw [if_pos other,if_pos (show (alarmed s).rxBuildDescCnt ≠ desccount from other)]
      rfl
    · rw [if_neg other,if_neg (show ¬ (alarmed s).rxBuildDescCnt ≠ desccount from other)]
  unfold updateDone
  rw [stored]
  cases caller with
  | start => rfl
  | readData idx rxdataready => exact alarmed_readDone _ idx rxdataready

theorem alarmed_updateDescriptor (s : State) (descidx desccount : Nat) (caller : Caller) :
    alarmed (updateDescriptor (alarmed s) descidx desccount caller) = alarmed (updateDescriptor s descidx desccount caller) := by
  by_cases built : desccount = 0
  · rw [updateDescriptor,updateDescriptor,if_pos built,if_pos built]
    exact alarmed_updateDone s descidx desccount caller
  · rw [updateDescriptor,updateDescriptor,if_neg built,if_neg built]
    have same : ((alarmed s).desc descidx).backupAddr0 = (s.desc descidx).backupAddr0 := rfl
    rw [same]
    cases (s.desc descidx).backupAddr0 with
    | some buff => rfl
    | none =>
      rcases rxAllocate_cases s with ⟨buff,rest,pool,allocated⟩ | ⟨pool,allocated⟩
      · have allocated' : rxAllocate (alarmed s) = (alarmed {s with pool := rest},some buff) := by
          simp [rxAllocate,alarmed,pool]
        simp only [allocated,allocated']
        rfl
      · have allocated' : rxAllocate (alarmed s) = (alarmed {s with rxAllocStatus := .error},none) := by
          simp [rxAllocate,alarmed,pool]
        simp only [allocated,allocated']
        exact alarmed_updateDone _ descidx desccount caller

theorem alarmed_readDescriptor (s : State) (descidx desccnt desccntmax : Nat) (rxdataready : Bool) :
    (readDescriptor (alarmed s) descidx desccnt desccntmax rxdataready).map alarmed =
      (readDescriptor s descidx desccnt desccntmax rxdataready).map alarmed := by
  by_cases begun : (s.desc descidx).fd = true ∨ s.pRxStart ≠ []
  · rw [readDescriptor,readDescriptor,if_pos begun,if_pos (show ((alarmed s).desc descidx).fd = true ∨ (alarmed s).pRxStart ≠ [] from begun)]
    have same : ((alarmed s).desc descidx).backupAddr0 = (s.desc descidx).backupAddr0 := rfl
    simp only [same]
    cases (s.desc descidx).backupAddr0 <;> rfl
  · rw [readDescriptor,readDescriptor,if_neg begun,if_neg (show ¬ (((alarmed s).desc descidx).fd = true ∨ (alarmed s).pRxStart ≠ []) from begun)]
    rfl

theorem alarmed_run (s : State) (looked : s.control ≠ .eventPending) :
    (run (alarmed s)).map alarmed = (run s).map alarmed := by
  have place : (alarmed s).control = s.control := rfl
  cases control : s.control with
  | eventPending => exact absurd control looked
  | readData descidx desccnt desccntmax rxdataready =>
    simp only [run,place,control]
    have own : ((alarmed s).desc descidx).own = (s.desc descidx).own := rfl
    rw [own]
    split
    · exact alarmed_readDescriptor s descidx desccnt desccntmax rxdataready
    · have built : (alarmed s).rxBuildDescCnt = s.rxBuildDescCnt ∧ (alarmed s).rxBuildDescIdx = s.rxBuildDescIdx := ⟨rfl,rfl⟩
      rw [built.1,built.2]
      split
      · rfl
      · exact congrArg some (alarmed_readDone {s with rxBuildDescCnt := s.rxBuildDescCnt + desccnt} descidx rxdataready)
  | updateDescriptor descidx desccount caller =>
    simp only [run,place,control,Option.map_some]
    rw [alarmed_updateDescriptor]
  | lowLevelInput =>
    simp only [run,place,control]
    have same : (alarmed s).rxAllocStatus = s.rxAllocStatus ∧ (alarmed s).started = s.started := ⟨rfl,rfl⟩
    rw [same.1,same.2]
    split <;> rfl
  | input p => simp only [run,place,control]
  | checkLink => simp only [run,place,control]
  | _ =>
    simp only [run,place,control]
    rfl

/-- A pending event only matters where the program looks for one. -/
theorem alarmed_commutes (s : State) (event : Event) (blind : event = .run → s.control ≠ .eventPending) :
    (step (alarmed s) event).map alarmed = (step s event).map alarmed := by
  cases event with
  | receive last interrupt length =>
    simp only [step,receive]
    by_cases enabled : s.started ∧ (s.desc s.dmaIdx).own ∧ (last → interrupt)
    · have also : (alarmed s).started ∧ ((alarmed s).desc (alarmed s).dmaIdx).own ∧ (last → interrupt) := enabled
      rw [if_pos enabled,if_pos also]
      rfl
    · have also : ¬ ((alarmed s).started ∧ ((alarmed s).desc (alarmed s).dmaIdx).own ∧ (last → interrupt)) := enabled
      rw [if_neg enabled,if_neg also]
  | interrupt => rfl
  | run => exact alarmed_run s (blind rfl)
  | input accepted =>
    simp only [step,input]
    rw [show (alarmed s).control = s.control from rfl]
    split
    · rename_i p _
      cases accepted with
      | true => rfl
      | false =>
        have freed := congrArg (fun t => some (alarmed t)) (alarmed_pbufFree {s with control := .lowLevelInput} p)
        exact freed
    · rfl
  | link comesUp =>
    simp only [step,link]
    rw [show (alarmed s).control = s.control from rfl]
    split
    · by_cases enabled : comesUp ∧ s.started = false
      · have also : comesUp ∧ (alarmed s).started = false := enabled
        rw [if_pos enabled,if_pos also]
        rfl
      · have also : ¬ (comesUp ∧ (alarmed s).started = false) := enabled
        rw [if_neg enabled,if_neg also]
        rfl
    · rfl
  | release i j =>
    simp only [step,release]
    rw [show (alarmed s).control = s.control from rfl]
    split
    · rw [show (alarmed s).held = s.held from rfl]
      cases s.held[i]? with
      | none => rfl
      | some p =>
        simp only [Option.bind_eq_bind,Option.bind_some]
        cases p[j]? <;> rfl
    · rfl

/-- The ring is kept in every run: how the events come only matters to whether reception stalls. -/
theorem alarmed_step (s : State) (event : Event) (next : State) (inv : Inv (alarmed s)) (taken : step s event = some next) :
    Inv (alarmed next) := by
  by_cases looked : event = .run ∧ s.control = .eventPending
  · obtain ⟨rfl,looked⟩ := looked
    have place : (alarmed s).control = .eventPending := looked
    simp only [step,run,looked] at taken
    cases taken
    by_cases pending : s.ethRxEvent = true
    · rw [if_pos pending]
      exact inv_move (alarmed s) true .eventClear inv (by rw [place]; rfl) rfl fun _ _ _ => trivial
    · rw [if_neg pending]
      exact inv_move (alarmed s) true .checkTimeouts inv (by rw [place]; rfl) rfl fun _ _ _ => Or.inl rfl
  · have same := alarmed_commutes s event fun here there => looked ⟨here,there⟩
    rw [taken] at same
    obtain ⟨after,reached,after_eq⟩ := Option.map_eq_some_iff.mp same
    have woken : Woken (alarmed s) event := by
      cases event with
      | release i j =>
        simp only [Woken]
        split
        · exact Or.inr rfl
        · exact Or.inr rfl
        · trivial
      | _ => trivial
    rw [← after_eq]
    exact inv_interrupt after (step_inv (alarmed s) event after inv woken reached)

theorem step_places (s : State) (event : Event) (next : State) (inv : Inv (alarmed s)) (taken : step s event = some next) :
    places next = places s := by
  obtain ⟨r,d,e,ring,_⟩ := inv.ring
  cases event with
  | receive last interrupt length => exact receive_places s next last interrupt length taken
  | interrupt =>
    cases taken
    exact places_congr _ _ rfl (fun _ => rfl) rfl rfl rfl
  | run =>
    have read : readIdx s < rxDescCnt := Nat.lt_of_le_of_lt (Nat.le_of_eq ring.read) (Nat.mod_lt _ (by decide))
    have build : buildIdx s < rxDescCnt := Nat.lt_of_le_of_lt (Nat.le_of_eq ring.build) (Nat.mod_lt _ (by decide))
    exact run_places s next read build taken
  | input accepted => exact input_places s next accepted taken
  | link comesUp => exact link_places s next comesUp taken
  | release i j => exact release_places s next i j taken

theorem Ring.own_buffer {s : State} {r d e : Nat} (ring : Ring s r d e) (i : Nat) (inside : i < rxDescCnt)
    (own : (s.desc i).own = true) : (s.desc i).backupAddr0.isSome = true := by
  obtain ⟨k,low,high,slot⟩ : ∃ k, r ≤ k ∧ k < r + rxDescCnt ∧ k % rxDescCnt = i := by
    simp only [rxDescCnt] at *
    exact ⟨r + (i + 4 - r % 4) % 4,by omega,by omega,by omega⟩
  rw [← slot] at own ⊢
  by_cases closed : k < d
  · exact (ring.filled k low closed).2
  · by_cases given_ : k < e
    · exact (ring.armed k (by omega) given_).2
    · rw [(ring.waiting k (by omega) high).1] at own
      contradiction

theorem mem_attached (s : State) (i buff : Nat) (inside : i < rxDescCnt) (has : (s.desc i).backupAddr0 = some buff) :
    buff ∈ attached s.desc := List.mem_filterMap.mpr ⟨i,List.mem_range.mpr inside,has⟩

theorem owned_of_ring (s : State) (inv : Inv (alarmed s)) (once : places s = Multiset.range rxBufferCnt) : Owned s := by
  refine ⟨once,?_,?_⟩
  · intro i inside own
    obtain ⟨r,d,e,ring,_⟩ := inv.ring
    obtain ⟨buff,has⟩ := Option.isSome_iff_exists.mp (ring.own_buffer i inside own)
    have single : (places s).Nodup := by
      rw [once]
      exact Multiset.nodup_range rxBufferCnt
    have apart : places s = ↑(attached s.desc) +
        (↑s.pool + ↑(buffs s.pRxStart) + ↑(buffs (handed s.control)) + ↑(buffs s.held.flatten)) := by
      unfold places
      abel
    rw [apart] at single
    have elsewhere := Multiset.disjoint_left.mp (Multiset.disjoint_of_nodup_add single) (mem_attached s i buff inside has)
    simp only [Multiset.mem_add,Multiset.mem_coe,not_or] at elsewhere
    obtain ⟨⟨⟨pool,chain⟩,frame⟩,held⟩ := elsewhere
    exact ⟨buff,has,pool,chain,frame,held⟩
  · by_cases looked : s.control = .eventPending
    · exact Or.inl ⟨_,by simp only [run,looked]; rfl⟩
    · rcases run_goes_on (alarmed s) inv with ⟨after,reached⟩ | link_ | frame
      · have same := alarmed_run s looked
        rw [reached,Option.map_some] at same
        obtain ⟨next,taken,_⟩ := Option.map_eq_some_iff.mp same.symm
        exact Or.inl ⟨next,taken⟩
      · exact Or.inr (Or.inl link_)
      · exact Or.inr (Or.inr frame)

/-- In every run each buffer stays in one place, the DMA writes none that lwIP has, and the
driver finds a buffer in every descriptor that it reads. -/
theorem buffers_owned (events : List Event) (s : State) (reached : Run.after step start events = some s) : Owned s := by
  have kept := Run.invariant (fun s => Inv (alarmed s) ∧ places s = Multiset.range rxBufferCnt)
    (fun s event next inv taken => ⟨alarmed_step s event next inv.1 taken,(step_places s event next inv.1 taken).trans inv.2⟩)
    start s events ⟨inv_interrupt start inv_start,by decide⟩ reached
  exact owned_of_ring s kept.1 kept.2

theorem buffers_owned_frame : ∃ s, Run.after step start (linkUp ++ frameKept ++ [.release 0 0]) = some s ∧
    places s = Multiset.range rxBufferCnt :=
  ⟨_,rfl,(buffers_owned (linkUp ++ frameKept ++ [.release 0 0]) _ rfl).once⟩

end OpenPlc.Net
