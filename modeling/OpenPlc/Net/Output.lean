import OpenPlc.Net.Chain

/-! Sending a frame: `low_level_output` (`ethernetif.c`), and `HAL_ETH_Transmit` (`stm32h7xx_hal_eth.c`) with what it reads
of the DMA while it waits. What the descriptors hold besides OWN is left out. -/
namespace OpenPlc.Net.Output
open Links Chain

def ethTxDescCnt : Nat := 4

def ethDmaTransmitTimeout : Nat := 20

/-- `ETH_BufferTypeDef`. The link is an index of the array. -/
structure Buffer where
  buffer : Nat
  len : Nat
  next : Option Nat

structure TxPacketConfig where
  length : Nat
  txBuffer : Nat → Buffer
  pData : Nat

inductive HalEthError where
  | busy
  | dma
  | timeout

inductive HalStatus where
  | ok
  | error (errorCode : Option HalEthError)

structure Mac where
  started : Bool
  curTxDesc : Nat
  own : Nat → Bool
  packetAddress : Nat → Option Nat
  currentPacketAddress : Option Nat

/-- One round of the wait: OWN of the last descriptor, the bus error, and the ticks since the start. -/
structure Reading where
  own : Bool
  fbe : Bool
  elapsed : Nat

/-- The readings until the time is over. -/
structure Wait where
  before : List Reading
  last : Reading
  late : ethDmaTransmitTimeout < last.elapsed

def incrTxDescIndex (inx : Nat) : Nat := if ethTxDescCnt ≤ inx + 1 then inx + 1 - ethTxDescCnt else inx + 1

/-- The descriptors of a frame so far, and the last buffer that is in one of them. -/
structure Prepared where
  own : Nat → Bool
  descidx : Nat
  descnbr : Nat
  txbuffer : Nat

/-- A descriptor takes this buffer and the one after it. -/
def takeBuffers (cfg : TxPacketConfig) (txbuffer : Nat) : Nat := (cfg.txBuffer txbuffer).next.getD txbuffer

def clearOwn (own : Nat → Bool) (descidx : Nat) : Nat → Nat → Bool
  | 0 => own
  | descnbr + 1 => clearOwn (Function.update own descidx false) (incrTxDescIndex descidx) descnbr

def prepareFirst (mac : Mac) (cfg : TxPacketConfig) : Prepared :=
  ⟨Function.update mac.own mac.curTxDesc true,mac.curTxDesc,1,takeBuffers cfg 0⟩

/-- The next descriptor of a frame that needs more than one. -/
def prepareNext (mac : Mac) (cfg : TxPacketConfig) (s : Prepared) (txbuffer : Nat) : Except (Nat → Bool) Prepared :=
  let descidx := incrTxDescIndex s.descidx
  if s.own descidx ∨ mac.packetAddress descidx ≠ none then .error (clearOwn s.own mac.curTxDesc s.descnbr)
  else .ok ⟨Function.update s.own descidx true,descidx,s.descnbr + 1,takeBuffers cfg txbuffer⟩

/-- `ETH_Prepare_Tx_Descriptors`, without VLAN and TSO -/
def prepareTxDescriptors (fuel : Nat) (mac : Mac) (cfg : TxPacketConfig) : Option (Except Mac Mac) :=
  if mac.own mac.curTxDesc ∨ mac.packetAddress mac.curTxDesc ≠ none then some (.error mac)
  else
    let s := prepareFirst mac cfg
    (walk (fun s _ => (cfg.txBuffer s.txbuffer).next) (prepareNext mac cfg) fuel s (cfg.txBuffer s.txbuffer).next).map fun
      | .error own => .error {mac with own := own}
      | .ok s => .ok { mac with
          own := s.own,
          curTxDesc := s.descidx,
          packetAddress := Function.update mac.packetAddress s.descidx mac.currentPacketAddress }

/-- The loop that waits for the DMA to release the descriptor. -/
def waitOwn (last : Reading) : List Reading → HalStatus
  | [] => if last.own then if last.fbe then .error (some .dma) else .error (some .timeout) else .ok
  | reading :: rest =>
    if reading.own then
      if reading.fbe then .error (some .dma)
      else if ethDmaTransmitTimeout < reading.elapsed then .error (some .timeout)
      else waitOwn last rest
    else .ok

/-- When the wait is over, the DMA has released the descriptors of the frame, which it does in their order. Without an answer the
last one is taken back, and after a bus error none. -/
def afterWait (before mac : Mac) (status : HalStatus) : Mac :=
  let next := {mac with curTxDesc := incrTxDescIndex mac.curTxDesc}
  match status with
  | .ok => {next with own := before.own}
  | .error (some .dma) => next
  | .error _ => {next with own := Function.update mac.own mac.curTxDesc false}

/-- `HAL_ETH_Transmit` -/
def transmit (fuel : Nat) (mac : Mac) (cfg : TxPacketConfig) (wait : Wait) : Option (HalStatus × Mac) :=
  if mac.started then
    (prepareTxDescriptors fuel mac cfg).map fun
      | .error mac => (.error (some .busy),mac)
      | .ok prepared =>
        let status := waitOwn wait.last wait.before
        (status,afterWait mac prepared status)
  else some (.error none,mac)

inductive Err where
  | ok
  | interface
deriving DecidableEq

structure Filled where
  i : Nat
  txBuffer : Nat → Buffer

/-- The loop over the pbufs in `low_level_output`. -/
def fillBuffer (memory : Memory) (s : Filled) (q : Nat) : Except Err Filled :=
  if ethTxDescCnt ≤ s.i then .error .interface
  else
    let txBuffer := Function.update s.txBuffer s.i {s.txBuffer s.i with buffer := (memory q).payload, len := (memory q).len}
    let txBuffer := if 0 < s.i then Function.update txBuffer (s.i - 1) {txBuffer (s.i - 1) with next := some s.i} else txBuffer
    let txBuffer := if (memory q).next = none then Function.update txBuffer s.i {txBuffer s.i with next := none} else txBuffer
    .ok ⟨s.i + 1,txBuffer⟩

/-- What is returned to lwIP, and what `HAL_ETH_Transmit` was given and answered. -/
structure Result where
  errval : Err
  transmitted : Option (TxPacketConfig × HalStatus)
  mac : Mac

def lowLevelOutput (fuel : Nat) (memory : Memory) (mac : Mac) (wait : Wait) (p : Nat) : Option Result :=
  (walk (fun _ q => memory.next q) (fillBuffer memory) fuel ⟨0,fun _ => ⟨0,0,none⟩⟩ (some p)).bind fun
    | .error errval => some ⟨errval,none,mac⟩
    | .ok s =>
      let cfg := TxPacketConfig.mk (memory p).totLen s.txBuffer p
      (transmit fuel mac cfg wait).map fun (status,mac) => ⟨.ok,some (cfg,status),mac⟩

def bytesAt (content : Nat → Nat) (buffer len : Nat) : List Nat := (List.range len).map fun k => content (buffer + k)

structure Handed (content : Nat → Nat) (memory : Memory) (chain : List Nat) (p : Nat) (cfg : TxPacketConfig) : Prop where
  bytes : ∃ buffers, Linked (fun i => (cfg.txBuffer i).next) (some 0) buffers ∧
    buffers.flatMap (fun i => bytesAt content (cfg.txBuffer i).buffer (cfg.txBuffer i).len) =
      chain.flatMap fun q => bytesAt content (memory q).payload (memory q).len
  length : cfg.length = (memory p).totLen

structure Reports (content : Nat → Nat) (memory : Memory) (chain : List Nat) (p : Nat) (result : Result) : Prop where
  accepted : result.errval = .ok → ∃ cfg, result.transmitted = some (cfg,.ok)
  handed : chain.length ≤ ethTxDescCnt →
    ∃ cfg status, result.transmitted = some (cfg,status) ∧ Handed content memory chain p cfg
  rejected : ethTxDescCnt < chain.length → result.errval ≠ .ok ∧ result.transmitted = none

def Free (mac : Mac) (descidx : Nat) : Prop := mac.own descidx = false ∧ mac.packetAddress descidx = none

/-- The DMA releases the descriptor before a bus error and before the time is over. -/
def Released (readings : List Reading) : Prop :=
  ∃ front reading back, readings = front ++ reading :: back ∧ reading.own = false ∧
    ∀ r ∈ front, r.own = true ∧ r.fbe = false ∧ r.elapsed ≤ ethDmaTransmitTimeout

/-- The MAC is started, has a free descriptor for every two pbufs and sends the frame in time. -/
structure Takes (mac : Mac) (wait : Wait) (pbufs : Nat) : Prop where
  started : mac.started = true
  first : Free mac mac.curTxDesc
  second : 2 < pbufs → Free mac (incrTxDescIndex mac.curTxDesc)
  released : Released (wait.before ++ [wait.last])

section Fill
variable {memory : Memory}

def table (memory : Memory) (front : List Nat) (i : Nat) : Buffer :=
  match front[i]? with
  | none => ⟨0,0,none⟩
  | some q => ⟨(memory q).payload,(memory q).len,if i + 1 < front.length then some (i + 1) else none⟩

theorem table_next (front : List Nat) (i : Nat) :
    (table memory front i).next = if i + 1 < front.length then some (i + 1) else none := by
  rw [table]
  split
  · rename_i out
    rw [List.getElem?_eq_none_iff] at out
    rw [if_neg (Nat.not_lt.mpr (Nat.le_succ_of_le out))]
  · rfl

theorem fillBuffer_table (front : List Nat) (q : Nat) (room : front.length < ethTxDescCnt) :
    fillBuffer memory ⟨front.length,table memory front⟩ q = .ok ⟨front.length + 1,table memory (front ++ [q])⟩ := by
  rw [fillBuffer,if_neg (Nat.not_le.mpr room)]
  dsimp only
  refine congrArg (fun txBuffer => Except.ok (Filled.mk (front.length + 1) txBuffer)) (funext fun i => ?_)
  by_cases first : 0 < front.length
  · rw [if_pos first]
    split_ifs <;> simp only [Function.update_apply,table] <;> grind
  · rw [if_neg first]
    split_ifs <;> simp only [Function.update_apply,table] <;> grind

theorem fillBuffer_full (s : Filled) (q : Nat) (full : ethTxDescCnt ≤ s.i) : fillBuffer memory s q = .error .interface := by
  rw [fillBuffer,if_pos full]

theorem fill_short (memory : Memory) (chain front : List Nat) (fits : (front ++ chain).length ≤ ethTxDescCnt) :
    chain.foldlM (fillBuffer memory) ⟨front.length,table memory front⟩ =
      .ok ⟨(front ++ chain).length,table memory (front ++ chain)⟩ := by
  induction chain generalizing front with
  | nil =>
    rw [List.append_nil]
    rfl
  | cons q rest ih =>
    have room : front.length < ethTxDescCnt := by
      rw [List.length_append,List.length_cons] at fits
      omega
    have onward := ih (front ++ [q]) (by rwa [← List.append_cons])
    rw [List.length_append,List.length_singleton,← List.append_cons] at onward
    rw [List.foldlM_cons,fillBuffer_table front q room]
    exact onward

theorem fill_long (memory : Memory) (chain front : List Nat) (most : front.length ≤ ethTxDescCnt)
    (long : ethTxDescCnt < (front ++ chain).length) :
    chain.foldlM (fillBuffer memory) ⟨front.length,table memory front⟩ = .error .interface := by
  induction chain generalizing front with
  | nil =>
    rw [List.append_nil] at long
    exact absurd most (Nat.not_le.mpr long)
  | cons q rest ih =>
    rw [List.foldlM_cons]
    by_cases room : front.length < ethTxDescCnt
    · have onward := ih (front ++ [q]) (by rwa [List.length_append]) (by rwa [← List.append_cons])
      rw [List.length_append,List.length_singleton] at onward
      rw [fillBuffer_table front q room]
      exact onward
    · rw [fillBuffer_full ⟨front.length,table memory front⟩ q (Nat.not_lt.mp room)]
      rfl

theorem table_linked (memory : Memory) (chain : List Nat) (k n : Nat) (ends : k + n = chain.length) :
    Linked (fun i => (table memory chain i).next) (if k < chain.length then some k else none) (List.range' k n) := by
  induction n generalizing k with
  | zero => exact if_neg (Nat.not_lt.mpr (Nat.le_of_eq ends.symm))
  | succ n ih =>
    refine ⟨if_pos (by omega),?_⟩
    change Linked _ (table memory chain k).next _
    rw [table_next]
    exact ih (k + 1) (by omega)

theorem table_handed (content : Nat → Nat) (chain : List Nat) (some_ : chain ≠ []) (p : Nat) :
    Handed content memory chain p ⟨(memory p).totLen,table memory chain,p⟩ := by
  refine ⟨⟨List.range' 0 chain.length,?_,?_⟩,rfl⟩
  · have linked := table_linked memory chain 0 chain.length (Nat.zero_add _)
    rwa [if_pos (List.length_pos_iff.mpr some_)] at linked
  · rw [List.flatMap_def,List.flatMap_def]
    refine congrArg List.flatten (List.ext_getElem (by simp) ?_)
    intro i low high
    rw [List.length_map,List.length_range'] at low
    simp [table,List.getElem?_eq_getElem low]

end Fill

section Transmit
variable {mac : Mac} {wait : Wait} {cfg : TxPacketConfig} {fuel : Nat}

theorem released_cons (reading : Reading) (rest : List Reading) : Released (reading :: rest) ↔ reading.own = false ∨
    (reading.own = true ∧ reading.fbe = false ∧ reading.elapsed ≤ ethDmaTransmitTimeout) ∧ Released rest := by
  constructor
  · rintro ⟨front,last,back,cut,clear,waits⟩
    cases front with
    | nil =>
      cases (List.cons.inj cut).1
      exact Or.inl clear
    | cons r front =>
      obtain ⟨rfl,rfl⟩ := List.cons.inj cut
      have waited := List.forall_mem_cons.mp waits
      exact Or.inr ⟨waited.1,front,last,back,rfl,clear,waited.2⟩
  · rintro (clear | ⟨waits,front,last,back,rfl,clear,before⟩)
    · exact ⟨[],reading,rest,rfl,clear,fun r member => absurd member List.not_mem_nil⟩
    · exact ⟨reading :: front,last,back,rfl,clear,List.forall_mem_cons.mpr ⟨waits,before⟩⟩

theorem waitOwn_ok_iff (last : Reading) (before : List Reading) (late : ethDmaTransmitTimeout < last.elapsed) :
    waitOwn last before = .ok ↔ Released (before ++ [last]) := by
  induction before with
  | nil =>
    rw [List.nil_append,released_cons,waitOwn]
    have early : ¬ last.elapsed ≤ ethDmaTransmitTimeout := Nat.not_le.mpr late
    cases last.own <;> cases last.fbe <;> simp [early]
  | cons reading rest ih =>
    rw [List.cons_append,released_cons,waitOwn,← ih]
    by_cases early : reading.elapsed ≤ ethDmaTransmitTimeout
    · cases reading.own <;> cases reading.fbe <;> simp [early,Nat.not_lt.mpr early]
    · cases reading.own <;> cases reading.fbe <;> simp [early,Nat.not_le.mp early]

theorem incrTxDescIndex_ne (inx : Nat) : incrTxDescIndex inx ≠ inx := by
  rw [incrTxDescIndex,ethTxDescCnt]
  split <;> omega

theorem prepareNext_ok_iff (mac : Mac) (cfg : TxPacketConfig) (b : Nat) :
    (∃ next, prepareNext mac cfg (prepareFirst mac cfg) b = .ok next) ↔ Free mac (incrTxDescIndex mac.curTxDesc) := by
  rw [prepareNext,prepareFirst,Free]
  simp only [Function.update_of_ne (incrTxDescIndex_ne mac.curTxDesc)]
  split
  · rename_i taken
    refine iff_of_false (by simp) ?_
    rintro ⟨clear,unused⟩
    exact taken.elim (by simp [clear]) (absurd unused)
  · rename_i untaken
    obtain ⟨clear,unused⟩ := not_or.mp untaken
    exact iff_of_true ⟨_,rfl⟩ ⟨Bool.eq_false_iff.mpr clear,not_not.mp unused⟩

theorem prepareNext_txbuffer {s next : Prepared} {b : Nat} (ran : prepareNext mac cfg s b = .ok next) :
    next.txbuffer = takeBuffers cfg b := by
  rw [prepareNext] at ran
  split at ran
  · cases ran
  · cases ran
    rfl

theorem takeBuffers_table (memory : Memory) (chain : List Nat) (length p b : Nat) :
    ((table memory chain (takeBuffers ⟨length,table memory chain,p⟩ b)).next) =
      if b + 2 < chain.length then some (b + 2) else none := by
  have taken : takeBuffers ⟨length,table memory chain,p⟩ b = (if b + 1 < chain.length then some (b + 1) else none).getD b :=
    congrArg (Option.getD · b) (table_next chain b)
  rw [taken]
  by_cases more : b + 1 < chain.length
  · rw [if_pos more,Option.getD_some,table_next]
  · rw [if_neg more,Option.getD_none,table_next,if_neg more,if_neg fun two => more (Nat.lt_of_succ_lt two)]

theorem prepare_ok_iff (mac : Mac) (memory : Memory) (chain : List Nat) (length p : Nat) (fits : chain.length ≤ ethTxDescCnt)
    (enough : 2 ≤ fuel) :
    ∃ result, prepareTxDescriptors fuel mac ⟨length,table memory chain,p⟩ = some result ∧
      ((∃ next, result = .ok next) ↔ Free mac mac.curTxDesc ∧ (2 < chain.length → Free mac (incrTxDescIndex mac.curTxDesc))) := by
  obtain ⟨fuel,rfl⟩ := Nat.exists_eq_add_of_le' enough
  rw [prepareTxDescriptors]
  by_cases taken : mac.own mac.curTxDesc = true ∨ mac.packetAddress mac.curTxDesc ≠ none
  · rw [if_pos taken]
    refine ⟨.error mac,rfl,iff_of_false (by simp) ?_⟩
    rintro ⟨⟨clear,unused⟩,-⟩
    exact taken.elim (by simp [clear]) (absurd unused)
  · rw [if_neg taken]
    obtain ⟨clear,unused⟩ := not_or.mp taken
    have first : Free mac mac.curTxDesc := ⟨Bool.eq_false_iff.mpr clear,not_not.mp unused⟩
    dsimp only
    have start := takeBuffers_table memory chain length p 0
    rw [Nat.zero_add] at start
    change ∃ result, (walk _ _ _ _ (table memory chain (takeBuffers ⟨length,table memory chain,p⟩ 0)).next).map _ = _ ∧ _
    rw [start]
    by_cases more : 2 < chain.length
    · have next := prepareNext_ok_iff mac ⟨length,table memory chain,p⟩ 2
      rw [if_pos more,walk]
      cases visited : prepareNext mac ⟨length,table memory chain,p⟩ (prepareFirst mac ⟨length,table memory chain,p⟩) 2 with
      | error own =>
        rw [visited] at next
        refine ⟨.error {mac with own := own},rfl,iff_of_false (by simp) ?_⟩
        rintro ⟨-,second⟩
        simpa using next.mpr (second more)
      | ok s =>
        have ends : (table memory chain s.txbuffer).next = none := by
          rw [prepareNext_txbuffer visited,takeBuffers_table memory chain length p 2]
          exact if_neg (Nat.not_lt.mpr fits)
        dsimp only
        rw [ends]
        exact ⟨_,rfl,iff_of_true ⟨_,rfl⟩ ⟨first,fun _ => next.mp ⟨s,visited⟩⟩⟩
    · rw [if_neg more]
      exact ⟨_,rfl,iff_of_true ⟨_,rfl⟩ ⟨first,fun too => absurd too more⟩⟩

theorem transmit_ok_iff (mac : Mac) (wait : Wait) (memory : Memory) (chain : List Nat) (length p : Nat)
    (fits : chain.length ≤ ethTxDescCnt) (enough : 2 ≤ fuel) :
    ∃ result, transmit fuel mac ⟨length,table memory chain,p⟩ wait = some result ∧
      (result.1 = .ok ↔ Takes mac wait chain.length) := by
  rw [transmit]
  by_cases started : mac.started = true
  · obtain ⟨result,ran,free⟩ := prepare_ok_iff mac memory chain length p fits enough
    rw [if_pos started,ran]
    cases result with
    | error busy =>
      refine ⟨(.error (some .busy),busy),rfl,iff_of_false (by simp) ?_⟩
      intro takes
      simpa using free.mpr ⟨takes.first,takes.second⟩
    | ok next =>
      obtain ⟨first,second⟩ := free.mp ⟨next,rfl⟩
      have sent := waitOwn_ok_iff wait.last wait.before wait.late
      exact ⟨_,rfl,sent.trans ⟨fun released => ⟨started,first,second,released⟩,fun takes => takes.released⟩⟩
  · rw [if_neg started]
    exact ⟨_,rfl,iff_of_false (by simp) fun takes => started takes.started⟩

end Transmit

section Output
variable {memory : Memory} {mac : Mac} {wait : Wait} {p : Nat} {chain : List Nat} {fuel : Nat}

theorem output_walk (linked : Linked memory.next (some p) chain) (enough : chain.length < fuel) :
    walk (fun _ q => memory.next q) (fillBuffer memory) fuel ⟨0,table memory []⟩ (some p) =
      some (chain.foldlM (fillBuffer memory) ⟨([] : List Nat).length,table memory []⟩) :=
  walk_linked (fun _ q => memory.next q) (fillBuffer memory) (fun _ _ _ _ => rfl) linked enough

theorem output_long (linked : Linked memory.next (some p) chain) (enough : chain.length < fuel)
    (long : ethTxDescCnt < chain.length) : lowLevelOutput fuel memory mac wait p = some ⟨.interface,none,mac⟩ := by
  have whole := output_walk linked enough
  rw [fill_long memory chain [] (Nat.zero_le _) long] at whole
  change (walk _ _ fuel (Filled.mk 0 (table memory [])) (some p)).bind _ = _
  rw [whole]
  rfl

theorem output_short (linked : Linked memory.next (some p) chain) (enough : chain.length < fuel)
    (short : chain.length ≤ ethTxDescCnt) : lowLevelOutput fuel memory mac wait p =
      (transmit fuel mac ⟨(memory p).totLen,table memory chain,p⟩ wait).map fun result =>
        ⟨.ok,some (⟨(memory p).totLen,table memory chain,p⟩,result.1),result.2⟩ := by
  have whole := output_walk linked enough
  rw [fill_short memory chain [] short] at whole
  change (walk _ _ fuel (Filled.mk 0 (table memory [])) (some p)).bind _ = _
  rw [whole]
  rfl

/-- Sending reports what became of the frame exactly if the chain is too long, or the MAC takes the frame. -/
theorem reports_iff (content : Nat → Nat) (linked : Linked memory.next (some p) chain) (enough : chain.length < fuel) :
    ∃ result, lowLevelOutput fuel memory mac wait p = some result ∧
      (Reports content memory chain p result ↔ ethTxDescCnt < chain.length ∨ Takes mac wait chain.length) := by
  by_cases long : ethTxDescCnt < chain.length
  · have rejected : Reports content memory chain p ⟨.interface,none,mac⟩ :=
      ⟨fun ok => absurd ok Err.noConfusion,fun short => absurd long (Nat.not_lt.mpr short),fun _ => ⟨Err.noConfusion,rfl⟩⟩
    exact ⟨_,output_long linked enough long,iff_of_true rejected (Or.inl long)⟩
  · have short := Nat.not_lt.mp long
    have some_ : chain ≠ [] := by
      rintro rfl
      exact Option.some_ne_none p linked
    have more : 2 ≤ fuel := by
      have pos := List.length_pos_iff.mpr some_
      omega
    obtain ⟨⟨status,after⟩,ran,takes⟩ :=
      transmit_ok_iff mac wait memory chain (memory p).totLen p short more
    rw [output_short linked enough short,ran]
    refine ⟨_,rfl,?_⟩
    constructor
    · intro reports
      obtain ⟨cfg,accepted⟩ := reports.accepted rfl
      exact Or.inr (takes.mp (congrArg Prod.snd (Option.some.inj accepted)))
    · intro either
      have sent := takes.mpr (either.resolve_left long)
      change status = .ok at sent
      subst sent
      refine ⟨fun _ => ⟨_,rfl⟩,?_,fun too => absurd too long⟩
      exact fun _ => ⟨_,.ok,rfl,table_handed content chain some_ p⟩

theorem reports_four : ∃ result, lowLevelOutput 5 (fun q => ⟨if q < 3 then some (q + 1) else none,16 * q,0,16⟩)
    ⟨true,3,fun _ => false,fun _ => none,none⟩ ⟨[],⟨false,false,21⟩,by decide⟩ 0 = some result ∧
      (Reports id (fun q => ⟨if q < 3 then some (q + 1) else none,16 * q,0,16⟩) [0,1,2,3] 0 result ↔
        ethTxDescCnt < 4 ∨ Takes ⟨true,3,fun _ => false,fun _ => none,none⟩ ⟨[],⟨false,false,21⟩,by decide⟩ 4) :=
  reports_iff id ⟨rfl,rfl,rfl,rfl,rfl⟩ (by decide)

/-- The DMA does not release the descriptor in time, and the frame is reported as sent. -/
theorem late_ok : ∃ result, lowLevelOutput 2 (fun _ => ⟨none,0,64,64⟩) ⟨true,0,fun _ => false,fun _ => none,none⟩
    ⟨[],⟨true,false,21⟩,by decide⟩ 0 = some result ∧ ¬ Reports id (fun _ => ⟨none,0,64,64⟩) [0] 0 result := by
  refine ⟨_,rfl,fun reports => ?_⟩
  obtain ⟨cfg,accepted⟩ := reports.accepted rfl
  exact absurd (congrArg Prod.snd (Option.some.inj accepted)) HalStatus.noConfusion

end Output

end OpenPlc.Net.Output
