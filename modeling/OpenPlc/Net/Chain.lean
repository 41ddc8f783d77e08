import Mathlib.Algebra.GroupWithZero.Nat
import OpenPlc.Lib.Links
import OpenPlc.Net.Driver

/-! `HAL_ETH_RxLinkCallback` (`ethernetif.c`) on the pbufs in memory. A pbuf is named by the buffer that is behind it. -/
namespace OpenPlc.Net.Chain
open Links

structure Cell where
  next : Option Nat
  payload : Nat
  totLen : Nat
  len : Nat

abbrev Memory := Nat → Cell

abbrev Memory.next (memory : Memory) (p : Nat) : Option Nat := (memory p).next

/-- The pbufs, and the ends of the chain that the receive descriptors hold. -/
structure Rx where
  memory : Memory
  pStart : Option Nat
  pEnd : Option Nat

def unlinked (length : Nat) (cell : Cell) : Cell := {cell with next := none, totLen := 0, len := length}

/-- `p->tot_len += Length` -/
def added (length : Nat) (cell : Cell) : Cell := {cell with totLen := (cell.totLen + length) % 65536}

def addLength (length : Nat) (memory : Memory) (p : Nat) : Except Empty Memory :=
  .ok (Function.update memory p (added length (memory p)))

/-- The pbuf becomes the first of the packet, or is chained to its end. -/
def chainBuffer (rx : Rx) (p : Nat) : Option Rx :=
  match rx.pStart with
  | none => some {rx with pStart := some p, pEnd := some p}
  | some _ => rx.pEnd.map fun last =>
    {rx with memory := Function.update rx.memory last {rx.memory last with next := some p}, pEnd := some p}

/-- `HAL_ETH_RxLinkCallback`. It has no result where it would write through a null pointer, or if the fuel ends. -/
def rxLinkCallback (fuel : Nat) (rx : Rx) (buff length : Nat) : Option Rx :=
  (chainBuffer {rx with memory := Function.update rx.memory buff (unlinked length (rx.memory buff))} buff).bind fun rx =>
    match walk Memory.next (addLength length) fuel rx.memory rx.pStart with
    | some (.ok memory) => some {rx with memory := memory}
    | _ => none

def linkAll (fuel : Nat) : Rx → List (Nat × Nat) → Option Rx
  | rx,[] => some rx
  | rx,(buff,length) :: rest => (rxLinkCallback fuel rx buff length).bind fun rx => linkAll fuel rx rest

/-- The chain in memory is this list of pbufs. -/
structure Represents (rx : Rx) (chain : List Pbuf) : Prop where
  linked : Linked rx.memory.next rx.pStart (chain.map Pbuf.buff)
  cells : ∀ q ∈ chain, (rx.memory q.buff).len = q.len ∧ (rx.memory q.buff).totLen = q.totLen
  last : ∀ front q, chain = front ++ [q] → rx.pEnd = some q.buff
  apart : (chain.map Pbuf.buff).Nodup

section Total

theorem addLength_all (length : Nat) (xs : List Nat) (apart : xs.Nodup) (memory : Memory) :
    ∃ last, xs.foldlM (addLength length) memory = .ok last ∧
      ∀ a, last a = if a ∈ xs then added length (memory a) else memory a := by
  induction xs generalizing memory with
  | nil => exact ⟨memory,rfl,fun a => (if_neg List.not_mem_nil).symm⟩
  | cons x rest ih =>
    obtain ⟨fresh,apart⟩ := List.nodup_cons.mp apart
    obtain ⟨last,ran,values⟩ := ih apart (Function.update memory x (added length (memory x)))
    refine ⟨last,ran,fun a => ?_⟩
    rw [values a]
    by_cases same : a = x
    · subst same
      rw [if_neg fresh,if_pos List.mem_cons_self,Function.update_self]
    · rw [Function.update_of_ne same]
      by_cases member : a ∈ rest
      · rw [if_pos member,if_pos (List.mem_cons_of_mem x member)]
      · rw [if_neg member,if_neg (not_or.mpr ⟨same,member⟩ ∘ List.mem_cons.mp)]

theorem next_update (memory : Memory) (p : Nat) (cell : Cell) :
    Memory.next (Function.update memory p cell) = Function.update memory.next p cell.next := by
  funext a
  by_cases same : a = p
  · subst same
    simp [Memory.next]
  · simp [Memory.next,Function.update_of_ne same]

theorem addLength_next {length : Nat} (memory : Memory) (p : Nat) (last : Memory) (ran : addLength length memory p = .ok last) :
    last.next = memory.next := by
  cases Except.ok.inj ran
  rw [next_update]
  exact Function.update_eq_self p memory.next

end Total

section Link
variable {rx : Rx} {chain : List Pbuf} {buff : Nat}

def Cell.data (cell : Cell) : Nat × Nat × Nat := (cell.payload,cell.totLen,cell.len)

theorem chainBuffer_linked (length : Nat) (rep : Represents rx chain) (fresh : buff ∉ chain.map Pbuf.buff) :
    ∃ next, chainBuffer {rx with memory := Function.update rx.memory buff (unlinked length (rx.memory buff))} buff = some next ∧
      Linked next.memory.next next.pStart (chain.map Pbuf.buff ++ [buff]) ∧ next.pEnd = some buff ∧
      ∀ a, (next.memory a).data = if a = buff then (unlinked length (rx.memory buff)).data else (rx.memory a).data := by
  have data : ∀ a, (Function.update rx.memory buff (unlinked length (rx.memory buff)) a).data =
      if a = buff then (unlinked length (rx.memory buff)).data else (rx.memory a).data := by
    intro a
    rw [Function.update_apply]
    exact apply_ite Cell.data _ _ _
  have alone : Linked (Memory.next (Function.update rx.memory buff (unlinked length (rx.memory buff)))) (some buff) [buff] := by
    refine ⟨rfl,?_⟩
    rw [next_update,Function.update_self]
    rfl
  obtain rfl | ⟨front,q,rfl⟩ := chain.eq_nil_or_concat'
  · have empty : rx.pStart = none := rep.linked
    rw [chainBuffer,empty]
    exact ⟨_,rfl,alone,rfl,data⟩
  · have before := rep.linked
    rw [List.map_append] at before fresh ⊢
    obtain ⟨first,some_⟩ := before.exists_start
    have framed : Linked (Memory.next (Function.update rx.memory buff (unlinked length (rx.memory buff)))) rx.pStart
        (front.map Pbuf.buff ++ [q.buff]) := by
      rw [next_update]
      exact before.frame fresh
    have apart := rep.apart
    rw [List.map_append,List.map_singleton,List.nodup_append] at apart
    have unseen : q.buff ∉ front.map Pbuf.buff := fun member => apart.2.2 _ member _ List.mem_cons_self rfl
    have other : q.buff ≠ buff := fun same => fresh (List.mem_append_right _ (same ▸ List.mem_cons_self))
    rw [chainBuffer]
    simp only [some_,rep.last front q rfl,Option.map_some]
    refine ⟨_,rfl,?_,rfl,fun a => ?_⟩
    · rw [next_update,← some_,List.map_singleton,List.append_assoc]
      exact framed.join alone unseen (mt List.mem_singleton.mp other)
    · rw [← data a]
      dsimp only
      by_cases same : a = q.buff
      · subst same
        rw [Function.update_self]
        rfl
      · rw [Function.update_of_ne same]

theorem added_data (length : Nat) {cell other : Cell} (same : cell.data = other.data) :
    (added length cell).data = (added length other).data := by
  obtain ⟨payload,lengths⟩ := Prod.mk.inj same
  obtain ⟨totLen,len⟩ := Prod.mk.inj lengths
  simp only [Cell.data,added,payload,totLen,len]

/-- The callback does to the chain in memory what it does to the list, and changes no other pbuf. -/
theorem rxLinkCallback_represents {fuel : Nat} (length : Nat) (rep : Represents rx chain) (fresh : buff ∉ chain.map Pbuf.buff)
    (enough : chain.length + 1 < fuel) :
    ∃ next, rxLinkCallback fuel rx buff length = some next ∧ Represents next (rxLink chain buff length) ∧
      ∀ a, (next.memory a).payload = (rx.memory a).payload := by
  obtain ⟨mid,chained,linked,last,data⟩ := chainBuffer_linked length rep fresh
  have apart : (chain.map Pbuf.buff ++ [buff]).Nodup := by
    rw [List.nodup_append]
    refine ⟨rep.apart,List.nodup_singleton buff,?_⟩
    intro a member b new same
    exact fresh (List.mem_singleton.mp new ▸ same ▸ member)
  obtain ⟨memory,ran,values⟩ := addLength_all length _ apart mid.memory
  have links : memory.next = mid.memory.next := by
    funext a
    change (memory a).next = (mid.memory a).next
    rw [values a]
    split <;> rfl
  have final : ∀ a, (memory a).data = if a = buff then (added length (unlinked length (rx.memory buff))).data
      else if a ∈ chain.map Pbuf.buff then (added length (rx.memory a)).data else (rx.memory a).data := by
    intro a
    have before := data a
    rw [values a]
    by_cases same : a = buff
    · rw [if_pos same] at before ⊢
      rw [if_pos (same ▸ List.mem_append_right _ List.mem_cons_self)]
      exact added_data length before
    · rw [if_neg same] at before ⊢
      by_cases member : a ∈ chain.map Pbuf.buff
      · rw [if_pos member,if_pos (List.mem_append_left _ member)]
        exact added_data length before
      · rw [if_neg member,if_neg (fun either => (List.mem_append.mp either).elim member (same ∘ List.mem_singleton.mp))]
        exact before
  have buffs : (rxLink chain buff length).map Pbuf.buff = chain.map Pbuf.buff ++ [buff] := by
    simp [rxLink,Function.comp_def]
  refine ⟨⟨memory,mid.pStart,mid.pEnd⟩,?_,⟨?_,?_,?_,?_⟩,?_⟩
  · have room : (chain.map Pbuf.buff ++ [buff]).length < fuel := by simpa using enough
    have whole := walk_linked Memory.next (addLength length) addLength_next linked room
    rw [rxLinkCallback,chained,Option.bind_some,whole,ran]
  · change Linked memory.next mid.pStart ((rxLink chain buff length).map Pbuf.buff)
    rw [links,buffs]
    exact linked
  · intro q member
    obtain ⟨before,held,rfl⟩ := List.mem_map.mp member
    have values := final before.buff
    obtain old | new := List.mem_append.mp held
    · have there := List.mem_map_of_mem (f := Pbuf.buff) old
      have other : before.buff ≠ buff := fun same => fresh (same ▸ there)
      rw [if_neg other,if_pos there] at values
      obtain ⟨len,totLen⟩ := rep.cells before old
      refine ⟨(congrArg (fun data => data.2.2) values).trans len,(congrArg (fun data => data.2.1) values).trans ?_⟩
      change ((rx.memory before.buff).totLen + length) % 65536 = (before.totLen + length) % 65536
      rw [totLen]
    · cases List.mem_singleton.mp new
      rw [if_pos rfl] at values
      exact ⟨congrArg (fun data => data.2.2) values,congrArg (fun data => data.2.1) values⟩
  · intro front q ends
    change mid.pEnd = some q.buff
    rw [ends,List.map_append,List.map_singleton] at buffs
    rw [last,(List.append_inj' buffs rfl).2 |> List.singleton_inj.mp]
  · rw [buffs]
    exact apart
  · intro a
    have values := congrArg Prod.fst (final a)
    change (memory a).payload = (rx.memory a).payload
    change (memory a).payload = _ at values
    rw [values]
    split
    · subst a
      rfl
    · split <;> rfl

end Link

/-- The pbufs of a frame, where the total length of each is of the part from itself on. -/
def frameChain : List (Nat × Nat) → List Pbuf
  | [] => []
  | (buff,length) :: rest => ⟨buff,length,(length + (rest.map Prod.snd).sum) % 65536⟩ :: frameChain rest

/-- `frame` is linked in this order, and each pbuf has the length of the chain from itself on. -/
structure Chained (memory : Memory) (rx : Rx) (frame : List (Nat × Nat)) : Prop where
  order : Linked rx.memory.next rx.pStart (frame.map Prod.fst)
  part : ∀ part ∈ frame, (rx.memory part.1).payload = (memory part.1).payload ∧ (rx.memory part.1).len = part.2
  last : ∀ before part, frame = before ++ [part] → rx.pEnd = some part.1
  totLen : ∀ before p after, frame.map Prod.fst = before ++ p :: after →
    (rx.memory p).totLen = ((p :: after).map fun q => (rx.memory q).len).sum

section Frames
variable {fuel : Nat} {frame : List (Nat × Nat)}

theorem frameChain_snoc (frame : List (Nat × Nat)) (buff length : Nat) :
    frameChain (frame ++ [(buff,length)]) = rxLink (frameChain frame) buff length := by
  induction frame with
  | nil => simp [frameChain,rxLink]
  | cons part rest ih =>
    rw [List.cons_append,frameChain,frameChain,ih]
    simp [rxLink,Nat.add_assoc]

theorem frameChain_buff (frame : List (Nat × Nat)) : (frameChain frame).map Pbuf.buff = frame.map Prod.fst := by
  induction frame with
  | nil => rfl
  | cons part rest ih => rw [frameChain,List.map_cons,List.map_cons,ih]

theorem linkAll_represents {before : List (Nat × Nat)} {rx : Rx} (rep : Represents rx (frameChain before))
    (apart : ((before ++ frame).map Prod.fst).Nodup) (enough : (before ++ frame).length < fuel) :
    ∃ last, linkAll fuel rx frame = some last ∧ Represents last (frameChain (before ++ frame)) ∧
      ∀ a, (last.memory a).payload = (rx.memory a).payload := by
  induction frame generalizing before rx with
  | nil => exact ⟨rx,rfl,by rwa [List.append_nil],fun _ => rfl⟩
  | cons part rest ih =>
    obtain ⟨buff,length⟩ := part
    rw [List.append_cons] at apart enough ⊢
    have fresh : buff ∉ (frameChain before).map Pbuf.buff := by
      rw [frameChain_buff]
      rw [List.map_append,List.map_append] at apart
      have distinct := (List.nodup_append.mp (List.nodup_append.mp apart).1).2.2
      exact fun member => distinct buff member buff List.mem_cons_self rfl
    have room : (frameChain before).length + 1 < fuel := by
      have same := congrArg List.length (frameChain_buff before)
      simp only [List.length_map,List.length_append,List.length_singleton] at same enough
      omega
    obtain ⟨next,ran,rep,kept⟩ := rxLinkCallback_represents length rep fresh room
    rw [← frameChain_snoc] at rep
    obtain ⟨last,onward,rep,still⟩ := ih rep apart enough
    refine ⟨last,?_,rep,fun a => (still a).trans (kept a)⟩
    rw [linkAll,ran,Option.bind_some,onward]

theorem frameChain_mem (before after : List (Nat × Nat)) (p length : Nat) :
    ⟨p,length,(length + (after.map Prod.snd).sum) % 65536⟩ ∈ frameChain (before ++ (p,length) :: after) := by
  induction before with
  | nil => exact List.mem_cons_self
  | cons part rest ih => exact List.mem_cons_of_mem _ ih

theorem Represents.chained {memory : Memory} {rx : Rx} (rep : Represents rx (frameChain frame))
    (fits : (frame.map Prod.snd).sum < 65536) (kept : ∀ a, (rx.memory a).payload = (memory a).payload) :
    Chained memory rx frame := by
  have cell : ∀ before part after, frame = before ++ part :: after →
      (rx.memory part.1).len = part.2 ∧ (rx.memory part.1).totLen = ((part :: after).map Prod.snd).sum := by
    rintro before ⟨p,length⟩ after rfl
    obtain ⟨len,totLen⟩ := rep.cells _ (frameChain_mem before after p length)
    refine ⟨len,totLen.trans (Nat.mod_eq_of_lt ?_)⟩
    rw [List.map_append,List.sum_append] at fits
    exact Nat.lt_of_le_of_lt (Nat.le_add_left _ _) fits
  have len : ∀ part ∈ frame, (rx.memory part.1).len = part.2 := by
    intro part member
    obtain ⟨before,after,cut⟩ := List.append_of_mem member
    exact (cell before part after cut).1
  refine ⟨frameChain_buff frame ▸ rep.linked,fun part member => ⟨kept part.1,len part member⟩,?_,?_⟩
  · rintro before ⟨p,length⟩ rfl
    rw [frameChain_snoc] at rep
    exact rep.last _ _ List.map_append
  · intro before p after cut
    obtain ⟨front,back,rfl,rfl,split⟩ := List.map_eq_append_iff.mp cut
    obtain ⟨part,rest,rfl,rfl,rfl⟩ := List.map_eq_cons_iff.mp split
    rw [(cell front part rest rfl).2,← List.map_cons,List.map_map]
    refine congrArg List.sum (List.map_congr_left fun q member => ?_)
    exact (len q (List.mem_append_right front member)).symm

/-- The buffers of a frame become a chain in the order in which they arrive, with the total lengths that lwIP expects. -/
theorem linkAll_chained (memory : Memory) (pEnd : Option Nat) (apart : (frame.map Prod.fst).Nodup)
    (fits : (frame.map Prod.snd).sum < 65536) (enough : frame.length < fuel) :
    ∃ rx, linkAll fuel ⟨memory,none,pEnd⟩ frame = some rx ∧ Chained memory rx frame := by
  have empty : Represents ⟨memory,none,pEnd⟩ (frameChain []) := by
    refine ⟨rfl,fun q member => absurd member List.not_mem_nil,?_,List.nodup_nil⟩
    intro front q ends
    exact absurd ends.symm (List.append_ne_nil_of_right_ne_nil front (List.cons_ne_nil q []))
  obtain ⟨rx,ran,rep,kept⟩ := linkAll_represents empty apart enough
  exact ⟨rx,ran,rep.chained fits kept⟩

theorem linkAll_three : ∃ rx, linkAll 4 ⟨fun a => ⟨none,a,1536,1536⟩,none,none⟩ [(2,1536),(0,1536),(1,10)] = some rx ∧
    Chained (fun a => ⟨none,a,1536,1536⟩) rx [(2,1536),(0,1536),(1,10)] :=
  linkAll_chained (fun a => ⟨none,a,1536,1536⟩) none (by decide) (by decide) (by decide)

end Frames

end OpenPlc.Net.Chain
