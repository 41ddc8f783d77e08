import OpenPlc.Lib.Run
import OpenPlc.Net.MemHeap

/-! What the program may rely on however it takes, shrinks and gives back memory of the heap. -/
namespace OpenPlc.Net.MemHeap
open Tiling

variable (n : Config)

/-- The heap with the pointers that the program owns, and the size that it asked for last at each. -/
structure State where
  heap : Heap
  live : Nat → Option Nat

def start (ram : Nat → Mem) : State := ⟨memInit n ram,fun _ => none⟩

inductive Event where
  | malloc (sizeIn : Nat)
  | free (rmem : Option Nat)
  | trim (rmem newSize : Nat)

def step (s : State) : Event → Option State
  | .malloc sizeIn => (memMalloc n s.heap sizeIn).map fun
    | (heap,none) => {s with heap := heap}
    | (heap,some p) => ⟨heap,Function.update s.live p (some sizeIn)⟩
  | .free none => some {s with heap := memFree n s.heap none}
  | .free (some p) => some ⟨memFree n s.heap (some p),Function.update s.live p none⟩
  | .trim rmem newSize =>
    match memTrim n s.heap rmem newSize with
    | (heap,none) => some {s with heap := heap}
    | (heap,some p) => some ⟨heap,Function.update s.live p (some newSize)⟩

/-- Only what is owned is given back or shrunk. -/
def Allowed (s : State) : Event → Prop
  | .malloc _ => True
  | .free none => True
  | .free (some p) => (s.live p).isSome
  | .trim rmem _ => (s.live rmem).isSome

instance (s : State) (event : Event) : Decidable (Allowed s event) :=
  match event with
  | .malloc _ => inferInstanceAs (Decidable True)
  | .free none => inferInstanceAs (Decidable True)
  | .free (some p) => inferInstanceAs (Decidable ((s.live p).isSome))
  | .trim rmem _ => inferInstanceAs (Decidable ((s.live rmem).isSome))

section Runs
variable {n : Config} {s next : State} {blocks other : List Block} {live : Nat → Option Nat}

/-- The used blocks are those of the pointers that the program owns. -/
structure Matches (n : Config) (live : Nat → Option Nat) (blocks : List Block) : Prop where
  lent : ∀ x len, Occupied blocks x len →
    ∃ used size, live (x + n.header) = some used ∧ rounded n used = some size ∧ Lends n len size
  owned : ∀ p used, live p = some used → ∃ x len, p = x + n.header ∧ Occupied blocks x len

theorem Matches.change {x : Nat} (matches_ : Matches n live blocks) (width : Nat) (v : Option Nat)
    (occupied : ∀ y len, Occupied other y len ↔ if y = x then v.isSome = true ∧ width = len else Occupied blocks y len)
    (lends : ∀ used, v = some used → ∃ size, rounded n used = some size ∧ Lends n width size) :
    Matches n (Function.update live (x + n.header) v) other where
  lent y len held := by
    rw [occupied] at held
    split_ifs at held with here
    · obtain ⟨some_,rfl⟩ := held
      obtain ⟨used,same⟩ := Option.isSome_iff_exists.mp some_
      obtain ⟨size,fits,lends⟩ := lends used same
      exact ⟨used,size,by rw [here,Function.update_self,same],fits,lends⟩
    · rw [Function.update_of_ne (by omega)]
      exact matches_.lent y len held
  owned p used mine := by
    by_cases here : p = x + n.header
    · rw [here,Function.update_self] at mine
      exact ⟨x,width,here,(occupied x width).mpr (by simp [mine])⟩
    · rw [Function.update_of_ne here] at mine
      obtain ⟨y,len,rfl,held⟩ := matches_.owned p used mine
      refine ⟨y,len,rfl,(occupied y len).mpr ?_⟩
      rw [if_neg fun same => here (by rw [same])]
      exact held

def Inv (n : Config) (s : State) : Prop := ∃ blocks, Layout n s.heap blocks ∧ Matches n s.live blocks

/-- An owned pointer with its block. -/
theorem block_of_live {p used : Nat} (matches_ : Matches n s.live blocks) (mine : s.live p = some used) :
    ∃ before b after size, blocks = before ++ b :: after ∧ p = total before + n.header ∧ b.used = true ∧
      rounded n used = some size ∧ Lends n b.len size := by
  obtain ⟨x,len,rfl,held⟩ := matches_.owned p used mine
  obtain ⟨used',size,same,fits,lends⟩ := matches_.lent x len held
  obtain ⟨before,after,split,rfl⟩ := split_of_placed held
  cases Option.some.inj (mine.symm.trans same)
  exact ⟨before,_,after,size,split,by rw [Nat.zero_add],rfl,fits,lends⟩

theorem inv_start (ram : Nat → Mem) : Inv n (start n ram) := by
  have room := n.room
  have positive := n.positive
  refine ⟨[⟨n.memSize,false⟩],⟨⟨⟨?_,trivial⟩,?_,Nat.add_zero _,?_,?_,rfl⟩,List.isChain_singleton _⟩,⟨?_,nofun⟩⟩
  · have first : Function.update (Function.update ram 0 ⟨n.memSize,0,false⟩) n.memSize ⟨n.memSize,n.memSize,true⟩ 0 =
        ⟨n.memSize,0,false⟩ := by
      rw [Function.update_of_ne (by omega),Function.update_self]
    simpa [start,memInit] using first
  · exact Function.update_self ..
  · simpa using n.room
  · simpa using n.whole.1
  · intro x len held
    exact absurd held (unplaced (by simp))

theorem inv_step (event : Event) (inv : Inv n s) (allowed : Allowed s event) (taken : step n s event = some next) : Inv n next := by
  obtain ⟨blocks,layout,matches_⟩ := inv
  cases event with
  | malloc sizeIn =>
    rw [step] at taken
    rcases memMalloc_spec layout sizeIn with
      ⟨nothing,_⟩ | ⟨size,before,b,after,heap,width,more,_,fits,rfl,free,found,laid,frees,sum,lends⟩
    · rw [nothing] at taken
      cases Option.some.inj taken
      exact ⟨blocks,layout,matches_⟩
    · rw [found] at taken
      cases Option.some.inj taken
      refine ⟨_,laid,matches_.change width (some sizeIn) (fun y len => ?_) fun used same => ?_⟩
      · exact occupied_head [] more sum nofun frees layout.positive
      · cases Option.some.inj same
        exact ⟨size,fits,lends⟩
  | free rmem =>
    cases rmem with
    | none =>
      cases Option.some.inj taken
      exact ⟨blocks,layout,matches_⟩
    | some p =>
      cases Option.some.inj taken
      obtain ⟨used,mine⟩ := Option.isSome_iff_exists.mp allowed
      obtain ⟨before,b,after,size,rfl,rfl,inUse,_,_⟩ := block_of_live matches_ mine
      obtain ⟨other,laid,occupied⟩ := memFree_spec layout inUse
      refine ⟨other,laid,matches_.change 0 none (fun y len => ?_) nofun⟩
      · rw [occupied]
        split_ifs with here <;> simp [here]
  | trim rmem newSize =>
    obtain ⟨used,mine⟩ := Option.isSome_iff_exists.mp allowed
    obtain ⟨before,b,after,_,rfl,rfl,inUse,_,_⟩ := block_of_live matches_ mine
    rw [step] at taken
    rcases memTrim_spec layout inUse newSize with
      ⟨heap,size,width,frees,more,rest,trimmed,fits,rfl,laid,free,remain,sum,lends⟩ | nothing
    · rw [trimmed] at taken
      cases Option.some.inj taken
      refine ⟨_,laid,matches_.change width (some newSize) (fun y len => ?_) fun used same => ?_⟩
      · exact occupied_head frees more sum free remain layout.positive
      · cases Option.some.inj same
        exact ⟨size,fits,lends⟩
    · rw [nothing] at taken
      cases Option.some.inj taken
      exact ⟨_,layout,matches_⟩

/-- What the program may rely on. Memory is at hand only in ranges that no owned area meets: with the header in front of
it and less than another block behind it, for which there would be no use. -/
structure Kept (n : Config) (s : State) : Prop where
  inside : ∀ p used, s.live p = some used → 4 ∣ p ∧ n.header ≤ p ∧ p + used ≤ n.memSize
  apart : ∀ p q used other, p < q → s.live p = some used → s.live q = some other → p + used + n.header ≤ q
  returns : ∀ sizeIn, ∃ result, memMalloc n s.heap sizeIn = some result
  fresh : ∀ sizeIn heap p, memMalloc n s.heap sizeIn = some (heap,some p) → s.live p = none
  full : ∀ sizeIn size heap, 0 < sizeIn → rounded n sizeIn = some size → memMalloc n s.heap sizeIn = some (heap,none) →
    ∀ x, x + (n.header + size) ≤ n.memSize → ∃ p used room, s.live p = some used ∧ rounded n used = some room ∧
      x < p + room + (n.header + n.minSize) ∧ p < x + (n.header + size) + n.header
  empty : (∀ p, s.live p = none) → s.heap.lfree = 0 ∧ s.heap.ram 0 = ⟨n.memSize,0,false⟩

theorem kept_of_inv (inv : Inv n s) : Kept n s := by
  obtain ⟨blocks,layout,matches_⟩ := inv
  have filled := layout.filled
  have headerWhole := n.whole.2.1
  have positive := n.positive
  refine ⟨?_,?_,?_,?_,?_,?_⟩
  · intro p used mine
    obtain ⟨before,b,after,size,rfl,rfl,_,fits,lends⟩ := block_of_live matches_ mine
    have whole : 4 ∣ total before := dvd_total fun c member => layout.aligned c (List.mem_append_left _ member)
    obtain ⟨wide,_⟩ := rounded_spec fits
    obtain ⟨room,_⟩ := lends
    rw [total_append,total_cons] at filled
    refine ⟨Nat.dvd_add whole headerWhole,Nat.le_add_left _ _,by omega⟩
  · intro p q used other before mine also
    obtain ⟨x,len,rfl,held⟩ := matches_.owned p used mine
    obtain ⟨y,width,rfl,there⟩ := matches_.owned q other also
    obtain ⟨used',size,same,fits,room,_⟩ := matches_.lent x len held
    cases Option.some.inj (mine.symm.trans same)
    obtain ⟨wide,_⟩ := rounded_spec fits
    rcases places_apart held there with ⟨same,_⟩ | first | second
    · omega
    · dsimp only at first
      omega
    · omega
  · intro sizeIn
    rcases memMalloc_spec layout sizeIn with ⟨nothing,_⟩ | ⟨_,_,_,_,heap,_,_,_,_,_,_,found,_⟩
    · exact ⟨_,nothing⟩
    · exact ⟨_,found⟩
  · intro sizeIn heap p taken
    rcases memMalloc_spec layout sizeIn with ⟨nothing,_⟩ | ⟨size,before,b,after,heap',width,more,_,_,rfl,free,found,_⟩
    · exact absurd (nothing.symm.trans taken) (by simp)
    · cases (Prod.mk.inj (Option.some.inj (found.symm.trans taken))).2
      by_contra owned
      obtain ⟨used,mine⟩ := Option.ne_none_iff_exists'.mp owned
      obtain ⟨x,len,same,held⟩ := matches_.owned _ used mine
      have large := layout.positive b (by simp)
      have wide := layout.positive _ (mem_of_placed held)
      rcases places_apart held (placed_split 0 before after b) with ⟨_,rfl⟩ | first | second
      · contradiction
      · dsimp only at first wide
        omega
      · omega
  · intro sizeIn size heap some_ fits taken x last
    rcases memMalloc_spec layout sizeIn with ⟨_,small⟩ | ⟨_,_,_,_,_,_,_,_,_,_,_,found,_⟩
    · by_contra clear
      simp only [not_exists,not_and] at clear
      have away : ∀ y b, (y,b) ∈ places 0 blocks → b.used = true → x + (n.header + size) ≤ y ∨ y + b.len ≤ x := by
        intro y b placed inUse
        obtain ⟨used,room,mine,rounds,_,narrow⟩ := matches_.lent y b.len (occupied_of_placed placed inUse)
        by_contra meets
        exact clear _ used room mine rounds (by omega) (by omega)
      obtain ⟨y,b,placed,free,_,wide⟩ := hole_within layout.separated (by omega) (Nat.zero_le x) (by omega) away
      have narrow := small size some_ fits b (mem_of_placed placed) free
      omega
    · exact absurd (found.symm.trans taken) (by simp)
  · intro nothing
    have unused : ∀ x len, ¬ Occupied blocks x len := by
      intro x len held
      obtain ⟨used,_,mine,_⟩ := matches_.lent x len held
      exact absurd (mine.symm.trans (nothing _)) (Option.some_ne_none used)
    rcases single_of_unused layout.separated unused with rfl | ⟨len,rfl⟩
    · have room := n.room
      rw [total_nil] at filled
      omega
    · have first := layout.heads.1
      rw [total_cons,total_nil,Nat.add_zero] at filled
      rw [Nat.zero_add] at first
      exact ⟨layout.lowest,filled ▸ first⟩

/-- Whatever is taken, shrunk and given back, in any order. -/
theorem heap_kept (n : Config) (ram : Nat → Mem) (events : List Event) (s : State)
    (reached : Run.after (step n) (start n ram) events = some s)
    (allowed : Run.Meets Allowed (step n) (start n ram) events) : Kept n s := by
  have throughout := Run.throughout_of_meets (Inv n) (Inv n) Allowed (fun _ inv => inv)
    (fun _ event _ inv allowed taken => inv_step event inv allowed taken) (start n ram) events (inv_start ram) allowed
  exact kept_of_inv (throughout events s (List.prefix_refl events) reached)

/-- The middle one of three packets is given back and its memory taken again in part, and the last one shrunk. -/
def packets : List Event :=
  [.malloc 100,.malloc 1514,.malloc 3000,.free (some 116),.malloc 60,.trim 1640 40,.malloc 65535,.malloc 9000]

theorem heap_kept_packets :
    ∃ s, Run.after (step Config.default) (start Config.default fun _ => ⟨0,0,false⟩) packets = some s ∧ Kept Config.default s ∧
      s.live 116 = some 60 ∧ s.live 1640 = some 40 ∧ s.heap.lfree = 176 := by
  have allowed : Run.Meets Allowed (step Config.default) (start Config.default fun _ => ⟨0,0,false⟩) packets := by decide +kernel
  have shown : (Run.after (step Config.default) (start Config.default fun _ => ⟨0,0,false⟩) packets).map
      (fun s => (s.live 116,s.live 1640,s.heap.lfree)) = some (some 60,some 40,176) := by decide +kernel
  obtain ⟨s,reached,facts⟩ := Option.map_eq_some_iff.mp shown
  simp only [Prod.mk.injEq] at facts
  exact ⟨s,reached,heap_kept Config.default _ packets s reached allowed,facts⟩

end Runs

end OpenPlc.Net.MemHeap
