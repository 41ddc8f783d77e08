import Mathlib.Logic.Function.Basic
import OpenPlc.Lib.Tiling

/-! The heap of lwIP (`mem.c`), from which the buffers of packets come. Each block has a header with the indices of its
neighbours. -/
namespace OpenPlc.Net.MemHeap
open Tiling

/-- `MEM_SIZE_ALIGNED`, `SIZEOF_STRUCT_MEM` and `MIN_SIZE_ALIGNED`, where `mem_size_t` is `u16_t`. -/
structure Config where
  memSize : Nat
  header : Nat
  minSize : Nat
  positive : 0 < header
  nonempty : 0 < minSize
  room : header + minSize ≤ memSize
  fits : memSize ≤ 64000
  whole : 4 ∣ memSize ∧ 4 ∣ header ∧ 4 ∣ minSize

def Config.default : Config := ⟨10 * 1024,8,12,by decide,by decide,by decide,by decide,by decide⟩

/-- `struct mem` -/
structure Mem where
  next : Nat
  prev : Nat
  used : Bool

/-- `ram` has the headers by their index, and `lfree` is an index too. -/
structure Heap where
  ram : Nat → Mem
  lfree : Nat

variable (n : Config)

def memInit (ram : Nat → Mem) : Heap :=
  ⟨Function.update (Function.update ram 0 ⟨n.memSize,0,false⟩) n.memSize ⟨n.memSize,n.memSize,true⟩,0⟩

/-- `LWIP_MEM_ALIGN_SIZE`, of at least `MIN_SIZE_ALIGNED` and as `mem_size_t`, if it fits. -/
def rounded (sizeIn : Nat) : Option Nat :=
  let size := (sizeIn + 3) / 4 * 4 % 65536
  let size := if size < n.minSize then n.minSize else size
  if n.memSize < size ∨ size < sizeIn then none else some size

/-- The size of the user data of a block, in unsigned numbers of 32 bits. -/
def userSize (ram : Nat → Mem) (ptr : Nat) : Nat := ((ram ptr).next + 4294967296 - (ptr + n.header)) % 4294967296

/-- `if (next != MEM_SIZE_ALIGNED) ptr_to_mem(next)->prev = ptr` -/
def setPrev (ram : Nat → Mem) (next ptr : Nat) : Nat → Mem :=
  if next ≠ n.memSize then Function.update ram next {ram next with prev := ptr} else ram

/-- Makes a free block of what lies behind `size` bytes of the user data. -/
def cut (ram : Nat → Mem) (ptr size next : Nat) : Nat → Mem :=
  let ptr2 := (ptr + n.header + size) % 65536
  let ram := Function.update ram ptr2 ⟨next,ptr,false⟩
  let ram := Function.update ram ptr {ram ptr with next := ptr2, used := true}
  setPrev n ram next ptr2

/-- The loop of `mem_malloc` over the blocks. -/
def scan (ram : Nat → Mem) (size : Nat) : Nat → Nat → Option (Option Nat)
  | 0,_ => none
  | fuel + 1,ptr =>
    if ptr < n.memSize - size then
      if (ram ptr).used = false ∧ size ≤ userSize n ram ptr then some (some ptr) else scan ram size fuel (ram ptr).next
    else some none

/-- The loop that updates the lowest free pointer -/
def skip (ram : Nat → Mem) : Nat → Nat → Option Nat
  | 0,_ => none
  | fuel + 1,cur => if (ram cur).used = true ∧ cur ≠ n.memSize then skip ram fuel (ram cur).next else some cur

/-- The block at `ptr` is taken for `size` bytes, and split if another one fits behind them. -/
def take (ram : Nat → Mem) (ptr size : Nat) : Nat → Mem :=
  if size + n.header + n.minSize ≤ userSize n ram ptr then cut n ram ptr size (ram ptr).next
  else Function.update ram ptr {ram ptr with used := true}

/-- The pointers of the program are indices too. There is no result if a loop does not end. -/
def memMalloc (h : Heap) (sizeIn : Nat) : Option (Heap × Option Nat) :=
  if sizeIn = 0 then some (h,none)
  else
    match rounded n sizeIn with
    | none => some (h,none)
    | some size =>
      (scan n h.ram size (n.memSize + 1) h.lfree).bind fun
        | none => some (h,none)
        | some ptr =>
          let ram := take n h.ram ptr size
          (if ptr = h.lfree then skip n ram (n.memSize + 1) ptr else some h.lfree).map fun lfree =>
            (⟨ram,lfree⟩,some (ptr + n.header))

def plugForward (h : Heap) (mem : Nat) : Heap :=
  let nmem := (h.ram mem).next
  if mem ≠ nmem ∧ (h.ram nmem).used = false ∧ nmem ≠ n.memSize then
    let lfree := if h.lfree = nmem then mem else h.lfree
    let next := (h.ram nmem).next
    ⟨setPrev n (Function.update h.ram mem {h.ram mem with next := next}) next mem,lfree⟩
  else h

def plugBackward (h : Heap) (mem : Nat) : Heap :=
  let pmem := (h.ram mem).prev
  if pmem ≠ mem ∧ (h.ram pmem).used = false then
    let lfree := if h.lfree = mem then pmem else h.lfree
    let next := (h.ram mem).next
    ⟨setPrev n (Function.update h.ram pmem {h.ram pmem with next := next}) next pmem,lfree⟩
  else h

def plugHoles (h : Heap) (mem : Nat) : Heap := plugBackward n (plugForward n h mem) mem

def memLinkValid (ram : Nat → Mem) (mem : Nat) : Bool :=
  let m := ram mem
  !(decide (n.memSize < m.next) || decide (n.memSize < m.prev) || (m.prev != mem && (ram m.prev).next != mem) ||
    (m.next != n.memSize && (ram m.next).prev != mem))

/-- `rmem` is `none` for `NULL`. -/
def memFree (h : Heap) : Option Nat → Heap
  | none => h
  | some rmem =>
    let mem := rmem - n.header
    if rmem % 4 ≠ 0 then h
    else if rmem < n.header ∨ n.memSize < rmem + n.minSize then h
    else if (h.ram mem).used = false then h
    else if memLinkValid n h.ram mem = false then h
    else
      let ram := Function.update h.ram mem {h.ram mem with used := false}
      plugHoles n ⟨ram,if mem < h.lfree then mem else h.lfree⟩ mem

/-- With the pointer that it returns. -/
def memTrim (h : Heap) (rmem newSize : Nat) : Heap × Option Nat :=
  match rounded n newSize with
  | none => (h,none)
  | some newsize =>
    if n.memSize ≤ rmem then (h,some rmem)
    else
      let ptr := rmem - n.header
      let next := (h.ram ptr).next
      let size := (next + 131072 - (ptr + n.header)) % 65536
      let ptr2 := (ptr + n.header + newsize) % 65536
      if size < newsize then (h,none)
      else if newsize = size then (h,some rmem)
      else if (h.ram next).used = false then
        (⟨cut n h.ram ptr newsize (h.ram next).next,if h.lfree = next then ptr2 else h.lfree⟩,some rmem)
      else if newsize + n.header + n.minSize ≤ size then
        (⟨cut n h.ram ptr newsize next,if ptr2 < h.lfree then ptr2 else h.lfree⟩,some rmem)
      else (h,some rmem)

section Headers
variable {n : Config} {ram : Nat → Mem} {prev start x : Nat} {first second blocks : List Block} {v : Mem}

/-- The headers tell of these blocks. -/
def Heads (ram : Nat → Mem) : Nat → Nat → List Block → Prop
  | _,_,[] => True
  | prev,start,b :: rest => ram start = ⟨start + b.len,prev,b.used⟩ ∧ Heads ram start (start + b.len) rest

/-- Where the last of the blocks begins. -/
def lastStart (prev start : Nat) : List Block → Nat
  | [] => prev
  | b :: rest => lastStart start (start + b.len) rest

theorem lastStart_concat (b : Block) : lastStart prev start (first ++ [b]) = start + total first := by
  induction first generalizing prev start with
  | nil => rfl
  | cons c rest ih => rw [List.cons_append,lastStart,ih,total_cons,Nat.add_assoc]

theorem heads_append : Heads ram prev start (first ++ second) ↔
    Heads ram prev start first ∧ Heads ram (lastStart prev start first) (start + total first) second := by
  induction first generalizing prev start with
  | nil => exact (true_and _).symm ▸ Iff.rfl
  | cons b rest ih => simp only [List.cons_append,Heads,lastStart,total_cons,ih,and_assoc,Nat.add_assoc]

theorem heads_below (heads : Heads ram prev start blocks) (positive : ∀ b ∈ blocks, 0 < b.len) (behind : start + total blocks ≤ x) :
    Heads (Function.update ram x v) prev start blocks := by
  induction blocks generalizing prev start with
  | nil => trivial
  | cons b rest ih =>
    have some_ := positive b List.mem_cons_self
    rw [total_cons] at behind
    refine ⟨?_,ih heads.2 (fun c later => positive c (List.mem_cons_of_mem b later)) (by omega)⟩
    rw [Function.update_of_ne (by omega)]
    exact heads.1

theorem heads_above (heads : Heads ram prev start blocks) (before : x < start) : Heads (Function.update ram x v) prev start blocks := by
  induction blocks generalizing prev start with
  | nil => trivial
  | cons b rest ih =>
    refine ⟨?_,ih heads.2 (by omega)⟩
    rw [Function.update_of_ne (by omega)]
    exact heads.1

/-- The blocks up to the end of the heap know the one before them by its index. -/
theorem heads_setPrev (heads : Heads ram prev start blocks) (positive : ∀ b ∈ blocks, 0 < b.len)
    (end_ : start + total blocks = n.memSize) (ptr : Nat) : Heads (setPrev n ram start ptr) ptr start blocks := by
  cases blocks with
  | nil => trivial
  | cons b rest =>
    have some_ := positive b List.mem_cons_self
    rw [total_cons] at end_
    rw [setPrev,if_pos (by omega)]
    refine ⟨?_,heads_above heads.2 (by omega)⟩
    rw [Function.update_self,heads.1]

theorem setPrev_other (ram : Nat → Mem) (next ptr : Nat) (other : x ≠ next) : setPrev n ram next ptr x = ram x := by
  rw [setPrev]
  split_ifs
  · exact Function.update_of_ne other _ _
  · rfl

theorem setPrev_end (ram : Nat → Mem) (next ptr : Nat) : setPrev n ram next ptr n.memSize = ram n.memSize := by
  by_cases same : n.memSize = next
  · rw [setPrev,if_neg (not_not.mpr same.symm)]
  · exact setPrev_other ram next ptr same

theorem heads_setPrev_below (heads : Heads ram prev start blocks) (positive : ∀ b ∈ blocks, 0 < b.len) {ptr : Nat}
    (behind : start + total blocks ≤ x) : Heads (setPrev n ram x ptr) prev start blocks := by
  rw [setPrev]
  split_ifs
  · exact heads_below heads positive behind
  · exact heads

end Headers

section Cutting
variable {n : Config} {ram : Nat → Mem} {prev : Nat} {before after : List Block} {len size : Nat}

/-- The part that is cut off becomes a free block between the one that is used and those behind. -/
theorem heads_cut (front : Heads ram 0 0 before) (knows : (ram (total before)).prev = lastStart 0 0 before)
    (back : Heads ram prev (total before + len) after) (end_ : total before + len + total after = n.memSize)
    (below : ∀ b ∈ before, 0 < b.len) (above : ∀ b ∈ after, 0 < b.len) (inside : n.header + size < len) :
    Heads (cut n ram (total before) size (total before + len)) 0 0
      (before ++ ⟨n.header + size,true⟩ :: ⟨len - (n.header + size),false⟩ :: after) := by
  have fits := n.fits
  have positive := n.positive
  have index : (total before + n.header + size) % 65536 = total before + (n.header + size) := by omega
  rw [cut,index]
  refine heads_append.mpr ⟨?_,?_,?_,?_⟩
  · exact heads_setPrev_below (heads_below (heads_below front below (by omega)) below (by omega)) below (by omega)
  · rw [Nat.zero_add,setPrev_other _ _ _ (by omega),Function.update_self,Function.update_of_ne (by omega)]
    exact congrArg (Mem.mk _ · true) knows
  · dsimp only
    rw [Nat.zero_add,setPrev_other _ _ _ (by omega),Function.update_of_ne (by omega),Function.update_self]
    simp only [Mem.mk.injEq,and_true]
    omega
  · dsimp only
    have sum : total before + (n.header + size) + (len - (n.header + size)) = total before + len := by omega
    rw [Nat.zero_add,sum]
    exact heads_setPrev (heads_above (heads_above back (by omega)) (by omega)) above end_ _

end Cutting

section Layouts
variable {n : Config} {h : Heap} {ram : Nat → Mem} {blocks before after : List Block} {b : Block} {lfree : Nat}

/-- The heap is linked in these blocks: they fill it, are aligned and large enough. -/
structure Linked (n : Config) (h : Heap) (blocks : List Block) : Prop where
  heads : Heads h.ram 0 0 blocks
  last : h.ram n.memSize = ⟨n.memSize,n.memSize,true⟩
  filled : total blocks = n.memSize
  large : ∀ b ∈ blocks, n.header + n.minSize ≤ b.len
  aligned : ∀ b ∈ blocks, 4 ∣ b.len
  lowest : h.lfree = firstFree 0 blocks

theorem Linked.positive (linked : Linked n h blocks) : ∀ b ∈ blocks, 0 < b.len := by
  intro b member
  have large := linked.large b member
  have positive := n.positive
  omega

/-- A block of the heap with what its header says. -/
theorem Linked.at_ (linked : Linked n h (before ++ b :: after)) :
    Heads h.ram 0 0 before ∧ h.ram (total before) = ⟨total before + b.len,lastStart 0 0 before,b.used⟩ ∧
      Heads h.ram (total before) (total before + b.len) after ∧ total before + b.len + total after = n.memSize := by
  obtain ⟨front,rest⟩ := heads_append.mp linked.heads
  rw [Nat.zero_add] at rest
  have filled := linked.filled
  rw [total_append,total_cons] at filled
  exact ⟨front,rest.1,rest.2,by omega⟩

/-- Some blocks in a row make room for others. -/
theorem Linked.replace (mid other : List Block) (linked : Linked n h (before ++ (mid ++ after))) (same : total other = total mid)
    (large : ∀ b ∈ other, n.header + n.minSize ≤ b.len) (aligned : ∀ b ∈ other, 4 ∣ b.len)
    (heads : Heads ram 0 0 (before ++ (other ++ after))) (last : ram n.memSize = ⟨n.memSize,n.memSize,true⟩)
    (lowest : lfree = firstFree 0 (before ++ (other ++ after))) : Linked n ⟨ram,lfree⟩ (before ++ (other ++ after)) := by
  have either : ∀ b ∈ before ++ (other ++ after), b ∈ other ∨ b ∈ before ++ (mid ++ after) := by
    simp only [List.mem_append]
    tauto
  refine ⟨heads,last,?_,?_,?_,lowest⟩
  · rw [← linked.filled]
    simp only [total_append,same]
  · exact fun b member => (either b member).elim (large b) (linked.large b)
  · exact fun b member => (either b member).elim (aligned b) (linked.aligned b)

theorem cut_end (ptr size next : Nat) (first : ptr < n.memSize) (second : ptr + n.header + size < n.memSize) :
    cut n ram ptr size next n.memSize = ram n.memSize := by
  have fits := n.fits
  rw [cut,setPrev_end,Function.update_of_ne (by omega),Function.update_of_ne (by omega)]

theorem skip_eq {prev start fuel : Nat} (heads : Heads ram prev start blocks) (positive : ∀ b ∈ blocks, 0 < b.len)
    (end_ : start + total blocks = n.memSize) (enough : blocks.length < fuel) :
    skip n ram fuel start = some (firstFree start blocks) := by
  induction fuel generalizing prev start blocks with
  | zero => contradiction
  | succ fuel ih =>
    rw [skip]
    cases blocks with
    | nil => rw [if_neg fun both => both.2 end_,firstFree]
    | cons b rest =>
      have some_ := positive b List.mem_cons_self
      rw [total_cons] at end_
      rw [heads.1,firstFree]
      cases used : b.used with
      | false => rw [if_neg (by simp),if_neg Bool.false_ne_true]
      | true =>
        rw [if_pos ⟨rfl,by omega⟩,if_pos rfl]
        exact ih heads.2 (fun c later => positive c (List.mem_cons_of_mem b later)) (by dsimp only; omega) (Nat.lt_of_succ_lt_succ enough)

/-- The loop finds a free block that is large enough, if there is one. -/
theorem scan_spec {prev start fuel : Nat} (size : Nat) (heads : Heads ram prev start blocks)
    (large : ∀ b ∈ blocks, n.header ≤ b.len) (end_ : start + total blocks = n.memSize) (enough : blocks.length < fuel) :
    (∃ mid b rest, scan n ram size fuel start = some (some (start + total mid)) ∧ blocks = mid ++ b :: rest ∧ b.used = false ∧
        n.header + size ≤ b.len) ∨
      (scan n ram size fuel start = some none ∧ ∀ b ∈ blocks, b.used = false → b.len < n.header + size) := by
  induction fuel generalizing prev start blocks with
  | zero => contradiction
  | succ fuel ih =>
    rw [scan]
    cases blocks with
    | nil =>
      rw [total_nil] at end_
      exact Or.inr ⟨if_neg (by omega),nofun⟩
    | cons b rest =>
      have room := large b List.mem_cons_self
      rw [total_cons] at end_
      split_ifs with inside fit
      · rw [heads.1] at fit
        refine Or.inl ⟨[],b,rest,rfl,rfl,fit.1,?_⟩
        have fits := n.fits
        have width := fit.2
        rw [MemHeap.userSize,heads.1] at width
        dsimp only at width
        omega
      · rw [heads.1]
        have later := ih heads.2 (fun c later => large c (List.mem_cons_of_mem b later)) (by omega) (Nat.lt_of_succ_lt_succ enough)
        rcases later with ⟨mid,c,more,found,rfl,free,wide⟩ | ⟨nowhere,small⟩
        · exact Or.inl ⟨b :: mid,c,more,by rw [found,total_cons,Nat.add_assoc],rfl,free,wide⟩
        · refine Or.inr ⟨nowhere,fun c member free => ?_⟩
          rcases List.mem_cons.mp member with rfl | among
          · by_contra wide
            apply fit
            rw [MemHeap.userSize,heads.1]
            have fits := n.fits
            exact ⟨free,by dsimp only; omega⟩
          · exact small c among free
      · refine Or.inr ⟨rfl,fun c member _ => ?_⟩
        have bounds : c.len ≤ b.len + total rest := by
          obtain ⟨front,back,split⟩ := List.append_of_mem member
          have sum := congrArg total split
          simp only [total_cons,total_append] at sum
          omega
        have positive := n.positive
        omega

/-- The lowest free pointer, behind a block that gets used or is the lowest one still -/
theorem lowest_taken {rest : List Block} (linked : Linked n h (before ++ b :: after)) (free : b.used = false)
    (taken : Linked n ⟨ram,firstFree 0 (before ++ rest)⟩ (before ++ rest)) :
    (if total before = h.lfree then skip n ram (n.memSize + 1) (total before) else some h.lfree) =
      some (firstFree 0 (before ++ rest)) := by
  have below : ∀ c ∈ before, 0 < c.len := fun c member => linked.positive c (List.mem_append_left _ member)
  rw [linked.lowest]
  rcases firstFree_either before (b :: after) rest below with ⟨here,other⟩ | ⟨lower,other⟩
  · rw [here,other,firstFree,free,if_neg Bool.false_ne_true,if_pos rfl]
    have back := (heads_append.mp taken.heads).2
    have positive : ∀ c ∈ rest, 0 < c.len := fun c member => taken.positive c (List.mem_append_right _ member)
    have filled := taken.filled
    rw [Nat.zero_add] at back
    rw [total_append] at filled
    have few := length_le_total positive
    exact skip_eq back positive filled (by omega)
  · rw [if_neg (by omega),other]

/-- A block, and what may follow it, is cut in two. -/
theorem linked_cut (mid : List Block) {len size : Nat} (linked : Linked n h (before ++ (b :: mid ++ after)))
    (whole : b.len + total mid = len) (least : n.minSize ≤ size) (aligned : 4 ∣ size)
    (remains : n.header + size + (n.header + n.minSize) ≤ len)
    (lowest : lfree = firstFree 0 (before ++ ([⟨n.header + size,true⟩,⟨len - (n.header + size),false⟩] ++ after))) :
    Linked n ⟨cut n h.ram (total before) size (total before + len),lfree⟩
      (before ++ ([⟨n.header + size,true⟩,⟨len - (n.header + size),false⟩] ++ after)) := by
  have placed : Linked n h (before ++ b :: (mid ++ after)) := linked
  obtain ⟨front,header,back,end_⟩ := placed.at_
  have positive := n.positive
  have headerWhole := n.whole.2.1
  have all := placed.positive
  have sumWhole : 4 ∣ total (b :: mid) := dvd_total fun c member => linked.aligned c (by simp only [List.mem_append]; tauto)
  rw [total_append] at end_
  rw [total_cons] at sumWhole
  have behind := (heads_append.mp back).2
  rw [Nat.add_assoc,whole] at behind
  have heads : Heads (cut n h.ram (total before) size (total before + len)) 0 0
      (before ++ ⟨n.header + size,true⟩ :: ⟨len - (n.header + size),false⟩ :: after) :=
    heads_cut front (by rw [header]) behind (by omega) (fun c member => all c (by simp [member]))
      (fun c member => all c (by simp [member])) (by omega)
  refine linked.replace _ _ ?_ ?_ ?_ heads ?_ lowest
  · simp only [total_cons,total_nil]
    omega
  · simp only [List.forall_mem_cons,List.not_mem_nil,false_implies,implies_true,and_true]
    omega
  · simp only [List.forall_mem_cons,List.not_mem_nil,false_implies,implies_true,and_true]
    omega
  · rw [cut_end _ _ _ (by omega) (by omega)]
    exact linked.last

/-- No two blocks that lie side by side are free. -/
structure Layout (n : Config) (h : Heap) (blocks : List Block) : Prop extends Linked n h blocks where
  separated : Separated blocks

theorem rounded_spec {sizeIn size : Nat} (fits : rounded n sizeIn = some size) :
    sizeIn ≤ size ∧ n.minSize ≤ size ∧ size ≤ n.memSize ∧ 4 ∣ size := by
  have whole := n.whole.2.2
  rw [rounded] at fits
  split_ifs at fits with under least least <;> cases Option.some.inj fits <;> omega

/-- What a block of this length lends for a size: room for it, and less than another block in vain. -/
def Lends (n : Config) (len size : Nat) : Prop := n.header + size ≤ len ∧ len < 2 * n.header + size + n.minSize

theorem linked_mark (used : Bool) (linked : Linked n h (before ++ b :: after))
    (lowest : lfree = firstFree 0 (before ++ ⟨b.len,used⟩ :: after)) :
    Linked n ⟨Function.update h.ram (total before) {h.ram (total before) with used := used},lfree⟩
      (before ++ ⟨b.len,used⟩ :: after) := by
  obtain ⟨front,header,back,end_⟩ := linked.at_
  have large := linked.large b (by simp)
  have some_ := linked.positive b (by simp)
  refine linked.replace [b] [⟨b.len,used⟩] rfl ?_ ?_ (heads_append.mpr ⟨?_,?_,?_⟩) ?_ lowest
  · simpa using large
  · simpa using linked.aligned b (by simp)
  · exact heads_below front (fun c member => linked.positive c (List.mem_append_left _ member)) (by omega)
  · rw [Nat.zero_add,Function.update_self,header]
  · rw [Nat.zero_add]
    exact heads_above back (by dsimp only; omega)
  · rw [Function.update_of_ne (by omega)]
    exact linked.last

theorem layout_take {size : Nat} (layout : Layout n h (before ++ b :: after)) (free : b.used = false) (wide : n.header + size ≤ b.len)
    (least : n.minSize ≤ size) (aligned : 4 ∣ size) :
    ∃ width more lfree, (if total before = h.lfree then skip n (take n h.ram (total before) size) (n.memSize + 1) (total before)
        else some h.lfree) = some lfree ∧
      Layout n ⟨take n h.ram (total before) size,lfree⟩ (before ++ (⟨width,true⟩ :: more ++ after)) ∧
        (∀ c ∈ more, c.used = false) ∧ width + total more = b.len ∧ Lends n width size := by
  obtain ⟨_,header,_,end_⟩ := layout.at_
  obtain ⟨front,back,_,next⟩ := (separated_free free).mp layout.separated
  have positive := n.positive
  have fits := n.fits
  have user : MemHeap.userSize n h.ram (total before) = b.len - n.header := by
    rw [MemHeap.userSize,header]
    dsimp only
    omega
  rw [take,user]
  by_cases split : size + n.header + n.minSize ≤ b.len - n.header
  · have taken := linked_cut [] layout.toLinked (Nat.add_zero b.len) least aligned (by omega) rfl
    rw [if_pos split,header]
    refine ⟨n.header + size,[⟨b.len - (n.header + size),false⟩],_,lowest_taken layout.toLinked free taken,
      ⟨taken,separated_cut front back next⟩,by simp,?_,le_refl _,by omega⟩
    simp only [total_cons,total_nil]
    omega
  · have narrow : b.len < 2 * n.header + size + n.minSize := by omega
    have taken := linked_mark true layout.toLinked rfl
    rw [if_neg split]
    exact ⟨b.len,[],_,lowest_taken layout.toLinked free taken,⟨taken,(separated_used rfl).mpr ⟨front,back⟩⟩,nofun,
      Nat.add_zero _,wide,narrow⟩

theorem memMalloc_spec (layout : Layout n h blocks) (sizeIn : Nat) :
    (memMalloc n h sizeIn = some (h,none) ∧ ∀ size, 0 < sizeIn → rounded n sizeIn = some size →
        ∀ b ∈ blocks, b.used = false → b.len < n.header + size) ∨
      ∃ size before b after next width more, 0 < sizeIn ∧ rounded n sizeIn = some size ∧ blocks = before ++ b :: after ∧
        b.used = false ∧ memMalloc n h sizeIn = some (next,some (total before + n.header)) ∧
          Layout n next (before ++ (⟨width,true⟩ :: more ++ after)) ∧ (∀ c ∈ more, c.used = false) ∧
            width + total more = b.len ∧ Lends n width size := by
  rw [memMalloc]
  by_cases nothing : sizeIn = 0
  · exact Or.inl ⟨if_pos nothing,fun _ some_ => by omega⟩
  rw [if_neg nothing]
  cases fits : rounded n sizeIn with
  | none => exact Or.inl ⟨rfl,nofun⟩
  | some size =>
    dsimp only
    obtain ⟨_,least,_,aligned⟩ := rounded_spec fits
    obtain ⟨front,back,rfl,all,lowest⟩ := firstFree_split 0 blocks
    rw [Nat.zero_add] at lowest
    have lfree : h.lfree = total front := layout.lowest.trans lowest
    have heads := (heads_append.mp layout.heads).2
    rw [Nat.zero_add] at heads
    have filled := layout.filled
    rw [total_append] at filled
    have positive : ∀ b ∈ back, 0 < b.len := fun b member => layout.positive b (List.mem_append_right _ member)
    have large : ∀ b ∈ back, n.header ≤ b.len := fun b member =>
      (Nat.le_add_right _ _).trans (layout.large b (List.mem_append_right _ member))
    have few := length_le_total positive
    have enough : back.length < n.memSize + 1 := by omega
    rcases scan_spec size heads large filled enough with ⟨mid,b,rest,found,rfl,free,wide⟩ | ⟨nowhere,small⟩
    · have layout : Layout n h ((front ++ mid) ++ b :: rest) := List.append_assoc front mid _ ▸ layout
      obtain ⟨width,more,lfree',skips,next,remain,sum,lends⟩ := layout_take layout free wide least aligned
      rw [total_append] at skips next
      refine Or.inr ⟨size,front ++ mid,b,rest,_,width,more,Nat.pos_of_ne_zero nothing,rfl,(List.append_assoc front mid _).symm,free,?_,
        next,remain,sum,lends⟩
      rw [lfree] at skips ⊢
      rw [found,Option.bind_some]
      dsimp only
      rw [skips,total_append]
      rfl
    · refine Or.inl ⟨?_,?_⟩
      · rw [lfree,nowhere]
        rfl
      · intro size' _ same b member free
        cases Option.some.inj same
        rcases List.mem_append.mp member with before | behind
        · simp [all b before] at free
        · exact small b behind free

/-- Two free blocks side by side become one. -/
theorem linked_join {c : Block} (linked : Linked n h (before ++ b :: c :: after)) (free : b.used = false) :
    Linked n ⟨setPrev n (Function.update h.ram (total before) {h.ram (total before) with next := total before + b.len + c.len})
      (total before + b.len + c.len) (total before),h.lfree⟩ (before ++ ⟨b.len + c.len,false⟩ :: after) := by
  obtain ⟨front,header,back,end_⟩ := linked.at_
  have all := linked.positive
  have some_ := all b (by simp)
  have more := all c (by simp)
  rw [total_cons] at end_
  have below : ∀ d ∈ before, 0 < d.len := fun d member => all d (List.mem_append_left _ member)
  refine linked.replace [b,c] [⟨b.len + c.len,false⟩] ?_ ?_ ?_ (heads_append.mpr ⟨?_,?_,?_⟩) ?_ ?_
  · simp
  · simpa using (linked.large b (by simp)).trans (Nat.le_add_right _ _)
  · simpa using Nat.dvd_add (linked.aligned b (by simp)) (linked.aligned c (by simp))
  · exact heads_setPrev_below (heads_below front below (by omega)) below (by omega)
  · dsimp only
    rw [Nat.zero_add,setPrev_other _ _ _ (by omega),Function.update_self,header,free,Nat.add_assoc]
  · dsimp only
    rw [Nat.zero_add,← Nat.add_assoc]
    exact heads_setPrev (heads_above back.2 (by omega)) (fun d member => all d (by simp [member])) (by omega) _
  · rw [setPrev_end,Function.update_of_ne (by omega)]
    exact linked.last
  · exact linked.lowest.trans (firstFree_free free rfl)

theorem plugForward_spec (linked : Linked n h (before ++ b :: after)) (free : b.used = false) :
    (plugForward n h (total before) = h ∧ ∀ c ∈ after.head?, c.used = true) ∨
      ∃ c rest, after = c :: rest ∧ c.used = false ∧
        Linked n (plugForward n h (total before)) (before ++ ⟨b.len + c.len,false⟩ :: rest) := by
  obtain ⟨_,header,back,end_⟩ := linked.at_
  have some_ := linked.positive b (by simp)
  rw [plugForward,header]
  dsimp only
  cases after with
  | nil => exact Or.inl ⟨if_neg fun all => all.2.2 end_,nofun⟩
  | cons c rest =>
    have more := linked.positive c (by simp)
    rw [total_cons] at end_
    rw [back.1]
    cases also : c.used with
    | true => exact Or.inl ⟨if_neg (by simp),by simpa using also⟩
    | false =>
      have lowest : h.lfree ≤ 0 + total before := linked.lowest ▸ firstFree_le free
      refine Or.inr ⟨c,rest,rfl,also,?_⟩
      rw [if_pos ⟨by omega,rfl,by omega⟩,if_neg (by omega)]
      have joined := linked_join linked free
      rw [header] at joined
      exact joined

theorem plugBackward_spec (linked : Linked n h (before ++ b :: after)) :
    (plugBackward n h (total before) = h ∧ ∀ c ∈ before.getLast?, c.used = true) ∨
      ∃ front c, before = front ++ [c] ∧ c.used = false ∧
        Linked n (plugBackward n h (total before)) (front ++ ⟨c.len + b.len,false⟩ :: after) := by
  obtain ⟨_,header,_,_⟩ := linked.at_
  rw [plugBackward,header]
  dsimp only
  rcases List.eq_nil_or_concat before with rfl | ⟨front,c,rfl⟩
  · exact Or.inl ⟨if_neg fun both => both.1 rfl,nofun⟩
  · rw [List.concat_eq_append] at linked header ⊢
    have split : front ++ [c] ++ b :: after = front ++ c :: b :: after := List.append_assoc front [c] _
    rw [split] at linked
    obtain ⟨_,first,_,_⟩ := linked.at_
    have some_ := linked.positive c (by simp)
    have sum : total (front ++ [c]) = total front + c.len := by simp
    rw [lastStart_concat,Nat.zero_add,first,sum]
    cases also : c.used with
    | true => exact Or.inl ⟨if_neg (by simp),by simpa using also⟩
    | false =>
      have lowest : h.lfree ≤ 0 + total front := linked.lowest ▸ firstFree_le also
      refine Or.inr ⟨front,c,rfl,also,?_⟩
      rw [if_pos ⟨by omega,rfl⟩,if_neg (by omega)]
      have joined := linked_join linked also
      rw [first,also] at joined
      exact joined

theorem memLinkValid_of (linked : Linked n h (before ++ b :: after)) : memLinkValid n h.ram (total before) = true := by
  obtain ⟨_,header,back,end_⟩ := linked.at_
  have upward : total before + b.len ≠ n.memSize → (h.ram (total before + b.len)).prev = total before := by
    intro inside
    cases after with
    | nil => exact absurd end_ inside
    | cons c rest => rw [back.1]
  have downward : lastStart 0 0 before ≤ total before ∧
      (lastStart 0 0 before ≠ total before → (h.ram (lastStart 0 0 before)).next = total before) := by
    rcases List.eq_nil_or_concat before with rfl | ⟨front,c,rfl⟩
    · exact ⟨le_refl 0,fun other => absurd rfl other⟩
    · rw [List.concat_eq_append] at linked ⊢
      rw [List.append_assoc] at linked
      have sum : total (front ++ [c]) = total front + c.len := by simp
      rw [lastStart_concat,Nat.zero_add,linked.at_.2.1,sum]
      exact ⟨Nat.le_add_right _ _,fun _ => rfl⟩
  rw [memLinkValid,header]
  simp only [Bool.not_eq_true',Bool.or_eq_false_iff,decide_eq_false_iff_not,not_lt,Bool.and_eq_false_iff,bne_eq_false_iff_eq]
  refine ⟨⟨⟨by omega,downward.1.trans (by omega)⟩,?_⟩,?_⟩
  · by_cases same : lastStart 0 0 before = total before
    · exact Or.inl same
    · exact Or.inr (downward.2 same)
  · by_cases same : total before + b.len = n.memSize
    · exact Or.inl same
    · exact Or.inr (upward same)

/-- The block that was freed, with the free ones at its sides -/
theorem plugHoles_spec (linked : Linked n h (before ++ b :: after)) (free : b.used = false) (front : Separated before)
    (back : Separated after) :
    ∃ other, Layout n (plugHoles n h (total before)) other ∧
      ∀ x len, Occupied other x len ↔ Occupied (before ++ b :: after) x len := by
  obtain ⟨c,rest,freed,ahead,behind,next,same⟩ : ∃ c rest, Linked n (plugForward n h (total before)) (before ++ c :: rest) ∧
      c.used = false ∧ Separated rest ∧ (∀ d ∈ rest.head?, d.used = true) ∧
        ∀ x len, Occupied (before ++ c :: rest) x len ↔ Occupied (before ++ b :: after) x len := by
    rcases plugForward_spec linked free with ⟨unchanged,next⟩ | ⟨c,rest,rfl,also,joined⟩
    · exact ⟨b,after,unchanged.symm ▸ linked,free,back,next,fun _ _ => Iff.rfl⟩
    · have both : ∀ d ∈ [b,c], d.used = false := by simp [free,also]
      have apart : Separated ([] ++ c :: rest) := back
      obtain ⟨_,behind,_,next⟩ := (separated_free also).mp apart
      exact ⟨⟨b.len + c.len,false⟩,rest,joined,rfl,behind,next,
        fun x len => occupied_free [b,c] [⟨b.len + c.len,false⟩] (by simp) both (by simp)⟩
  rw [plugHoles]
  rcases plugBackward_spec freed with ⟨unchanged,last⟩ | ⟨fore,d,rfl,also,joined⟩
  · exact ⟨_,⟨unchanged.symm ▸ freed,(separated_free ahead).mpr ⟨front,behind,last,next⟩⟩,same⟩
  · obtain ⟨fore',_,last,_⟩ := (separated_free also).mp front
    have both : ∀ e ∈ [d,c], e.used = false := by simp [ahead,also]
    refine ⟨_,⟨joined,(separated_free rfl).mpr ⟨fore',behind,last,next⟩⟩,fun x len => ?_⟩
    rw [← same x len,List.append_assoc]
    exact occupied_free [d,c] [⟨d.len + c.len,false⟩] (by simp) both (by simp)

theorem memFree_spec (layout : Layout n h (before ++ b :: after)) (used : b.used = true) :
    ∃ other, Layout n (memFree n h (some (total before + n.header))) other ∧
      ∀ x len, Occupied other x len ↔ x ≠ total before ∧ Occupied (before ++ b :: after) x len := by
  obtain ⟨front,back⟩ := (separated_used used).mp layout.separated
  obtain ⟨_,header,_,end_⟩ := layout.at_
  have large := layout.large b (by simp)
  have whole : 4 ∣ total before := dvd_total fun c member => layout.aligned c (List.mem_append_left _ member)
  have headerWhole := n.whole.2.1
  have lowest : (if total before < h.lfree then total before else h.lfree) = firstFree 0 (before ++ ⟨b.len,false⟩ :: after) := by
    rw [layout.lowest]
    have below : ∀ c ∈ before, 0 < c.len := fun c member => layout.positive c (List.mem_append_left _ member)
    rcases firstFree_either before (b :: after) (⟨b.len,false⟩ :: after) below with ⟨here,other⟩ | ⟨lower,other⟩
    · have some_ := layout.positive b (by simp)
      have ahead := firstFree_ge (total before + b.len) after
      rw [here,other,firstFree,used,if_pos rfl,if_pos (by omega),firstFree,if_neg Bool.false_ne_true]
    · rw [if_neg (by omega),other]
  have marked := linked_mark false layout.toLinked rfl
  obtain ⟨other,laid,same⟩ := plugHoles_spec marked rfl front back
  refine ⟨other,?_,fun x len => ?_⟩
  · rw [memFree,Nat.add_sub_cancel,if_neg (by omega),if_neg (by omega),header,if_neg (by simp [used]),
      if_neg (by simp [memLinkValid_of layout.toLinked]),lowest]
    rw [header] at laid
    exact laid
  · rw [same x len]
    have exchanged : Occupied (before ++ ⟨b.len,false⟩ :: after) x len ↔
        if x = total before then false = true ∧ b.len = len else Occupied (before ++ b :: after) x len :=
      occupied_head [] [] rfl (by simp) (by simp) layout.positive
    rw [exchanged]
    split_ifs with here
    · simp [here]
    · simp [here]

/-- The free block behind moves down. -/
theorem layout_extend {c : Block} {size : Nat} (layout : Layout n h (before ++ b :: c :: after)) (used : b.used = true)
    (free : c.used = false) (least : n.minSize ≤ size) (aligned : 4 ∣ size) (narrower : n.header + size ≤ b.len) :
    Layout n ⟨cut n h.ram (total before) size (total before + (b.len + c.len)),
        if h.lfree = total before + b.len then total before + (n.header + size) else h.lfree⟩
      (before ++ ([⟨n.header + size,true⟩,⟨b.len + c.len - (n.header + size),false⟩] ++ after)) := by
  obtain ⟨front,rest⟩ := (separated_used used).mp layout.separated
  have apart : Separated ([] ++ c :: after) := rest
  obtain ⟨_,back,_,next⟩ := (separated_free free).mp apart
  have below : ∀ d ∈ before, 0 < d.len := fun d member => layout.positive d (List.mem_append_left _ member)
  have large := layout.large c (by simp)
  refine ⟨linked_cut [c] layout.toLinked (by simp) least aligned (by omega) ?_,separated_cut front back next⟩
  rw [layout.lowest]
  rcases firstFree_either before (b :: c :: after)
    ([⟨n.header + size,true⟩,⟨b.len + c.len - (n.header + size),false⟩] ++ after) below with ⟨here,other⟩ | ⟨lower,other⟩
  · rw [here,other]
    simp only [List.cons_append,firstFree,used,free,Bool.false_eq_true,if_true,if_false]
  · rw [if_neg (by omega),other]

/-- A free block is made of what is left behind. -/
theorem layout_split {size : Nat} (layout : Layout n h (before ++ b :: after)) (used : b.used = true)
    (next : ∀ c ∈ after.head?, c.used = true) (least : n.minSize ≤ size) (aligned : 4 ∣ size)
    (room : n.header + size + (n.header + n.minSize) ≤ b.len) :
    Layout n ⟨cut n h.ram (total before) size (total before + b.len),
        if total before + (n.header + size) < h.lfree then total before + (n.header + size) else h.lfree⟩
      (before ++ ([⟨n.header + size,true⟩,⟨b.len - (n.header + size),false⟩] ++ after)) := by
  obtain ⟨front,back⟩ := (separated_used used).mp layout.separated
  have below : ∀ d ∈ before, 0 < d.len := fun d member => layout.positive d (List.mem_append_left _ member)
  have positive := n.positive
  refine ⟨linked_cut [] layout.toLinked (Nat.add_zero b.len) least aligned room ?_,separated_cut front back next⟩
  rw [layout.lowest]
  rcases firstFree_either before (b :: after) ([⟨n.header + size,true⟩,⟨b.len - (n.header + size),false⟩] ++ after) below with
    ⟨here,other⟩ | ⟨lower,other⟩
  · have ahead := firstFree_ge (total before + b.len) after
    rw [here,other,firstFree,used,if_pos rfl,if_pos (by omega)]
    simp only [List.cons_append,firstFree,Bool.false_eq_true,if_true,if_false]
  · rw [if_neg (by omega),other]

theorem memTrim_spec (layout : Layout n h (before ++ b :: after)) (used : b.used = true) (newSize : Nat) :
    (∃ next size width frees more rest, memTrim n h (total before + n.header) newSize = (next,some (total before + n.header)) ∧
        rounded n newSize = some size ∧ after = frees ++ rest ∧ Layout n next (before ++ (⟨width,true⟩ :: more ++ rest)) ∧
          (∀ c ∈ frees, c.used = false) ∧ (∀ c ∈ more, c.used = false) ∧ width + total more = b.len + total frees ∧
            Lends n width size) ∨
      memTrim n h (total before + n.header) newSize = (h,none) := by
  rw [memTrim]
  cases fits : rounded n newSize with
  | none => exact Or.inr rfl
  | some size =>
    obtain ⟨_,least,_,aligned⟩ := rounded_spec fits
    obtain ⟨_,header,behind,end_⟩ := layout.at_
    have large := layout.large b (by simp)
    have positive := n.positive
    have nonempty := n.nonempty
    have inside := n.fits
    have own : (total before + b.len + 131072 - (total before + n.header)) % 65536 = b.len - n.header := by omega
    dsimp only
    rw [if_neg (by omega),Nat.add_sub_cancel,header]
    dsimp only
    rw [own]
    by_cases narrow : b.len - n.header < size
    · exact Or.inr (if_pos narrow)
    have index : (total before + n.header + size) % 65536 = total before + (n.header + size) := by omega
    have unchanged : Layout n h (before ++ (⟨b.len,true⟩ :: [] ++ after)) := used ▸ layout
    rw [if_neg narrow,index]
    by_cases exact_ : size = b.len - n.header
    · rw [if_pos exact_]
      exact Or.inl ⟨_,size,b.len,[],[],after,rfl,rfl,rfl,unchanged,nofun,nofun,rfl,by omega,by omega⟩
    rw [if_neg exact_]
    by_cases free : (h.ram (total before + b.len)).used = false
    · rw [if_pos free]
      cases after with
      | nil =>
        rw [total_nil,Nat.add_zero] at end_
        rw [end_,layout.last] at free
        contradiction
      | cons c rest =>
        rw [behind.1] at free ⊢
        refine Or.inl ⟨_,size,n.header + size,[c],[⟨b.len + c.len - (n.header + size),false⟩],rest,rfl,rfl,rfl,?_,?_,?_,?_,?_⟩
        · rw [Nat.add_assoc]
          exact layout_extend layout used free least aligned (by omega)
        · simpa using free
        · simp
        · simp only [total_cons,total_nil]
          omega
        · exact ⟨le_refl _,by omega⟩
    rw [if_neg free]
    have next : ∀ c ∈ after.head?, c.used = true := by
      cases after with
      | nil => nofun
      | cons c rest =>
        rw [behind.1] at free
        simpa using free
    by_cases room : size + n.header + n.minSize ≤ b.len - n.header
    · rw [if_pos room]
      refine Or.inl ⟨_,size,n.header + size,[],[⟨b.len - (n.header + size),false⟩],after,rfl,rfl,rfl,?_,nofun,by simp,?_,?_⟩
      · exact layout_split layout used next least aligned (by omega)
      · simp only [total_cons,total_nil]
        omega
      · exact ⟨le_refl _,by omega⟩
    · rw [if_neg room]
      exact Or.inl ⟨_,size,b.len,[],[],after,rfl,rfl,rfl,unchanged,nofun,nofun,rfl,by omega,by omega⟩

end Layouts

end OpenPlc.Net.MemHeap
