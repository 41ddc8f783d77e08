import OpenPlc.Lib.Blocks
import OpenPlc.Text.Represents

/-! `String` objects whose buffers are blocks of one heap (`WString.cpp`), so that the argument of a call can lie in the
buffer that the call writes to. -/
namespace OpenPlc.Text.Aliasing
open CString Blocks

structure Obj where
  buffer : Option Nat
  capacity : Nat
  len : Nat

/-- The answer of `realloc`. The new block may be where the old one was, or where there is none. -/
inductive Answer
  | refuse
  | grant (address : Nat) (fill : Nat → UInt8)

/-- The heap with the new block, where `without` is the one without the old block. -/
def renewed (heap without : Heap) (old : List UInt8) (size : Nat) (answer : Answer) : Heap × Option Nat :=
  match answer with
  | .refuse => (heap,none)
  | .grant address fill =>
    match allocated (.grant fill) old size with
    | none => (heap,none)
    | some block => (without.update address (some block),some address)

def realloc (heap : Heap) (buffer : Option Nat) (size : Nat) (answer : Answer) : Outcome (Heap × Option Nat) :=
  match buffer with
  | none => .done (renewed heap heap [] size answer)
  | some old =>
    match heap old with
    | none => .fault .freed
    | some bytes =>
      if size = 0 then .done (heap.update old none,none)
      else .done (renewed heap (heap.update old none) bytes size answer)

def changeBuffer (heap : Heap) (s : Obj) (maxStrLen : Nat) (answer : Answer) : Outcome (Heap × Obj × Bool) := do
  let (heap,newbuffer) ← realloc heap s.buffer ((maxStrLen + 1) % 4294967296) answer
  match newbuffer with
  | some _ => return (heap,{s with buffer := newbuffer, capacity := maxStrLen},true)
  | none => return (heap,s,false)

def reserve (heap : Heap) (s : Obj) (size : Nat) (answer : Answer) : Outcome (Heap × Obj × Bool) := do
  if s.buffer.isSome ∧ size ≤ s.capacity then return (heap,s,true)
  let (heap,s,done) ← changeBuffer heap s size answer
  if done then
    if s.len = 0 then
      let heap ← heap.store (← place s.buffer 0) 0
      return (heap,s,true)
    else return (heap,s,true)
  else return (heap,s,false)

/-- `concat(cstr, length)`, whose copy runs for a number of steps. -/
def concatLength (steps : Nat) (heap : Heap) (s : Obj) (cstr : Option Pointer) (length : Nat) (answer : Answer) :
    Outcome (Heap × Obj × Bool) := do
  let newlen := (s.len + length) % 4294967296
  match cstr with
  | none => return (heap,s,false)
  | some source =>
    if length = 0 then return (heap,s,true)
    let (heap,s,done) ← reserve heap s newlen answer
    if done then
      let heap ← Heap.strcpy steps heap (← place s.buffer s.len) source
      return (heap,{s with len := newlen},true)
    else return (heap,s,false)

/-- `concat(const String &)`: the buffer and the length of the argument are read before the call. -/
def concat (steps : Nat) (heap : Heap) (s rhs : Obj) (answer : Answer) : Outcome (Heap × Obj × Bool) :=
  concatLength steps heap s (rhs.buffer.map fun block => ⟨block,0⟩) rhs.len answer

/-- `operator += (const String &)` -/
def append (steps : Nat) (heap : Heap) (s rhs : Obj) (answer : Answer) : Outcome (Heap × Obj) := do
  let (heap,s,_) ← concat steps heap s rhs answer
  return (heap,s)

/-- The object as a value, with the bytes that its block holds. -/
def view (heap : Heap) (s : Obj) : Str where
  buffer :=
    match s.buffer with
    | none => .null
    | some block =>
      match heap block with
      | none => .freed
      | some bytes => .block bytes
  capacity := s.capacity
  len := s.len

section Itself
variable {heap : Heap} {s : Obj} {content bytes : List UInt8} {block : Nat}

theorem view_valid (denotes : Denotes (view heap s) content) (block : Nat) (pointer : s.buffer = some block) :
    ∃ bytes, heap block = some bytes ∧ Holds bytes content ∧ s.len = content.length := by
  cases there : heap block with
  | none =>
    cases denotes with
    | null same =>
      have buffer := congrArg Str.buffer same
      simp [view,pointer,there,Str.init] at buffer
    | block _ represents =>
      obtain ⟨_,bytes,owned,_⟩ := represents
      simp [view,pointer,there] at owned
  | some bytes =>
    cases denotes with
    | null same =>
      have buffer := congrArg Str.buffer same
      simp [view,pointer,there,Str.init] at buffer
    | block _ represents =>
      obtain ⟨len,other,owned,holds,_⟩ := represents
      simp only [view,pointer,there,Buffer.block.injEq] at owned
      exact ⟨bytes,rfl,owned ▸ holds,len⟩

theorem view_block (denotes : Denotes (view heap s) content) (some_ : content ≠ []) :
    ∃ block bytes, s.buffer = some block ∧ heap block = some bytes ∧ Holds bytes content ∧ s.len = content.length := by
  cases pointer : s.buffer with
  | none =>
    cases denotes with
    | null => contradiction
    | block _ represents =>
      obtain ⟨_,bytes,owned,_⟩ := represents
      simp [view,pointer] at owned
  | some block =>
    obtain ⟨bytes,there,holds,len⟩ := view_valid denotes block pointer
    exact ⟨block,bytes,rfl,there,holds,len⟩

/-- With enough room, or a block that stays where it is, the copy runs over the terminator. -/
theorem chase (steps : Nat) (there : heap block = some bytes) (some_ : content ≠ []) (len : s.len = content.length)
    (front : ∀ i (inside : i < content.length), bytes[i]? = some content[i]) (free : 0 ∉ content) :
    Heap.strcpy steps heap ⟨block,s.len⟩ ⟨block,0⟩ = if steps ≤ bytes.length - s.len then .running else .fault .outside := by
  have letters : ∀ i, i < 0 + content.length → ∃ c, bytes[i]? = some c ∧ c ≠ 0 := by
    intro i inside
    rw [Nat.zero_add] at inside
    exact ⟨content[i],front i inside,fun zero => free (zero ▸ List.getElem_mem inside)⟩
  have runs := Heap.strcpy_chases steps content.length 0 (List.length_pos_iff.mpr some_) there letters
  rw [Nat.zero_add,← len] at runs
  exact runs

/-- What `reserve` makes of a text that is not empty. -/
theorem reserve_cases (size : Nat) (answer : Answer) (owned : s.buffer = some block) (there : heap block = some bytes)
    (letters : s.len ≠ 0) (bound : size + 1 < 4294967296) :
    reserve heap s size answer = .done (heap,s,true) ∨ reserve heap s size answer = .done (heap,s,false) ∨
      ∃ address rest, reserve heap s size answer =
        .done ((heap.update block none).update address (some (bytes.take (size + 1) ++ rest)),
          {s with buffer := some address, capacity := size},true) := by
  by_cases enough : size ≤ s.capacity
  · exact Or.inl (by simp [reserve,owned,enough])
  · have wrap : (size + 1) % 4294967296 = size + 1 := Nat.mod_eq_of_lt bound
    cases answer with
    | refuse => exact Or.inr (Or.inl (by simp [reserve,changeBuffer,realloc,renewed,owned,there,enough,wrap]))
    | grant address fill =>
      cases given : allocated (.grant fill) bytes (size + 1) with
      | none => exact Or.inr (Or.inl (by simp [reserve,changeBuffer,realloc,renewed,owned,there,enough,wrap,given]))
      | some after =>
        rcases allocated_cases (.grant fill) bytes (size + 1) with refused | ⟨other,_,granted⟩
        · rw [given] at refused
          contradiction
        · rw [given] at granted
          cases Option.some.inj granted
          refine Or.inr (Or.inr ⟨address,(List.range (size + 1 - bytes.length)).map other,?_⟩)
          simp only [reserve,changeBuffer,realloc,renewed,owned,there,Option.isSome_some,enough,wrap,given,and_false,
            if_false,Nat.succ_ne_zero,Outcome.done_bind,Outcome.pure_eq,letters,if_true]

theorem concat_itself_enters {steps target : Nat} {answer : Answer} {after : Heap} {s' : Obj} (owned : s.buffer = some block)
    (letters : s.len ≠ 0) (wrap : (s.len + s.len) % 4294967296 = s.len + s.len)
    (reserved : reserve heap s (s.len + s.len) answer = .done (after,s',true)) (kept : s'.len = s.len)
    (valid : s'.buffer = some target) : concat steps heap s s answer =
      (after.strcpy steps ⟨target,s.len⟩ ⟨block,0⟩).bind fun heap => .done (heap,{s' with len := s.len + s.len},true) := by
  simp only [concat,concatLength,owned,Option.map_some,letters,if_false,wrap,reserved,Outcome.done_bind,if_true,place,valid,
    kept]
  rfl

/-- An object that is appended to itself stays as it is when there is no memory. Otherwise the copy reads the block that
was given back, or writes behind the end of the block. -/
theorem concat_itself_runs (answer : Answer) (denotes : Denotes (view heap s) content) (some_ : content ≠ []) :
    (∀ steps, concat steps heap s s answer = .done (heap,s,false)) ∨
      ∃ enough why, ∀ steps, concat steps heap s s answer = if steps ≤ enough then .running else .fault why := by
  have short := denotes.short
  have free := denotes.free
  obtain ⟨block,bytes,owned,there,holds,len⟩ := view_block denotes some_
  have front : ∀ i (inside : i < content.length), bytes[i]? = some content[i] := holds.getElem_lt
  have letters : s.len ≠ 0 := by
    rw [len]
    exact fun zero => some_ (List.eq_nil_of_length_eq_zero zero)
  obtain ⟨wrap,bound⟩ := lengths_fit s.len s.len (len ▸ short) (len ▸ short)
  rcases reserve_cases (s.len + s.len) answer owned there letters bound with enough | refused | ⟨address,rest,granted⟩
  · right
    refine ⟨bytes.length - s.len,.outside,fun steps => ?_⟩
    rw [concat_itself_enters owned letters wrap enough rfl owned,chase steps there some_ len front free]
    by_cases early : steps ≤ bytes.length - s.len <;> simp [early,Outcome.bind]
  · left
    intro steps
    simp [concat,concatLength,owned,letters,wrap,refused]
  · right
    by_cases same : address = block
    · subst same
      have grown : ∀ i (inside : i < content.length),
          (bytes.take (s.len + s.len + 1) ++ rest)[i]? = some content[i] := by
        intro i inside
        have before := holds.length_lt
        rw [List.getElem?_append_left (by rw [List.length_take]; omega),List.getElem?_take_of_lt (by omega)]
        exact front i inside
      refine ⟨(bytes.take (s.len + s.len + 1) ++ rest).length - s.len,.outside,fun steps => ?_⟩
      rw [concat_itself_enters owned letters wrap granted rfl rfl,
        chase steps (Heap.update_same _ address _) some_ len grown free]
      by_cases early : steps ≤ (bytes.take (s.len + s.len + 1) ++ rest).length - s.len <;>
        simp only [early,if_true,if_false,Outcome.bind]
    · refine ⟨0,.freed,fun steps => ?_⟩
      have gone : ((heap.update block none).update address (some (bytes.take (s.len + s.len + 1) ++ rest))) block = none := by
        rw [Heap.update_other _ _ _ _ (Ne.symm same),Heap.update_same]
      cases steps with
      | zero => rw [concat_itself_enters owned letters wrap granted rfl rfl]; rfl
      | succ steps => rw [concat_itself_enters owned letters wrap granted rfl rfl,Heap.strcpy_freed steps _ _ gone]; rfl

/-- The copy ends on no path with the text twice. -/
theorem concat_itself (heap : Heap) (s : Obj) (content : List UInt8) (answer : Answer)
    (denotes : Denotes (view heap s) content) (some_ : content ≠ []) :
    (¬ ∃ steps after s' done, concat steps heap s s answer = .done (after,s',done) ∧
      Denotes (view after s') (content ++ content)) ∧
    ¬ ∃ steps after s', append steps heap s s answer = .done (after,s') ∧ Denotes (view after s') (content ++ content) := by
  have twice : ∀ steps after s' done, concat steps heap s s answer = .done (after,s',done) →
      ¬ Denotes (view after s') (content ++ content) := by
    intro steps after s' done ends doubled
    rcases concat_itself_runs answer denotes some_ with refused | ⟨enough,why,runs⟩
    · rw [refused steps] at ends
      cases ends
      have same := denotes.len.symm.trans doubled.len
      rw [List.length_append] at same
      exact some_ (List.eq_nil_of_length_eq_zero (by omega))
    · rw [runs steps] at ends
      split at ends <;> contradiction
  constructor
  · rintro ⟨steps,after,s',done,ends,doubled⟩
    exact twice steps after s' done ends doubled
  · rintro ⟨steps,after,s',ends,doubled⟩
    cases called : concat steps heap s s answer with
    | running => simp [append,called] at ends
    | fault why => simp [append,called] at ends
    | done result =>
      obtain ⟨later,out,flag⟩ := result
      simp only [append,called,Outcome.done_bind,Outcome.pure_eq,Outcome.done.injEq,Prod.mk.injEq] at ends
      obtain ⟨rfl,rfl⟩ := ends
      exact twice steps _ _ flag called doubled

end Itself

def cell (bytes : List UInt8) : Heap := fun block => if block = 0 then some bytes else none

theorem cell_denotes (bytes content : List UInt8) (capacity : Nat) (holds : Holds bytes content)
    (length : bytes.length = capacity + 1) (small : bytes.length < objectLimit) :
    Denotes (view (cell bytes) ⟨some 0,capacity,content.length⟩) content :=
  .block content ⟨rfl,bytes,rfl,holds,length,small⟩

theorem concat_itself_moved :
    ¬ ∃ steps after s' done, concat steps (cell [97,0]) ⟨some 0,1,1⟩ ⟨some 0,1,1⟩ (.grant 1 fun _ => 0) =
      .done (after,s',done) ∧ Denotes (view after s') ([97] ++ [97]) :=
  (concat_itself (cell [97,0]) ⟨some 0,1,1⟩ [97] (.grant 1 fun _ => 0)
    (cell_denotes [97,0] [97] 1 ⟨by decide,[],rfl⟩ rfl (by decide)) (by decide)).1

/-- The block moves while it is read, or the copy leaves a block that stays. -/
theorem concat_itself_faults :
    (Denotes (view (cell [97,0]) ⟨some 0,1,1⟩) [97] ∧
      ∀ steps, concat (steps + 1) (cell [97,0]) ⟨some 0,1,1⟩ ⟨some 0,1,1⟩ (.grant 1 fun _ => 0) = .fault .freed) ∧
    (Denotes (view (cell [97,0,0]) ⟨some 0,2,1⟩) [97] ∧
      ∀ steps, concat (steps + 3) (cell [97,0,0]) ⟨some 0,2,1⟩ ⟨some 0,2,1⟩ .refuse = .fault .outside) :=
  ⟨⟨cell_denotes [97,0] [97] 1 ⟨by decide,[],rfl⟩ rfl (by decide),fun _ => rfl⟩,
    ⟨cell_denotes [97,0,0] [97] 2 ⟨by decide,[0],rfl⟩ rfl (by decide),fun _ => rfl⟩⟩

section Apart
variable {heap : Heap} {s rhs : Obj} {content source : List UInt8}

def Answer.Elsewhere (answer : Answer) (block : Nat) : Prop :=
  match answer with
  | .refuse => True
  | .grant address _ => address ≠ block

def Answer.alloc : Answer → Alloc
  | .refuse => .refuse
  | .grant _ fill => .grant fill

/-- A block that an operation on another object leaves alone. -/
def Kept (s s' : Obj) (heap after : Heap) (block : Nat) : Prop :=
  s.buffer ≠ some block → after block = heap block ∧ s'.buffer ≠ some block

theorem kept_refl (s : Obj) (heap : Heap) (block : Nat) : Kept s s heap heap block := fun apart => ⟨rfl,apart⟩

def without (heap : Heap) (buffer : Option Nat) : Heap :=
  match buffer with
  | none => heap
  | some block => heap.update block none

theorem renewed_cases (heap : Heap) (lost : Heap) (old : List UInt8) (size : Nat) (answer : Answer) :
    (renewed heap lost old size answer = (heap,none) ∧ allocated answer.alloc old size = none) ∨
      ∃ address fill bytes, answer = .grant address fill ∧ allocated answer.alloc old size = some bytes ∧
        renewed heap lost old size answer = (lost.update address (some bytes),some address) := by
  cases answer with
  | refuse => exact Or.inl ⟨rfl,rfl⟩
  | grant address fill =>
    cases given : allocated (.grant fill) old size with
    | none => exact Or.inl ⟨by simp [renewed,given],given⟩
    | some bytes => exact Or.inr ⟨address,fill,bytes,rfl,given,by simp [renewed,given]⟩

theorem realloc_view (size : Nat) (answer : Answer) (some_ : size ≠ 0)
    (valid : ∀ block, s.buffer = some block → heap block ≠ none) :
    (realloc heap s.buffer size answer = .done (heap,none) ∧
      Text.realloc (view heap s).buffer size answer.alloc = some ((view heap s).buffer,none)) ∨
    ∃ address fill bytes, answer = .grant address fill ∧
      realloc heap s.buffer size answer = .done ((without heap s.buffer).update address (some bytes),some address) ∧
      Text.realloc (view heap s).buffer size answer.alloc = some ((view heap s).buffer,some bytes) := by
  cases owned : s.buffer with
  | none =>
    have seen : (view heap s).buffer = .null := by simp [view,owned]
    rw [seen]
    rcases renewed_cases heap heap [] size answer with ⟨refused,none_⟩ | ⟨address,fill,bytes,rfl,given,granted⟩
    · exact Or.inl ⟨by rw [realloc,refused],by rw [Text.realloc,none_]⟩
    · exact Or.inr ⟨address,fill,bytes,rfl,by rw [realloc,granted]; rfl,by rw [Text.realloc,given]⟩
  | some block =>
    obtain ⟨old,there⟩ := Option.ne_none_iff_exists'.mp (valid block owned)
    have seen : (view heap s).buffer = .block old := by simp [view,owned,there]
    rw [seen]
    rcases renewed_cases heap (heap.update block none) old size answer with
      ⟨refused,none_⟩ | ⟨address,fill,bytes,rfl,given,granted⟩
    · exact Or.inl ⟨by simp [realloc,there,some_,refused],by simp [Text.realloc,some_,none_]⟩
    · exact Or.inr ⟨address,fill,bytes,rfl,by simp [realloc,there,some_,granted,without],
        by simp [Text.realloc,some_,given]⟩

theorem changeBuffer_view (size : Nat) (answer : Answer) (some_ : (size + 1) % 4294967296 ≠ 0)
    (valid : ∀ block, s.buffer = some block → heap block ≠ none) :
    ∃ after s' done, changeBuffer heap s size answer = .done (after,s',done) ∧
      (view heap s).changeBuffer size answer.alloc = some (view after s',done) ∧
      ∀ block, answer.Elsewhere block → Kept s s' heap after block := by
  rcases realloc_view ((size + 1) % 4294967296) answer some_ valid with
    ⟨refused,refused'⟩ | ⟨address,fill,bytes,rfl,granted,granted'⟩
  · refine ⟨heap,s,false,by simp [changeBuffer,refused],?_,fun block _ => kept_refl s heap block⟩
    simp only [Str.changeBuffer,refused',Option.bind_eq_bind,Option.bind_some]
    rfl
  · refine ⟨_,_,true,by rw [changeBuffer,granted]; rfl,?_,?_⟩
    · simp only [Str.changeBuffer,granted',Option.bind_eq_bind,Option.bind_some]
      simp only [view,Heap.update_same]
      rfl
    · intro block elsewhere apart
      refine ⟨?_,fun same => elsewhere (Option.some.inj same)⟩
      rw [Heap.update_other _ _ _ _ (Ne.symm elsewhere)]
      cases owned : s.buffer with
      | none => rfl
      | some b => exact Heap.update_other _ _ _ _ fun same => apart (by rw [owned,same])

theorem view_bytes {bytes : List UInt8} (owned : (view heap s).bytes = some bytes) :
    ∃ block, s.buffer = some block ∧ heap block = some bytes := by
  cases pointer : s.buffer with
  | none => simp [view,Str.bytes,pointer] at owned
  | some block =>
    cases there : heap block with
    | none => simp [view,Str.bytes,pointer,there] at owned
    | some other =>
      simp only [view,Str.bytes,pointer,there,Option.some.injEq] at owned
      exact ⟨block,rfl,owned ▸ there⟩

theorem view_update (block len : Nat) (bytes : List UInt8) (owned : s.buffer = some block) :
    view (heap.update block (some bytes)) {s with len := len} = {view heap s with buffer := .block bytes, len := len} := by
  simp [view,owned]

theorem Kept.update {s s' : Obj} {heap after : Heap} {block : Nat} (kept : Kept s s' heap after block) (own : Nat)
    (owned : s'.buffer = some own) (bytes : List UInt8) (len : Nat) :
    Kept s {s' with len := len} heap (after.update own (some bytes)) block := by
  intro apart
  obtain ⟨same,foreign⟩ := kept apart
  refine ⟨?_,foreign⟩
  rw [Heap.update_other after own block _ (fun here => foreign (by rw [owned,here]))]
  exact same

theorem reserve_view (size : Nat) (answer : Answer) (some_ : (size + 1) % 4294967296 ≠ 0) (t : Str) (done : Bool)
    (valid : ∀ block, s.buffer = some block → heap block ≠ none)
    (reserved : (view heap s).reserve size answer.alloc = some (t,done)) :
    ∃ after s', reserve heap s size answer = .done (after,s',done) ∧ view after s' = t ∧
      ∀ block, answer.Elsewhere block → Kept s s' heap after block := by
  by_cases enough : (view heap s).buffer ≠ .null ∧ size ≤ s.capacity
  · rw [reserve_enough _ _ _ enough.1 enough.2] at reserved
    cases reserved
    have there : s.buffer.isSome := by
      cases owned : s.buffer with
      | none => simp [view,owned] at enough
      | some block => rfl
    exact ⟨heap,s,by simp [reserve,there,enough.2],rfl,fun block _ => kept_refl s heap block⟩
  · rw [reserve_enters _ _ _ enough] at reserved
    obtain ⟨after,s',changed,runs,same,kept⟩ := changeBuffer_view size answer some_ valid
    have short : ¬ (s.buffer.isSome ∧ size ≤ s.capacity) := by
      rintro ⟨there,fits⟩
      obtain ⟨block,owned⟩ := Option.isSome_iff_exists.mp there
      obtain ⟨bytes,held⟩ := Option.ne_none_iff_exists'.mp (valid block owned)
      exact enough ⟨by simp [view,owned,held],fits⟩
    rw [same,Option.bind_some] at reserved
    cases changed with
    | false =>
      cases reserved
      exact ⟨after,s',by simp [reserve,short,runs],rfl,kept⟩
    | true =>
      by_cases empty : s'.len = 0
      · have zero : (view after s').len = 0 := empty
        simp only [if_true] at reserved
        rw [if_pos zero] at reserved
        obtain ⟨bytes,owned,reserved⟩ := Option.bind_eq_some_iff.mp reserved
        obtain ⟨block,written,reserved⟩ := Option.bind_eq_some_iff.mp reserved
        cases reserved
        obtain ⟨own,mine,held⟩ := view_bytes owned
        refine ⟨after.update own (some block),s',?_,?_,
          fun other elsewhere => (kept other elsewhere).update own mine block s'.len⟩
        · simp [reserve,short,runs,empty,place,mine,Heap.store_put held 0 0 block written]
        · exact view_update own s'.len block mine
      · have some_ : (view after s').len ≠ 0 := empty
        simp only [if_true,some_,if_false] at reserved
        cases reserved
        exact ⟨after,s',by simp [reserve,short,runs,empty],rfl,kept⟩

theorem concat_apart (heap : Heap) (s rhs : Obj) (content source : List UInt8) (answer : Answer) (steps : Nat)
    (denotes : Denotes (view heap s) content) (from_ : Denotes (view heap rhs) source)
    (apart : ∀ block, rhs.buffer = some block → s.buffer ≠ some block ∧ answer.Elsewhere block)
    (enough : source.length < steps) :
    ∃ after s' done, concat steps heap s rhs answer = .done (after,s',done) ∧
      (view heap s).concat (view heap rhs) answer.alloc = some (view after s',done) := by
  have free := from_.free
  have short := from_.short
  cases pointer : rhs.buffer with
  | none =>
    refine ⟨heap,s,false,by simp [concat,concatLength,pointer],?_⟩
    simp [Str.concat,Str.concatLength,view,pointer]
  | some block =>
    obtain ⟨foreign,elsewhere⟩ := apart block pointer
    obtain ⟨bytes,there,holds,len⟩ := view_valid from_ block pointer
    have seen : (view heap rhs).buffer = .block bytes := by simp [view,pointer,there]
    have value : (view heap s).concat (view heap rhs) answer.alloc =
        (view heap s).concatLength (some source) source.length answer.alloc := by
      simp [Str.concat,seen,Str.bytes,holds.text,show (view heap rhs).len = source.length from len]
    obtain ⟨t,done,appended,_⟩ := concatLength_spec (view heap s) content source answer.alloc denotes free short
    rw [value,appended]
    by_cases empty : source.length = 0
    · refine ⟨heap,s,true,by simp [concat,concatLength,pointer,len,empty],?_⟩
      rw [← appended]
      simp [Str.concatLength,empty]
    · have same_len : s.len = content.length := denotes.len
      obtain ⟨total,fits⟩ := lengths_fit s.len source.length (same_len ▸ denotes.short) short
      have bound : (s.len + source.length + 1) % 4294967296 ≠ 0 := by omega
      have mine : ∀ b, s.buffer = some b → heap b ≠ none := by
        intro b owned
        obtain ⟨_,held,_⟩ := view_valid denotes b owned
        rw [held]
        exact Option.some_ne_none _
      simp only [Str.concatLength,empty,if_false,show (view heap s).len = s.len from rfl,total] at appended
      obtain ⟨⟨t',granted⟩,tried,appended⟩ := Option.bind_eq_some_iff.mp appended
      obtain ⟨after,s',runs,rfl,kept⟩ := reserve_view (s.len + source.length) answer bound t' granted mine tried
      obtain ⟨same,different⟩ := kept block elsewhere foreign
      cases granted with
      | false =>
        cases appended
        exact ⟨after,s',false,by simp [concat,concatLength,pointer,len,empty,total,runs],rfl⟩
      | true =>
        simp only [if_true] at appended
        obtain ⟨block',owned,appended⟩ := Option.bind_eq_some_iff.mp appended
        obtain ⟨copy,copied,appended⟩ := Option.bind_eq_some_iff.mp appended
        obtain ⟨target,at_target,held⟩ := view_bytes owned
        have distinct : block ≠ target := fun here => different (by rw [at_target,here])
        have copies := Heap.strcpy_apart steps block s'.len 0 bytes source copy distinct held (same.trans there) holds enough
          copied
        cases appended
        exact ⟨after.update target (some copy),{s' with len := s.len + source.length},true,
          by simp [concat,concatLength,pointer,len,empty,total,runs,place,at_target,copies],
          by rw [view_update target _ copy at_target]⟩

end Apart

end OpenPlc.Text.Aliasing
