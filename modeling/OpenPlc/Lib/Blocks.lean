import OpenPlc.Lib.CString

/-! A heap of blocks that can be given back, and a copy of a text from one place to another byte by byte. The loop is run
for a number of steps; an access to a block that is not there or behind the end of one is a fault. -/
namespace OpenPlc.Blocks
open CString

inductive Fault
  | null
  | freed
  | outside

inductive Outcome (α : Type)
  | running
  | fault (why : Fault)
  | done (value : α)

namespace Outcome
variable {α β : Type}

def bind (before : Outcome α) (next : α → Outcome β) : Outcome β :=
  match before with
  | .running => .running
  | .fault why => .fault why
  | .done value => next value

instance : Monad Outcome where
  pure := .done
  bind := bind

@[simp] theorem running_bind (next : α → Outcome β) : (running >>= next) = running := rfl

@[simp] theorem fault_bind (why : Fault) (next : α → Outcome β) : (fault why >>= next) = fault why := rfl

@[simp] theorem done_bind (value : α) (next : α → Outcome β) : (done value >>= next) = next value := rfl

@[simp] theorem pure_eq (value : α) : (pure value : Outcome α) = done value := rfl

end Outcome

/-- The blocks that are allocated. -/
def Heap := Nat → Option (List UInt8)

structure Pointer where
  block : Nat
  offset : Nat

def Pointer.next (p : Pointer) : Pointer := ⟨p.block,p.offset + 1⟩

/-- The place at an offset from a pointer to a block, which may be null. -/
def place (pointer : Option Nat) (offset : Nat) : Outcome Pointer :=
  match pointer with
  | none => .fault .null
  | some block => .done ⟨block,offset⟩

namespace Heap

def update (heap : Heap) (block : Nat) (bytes : Option (List UInt8)) : Heap := fun b => if b = block then bytes else heap b

@[simp] theorem update_same (heap : Heap) (block : Nat) (bytes : Option (List UInt8)) :
    heap.update block bytes block = bytes := by
  simp [update]

theorem update_other (heap : Heap) (block other : Nat) (bytes : Option (List UInt8)) (different : other ≠ block) :
    heap.update block bytes other = heap other := by
  simp [update,different]

@[simp] theorem update_twice (heap : Heap) (block : Nat) (first second : Option (List UInt8)) :
    (heap.update block first).update block second = heap.update block second := by
  funext b
  by_cases same : b = block <;> simp [update,same]

def load (heap : Heap) (p : Pointer) : Outcome UInt8 :=
  match heap p.block with
  | none => .fault .freed
  | some bytes =>
    match bytes[p.offset]? with
    | none => .fault .outside
    | some c => .done c

def store (heap : Heap) (p : Pointer) (c : UInt8) : Outcome Heap :=
  match heap p.block with
  | none => .fault .freed
  | some bytes => if p.offset < bytes.length then .done (heap.update p.block (some (bytes.set p.offset c))) else .fault .outside

/-- The loop of `strcpy` in the order of the addresses. The terminator is the last byte that it copies. -/
def strcpy : Nat → Heap → Pointer → Pointer → Outcome Heap
  | 0,_,_,_ => .running
  | steps + 1,heap,target,source => do
    let c ← load heap source
    let heap ← store heap target c
    if c = 0 then return heap else strcpy steps heap target.next source.next

variable {heap : Heap} {block : Nat} {bytes : List UInt8}

theorem load_some (there : heap block = some bytes) (offset : Nat) (c : UInt8) (read : bytes[offset]? = some c) :
    heap.load ⟨block,offset⟩ = .done c := by
  simp [load,there,read]

theorem store_inside (there : heap block = some bytes) (offset : Nat) (c : UInt8) (inside : offset < bytes.length) :
    heap.store ⟨block,offset⟩ c = .done (heap.update block (some (bytes.set offset c))) := by
  simp [store,there,inside]

theorem store_outside (there : heap block = some bytes) (offset : Nat) (c : UInt8) (outside : bytes.length ≤ offset) :
    heap.store ⟨block,offset⟩ c = .fault .outside := by
  simp [store,there,Nat.not_lt.mpr outside]

theorem store_put (there : heap block = some bytes) (offset : Nat) (c : UInt8) (after : List UInt8)
    (written : put bytes offset [c] = some after) :
    heap.store ⟨block,offset⟩ c = .done (heap.update block (some after)) := by
  obtain ⟨inside,rest⟩ := put_cons bytes [] after offset c written
  rw [put_nothing (offset + 1) (by rw [List.length_set]; exact inside)] at rest
  rw [store_inside there offset c inside,Option.some.inj rest]

theorem strcpy_freed (steps : Nat) (target source : Pointer) (gone : heap source.block = none) :
    strcpy (steps + 1) heap target source = .fault .freed := by
  simp [strcpy,load,gone]

/-- A target that lies ahead of the source in its block, at the terminator or before, replaces the terminator before the
loop gets there: it reads what it has written and stops at the end of the block only. -/
theorem strcpy_chases (steps ahead start : Nat) (some_ : 0 < ahead) (there : heap block = some bytes)
    (text : ∀ i, i < start + ahead → ∃ c, bytes[i]? = some c ∧ c ≠ 0) :
    strcpy steps heap ⟨block,start + ahead⟩ ⟨block,start⟩ =
      if steps ≤ bytes.length - (start + ahead) then .running else .fault .outside := by
  induction steps generalizing heap bytes start with
  | zero => simp [strcpy]
  | succ steps ih =>
    obtain ⟨c,read,letter⟩ := text start (by omega)
    simp only [strcpy,load_some there start c read,Outcome.done_bind]
    by_cases inside : start + ahead < bytes.length
    · rw [store_inside there _ c inside,Outcome.done_bind,if_neg letter]
      have further : ∀ i, i < start + 1 + ahead → ∃ d, (bytes.set (start + ahead) c)[i]? = some d ∧ d ≠ 0 := by
        intro i before
        by_cases last : i = start + ahead
        · exact ⟨c,by rw [last,List.getElem?_set_self inside],letter⟩
        · rw [List.getElem?_set_ne (Ne.symm last)]
          exact text i (by omega)
      have onward := ih (start + 1) (update_same heap block (some (bytes.set (start + ahead) c))) further
      rw [List.length_set,show start + 1 + ahead = start + ahead + 1 by omega] at onward
      simp only [Pointer.next]
      rw [onward]
      congr 1
      rw [eq_iff_iff]
      omega
    · rw [store_outside there _ c (Nat.not_lt.mp inside),Outcome.fault_bind,if_neg (by omega)]

/-- Between different blocks the loop does what `strcpy` does with the text as a value. -/
theorem strcpy_apart (steps other start offset : Nat) (source content after : List UInt8) (apart : other ≠ block)
    (there : heap block = some bytes) (from_ : heap other = some source) (holds : Holds (source.drop offset) content)
    (enough : content.length < steps) (copied : CString.strcpy bytes start content = some after) :
    strcpy steps heap ⟨block,start⟩ ⟨other,offset⟩ = .done (heap.update block (some after)) := by
  induction content generalizing heap bytes steps start offset with
  | nil =>
    obtain ⟨rest,ends⟩ := holds.nil
    have read : source[offset]? = some 0 := by
      rw [← Nat.add_zero offset,← List.getElem?_drop,ends]
      rfl
    obtain ⟨steps,rfl⟩ := Nat.exists_eq_succ_of_ne_zero (Nat.ne_of_gt enough)
    simp [strcpy,load_some from_ offset 0 read,store_put there start 0 after copied]
  | cons c content ih =>
    obtain ⟨tail,starts,letter,behind⟩ := holds.cons c content
    have read : source[offset]? = some c := by
      rw [← Nat.add_zero offset,← List.getElem?_drop,starts]
      rfl
    have remain : Holds (source.drop (offset + 1)) content := by
      rw [← List.drop_drop,starts]
      exact behind
    rw [CString.strcpy,List.cons_append] at copied
    obtain ⟨inside,copied⟩ := put_cons bytes (content ++ [0]) after start c copied
    obtain ⟨steps,rfl⟩ := Nat.exists_eq_succ_of_ne_zero (Nat.ne_of_gt (Nat.zero_lt_of_lt enough))
    have kept : heap.update block (some (bytes.set start c)) other = some source := by
      rw [update_other heap block other _ apart]
      exact from_
    have onward := ih steps (start + 1) (offset + 1) (update_same heap block (some (bytes.set start c))) kept remain
      (Nat.lt_of_succ_lt_succ enough) copied
    simp only [strcpy,load_some from_ offset c read,store_inside there start c inside,Outcome.done_bind,if_neg letter,
      Pointer.next]
    rw [onward,update_twice]

end Heap

end OpenPlc.Blocks
