import Mathlib.Data.List.Range
import Mathlib.Data.List.GetD

/-! Flat memory as a function from addresses, with the block read and the block
write (`memcpy`) that C code performs on it. Which addresses belong to an object
is for its user to say; the lemmas only speak about what is written and read. -/
namespace OpenPlc.Memory

variable {α : Type*}

def slice (mem : Nat → α) (start len : Nat) : List α :=
  (List.range len).map fun i => mem (start + i)

def blit (mem : Nat → α) (start : Nat) (data : List α) : Nat → α :=
  fun i => if start ≤ i then data.getD (i - start) (mem i) else mem i

@[simp] theorem slice_length (mem : Nat → α) (start len : Nat) : (slice mem start len).length = len := by
  simp [slice]

@[simp] theorem slice_zero (mem : Nat → α) (start : Nat) : slice mem start 0 = [] := rfl

theorem slice_getElem (mem : Nat → α) (start len i : Nat) (bound : i < (slice mem start len).length) :
    (slice mem start len)[i] = mem (start + i) := by
  simp [slice]

theorem slice_congr (mem other : Nat → α) (start len : Nat) (same : ∀ i, i < len → mem (start + i) = other (start + i)) :
    slice mem start len = slice other start len :=
  List.map_congr_left fun i member => same i (List.mem_range.mp member)

theorem slice_add (mem : Nat → α) (start first second : Nat) :
    slice mem start (first + second) = slice mem start first ++ slice mem (start + first) second := by
  simp only [slice,List.range_add,List.map_append,List.map_map]
  congr 1
  apply List.map_congr_left
  intro i _
  simp [Nat.add_assoc]

theorem slice_take (mem : Nat → α) (start len count : Nat) (within : count ≤ len) :
    (slice mem start len).take count = slice mem start count := by
  obtain ⟨rest,rfl⟩ := Nat.exists_eq_add_of_le within
  rw [slice_add]
  exact List.take_left' (slice_length mem start count)

theorem slice_drop (mem : Nat → α) (start len count : Nat) (within : count ≤ len) :
    (slice mem start len).drop count = slice mem (start + count) (len - count) := by
  obtain ⟨rest,rfl⟩ := Nat.exists_eq_add_of_le within
  rw [slice_add,Nat.add_sub_cancel_left]
  exact List.drop_left' (slice_length mem start count)

theorem blit_below (mem : Nat → α) (start : Nat) (data : List α) (i : Nat) (below : i < start) :
    blit mem start data i = mem i := by
  simp [blit,Nat.not_le.mpr below]

theorem blit_above (mem : Nat → α) (start : Nat) (data : List α) (i : Nat)
    (above : start + data.length ≤ i) : blit mem start data i = mem i := by
  have past : data.length ≤ i - start := by omega
  simp [blit,List.getElem?_eq_none past]

theorem blit_inside (mem : Nat → α) (start : Nat) (data : List α) (i : Nat) (bound : i < data.length) :
    blit mem start data (start + i) = data[i] := by
  simp [blit,bound]

@[simp] theorem blit_nil (mem : Nat → α) (start : Nat) : blit mem start [] = mem := by
  funext i
  simp [blit]

theorem blit_singleton (mem : Nat → α) (i : Nat) (item : α) : blit mem i [item] = Function.update mem i item := by
  funext j
  rcases Nat.lt_trichotomy j i with below | rfl | above
  · rw [blit_below mem i [item] j below,Function.update_of_ne (Nat.ne_of_lt below)]
  · rw [Function.update_self]
    exact blit_inside mem j [item] 0 Nat.one_pos
  · rw [blit_above mem i [item] j above,Function.update_of_ne (Nat.ne_of_gt above)]

theorem blit_congr (mem other : Nat → α) (start : Nat) (data : List α) (i : Nat) (same : mem i = other i) :
    blit mem start data i = blit other start data i := by
  unfold blit
  rw [same]

theorem blit_cons (mem : Nat → α) (start : Nat) (item : α) (rest : List α) :
    blit mem start (item :: rest) = blit (Function.update mem start item) (start + 1) rest := by
  funext i
  rcases Nat.lt_trichotomy i start with below | rfl | above
  · rw [blit_below _ _ _ _ below,blit_below _ _ _ _ (Nat.lt_succ_of_lt below),Function.update_of_ne (Nat.ne_of_lt below)]
  · rw [blit_below _ _ _ _ (Nat.lt_succ_self i),Function.update_self]
    exact blit_inside mem i (item :: rest) 0 (Nat.succ_pos _)
  · obtain ⟨j,rfl⟩ := Nat.exists_eq_add_of_lt above
    simp [blit,Nat.add_assoc,show start + (j + 1) - (start + 1) = j by omega]

theorem blit_append (mem : Nat → α) (start : Nat) (front back : List α) :
    blit mem start (front ++ back) = blit (blit mem start front) (start + front.length) back := by
  induction front generalizing mem start with
  | nil => rw [blit_nil]; rfl
  | cons item rest ih =>
    rw [List.cons_append,blit_cons,ih,blit_cons,List.length_cons,Nat.add_assoc,Nat.add_comm 1]

theorem slice_blit (mem : Nat → α) (start : Nat) (data : List α) :
    slice (blit mem start data) start data.length = data := by
  apply List.ext_getElem
  · simp
  · intro i left right
    rw [slice_getElem,blit_inside]

theorem slice_blit_append (mem : Nat → α) (start len : Nat) (data : List α) :
    slice (blit mem (start + len) data) start (len + data.length) = slice mem start len ++ data := by
  rw [slice_add,slice_blit]
  congr 1
  apply List.ext_getElem
  · simp
  · intro i left right
    rw [slice_length] at left
    rw [slice_getElem,slice_getElem,blit_below _ _ _ _ (by omega)]

end OpenPlc.Memory
