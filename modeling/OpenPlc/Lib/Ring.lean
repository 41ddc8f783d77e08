import OpenPlc.Lib.Memory
import Mathlib.Tactic.Common

/-! Ring buffers with a modular index: the cells between two indices, writing over
the end of the storage in two copies, and the arithmetic of how full the ring is. -/
namespace OpenPlc.Ring
open Memory

variable {α : Type*}

def cells (mem : Nat → α) (cap pos len : Nat) : List α :=
  (List.range len).map fun i => mem ((pos + i) % cap)

/-- Two copies: up to the end of the storage, and the rest from its beginning. -/
def wrapBlit (mem : Nat → α) (cap pos : Nat) (data : List α) : Nat → α :=
  blit (blit mem pos (data.take (cap - pos))) 0 (data.drop (cap - pos))

/-- How many cells lie from `tail` up to `head`. -/
def distance (cap tail head : Nat) : Nat := (head + cap - tail) % cap

@[simp] theorem cells_length (mem : Nat → α) (cap pos len : Nat) : (cells mem cap pos len).length = len := by
  simp [cells]

@[simp] theorem cells_zero (mem : Nat → α) (cap pos : Nat) : cells mem cap pos 0 = [] := rfl

theorem cells_add (mem : Nat → α) (cap pos first second : Nat) :
    cells mem cap pos (first + second) =
      cells mem cap pos first ++ cells mem cap ((pos + first) % cap) second := by
  simp only [cells,List.range_add,List.map_append,List.map_map]
  congr 1
  apply List.map_congr_left
  intro i _
  simp [Nat.add_assoc]

theorem cells_take (mem : Nat → α) (cap pos len count : Nat) (within : count ≤ len) :
    (cells mem cap pos len).take count = cells mem cap pos count := by
  obtain ⟨rest,rfl⟩ := Nat.exists_eq_add_of_le within
  rw [cells_add]
  exact List.take_left' (cells_length mem cap pos count)

theorem cells_drop (mem : Nat → α) (cap pos len count : Nat) (within : count ≤ len) :
    (cells mem cap pos len).drop count = cells mem cap ((pos + count) % cap) (len - count) := by
  obtain ⟨rest,rfl⟩ := Nat.exists_eq_add_of_le within
  rw [cells_add,Nat.add_sub_cancel_left]
  exact List.drop_left' (cells_length mem cap pos count)

theorem cells_slice (mem : Nat → α) (cap pos len : Nat) (flat : pos + len ≤ cap) :
    cells mem cap pos len = slice mem pos len := by
  apply List.map_congr_left
  intro i member
  have bound := List.mem_range.mp member
  rw [Nat.mod_eq_of_lt (by omega)]

theorem cells_congr (mem other : Nat → α) (cap pos len : Nat)
    (same : ∀ i, i < len → mem ((pos + i) % cap) = other ((pos + i) % cap)) :
    cells mem cap pos len = cells other cap pos len := by
  apply List.map_congr_left
  intro i member
  exact same i (List.mem_range.mp member)

theorem slice_front (mem : Nat → α) (cap pos len size : Nat) (content : List α) (held : cells mem cap pos len = content)
    (within : size ≤ len) (flat : pos + size ≤ cap) : slice mem pos size = content.take size := by
  rw [← held,cells_take mem cap pos len size within,cells_slice mem cap pos size flat]

theorem cells_behind (mem : Nat → α) (cap pos len : Nat) (front rest : List α)
    (held : cells mem cap pos len = front ++ rest) :
    cells mem cap ((pos + front.length) % cap) (len - front.length) = rest := by
  have total := congrArg List.length held
  rw [cells_length,List.length_append] at total
  rw [← cells_drop mem cap pos len front.length (by omega),held,List.drop_left]

theorem wrapBlit_flat (mem : Nat → α) (cap pos : Nat) (data : List α) (flat : data.length ≤ cap - pos) :
    wrapBlit mem cap pos data = blit mem pos data := by
  rw [wrapBlit,List.take_of_length_le flat,List.drop_eq_nil_of_le flat,blit_nil]

/-- The two copies write item `i` to the cell `i` places after `pos`, and nothing else. -/
theorem wrapBlit_at (mem : Nat → α) (cap pos : Nat) (data : List α) (i : Nat) (start : pos < cap)
    (fits : data.length ≤ cap) (inside : i < cap) :
    wrapBlit mem cap pos data ((pos + i) % cap) = data.getD i (mem ((pos + i) % cap)) := by
  by_cases flat : pos + i < cap
  · rw [Nat.mod_eq_of_lt flat,wrapBlit,blit_above _ _ _ _ (by rw [List.length_drop]; omega)]
    by_cases written : i < data.length
    · rw [blit_inside _ _ _ _ (by rw [List.length_take]; omega)]
      simp [written]
    · rw [blit_above _ _ _ _ (by rw [List.length_take]; omega)]
      simp [List.getElem?_eq_none (Nat.not_lt.mp written)]
  · obtain ⟨j,rfl⟩ := Nat.exists_eq_add_of_le (show cap - pos ≤ i by omega)
    have wrapped : (pos + (cap - pos + j)) % cap = j := by
      rw [show pos + (cap - pos + j) = j + cap by omega,Nat.add_mod_right]
      exact Nat.mod_eq_of_lt (by omega)
    rw [wrapped,wrapBlit]
    by_cases written : cap - pos + j < data.length
    · have inner : j < (data.drop (cap - pos)).length := by rw [List.length_drop]; omega
      have copied := blit_inside (blit mem pos (data.take (cap - pos))) 0 (data.drop (cap - pos)) j inner
      rw [Nat.zero_add] at copied
      rw [copied]
      simp [written]
    · rw [blit_above _ _ _ _ (by rw [List.length_drop]; omega),blit_below _ _ _ _ (by omega)]
      simp [List.getElem?_eq_none (Nat.not_lt.mp written)]

theorem wrapBlit_kept (mem : Nat → α) (cap tail used : Nat) (data : List α) (start : tail < cap)
    (room : used + data.length ≤ cap) (i : Nat) (inside : i < used) :
    wrapBlit mem cap ((tail + used) % cap) data ((tail + i) % cap) = mem ((tail + i) % cap) := by
  have head : (tail + used) % cap < cap := Nat.mod_lt _ (by omega)
  have around : (tail + i) % cap = ((tail + used) % cap + (cap - used + i)) % cap := by
    rw [Nat.mod_add_mod,show tail + used + (cap - used + i) = tail + i + cap by omega,Nat.add_mod_right]
  rw [around,wrapBlit_at mem cap _ data _ head (by omega) (by omega)]
  simp [List.getElem?_eq_none (show data.length ≤ cap - used + i by omega)]

/-- Writing behind the used cells appends to them. -/
theorem cells_wrapBlit (mem : Nat → α) (cap tail used : Nat) (data : List α) (start : tail < cap)
    (room : used + data.length ≤ cap) :
    cells (wrapBlit mem cap ((tail + used) % cap) data) cap tail (used + data.length) =
      cells mem cap tail used ++ data := by
  have head : (tail + used) % cap < cap := Nat.mod_lt _ (by omega)
  rw [cells_add]
  congr 1
  · apply cells_congr
    intro i inside
    exact wrapBlit_kept mem cap tail used data start room i inside
  · apply List.ext_getElem
    · simp
    · intro i left right
      simp only [cells,List.getElem_map,List.getElem_range]
      rw [wrapBlit_at mem cap _ data _ head (by omega) (by omega)]
      simp [right]

/-- Writing the cell behind the used ones appends one item. -/
theorem cells_update (mem : Nat → α) (cap tail used : Nat) (item : α) (start : tail < cap) (room : used < cap) :
    cells (Function.update mem ((tail + used) % cap) item) cap tail (used + 1) = cells mem cap tail used ++ [item] := by
  have head : (tail + used) % cap < cap := Nat.mod_lt _ (by omega)
  have flat : [item].length ≤ cap - (tail + used) % cap := by
    rw [List.length_singleton]
    omega
  rw [← blit_singleton,← wrapBlit_flat mem cap _ [item] flat]
  exact cells_wrapBlit mem cap tail used [item] start room

theorem cells_head (mem : Nat → α) (cap pos len : Nat) (start : pos < cap) (some_ : 0 < len) :
    (cells mem cap pos len).head? = some (mem pos) := by
  rw [cells,List.head?_map,List.head?_range,if_neg (Nat.ne_of_gt some_),Option.map_some,Nat.add_zero,Nat.mod_eq_of_lt start]

theorem distance_lt (cap tail head : Nat) (positive : 0 < cap) : distance cap tail head < cap :=
  Nat.mod_lt _ positive

theorem distance_cases (cap tail head : Nat) (first : tail < cap) (second : head < cap) :
    (tail ≤ head ∧ distance cap tail head = head - tail) ∨
      (head < tail ∧ distance cap tail head = head + cap - tail) := by
  unfold distance
  by_cases flat : tail ≤ head
  · left
    refine ⟨flat,?_⟩
    rw [show head + cap - tail = head - tail + cap by omega,Nat.add_mod_right]
    exact Nat.mod_eq_of_lt (by omega)
  · right
    exact ⟨by omega,Nat.mod_eq_of_lt (by omega)⟩

theorem advance_cases (cap pos count : Nat) (start : pos < cap) (short : count ≤ cap) :
    (pos + count < cap ∧ (pos + count) % cap = pos + count) ∨
      (cap ≤ pos + count ∧ (pos + count) % cap = pos + count - cap) := by
  by_cases flat : pos + count < cap
  · exact Or.inl ⟨flat,Nat.mod_eq_of_lt flat⟩
  · right
    refine ⟨by omega,?_⟩
    rw [Nat.mod_eq_sub_mod (by omega)]
    exact Nat.mod_eq_of_lt (by omega)

theorem distance_head (cap tail head : Nat) (first : tail < cap) (second : head < cap) :
    (tail + distance cap tail head) % cap = head := by
  have bound := distance_lt cap tail head (by omega)
  rcases distance_cases cap tail head first second with ⟨_,used⟩ | ⟨_,used⟩ <;>
    rcases advance_cases cap tail _ first (by omega : distance cap tail head ≤ cap) with ⟨_,moved⟩ | ⟨_,moved⟩ <;>
    omega

theorem distance_push (cap tail head count : Nat) (first : tail < cap) (second : head < cap)
    (room : distance cap tail head + count < cap) :
    distance cap tail ((head + count) % cap) = distance cap tail head + count := by
  have bound : (head + count) % cap < cap := Nat.mod_lt _ (by omega)
  rcases distance_cases cap tail head first second with ⟨_,used⟩ | ⟨_,used⟩ <;>
    rcases advance_cases cap head count second (by omega) with ⟨_,moved⟩ | ⟨_,moved⟩ <;>
    rcases distance_cases cap tail ((head + count) % cap) first bound with ⟨_,after⟩ | ⟨_,after⟩ <;>
    omega

theorem distance_pop (cap tail head count : Nat) (first : tail < cap) (second : head < cap)
    (within : count ≤ distance cap tail head) :
    distance cap ((tail + count) % cap) head = distance cap tail head - count := by
  have limit := distance_lt cap tail head (by omega)
  have bound : (tail + count) % cap < cap := Nat.mod_lt _ (by omega)
  rcases distance_cases cap tail head first second with ⟨_,used⟩ | ⟨_,used⟩ <;>
    rcases advance_cases cap tail count first (by omega) with ⟨_,moved⟩ | ⟨_,moved⟩ <;>
    rcases distance_cases cap ((tail + count) % cap) head bound second with ⟨_,after⟩ | ⟨_,after⟩ <;>
    omega

/-- The head is one place before the tail exactly if only that place is free. -/
theorem distance_full (cap tail head : Nat) (first : tail < cap) (second : head < cap) :
    (head + 1) % cap = tail ↔ distance cap tail head + 1 = cap := by
  rcases distance_cases cap tail head first second with ⟨_,used⟩ | ⟨_,used⟩ <;>
    rcases advance_cases cap head 1 second (by omega) with ⟨_,moved⟩ | ⟨_,moved⟩ <;>
    omega

theorem distance_eq_zero (cap tail head : Nat) (first : tail < cap) (second : head < cap) :
    distance cap tail head = 0 ↔ head = tail := by
  rcases distance_cases cap tail head first second with ⟨_,used⟩ | ⟨_,used⟩ <;> omega

end OpenPlc.Ring
