import Mathlib.Data.List.Infix
import Mathlib.Tactic.Common

/-! Pieces of a sequence, each with the place where it starts and where it stops, in the order of these places. -/
namespace OpenPlc.Pieces

variable {α β : Type*} (start stop : β → Nat)

def Before (a b : β) : Prop := start a < start b ∧ stop a ≤ start b

/-- Neither begins where the other does, nor within it. -/
def Apart (a b : β) : Prop := start a ≠ start b ∧ (stop a ≤ start b ∨ stop b ≤ start a)

def Ordered (pieces : List β) : Prop := pieces.Pairwise (Before start stop)

/-- Each piece starts where the one before it stops. -/
def Abut : Nat → List β → Prop
  | _, [] => True
  | n, b :: rest => start b = n ∧ Abut (stop b) rest

def last : Nat → List β → Nat
  | n, [] => n
  | _, b :: rest => last (stop b) rest

/-- Every place below the end is in a piece. -/
def Covers (pieces : List β) (n total : Nat) : Prop := ∀ i, n ≤ i → i < total → ∃ b ∈ pieces, start b ≤ i ∧ i < stop b

def slice (whole : List α) (first total : Nat) : List α := (whole.drop first).take (total - first)

instance decidableAbut (n : Nat) : (pieces : List β) → Decidable (Abut start stop n pieces)
  | [] => isTrue trivial
  | b :: rest =>
    have := decidableAbut (stop b) rest
    inferInstanceAs (Decidable (start b = n ∧ Abut start stop (stop b) rest))

variable {start stop} {pieces rest : List β} {b : β} {n total : Nat}

theorem Before.apart {a b : β} (before : Before start stop a b) : Apart start stop a b :=
  ⟨Nat.ne_of_lt before.1,.inl before.2⟩

theorem Apart.symm {a b : β} (apart : Apart start stop a b) : Apart start stop b a := ⟨apart.1.symm,apart.2.symm⟩

theorem slice_append (whole : List α) {first second third : Nat} (below : first ≤ second) (above : second ≤ third) :
    slice whole first second ++ slice whole second third = slice whole first third := by
  have front : third - first = (second - first) + (third - second) := by omega
  have back : whole.drop second = (whole.drop first).drop (second - first) := by
    rw [List.drop_drop]
    congr 1
    omega
  rw [slice,slice,slice,front,List.take_add,back]

theorem slice_self (whole : List α) (n : Nat) : slice whole n n = [] := by
  rw [slice,Nat.sub_self,List.take_zero]

theorem slice_all (whole : List α) : slice whole 0 whole.length = whole := by
  rw [slice,List.drop_zero,Nat.sub_zero,List.take_length]

theorem le_last (forward : ∀ b ∈ pieces, start b ≤ stop b) (abut : Abut start stop n pieces) : n ≤ last stop n pieces := by
  induction pieces generalizing n with
  | nil => exact Nat.le_refl n
  | cons b rest ih =>
    obtain ⟨here,onward⟩ := abut
    have own := forward b List.mem_cons_self
    have later := ih (fun c member => forward c (List.mem_cons_of_mem b member)) onward
    rw [last]
    omega

theorem stop_le_last (forward : ∀ b ∈ pieces, start b ≤ stop b) (abut : Abut start stop n pieces) :
    ∀ b ∈ pieces, stop b ≤ last stop n pieces := by
  induction pieces generalizing n with
  | nil => exact fun b member => absurd member List.not_mem_nil
  | cons c rest ih =>
    have later := fun d member => forward d (List.mem_cons_of_mem c member)
    intro b member
    rcases List.mem_cons.mp member with rfl | among
    · exact le_last later abut.2
    · exact ih later abut.2 b among

theorem last_le (below : n ≤ total) (within : ∀ b ∈ pieces, stop b ≤ total) : last stop n pieces ≤ total := by
  induction pieces generalizing n with
  | nil => exact below
  | cons b rest ih => exact ih (within b List.mem_cons_self) fun c member => within c (List.mem_cons_of_mem b member)

variable (stop) in
theorem last_mem (some_ : pieces ≠ []) (n : Nat) : ∃ b ∈ pieces, stop b = last stop n pieces := by
  induction pieces generalizing n with
  | nil => exact absurd rfl some_
  | cons b rest ih =>
    cases rest with
    | nil => exact ⟨b,List.mem_cons_self,rfl⟩
    | cons c rest =>
      obtain ⟨d,member,ends⟩ := ih (List.cons_ne_nil c rest) (stop b)
      exact ⟨d,List.mem_cons_of_mem b member,ends⟩

/-- The data of pieces that abut is what the sequence has there. -/
theorem abut_data (data : β → List α) (whole : List α) (forward : ∀ b ∈ pieces, start b ≤ stop b)
    (own : ∀ b ∈ pieces, data b = slice whole (start b) (stop b)) (abut : Abut start stop n pieces) :
    pieces.flatMap data = slice whole n (last stop n pieces) := by
  induction pieces generalizing n with
  | nil => exact (slice_self whole n).symm
  | cons b rest ih =>
    obtain ⟨here,onward⟩ := abut
    have later := fun c member => forward c (List.mem_cons_of_mem b member)
    have first : n ≤ stop b := here ▸ forward b List.mem_cons_self
    rw [List.flatMap_cons,own b List.mem_cons_self,here,ih later (fun c member => own c (List.mem_cons_of_mem b member)) onward,
      last,slice_append whole first (le_last later onward)]

theorem le_start (forward : ∀ b ∈ pieces, start b ≤ stop b) (abut : Abut start stop n pieces) : ∀ b ∈ pieces, n ≤ start b := by
  induction pieces generalizing n with
  | nil => exact fun b member => absurd member List.not_mem_nil
  | cons c rest ih =>
    obtain ⟨here,onward⟩ := abut
    have own := forward c List.mem_cons_self
    intro b member
    rcases List.mem_cons.mp member with rfl | among
    · exact Nat.le_of_eq here.symm
    · have later := ih (fun d member => forward d (List.mem_cons_of_mem c member)) onward b among
      omega

theorem ordered_of_abut (forward : ∀ b ∈ pieces, start b < stop b) (abut : Abut start stop n pieces) : Ordered start stop pieces := by
  induction pieces generalizing n with
  | nil => exact List.Pairwise.nil
  | cons b rest ih =>
    obtain ⟨_,onward⟩ := abut
    have own := forward b List.mem_cons_self
    have later := fun c member => forward c (List.mem_cons_of_mem b member)
    refine List.pairwise_cons.mpr ⟨fun c member => ?_,ih later onward⟩
    have behind := le_start (fun c member => Nat.le_of_lt (later c member)) onward c member
    exact ⟨by omega,behind⟩

/-- The order is determined by the pieces. -/
theorem ordered_unique {others : List β} (ordered : Ordered start stop pieces) (ordered' : Ordered start stop others)
    (perm : pieces.Perm others) : pieces = others :=
  perm.eq_of_pairwise (fun _ _ _ _ before after => absurd before.1 (Nat.lt_asymm after.1)) ordered ordered'

/-- Pieces in order that cover a range abut, if they all lie in it. -/
theorem abut_of_covers (ordered : Ordered start stop pieces)
    (inside : ∀ b ∈ pieces, n ≤ start b ∧ start b ≤ stop b ∧ stop b ≤ total) (covers : Covers start stop pieces n total)
    (below : n ≤ total) : Abut start stop n pieces ∧ last stop n pieces = total := by
  induction pieces generalizing n with
  | nil =>
    refine ⟨trivial,?_⟩
    by_contra short
    rw [last] at short
    obtain ⟨b,member,_⟩ := covers n (Nat.le_refl n) (by omega)
    exact absurd member List.not_mem_nil
  | cons b rest ih =>
    obtain ⟨ahead,onward⟩ := List.pairwise_cons.mp ordered
    obtain ⟨low,forward,high⟩ := inside b List.mem_cons_self
    have here : start b = n := by
      by_contra other
      obtain ⟨c,member,within⟩ := covers n (Nat.le_refl n) (by omega)
      rcases List.mem_cons.mp member with rfl | later
      · omega
      · have := (ahead c later).1
        omega
    have later : Covers start stop rest (stop b) total := by
      intro i beyond under
      obtain ⟨c,member,within⟩ := covers i (by omega) under
      rcases List.mem_cons.mp member with rfl | later
      · omega
      · exact ⟨c,later,within⟩
    obtain ⟨abut,ends⟩ := ih onward (fun c member =>
      ⟨(ahead c member).2,(inside c (List.mem_cons_of_mem b member)).2⟩) later high
    exact ⟨⟨here,abut⟩,ends⟩

end OpenPlc.Pieces
