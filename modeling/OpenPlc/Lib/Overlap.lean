import Mathlib.Data.List.Infix
import Mathlib.Tactic.Common

/-! How far a text ends in the beginning of a pattern: the state of an incremental
matcher, and how one more item changes it. -/
namespace OpenPlc.Overlap

variable {α : Type*}

/-- The text ends in the first `k` items of the pattern. -/
def Ends (pattern text : List α) (k : Nat) : Prop := k ≤ pattern.length ∧ pattern.take k <:+ text

/-- The longest such overlap, which is not the whole pattern. -/
structure Longest (pattern text : List α) (k : Nat) : Prop where
  lt : k < pattern.length
  ends : Ends pattern text k
  longest : ∀ j, Ends pattern text j → j ≤ k

theorem ends_zero (pattern text : List α) : Ends pattern text 0 :=
  ⟨Nat.zero_le _,by simp⟩

theorem ends_length (pattern text : List α) : Ends pattern text pattern.length ↔ pattern <:+ text := by
  simp [Ends]

theorem longest_nil (pattern : List α) (some_ : pattern ≠ []) : Longest pattern [] 0 := by
  refine ⟨List.length_pos_of_ne_nil some_,ends_zero pattern [],?_⟩
  rintro j ⟨bound,within⟩
  have short := within.length_le
  rw [List.length_take,List.length_nil] at short
  omega

theorem ends_snoc (pattern text : List α) (c : α) (k : Nat) (bound : k < pattern.length) :
    Ends pattern (text ++ [c]) (k + 1) ↔ Ends pattern text k ∧ pattern[k] = c := by
  have split_ : pattern.take (k + 1) = pattern.take k ++ [pattern[k]] := by
    rw [List.take_succ_eq_append_getElem bound]
  simp only [Ends,split_]
  constructor
  · rintro ⟨_,before,same⟩
    rw [← List.append_assoc] at same
    obtain ⟨first,last⟩ := List.append_inj' same rfl
    exact ⟨⟨by omega,before,first⟩,List.cons.inj last |>.1⟩
  · rintro ⟨⟨_,before,same⟩,rfl⟩
    exact ⟨by omega,before,by rw [← List.append_assoc,same]⟩

/-- Among the overlaps up to a known one, the shorter ones are its own borders. -/
theorem ends_border (pattern text : List α) (k j : Nat) (known : Ends pattern text k) (short : j ≤ k) :
    Ends pattern text j ↔ pattern.take j <:+ pattern.take k := by
  constructor
  · intro ends
    apply List.suffix_of_suffix_length_le ends.2 known.2
    rw [List.length_take,List.length_take]
    omega
  · intro border
    exact ⟨by have := known.1; omega,border.trans known.2⟩

theorem border_iff (pattern : List α) (k j : Nat) (short : j ≤ k) (bound : k ≤ pattern.length) :
    pattern.take j <:+ pattern.take k ↔ ∀ i, i < j → pattern[i]? = pattern[i + (k - j)]? := by
  rw [List.suffix_iff_eq_drop,List.length_take,List.length_take,Nat.min_eq_left bound,
    Nat.min_eq_left (show j ≤ pattern.length by omega)]
  constructor
  · intro same i inside
    have here := congrArg (fun items => items[i]?) same
    simp only [List.getElem?_take,List.getElem?_drop,inside,if_true] at here
    rw [if_pos (by omega)] at here
    rw [here,Nat.add_comm]
  · intro same
    apply List.ext_getElem?
    intro i
    simp only [List.getElem?_take,List.getElem?_drop]
    by_cases inside : i < j
    · rw [if_pos inside,if_pos (by omega),same i inside,Nat.add_comm]
    · rw [if_neg inside,if_neg (by omega)]

/-- The next item continues the overlap. -/
theorem longest_hit (pattern text : List α) (c : α) (k : Nat) (before : Longest pattern text k)
    (hit : pattern[k]? = some c) (more : k + 1 < pattern.length) : Longest pattern (text ++ [c]) (k + 1) := by
  have inside := before.lt
  rw [List.getElem?_eq_getElem inside,Option.some.injEq] at hit
  refine ⟨more,(ends_snoc pattern text c k inside).mpr ⟨before.ends,hit⟩,?_⟩
  intro j ends
  cases j with
  | zero => omega
  | succ j =>
    have := before.longest j ((ends_snoc pattern text c j (by have := ends.1; omega)).mp ends).1
    omega

/-- The next item completes the pattern exactly when it is the last item and hits. -/
theorem complete_iff (pattern text : List α) (c : α) (k : Nat) (before : Longest pattern text k) :
    pattern <:+ text ++ [c] ↔ k + 1 = pattern.length ∧ pattern[k]? = some c := by
  have inside := before.lt
  rw [← ends_length,List.getElem?_eq_getElem inside,Option.some.injEq]
  constructor
  · intro ends
    obtain ⟨j,whole⟩ := Nat.exists_eq_succ_of_ne_zero (show pattern.length ≠ 0 by omega)
    rw [whole] at ends
    obtain ⟨shorter,hit⟩ := (ends_snoc pattern text c j (by omega)).mp ends
    have := before.longest j shorter
    have same : j = k := by omega
    subst same
    exact ⟨whole.symm,hit⟩
  · rintro ⟨last,hit⟩
    rw [← last]
    exact (ends_snoc pattern text c k inside).mpr ⟨before.ends,hit⟩

end OpenPlc.Overlap
