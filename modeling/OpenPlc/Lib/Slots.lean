import Mathlib.Data.List.FinRange
import Mathlib.Logic.Function.Basic

/-! A table of slots that are found by their keys. A slot with the key `free` belongs to
nobody. -/
namespace OpenPlc.Slots

variable {n : Nat} {K : Type*}

/-- No two slots belong to one key. -/
def Distinct (free : K) (keys : Fin n → K) : Prop := ∀ i j, keys i ≠ free → keys i = keys j → i = j

variable {free key : K} {keys : Fin n → K}

theorem distinct_free : Distinct free fun _ : Fin n => free := fun _ _ owned => absurd rfl owned

theorem distinct_release (distinct : Distinct free keys) (after : Fin n → K)
    (released : ∀ i, after i = free ∨ after i = keys i) : Distinct free after := by
  intro i j owned same
  have mine := (released i).resolve_left owned
  have other := (released j).resolve_left (same ▸ owned)
  rw [mine,other] at same
  exact distinct i j (mine ▸ owned) same

variable [DecidableEq K]

/-- The first slot with this key. -/
def find (keys : Fin n → K) (key : K) : Option (Fin n) := (List.finRange n).find? fun i => keys i = key

theorem find_some (i : Fin n) (found : find keys key = some i) : keys i = key := by
  simpa using List.find?_some found

theorem find_none (missing : find keys key = none) (i : Fin n) : keys i ≠ key := by
  simpa using List.find?_eq_none.mp missing i (List.mem_finRange i)

theorem find_of_distinct (distinct : Distinct free keys) (i : Fin n) (owned : keys i ≠ free) :
    find keys (keys i) = some i := by
  cases found : find keys (keys i) with
  | none => exact absurd rfl (find_none found i)
  | some j => rw [distinct i j owned (find_some j found).symm]

theorem distinct_take (distinct : Distinct free keys) (missing : find keys key = none) (i : Fin n) :
    Distinct free (Function.update keys i key) := by
  intro j k owned same
  have absent := find_none missing
  simp only [Function.update_apply] at owned same
  split at same
  · rename_i here
    split at same
    · rename_i there
      rw [here,there]
    · exact absurd same.symm (absent k)
  · rename_i elsewhere
    rw [if_neg elsewhere] at owned
    split at same
    · exact absurd same (absent j)
    · exact distinct j k owned same

end OpenPlc.Slots
