import Mathlib.Data.List.Nodup
import Mathlib.Logic.Function.Basic
import Mathlib.Tactic.Common

/-! Chains of cells in which each holds the link to the next, and loops along them. -/
namespace OpenPlc.Links

variable {Addr : Type*}

/-- From `p` the links lead to these cells, and end after them. -/
def Linked (next : Addr → Option Addr) : Option Addr → List Addr → Prop
  | p,[] => p = none
  | p,a :: rest => p = some a ∧ Linked next (next a) rest

section Chains
variable {next other : Addr → Option Addr} {p q : Option Addr} {xs front tail : List Addr} {last : Addr}

theorem Linked.congr (linked : Linked next p xs) (same : ∀ a ∈ xs, other a = next a) : Linked other p xs := by
  induction xs generalizing p with
  | nil => exact linked
  | cons a rest ih =>
    refine ⟨linked.1,?_⟩
    rw [same a List.mem_cons_self]
    exact ih linked.2 fun b member => same b (List.mem_cons_of_mem a member)

theorem Linked.exists_start (linked : Linked next p (front ++ [last])) : ∃ a, p = some a := by
  cases front with
  | nil => exact ⟨last,linked.1⟩
  | cons a rest => exact ⟨a,linked.1⟩

variable [DecidableEq Addr]

theorem Linked.frame (linked : Linked next p xs) (away : last ∉ xs) : Linked (Function.update next last q) p xs := by
  refine linked.congr fun a member => ?_
  have other : a ≠ last := fun same => away (same ▸ member)
  exact Function.update_of_ne other q next

theorem Linked.join (linked : Linked next p (front ++ [last])) (onward : Linked next q tail)
    (apart : last ∉ front) (away : last ∉ tail) : Linked (Function.update next last q) p (front ++ last :: tail) := by
  induction front generalizing p with
  | nil =>
    refine ⟨linked.1,?_⟩
    rw [Function.update_self]
    exact onward.frame away
  | cons a rest ih =>
    obtain ⟨first,apart⟩ := not_or.mp (mt List.mem_cons.mpr apart)
    refine ⟨linked.1,?_⟩
    rw [Function.update_of_ne (Ne.symm first)]
    exact ih linked.2 apart

end Chains

section Walks
variable {S E : Type*} (next : S → Addr → Option Addr) (visit : S → Addr → Except E S)

/-- `for (; p != NULL; p = p->next)`, where a visit may leave the function. It has no result within its fuel if it
does not end. -/
def walk : Nat → S → Option Addr → Option (Except E S)
  | 0,_,_ => none
  | _ + 1,s,none => some (.ok s)
  | fuel + 1,s,some a =>
    match visit s a with
    | .error e => some (.error e)
    | .ok s => walk fuel s (next s a)

/-- A loop that keeps the links visits the cells of the chain in their order. -/
theorem walk_linked (keeps : ∀ s a s', visit s a = .ok s' → next s' = next s) {fuel : Nat} {s : S} {p : Option Addr}
    {xs : List Addr} (linked : Linked (next s) p xs) (enough : xs.length < fuel) :
    walk next visit fuel s p = some (xs.foldlM visit s) := by
  induction xs generalizing s p fuel with
  | nil =>
    obtain ⟨fuel,rfl⟩ := Nat.exists_eq_add_one_of_ne_zero (Nat.ne_of_gt enough)
    rw [show p = none from linked]
    rfl
  | cons a rest ih =>
    obtain ⟨fuel,rfl⟩ := Nat.exists_eq_add_one_of_ne_zero (Nat.ne_of_gt (Nat.zero_lt_of_lt enough))
    rw [linked.1,walk,List.foldlM_cons]
    cases visited : visit s a with
    | error e => rfl
    | ok s' =>
      have onward : Linked (next s') (next s' a) rest := by
        rw [keeps s a s' visited]
        exact linked.2
      exact ih onward (Nat.lt_of_succ_lt_succ enough)

end Walks

end OpenPlc.Links
