import Mathlib.Tactic.Common

/-! Loops that a condition ends. A loop that does not end within its fuel has no result, and neither has one whose body
has none in a round. -/
namespace OpenPlc.While

variable {S : Type*}

/-- `while (cond) body` -/
def loop (cond : S → Bool) (body : S → Option S) : Nat → S → Option S
  | 0,_ => none
  | fuel + 1,s => if cond s then (body s).bind (loop cond body fuel) else some s

section Rules
variable {cond : S → Bool} {body : S → Option S}

theorem loop_rule (Inv : S → Prop) (variant : S → Nat)
    (round : ∀ s, Inv s → cond s = true → ∃ next, body s = some next ∧ Inv next ∧ variant next < variant s)
    (fuel : Nat) (s : S) (start : Inv s) (enough : variant s < fuel) :
    ∃ last, loop cond body fuel s = some last ∧ Inv last ∧ cond last = false := by
  induction fuel generalizing s with
  | zero => exact absurd enough (Nat.not_lt_zero _)
  | succ fuel ih =>
    by_cases goes : cond s = true
    · obtain ⟨next,ran,inv,fewer⟩ := round s start goes
      obtain ⟨last,ends,kept,stops⟩ := ih next inv (Nat.lt_of_lt_of_le fewer (Nat.le_of_lt_succ enough))
      refine ⟨last,?_,kept,stops⟩
      rw [loop,if_pos goes,ran,Option.bind_some,ends]
    · refine ⟨s,?_,start,Bool.eq_false_iff.mpr goes⟩
      rw [loop,if_neg goes]

theorem loop_more {fuel more : Nat} {s last : S} (ends : loop cond body fuel s = some last) (enough : fuel ≤ more) :
    loop cond body more s = some last := by
  induction fuel generalizing s more with
  | zero => exact absurd ends.symm (Option.some_ne_none last)
  | succ fuel ih =>
    have some_ : more ≠ 0 := Nat.ne_of_gt (Nat.lt_of_lt_of_le fuel.succ_pos enough)
    obtain ⟨more,rfl⟩ := Nat.exists_eq_add_one_of_ne_zero some_
    rw [loop] at ends ⊢
    split at ends
    · obtain ⟨next,ran,onward⟩ := Option.bind_eq_some_iff.mp ends
      rw [if_pos ‹_›,ran,Option.bind_some]
      exact ih onward (Nat.le_of_succ_le_succ enough)
    · rw [if_neg ‹_›]
      exact ends

theorem loop_unique {fuel other : Nat} {s first second : S} (ends : loop cond body fuel s = some first)
    (too : loop cond body other s = some second) : first = second := by
  have more := loop_more ends (Nat.le_max_left fuel other)
  exact Option.some.inj (more.symm.trans (loop_more too (Nat.le_max_right fuel other)))

theorem loop_endless (Inv : S → Prop) (round : ∀ s, Inv s → cond s = true ∧ ∀ next, body s = some next → Inv next)
    (fuel : Nat) (s : S) (start : Inv s) : loop cond body fuel s = none := by
  induction fuel generalizing s with
  | zero => rfl
  | succ fuel ih =>
    obtain ⟨goes,keeps⟩ := round s start
    rw [loop,if_pos goes]
    cases ran : body s with
    | none => rfl
    | some next => exact ih next (keeps next ran)

end Rules

end OpenPlc.While
