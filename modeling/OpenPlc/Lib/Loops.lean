import Mathlib.Tactic.Common

/-! Computations with 32-bit numbers in counted loops. An operation whose result does not fit has no result, so a
computation that has one never wraps around. -/
namespace OpenPlc.Loops

def word (value : Nat) : Option Nat := if value < 4294967296 then some value else none

def add (a b : Nat) : Option Nat := word (a + b)

def sub (a b : Nat) : Option Nat := if b ≤ a then some (a - b) else none

def mul (a b : Nat) : Option Nat := word (a * b)

def div (a b : Nat) : Option Nat := if b = 0 then none else some (a / b)

def shl (a places : Nat) : Option Nat := word (a <<< places)

/-- A signed number. -/
def signed (value : Int) : Option Int := if -2147483648 ≤ value ∧ value < 2147483648 then some value else none

theorem word_eq (value : Nat) (fits : value < 4294967296) : word value = some value := if_pos fits

theorem add_eq (a b : Nat) (fits : a + b < 4294967296) : add a b = some (a + b) := word_eq _ fits

theorem sub_eq (a b : Nat) (fits : b ≤ a) : sub a b = some (a - b) := if_pos fits

theorem mul_eq (a b : Nat) (fits : a * b < 4294967296) : mul a b = some (a * b) := word_eq _ fits

theorem div_eq (a b : Nat) (some_ : b ≠ 0) : div a b = some (a / b) := if_neg some_

theorem signed_eq (value : Int) (low : -2147483648 ≤ value) (high : value < 2147483648) : signed value = some value :=
  if_pos ⟨low,high⟩

theorem shl_eq (a places : Nat) (fits : a <<< places < 4294967296) : shl a places = some (a <<< places) := word_eq _ fits

/-- The rest of a computation goes on with a number that fits. -/
theorem signed_bind {T : Type} (value : Int) (low : -2147483648 ≤ value) (high : value < 2147483648) (next : Int → Option T) :
    (signed value).bind next = next value := by
  rw [signed_eq value low high,Option.bind_some]

theorem add_bind {T : Type} (a b : Nat) (fits : a + b < 4294967296) (next : Nat → Option T) :
    (add a b).bind next = next (a + b) := by
  rw [add_eq a b fits,Option.bind_some]

theorem mul_bind {T : Type} (a b : Nat) (fits : a * b < 4294967296) (next : Nat → Option T) :
    (mul a b).bind next = next (a * b) := by
  rw [mul_eq a b fits,Option.bind_some]

/-- A round of a loop goes on, or leaves all the loops. -/
inductive Flow (S : Type)
  | next (s : S)
  | stop (s : S)

namespace Flow
variable {S : Type}

def state : Flow S → S
  | .next s => s
  | .stop s => s

/-- What holds of a state from which the loop goes on, and of one that leaves it. -/
def Holds (Next Stop : S → Prop) : Flow S → Prop
  | .next s => Next s
  | .stop s => Stop s

theorem Holds.state {P : S → Prop} {flow : Flow S} (holds : flow.Holds P P) : P flow.state := by
  cases flow with
  | next s => exact holds
  | stop s => exact holds

end Flow

section Rules
variable {S : Type}

/-- The rounds from the index `i` on. -/
def loopFrom (body : Nat → S → Option (Flow S)) (i : Nat) : Nat → S → Option (Flow S)
  | 0,s => some (.next s)
  | rounds + 1,s => do
    match ← body i s with
    | .next s => loopFrom body (i + 1) rounds s
    | .stop s => return .stop s

/-- `for (i = 0; i < n; i++)` with a body that may return. -/
def loop (n : Nat) (body : Nat → S → Option (Flow S)) (s : S) : Option (Flow S) := loopFrom body 0 n s

/-- `for (i = 0; i < n; i++)` -/
def each (n : Nat) (body : Nat → S → Option S) (s : S) : Option S := (List.range n).foldlM (fun s i => body i s) s

variable {n : Nat} {Stop : S → Prop}

theorem loopFrom_rule (Inv : Nat → S → Prop) (body : Nat → S → Option (Flow S))
    (round : ∀ i s, i < n → Inv i s → ∃ flow, body i s = some flow ∧ flow.Holds (Inv (i + 1)) Stop) (rounds i : Nat) (s : S)
    (within : i + rounds = n) (start : Inv i s) :
    ∃ flow, loopFrom body i rounds s = some flow ∧ flow.Holds (Inv n) Stop := by
  induction rounds generalizing i s with
  | zero =>
    have last : i = n := by omega
    exact ⟨.next s,rfl,last ▸ start⟩
  | succ rounds ih =>
    obtain ⟨flow,ran,holds⟩ := round i s (by omega) start
    cases flow with
    | next after =>
      obtain ⟨flow,onward,ends⟩ := ih (i + 1) after (by omega) holds
      exact ⟨flow,by simp [loopFrom,ran,onward],ends⟩
    | stop after => exact ⟨.stop after,by simp [loopFrom,ran],holds⟩

theorem loop_rule (Inv : Nat → S → Prop) (body : Nat → S → Option (Flow S))
    (round : ∀ i s, i < n → Inv i s → ∃ flow, body i s = some flow ∧ flow.Holds (Inv (i + 1)) Stop) (s : S)
    (start : Inv 0 s) : ∃ flow, loop n body s = some flow ∧ flow.Holds (Inv n) Stop :=
  loopFrom_rule Inv body round n 0 s (Nat.zero_add n) start

theorem each_rule (Inv : Nat → S → Prop) (body : Nat → S → Option S)
    (round : ∀ i s, i < n → Inv i s → ∃ after, body i s = some after ∧ Inv (i + 1) after) (s : S) (start : Inv 0 s) :
    ∃ after, each n body s = some after ∧ Inv n after := by
  induction n with
  | zero => exact ⟨s,rfl,start⟩
  | succ n ih =>
    obtain ⟨before,ran,holds⟩ := ih fun i s earlier => round i s (by omega)
    obtain ⟨after,last,ends⟩ := round n before (Nat.lt_succ_self n) holds
    refine ⟨after,?_,ends⟩
    rw [each] at ran ⊢
    rw [List.range_succ,List.foldlM_append,ran]
    simp [last]

/-- Both go on, or both leave the loop. -/
def Flow.Match {T : Type} (Next Stop : S → T → Prop) : Flow S → Flow T → Prop
  | .next s,.next t => Next s t
  | .stop s,.stop t => Stop s t
  | _,_ => False

theorem Flow.Match.state {T : Type} {Next Stop R : S → T → Prop} {first : Flow S} {second : Flow T}
    (same : first.Match Next Stop second) (next : ∀ s t, Next s t → R s t) (stop : ∀ s t, Stop s t → R s t) :
    R first.state second.state := by
  cases first with
  | next s =>
    cases second with
    | next t => exact next s t same
    | stop t => exact same.elim
  | stop s =>
    cases second with
    | next t => exact same.elim
    | stop t => exact stop s t same

section Pairs
variable {T : Type} {Next Stop : S → T → Prop} {body : Nat → S → Option (Flow S)} {other : Nat → T → Option (Flow T)}

theorem loopFrom_pair (round : ∀ i s t, i < n → Next s t →
      ∃ first second, body i s = some first ∧ other i t = some second ∧ first.Match Next Stop second)
    (rounds i : Nat) (s : S) (t : T) (within : i + rounds = n) (start : Next s t) :
    ∃ first second, loopFrom body i rounds s = some first ∧ loopFrom other i rounds t = some second ∧
      first.Match Next Stop second := by
  induction rounds generalizing i s t with
  | zero => exact ⟨.next s,.next t,rfl,rfl,start⟩
  | succ rounds ih =>
    obtain ⟨first,second,ran,too,same⟩ := round i s t (by omega) start
    cases first with
    | next s =>
      cases second with
      | next t =>
        obtain ⟨first,second,onward,also,same⟩ := ih (i + 1) s t (by omega) same
        exact ⟨first,second,by simp [loopFrom,ran,onward],by simp [loopFrom,too,also],same⟩
      | stop t => exact same.elim
    | stop s =>
      cases second with
      | next t => exact same.elim
      | stop t => exact ⟨.stop s,.stop t,by simp [loopFrom,ran],by simp [loopFrom,too],same⟩

/-- Two loops whose rounds keep their states related. -/
theorem loop_pair (round : ∀ i s t, i < n → Next s t →
      ∃ first second, body i s = some first ∧ other i t = some second ∧ first.Match Next Stop second)
    (s : S) (t : T) (start : Next s t) :
    ∃ first second, loop n body s = some first ∧ loop n other t = some second ∧ first.Match Next Stop second :=
  loopFrom_pair round n 0 s t (Nat.zero_add n) start

theorem each_pair {R : S → T → Prop} {body : Nat → S → Option S} {other : Nat → T → Option T}
    (round : ∀ i s t, i < n → R s t → ∃ after too, body i s = some after ∧ other i t = some too ∧ R after too)
    (s : S) (t : T) (start : R s t) :
    ∃ after too, each n body s = some after ∧ each n other t = some too ∧ R after too := by
  induction n with
  | zero => exact ⟨s,t,rfl,rfl,start⟩
  | succ n ih =>
    obtain ⟨s,t,ran,also,same⟩ := ih fun i s t earlier => round i s t (by omega)
    obtain ⟨after,too,last,ends,same⟩ := round n s t (Nat.lt_succ_self n) same
    refine ⟨after,too,?_,?_,same⟩
    · rw [each] at ran ⊢
      rw [List.range_succ,List.foldlM_append,ran]
      simp [last]
    · rw [each] at also ⊢
      rw [List.range_succ,List.foldlM_append,also]
      simp [ends]

end Pairs

end Rules

end OpenPlc.Loops
