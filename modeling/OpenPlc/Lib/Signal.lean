import Mathlib.Algebra.Order.Field.Basic
import Mathlib.Tactic.Linarith
import Mathlib.Tactic.Ring

/-! A line that rests high and carries bursts of bits of equal length, over any ordered
field of times. -/
namespace OpenPlc.Signal

variable {K : Type*} [Field K] [LinearOrder K]

/-- The level of bits that begin at `start`. -/
def wave (period start : K) : List Bool → K → Bool
  | [],_ => true
  | bit :: rest,t => if t < start + period then bit else wave period (start + period) rest t

structure Burst (K : Type*) where
  start : K
  bits : List Bool

def Burst.finish (period : K) (burst : Burst K) : K := burst.start + burst.bits.length * period

def line (period : K) : List (Burst K) → K → Bool
  | [],_ => true
  | burst :: rest,t =>
    if burst.start ≤ t ∧ t < burst.finish period then wave period burst.start burst.bits t else line period rest t

variable {period : K}

theorem line_rests (bursts : List (Burst K)) (t : K)
    (quiet : ∀ burst ∈ bursts, burst.start ≤ t → t < burst.finish period → wave period burst.start burst.bits t = true) :
    line period bursts t = true := by
  induction bursts with
  | nil => rfl
  | cons first rest ih =>
    rw [line]
    split
    · rename_i on
      exact quiet first List.mem_cons_self on.1 on.2
    · exact ih fun burst later => quiet burst (List.mem_cons_of_mem first later)

theorem line_ahead (bursts : List (Burst K)) (burst : Burst K) (t : K) (before : t < burst.start) :
    line period (bursts ++ [burst]) t = line period bursts t := by
  induction bursts with
  | nil => exact if_neg fun on => absurd before (not_lt.mpr on.1)
  | cons first rest ih => simp only [List.cons_append,line,ih]

variable [IsStrictOrderedRing K]

theorem wave_at (positive : 0 ≤ period) (bits : List Bool) (start t : K) (i : Nat) (inside : i < bits.length)
    (begun : start + i * period ≤ t) (on : t < start + (i + 1) * period) : wave period start bits t = bits[i] := by
  induction bits generalizing start i with
  | nil => exact absurd inside (Nat.not_lt_zero i)
  | cons bit rest ih =>
    cases i with
    | zero =>
      rw [Nat.cast_zero,zero_add,one_mul] at on
      rw [wave,if_pos on]
      rfl
    | succ i =>
      push_cast at begun on
      have past : ¬ t < start + period := by
        have more := mul_nonneg (Nat.cast_nonneg (α := K) i) positive
        linarith
      rw [wave,if_neg past]
      exact ih (start + period) i (Nat.lt_of_succ_lt_succ inside) (by linarith) (by linarith)

/-- While a burst is sent the line has its level. -/
theorem line_burst (bursts : List (Burst K)) (apart : bursts.Pairwise fun a b => a.finish period ≤ b.start) (burst : Burst K)
    (among : burst ∈ bursts) (t : K) (begun : burst.start ≤ t) (on : t < burst.finish period) :
    line period bursts t = wave period burst.start burst.bits t := by
  induction bursts with
  | nil => contradiction
  | cons first rest ih =>
    obtain ⟨behind,apart⟩ := List.pairwise_cons.mp apart
    rcases List.mem_cons.mp among with rfl | later
    · rw [line,if_pos ⟨begun,on⟩]
    · have past : ¬ (first.start ≤ t ∧ t < first.finish period) := by
        rintro ⟨_,within⟩
        have next := behind burst later
        linarith
      rw [line,if_neg past]
      exact ih apart later

theorem line_bit (positive : 0 ≤ period) (bursts : List (Burst K))
    (apart : bursts.Pairwise fun a b => a.finish period ≤ b.start) (burst : Burst K) (among : burst ∈ bursts) (t : K) (i : Nat)
    (inside : i < burst.bits.length) (begun : burst.start + i * period ≤ t) (on : t < burst.start + (i + 1) * period) :
    line period bursts t = burst.bits[i] := by
  have first := mul_nonneg (Nat.cast_nonneg (α := K) i) positive
  have last : ((i + 1 : Nat) : K) * period ≤ burst.bits.length * period :=
    mul_le_mul_of_nonneg_right (Nat.cast_le.mpr inside) positive
  push_cast at last
  rw [line_burst bursts apart burst among t (by linarith) (by unfold Burst.finish; linarith)]
  exact wave_at positive burst.bits burst.start t i inside begun on

section Scale
variable {factor : K}

theorem wave_scale (positive : 0 < factor) (offset start t : K) (bits : List Bool) :
    wave (period * factor) (offset + start * factor) bits (offset + t * factor) = wave period start bits t := by
  induction bits generalizing start with
  | nil => rfl
  | cons bit rest ih =>
    have next : offset + start * factor + period * factor = offset + (start + period) * factor := by ring
    have before : offset + t * factor < offset + (start + period) * factor ↔ t < start + period := by
      rw [add_lt_add_iff_left,mul_lt_mul_iff_left₀ positive]
    simp only [wave,next,before,ih]

def Burst.scale (factor offset : K) (burst : Burst K) : Burst K := ⟨offset + burst.start * factor,burst.bits⟩

/-- The level does not depend on the clock that measures the times. -/
theorem line_scale (positive : 0 < factor) (offset t : K) (bursts : List (Burst K)) :
    line (period * factor) (bursts.map (Burst.scale factor offset)) (offset + t * factor) = line period bursts t := by
  induction bursts with
  | nil => rfl
  | cons burst rest ih =>
    have finish : (burst.scale factor offset).finish (period * factor) = offset + burst.finish period * factor := by
      simp only [Burst.scale,Burst.finish]
      ring
    have begun : offset + burst.start * factor ≤ offset + t * factor ↔ burst.start ≤ t := by
      rw [add_le_add_iff_left,mul_le_mul_iff_left₀ positive]
    have on : offset + t * factor < offset + burst.finish period * factor ↔ t < burst.finish period := by
      rw [add_lt_add_iff_left,mul_lt_mul_iff_left₀ positive]
    rw [List.map_cons,line,line,finish,ih]
    simp only [Burst.scale,begun,on,wave_scale positive]

end Scale

section Steps
variable {t : K} {p n : Nat}

theorem wave_step (begun : (n : K) ≤ t) (on : t < n + 1) (start : Nat) (bits : List Bool) :
    wave (p : K) start bits t = wave (p : K) start bits n := by
  induction bits generalizing start with
  | nil => rfl
  | cons bit rest ih =>
    have before : t < start + p ↔ (n : K) < start + p := by
      constructor
      · exact fun less => begun.trans_lt less
      · intro less
        have whole : n + 1 ≤ start + p := by exact_mod_cast less
        have cast : (n : K) + 1 ≤ start + p := by exact_mod_cast whole
        exact on.trans_le cast
    have next := ih (start + p)
    push_cast at next
    simp only [wave,before,next]

/-- Where bursts begin and bits end at whole times only, the level stays between them. -/
theorem line_step (begun : (n : K) ≤ t) (on : t < n + 1) (bursts : List (Burst K))
    (whole : ∀ burst ∈ bursts, ∃ start : Nat, burst.start = start) : line (p : K) bursts t = line (p : K) bursts n := by
  induction bursts with
  | nil => rfl
  | cons burst rest ih =>
    obtain ⟨start,same⟩ := whole burst List.mem_cons_self
    have first : burst.start ≤ t ↔ burst.start ≤ n := by
      rw [same]
      constructor
      · intro less
        have cast : ((start : Nat) : K) < (n + 1 : Nat) := by
          push_cast
          exact less.trans_lt on
        exact Nat.cast_le.mpr (Nat.le_of_lt_succ (Nat.cast_lt.mp cast))
      · exact fun less => less.trans begun
    have last : t < burst.finish (p : K) ↔ (n : K) < burst.finish (p : K) := by
      rw [Burst.finish,same]
      constructor
      · exact fun less => begun.trans_lt less
      · intro less
        have cast : ((n : Nat) : K) < (start + burst.bits.length * p : Nat) := by exact_mod_cast less
        have more : ((n + 1 : Nat) : K) ≤ (start + burst.bits.length * p : Nat) :=
          Nat.cast_le.mpr (Nat.succ_le_of_lt (Nat.cast_lt.mp cast))
        push_cast at more
        exact on.trans_le more
    rw [line,line,ih fun later member => whole later (List.mem_cons_of_mem burst member)]
    simp only [first,last]
    rw [same,wave_step begun on]

end Steps

end OpenPlc.Signal
