import Mathlib.Data.Nat.Digits.Lemmas
import Mathlib.Tactic.Common
import Mathlib.Tactic.Ring

/-! The digits of a number in pieces: those of a remainder, padded with zeros, and then those of the quotient. -/
namespace OpenPlc.Digits

/-- So many low digits, the lowest first. -/
def low (base : Nat) (count : Nat) (n : Nat) : List Nat := (List.range count).map fun j => n / base ^ j % base

variable {base : Nat}

theorem low_length (count n : Nat) : (low base count n).length = count := by
  rw [low,List.length_map,List.length_range]

theorem low_snoc (count n : Nat) : low base (count + 1) n = low base count n ++ [n / base ^ count % base] := by
  rw [low,List.range_succ,List.map_append]
  rfl

theorem low_cons (count n : Nat) : low base (count + 1) n = n % base :: low base count (n / base) := by
  rw [low,List.range_succ_eq_map,List.map_cons,List.map_map,Nat.pow_zero,Nat.div_one]
  refine congrArg (n % base :: ·) (List.map_congr_left fun j _ => ?_)
  rw [Function.comp_apply,Nat.pow_succ',Nat.div_div_eq_div_mul]

/-- The low digits of a number that has no others are its digits, with zeros above them. -/
theorem low_digits (valid : 1 < base) (count n : Nat) (small : n < base ^ count) :
    low base count n = base.digits n ++ List.replicate (count - (base.digits n).length) 0 := by
  induction count generalizing n with
  | zero =>
    obtain rfl := Nat.lt_one_iff.mp small
    rw [Nat.digits_zero]
    rfl
  | succ count ih =>
    have less : n / base < base ^ count := Nat.div_lt_of_lt_mul (by rwa [← Nat.pow_succ'])
    rw [low_cons,ih (n / base) less]
    by_cases zero : n = 0
    · subst zero
      rw [Nat.zero_mod,Nat.zero_div,Nat.digits_zero]
      rfl
    · rw [Nat.digits_def' valid (Nat.pos_of_ne_zero zero),List.length_cons,Nat.succ_sub_succ]
      rfl

theorem digits_split (valid : 1 < base) (count n : Nat) (more : n / base ^ count ≠ 0) :
    base.digits n = low base count (n % base ^ count) ++ base.digits (n / base ^ count) := by
  induction count generalizing n with
  | zero => simp [low]
  | succ count ih =>
    have powers : n / base ^ (count + 1) = n / base / base ^ count := by rw [Nat.pow_succ',Nat.div_div_eq_div_mul]
    have some_ : 0 < n := by
      refine Nat.pos_of_ne_zero fun zero => more ?_
      rw [zero,Nat.zero_div]
    have positive := Nat.zero_lt_of_lt valid
    have head : (n % base + base * (n / base % base ^ count)) % base = n % base := by
      rw [Nat.add_mul_mod_self_left,Nat.mod_mod]
    have tail : (n % base + base * (n / base % base ^ count)) / base = n / base % base ^ count := by
      rw [Nat.add_mul_div_left _ _ positive,Nat.div_eq_of_lt (Nat.mod_lt n positive),Nat.zero_add]
    rw [powers] at more ⊢
    rw [Nat.digits_def' valid some_,ih (n / base) more,low_cons,Nat.pow_succ',Nat.mod_mul,head,tail,List.cons_append]

/-- The digits of a number, the lowest first, where zero has one. -/
def numeral (base n : Nat) : List Nat := n % base :: base.digits (n / base)

theorem numeral_zero : numeral base 0 = [0] := by
  rw [numeral,Nat.zero_mod,Nat.zero_div,Nat.digits_zero]

theorem numeral_some (valid : 1 < base) {n : Nat} (some_ : n ≠ 0) : numeral base n = base.digits n :=
  (Nat.digits_def' valid (Nat.pos_of_ne_zero some_)).symm

/-- A numeral with zeros in front of it, where it is not longer than the low digits. -/
theorem low_numeral (valid : 1 < base) {count n : Nat} (some_ : 0 < count) (small : n < base ^ count) :
    low base count n = numeral base n ++ List.replicate (count - (numeral base n).length) 0 := by
  rw [low_digits valid count n small]
  by_cases zero : n = 0
  · subst zero
    obtain ⟨count,rfl⟩ := Nat.exists_eq_add_one_of_ne_zero (Nat.ne_of_gt some_)
    rw [numeral_zero,Nat.digits_zero]
    rfl
  · rw [numeral_some valid zero]

theorem numeral_lt (valid : 1 < base) (n : Nat) : ∀ d ∈ numeral base n, d < base := by
  intro d member
  obtain rfl | rest := List.mem_cons.mp member
  · exact Nat.mod_lt n (Nat.zero_lt_of_lt valid)
  · exact Nat.digits_lt_base valid rest

theorem numeral_value (n : Nat) : Nat.ofDigits base (numeral base n) = n := by
  rw [numeral,Nat.ofDigits_cons,Nat.ofDigits_digits,Nat.mod_add_div]

theorem numeral_last (valid : 1 < base) (n : Nat) (long : 1 < (numeral base n).length) :
    (numeral base n).getLast (List.cons_ne_nil _ _) ≠ 0 := by
  have some_ : n ≠ 0 := by
    rintro rfl
    rw [numeral_zero] at long
    exact absurd long (Nat.lt_irrefl 1)
  simp only [numeral_some valid some_]
  exact Nat.getLast_digit_ne_zero base some_

theorem numeral_length_le (valid : 1 < base) {count n : Nat} (some_ : 0 < count) (fits : n < base ^ count) :
    (numeral base n).length ≤ count := by
  by_cases zero : n = 0
  · rw [zero,numeral_zero]
    exact some_
  · rw [numeral_some valid zero]
    exact (Nat.digits_length_le_iff valid n).mpr fits

/-- Digits of this value without a zero in front are those of the numeral. -/
theorem numeral_unique (valid : 1 < base) {n : Nat} {ds : List Nat} (bound : ∀ d ∈ ds, d < base) (value : Nat.ofDigits base ds = n)
    (nonempty : ds ≠ []) (last : 1 < ds.length → ds.getLast nonempty ≠ 0) : ds = numeral base n := by
  subst value
  by_cases long : 1 < ds.length
  · have same := Nat.digits_ofDigits base valid ds bound fun _ => last long
    have some_ : Nat.ofDigits base ds ≠ 0 := by
      intro zero
      rw [zero,Nat.digits_zero] at same
      exact nonempty same.symm
    rw [numeral_some valid some_,same]
  · obtain ⟨d,rfl⟩ : ∃ d, ds = [d] :=
      List.length_eq_one_iff.mp (Nat.le_antisymm (Nat.not_lt.mp long) (List.length_pos_iff.mpr nonempty))
    have small := bound d List.mem_cons_self
    rw [Nat.ofDigits_singleton,numeral,Nat.mod_eq_of_lt small,Nat.div_eq_of_lt small,Nat.digits_zero]

theorem digits_length_le (valid : 1 < base) (bits n : Nat) (fits : n < 2 ^ bits) : (base.digits n).length ≤ bits := by
  rw [Nat.digits_length_le_iff valid]
  exact Nat.lt_of_lt_of_le fits (Nat.pow_le_pow_left valid bits)

/-- The number that decimal digits continue. -/
def number (acc : Nat) (digits : List UInt8) : Nat := digits.foldl (fun acc c => acc * 10 + (c.toNat - 48)) acc

theorem number_cons (acc : Nat) (c : UInt8) (text : List UInt8) :
    number acc (c :: text) = number (acc * 10 + (c.toNat - 48)) text := by
  rw [number,number,List.foldl_cons]

theorem number_append (acc : Nat) (front back : List UInt8) : number acc (front ++ back) = number (number acc front) back :=
  List.foldl_append

theorem le_number (acc : Nat) (text : List UInt8) : acc ≤ number acc text := by
  induction text generalizing acc with
  | nil => exact Nat.le_refl acc
  | cons c text ih =>
    rw [number_cons]
    exact Nat.le_trans (by omega) (ih _)

theorem number_eq (acc : Nat) (text : List UInt8) : number acc text = acc * 10 ^ text.length + number 0 text := by
  induction text generalizing acc with
  | nil => rw [List.length_nil,Nat.pow_zero,Nat.mul_one]; rfl
  | cons c text ih =>
    rw [number_cons,number_cons,ih,ih (0 * 10 + _),List.length_cons,Nat.pow_succ']
    ring

end OpenPlc.Digits
