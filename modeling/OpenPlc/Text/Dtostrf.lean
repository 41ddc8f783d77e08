import OpenPlc.Text.Itoa
import Mathlib.Algebra.Order.Floor.Semifield
import Mathlib.Data.Rat.Floor
import Mathlib.Tactic.FieldSimp
import Mathlib.Tactic.IntervalCases
import Mathlib.Tactic.Linarith
import Mathlib.Tactic.NormNum

/-! `dtostrf` (`avr/dtostrf.c`) and its callers in `WString.cpp`. The arithmetic of `double` is a parameter; a `long`
and an `int` have 32 bits. -/
namespace OpenPlc.Text.Dtostrf
open CString Digits Itoa

/-- The constants of `dtostrf`, and the conversions of a `double`. -/
structure Arithmetic (D : Type) where
  below : D → Bool
  half : D
  one : D
  ten : D
  toUnsignedLong : D → BitVec 32
  toInt : D → BitVec 32
  ofUnsignedLong : BitVec 32 → D

section Code
variable {D : Type} [Neg D] [Add D] [Sub D] [Mul D] [Div D] (a : Arithmetic D)

/-- `%ld` -/
def decimal (value : BitVec 32) : List UInt8 := longText value 10

/-- `%0*ld` -/
def padded (width : Nat) (value : BitVec 32) : List UInt8 :=
  let sign : List UInt8 := if value.toInt < 0 then [45] else []
  let digits := numeralText 10 value.toInt.natAbs
  sign ++ List.replicate (width - (sign.length + digits.length)) 48 ++ digits

/-- `rounding` after its loop. -/
def rounding (prec : UInt8) : D := (fun rounding => rounding / a.ten)^[prec.toNat] a.half

/-- `decade` after its loop. -/
def decade (prec : UInt8) : D := (fun decade => decade * a.ten)^[prec.toNat] a.one

def magnitude (val : D) : D := if a.below val then -val else val

def intPart (val : D) (prec : UInt8) : BitVec 32 := a.toUnsignedLong (magnitude a val + rounding a prec)

def decPart (val : D) (prec : UInt8) : BitVec 32 :=
  let remainder := magnitude a val + rounding a prec - a.ofUnsignedLong (intPart a val prec)
  a.toInt (remainder * decade a prec)

/-- What the calls of `sprintf` print. -/
def printed (val : D) (prec : UInt8) : List UInt8 :=
  signed (a.below val) (decimal (intPart a val prec) ++ if 0 < prec then 46 :: padded prec.toNat (decPart a val prec) else [])

/-- The adjustment to the field width. `malloc` has the memory. -/
def adjust (width : Int8) (sout : List UInt8) : Option (List UInt8) := do
  let w := width.toInt.natAbs
  let number ← text sout
  if number.length < w then
    let fmt ← put (List.replicate 129 0) 0 (List.replicate 128 32)
    let fmt ← put fmt (w - number.length) [0]
    let spaces ← text fmt
    if width.toInt < 0 then strcpy sout number.length spaces
    else
      let tmp ← strcpy (List.replicate (number.length + 1) 0) 0 number
      let number ← text tmp
      let sout ← strcpy sout 0 spaces
      let spaces ← text sout
      strcpy sout spaces.length number
  else some sout

/-- It has no result if a write is outside of `sout`, `fmt` or `tmp`. -/
def dtostrf (val : D) (width : Int8) (prec : UInt8) (sout : List UInt8) : Option (List UInt8) := do
  let sout ← strcpy sout 0 (printed a val prec)
  adjust width sout

/-- The constructors of `String` from a `float` and from a `double`, and the overloads of `concat`. -/
inductive Caller (D : Type) where
  | stringFloat (value : D) (decimalPlaces : UInt8)
  | stringDouble (value : D) (decimalPlaces : UInt8)
  | concatFloat (num : D)
  | concatDouble (num : D)

def Caller.size : Caller D → Nat
  | .stringFloat .. | .stringDouble .. => 33
  | .concatFloat _ | .concatDouble _ => 20

/-- The conversion into `buf`. A `float` is a `double` too. -/
def Caller.fill (buf : List UInt8) : Caller D → Option (List UInt8)
  | .stringFloat value decimalPlaces | .stringDouble value decimalPlaces =>
    dtostrf a value (.ofInt (decimalPlaces.toNat + 2)) decimalPlaces buf
  | .concatFloat num | .concatDouble num => dtostrf a num 4 2 buf

end Code

def field (width : Int8) (number : List UInt8) : List UInt8 :=
  let spaces := List.replicate (width.toInt.natAbs - number.length) 32
  if width.toInt < 0 then number ++ spaces else spaces ++ number

section Field
variable {width : Int8} {number sout : List UInt8}

theorem width_le (width : Int8) : width.toInt.natAbs ≤ 128 := by
  have low := width.le_toInt
  have high : width.toInt < 128 := width.toInt_lt
  omega

theorem field_wide (long : width.toInt.natAbs ≤ number.length) : field width number = number := by
  rw [field,Nat.sub_eq_zero_of_le long,List.replicate_zero]
  split
  · exact List.append_nil number
  · rfl

theorem memset_blanks (n : Nat) :
    put (List.replicate (n + 1) 0) 0 (List.replicate n 32) = some (List.replicate n 32 ++ [0]) := by
  rw [put,if_pos (by simp)]
  simp

theorem blanks (count : Nat) (most : count ≤ 128) :
    ∃ set fmt, put (List.replicate 129 0) 0 (List.replicate 128 32) = some set ∧ put set count [0] = some fmt ∧
      Holds fmt (List.replicate count 32) := by
  have front : (List.replicate 128 32 ++ [0] : List UInt8).take count = List.replicate count 32 := by
    rw [List.take_append_of_le_length (by rw [List.length_replicate]; exact most),List.take_replicate,Nat.min_eq_left most]
  have free : (0 : UInt8) ∉ List.replicate count (32 : UInt8) := fun zero => absurd (List.eq_of_mem_replicate zero) (by decide)
  obtain ⟨fmt,ended,holds,-⟩ := put_zero (List.replicate 128 32 ++ [0]) count
    (by rw [List.length_append,List.length_replicate]; exact Nat.lt_succ_of_le most) (by rw [front]; exact free)
  rw [front] at holds
  exact ⟨_,fmt,memset_blanks 128,ended,holds⟩

theorem strcpy_overrun {block source : List UInt8} {start : Nat} (long : block.length ≤ start + source.length) :
    strcpy block start source = none := by
  rw [strcpy,put,if_neg]
  rw [List.length_append,List.length_singleton]
  omega

/-- What is left of the adjustment of a short text, when `fmt` and `tmp` are filled. -/
theorem adjust_short (holds : Holds sout number) (short : number.length < width.toInt.natAbs) :
    ∃ spaces : List UInt8, spaces.length = width.toInt.natAbs - number.length ∧ 0 ∉ spaces ∧
      field width number = (if width.toInt < 0 then number ++ spaces else spaces ++ number) ∧
      adjust width sout = if width.toInt < 0 then strcpy sout number.length spaces
        else (strcpy sout 0 spaces).bind fun sout => (text sout).bind fun spaces => strcpy sout spaces.length number := by
  obtain ⟨set,fmt,memset,ended,spaces⟩ := blanks (width.toInt.natAbs - number.length)
    (Nat.le_trans (Nat.sub_le _ _) (width_le width))
  refine ⟨_,List.length_replicate,spaces.free,rfl,?_⟩
  obtain ⟨tmp,saved,kept,-⟩ := strcpy_whole (List.replicate (number.length + 1) 0) number (by simp) holds.free
  rw [adjust]
  simp only [Option.bind_eq_bind,holds.text,Option.bind_some,short,if_true,memset,ended,spaces.text,saved,kept.text]

theorem adjust_holds (width : Int8) (holds : Holds sout number) (room : width.toInt.natAbs < sout.length) :
    ∃ after, adjust width sout = some after ∧ Holds after (field width number) := by
  by_cases short : number.length < width.toInt.natAbs
  · obtain ⟨spaces,count,free,filled,adjusted⟩ := adjust_short holds short
    rw [adjusted,filled]
    by_cases left : width.toInt < 0
    · rw [if_pos left,if_pos left]
      obtain ⟨after,copied,whole,-⟩ := strcpy_behind holds spaces (by rw [count]; omega) free
      exact ⟨after,copied,whole⟩
    · rw [if_neg left,if_neg left]
      obtain ⟨blank,padding,held,size⟩ := strcpy_whole sout spaces (by rw [count]; omega) free
      obtain ⟨after,copied,whole,-⟩ := strcpy_behind held number (by rw [count,size]; omega) holds.free
      refine ⟨after,?_,whole⟩
      rw [padding,Option.bind_some,held.text]
      exact copied
  · have long := Nat.not_lt.mp short
    refine ⟨sout,?_,(field_wide long).symm ▸ holds⟩
    rw [adjust]
    simp only [Option.bind_eq_bind,holds.text,Option.bind_some,short,if_false]

theorem adjust_overrun (width : Int8) (holds : Holds sout number) (beyond : sout.length ≤ width.toInt.natAbs) :
    adjust width sout = none := by
  have inside := holds.length_lt
  obtain ⟨spaces,count,free,-,adjusted⟩ := adjust_short holds (Nat.lt_of_lt_of_le inside beyond)
  rw [adjusted]
  by_cases left : width.toInt < 0
  · rw [if_pos left]
    exact strcpy_overrun (by omega)
  · rw [if_neg left]
    by_cases fits : spaces.length < sout.length
    · obtain ⟨blank,padding,held,size⟩ := strcpy_whole sout spaces fits free
      rw [padding,Option.bind_some,held.text]
      exact strcpy_overrun (by omega)
    · rw [strcpy_overrun (by omega),Option.bind_none]

end Field

section Decimals

theorem decimal_eq (value : BitVec 32) :
    decimal value = (if value.toInt < 0 then [45] else []) ++ numeralText 10 value.toInt.natAbs := by
  rw [decimal,longText]
  by_cases negative : value.toInt < 0
  · rw [if_pos ⟨rfl,negative⟩,if_pos negative]
    rfl
  · have same : value.toNat = value.toInt.natAbs := by
      have word := value.isLt
      rw [BitVec.toInt_eq_toNat_cond] at negative ⊢
      split at negative <;> omega
    rw [if_neg (fun both => negative both.2),if_neg negative,same]
    rfl

theorem decimal_length (value : BitVec 32) : 1 ≤ (decimal value).length ∧ (decimal value).length ≤ 11 := by
  refine ⟨?_,longText_length (by decide) value (by decide) (by decide : 2 ^ 32 ≤ 10 ^ 10)⟩
  rw [decimal_eq,List.length_append]
  exact Nat.le_add_left_of_le (by simp [numeralText,numeral])

theorem padded_length (width : Nat) (value : BitVec 32) : (padded width value).length = max width (decimal value).length := by
  rw [padded,decimal_eq]
  simp only [List.length_append,List.length_replicate]
  omega

theorem sign_free (value : BitVec 32) : (0 : UInt8) ∉ (if value.toInt < 0 then [45] else [] : List UInt8) := by
  split <;> decide

theorem decimal_free (value : BitVec 32) : 0 ∉ decimal value := by
  rw [decimal_eq]
  exact fun zero => (List.mem_append.mp zero).elim (sign_free value) (numeralText_free (by decide) (by decide) _)

theorem padded_free (width : Nat) (value : BitVec 32) : 0 ∉ padded width value := by
  intro zero
  obtain front | digits := List.mem_append.mp zero
  · obtain sign | zeros := List.mem_append.mp front
    · exact sign_free value sign
    · exact absurd (List.eq_of_mem_replicate zeros) (by decide)
  · exact numeralText_free (by decide) (by decide) _ digits

end Decimals

section Bounds
variable {D : Type} [Neg D] [Add D] [Sub D] [Mul D] [Div D] (a : Arithmetic D) (val : D) (prec : UInt8)

theorem printed_free : 0 ∉ printed a val prec := by
  refine signed_free fun zero => (List.mem_append.mp zero).elim (decimal_free _) fun behind => ?_
  split at behind
  · exact (List.mem_cons.mp behind).elim (by decide) (padded_free _ _)
  · exact absurd behind List.not_mem_nil

theorem printed_length : (printed a val prec).length = (signed (a.below val) (decimal (intPart a val prec))).length +
    if 0 < prec then 1 + max prec.toNat (decimal (decPart a val prec)).length else 0 := by
  rw [printed,← signed_append,← signed_append (a.below val) (decimal _)]
  simp only [List.length_append]
  split
  · rw [List.length_cons,padded_length]
    omega
  · rw [List.length_nil]
    omega

variable {a val prec} {width : Int8} {sout : List UInt8}

theorem dtostrf_holds (room : (printed a val prec).length < sout.length) (wide : width.toInt.natAbs < sout.length) :
    ∃ after, dtostrf a val width prec sout = some after ∧ Holds after (field width (printed a val prec)) := by
  obtain ⟨start,written,holds,size⟩ := strcpy_whole sout _ room (printed_free a val prec)
  obtain ⟨after,adjusted,whole⟩ := adjust_holds width holds (size ▸ wide)
  exact ⟨after,Option.bind_eq_some_iff.mpr ⟨start,written,adjusted⟩,whole⟩

/-- Nothing is written outside of an array exactly if the text and the field fit into the buffer with the terminator. -/
theorem dtostrf_inside :
    (dtostrf a val width prec sout).isSome ↔ (printed a val prec).length < sout.length ∧ width.toInt.natAbs < sout.length := by
  constructor
  · intro inside
    by_contra outside
    rw [dtostrf] at inside
    by_cases room : (printed a val prec).length < sout.length
    · obtain ⟨start,written,holds,size⟩ := strcpy_whole sout _ room (printed_free a val prec)
      have beyond : start.length ≤ width.toInt.natAbs := size ▸ Nat.not_lt.mp fun wide => outside ⟨room,wide⟩
      rw [written,Option.bind_eq_bind,Option.bind_some,adjust_overrun width holds beyond] at inside
      contradiction
    · rw [strcpy_overrun (by omega)] at inside
      contradiction
  · rintro ⟨room,wide⟩
    obtain ⟨after,done,-⟩ := dtostrf_holds room wide
    rw [done]
    rfl

end Bounds

section Callers
variable {D : Type} [Neg D] [Add D] [Sub D] [Mul D] [Div D] (a : Arithmetic D)

def integerText (value : D) (prec : UInt8) : List UInt8 := signed (a.below value) (decimal (intPart a value prec))

/-- What a call may print: up to 31 characters without the point into the buffer of a constructor if there are many
decimals, and up to 18 into that of `concat`. -/
def Caller.Room : Caller D → Prop
  | .stringFloat value decimalPlaces | .stringDouble value decimalPlaces =>
    decimalPlaces.toNat ≤ 19 ∨ (integerText a value decimalPlaces).length + decimalPlaces.toNat ≤ 31
  | .concatFloat num | .concatDouble num => (integerText a num 2).length + max 2 (decimal (decPart a num 2)).length ≤ 18

omit [Sub D] [Mul D] in
theorem integerText_length (value : D) (prec : UInt8) :
    1 ≤ (integerText a value prec).length ∧ (integerText a value prec).length ≤ 12 := by
  obtain ⟨least,most⟩ := decimal_length (intPart a value prec)
  have sign := signed_length (a.below value) (decimal (intPart a value prec))
  have front : (decimal (intPart a value prec)).length ≤ (integerText a value prec).length := by
    rw [integerText,← signed_append,List.length_append]
    exact Nat.le_add_left _ _
  rw [integerText] at front ⊢
  omega

theorem string_inside (value : D) (decimalPlaces : UInt8) (buf : List UInt8) (size : buf.length = 33) :
    (dtostrf a value (.ofInt (decimalPlaces.toNat + 2)) decimalPlaces buf).isSome ↔
      decimalPlaces.toNat ≤ 19 ∨ (integerText a value decimalPlaces).length + decimalPlaces.toNat ≤ 31 := by
  obtain ⟨least,most⟩ := integerText_length a value decimalPlaces
  have decimals := (decimal_length (decPart a value decimalPlaces)).2
  have width : (Int8.ofInt (decimalPlaces.toNat + 2)).toInt = ((decimalPlaces.toNat : ℤ) + 2).bmod 256 := Int8.toInt_ofInt
  rw [Int.bmod_def] at width
  have places : 0 < decimalPlaces ↔ 0 < decimalPlaces.toNat := UInt8.lt_iff_toNat_lt
  rw [dtostrf_inside,printed_length,size]
  rw [integerText] at least most ⊢
  simp only [places]
  split <;> omega

theorem concat_inside (num : D) (buf : List UInt8) (size : buf.length = 20) : (dtostrf a num 4 2 buf).isSome ↔
    (integerText a num 2).length + max 2 (decimal (decPart a num 2)).length ≤ 18 := by
  have width : (4 : Int8).toInt.natAbs < 20 := by decide
  rw [dtostrf_inside,printed_length,if_pos (by decide),size,integerText,and_iff_left width]
  change _ + (1 + max 2 _) < 20 ↔ _
  omega

/-- The local buffers of the callers suffice exactly in these cases, and the arrays of `dtostrf` for every field. -/
theorem callers_iff (caller : Caller D) :
    ((∀ buf : List UInt8, buf.length = caller.size → (caller.fill a buf).isSome) ↔ caller.Room a) ∧
    ∀ (val : D) (width : Int8) (prec : UInt8) (sout : List UInt8),
      (printed a val prec).length < sout.length → width.toInt.natAbs < sout.length → (dtostrf a val width prec sout).isSome := by
  refine ⟨?_,fun val width prec sout room wide => dtostrf_inside.mpr ⟨room,wide⟩⟩
  have same {P : List UInt8 → Prop} {Q : Prop} {size : Nat} (iff : ∀ buf : List UInt8, buf.length = size → (P buf ↔ Q)) :
      (∀ buf : List UInt8, buf.length = size → P buf) ↔ Q :=
    ⟨fun all => (iff (List.replicate size 0) List.length_replicate).mp (all _ List.length_replicate),
      fun holds buf length => (iff buf length).mpr holds⟩
  cases caller with
  | stringFloat value decimalPlaces => exact same fun buf => string_inside a value decimalPlaces buf
  | stringDouble value decimalPlaces => exact same fun buf => string_inside a value decimalPlaces buf
  | concatFloat num => exact same fun buf => concat_inside a num buf
  | concatDouble num => exact same fun buf => concat_inside a num buf

end Callers

/-- `double` without rounding. What a conversion of a value out of range gives is not defined by the language. -/
def exact (beyondUnsigned beyondInt : ℚ → BitVec 32) : Arithmetic ℚ where
  below x := x < 0
  half := 1 / 2
  one := 1
  ten := 10
  toUnsignedLong x := if -1 < x ∧ x < 4294967296 then .ofInt 32 (if x < 0 then ⌈x⌉ else ⌊x⌋) else beyondUnsigned x
  toInt x := if -2147483649 < x ∧ x < 2147483648 then .ofInt 32 (if x < 0 then ⌈x⌉ else ⌊x⌋) else beyondInt x
  ofUnsignedLong value := value.toNat

/-- The value rounded half away from zero, in units of the last decimal and without its sign. -/
def rounded (val : ℚ) (prec : UInt8) : Nat := ⌊|val| * 10 ^ prec.toNat + 1 / 2⌋₊

/-- The decimal numeral of the rounded value with exactly `prec` digits behind the point. -/
def decimalText (val : ℚ) (prec : UInt8) : List UInt8 :=
  let n := rounded val prec
  signed (val < 0) (numeralText 10 (n / 10 ^ prec.toNat) ++
    if 0 < prec then 46 :: (low 10 prec.toNat (n % 10 ^ prec.toNat)).reverse.map digitChar else [])

section Exact
variable {u i : ℚ → BitVec 32} {val : ℚ} {prec : UInt8}

theorem magnitude_exact (val : ℚ) : magnitude (exact u i) val = |val| := by
  rw [magnitude,exact]
  by_cases negative : val < 0
  · rw [if_pos (decide_eq_true negative),abs_of_neg negative]
  · rw [if_neg (by simp [negative]),abs_of_nonneg (not_lt.mp negative)]

theorem rounding_exact (prec : UInt8) : rounding (exact u i) prec = 1 / 2 / 10 ^ prec.toNat := by
  rw [rounding]
  induction prec.toNat with
  | zero => exact (div_one (1 / 2 : ℚ)).symm
  | succ n ih =>
    rw [Function.iterate_succ_apply',ih,pow_succ,div_div]
    rfl

theorem decade_exact (prec : UInt8) : decade (exact u i) prec = 10 ^ prec.toNat := by
  rw [decade]
  induction prec.toNat with
  | zero => rfl
  | succ n ih =>
    rw [Function.iterate_succ_apply',ih,pow_succ]
    rfl

def raised (val : ℚ) (prec : UInt8) : ℚ := |val| + 1 / 2 / 10 ^ prec.toNat

theorem raised_nonneg (val : ℚ) (prec : UInt8) : 0 ≤ raised val prec := by
  rw [raised]
  positivity

theorem raised_rounded (val : ℚ) (prec : UInt8) : ⌊raised val prec * 10 ^ prec.toNat⌋₊ = rounded val prec := by
  have scaled : raised val prec * 10 ^ prec.toNat = |val| * 10 ^ prec.toNat + 1 / 2 := by
    rw [raised]
    field_simp
  rw [scaled,rounded]

/-- The integer part is that of the rounded value, and a carry of the decimals is in it. -/
theorem floor_raised (val : ℚ) (prec : UInt8) : ⌊raised val prec⌋₊ = rounded val prec / 10 ^ prec.toNat := by
  have power : (10 : ℚ) ^ prec.toNat ≠ 0 := by positivity
  have parts := Nat.floor_div_natCast (raised val prec * 10 ^ prec.toNat) (10 ^ prec.toNat)
  rw [raised_rounded] at parts
  rw [← parts]
  push_cast
  rw [mul_div_cancel_right₀ _ power]

theorem floor_decimals (val : ℚ) (prec : UInt8) :
    ⌊(raised val prec - ⌊raised val prec⌋₊) * 10 ^ prec.toNat⌋₊ = rounded val prec % 10 ^ prec.toNat := by
  have split : (raised val prec - ⌊raised val prec⌋₊) * 10 ^ prec.toNat =
      raised val prec * 10 ^ prec.toNat - (⌊raised val prec⌋₊ * 10 ^ prec.toNat : ℕ) := by
    push_cast
    ring
  rw [split,Nat.floor_sub_natCast,raised_rounded,floor_raised,Nat.mod_eq_sub_div_mul]

theorem truncated {x : ℚ} (positive : 0 ≤ x) : (if x < 0 then ⌈x⌉ else ⌊x⌋) = (⌊x⌋₊ : ℤ) := by
  rw [if_neg (not_lt.mpr positive),Int.natCast_floor_eq_floor positive]

theorem intPart_exact (word : raised val prec < 4294967296) : intPart (exact u i) val prec = .ofNat 32 ⌊raised val prec⌋₊ := by
  have positive := raised_nonneg val prec
  rw [intPart,magnitude_exact,rounding_exact]
  change (exact u i).toUnsignedLong (raised val prec) = _
  rw [exact]
  dsimp only
  rw [if_pos ⟨by linarith,word⟩,truncated positive,BitVec.ofInt_natCast]

theorem floor_word {x : ℚ} (word : x < 4294967296) : ⌊x⌋₊ < 4294967296 :=
  (Nat.floor_lt' (by decide)).mpr (by exact_mod_cast word)

theorem decPart_exact (word : raised val prec < 4294967296) (few : prec ≤ 9) :
    decPart (exact u i) val prec = .ofNat 32 (rounded val prec % 10 ^ prec.toNat) := by
  have positive := raised_nonneg val prec
  have below : (⌊raised val prec⌋₊ : ℚ) ≤ raised val prec := Nat.floor_le positive
  have above : raised val prec < ⌊raised val prec⌋₊ + 1 := Nat.lt_floor_add_one _
  have power : (10 : ℚ) ^ prec.toNat ≤ 10 ^ 9 := by
    exact_mod_cast Nat.pow_le_pow_right (by decide) (UInt8.le_iff_toNat_le.mp few)
  have least : 0 ≤ (raised val prec - ⌊raised val prec⌋₊) * 10 ^ prec.toNat := by
    have rest : 0 ≤ raised val prec - ⌊raised val prec⌋₊ := by linarith
    positivity
  have most : (raised val prec - ⌊raised val prec⌋₊) * 10 ^ prec.toNat < 2147483648 := by
    have rest : raised val prec - ⌊raised val prec⌋₊ ≤ 1 := by linarith
    have scaled := mul_le_mul rest power (by positivity) (by norm_num)
    linarith
  rw [decPart,intPart_exact word,magnitude_exact,rounding_exact,decade_exact]
  have value : (exact u i).ofUnsignedLong (.ofNat 32 ⌊raised val prec⌋₊) = ⌊raised val prec⌋₊ := by
    rw [exact]
    dsimp only
    rw [BitVec.toNat_ofNat,Nat.mod_eq_of_lt (floor_word word)]
  rw [value]
  change (exact u i).toInt ((raised val prec - ⌊raised val prec⌋₊) * 10 ^ prec.toNat) = _
  rw [exact]
  dsimp only
  rw [if_pos ⟨by linarith,most⟩,truncated least,BitVec.ofInt_natCast,floor_decimals]

theorem decimal_small {n : Nat} (small : n < 2147483648) : decimal (.ofNat 32 n) = numeralText 10 n := by
  have value : (BitVec.ofNat 32 n).toInt = n := by
    rw [BitVec.toInt_ofNat',Int.bmod_def]
    omega
  rw [decimal_eq,value,if_neg (by omega)]
  rfl

/-- A number with the highest bit is printed with a sign. -/
theorem decimal_large {n : Nat} (large : 2147483648 ≤ n) (word : n < 4294967296) :
    ∃ digits, decimal (.ofNat 32 n) = 45 :: digits := by
  have value : (BitVec.ofNat 32 n).toInt < 0 := by
    rw [BitVec.toInt_ofNat',Int.bmod_def]
    omega
  rw [decimal_eq,if_pos value]
  exact ⟨_,rfl⟩

theorem padded_small {width n : Nat} (some_ : 0 < width) (few : width ≤ 9) (small : n < 10 ^ width) :
    padded width (.ofNat 32 n) = (low 10 width n).reverse.map digitChar := by
  have least : n < 10 ^ 9 := Nat.lt_of_lt_of_le small (Nat.pow_le_pow_right (by decide) few)
  have value : (BitVec.ofNat 32 n).toInt = n := by
    rw [BitVec.toInt_ofNat',Int.bmod_def]
    omega
  rw [padded,value,if_neg (by omega),low_numeral (by decide) some_ small,List.reverse_append,List.map_append,List.reverse_replicate,
    List.map_replicate]
  simp only [List.nil_append,List.length_nil,Nat.zero_add,numeralText,List.length_map,List.length_reverse]
  rfl

theorem printed_exact (small : raised val prec < 2147483648) (few : prec ≤ 9) :
    printed (exact u i) val prec = decimalText val prec := by
  have word : raised val prec < 4294967296 := by linarith
  have floor : ⌊raised val prec⌋₊ < 2147483648 := (Nat.floor_lt' (by decide)).mpr (by exact_mod_cast small)
  rw [printed,decimalText,intPart_exact word,decPart_exact word few,decimal_small floor,floor_raised]
  by_cases some_ : 0 < prec
  · rw [if_pos some_,if_pos some_,padded_small (UInt8.lt_iff_toNat_lt.mp some_) (UInt8.le_iff_toNat_le.mp few)
      (Nat.mod_lt _ (by positivity))]
    rfl
  · rw [if_neg some_,if_neg some_]
    rfl

theorem numeralText_digit (n : Nat) : ∃ d digits, numeralText 10 n = d :: digits ∧ d ≠ 45 ∧ d ≠ 32 := by
  have some_ : numeralText 10 n ≠ [] := by simp [numeralText,numeral]
  obtain ⟨d,digits,first⟩ := List.exists_cons_of_ne_nil some_
  obtain ⟨k,inside,rfl⟩ : ∃ k ∈ (numeral 10 n).reverse, digitChar k = d := by
    have member : d ∈ numeralText 10 n := first ▸ List.mem_cons_self
    exact List.mem_map.mp member
  have small := numeral_lt (by decide : 1 < 10) n k (List.mem_reverse.mp inside)
  refine ⟨_,digits,first,?_⟩
  rw [digitChar,if_pos small]
  interval_cases k <;> decide

/-- Behind the sign of a text in its field the next character is that of the text or a blank. -/
theorem field_signed {width : Int8} {sign : Bool} {c d : UInt8} {front back : List UInt8}
    (same : field width (signed sign (c :: front)) = signed sign (d :: back)) : d = c ∨ d = 32 := by
  rw [field] at same
  split at same
  · cases sign with
    | false => exact Or.inl (List.cons.inj same).1.symm
    | true => exact Or.inl (List.cons.inj (List.cons.inj same).2).1.symm
  · cases blanks : width.toInt.natAbs - (signed sign (c :: front)).length with
    | zero =>
      rw [blanks] at same
      cases sign with
      | false => exact Or.inl (List.cons.inj same).1.symm
      | true => exact Or.inl (List.cons.inj (List.cons.inj same).2).1.symm
    | succ blanks' =>
      rw [blanks,List.replicate_succ] at same
      cases sign with
      | false => exact Or.inr (List.cons.inj same).1.symm
      | true => exact absurd (List.cons.inj same).1 (by decide)

def Prints (a : Arithmetic ℚ) (val : ℚ) (width : Int8) (prec : UInt8) (sout : List UInt8) : Prop :=
  ∃ after, dtostrf a val width prec sout = some after ∧ Holds after (decimalText val prec)

theorem prints_small {width : Int8} {sout : List UInt8} (word : raised val prec < 4294967296)
    (prints : Prints (exact u i) val width prec sout) : raised val prec < 2147483648 := by
  obtain ⟨after,ran,holds⟩ := prints
  by_contra large
  have high : 2147483648 ≤ raised val prec := not_lt.mp large
  have floor : 2147483648 ≤ ⌊raised val prec⌋₊ := Nat.le_floor (by exact_mod_cast high)
  have inside := dtostrf_inside.mp (Option.isSome_of_eq_some ran)
  obtain ⟨same,again,shown⟩ := dtostrf_holds inside.1 inside.2
  obtain rfl := Option.some.inj (ran.symm.trans again)
  have equal := Option.some.inj (shown.text.symm.trans holds.text)
  obtain ⟨digits,minus⟩ := decimal_large floor (floor_word word)
  obtain ⟨d,rest,first,other,visible⟩ := numeralText_digit (rounded val prec / 10 ^ prec.toNat)
  rw [printed,decimalText,intPart_exact word,minus,first] at equal
  exact (field_signed equal).elim other visible

/-- The text is right exactly if the integer part of the rounded value has 31 bits. -/
theorem dtostrf_iff (u i : ℚ → BitVec 32) (val : ℚ) (width : Int8) (prec : UInt8) (sout : List UInt8) (few : prec ≤ 9)
    (word : |val| + 1 / 2 / 10 ^ prec.toNat < 4294967296) (narrow : width.toInt.natAbs ≤ (decimalText val prec).length)
    (room : (decimalText val prec).length < sout.length) :
    Prints (exact u i) val width prec sout ↔ |val| + 1 / 2 / 10 ^ prec.toNat < 2147483648 := by
  refine ⟨prints_small word,fun small => ?_⟩
  have text := printed_exact (u := u) (i := i) small few
  rw [← text] at room narrow
  obtain ⟨after,ran,holds⟩ := dtostrf_holds room (Nat.lt_of_le_of_lt narrow room)
  rw [field_wide narrow,text] at holds
  exact ⟨after,ran,holds⟩

theorem dtostrf_half : Prints (exact (fun _ => 0) (fun _ => 0)) (-5 / 2) 0 1 (List.replicate ((decimalText (-5 / 2) 1).length + 1) 0) ↔
    |(-5 / 2 : ℚ)| + 1 / 2 / 10 ^ (1 : UInt8).toNat < 2147483648 := by
  refine dtostrf_iff (fun _ => 0) (fun _ => 0) (-5 / 2) 0 1 _ (by decide) ?_ (Nat.zero_le _) ?_
  · rw [UInt8.toNat_one,abs_of_neg (by norm_num)]
    norm_num
  · rw [List.length_replicate]
    exact Nat.lt_succ_self _

/-- `dtostrf(3e9, 1, 0, buf)` prints a negative number. -/
theorem high_misprinted : ¬ Prints (exact (fun _ => 0) (fun _ => 0)) 3000000000 1 0 (List.replicate 33 0) := by
  have value : raised 3000000000 0 = 6000000001 / 2 := by
    rw [raised,UInt8.toNat_zero,abs_of_pos (by norm_num)]
    norm_num
  intro prints
  have small := prints_small (by rw [value]; norm_num) prints
  rw [value] at small
  exact absurd small (by norm_num)

/-- In the range of an `unsigned long`, `concat` prints two decimals, and its buffer suffices. -/
theorem concat_room {num : ℚ} (word : raised num 2 < 4294967296) : (Caller.concatDouble num).Room (exact u i) := by
  have places : rounded num 2 % 10 ^ (2 : UInt8).toNat < 100 := Nat.mod_lt _ (by decide)
  have front := (integerText_length (exact u i) num 2).2
  have decimals : (decimal (decPart (exact u i) num 2)).length ≤ 2 := by
    rw [decPart_exact word (by decide),decimal_small (Nat.lt_trans places (by decide))]
    exact numeralText_length (by decide) (by decide) places
  rw [Caller.Room]
  omega

theorem decimals_overrun :
    ¬ ((Caller.stringDouble (1 : ℚ) 31).fill (exact (fun _ => 0) (fun _ => 0)) (List.replicate 33 0)).isSome := by
  have least := (integerText_length (exact (fun _ => 0) (fun _ => 0)) (1 : ℚ) 31).1
  have outside := string_inside (exact (fun _ => 0) (fun _ => 0)) (1 : ℚ) 31 (List.replicate 33 0) List.length_replicate
  have places : (31 : UInt8).toNat = 31 := rfl
  rw [places] at outside
  exact fun inside => absurd (outside.mp inside) (by omega)

end Exact

end OpenPlc.Text.Dtostrf
