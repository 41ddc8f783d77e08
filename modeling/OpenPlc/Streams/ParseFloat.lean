import OpenPlc.Lib.Digits
import OpenPlc.Streams.ParseInt
import Mathlib.Data.Rat.Floor
import Mathlib.Tactic.FieldSimp
import Mathlib.Tactic.Ring

/-! `Stream::parseFloat` with exact numbers for `float`. The digits on both sides of the
point go to one `long`, which is computed modulo 2^32. -/
namespace OpenPlc.Streams
open Digits

/-- What `parseFloat` keeps of the characters that it consumed. -/
structure Parsed where
  isNegative : Bool
  isFraction : Bool
  value : BitVec 32
  fraction : ℚ

def Parsed.start : Parsed := ⟨false,false,0,1⟩

/-- The branches on the character that was peeked. -/
def Parsed.take (ignore c : UInt8) (s : Parsed) : Parsed :=
  if c = ignore then s
  else if c = 45 then {s with isNegative := true}
  else if c = 46 then {s with isFraction := true}
  else if isDigit c then
    {s with value := s.value * 10 + BitVec.ofNat 32 c.toNat - 48,
            fraction := if s.isFraction then s.fraction * (1 / 10) else s.fraction}
  else s

def Parsed.goes (ignore c : UInt8) (s : Parsed) : Bool := isDigit c || (c == 46 && !s.isFraction) || c == ignore

/-- The `do` loop of `parseFloat`, entered with the character that was peeked. -/
def floatLoop (timeout : UInt32) (ignore c : UInt8) (s : Parsed) (ticks : List Tick) : Parsed × List Tick :=
  match _ : timedPeek timeout (read ticks).2 with
  | (some c',later) =>
    if (s.take ignore c).goes ignore c' then floatLoop timeout ignore c' (s.take ignore c) later else (s.take ignore c,later)
  | (none,later) => (s.take ignore c,later)
termination_by ticks.length
decreasing_by exact read_peek_fewer timeout ticks later c' ‹_›

/-- The number that `parseFloat` makes of what it consumed. -/
def Parsed.result (s : Parsed) : ℚ :=
  let value := if s.isNegative then -s.value else s.value
  if s.isFraction then value.toInt * s.fraction else value.toInt

def parseFloat (timeout : UInt32) (lookahead : LookaheadMode) (ignore : UInt8) (ticks : List Tick) : ℚ × List Tick :=
  match peekNextDigit timeout lookahead true ticks with
  | (none,rest) => (0,rest)
  | (some c,rest) =>
    let (s,rest) := floatLoop timeout ignore c .start rest
    (s.result,rest)

/-- A decimal numeral: digits, and a point with digits behind it or none. -/
structure Numeral where
  negative : Bool
  whole : List UInt8
  decimals : Option (List UInt8)
  whole_digits : ∀ d ∈ whole, isDigit d
  whole_some : whole ≠ []
  decimals_digits : ∀ ds ∈ decimals, (∀ d ∈ ds, isDigit d) ∧ ds ≠ []

namespace Numeral

def text (n : Numeral) : List UInt8 :=
  (if n.negative then [45] else []) ++ n.whole ++ (n.decimals.map (46 :: ·)).getD []

def digits (n : Numeral) : List UInt8 := n.whole ++ n.decimals.getD []

def magnitude (n : Numeral) : ℚ := number 0 n.whole + number 0 (n.decimals.getD []) / 10 ^ (n.decimals.getD []).length

def value (n : Numeral) : ℚ := if n.negative then -n.magnitude else n.magnitude

end Numeral

section Loop
variable {timeout : UInt32} {s : Parsed} {text after : List UInt8} {rest : List Tick}

/-- Every character continues the loop in the state that it meets. -/
def Continues (s : Parsed) : List UInt8 → Prop
  | [] => True
  | c :: text => s.goes 1 c = true ∧ Continues (s.take 1 c) text

theorem continues_append (s : Parsed) (front back : List UInt8) :
    Continues s (front ++ back) ↔ Continues s front ∧ Continues (front.foldl (fun s c => s.take 1 c) s) back := by
  induction front generalizing s with
  | nil => exact (iff_of_eq (true_and _)).symm
  | cons c front ih =>
    rw [List.cons_append,Continues,Continues,ih,and_assoc]
    rfl

theorem floatLoop_some (c : UInt8) {c' : UInt8} {later : List Tick} (sees : timedPeek timeout rest = (some c',later)) :
    floatLoop timeout 1 c s (.byte c :: rest) =
      if (s.take 1 c).goes 1 c' then floatLoop timeout 1 c' (s.take 1 c) later else (s.take 1 c,later) := by
  rw [floatLoop]
  split
  · rename_i found
    cases sees.symm.trans found
    rfl
  · rename_i found
    cases sees.symm.trans found

theorem floatLoop_none (c : UInt8) {later : List Tick} (sees : timedPeek timeout rest = (none,later)) :
    floatLoop timeout 1 c s (.byte c :: rest) = (s.take 1 c,later) := by
  rw [floatLoop]
  split
  · rename_i found
    cases sees.symm.trans found
  · rename_i found
    cases sees.symm.trans found
    rfl

theorem floatLoop_text (c : UInt8) (continues : Continues (s.take 1 c) text)
    (stops : ∀ b, after.head? = some b → ¬ isDigit b ∧ b ≠ 46 ∧ b ≠ 1) (hears : heard timeout 0 rest = text ++ after) :
    ∃ later, floatLoop timeout 1 c s (.byte c :: rest) = (text.foldl (fun s c => s.take 1 c) (s.take 1 c),later) ∧
      bytes rest = text ++ bytes later := by
  induction text generalizing c s rest with
  | nil =>
    rcases pollPeek_cases timeout 0 rest with ⟨value,later,found,next,all,_⟩ | ⟨later,found,_,all⟩
    · rw [hears,List.nil_append] at next
      obtain ⟨plain,point,other⟩ := stops value (by rw [next]; rfl)
      have ends : ¬ (s.take 1 c).goes 1 value = true := by simp [Parsed.goes,plain,point,other]
      exact ⟨_,(floatLoop_some c found).trans (if_neg ends),all⟩
    · exact ⟨later,floatLoop_none c found,all⟩
  | cons d text ih =>
    rcases pollPeek_cases timeout 0 rest with ⟨value,later,found,next,all,_⟩ | ⟨later,found,silent,_⟩
    · rw [hears] at next
      obtain ⟨rfl,same⟩ := List.cons.inj next
      obtain ⟨last,parsed,consumed⟩ := ih d continues.2 same.symm
      exact ⟨last,((floatLoop_some c found).trans (if_pos continues.1)).trans parsed,by rw [all,consumed]; rfl⟩
    · rw [hears] at silent
      contradiction

end Loop

section Numerals
variable {s : Parsed}

theorem take_digit {c : UInt8} (digit : isDigit c) (s : Parsed) : s.take 1 c =
    {s with value := s.value * 10 + BitVec.ofNat 32 c.toNat - 48,
            fraction := if s.isFraction then s.fraction * (1 / 10) else s.fraction} := by
  obtain ⟨other,plain⟩ := isDigit_cases c digit
  have point : c ≠ 46 := by
    rintro rfl
    contradiction
  rw [Parsed.take,if_neg other,if_neg plain,if_neg point,if_pos digit]

theorem digit_appended {c : UInt8} (digit : isDigit c) (n : Nat) :
    BitVec.ofNat 32 n * 10 + BitVec.ofNat 32 c.toNat - 48 = BitVec.ofNat 32 (n * 10 + (c.toNat - 48)) := by
  have least : 48 ≤ c.toNat := UInt8.le_iff_toNat_le.mp (of_decide_eq_true (Bool.and_eq_true_iff.mp digit).1)
  apply BitVec.eq_of_toNat_eq
  simp [BitVec.toNat_sub,BitVec.toNat_add,BitVec.toNat_mul]
  omega

/-- Digits continue the loop; they continue the number, and scale it if they are decimals. -/
theorem digits_taken (ds : List UInt8) (numeric : ∀ d ∈ ds, isDigit d) (n : Nat) (value : s.value = BitVec.ofNat 32 n) :
    Continues s ds ∧ ds.foldl (fun s c => s.take 1 c) s =
      {s with value := BitVec.ofNat 32 (number n ds),
              fraction := if s.isFraction then s.fraction * (1 / 10) ^ ds.length else s.fraction} := by
  induction ds generalizing s n with
  | nil =>
    refine ⟨trivial,?_⟩
    rw [List.foldl_nil,List.length_nil,pow_zero,mul_one,ite_self]
    exact congrArg (fun value => {s with value := value}) value
  | cons d ds ih =>
    obtain ⟨digit,later⟩ := List.forall_mem_cons.mp numeric
    have taken := take_digit digit s
    rw [value,digit_appended digit] at taken
    obtain ⟨continues,whole⟩ := @ih (s.take 1 d) later _ (by rw [taken])
    refine ⟨⟨by simp [Parsed.goes,digit],continues⟩,?_⟩
    rw [List.foldl_cons,whole,taken,number_cons]
    dsimp only
    congr 1
    split
    · rw [List.length_cons,pow_succ']
      ring
    · rfl

/-- The state in which a numeral begins, after its sign. -/
def Parsed.signed (negative : Bool) : Parsed := {Parsed.start with isNegative := negative}

/-- What the loop makes of a whole numeral behind its sign. -/
def Numeral.parsed (n : Numeral) : Parsed :=
  ⟨n.negative,n.decimals.isSome,BitVec.ofNat 32 (number 0 n.digits),(1 / 10) ^ (n.decimals.getD []).length⟩

theorem numeral_taken (n : Numeral) : Continues (.signed n.negative) (n.whole ++ (n.decimals.map (46 :: ·)).getD []) ∧
    (n.whole ++ (n.decimals.map (46 :: ·)).getD []).foldl (fun s c => s.take 1 c) (.signed n.negative) = n.parsed := by
  obtain ⟨continues,whole⟩ := digits_taken (s := .signed n.negative) n.whole n.whole_digits 0 rfl
  rw [continues_append,List.foldl_append,whole,Numeral.parsed,Numeral.digits]
  cases present : n.decimals with
  | none =>
    refine ⟨⟨continues,trivial⟩,?_⟩
    simp [Parsed.signed,Parsed.start]
  | some ds =>
    have point (s : Parsed) : s.take 1 46 = {s with isFraction := true} := rfl
    obtain ⟨onward,decimals⟩ := digits_taken
      (s := {Parsed.signed n.negative with value := BitVec.ofNat 32 (number 0 n.whole), isFraction := true})
      ds (n.decimals_digits ds present).1 _ rfl
    refine ⟨⟨continues,rfl,onward⟩,?_⟩
    change List.foldl _ (Parsed.take 1 46 _) ds = _
    rw [point]
    refine decimals.trans ?_
    rw [Option.getD_some,number_append]
    dsimp only
    rw [if_pos rfl]
    congr 1
    exact one_mul _

theorem parseFloat_numeral (timeout : UInt32) (n : Numeral) (before after : List UInt8) (ticks : List Tick)
    (skipped : ∀ b ∈ before, ¬ Starts true b) (stops : ∀ b, after.head? = some b → ¬ isDigit b ∧ b ≠ 46 ∧ b ≠ 1)
    (hears : heard timeout 0 ticks = before ++ n.text ++ after) :
    ∃ rest, parseFloat timeout .skipAll 1 ticks = (n.parsed.result,rest) ∧ bytes ticks = before ++ n.text ++ bytes rest := by
  have run (c : UInt8) (text : List UInt8) (starts : Starts true c) (written : n.text = c :: text)
      (continues : Continues (Parsed.start.take 1 c) text)
      (parsed : text.foldl (fun s c => s.take 1 c) (Parsed.start.take 1 c) = n.parsed) :
      ∃ rest, parseFloat timeout .skipAll 1 ticks = (n.parsed.result,rest) ∧ bytes ticks = before ++ n.text ++ bytes rest := by
    rw [written,List.append_assoc,List.cons_append] at hears
    obtain ⟨later,peeks,onward,consumed⟩ := peekNextDigit_found timeout true before c (text ++ after) skipped starts ticks hears
    obtain ⟨rest,looped,taken⟩ := floatLoop_text (s := .start) c continues stops onward
    refine ⟨rest,?_,by rw [consumed,taken,written,List.append_assoc]; rfl⟩
    rw [parseFloat,peeks]
    dsimp only
    rw [looped,parsed]
  obtain ⟨continues,parsed⟩ := numeral_taken n
  cases sign : n.negative with
  | true =>
    rw [sign] at continues parsed
    refine run 45 _ (Or.inl rfl) ?_ continues parsed
    rw [Numeral.text,sign,if_pos rfl,List.append_assoc]
    rfl
  | false =>
    rw [sign] at continues parsed
    obtain ⟨d,ds,first⟩ := List.exists_cons_of_ne_nil n.whole_some
    rw [first,List.cons_append] at continues parsed
    refine run d _ (Or.inr (Or.inl (n.whole_digits d (first ▸ List.mem_cons_self)))) ?_ continues.2 parsed
    rw [Numeral.text,sign,first]
    rfl

/-- The signed number that the digits form without the point. -/
def Numeral.unscaled (n : Numeral) : ℤ := if n.negative then -number 0 n.digits else number 0 n.digits

theorem value_unscaled (n : Numeral) : n.value = n.unscaled * (1 / 10) ^ (n.decimals.getD []).length := by
  have magnitude : n.magnitude = number 0 n.digits * (1 / 10) ^ (n.decimals.getD []).length := by
    rw [Numeral.magnitude,Numeral.digits,number_append,number_eq (number 0 n.whole)]
    rw [one_div_pow]
    push_cast
    field_simp
  rw [Numeral.value,Numeral.unscaled,magnitude]
  split
  · push_cast
    ring
  · push_cast
    ring

theorem result_unscaled (n : Numeral) :
    n.parsed.result = (BitVec.ofInt 32 n.unscaled).toInt * (1 / 10) ^ (n.decimals.getD []).length := by
  have value : (if n.negative then -BitVec.ofNat 32 (number 0 n.digits) else BitVec.ofNat 32 (number 0 n.digits)) =
      BitVec.ofInt 32 n.unscaled := by
    rw [Numeral.unscaled]
    split
    · rw [BitVec.ofInt_neg,BitVec.ofInt_natCast]
    · rw [BitVec.ofInt_natCast]
  rw [Parsed.result,Numeral.parsed]
  dsimp only
  rw [value]
  cases n.decimals with
  | none =>
    rw [Option.isSome_none,if_neg Bool.false_ne_true,Option.getD_none,List.length_nil,pow_zero,mul_one]
  | some ds => rfl

theorem long_iff (i : ℤ) : (BitVec.ofInt 32 i).toInt = i ↔ -2147483648 ≤ i ∧ i < 2147483648 := by
  rw [BitVec.toInt_ofInt,Int.bmod_def]
  omega

/-- Exactly the numeral's value is returned, and exactly the numeral is consumed. -/
def Parses (timeout : UInt32) (n : Numeral) (before : List UInt8) (ticks : List Tick) : Prop :=
  ∃ rest, parseFloat timeout .skipAll 1 ticks = (n.value,rest) ∧ bytes ticks = before ++ n.text ++ bytes rest

/-- The value is right exactly if the digits without the point form a `long`. -/
theorem parseFloat_iff (timeout : UInt32) (n : Numeral) (before after : List UInt8) (ticks : List Tick)
    (skipped : ∀ b ∈ before, ¬ Starts true b) (stops : ∀ b, after.head? = some b → ¬ isDigit b ∧ b ≠ 46 ∧ b ≠ 1)
    (hears : heard timeout 0 ticks = before ++ n.text ++ after) :
    Parses timeout n before ticks ↔ -2147483648 ≤ n.unscaled ∧ n.unscaled < 2147483648 := by
  obtain ⟨rest,parsed,consumed⟩ := parseFloat_numeral timeout n before after ticks skipped stops hears
  have scale : ((1 : ℚ) / 10) ^ (n.decimals.getD []).length ≠ 0 := by positivity
  have exact_ : n.parsed.result = n.value ↔ (BitVec.ofInt 32 n.unscaled).toInt = n.unscaled := by
    rw [result_unscaled,value_unscaled,mul_left_inj' scale,Int.cast_inj]
  rw [← long_iff,← exact_]
  constructor
  · rintro ⟨later,ran,_⟩
    rw [parsed] at ran
    exact congrArg Prod.fst ran
  · intro value
    exact ⟨rest,by rw [parsed,value],consumed⟩

/-- `-12.5` behind a space and in front of a comma. -/
def minusTwelve : Numeral := ⟨true,[49,50],some [53],by simp [isDigit],by simp,by simp [isDigit]⟩

theorem parseFloat_minusTwelve :
    Parses 1000 minusTwelve [32] [.byte 32,.byte 45,.idle 5,.byte 49,.byte 50,.byte 46,.byte 53,.byte 44] ↔
      -2147483648 ≤ minusTwelve.unscaled ∧ minusTwelve.unscaled < 2147483648 :=
  parseFloat_iff 1000 minusTwelve [32] [44] _ (by simp [Starts,isDigit]) (by rintro b ⟨⟩; decide) (by decide)

def threeLong : Numeral := ⟨false,[51],some (List.replicate 9 48),by simp [isDigit],by simp,by simp [isDigit]⟩

/-- The digits of `3.000000000` leave the range of a `long`. -/
theorem three_wraps : ¬ Parses 1000 threeLong [] (threeLong.text.map .byte) := by
  rintro ⟨later,ran,_⟩
  obtain ⟨rest,parsed,_⟩ := parseFloat_numeral 1000 threeLong [] [] (threeLong.text.map .byte)
    (by simp) (by rintro b ⟨⟩) (by decide)
  rw [parsed] at ran
  have same := congrArg Prod.fst ran
  rw [result_unscaled,value_unscaled,mul_left_inj' (by positivity),Int.cast_inj] at same
  exact absurd same (by decide)

end Numerals

end OpenPlc.Streams
