import OpenPlc.Streams.Print
import OpenPlc.Streams.Timed
import Mathlib.Tactic.IntervalCases

/-! `Stream::parseInt`, which reads back what `Print::print` writes in base 10. A `char`
is unsigned and a `long` is computed modulo 2^32. -/
namespace OpenPlc.Streams

inductive LookaheadMode
  | skipAll
  | skipNone
  | skipWhitespace

def isDigit (c : UInt8) : Bool := 48 ≤ c && c ≤ 57

/-- Whether `peekNextDigit` passes over a byte that is no part of a number. -/
def skips (lookahead : LookaheadMode) (c : UInt8) : Bool :=
  match lookahead with
  | .skipNone => false
  | .skipWhitespace => c == 32 || c == 9 || c == 13 || c == 10
  | .skipAll => true

theorem read_peek_fewer (timeout : UInt32) (ticks later : List Tick) (c : UInt8)
    (found : timedPeek timeout (read ticks).2 = (some c,later)) : later.length < ticks.length := by
  have bound (start : List Tick) (elapsed : UInt32) (rest : List Tick)
      (sees : pollPeek timeout elapsed start = (some c,rest)) : rest.length ≤ start.length := by
    rcases pollPeek_cases timeout elapsed start with ⟨value,onward,eq,_,_,fewer⟩ | ⟨onward,eq,_⟩
    · rw [sees] at eq
      cases eq
      simp only [List.length_cons]
      omega
    · rw [sees] at eq
      cases eq
  cases ticks with
  | nil => simp [read,timedPeek,pollPeek] at found
  | cons tick rest =>
    cases tick with
    | byte value =>
      have := bound rest 0 later found
      simp only [List.length_cons]
      omega
    | idle ms =>
      simp only [read,timedPeek,pollPeek] at found
      split at found
      · have := bound rest _ later found
        simp only [List.length_cons]
        omega
      · cases found

def peekNextDigit (timeout : UInt32) (lookahead : LookaheadMode) (detectDecimal : Bool) (ticks : List Tick) :
    Option UInt8 × List Tick :=
  match _ : timedPeek timeout ticks with
  | (none,rest) => (none,rest)
  | (some c,rest) =>
    if c = 45 ∨ isDigit c ∨ (detectDecimal ∧ c = 46) then (some c,rest)
    else if skips lookahead c then peekNextDigit timeout lookahead detectDecimal (read rest).2
    else (none,rest)
termination_by (bytes ticks).length
decreasing_by
  rename_i sees _ _
  rcases pollPeek_cases timeout 0 ticks with ⟨value,later,eq,_,all,_⟩ | ⟨later,eq,_⟩
  · rw [timedPeek,eq] at sees
    cases sees
    simp [read,all]
  · rw [timedPeek,eq] at sees
    cases sees

/-- The value and sign after one more character of the number. -/
def accumulate (ignore c : UInt8) (number : Bool × BitVec 32) : Bool × BitVec 32 :=
  if c = ignore then number
  else if c = 45 then (true,number.2)
  else if isDigit c then (number.1,number.2 * 10 + BitVec.ofNat 32 c.toNat - 48)
  else number

/-- The `do` loop of `parseInt`, entered with the character that was peeked. -/
def parseLoop (timeout : UInt32) (ignore c : UInt8) (number : Bool × BitVec 32) (ticks : List Tick) :
    (Bool × BitVec 32) × List Tick :=
  match _ : timedPeek timeout (read ticks).2 with
  | (some c',later) =>
    if isDigit c' ∨ c' = ignore then parseLoop timeout ignore c' (accumulate ignore c number) later
    else (accumulate ignore c number,later)
  | (none,later) => (accumulate ignore c number,later)
termination_by ticks.length
decreasing_by exact read_peek_fewer timeout ticks later c' ‹_›

def parseInt (timeout : UInt32) (lookahead : LookaheadMode) (ignore : UInt8) (ticks : List Tick) :
    BitVec 32 × List Tick :=
  match peekNextDigit timeout lookahead false ticks with
  | (none,rest) => (0,rest)
  | (some c,rest) =>
    let ((isNegative,value),rest) := parseLoop timeout ignore c (false,0) rest
    (if isNegative then -value else value,rest)

/-- A byte that a number may start with. -/
def Starts (detectDecimal : Bool) (c : UInt8) : Prop := c = 45 ∨ isDigit c ∨ (detectDecimal ∧ c = 46)

instance (detectDecimal : Bool) : DecidablePred (Starts detectDecimal) := fun _ => inferInstanceAs (Decidable (_ ∨ _))

theorem peekNextDigit_found (timeout : UInt32) (detectDecimal : Bool) (before : List UInt8) (c : UInt8) (after : List UInt8)
    (skipped : ∀ b ∈ before, ¬ Starts detectDecimal b) (number : Starts detectDecimal c) (ticks : List Tick)
    (hears : heard timeout 0 ticks = before ++ c :: after) :
    ∃ rest, peekNextDigit timeout .skipAll detectDecimal ticks = (some c,.byte c :: rest) ∧
      heard timeout 0 rest = after ∧ bytes ticks = before ++ c :: bytes rest := by
  induction before generalizing ticks with
  | nil =>
    rcases pollPeek_cases timeout 0 ticks with ⟨value,rest,found,next,all,_⟩ | ⟨rest,_,silent,_⟩
    · rw [hears] at next
      obtain ⟨rfl,same⟩ := List.cons.inj next
      refine ⟨rest,?_,same.symm,all⟩
      rw [peekNextDigit]
      split
      · rename_i later sees
        rw [timedPeek,found] at sees
        cases sees
      · rename_i value later sees
        rw [timedPeek,found] at sees
        cases sees
        exact if_pos number
    · simp [hears] at silent
  | cons b before ih =>
    rcases pollPeek_cases timeout 0 ticks with ⟨value,rest,found,next,all,_⟩ | ⟨rest,_,silent,_⟩
    · rw [hears] at next
      obtain ⟨rfl,same⟩ := List.cons.inj next
      have refused := skipped b (by simp)
      obtain ⟨later,peeks,onward,consumed⟩ := ih (fun b member => skipped b (by simp [member])) rest same.symm
      refine ⟨later,?_,onward,by rw [all,consumed]; rfl⟩
      rw [peekNextDigit]
      split
      · rename_i later sees
        rw [timedPeek,found] at sees
        cases sees
      · rename_i value later sees
        rw [timedPeek,found] at sees
        cases sees
        exact (if_neg refused).trans peeks
    · simp [hears] at silent

theorem parseLoop_digits (timeout : UInt32) (c : UInt8) (number : Bool × BitVec 32) (digits after : List UInt8)
    (numeric : ∀ d ∈ digits, isDigit d) (stops : ∀ b, after.head? = some b → ¬ isDigit b ∧ b ≠ 1) (rest : List Tick)
    (hears : heard timeout 0 rest = digits ++ after) :
    ∃ later, parseLoop timeout 1 c number (.byte c :: rest) =
        (digits.foldl (fun number d => accumulate 1 d number) (accumulate 1 c number),later) ∧
      bytes rest = digits ++ bytes later := by
  induction digits generalizing c number rest with
  | nil =>
    rcases pollPeek_cases timeout 0 rest with ⟨value,later,found,next,all,_⟩ | ⟨later,found,silent,all⟩
    · rw [hears,List.nil_append] at next
      obtain ⟨plain,other⟩ := stops value (by simp [next])
      refine ⟨.byte value :: later,?_,all⟩
      rw [parseLoop]
      split
      · rename_i c' more sees
        simp only [read,timedPeek,found] at sees
        cases sees
        rw [if_neg (not_or.mpr ⟨plain,other⟩)]
        rfl
      · rename_i more sees
        simp only [read,timedPeek,found] at sees
        cases sees
    · refine ⟨later,?_,all⟩
      rw [parseLoop]
      split
      · rename_i c' more sees
        simp only [read,timedPeek,found] at sees
        cases sees
      · rename_i more sees
        simp only [read,timedPeek,found] at sees
        cases sees
        rfl
  | cons d digits ih =>
    rcases pollPeek_cases timeout 0 rest with ⟨value,later,found,next,all,_⟩ | ⟨later,found,silent,_⟩
    · rw [hears] at next
      obtain ⟨rfl,same⟩ := List.cons.inj next
      obtain ⟨last,parsed,consumed⟩ := ih d (accumulate 1 c number) (fun d member => numeric d (by simp [member]))
        later same.symm
      refine ⟨last,?_,by rw [all,consumed]; rfl⟩
      rw [parseLoop]
      split
      · rename_i c' more sees
        simp only [read,timedPeek,found] at sees
        cases sees
        rw [if_pos (Or.inl (numeric d (by simp)))]
        exact parsed
      · rename_i more sees
        simp only [read,timedPeek,found] at sees
        cases sees
    · simp [hears] at silent

theorem isDigit_cases (c : UInt8) (digit : isDigit c) : c ≠ 1 ∧ c ≠ 45 := by
  constructor
  all_goals
    rintro rfl
    contradiction

theorem accumulate_digit (c : UInt8) (number : Bool × BitVec 32) (digit : isDigit c) :
    accumulate 1 c number = (number.1,number.2 * 10 + BitVec.ofNat 32 c.toNat - 48) := by
  obtain ⟨other,plain⟩ := isDigit_cases c digit
  simp only [accumulate,other,plain,digit,if_true,if_false]

theorem digitChar_decimal (c : Nat) (small : c < 10) :
    isDigit (Print.digitChar c) ∧ (Print.digitChar c).toNat = c + 48 := by
  interval_cases c <;> decide

theorem digitLoop_numeric (n : Nat) (str : List UInt8) (numeric : ∀ d ∈ str, isDigit d) :
    ∀ d ∈ Print.digitLoop (Print.toBase 10) n str, isDigit d := by
  induction n using Nat.strongRecOn generalizing str with
  | ind n ih =>
    have small : n - 10 * (n / 10) < 10 := by omega
    have longer : ∀ d ∈ Print.digitChar (n - 10 * (n / 10)) :: str, isDigit d := by
      intro d member
      rcases List.mem_cons.mp member with rfl | member
      · exact (digitChar_decimal _ small).1
      · exact numeric d member
    rw [Print.digitLoop]
    change ∀ d ∈ if n / 10 = 0 then Print.digitChar (n - 10 * (n / 10)) :: str
      else Print.digitLoop (Print.toBase 10) (n / 10) (Print.digitChar (n - 10 * (n / 10)) :: str), isDigit d
    split
    · exact longer
    · exact ih (n / 10) (by omega) _ longer

theorem digitLoop_value (n : Nat) (str : List UInt8) (negative : Bool) :
    (Print.digitLoop (Print.toBase 10) n str).foldl (fun number d => accumulate 1 d number) (negative,0) =
      str.foldl (fun number d => accumulate 1 d number) (negative,BitVec.ofNat 32 n) := by
  induction n using Nat.strongRecOn generalizing str with
  | ind n ih =>
    have small : n - 10 * (n / 10) < 10 := by omega
    obtain ⟨digit,code⟩ := digitChar_decimal _ small
    have appended : accumulate 1 (Print.digitChar (n - 10 * (n / 10))) (negative,BitVec.ofNat 32 (n / 10)) =
        (negative,BitVec.ofNat 32 n) := by
      rw [accumulate_digit _ _ digit,code]
      congr 1
      apply BitVec.eq_of_toNat_eq
      simp [BitVec.toNat_sub,BitVec.toNat_add,BitVec.toNat_mul]
      omega
    rw [Print.digitLoop]
    change List.foldl _ _ (if n / 10 = 0 then Print.digitChar (n - 10 * (n / 10)) :: str
      else Print.digitLoop (Print.toBase 10) (n / 10) (Print.digitChar (n - 10 * (n / 10)) :: str)) = _
    split
    · rename_i last
      rw [last] at appended
      rw [last,List.foldl_cons]
      exact congrArg (fun number => List.foldl _ number str) appended
    · rw [ih (n / 10) (by omega),List.foldl_cons,appended]

theorem digitLoop_ne_nil (base : Print.Base) (n : Nat) (str : List UInt8) : Print.digitLoop base n str ≠ [] := by
  induction n using Nat.strongRecOn generalizing str with
  | ind n ih =>
    rw [Print.digitLoop]
    split
    · exact List.cons_ne_nil _ _
    · rename_i more
      have := base.two_le
      exact ih _ (Nat.div_lt_self (Nat.pos_of_ne_zero fun zero => more (by simp [zero])) (by omega)) _

/-- The number that `parseInt` makes of what it heard. -/
def signed (number : Bool × BitVec 32) : BitVec 32 := if number.1 then -number.2 else number.2

theorem parseInt_text (timeout : UInt32) (before : List UInt8) (c : UInt8) (digits after : List UInt8)
    (skipped : ∀ b ∈ before, b ≠ 45 ∧ ¬ isDigit b) (number : c = 45 ∨ isDigit c) (numeric : ∀ d ∈ digits, isDigit d)
    (stops : ∀ b, after.head? = some b → ¬ isDigit b ∧ b ≠ 1) (ticks : List Tick)
    (hears : heard timeout 0 ticks = before ++ (c :: digits) ++ after) :
    ∃ rest, parseInt timeout .skipAll 1 ticks =
        (signed ((c :: digits).foldl (fun number d => accumulate 1 d number) (false,0)),rest) ∧
      bytes ticks = before ++ (c :: digits) ++ bytes rest := by
  have start (b : UInt8) : Starts false b ↔ b = 45 ∨ isDigit b := by
    rw [Starts]
    simp
  obtain ⟨later,peeks,onward,consumed⟩ := peekNextDigit_found timeout false before c (digits ++ after)
    (fun b member starts => ((start b).mp starts).elim (skipped b member).1 (skipped b member).2) ((start c).mpr number) ticks
    (by simpa using hears)
  obtain ⟨rest,parsed,taken⟩ := parseLoop_digits timeout c (false,0) digits after numeric stops later onward
  refine ⟨rest,?_,by rw [consumed,taken]; simp⟩
  simp only [parseInt,peeks,parsed]
  rfl

/-- What `print` writes in base 10 is read back by `parseInt`, which consumes it to its
last digit and nothing behind it. -/
theorem parseInt_print (timeout : UInt32) (n : BitVec 32) (before after : List UInt8) (ticks : List Tick)
    (skipped : ∀ b ∈ before, b ≠ 45 ∧ ¬ isDigit b) (stops : ∀ b, after.head? = some b → ¬ isDigit b ∧ b ≠ 1)
    (hears : heard timeout 0 ticks = before ++ Print.print n 10 ++ after) :
    ∃ rest, parseInt timeout .skipAll 1 ticks = (n,rest) ∧
      bytes ticks = before ++ Print.print n 10 ++ bytes rest := by
  simp only [Print.print,Print.printNumber,OfNat.ofNat_ne_zero,if_true,if_false] at hears ⊢
  by_cases negative : n.toInt < 0
  · simp only [negative,if_true] at hears ⊢
    have numeric := digitLoop_numeric (-n).toNat [] (by simp)
    obtain ⟨rest,parsed,consumed⟩ := parseInt_text timeout before 45 _ after skipped (Or.inl rfl) numeric stops ticks
      hears
    refine ⟨rest,?_,consumed⟩
    have value := digitLoop_value (-n).toNat [] true
    rw [parsed,List.foldl_cons,show accumulate 1 45 (false,0) = (true,0) from rfl,value,List.foldl_nil,
      BitVec.ofNat_toNat,BitVec.setWidth_eq]
    simp [signed]
  · simp only [negative,if_false] at hears ⊢
    have numeric := digitLoop_numeric n.toNat [] (by simp)
    have value := digitLoop_value n.toNat [] false
    cases text : Print.digitLoop (Print.toBase 10) n.toNat [] with
    | nil => exact absurd text (digitLoop_ne_nil _ _ _)
    | cons c digits =>
      rw [text] at hears numeric value
      obtain ⟨rest,parsed,consumed⟩ := parseInt_text timeout before c digits after skipped
        (Or.inr (numeric c (by simp))) (fun d member => numeric d (by simp [member])) stops ticks hears
      refine ⟨rest,?_,consumed⟩
      rw [parsed,value]
      simp [signed]

/-- `LONG_MIN` after a space, with a comma behind it. -/
theorem parseInt_print_min : ∃ rest, parseInt 1000 .skipAll 1 (Tick.byte 32 :: Tick.idle 1 ::
      ((Print.print 0x80000000#32 10).map Tick.byte ++ [.byte 44])) = (0x80000000#32,rest) ∧
    bytes (Tick.byte 32 :: Tick.idle 1 :: ((Print.print 0x80000000#32 10).map Tick.byte ++ [.byte 44])) =
      [32] ++ Print.print 0x80000000#32 10 ++ bytes rest := by
  refine parseInt_print 1000 0x80000000#32 [32] [44] _ ?_ ?_ ?_
  · intro b member
    cases List.mem_singleton.mp member
    decide
  · intro b head
    cases head
    decide
  · have text : Print.print 0x80000000#32 10 = [45,50,49,52,55,52,56,51,54,52,56] := by
      simp [Print.print,Print.printNumber,Print.digitLoop,Print.digitChar,Print.toBase]
    rw [text]
    decide

end OpenPlc.Streams
