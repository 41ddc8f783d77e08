import OpenPlc.Lib.CString
import OpenPlc.Lib.Digits
import OpenPlc.Lib.While

/-! Numbers as text (`itoa.c`), and the local buffers of `WString.cpp` that it goes to. A `long` has 32 bits. -/
namespace OpenPlc.Text.Itoa
open CString While Digits

/-- What a conversion returns: null, or the string that was given, with what is in it. -/
inductive Ret where
  | null
  | string (block : List UInt8)

def digitChar (i : Nat) : UInt8 := if i < 10 then .ofNat (i + 48) else .ofNat (i + 97 - 10)

/-- The digits that are left and those in `tmp`, with the place of `tp`. -/
structure Tmp where
  v : Nat
  tmp : List UInt8
  tp : Nat

/-- A round of `while (v || tp == tmp)` -/
def digitStep (radix : Nat) (s : Tmp) : Option Tmp :=
  (put s.tmp s.tp [digitChar (s.v % radix)]).map fun tmp => ⟨s.v / radix,tmp,s.tp + 1⟩

/-- `while (tp > tmp) *sp++ = *--tp;` -/
def copyDown (tmp : List UInt8) : Nat → List UInt8 → Nat → Option (List UInt8 × Nat)
  | 0,string,sp => some (string,sp)
  | tp + 1,string,sp => do
    let c ← tmp[tp]?
    let string ← put string sp [c]
    copyDown tmp tp string (sp + 1)

/-- `if (sign) *sp++ = '-';` -/
def putSign (sign : Bool) (string : List UInt8) : Option (List UInt8) := if sign then put string 0 [45] else some string

/-- What `ltoa` and `ultoa` share. It has no result if a write is outside of `tmp` or of the string. -/
def convert (fuel : Nat) (sign : Bool) (v : Nat) (string : Option (List UInt8)) (radix : Int) : Option Ret :=
  match string with
  | none => some .null
  | some string =>
    if 36 < radix ∨ radix ≤ 1 then some .null
    else do
      let s ← loop (fun s => s.v ≠ 0 ∨ s.tp = 0) (digitStep radix.toNat) fuel ⟨v,List.replicate 33 0,0⟩
      let string ← putSign sign string
      let (string,sp) ← copyDown s.tmp s.tp string (if sign then 1 else 0)
      let string ← put string sp [0]
      return .string string

def ltoa (fuel : Nat) (value : BitVec 32) (string : Option (List UInt8)) (radix : Int) : Option Ret :=
  let sign := radix = 10 ∧ value.toInt < 0
  convert fuel sign (if sign then (-value).toNat else value.toNat) string radix

def ultoa (fuel : Nat) (value : BitVec 32) (string : Option (List UInt8)) (radix : Int) : Option Ret :=
  convert fuel false value.toNat string radix

def itoa (fuel : Nat) (value : BitVec 32) (string : Option (List UInt8)) (radix : Int) : Option Ret :=
  ltoa fuel value string radix

def utoa (fuel : Nat) (value : BitVec 32) (string : Option (List UInt8)) (radix : Int) : Option Ret :=
  ultoa fuel value string radix

/-- The constructors of `String` from an integer, and the overloads of `concat`. -/
inductive Caller where
  | stringUnsignedChar (value : BitVec 8) (base : UInt8)
  | stringInt (value : BitVec 32) (base : UInt8)
  | stringUnsignedInt (value : BitVec 32) (base : UInt8)
  | stringLong (value : BitVec 32) (base : UInt8)
  | stringUnsignedLong (value : BitVec 32) (base : UInt8)
  | concatUnsignedChar (num : BitVec 8)
  | concatInt (num : BitVec 32)
  | concatUnsignedInt (num : BitVec 32)
  | concatLong (num : BitVec 32)
  | concatUnsignedLong (num : BitVec 32)

def Caller.size : Caller → Nat
  | .stringUnsignedChar .. => 1 + 8 * 1
  | .stringInt .. => 2 + 8 * 4
  | .stringUnsignedInt .. => 1 + 8 * 4
  | .stringLong .. => 2 + 8 * 4
  | .stringUnsignedLong .. => 1 + 8 * 4
  | .concatUnsignedChar .. => 1 + 3 * 1
  | .concatInt .. => 2 + 3 * 4
  | .concatUnsignedInt .. => 1 + 3 * 4
  | .concatLong .. => 2 + 3 * 4
  | .concatUnsignedLong .. => 1 + 3 * 4

def Caller.fill (fuel : Nat) (buf : List UInt8) : Caller → Option Ret
  | .stringUnsignedChar value base => utoa fuel (value.setWidth 32) (some buf) base.toNat
  | .stringInt value base => itoa fuel value (some buf) base.toNat
  | .stringUnsignedInt value base => utoa fuel value (some buf) base.toNat
  | .stringLong value base => ltoa fuel value (some buf) base.toNat
  | .stringUnsignedLong value base => ultoa fuel value (some buf) base.toNat
  | .concatUnsignedChar num => itoa fuel (num.setWidth 32) (some buf) 10
  | .concatInt num => itoa fuel num (some buf) 10
  | .concatUnsignedInt num => utoa fuel num (some buf) 10
  | .concatLong num => ltoa fuel num (some buf) 10
  | .concatUnsignedLong num => ultoa fuel num (some buf) 10

/-- A digit string of this value without a zero in front. -/
structure Numeral (radix v : Nat) (text : List UInt8) : Prop where
  digits : ∃ ds : List Nat, text = ds.map digitChar ∧ (∀ d ∈ ds, d < radix) ∧ Nat.ofDigits radix ds.reverse = v
  some_ : text ≠ []
  first : 1 < text.length → text.head? ≠ some (digitChar 0)

def numeralText (radix v : Nat) : List UInt8 := (numeral radix v).reverse.map digitChar

section Numerals
variable {radix v : Nat}

theorem digitChar_zero {d : Nat} (small : d < 36) (zero : digitChar d = digitChar 0) : d = 0 := by
  have values := congrArg UInt8.toNat zero
  rw [digitChar,digitChar] at values
  split at values
  · rw [UInt8.toNat_ofNat',if_pos (by decide),UInt8.toNat_ofNat'] at values
    omega
  · rw [UInt8.toNat_ofNat',if_pos (by decide),UInt8.toNat_ofNat'] at values
    omega

theorem digitChar_some {d : Nat} (small : d < 36) : digitChar d ≠ 0 := by
  intro zero
  have values := congrArg UInt8.toNat zero
  rw [digitChar] at values
  split at values <;>
    · rw [UInt8.toNat_ofNat'] at values
      change _ % 256 = 0 at values
      omega

theorem numeralText_numeral (valid : 1 < radix) (most : radix ≤ 36) (v : Nat) : Numeral radix v (numeralText radix v) := by
  have bound := numeral_lt valid v
  refine ⟨⟨(numeral radix v).reverse,rfl,?_,?_⟩,?_,?_⟩
  · intro d member
    exact bound d (List.mem_reverse.mp member)
  · rw [List.reverse_reverse,numeral_value]
  · simp [numeralText,numeral]
  · intro long
    rw [numeralText,List.length_map,List.length_reverse] at long
    have last := numeral_last valid v long
    have nonempty : numeral radix v ≠ [] := List.cons_ne_nil _ _
    rw [numeralText,List.head?_map,List.head?_reverse,List.getLast?_eq_some_getLast nonempty]
    intro zero
    refine last (digitChar_zero ?_ (Option.some.inj zero))
    exact Nat.lt_of_lt_of_le (bound _ (List.getLast_mem _)) most

theorem Numeral.unique {text : List UInt8} (valid : 1 < radix) (num : Numeral radix v text) : text = numeralText radix v := by
  obtain ⟨ds,rfl,bound,value⟩ := num.digits
  have nonempty : ds.reverse ≠ [] := by
    intro empty
    exact num.some_ (by rw [List.reverse_eq_nil_iff.mp empty,List.map_nil])
  have same := numeral_unique valid (fun d member => bound d (List.mem_reverse.mp member)) value nonempty ?_
  · rw [numeralText,← same,List.reverse_reverse]
  · intro long zero
    refine num.first (by rwa [List.length_map,← List.length_reverse]) ?_
    rw [List.head?_map,← List.getLast?_reverse,List.getLast?_eq_some_getLast nonempty,zero]
    rfl

theorem numeralText_length (valid : 1 < radix) {count : Nat} (some_ : 0 < count) (fits : v < radix ^ count) :
    (numeralText radix v).length ≤ count := by
  rw [numeralText,List.length_map,List.length_reverse]
  exact numeral_length_le valid some_ fits

theorem numeralText_free (valid : 1 < radix) (most : radix ≤ 36) (v : Nat) : 0 ∉ numeralText radix v := by
  intro member
  obtain ⟨d,inside,zero⟩ := List.mem_map.mp member
  have bound := numeral_lt valid v d (List.mem_reverse.mp inside)
  exact digitChar_some (Nat.lt_of_lt_of_le bound most) zero

end Numerals

structure Holding (s : Tmp) (ds : List Nat) : Prop where
  tp : s.tp = ds.length
  size : s.tmp.length = 33
  cells : s.tmp.take ds.length = ds.map digitChar

section Loop
variable {radix : Nat}

theorem word_length (valid : 1 < radix) {v : Nat} (word : v < 2 ^ 32) : (numeral radix v).length ≤ 32 :=
  numeral_length_le valid (by decide) (Nat.lt_of_lt_of_le word (Nat.pow_le_pow_left valid 32))

theorem digitStep_holding (radix : Nat) {s : Tmp} {ds : List Nat} (holding : Holding s ds) (room : ds.length < 33) :
    ∃ next, digitStep radix s = some next ∧ next.v = s.v / radix ∧ Holding next (ds ++ [s.v % radix]) := by
  have fits : s.tp + [digitChar (s.v % radix)].length ≤ s.tmp.length := by
    rw [holding.tp,holding.size]
    exact room
  obtain ⟨tmp,written,front,-,size⟩ := put_spec s.tmp s.tp [digitChar (s.v % radix)] fits
  refine ⟨⟨s.v / radix,tmp,s.tp + 1⟩,by rw [digitStep,written]; rfl,rfl,?_,size.trans holding.size,?_⟩
  · rw [List.length_append,holding.tp]
    rfl
  · rw [holding.tp,holding.cells] at front
    rw [List.length_append,List.map_append]
    exact front

/-- After the first round the digits in `tmp` and those that are left are those of the number. -/
def Left (radix v : Nat) (s : Tmp) : Prop :=
  0 < s.tp ∧ ∃ ds, Holding s ds ∧ numeral radix v = ds ++ radix.digits s.v

theorem digitStep_round (valid : 1 < radix) {v : Nat} (word : v < 2 ^ 32) (s : Tmp) (inv : Left radix v s)
    (goes : decide (s.v ≠ 0 ∨ s.tp = 0) = true) :
    ∃ next, digitStep radix s = some next ∧ Left radix v next ∧ (radix.digits next.v).length < (radix.digits s.v).length := by
  obtain ⟨started,ds,holding,digits⟩ := inv
  have some_ : s.v ≠ 0 := (of_decide_eq_true goes).resolve_right (Nat.ne_of_gt started)
  have split := Nat.digits_def' valid (Nat.pos_of_ne_zero some_)
  have most := word_length valid word
  have room : ds.length < 33 := by
    rw [digits,List.length_append] at most
    omega
  obtain ⟨next,ran,rest,after⟩ := digitStep_holding radix holding room
  refine ⟨next,ran,⟨?_,ds ++ [s.v % radix],after,?_⟩,?_⟩
  · rw [after.tp]
    simp
  · rw [digits,split,rest,List.append_assoc]
    rfl
  · rw [rest,split]
    exact Nat.lt_succ_self _

theorem digits_holding (valid : 1 < radix) {v fuel : Nat} (word : v < 2 ^ 32) (enough : 33 < fuel) :
    ∃ s, loop (fun s => s.v ≠ 0 ∨ s.tp = 0) (digitStep radix) fuel ⟨v,List.replicate 33 0,0⟩ = some s ∧
      Holding s (numeral radix v) := by
  obtain ⟨fuel,rfl⟩ := Nat.exists_eq_add_one_of_ne_zero (Nat.ne_of_gt (Nat.zero_lt_of_lt enough))
  obtain ⟨first,ran,rest,holding⟩ := digitStep_holding radix
    (⟨rfl,rfl,rfl⟩ : Holding ⟨v,List.replicate 33 0,0⟩ []) (by decide)
  have most := word_length valid word
  have start : Left radix v first := by
    refine ⟨?_,[v % radix],holding,?_⟩
    · rw [holding.tp]
      exact Nat.zero_lt_one
    · rw [rest]
      rfl
  have fewer : (radix.digits first.v).length < fuel := by
    rw [numeral,List.length_cons,← rest] at most
    omega
  obtain ⟨last,ends,⟨-,ds,kept,digits⟩,stops⟩ := loop_rule (Left radix v) (fun s => (radix.digits s.v).length)
    (digitStep_round valid word) fuel first start fewer
  have nothing : last.v = 0 := not_not.mp (not_or.mp (of_decide_eq_false stops)).1
  rw [nothing,Nat.digits_zero,List.append_nil] at digits
  refine ⟨last,?_,digits ▸ kept⟩
  rw [loop,if_pos (by simp),ran,Option.bind_some]
  exact ends

theorem copyDown_spec (tmp : List UInt8) (tp : Nat) (string : List UInt8) (sp : Nat) (inside : tp ≤ tmp.length)
    (fits : sp + tp ≤ string.length) :
    ∃ after, copyDown tmp tp string sp = some (after,sp + tp) ∧
      after.take (sp + tp) = string.take sp ++ (tmp.take tp).reverse ∧ after.length = string.length := by
  induction tp generalizing string sp with
  | zero => exact ⟨string,rfl,by simp,rfl⟩
  | succ tp ih =>
    have cell : tmp[tp]? = some tmp[tp] := List.getElem?_eq_getElem inside
    obtain ⟨next,written,front,-,size⟩ := put_spec string sp [tmp[tp]] (by simp only [List.length_singleton]; omega)
    obtain ⟨after,copied,whole,same⟩ := ih next (sp + 1) (Nat.le_of_succ_le inside) (by omega)
    have place : sp + 1 + tp = sp + (tp + 1) := by omega
    rw [place] at copied whole
    refine ⟨after,?_,?_,same.trans size⟩
    · rw [copyDown,cell]
      simp only [Option.bind_eq_bind,Option.bind_some]
      rw [written,Option.bind_some,copied]
    · rw [List.length_singleton] at front
      rw [whole,front,List.take_succ_eq_append_getElem inside,List.reverse_append,List.append_assoc]
      rfl

def signed (sign : Bool) (text : List UInt8) : List UInt8 := if sign then 45 :: text else text

theorem signed_append (sign : Bool) (text : List UInt8) : signed sign [] ++ text = signed sign text := by
  cases sign <;> rfl

theorem signed_free {sign : Bool} {text : List UInt8} (free : 0 ∉ text) : 0 ∉ signed sign text := by
  cases sign with
  | false => exact free
  | true => exact fun member => (List.mem_cons.mp member).elim (by decide) free

theorem sign_front (sign : Bool) (block : List UInt8) (room : 0 < block.length) :
    ∃ start, putSign sign block = some start ∧
      start.take (if sign then 1 else 0) = signed sign [] ∧ start.length = block.length := by
  cases sign with
  | false => exact ⟨block,rfl,rfl,rfl⟩
  | true =>
    obtain ⟨start,written,front,-,size⟩ := put_spec block 0 [45] room
    exact ⟨start,written,front,size⟩

theorem convert_holds (valid : 1 < radix) (most : radix ≤ 36) {v fuel : Nat} (word : v < 2 ^ 32) (enough : 33 < fuel) (sign : Bool)
    (block : List UInt8) (room : (signed sign (numeralText radix v)).length < block.length) :
    ∃ after, convert fuel sign v (some block) radix = some (.string after) ∧
      Holds after (signed sign (numeralText radix v)) ∧ after.length = block.length := by
  obtain ⟨s,looped,holding⟩ := digits_holding valid word enough
  have takes : ¬ (36 < (radix : Int) ∨ (radix : Int) ≤ 1) := by omega
  have short : s.tp ≤ 33 := by
    rw [holding.tp]
    exact Nat.le_succ_of_le (word_length valid word)
  have total : (signed sign (numeralText radix v)).length = (if sign then 1 else 0) + s.tp := by
    rw [holding.tp,signed]
    split <;> simp [numeralText,Nat.add_comm]
  rw [total] at room
  obtain ⟨start,signs,front,size⟩ := sign_front sign block (Nat.zero_lt_of_lt room)
  obtain ⟨copied,ran,whole,same⟩ := copyDown_spec s.tmp s.tp start (if sign then 1 else 0) (holding.size ▸ short)
    (by rw [size]; exact Nat.le_of_lt room)
  rw [front,holding.tp,holding.cells,← List.map_reverse,← holding.tp,signed_append] at whole
  have free : 0 ∉ copied.take ((if sign then 1 else 0) + s.tp) := by
    rw [whole]
    exact signed_free (numeralText_free valid most v)
  obtain ⟨after,ended,holds,length⟩ := put_zero copied _ (by rw [same,size]; exact room) free
  rw [whole] at holds
  refine ⟨after,?_,holds,length.trans (same.trans size)⟩
  rw [convert]
  dsimp only
  rw [if_neg takes,Int.toNat_natCast,looped]
  simp only [Option.bind_eq_bind,Option.bind_some]
  rw [signs,Option.bind_some,ran]
  simp only [Option.bind_some]
  rw [ended]
  rfl

end Loop

/-- The text is the one numeral of `v` in the radix, behind a sign or not. -/
def Shows (sign : Bool) (radix v : Nat) (text : List UInt8) : Prop :=
  ∃ digits, text = signed sign digits ∧ Numeral radix v digits ∧ ∀ other, Numeral radix v other → other = digits

/-- The decimal text of a negative value has a sign, and other texts show the bits. -/
def ShowsLong (value : BitVec 32) (radix : Nat) (text : List UInt8) : Prop :=
  if radix = 10 ∧ value.toInt < 0 then Shows true 10 value.toInt.natAbs text else Shows false radix value.toNat text

/-- The conversion writes such a text with its terminator into every block that has room for it. -/
def Writes (shows_ : List UInt8 → Prop) (conversion : List UInt8 → Option Ret) : Prop :=
  ∃ text, shows_ text ∧ ∀ block : List UInt8, text.length < block.length →
    ∃ after, conversion block = some (.string after) ∧ Holds after text

def Caller.base : Caller → Nat
  | .stringUnsignedChar _ base | .stringInt _ base | .stringUnsignedInt _ base | .stringLong _ base
  | .stringUnsignedLong _ base => base.toNat
  | _ => 10

def Caller.Shows : Caller → List UInt8 → Prop
  | .stringUnsignedChar value base => Itoa.Shows false base.toNat value.toNat
  | .stringInt value base | .stringLong value base => ShowsLong value base.toNat
  | .stringUnsignedInt value base | .stringUnsignedLong value base => Itoa.Shows false base.toNat value.toNat
  | .concatUnsignedChar num => Itoa.Shows false 10 num.toNat
  | .concatInt num | .concatLong num => ShowsLong num 10
  | .concatUnsignedInt num | .concatUnsignedLong num => Itoa.Shows false 10 num.toNat

/-- Whatever is in the buffer before, the text is in it afterwards with its terminator. -/
def Caller.Converts (fuel : Nat) (caller : Caller) : Prop :=
  ∃ text, caller.Shows text ∧ ∀ buf : List UInt8, buf.length = caller.size →
    ∃ after, caller.fill fuel buf = some (.string after) ∧ Holds after text

section Callers
variable {radix fuel : Nat}

theorem shows_numeral (valid : 1 < radix) (most : radix ≤ 36) (sign : Bool) (v : Nat) :
    Shows sign radix v (signed sign (numeralText radix v)) :=
  ⟨_,rfl,numeralText_numeral valid most v,fun _ num => num.unique valid⟩

theorem signed_length (sign : Bool) (text : List UInt8) : (signed sign text).length ≤ text.length + 1 := by
  cases sign
  · exact Nat.le_succ _
  · exact Nat.le_refl _

theorem neg_toNat {value : BitVec 32} (negative : value.toInt < 0) : (-value).toNat = value.toInt.natAbs := by
  rw [BitVec.toNat_neg]
  have word := value.isLt
  rw [BitVec.toInt_eq_toNat_cond] at negative ⊢
  split at negative <;> omega

def longText (value : BitVec 32) (radix : Nat) : List UInt8 :=
  if radix = 10 ∧ value.toInt < 0 then signed true (numeralText 10 value.toInt.natAbs) else numeralText radix value.toNat

theorem longText_shows (valid : 1 < radix) (most : radix ≤ 36) (value : BitVec 32) : ShowsLong value radix (longText value radix) := by
  rw [ShowsLong,longText]
  split
  · exact shows_numeral (by decide) (by decide) true value.toInt.natAbs
  · exact shows_numeral valid most false value.toNat

theorem longText_length (valid : 1 < radix) (value : BitVec 32) {count : Nat} (some_ : 0 < count) (fits : 2 ^ 32 ≤ radix ^ count) :
    (longText value radix).length ≤ count + 1 := by
  rw [longText]
  split
  · rename_i decimal
    obtain ⟨rfl,negative⟩ := decimal
    refine Nat.le_trans (signed_length true _) (Nat.succ_le_succ (numeralText_length valid some_ ?_))
    rw [← neg_toNat negative]
    exact Nat.lt_of_lt_of_le (-value).isLt fits
  · exact Nat.le_succ_of_le (numeralText_length valid some_ (Nat.lt_of_lt_of_le value.isLt fits))

theorem ltoa_holds (valid : 1 < radix) (most : radix ≤ 36) (enough : 33 < fuel) (value : BitVec 32) (block : List UInt8)
    (room : (longText value radix).length < block.length) :
    ∃ after, ltoa fuel value (some block) radix = some (.string after) ∧ Holds after (longText value radix) := by
  rw [longText] at room ⊢
  by_cases decimal : radix = 10 ∧ value.toInt < 0
  · obtain ⟨rfl,negative⟩ := decimal
    rw [if_pos ⟨rfl,negative⟩,← neg_toNat negative] at room ⊢
    obtain ⟨after,ran,holds,-⟩ := convert_holds valid most (-value).isLt enough true block room
    refine ⟨after,?_,holds⟩
    rw [ltoa]
    simp only [negative,and_true,decide_true,if_true,Nat.cast_ofNat]
    exact ran
  · rw [if_neg decimal] at room ⊢
    obtain ⟨after,ran,holds,-⟩ := convert_holds valid most value.isLt enough false block room
    have unsigned : ¬ ((radix : Int) = 10 ∧ value.toInt < 0) := fun both => decimal ⟨by exact_mod_cast both.1,both.2⟩
    refine ⟨after,?_,holds⟩
    rw [ltoa]
    simp only [unsigned,decide_false,if_false]
    exact ran

theorem ultoa_holds (valid : 1 < radix) (most : radix ≤ 36) (enough : 33 < fuel) (value : BitVec 32) (block : List UInt8)
    (room : (numeralText radix value.toNat).length < block.length) :
    ∃ after, ultoa fuel value (some block) radix = some (.string after) ∧ Holds after (numeralText radix value.toNat) := by
  obtain ⟨after,ran,holds,-⟩ := convert_holds valid most value.isLt enough false block room
  exact ⟨after,ran,holds⟩

theorem convert_refuses (refused : ¬ (1 < radix ∧ radix ≤ 36)) (sign : Bool) (v : Nat) (block : List UInt8) :
    convert fuel sign v (some block) radix = some .null := by
  rw [convert]
  dsimp only
  rw [if_pos (by omega)]

theorem refuses (caller : Caller) (refused : ¬ (1 < caller.base ∧ caller.base ≤ 36)) (buf : List UInt8) :
    caller.fill fuel buf = some .null := by
  cases caller with
  | stringUnsignedChar value base => exact convert_refuses refused _ _ buf
  | stringInt value base => exact convert_refuses refused _ _ buf
  | stringUnsignedInt value base => exact convert_refuses refused _ _ buf
  | stringLong value base => exact convert_refuses refused _ _ buf
  | stringUnsignedLong value base => exact convert_refuses refused _ _ buf
  | _ => exact absurd ⟨(by decide : 1 < 10),(by decide : 10 ≤ 36)⟩ refused

theorem long_fits (valid : 1 < radix) (most : radix ≤ 36) (enough : 33 < fuel) (value : BitVec 32) {count size : Nat}
    (some_ : 0 < count) (fits : 2 ^ 32 ≤ radix ^ count) (room : count + 1 < size) :
    ∃ text, ShowsLong value radix text ∧ ∀ buf : List UInt8, buf.length = size →
      ∃ after, ltoa fuel value (some buf) radix = some (.string after) ∧ Holds after text := by
  refine ⟨longText value radix,longText_shows valid most value,fun buf length => ?_⟩
  exact ltoa_holds valid most enough value buf
    (Nat.lt_of_le_of_lt (longText_length valid value some_ fits) (length ▸ room))

theorem unsigned_fits (valid : 1 < radix) (most : radix ≤ 36) (enough : 33 < fuel) (value : BitVec 32) {count size : Nat}
    (some_ : 0 < count) (fits : value.toNat < radix ^ count) (room : count < size) :
    ∃ text, Shows false radix value.toNat text ∧ ∀ buf : List UInt8, buf.length = size →
      ∃ after, ultoa fuel value (some buf) radix = some (.string after) ∧ Holds after text := by
  refine ⟨numeralText radix value.toNat,shows_numeral valid most false value.toNat,fun buf length => ?_⟩
  exact ultoa_holds valid most enough value buf
    (Nat.lt_of_le_of_lt (numeralText_length valid some_ fits) (length ▸ room))

theorem char_toNat (value : BitVec 8) : (value.setWidth 32).toNat = value.toNat := by
  rw [BitVec.toNat_setWidth]
  exact Nat.mod_eq_of_lt (Nat.lt_trans value.isLt (by decide))

theorem char_text (num : BitVec 8) : longText (num.setWidth 32) 10 = numeralText 10 num.toNat := by
  have positive : ¬ (num.setWidth 32).toInt < 0 := by
    rw [BitVec.toInt_eq_toNat_cond,char_toNat]
    have byte := num.isLt
    omega
  rw [longText,if_neg (fun both => positive both.2),char_toNat]

/-- Each local buffer has room for what a conversion to a radix that it takes writes. -/
theorem converts (caller : Caller) (enough : 33 < fuel) (valid : 1 < caller.base) (most : caller.base ≤ 36) :
    caller.Converts fuel := by
  have word (radix : Nat) (valid : 1 < radix) : 2 ^ 32 ≤ radix ^ 32 := Nat.pow_le_pow_left valid 32
  have long (value : BitVec 32) (radix : Nat) (valid : 1 < radix) := Nat.lt_of_lt_of_le value.isLt (word radix valid)
  have decimal (value : BitVec 32) : value.toNat < 10 ^ 10 := Nat.lt_trans value.isLt (by decide)
  cases caller with
  | stringUnsignedChar value base =>
    have byte : (value.setWidth 32).toNat < base.toNat ^ 8 := by
      rw [char_toNat]
      exact Nat.lt_of_lt_of_le value.isLt (Nat.pow_le_pow_left valid 8)
    have fits := unsigned_fits valid most enough (value.setWidth 32) (by decide) byte (by decide : 8 < 9)
    rwa [char_toNat] at fits
  | stringInt value base => exact long_fits valid most enough value (by decide) (word _ valid) (by decide : 33 < 34)
  | stringUnsignedInt value base => exact unsigned_fits valid most enough value (by decide) (long value _ valid) (by decide : 32 < 33)
  | stringLong value base => exact long_fits valid most enough value (by decide) (word _ valid) (by decide : 33 < 34)
  | stringUnsignedLong value base => exact unsigned_fits valid most enough value (by decide) (long value _ valid) (by decide : 32 < 33)
  | concatUnsignedChar num =>
    have short : (numeralText 10 num.toNat).length ≤ 3 :=
      numeralText_length (by decide) (by decide) (Nat.lt_trans num.isLt (by decide))
    refine ⟨numeralText 10 num.toNat,shows_numeral valid most false num.toNat,fun buf length => ?_⟩
    have fits := ltoa_holds (by decide : 1 < 10) (by decide) enough (num.setWidth 32) buf
    rw [char_text] at fits
    exact fits (Nat.lt_of_le_of_lt short (length ▸ (by decide : 3 < 4)))
  | concatInt num => exact long_fits valid most enough num (by decide) (by decide : 2 ^ 32 ≤ 10 ^ 10) (by decide : 11 < 14)
  | concatUnsignedInt num => exact unsigned_fits valid most enough num (by decide) (decimal num) (by decide : 10 < 13)
  | concatLong num => exact long_fits valid most enough num (by decide) (by decide : 2 ^ 32 ≤ 10 ^ 10) (by decide : 11 < 14)
  | concatUnsignedLong num => exact unsigned_fits valid most enough num (by decide) (decimal num) (by decide : 10 < 13)

/-- The conversions write the one text of a number, and the callers have it in their buffers exactly for the bases
that the conversions take. -/
theorem conversions_iff (fuel : Nat) :
    (∀ (value : BitVec 32) (radix : Nat), 1 < radix → radix ≤ 36 →
      Writes (ShowsLong value radix) (fun block => ltoa (fuel + 34) value (some block) radix) ∧
      Writes (Shows false radix value.toNat) (fun block => ultoa (fuel + 34) value (some block) radix)) ∧
    ∀ caller : Caller, caller.Converts (fuel + 34) ↔ 1 < caller.base ∧ caller.base ≤ 36 := by
  have enough : 33 < fuel + 34 := Nat.lt_of_lt_of_le (by decide) (Nat.le_add_left 34 fuel)
  refine ⟨fun value radix valid most => ⟨?_,?_⟩,fun caller => ⟨?_,fun takes => converts caller enough takes.1 takes.2⟩⟩
  · exact ⟨longText value radix,longText_shows valid most value,ltoa_holds valid most enough value⟩
  · exact ⟨_,shows_numeral valid most false value.toNat,ultoa_holds valid most enough value⟩
  · rintro ⟨text,-,fills⟩
    by_contra refused
    obtain ⟨after,ran,-⟩ := fills (List.replicate caller.size 0) List.length_replicate
    rw [refuses caller refused] at ran
    cases ran

/-- `String(5, 1)` reads a buffer that nothing was written into. -/
theorem unary_unwritten : ¬ (Caller.stringInt 5 1).Converts 34 := by
  rintro ⟨text,-,fills⟩
  obtain ⟨after,ran,-⟩ := fills (List.replicate 34 0) rfl
  rw [refuses (.stringInt 5 1) (by decide)] at ran
  cases ran

/-- What is in `buf` after the conversion, which leaves it alone when it returns null. -/
def Caller.left (fuel : Nat) (buf : List UInt8) (caller : Caller) : Option (List UInt8) :=
  (caller.fill fuel buf).map fun ret => match ret with
    | .null => buf
    | .string after => after

/-- The conversion writes this byte of `buf`: it is the same afterwards whatever was in `buf` before. -/
def Caller.WritesByte (fuel : Nat) (caller : Caller) (i : Nat) : Prop :=
  ∃ c, ∀ buf : List UInt8, buf.length = caller.size → ∃ after, caller.left fuel buf = some after ∧ after[i]? = some c

/-- `*this = buf` reads a text up to its terminator, which depends on the value and the base alone, and no byte that was not written. -/
def Caller.Determined (fuel : Nat) (caller : Caller) : Prop :=
  ∃ content, ∀ buf : List UInt8, buf.length = caller.size →
    ∃ after, caller.left fuel buf = some after ∧ text after = some content ∧ ∀ i ≤ content.length, caller.WritesByte fuel i

theorem converts_writes {caller : Caller} {content : List UInt8} (fills : ∀ buf : List UInt8, buf.length = caller.size →
    ∃ after, caller.fill fuel buf = some (.string after) ∧ Holds after content) {i : Nat} (inside : i ≤ content.length) :
    caller.WritesByte fuel i := by
  refine ⟨(content ++ [0]).getD i 0,fun buf length => ?_⟩
  obtain ⟨after,ran,holds⟩ := fills buf length
  refine ⟨after,by rw [Caller.left,ran]; rfl,?_⟩
  obtain ⟨rest,rfl⟩ := holds.parts
  have within : i < (content ++ [0]).length := by
    rw [List.length_append]
    exact Nat.lt_succ_of_le inside
  rw [List.append_cons,List.getElem?_append_left within,List.getD_eq_getElem?_getD,List.getElem?_eq_getElem within]
  rfl

theorem refused_undetermined {caller : Caller} (refused : ¬ (1 < caller.base ∧ caller.base ≤ 36)) : ¬ caller.Determined fuel := by
  rintro ⟨content,determined⟩
  have unwritten (buf : List UInt8) (length : buf.length = caller.size) : text buf = some content := by
    obtain ⟨after,ran,read,_⟩ := determined buf length
    rw [Caller.left,refuses caller refused] at ran
    cases ran
    exact read
  obtain ⟨size,some_⟩ : ∃ size, caller.size = size + 2 := by
    cases caller
    all_goals exact ⟨_,rfl⟩
  have empty := unwritten (List.replicate (size + 2) 0) (by rw [List.length_replicate,some_])
  have letter := unwritten (65 :: List.replicate (size + 1) 0) (by rw [List.length_cons,List.length_replicate,some_])
  rw [List.replicate_succ] at empty letter
  rw [← letter] at empty
  simp [text] at empty

/-- The text of a number is determined exactly for the bases that the conversions take. -/
theorem determined_iff (fuel : Nat) (caller : Caller) : caller.Determined (fuel + 34) ↔ 1 < caller.base ∧ caller.base ≤ 36 := by
  constructor
  · intro determined
    by_contra refused
    exact refused_undetermined refused determined
  · rintro ⟨valid,most⟩
    obtain ⟨content,-,fills⟩ := converts caller (Nat.lt_of_lt_of_le (by decide) (Nat.le_add_left 34 fuel)) valid most
    refine ⟨content,fun buf length => ?_⟩
    obtain ⟨after,ran,holds⟩ := fills buf length
    exact ⟨after,by rw [Caller.left,ran]; rfl,holds.text,fun i inside => converts_writes fills inside⟩

theorem large_undetermined : ¬ (Caller.stringLong 7 37).Determined 34 := refused_undetermined (by decide)

end Callers

end OpenPlc.Text.Itoa
