import OpenPlc.Lib.CString
import OpenPlc.Lib.Digits
import OpenPlc.Streams.ParseInt

/-! The class `IPAddress`: addresses of four bytes, read from a text and printed. -/
namespace OpenPlc.Net
open CString Digits Streams Print

@[ext] structure IPAddress where
  bytes : Fin 4 → UInt8

namespace IPAddress

/-- `_address.bytes[i] = acc` -/
def store (ip : IPAddress) (i : Fin 4) (acc : UInt16) : IPAddress := ⟨Function.update ip.bytes i acc.toUInt8⟩

/-- What `fromString` keeps while it reads; it never counts more than three dots. -/
structure Parse where
  address : IPAddress
  acc : UInt16
  dots : Fin 4

/-- A round of the loop, and whether it goes on or the function returns `false`. -/
def character (c : UInt8) (s : Parse) : Parse × Bool :=
  if isDigit c then
    let acc := s.acc * 10 + (c - 48).toUInt16
    ({s with acc := acc},!(255 < acc))
  else if c = 46 then
    if s.dots = 3 then (s,false) else (⟨store s.address s.dots s.acc,0,s.dots + 1⟩,true)
  else (s,false)

def parse (s : Parse) : List UInt8 → Option (Bool × IPAddress)
  | [] => none
  | c :: address =>
    if c = 0 then some (if s.dots ≠ 3 then (false,s.address) else (true,store s.address 3 s.acc))
    else
      match character c s with
      | (s,true) => parse s address
      | (s,false) => some (false,s.address)

/-- The value that it returns and the address afterwards. It has no result for a block without a zero. -/
def fromString (ip : IPAddress) (address : List UInt8) : Option (Bool × IPAddress) := parse ⟨ip,0,0⟩ address

/-- `n += p.print(_address.bytes[i], DEC); n += p.print('.');` -/
def printField (p : Sink) (ip : IPAddress) (s : List UInt8 × Nat) (i : Fin 4) : List UInt8 × Nat :=
  let (taken,m) := p.print s.1 (ip.bytes i) 10
  let (taken,k) := p.write taken 46
  (taken,s.2 + m + k)

def printTo (p : Sink) (taken : List UInt8) (ip : IPAddress) : List UInt8 × Nat :=
  let s := [0,1,2].foldl (printField p ip) (taken,0)
  let (taken,m) := p.print s.1 (ip.bytes 3) 10
  (taken,s.2 + m)

/-- A field between two dots, which may be empty. -/
def Field (acc : Nat) (text : List UInt8) : Prop := (∀ c ∈ text, isDigit c) ∧ number acc text ≤ 255

instance (acc : Nat) (text : List UInt8) : Decidable (Field acc text) := inferInstanceAs (Decidable (_ ∧ _))

/-- What the fields of a text, from one on, make of an address. -/
def parseFields (ip : IPAddress) (dots : Fin 4) : List (List UInt8) → Bool × IPAddress
  | [] => (false,ip)
  | field :: fields =>
    if ¬ Field 0 field then (false,ip)
    else if fields = [] then
      if dots = 3 then (true,store ip 3 (.ofNat (number 0 field))) else (false,ip)
    else if dots = 3 then (false,ip)
    else parseFields (store ip dots (.ofNat (number 0 field))) (dots + 1) fields

section Fields
variable {c : UInt8} {acc : Nat} {text : List UInt8}

theorem digit_value (digit : isDigit c) {acc : UInt16} (small : acc.toNat ≤ 255) :
    (acc * 10 + (c - 48).toUInt16).toNat = acc.toNat * 10 + (c.toNat - 48) := by
  obtain ⟨low,high⟩ := Bool.and_eq_true_iff.mp digit
  have least := of_decide_eq_true low
  have most := UInt8.le_iff_toNat_le.mp (of_decide_eq_true high)
  rw [UInt16.toNat_add,UInt16.toNat_mul,UInt8.toNat_toUInt16,UInt8.toNat_sub_of_le c 48 least]
  change (acc.toNat * 10 % 65536 + (c.toNat - 48)) % 65536 = _
  change c.toNat ≤ 57 at most
  omega

theorem field_cons (acc : Nat) (c : UInt8) (text : List UInt8) :
    Field acc (c :: text) ↔ isDigit c ∧ Field (acc * 10 + (c.toNat - 48)) text := by
  rw [Field,Field,List.forall_mem_cons,number_cons,and_assoc]

theorem Field.acc_le (field : Field acc text) : acc ≤ 255 := Nat.le_trans (le_number acc text) field.2

/-- The characters up to the next dot are read as the rest of a field, or refused. -/
theorem parse_field (s : Parse) (text rest : List UInt8) (free : 0 ∉ text) (plain : 46 ∉ text) (small : s.acc.toNat ≤ 255) :
    parse s (text ++ rest) = if Field s.acc.toNat text then parse {s with acc := .ofNat (number s.acc.toNat text)} rest
      else some (false,s.address) := by
  induction text generalizing s with
  | nil =>
    have field : Field s.acc.toNat [] := ⟨fun c member => absurd member List.not_mem_nil,small⟩
    rw [if_pos field,List.nil_append]
    change _ = parse {s with acc := .ofNat s.acc.toNat} rest
    rw [UInt16.ofNat_toNat]
  | cons c text ih =>
    obtain ⟨some_,later⟩ := not_or.mp (List.mem_cons.not.mp free)
    obtain ⟨other,apart⟩ := not_or.mp (List.mem_cons.not.mp plain)
    rw [List.cons_append,parse,if_neg (Ne.symm some_),character]
    by_cases digit : isDigit c
    · rw [if_pos digit,number_cons,← digit_value digit small]
      by_cases big : 255 < s.acc * 10 + (c - 48).toUInt16
      · have refused : ¬ Field s.acc.toNat (c :: text) := by
          rw [field_cons,← digit_value digit small]
          exact fun field => absurd field.2.acc_le (Nat.not_le.mpr (UInt16.lt_iff_toNat_lt.mp big))
        rw [if_neg refused]
        simp only [big,decide_true,Bool.not_true]
      · have fits := UInt16.le_iff_toNat_le.mp (UInt16.not_lt.mp big)
        simp only [big,decide_false,Bool.not_false]
        rw [ih {s with acc := s.acc * 10 + (c - 48).toUInt16} later apart fits]
        simp only [field_cons,digit,true_and,digit_value digit small]
    · have refused : ¬ Field s.acc.toNat (c :: text) := fun field => digit ((field_cons _ c text).mp field).1
      rw [if_neg digit,if_neg (Ne.symm other),if_neg refused]

/-- Every text is a field without a dot, or such a field with a dot and a text behind it. -/
theorem split_induction {P : List UInt8 → Prop} (last : ∀ field, 46 ∉ field → P field)
    (more : ∀ field rest, 46 ∉ field → P rest → P (field ++ 46 :: rest)) (text : List UInt8) : P text := by
  induction size : text.length using Nat.strongRecOn generalizing text with
  | ind n ih =>
    by_cases dot : 46 ∈ text
    · obtain ⟨field,rest,rfl,plain⟩ := List.eq_append_cons_of_mem dot
      refine more field rest plain (ih rest.length ?_ rest rfl)
      rw [← size,List.length_append,List.length_cons]
      omega
    · exact last text dot

theorem store_same (ip : IPAddress) (i : Fin 4) (n : Nat) : (store ip i (.ofNat n)).bytes i = .ofNat n := by
  rw [store]
  dsimp only
  rw [Function.update_self]
  apply UInt8.toNat.inj
  rw [UInt16.toNat_toUInt8,UInt16.toNat_ofNat',UInt8.toNat_ofNat']
  omega

theorem store_other (ip : IPAddress) {i j : Fin 4} (acc : UInt16) (other : j.val ≠ i.val) : (store ip i acc).bytes j = ip.bytes j :=
  Function.update_of_ne (fun same => other (congrArg Fin.val same)) _ _

theorem parse_fields (text : List UInt8) : ∀ (ip : IPAddress) (dots : Fin 4) (block : List UInt8), Holds block text →
    parse ⟨ip,0,dots⟩ block = some (parseFields ip dots (text.splitOn 46)) := by
  induction text using split_induction with
  | last field plain =>
    intro ip dots block holds
    obtain ⟨rest,rfl⟩ := holds.parts
    rw [parse_field ⟨ip,0,dots⟩ field (0 :: rest) holds.free plain
      (by decide : (0 : UInt16).toNat ≤ 255),
      List.splitOn_eq_singleton plain,parseFields]
    change (if Field 0 field then parse ⟨ip,.ofNat (number 0 field),dots⟩ _ else some (false,ip)) = _
    by_cases valid : Field 0 field
    · rw [if_pos valid,if_neg (not_not.mpr valid),if_pos rfl,parse,if_pos rfl,ite_not]
    · rw [if_neg valid,if_pos valid]
  | more field rest plain ih =>
    intro ip dots block holds
    obtain ⟨behind,rfl⟩ := holds.parts
    have free := List.mem_append.not.mp holds.free
    have later : Holds (rest ++ 0 :: behind) rest := ⟨fun member => free (Or.inr (List.mem_cons_of_mem _ member)),behind,rfl⟩
    rw [List.append_assoc,parse_field ⟨ip,0,dots⟩ field _ (fun member => free (Or.inl member)) plain
      (by decide : (0 : UInt16).toNat ≤ 255),
      List.splitOn_append_cons_self_of_not_mem plain,parseFields]
    change (if Field 0 field then parse ⟨ip,.ofNat (number 0 field),dots⟩ _ else some (false,ip)) = _
    by_cases valid : Field 0 field
    · rw [if_pos valid,if_neg (not_not.mpr valid),if_neg (List.splitOn_ne_nil _ _),List.cons_append,parse,
        if_neg (by decide),character,if_neg (by decide)]
      dsimp only
      rw [if_pos rfl]
      by_cases full : dots = 3
      · rw [if_pos full,if_pos full]
      · rw [if_neg full,if_neg full]
        exact ih _ (dots + 1) _ later
    · rw [if_neg valid,if_pos valid]

/-- `fromString` reads the fields between the dots one after another. -/
theorem fromString_fields (ip : IPAddress) {block text : List UInt8} (holds : Holds block text) :
    fromString ip block = some (parseFields ip 0 (text.splitOn 46)) := parse_fields text ip 0 block holds

theorem next_dots {dots : Fin 4} (more : dots ≠ 3) : (dots + 1).val = dots.val + 1 := by
  revert dots
  decide

theorem accepted_iff (ip : IPAddress) (dots : Fin 4) (fields : List (List UInt8)) : (parseFields ip dots fields).1 = true ↔
    dots.val + fields.length = 4 ∧ ∀ field ∈ fields, Field 0 field := by
  have last {dots : Fin 4} : dots.val = 3 ↔ dots = 3 := Fin.val_inj (b := 3)
  fun_induction parseFields ip dots fields with
  | case1 ip dots => exact iff_of_false Bool.false_ne_true fun both => absurd both.1 (Nat.ne_of_lt dots.isLt)
  | case2 ip dots field fields invalid =>
    exact iff_of_false Bool.false_ne_true fun both => invalid (both.2 field List.mem_cons_self)
  | case3 ip field valid => exact iff_of_true rfl ⟨rfl,List.forall_mem_singleton.mpr (not_not.mp valid)⟩
  | case4 ip dots field _ early =>
    exact iff_of_false Bool.false_ne_true fun both => early (last.mp (Nat.succ.inj both.1))
  | case5 ip field fields _ more =>
    have some_ := List.length_pos_iff.mpr more
    refine iff_of_false Bool.false_ne_true fun both => ?_
    have total : 3 + (fields.length + 1) = 4 := both.1
    omega
  | case6 ip dots field fields valid _ room ih =>
    refine ih.trans ?_
    rw [next_dots room,List.forall_mem_cons,List.length_cons,Nat.add_right_comm,Nat.add_assoc]
    exact and_congr_right fun _ => (and_iff_right (not_not.mp valid)).symm

/-- The field with this number is ended by one of the first dots, and it and those in front of it can be read. -/
def Ended (room : Nat) (fields : List (List UInt8)) (i : Nat) : Prop :=
  i < room ∧ i + 1 < fields.length ∧ ∀ j ≤ i, Field 0 (fields.getD j [])

theorem ended_succ {room i : Nat} {field : List UInt8} {fields : List (List UInt8)} (valid : Field 0 field) :
    Ended (room + 1) (field :: fields) (i + 1) ↔ Ended room fields i := by
  rw [Ended,Ended,List.length_cons]
  refine and_congr Nat.succ_lt_succ_iff (and_congr Nat.succ_lt_succ_iff ⟨fun all j within => ?_,fun all j within => ?_⟩)
  · exact all (j + 1) (Nat.succ_le_succ within)
  · cases j with
    | zero => exact valid
    | succ j => exact all j (Nat.le_of_succ_le_succ within)

instance (room : Nat) (fields : List (List UInt8)) (i : Nat) : Decidable (Ended room fields i) := inferInstanceAs (Decidable (_ ∧ _))

theorem not_stored (ip : IPAddress) {dots : Fin 4} {fields : List (List UInt8)} {accepted : Bool} (i : Fin 4)
    (none_ : ∀ k, ¬ Ended (3 - dots.val) fields k) (refused : accepted = false) :
    ip.bytes i = if dots.val ≤ i.val ∧ (accepted = true ∨ Ended (3 - dots.val) fields (i.val - dots.val)) then
      .ofNat (number 0 (fields.getD (i.val - dots.val) [])) else ip.bytes i := by
  rw [if_neg]
  rintro ⟨_,accepts | ended⟩
  · rw [refused] at accepts
    contradiction
  · exact none_ _ ended

/-- Each byte is that of its field if this was read, and otherwise what it was. -/
theorem parseFields_bytes (ip : IPAddress) (dots : Fin 4) (fields : List (List UInt8)) (i : Fin 4) :
    (parseFields ip dots fields).2.bytes i =
      if dots.val ≤ i.val ∧ ((parseFields ip dots fields).1 = true ∨ Ended (3 - dots.val) fields (i.val - dots.val)) then
        .ofNat (number 0 (fields.getD (i.val - dots.val) [])) else ip.bytes i := by
  fun_induction parseFields ip dots fields with
  | case1 ip dots => exact not_stored ip i (fun k ended => absurd ended.2.1 (Nat.not_lt_zero _)) rfl
  | case2 ip dots field fields invalid => exact not_stored ip i (fun k ended => invalid (ended.2.2 0 (Nat.zero_le k))) rfl
  | case3 ip field valid =>
    by_cases last : (3 : Fin 4).val ≤ i.val
    · obtain rfl : i = 3 := Fin.ext (Nat.le_antisymm (Nat.le_of_lt_succ i.isLt) last)
      rw [if_pos ⟨last,Or.inl rfl⟩]
      exact store_same ip 3 (number 0 field)
    · rw [if_neg fun both => last both.1]
      exact store_other ip _ (Nat.ne_of_lt (Nat.not_le.mp last))
  | case4 ip dots field => exact not_stored ip i (fun k ended => absurd ended.2.1 (by simp)) rfl
  | case5 ip field fields => exact not_stored ip i (fun k ended => absurd ended.1 (Nat.not_lt_zero _)) rfl
  | case6 ip dots field fields valid more full ih =>
    have bound := dots.isLt
    have next := next_dots full
    have room : 3 - dots.val = 3 - (dots + 1).val + 1 := by omega
    rw [ih,room]
    obtain before | same | behind := Nat.lt_trichotomy i.val dots.val
    · rw [if_neg (by omega),if_neg (by omega)]
      exact store_other ip _ (Nat.ne_of_lt before)
    · obtain rfl := Fin.ext same
      have ended : Ended (3 - (i + 1).val + 1) (field :: fields) 0 := by
        refine ⟨Nat.succ_pos _,Nat.succ_lt_succ (List.length_pos_iff.mpr more),fun j first => ?_⟩
        rw [Nat.le_zero.mp first]
        exact not_not.mp valid
      rw [if_neg (by omega),Nat.sub_self,if_pos ⟨Nat.le_refl _,Or.inr ended⟩,store_same]
      rfl
    · have place : i.val - dots.val = i.val - (dots + 1).val + 1 := by omega
      have passed : (dots + 1).val ≤ i.val := next ▸ behind
      rw [store_other ip _ (Nat.ne_of_gt behind),place,List.getD_cons_succ]
      simp only [ended_succ (not_not.mp valid),Nat.le_of_lt behind,passed,true_and]

/-- Four numbers of at most 255, none of them empty, with single dots between them. -/
structure Dotted (fields : List (List UInt8)) (text : List UInt8) : Prop where
  joined : text = [46].intercalate fields
  four : fields.length = 4
  numbers : ∀ field ∈ fields, field ≠ [] ∧ Field 0 field

/-- Four fields of digits of which one is empty, and none is above 255. -/
structure Gap (fields : List (List UInt8)) (text : List UInt8) : Prop where
  joined : text = [46].intercalate fields
  four : fields.length = 4
  readable : ∀ field ∈ fields, Field 0 field
  empty : [] ∈ fields

/-- `fromString` accepts the address texts and no others, and takes over their numbers. -/
def Recognises (ip : IPAddress) (block text : List UInt8) : Prop :=
  ∃ accepted after, fromString ip block = some (accepted,after) ∧ (accepted = true ↔ ∃ fields, Dotted fields text) ∧
    ∀ fields, Dotted fields text → ∀ i : Fin 4, (after.bytes i).toNat = number 0 (fields.getD i [])

theorem digit_dot {field : List UInt8} (valid : Field 0 field) : 46 ∉ field :=
  fun member => absurd (valid.1 46 member) (by decide)

theorem fields_unique {fields : List (List UInt8)} {text : List UInt8} (joined : text = [46].intercalate fields)
    (four : fields.length = 4) (readable : ∀ field ∈ fields, Field 0 field) : text.splitOn 46 = fields := by
  have some_ : fields ≠ [] := by
    rintro rfl
    contradiction
  rw [joined,List.splitOn_intercalate 46 (fun field member => digit_dot (readable field member)) some_]

theorem dotted_or_gap {text : List UInt8} (four : (text.splitOn 46).length = 4)
    (readable : ∀ field ∈ text.splitOn 46, Field 0 field) :
    Dotted (text.splitOn 46) text ∨ Gap (text.splitOn 46) text := by
  have joined : text = [46].intercalate (text.splitOn 46) := (List.intercalate_splitOn 46).symm
  by_cases empty : [] ∈ text.splitOn 46
  · exact Or.inr ⟨joined,four,readable,empty⟩
  · refine Or.inl ⟨joined,four,fun field member => ⟨?_,readable field member⟩⟩
    rintro rfl
    exact empty member

theorem value_toNat {field : List UInt8} (valid : Field 0 field) : (UInt8.ofNat (number 0 field)).toNat = number 0 field := by
  rw [UInt8.toNat_ofNat']
  exact Nat.mod_eq_of_lt (Nat.lt_succ_of_le valid.2)

/-- `fromString` is right about every text, except that it takes an empty field for a zero. -/
theorem fromString_iff (ip : IPAddress) {block text : List UInt8} (holds : Holds block text) :
    Recognises ip block text ↔ ¬ ∃ fields, Gap fields text := by
  have accepts := accepted_iff ip 0 (text.splitOn 46)
  constructor
  · rintro ⟨accepted,after,ran,exact_,_⟩ ⟨fields,gap⟩
    rw [fromString_fields ip holds] at ran
    have same := fields_unique gap.joined gap.four gap.readable
    rw [same] at ran accepts
    have taken := accepts.mpr ⟨(Nat.zero_add _).trans gap.four,gap.readable⟩
    rw [Option.some.inj ran] at taken
    obtain ⟨others,dotted⟩ := exact_.mp taken
    have numbers := dotted.numbers
    rw [← fields_unique dotted.joined dotted.four fun field member => (numbers field member).2,same] at numbers
    exact (numbers [] gap.empty).1 rfl
  · intro full
    refine ⟨_,_,fromString_fields ip holds,accepts.trans ⟨?_,?_⟩,?_⟩
    · rintro ⟨four,readable⟩
      obtain dotted | gap := dotted_or_gap ((Nat.zero_add _).symm.trans four) readable
      · exact ⟨_,dotted⟩
      · exact absurd ⟨_,gap⟩ full
    · rintro ⟨fields,dotted⟩
      have readable := fun field member => (dotted.numbers field member).2
      rw [fields_unique dotted.joined dotted.four readable]
      exact ⟨(Nat.zero_add _).trans dotted.four,readable⟩
    · intro fields dotted i
      have readable := fun field member => (dotted.numbers field member).2
      rw [fields_unique dotted.joined dotted.four readable] at accepts ⊢
      have taken := accepts.mpr ⟨(Nat.zero_add _).trans dotted.four,readable⟩
      have inside : i.val < fields.length := dotted.four.symm ▸ i.isLt
      rw [parseFields_bytes,if_pos ⟨Nat.zero_le _,Or.inl taken⟩]
      refine value_toNat (readable _ ?_)
      change fields.getD i.val [] ∈ fields
      rw [List.getD_eq_getElem?_getD,List.getElem?_eq_getElem inside,Option.getD_some]
      exact List.getElem_mem inside

theorem fromString_four :
    Recognises ⟨fun _ => 0⟩ [49,46,50,46,51,46,52,0] [49,46,50,46,51,46,52] ↔ ¬ ∃ fields, Gap fields [49,46,50,46,51,46,52] :=
  fromString_iff ⟨fun _ => 0⟩ ⟨by decide,[],rfl⟩

theorem gap_accepted : ¬ Recognises ⟨fun _ => 0⟩ [49,46,46,50,46,51,0] [49,46,46,50,46,51] := by
  rintro ⟨accepted,after,ran,exact_,_⟩
  have taken : accepted = true := by
    have first : (fromString ⟨fun _ => 0⟩ [49,46,46,50,46,51,0]).map Prod.fst = some true := by decide
    rw [ran] at first
    exact Option.some.inj first
  obtain ⟨fields,dotted⟩ := exact_.mp taken
  have same := fields_unique dotted.joined dotted.four fun field member => (dotted.numbers field member).2
  have empty : [] ∈ ([49,46,46,50,46,51] : List UInt8).splitOn 46 := by decide
  rw [same] at empty
  exact (dotted.numbers [] empty).1 rfl

/-- A text that is refused leaves the bytes of the fields that a dot ended before the error. -/
theorem refused_bytes {ip after : IPAddress} {block text : List UInt8} (holds : Holds block text)
    (refused : fromString ip block = some (false,after)) (i : Fin 4) :
    after.bytes i = if Ended 3 (text.splitOn 46) i then .ofNat (number 0 ((text.splitOn 46).getD i [])) else ip.bytes i := by
  have ran := Option.some.inj ((fromString_fields ip holds).symm.trans refused)
  have bytes := parseFields_bytes ip 0 (text.splitOn 46) i
  rw [ran] at bytes
  simpa using bytes

/-- `1.2` sets the first byte of `0.0.0.0`. -/
theorem refused_changes : ∃ after, fromString ⟨fun _ => 0⟩ [49,46,50,0] = some (false,after) ∧ after.bytes 0 ≠ 0 :=
  ⟨_,rfl,by decide⟩

theorem refused_two : (store ⟨fun _ => 0⟩ 0 1).bytes 1 =
    if Ended 3 (([49,46,50] : List UInt8).splitOn 46) 1 then
      .ofNat (number 0 ((([49,46,50] : List UInt8).splitOn 46).getD 1 [])) else 0 := by
  have refused : fromString ⟨fun _ => 0⟩ [49,46,50,0] = some (false,store ⟨fun _ => 0⟩ 0 1) := rfl
  have holds : Holds [49,46,50,0] [49,46,50] := ⟨by decide,[],rfl⟩
  exact refused_bytes holds refused 1

end Fields

section Printing
variable (p : Sink) (ip : IPAddress)

theorem printField_counts {taken : List UInt8} {s : List UInt8 × Nat} (counts : Counts taken s) (i : Fin 4) :
    Counts taken (printField p ip s i) := by
  have digits := print_counts p s.1 (ip.bytes i) 10
  exact (counts.more digits).more (write_counts p _ 46)

theorem printTo_counts (taken : List UInt8) : Counts taken (printTo p taken ip) := by
  have start : Counts taken (taken,0) := ⟨[],by rw [List.append_nil]; rfl⟩
  have three := printField_counts p ip (printField_counts p ip (printField_counts p ip start 0) 1) 2
  exact three.more (print_counts p _ (ip.bytes 3) 10)

def fieldTexts : List (List UInt8) := List.ofFn fun i => printNumber (ip.bytes i).toNat 10

variable {p}

theorem printTo_all (all : ∀ taken c, p.takes taken c = true) (taken : List UInt8) :
    (printTo p taken ip).1 = taken ++ [46].intercalate (fieldTexts ip) := by
  simp [printTo,printField,Sink.print,Sink.write,writeBuffer_all all,all,fieldTexts,List.intercalate]

theorem number_digitLoop (n : Nat) (str : List UInt8) : number 0 (digitLoop (toBase 10) n str) = number n str := by
  induction n using Nat.strongRecOn generalizing str with
  | ind n ih =>
    have small : n - 10 * (n / 10) < 10 := by omega
    have code := (digitChar_decimal _ small).2
    have value : n / 10 * 10 + ((digitChar (n - 10 * (n / 10))).toNat - 48) = n := by omega
    rw [digitLoop]
    change number 0 (if n / 10 = 0 then digitChar (n - 10 * (n / 10)) :: str
      else digitLoop (toBase 10) (n / 10) (digitChar (n - 10 * (n / 10)) :: str)) = _
    split
    · rename_i last
      rw [last] at value
      rw [last,number_cons,value]
    · rw [ih (n / 10) (by omega),number_cons,value]

theorem field_digits (b : UInt8) : Field 0 (printNumber b.toNat 10) ∧ number 0 (printNumber b.toNat 10) = b.toNat := by
  have value : number 0 (printNumber b.toNat 10) = b.toNat := number_digitLoop b.toNat []
  refine ⟨⟨digitLoop_numeric b.toNat [] (fun d member => absurd member List.not_mem_nil),?_⟩,value⟩
  rw [value]
  exact Nat.le_of_lt_succ b.toNat_lt

theorem fieldTexts_dotted : Dotted (fieldTexts ip) ([46].intercalate (fieldTexts ip)) := by
  refine ⟨rfl,List.length_ofFn,fun field member => ?_⟩
  obtain ⟨i,rfl⟩ := List.mem_ofFn.mp member
  exact ⟨digitLoop_ne_nil _ _ _,(field_digits _).1⟩

theorem fieldTexts_free : 0 ∉ [46].intercalate (fieldTexts ip) := by
  have free (i : Fin 4) : 0 ∉ printNumber (ip.bytes i).toNat 10 :=
    fun member => absurd ((field_digits (ip.bytes i)).1.1 0 member) (by decide)
  simp [fieldTexts,List.intercalate,free]

/-- What an address prints is counted, and read back as this address. -/
theorem printTo_fromString (p : Sink) (taken : List UInt8) (ip other : IPAddress) :
    ∃ emitted, printTo p taken ip = (taken ++ emitted,emitted.length) ∧
      ((∀ taken c, p.takes taken c = true) → fromString other (emitted ++ [0]) = some (true,ip)) := by
  obtain ⟨emitted,ran⟩ := printTo_counts p ip taken
  refine ⟨emitted,ran,fun all => ?_⟩
  have text := printTo_all ip all taken
  rw [ran] at text
  obtain rfl := List.append_cancel_left text
  have dotted := fieldTexts_dotted ip
  have readable := fun field member => (dotted.numbers field member).2
  have accepts := (accepted_iff other 0 (fieldTexts ip)).mpr ⟨(Nat.zero_add _).trans dotted.four,readable⟩
  rw [fromString_fields other ⟨fieldTexts_free ip,[],rfl⟩,fields_unique dotted.joined dotted.four readable]
  refine congrArg some (Prod.ext accepts (IPAddress.ext (funext fun i => ?_)))
  rw [parseFields_bytes,if_pos ⟨Nat.zero_le _,Or.inl accepts⟩]
  change UInt8.ofNat (number 0 ((fieldTexts ip).getD i.val [])) = _
  have field : (fieldTexts ip).getD i.val [] = printNumber (ip.bytes i).toNat 10 := by
    rw [List.getD_eq_getElem?_getD,fieldTexts,List.getElem?_ofFn,dif_pos i.isLt]
    rfl
  rw [field,(field_digits _).2,UInt8.ofNat_toNat]

end Printing

end IPAddress
end OpenPlc.Net
