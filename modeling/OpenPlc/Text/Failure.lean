import OpenPlc.Text.Replace

/-! What `String` (`WString.cpp`) does when there is no memory: calls that leave the object as it is, assignments that
invalidate it, and the sums of `operator +`, which go on with an invalid object. -/
namespace OpenPlc.Text
open CString

structure Argument where
  object : Str
  content : List UInt8
  denotes : Denotes object content

/-- What can be appended, where a number is converted to its digits first. -/
inductive Operand
  | string (rhs : Argument)
  | text (cstr : Option CText)
  | char (c : UInt8)
  | number (digits : CText)
  | flash (str : Option CText)

/-- What a `StringSumHelper` is made of. -/
inductive First
  | string (s : Argument)
  | text (p : Option CText)
  | char (c : UInt8)
  | number (digits : CText)

namespace Str

def concatChar (s : Str) (c : UInt8) (answer : Alloc) : Option (Str × Bool) := do
  concatLength s (some (← text [c,0])) 1 answer

def concatNumber (s : Str) (digits : CText) (answer : Alloc) : Option (Str × Bool) :=
  concatLength s (some digits.bytes) digits.bytes.length answer

/-- `concat(const __FlashStringHelper *)` -/
def concatFlash (s : Str) (str : Option CText) (answer : Alloc) : Option (Str × Bool) := do
  match str with
  | none => return (s,false)
  | some str =>
    let length := str.bytes.length
    if length = 0 then return (s,true)
    let newlen := (s.len + length) % 4294967296
    let (s,done) ← reserve s newlen answer
    if done then
      let block ← strcpy (← s.bytes) s.len str.bytes
      return ({s with buffer := .block block, len := newlen},true)
    else return (s,false)

/-- The overloads of `concat`. -/
def concatOperand (s : Str) (operand : Operand) (answer : Alloc) : Option (Str × Bool) :=
  match operand with
  | .string rhs => concat s rhs.object answer
  | .text cstr => concatText s cstr answer
  | .char c => concatChar s c answer
  | .number digits => concatNumber s digits answer
  | .flash str => concatFlash s str answer

/-- `operator = (const __FlashStringHelper *)` -/
def assignFlash (s : Str) (pstr : Option CText) (answer : Alloc) : Option Str :=
  match pstr with
  | some pstr => copy s pstr.bytes pstr.bytes.length answer
  | none => invalidate s

/-- The constructors of `StringSumHelper`. -/
def helper (first : First) (answer : Alloc) : Option Str :=
  match first with
  | .string s => assign init s.object answer
  | .text none => some init
  | .text (some p) => copy init p.bytes p.bytes.length answer
  | .char c => do
    let buf ← text [c,0]
    copy init buf buf.length answer
  | .number digits => copy init digits.bytes digits.bytes.length answer

/-- `operator +`, with whether the concatenation succeeded. -/
def plus (a : Str) (operand : Operand) (answer : Alloc) : Option (Str × Bool) := do
  let (a,done) ← concatOperand a operand answer
  if done then return (a,true) else return (← invalidate a,false)

/-- The sum from its second operand on, and which of its steps succeeded. -/
def sumFrom (a : Str) : List (Operand × Alloc) → Option (Str × List Bool)
  | [] => some (a,[])
  | (operand,answer) :: rest => do
    let (a,done) ← plus a operand answer
    let (a,later) ← sumFrom a rest
    return (a,done :: later)

/-- `first + operand + …` -/
def sum (first : First) (answer : Alloc) (rest : List (Operand × Alloc)) : Option (Str × List Bool) := do
  let a ← helper first answer
  let (sum,later) ← sumFrom a rest
  return (sum,(match a.buffer with | .null => false | _ => true) :: later)

end Str

def Operand.chars : Operand → List UInt8
  | .string rhs => rhs.content
  | .text cstr => (cstr.map CText.bytes).getD []
  | .char c => [c]
  | .number digits => digits.bytes
  | .flash str => (str.map CText.bytes).getD []

def First.chars : First → List UInt8
  | .string s => s.content
  | .text p => (p.map CText.bytes).getD []
  | .char c => if c = 0 then [] else [c]
  | .number digits => digits.bytes

/-- The call asks for memory, and `realloc` fails. -/
def Fails (s : Str) (size : Nat) (answer : Alloc) : Prop :=
  (s.buffer = .null ∨ s.capacity < size) ∧ ∃ old, realloc s.buffer ((size + 1) % 4294967296) answer = some (old,none)

/-- An object whose length counts characters that may be zeros, which no copy can read back. -/
inductive Carries (s : Str) : List UInt8 → Prop
  | invalid (same : s = Str.init) : Carries s []
  | block (content bytes : List UInt8) (owned : s.buffer = .block bytes) (len : s.len = content.length)
      (holds : bytes.take content.length = content) (ends : 0 ∉ content → bytes[content.length]? = some 0)
      (room : content.length ≤ s.capacity) (length : bytes.length = s.capacity + 1) (small : bytes.length < objectLimit) :
      Carries s content

/-- The overload for flash reads its text as the others do. -/
theorem concatFlash_eq (s : Str) (str : CText) (answer : Alloc) :
    s.concatFlash (some str) answer = s.concatLength (some str.bytes) str.bytes.length answer := rfl

section Unchanged
variable (s : Str) (answer : Alloc)

theorem changeBuffer_fails (size : Nat) (bound : size < 4294967295) (fails : Fails s size answer) :
    s.changeBuffer size answer = some (s,false) := by
  obtain ⟨_,old,failed⟩ := fails
  have some_ : (size + 1) % 4294967296 ≠ 0 := by omega
  have same : old = s.buffer := by
    cases owned : s.buffer with
    | null =>
      rw [owned] at failed
      exact (congrArg Prod.fst (Option.some.inj failed)).symm
    | block bytes =>
      rw [owned,realloc,if_neg some_] at failed
      exact (congrArg Prod.fst (Option.some.inj failed)).symm
    | freed => simp [realloc,owned] at failed
  rw [Str.changeBuffer,failed,same]
  rfl

theorem reserve_fails (size : Nat) (bound : size < 4294967295) (fails : Fails s size answer) :
    s.reserve size answer = some (s,false) := by
  have short : ¬ (s.buffer ≠ .null ∧ size ≤ s.capacity) :=
    fun enough => fails.1.elim enough.1 (Nat.not_lt.mpr enough.2)
  rw [reserve_enters s size answer short,changeBuffer_fails s answer size bound fails]
  rfl

theorem concatLength_fails (source : List UInt8) (length : Nat) (some_ : length ≠ 0)
    (bound : (s.len + length) % 4294967296 < 4294967295) (fails : Fails s ((s.len + length) % 4294967296) answer) :
    s.concatLength (some source) length answer = some (s,false) := by
  simp [Str.concatLength,some_,reserve_fails s answer _ bound fails]

theorem text_char (c : UInt8) : text [c,0] = some (if c = 0 then [] else [c]) := by
  by_cases zero : c = 0 <;> simp [text,zero,eq_comm]

theorem concatOperand_fails (operand : Operand) (some_ : operand.chars ≠ [])
    (bound : (s.len + operand.chars.length) % 4294967296 < 4294967295)
    (fails : Fails s ((s.len + operand.chars.length) % 4294967296) answer) :
    s.concatOperand operand answer = some (s,false) := by
  have letters : operand.chars.length ≠ 0 := fun zero => some_ (List.eq_nil_of_length_eq_zero zero)
  have refused : ∀ source, s.concatLength (some source) operand.chars.length answer = some (s,false) :=
    fun source => concatLength_fails s answer source _ letters bound fails
  cases operand with
  | string rhs =>
    obtain ⟨object,content,denotes⟩ := rhs
    cases denotes with
    | null => contradiction
    | block _ represents => exact (concat_eq s object content answer represents).trans (refused content)
  | text cstr =>
    cases cstr with
    | none => contradiction
    | some cstr => exact refused cstr.bytes
  | char c =>
    simp only [Str.concatOperand,Str.concatChar,text_char]
    exact refused _
  | number digits => exact refused digits.bytes
  | flash str =>
    cases str with
    | none => contradiction
    | some str => exact (concatFlash_eq s str answer).trans (refused str.bytes)

theorem copy_fails (source : List UInt8) (length : Nat) (bound : length < 4294967295) (fails : Fails s length answer) :
    s.copy source length answer = some Str.init := by
  obtain ⟨_,old,failed⟩ := id fails
  rw [Str.copy,reserve_fails s answer length bound fails]
  cases owned : s.buffer with
  | null => simp [Str.invalidate,Str.release,owned]
  | block bytes => simp [Str.invalidate,Str.release,owned]
  | freed => simp [realloc,owned] at failed

theorem replace_fails (find replace : Argument) (content : List UInt8) (denotes : Denotes s content)
    (longer : find.content.length < replace.content.length)
    (bound : asked content find.content replace.content < 4294967295)
    (fails : Fails s (asked content find.content replace.content) answer) :
    s.replace find.object replace.object answer = some s := by
  by_cases nothing : s.len = 0 ∨ find.object.len = 0
  · simp [Str.replace,nothing]
  · rw [not_or] at nothing
    cases denotes with
    | null same => exact absurd (by rw [same]; rfl) nothing.1
    | block _ represents =>
      have letters : content ≠ [] := by
        rintro rfl
        exact nothing.1 represents.len
      have pattern : find.content ≠ [] := by
        intro empty
        exact nothing.2 (find.denotes.len.trans (by rw [empty]; rfl))
      rw [replace_measured s find.object replace.object content find.content replace.content answer represents find.denotes
        replace.denotes letters pattern longer]
      split
      · rfl
      · split
        · rw [changeBuffer_fails s answer _ bound fails]
          rfl
        · rename_i fits
          obtain ⟨_,bytes,owned,_⟩ := represents
          exact absurd fails.1 (by simp [owned,fits])

end Unchanged

section Sums
variable {s : Str} {content : List UInt8}

theorem Denotes.carries (denotes : Denotes s content) : Carries s content := by
  cases denotes with
  | null same => exact .invalid same
  | block _ represents =>
    obtain ⟨len,bytes,owned,holds,length,small⟩ := represents
    have behind := holds.length_lt
    exact .block content bytes owned len holds.take (fun _ => holds.getElem_length) (by omega) length small

theorem Carries.denotes (carries : Carries s content) (free : 0 ∉ content) : Denotes s content := by
  cases carries with
  | invalid same => exact .null same
  | block _ bytes owned len holds ends room length small =>
    have parts := List.take_append_drop content.length bytes
    obtain ⟨inside,zero⟩ := List.getElem?_eq_some_iff.mp (ends free)
    rw [holds,List.drop_eq_getElem_cons inside,zero] at parts
    exact .block content ⟨len,bytes,owned,⟨free,_,parts.symm⟩,length,small⟩

theorem Carries.len (carries : Carries s content) : s.len = content.length := by
  cases carries with
  | invalid same => rw [same]; rfl
  | block _ _ _ len => exact len

theorem Carries.short (carries : Carries s content) : content.length + 1 < objectLimit := by
  cases carries with
  | invalid => decide
  | block _ _ _ _ _ _ room length small => omega

theorem Carries.invalidate (carries : Carries s content) : s.invalidate = some Str.init := by
  cases carries with
  | invalid same => rw [same]; rfl
  | block _ bytes owned => simp [Str.invalidate,Str.release,owned]

theorem reserve_carries (size : Nat) (answer : Alloc) (carries : Carries s content) (bound : size < 4294967295) :
    s.reserve size answer = some (s,false) ∨
      ∃ after, s.reserve size answer = some (after,true) ∧ Carries after content ∧ size ≤ after.capacity ∧ after.len = s.len ∧
        after.buffer ≠ .null := by
  cases carries with
  | invalid same =>
    rcases reserve_spec s [] size answer (.null same) bound with refused | ⟨after,granted,represents,room⟩
    · exact Or.inl refused
    · obtain ⟨len,bytes,owned,_⟩ := id represents
      exact Or.inr ⟨after,granted,Denotes.carries (.block [] represents),room,by rw [len,same]; rfl,by simp [owned]⟩
  | block _ bytes owned len holds ends room length small =>
    by_cases enough : size ≤ s.capacity
    · right
      exact ⟨s,reserve_enough s size answer (by simp [owned]) enough,
        .block content bytes owned len holds ends room length small,enough,rfl,by simp [owned]⟩
    · have wrap : (size + 1) % 4294967296 = size + 1 := by omega
      rw [reserve_enters s size answer (fun both => enough both.2)]
      simp only [Str.changeBuffer,owned,realloc,wrap,Nat.succ_ne_zero,if_false]
      rcases allocated_cases answer bytes (size + 1) with refused | ⟨fill,fits,granted⟩
      · left
        simp [refused,← owned]
      · right
        have whole : bytes.take (size + 1) = bytes := List.take_of_length_le (by omega)
        rw [whole] at granted
        obtain ⟨more,more_eq⟩ : ∃ more, more = (List.range (size + 1 - bytes.length)).map fill := ⟨_,rfl⟩
        rw [← more_eq] at granted
        have grown : (bytes ++ more).length = size + 1 := by
          rw [more_eq,List.length_append,List.length_map,List.length_range]
          omega
        by_cases empty : s.len = 0
        · obtain rfl : content = [] := List.eq_nil_of_length_eq_zero (by omega)
          obtain ⟨block,written,ended,same⟩ := put_zero (bytes ++ more) 0 (by omega) (by simp)
          have first := ended.getElem_length
          exact ⟨⟨.block block,size,s.len⟩,by simp [granted,empty,Str.bytes,written],
            .block [] block rfl len rfl (fun _ => first) (Nat.zero_le _) (same.trans grown) (by omega),Nat.le_refl _,rfl,
            by simp⟩
        · refine ⟨⟨.block (bytes ++ more),size,s.len⟩,by simp [granted,empty],
            .block content (bytes ++ more) rfl len ?_ ?_ (by simp only; omega) grown (by omega),Nat.le_refl _,rfl,by simp⟩
          · rw [List.take_append_of_le_length (by omega)]
            exact holds
          · intro free
            rw [List.getElem?_append_left (by omega)]
            exact ends free

/-- The characters that a copy of a text adds to the length: its own, or a single zero. -/
structure Adds (source : List UInt8) (length : Nat) (chars : List UInt8) : Prop where
  total : chars.length = length
  some_ : 0 < length
  front : (source ++ [0]).take length = chars
  fits : source.length ≤ length
  ends : 0 ∉ chars → source.length = length
  short : length + 1 < objectLimit

theorem concatLength_carries (source chars : List UInt8) (length : Nat) (answer : Alloc) (carries : Carries s content)
    (adds : Adds source length chars) :
    s.concatLength (some source) length answer = some (s,false) ∨
      ∃ after, s.concatLength (some source) length answer = some (after,true) ∧ Carries after (content ++ chars) := by
  have len := carries.len
  obtain ⟨total,some_,front,fits,ends,short⟩ := adds
  obtain ⟨wrap,bound⟩ := lengths_fit s.len length (len ▸ carries.short) short
  have letters : length ≠ 0 := Nat.ne_of_gt some_
  rcases reserve_carries (s.len + length) answer carries (Nat.lt_of_succ_lt_succ bound) with
    refused | ⟨after,granted,carries',room,same,valid⟩
  · exact Or.inl (by simp [Str.concatLength,letters,wrap,refused])
  · right
    cases carries' with
    | invalid nothing => exact absurd (by rw [nothing]; rfl) valid
    | block _ bytes owned len' holds _ _ capacity small =>
      have reach : length ≤ source.length + 1 := by
        have taken := congrArg List.length front
        rw [List.length_take,List.length_append,List.length_singleton] at taken
        omega
      obtain ⟨block,written,head,_,size⟩ := put_spec bytes content.length (source ++ [0])
        (by rw [List.length_append,List.length_singleton]; omega)
      rw [holds,List.length_append,List.length_singleton] at head
      refine ⟨⟨.block block,after.capacity,s.len + length⟩,?_,
        .block _ block rfl ?_ ?_ ?_ ?_ (size.trans capacity) (by omega)⟩
      · simp [Str.concatLength,letters,wrap,granted,Str.bytes,owned,strcpy,len',written]
      · rw [List.length_append,total,len]
      · have cut : block.take (content.length + length) =
            (block.take (content.length + (source.length + 1))).take (content.length + length) := by
          rw [List.take_take,Nat.min_eq_left (by omega)]
        rw [List.length_append,total,cut,head,List.take_length_add_append,front]
      · intro free
        have same_length := ends fun zero => free (List.mem_append_right _ zero)
        have last : (block.take (content.length + (source.length + 1)))[content.length + source.length]? =
            (content ++ (source ++ [0]))[content.length + source.length]? := by rw [head]
        rw [List.getElem?_take_of_lt (by omega),List.getElem?_append_right (by omega)] at last
        rw [List.length_append,total,← same_length,last]
        simp
      · have within : content.length + length ≤ after.capacity := by omega
        rw [List.length_append,total]
        exact within

theorem adds_text (source : List UInt8) (letters : source ≠ []) (short : source.length + 1 < objectLimit) :
    Adds source source.length source :=
  ⟨rfl,List.length_pos_iff.mpr letters,by simp,Nat.le_refl _,fun _ => rfl,short⟩

theorem concatText_carries (source : List UInt8) (answer : Alloc) (carries : Carries s content)
    (short : source.length + 1 < objectLimit) :
    s.concatLength (some source) source.length answer = some (s,false) ∨
      ∃ after, s.concatLength (some source) source.length answer = some (after,true) ∧ Carries after (content ++ source) := by
  by_cases empty : source = []
  · subst empty
    exact Or.inr ⟨s,by simp [Str.concatLength],by rw [List.append_nil]; exact carries⟩
  · exact concatLength_carries source source source.length answer carries (adds_text source empty short)

theorem concatOperand_carries (operand : Operand) (answer : Alloc) (carries : Carries s content) :
    s.concatOperand operand answer = some (s,false) ∨
      ∃ after, s.concatOperand operand answer = some (after,true) ∧ Carries after (content ++ operand.chars) := by
  cases operand with
  | string rhs =>
    obtain ⟨object,source,denotes⟩ := rhs
    have short := denotes.short
    cases denotes with
    | null same =>
      have refused : s.concat object answer = some (s,false) := by rw [same]; rfl
      exact Or.inl refused
    | block _ represents =>
      rw [Str.concatOperand,concat_eq s object source answer represents]
      exact concatText_carries source answer carries short
  | text cstr =>
    cases cstr with
    | none => exact Or.inl rfl
    | some cstr => exact concatText_carries cstr.bytes answer carries cstr.short
  | char c =>
    have adds : Adds (if c = 0 then [] else [c]) 1 [c] := by
      by_cases zero : c = 0
      · subst zero
        exact ⟨rfl,Nat.one_pos,rfl,Nat.zero_le 1,fun free => absurd (List.mem_singleton_self 0) free,by decide⟩
      · rw [if_neg zero]
        exact ⟨rfl,Nat.one_pos,rfl,Nat.le_refl 1,fun _ => rfl,by decide⟩
    simp only [Str.concatOperand,Str.concatChar,text_char]
    exact concatLength_carries _ [c] 1 answer carries adds
  | number digits => exact concatText_carries digits.bytes answer carries digits.short
  | flash str =>
    cases str with
    | none => exact Or.inl rfl
    | some str =>
      rw [Str.concatOperand,concatFlash_eq s str answer]
      exact concatText_carries str.bytes answer carries str.short

theorem plus_carries (operand : Operand) (answer : Alloc) (carries : Carries s content) :
    ∃ after done, s.plus operand answer = some (after,done) ∧
      Carries after (if done then content ++ operand.chars else []) := by
  rcases concatOperand_carries operand answer carries with failed | ⟨after,appended,carries'⟩
  · exact ⟨Str.init,false,by simp [Str.plus,failed,carries.invalidate],.invalid rfl⟩
  · exact ⟨after,true,by simp [Str.plus,appended],carries'⟩

/-- What is left of a sum: the characters appended since its last failure. -/
def since (content : List UInt8) (steps : List (Bool × List UInt8)) : List UInt8 :=
  steps.foldl (fun text step => if step.1 then text ++ step.2 else []) content

theorem sumFrom_carries (rest : List (Operand × Alloc)) (carries : Carries s content) :
    ∃ final flags, s.sumFrom rest = some (final,flags) ∧ flags.length = rest.length ∧
      Carries final (since content (flags.zip (rest.map fun step => step.1.chars))) := by
  induction rest generalizing s content with
  | nil => exact ⟨s,[],rfl,rfl,carries⟩
  | cons step rest ih =>
    obtain ⟨operand,answer⟩ := step
    obtain ⟨after,done,added,carries'⟩ := plus_carries operand answer carries
    obtain ⟨final,flags,ran,length,ends⟩ := ih carries'
    exact ⟨final,done :: flags,by simp [Str.sumFrom,added,ran],by simp [length],ends⟩

theorem since_successes (content : List UInt8) (steps : List (Bool × List UInt8)) (all : ∀ step ∈ steps, step.1 = true) :
    since content steps = content ++ (steps.map Prod.snd).flatten := by
  induction steps generalizing content with
  | nil => simp [since]
  | cons step steps ih =>
    have first := all step List.mem_cons_self
    have rest := ih (content ++ step.2) fun later member => all later (List.mem_cons_of_mem step member)
    rw [since,List.foldl_cons,if_pos first]
    rw [since] at rest
    rw [rest]
    simp

/-- After a failure that only successes follow, the characters behind it are left. -/
theorem since_failure (content : List UInt8) (before after : List Bool) (texts : List (List UInt8))
    (length : (before ++ false :: after).length = texts.length) (all : ∀ done ∈ after, done = true) :
    since content ((before ++ false :: after).zip texts) = (texts.drop (before.length + 1)).flatten := by
  rw [List.length_append,List.length_cons] at length
  have parts : texts = texts.take before.length ++ texts[before.length] :: texts.drop (before.length + 1) := by
    rw [← List.drop_eq_getElem_cons,List.take_append_drop]
  have later : after.length = (texts.drop (before.length + 1)).length := by
    rw [List.length_drop]
    omega
  have successes : ∀ step ∈ after.zip (texts.drop (before.length + 1)), step.1 = true :=
    fun step member => all step.1 (List.of_mem_zip member).1
  have restarts : since content ((before ++ false :: after).zip texts) =
      since [] (after.zip (texts.drop (before.length + 1))) := by
    conv_lhs => rw [parts]
    rw [List.zip_append (by rw [List.length_take]; omega),List.zip_cons_cons]
    simp [since]
  rw [restarts,since_successes [] _ successes,List.nil_append,List.map_snd_zip (by omega)]

theorem helper_carries (first : First) (answer : Alloc) :
    Str.helper first answer = some Str.init ∨ ∃ a, Str.helper first answer = some a ∧ Represents a first.chars := by
  have copies : ∀ source : List UInt8, 0 ∉ source → source.length + 1 < objectLimit →
      Str.init.copy source source.length answer = some Str.init ∨
        ∃ a, Str.init.copy source source.length answer = some a ∧ Represents a source :=
    fun source free short => copy_spec Str.init [] source answer (.null rfl) free short
  cases first with
  | string s => exact assign_result Str.init s.object [] s.content answer (.null rfl) s.denotes
  | text p =>
    cases p with
    | none => exact Or.inl rfl
    | some p => exact copies p.bytes p.free p.short
  | char c =>
    simp only [Str.helper,text_char]
    by_cases zero : c = 0
    · simp only [First.chars,zero,if_true]
      exact copies [] (by simp) (by decide)
    · simp only [First.chars,zero,if_false]
      exact copies [c] (by simpa using Ne.symm zero) (by simp [objectLimit])
  | number digits => exact copies digits.bytes digits.free digits.short

theorem sum_carries (first : First) (answer : Alloc) (rest : List (Operand × Alloc)) :
    ∃ final flags, Str.sum first answer rest = some (final,flags) ∧ flags.length = rest.length + 1 ∧
      Carries final (since [] (flags.zip (first.chars :: rest.map fun step => step.1.chars))) := by
  rcases helper_carries first answer with refused | ⟨a,made,represents⟩
  · obtain ⟨final,flags,ran,length,carries⟩ := sumFrom_carries rest (Carries.invalid rfl)
    refine ⟨final,false :: flags,?_,by simp [length],carries⟩
    rw [Str.sum,refused,Option.bind_eq_bind,Option.bind_some,ran]
    rfl
  · obtain ⟨final,flags,ran,length,carries⟩ := sumFrom_carries rest (Denotes.carries (.block _ represents))
    obtain ⟨_,bytes,owned,_⟩ := represents
    exact ⟨final,true :: flags,by simp [Str.sum,made,ran,owned],by simp [length],carries⟩

end Sums

/-- Without memory a call returns 0 and changes nothing, or invalidates what it assigns to. A sum with a failed step is
invalid or has the characters of the operands behind the last such step; so has the `String` that it is copied to, where
none of them is a zero. -/
theorem allocation_failure (s : Str) (answer : Alloc) :
    (∀ size, size < 4294967295 → Fails s size answer → s.reserve size answer = some (s,false)) ∧
    (∀ operand : Operand, operand.chars ≠ [] → (s.len + operand.chars.length) % 4294967296 < 4294967295 →
      Fails s ((s.len + operand.chars.length) % 4294967296) answer → s.concatOperand operand answer = some (s,false)) ∧
    (∀ content (find replace : Argument), Denotes s content → find.content.length < replace.content.length →
      asked content find.content replace.content < 4294967295 →
      Fails s (asked content find.content replace.content) answer → s.replace find.object replace.object answer = some s) ∧
    (∀ rhs : Argument, rhs.object.buffer ≠ .null → Fails s rhs.content.length answer →
      s.assign rhs.object answer = some Str.init) ∧
    (∀ cstr : CText, Fails s cstr.bytes.length answer → s.assignText (some cstr) answer = some Str.init ∧
      s.assignFlash (some cstr) answer = some Str.init) ∧
    (∀ first rest, ∃ final flags, Str.sum first answer rest = some (final,flags) ∧ flags.length = rest.length + 1 ∧
      ∀ before after, flags = before ++ false :: after → (∀ done ∈ after, done = true) →
        Carries final ((rest.drop before.length).flatMap fun step => step.1.chars) ∧
        (0 ∉ (rest.drop before.length).flatMap (fun step => step.1.chars) → ∀ last, ∃ x, Str.init.assign final last = some x ∧
          (x = Str.init ∨ Represents x ((rest.drop before.length).flatMap fun step => step.1.chars)))) := by
  refine ⟨reserve_fails s answer,concatOperand_fails s answer,?_,?_,?_,?_⟩
  · intro content find replace denotes longer bound fails
    exact replace_fails s answer find replace content denotes longer bound fails
  · rintro ⟨object,source,denotes⟩ valid fails
    have short := denotes.short
    cases denotes with
    | null same => exact absurd (congrArg Str.buffer same) valid
    | block _ represents =>
      simp only [objectLimit] at short
      exact (assign_eq s object source answer represents).trans (copy_fails s answer source source.length (by omega) fails)
  · intro cstr fails
    have short := cstr.short
    have lost := copy_fails s answer cstr.bytes cstr.bytes.length (by omega) fails
    exact ⟨lost,lost⟩
  · intro first rest
    obtain ⟨final,flags,ran,length,carries⟩ := sum_carries first answer rest
    refine ⟨final,flags,ran,length,?_⟩
    rintro before after rfl all
    rw [since_failure [] before after _ (by simp [length]) all,List.drop_succ_cons,← List.map_drop,
      ← List.flatMap_def] at carries
    refine ⟨carries,fun free last => ?_⟩
    rcases assign_result Str.init final [] _ last (.null rfl) (carries.denotes free) with lost | copied
    · exact ⟨Str.init,lost,Or.inl rfl⟩
    · obtain ⟨x,copied,represents⟩ := copied
      exact ⟨x,copied,Or.inr represents⟩

/-- "a" has no room for "b", and a sum that lost its first operands ends with the last one. -/
theorem allocation_failure_full :
    (fitted [97]).concatOperand (.char 98) .refuse = some (fitted [97],false) ∧
      ∃ final, Str.sum (.char 97) .refuse [(.char 98,.refuse),(.char 99,.grant fun _ => 0)] = some (final,[false,false,true]) ∧
        Carries final [99] := by
  obtain ⟨_,concats,_,_,_,sums⟩ := allocation_failure (fitted [97]) .refuse
  refine ⟨concats (.char 98) (by simp [Operand.chars]) (by decide) ⟨Or.inr (by decide),_,rfl⟩,?_⟩
  obtain ⟨final,flags,ran,_,carries⟩ := sums (.char 97) [(.char 98,.refuse),(.char 99,.grant fun _ => 0)]
  have known : flags = [false,false,true] := congrArg Prod.snd (Option.some.inj ran).symm
  subst known
  exact ⟨final,ran,(carries [false] [true] rfl (by simp)).1⟩

end OpenPlc.Text
