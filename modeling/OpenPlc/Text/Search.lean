import OpenPlc.Text.Replace

/-! The prefixes, suffixes and searches of `String` (`WString.cpp`). That a call reads nothing behind a terminator is
shown by running it on blocks that end there. -/
namespace OpenPlc.Text
open CString Replacement

namespace Str

def valid (s : Str) : Bool :=
  match s.buffer with
  | .block _ => true
  | _ => false

/-- `unsigned - unsigned` -/
def subWrap (value other : Nat) : Nat := (value + (4294967296 - other)) % 4294967296

/-- `startsWith(s2, offset)` -/
def startsWithAt (s s2 : Str) (offset : Nat) : Option Bool := do
  if subWrap s.len s2.len < offset then return false
  match s.buffer,s2.buffer with
  | .null,_ => return false
  | _,.null => return false
  | _,_ => strncmp ((← s.bytes).drop offset) (← s2.bytes) s2.len

def startsWith (s s2 : Str) : Option Bool := if s.len < s2.len then some false else startsWithAt s s2 0

def endsWith (s s2 : Str) : Option Bool := do
  if s.len < s2.len then return false
  match s.buffer,s2.buffer with
  | .null,_ => return false
  | _,.null => return false
  | _,_ => strcmp ((← s.bytes).drop (s.len - s2.len)) (← s2.bytes)

/-- `indexOf(ch, fromIndex)`, where -1 is `none`. -/
def indexOfChar (s : Str) (ch : UInt8) (fromIndex : Nat) : Option (Option Nat) := do
  if s.len ≤ fromIndex then return none
  return (← strchr ch ((← s.bytes).drop fromIndex)).map (fromIndex + ·)

def indexOf (s s2 : Str) (fromIndex : Nat) : Option (Option Nat) := do
  if s.len ≤ fromIndex then return none
  strstr (← s.bytes) fromIndex (← text (← s2.bytes))

/-- The same object in a block that ends with the terminator. -/
def cut (s : Str) : Str :=
  match s.buffer with
  | .block bytes => {s with buffer := .block (bytes.take (s.len + 1))}
  | _ => s

end Str

/-- A call returns this, and does not read behind the terminators. -/
def Confined {α : Type} (call : Str → Str → Option α) (s s2 : Str) (result : α) : Prop :=
  call s s2 = some result ∧ call s.cut s2.cut = some result

/-- The least number with a property, or that there is none. -/
def Least (P : Nat → Prop) : Option Nat → Prop
  | none => ∀ i, ¬ P i
  | some i => P i ∧ ∀ j, j < i → ¬ P j

theorem Reads.cut {s : Str} {content : List UInt8} (reads : Reads s content) : Reads s.cut content ∧ s.cut.valid = s.valid := by
  cases reads with
  | null nothing len =>
    have same : s.cut = s := by simp [Str.cut,nothing]
    rw [same]
    exact ⟨.null nothing len,rfl⟩
  | block _ bytes owned holds len =>
    have same : s.cut = {s with buffer := .block (bytes.take (s.len + 1))} := by simp [Str.cut,owned]
    obtain ⟨rest,parts⟩ := holds.parts
    rw [same]
    refine ⟨.block content (bytes.take (s.len + 1)) rfl ⟨holds.free,[],?_⟩ len,by simp [Str.valid,owned]⟩
    rw [parts,len,List.take_append]
    simp

theorem Reads.of_valid {s : Str} {content : List UInt8} (reads : Reads s content) (valid : s.valid = true) :
    ∃ bytes, s.buffer = .block bytes ∧ Holds bytes content := by
  cases reads with
  | null nothing => simp [Str.valid,nothing] at valid
  | block _ bytes owned holds => exact ⟨bytes,owned,holds⟩

theorem Reads.of_invalid {s : Str} {content : List UInt8} (reads : Reads s content) (invalid : s.valid = false) :
    s.buffer = .null ∧ content = [] := by
  cases reads with
  | null nothing => exact ⟨nothing,rfl⟩
  | block _ bytes owned => simp [Str.valid,owned] at invalid

/-- What holds of every object with the text of another holds behind its terminators too. -/
theorem confined_of {α : Type} {call : Str → Str → Option α} {s s2 : Str} {content pattern : List UInt8} {result : α}
    (of_s : Reads s content) (of_s2 : Reads s2 pattern)
    (law : ∀ t t2, Reads t content → Reads t2 pattern → t.valid = s.valid → t2.valid = s2.valid → call t t2 = some result) :
    Confined call s s2 result :=
  ⟨law s s2 of_s of_s2 rfl rfl,law s.cut s2.cut of_s.cut.1 of_s2.cut.1 of_s.cut.2 of_s2.cut.2⟩

section Laws
variable {s s2 : Str} {content pattern : List UInt8}

theorem subWrap_le (small : content.length < objectLimit) (fits : pattern.length ≤ content.length) :
    Str.subWrap content.length pattern.length = content.length - pattern.length := by
  simp only [objectLimit] at small
  unfold Str.subWrap
  omega

theorem prefix_fits {content pattern : List UInt8} (offset : Nat) (occurs : pattern <+: content.drop offset)
    (inside : offset ≤ content.length) : offset + pattern.length ≤ content.length := by
  have reach := occurs.length_le
  rw [List.length_drop] at reach
  omega

/-- The guard is right unless it wraps around with an offset behind the text. -/
theorem startsWithAt_eq (offset : Nat) (of_s : Reads s content) (of_s2 : Reads s2 pattern) (small : content.length < objectLimit)
    (small2 : pattern.length < objectLimit)
    (regular : s.valid = false ∨ s2.valid = false ∨ pattern.length ≤ content.length ∨ offset ≤ content.length ∨
      4294967296 + content.length < offset + pattern.length) :
    s.startsWithAt s2 offset =
      some (s.valid && s2.valid && decide (offset + pattern.length ≤ content.length ∧ pattern <+: content.drop offset)) := by
  cases valid : s.valid with
  | false =>
    obtain ⟨null,rfl⟩ := of_s.of_invalid valid
    simp [Str.startsWithAt,null]
  | true =>
    obtain ⟨bytes,owned,holds⟩ := of_s.of_valid valid
    cases valid2 : s2.valid with
    | false =>
      obtain ⟨null,rfl⟩ := of_s2.of_invalid valid2
      simp [Str.startsWithAt,owned,null]
    | true =>
      obtain ⟨bytes2,owned2,holds2⟩ := of_s2.of_valid valid2
      have compares : s.startsWithAt s2 offset = if Str.subWrap content.length pattern.length < offset then some false
          else strncmp (bytes.drop offset) bytes2 pattern.length := by
        simp [Str.startsWithAt,owned,owned2,Str.bytes,of_s.len,of_s2.len]
      rw [compares]
      simp only [valid,valid2,Bool.true_eq_false,false_or] at regular
      by_cases fits : pattern.length ≤ content.length
      · rw [subWrap_le small fits]
        by_cases inside : offset + pattern.length ≤ content.length
        · rw [if_neg (by omega),strncmp_spec (holds.drop_le offset (by omega)) holds2]
          simp [inside]
        · rw [if_pos (by omega)]
          simp [inside]
      · simp only [objectLimit] at small small2
        have wrapped : Str.subWrap content.length pattern.length = 4294967296 + content.length - pattern.length := by
          unfold Str.subWrap
          omega
        rw [wrapped]
        rcases regular.resolve_left fits with within | beyond
        · have missing : ¬ pattern <+: content.drop offset := fun occurs => by
            have reach := prefix_fits offset occurs within
            omega
          rw [if_neg (by omega),strncmp_spec (holds.drop_le offset within) holds2]
          simp [missing]
        · have outside : ¬ offset + pattern.length ≤ content.length := by omega
          rw [if_pos (by omega)]
          simp [outside]

theorem startsWith_eq (of_s : Reads s content) (of_s2 : Reads s2 pattern) (small : content.length < objectLimit)
    (small2 : pattern.length < objectLimit) :
    s.startsWith s2 = some (s.valid && s2.valid && decide (pattern <+: content)) := by
  rw [Str.startsWith,of_s.len,of_s2.len]
  split
  · rename_i shorter
    have missing : ¬ pattern <+: content := fun occurs => absurd occurs.length_le (Nat.not_le.mpr shorter)
    simp [missing]
  · rename_i fits
    rw [startsWithAt_eq 0 of_s of_s2 small small2 (Or.inr (Or.inr (Or.inl (Nat.not_lt.mp fits))))]
    simp [Nat.not_lt.mp fits]

theorem endsWith_eq (of_s : Reads s content) (of_s2 : Reads s2 pattern) :
    s.endsWith s2 = some (s.valid && s2.valid && decide (pattern <:+ content)) := by
  cases valid : s.valid with
  | false =>
    obtain ⟨null,rfl⟩ := of_s.of_invalid valid
    simp [Str.endsWith,null]
  | true =>
    obtain ⟨bytes,owned,holds⟩ := of_s.of_valid valid
    cases valid2 : s2.valid with
    | false =>
      obtain ⟨null,rfl⟩ := of_s2.of_invalid valid2
      simp [Str.endsWith,owned,null]
    | true =>
      obtain ⟨bytes2,owned2,holds2⟩ := of_s2.of_valid valid2
      have compares : s.endsWith s2 = if content.length < pattern.length then some false
          else strcmp (bytes.drop (content.length - pattern.length)) bytes2 := by
        simp [Str.endsWith,owned,owned2,Str.bytes,of_s.len,of_s2.len]
      rw [compares]
      by_cases shorter : content.length < pattern.length
      · have missing : ¬ pattern <:+ content := fun ends => absurd ends.length_le (Nat.not_le.mpr shorter)
        simp [shorter,missing]
      · rw [if_neg shorter,strcmp_spec (holds.drop_le _ (Nat.sub_le _ _)) holds2]
        simp [List.suffix_iff_eq_drop,eq_comm]

theorem indexOfChar_eq (ch : UInt8) (some_ : ch ≠ 0) (fromIndex : Nat) (of_s : Reads s content) :
    s.indexOfChar ch fromIndex = some (((content.drop fromIndex).findIdx? (· == ch)).map (fromIndex + ·)) := by
  by_cases behind : content.length ≤ fromIndex
  · rw [List.drop_eq_nil_of_le behind]
    simp [Str.indexOfChar,of_s.len,behind]
  · cases of_s with
    | null _ len => simp at behind
    | block _ bytes owned holds len =>
      have found := strchr_spec (holds.drop_le fromIndex (by omega)) ch some_
      simp [Str.indexOfChar,len,behind,Str.bytes,owned,found]

theorem indexOfChar_zero (fromIndex : Nat) (of_s : Reads s content) :
    s.indexOfChar 0 fromIndex = some (if fromIndex < content.length then some content.length else none) := by
  by_cases behind : content.length ≤ fromIndex
  · simp [Str.indexOfChar,of_s.len,behind,Nat.not_lt.mpr behind]
  · cases of_s with
    | null _ len => simp at behind
    | block _ bytes owned holds len =>
      have inside := Nat.lt_of_not_le behind
      have found := strchr_zero (holds.drop_le fromIndex inside.le)
      have stop : fromIndex + (content.length - fromIndex) = content.length := by omega
      simp [Str.indexOfChar,len,behind,inside,Str.bytes,owned,found,stop]

theorem indexOf_eq (fromIndex : Nat) (of_s : Reads s content) (valid : s2.valid = true ∨ content.length ≤ fromIndex)
    (of_s2 : Reads s2 pattern) :
    s.indexOf s2 fromIndex = some (if fromIndex < content.length then
      (search pattern (content.drop fromIndex)).map (fromIndex + ·) else none) := by
  by_cases behind : content.length ≤ fromIndex
  · simp [Str.indexOf,of_s.len,behind,Nat.not_lt.mpr behind]
  · obtain ⟨bytes2,owned2,holds2⟩ := of_s2.of_valid (valid.resolve_right behind)
    cases of_s with
    | null _ len => simp at behind
    | block _ bytes owned holds len =>
      have inside := Nat.lt_of_not_le behind
      have found := strstr_spec bytes (content.drop fromIndex) pattern fromIndex (holds.drop_le fromIndex inside.le)
      simp [Str.indexOf,len,behind,inside,Str.bytes,owned,owned2,holds2.text,found]

theorem Least.shift {P : Nat → Prop} {found : Option Nat} (fromIndex : Nat) (least : Least (fun d => P (fromIndex + d)) found) :
    Least (fun i => fromIndex ≤ i ∧ P i) (found.map (fromIndex + ·)) := by
  cases found with
  | none =>
    rintro i ⟨later,holds⟩
    apply least (i - fromIndex)
    rw [Nat.add_sub_cancel' later]
    exact holds
  | some d =>
    refine ⟨⟨Nat.le_add_right _ _,least.1⟩,?_⟩
    rintro j before ⟨later,holds⟩
    apply least.2 (j - fromIndex) (by simp only at before; omega)
    rw [Nat.add_sub_cancel' later]
    exact holds

theorem search_least (pattern word : List UInt8) : Least (fun d => pattern <+: word.drop d) (search pattern word) := by
  cases place : search pattern word with
  | none => exact search_none word place
  | some d => exact search_some word d place

theorem findIdx_least (word : List UInt8) (ch : UInt8) : Least (fun d => word[d]? = some ch) (word.findIdx? (· == ch)) := by
  cases place : word.findIdx? (· == ch) with
  | none =>
    intro d here
    have other := List.findIdx?_eq_none_iff.mp place ch (List.mem_of_getElem? here)
    simp at other
  | some d =>
    obtain ⟨inside,here,before⟩ := List.findIdx?_eq_some_iff_getElem.mp place
    refine ⟨by simpa [List.getElem?_eq_getElem inside] using here,?_⟩
    intro j lower same
    obtain ⟨within,equal⟩ := List.getElem?_eq_some_iff.mp same
    exact before j lower (by simp [equal])

/-- Where the text of `s2` occurs in that of `s` from the index on. -/
def OccursFrom (content pattern : List UInt8) (fromIndex i : Nat) : Prop := fromIndex ≤ i ∧ pattern <+: content.drop i

def CharFrom (content : List UInt8) (ch : UInt8) (fromIndex i : Nat) : Prop := fromIndex ≤ i ∧ content[i]? = some ch

/-- The prefixes, suffixes and searches of two objects, apart from an offset that the guard of `startsWith` lets pass
because it wraps around, and from the search for an invalid object. A zero is found at the terminator. -/
theorem search_laws (s s2 : Str) (content pattern : List UInt8) (ch : UInt8) (index : UInt32) (of_s : Denotes s content)
    (of_s2 : Denotes s2 pattern) :
    (s.valid = false ∨ s2.valid = false ∨ pattern.length ≤ content.length ∨ index.toNat ≤ content.length ∨
      4294967296 + content.length < index.toNat + pattern.length →
      Confined (fun s s2 => s.startsWithAt s2 index.toNat) s s2 (s.valid && s2.valid &&
        decide (index.toNat + pattern.length ≤ content.length ∧ pattern <+: content.drop index.toNat))) ∧
    Confined Str.endsWith s s2 (s.valid && s2.valid && decide (pattern <:+ content)) ∧
    (∃ result, Confined (fun s _ => s.indexOfChar ch index.toNat) s s2 result ∧
      if ch = 0 then result = if index.toNat < content.length then some content.length else none
      else Least (CharFrom content ch index.toNat) result) ∧
    (s2.valid = true ∨ content.length ≤ index.toNat →
      ∃ result, Confined (fun s s2 => s.indexOf s2 index.toNat) s s2 result ∧
        if index.toNat < content.length then Least (OccursFrom content pattern index.toNat) result else result = none) := by
  have short := of_s.short
  have short2 := of_s2.short
  refine ⟨?_,?_,?_,?_⟩
  · intro regular
    apply confined_of of_s.reads of_s2.reads
    intro t t2 reads reads2 same same2
    rw [← same,← same2] at regular ⊢
    exact startsWithAt_eq index.toNat reads reads2 (by omega) (by omega) regular
  · apply confined_of of_s.reads of_s2.reads
    intro t t2 reads reads2 same same2
    rw [← same,← same2]
    exact endsWith_eq reads reads2
  · by_cases zero : ch = 0
    · subst zero
      refine ⟨_,confined_of of_s.reads of_s2.reads fun t _ reads _ _ _ => indexOfChar_zero index.toNat reads,?_⟩
      rw [if_pos rfl]
    · refine ⟨_,confined_of of_s.reads of_s2.reads fun t _ reads _ _ _ => indexOfChar_eq ch zero index.toNat reads,?_⟩
      rw [if_neg zero]
      apply Least.shift
      have least := findIdx_least (content.drop index.toNat) ch
      simp only [List.getElem?_drop] at least
      exact least
  · intro valid
    refine ⟨if index.toNat < content.length then (search pattern (content.drop index.toNat)).map (index.toNat + ·) else none,
      confined_of of_s.reads of_s2.reads ?_,?_⟩
    · intro t t2 reads reads2 _ same2
      rw [← same2] at valid
      exact indexOf_eq index.toNat reads valid reads2
    · split
      · apply Least.shift
        have least := search_least pattern (content.drop index.toNat)
        simp only [List.drop_drop] at least
        exact least
      · rfl

theorem search_laws_found :
    Confined Str.endsWith (fitted [97,98,97,98]) (fitted [97,98]) true ∧
      Confined (fun s s2 => s.startsWithAt s2 2) (fitted [97,98,97,98]) (fitted [97,98]) true := by
  have laws := search_laws (fitted [97,98,97,98]) (fitted [97,98]) [97,98,97,98] [97,98] 98 2
    (fitted_denotes _ (by decide) (by decide)) (fitted_denotes _ (by decide) (by decide))
  exact ⟨laws.2.1,laws.1 (Or.inr (Or.inr (Or.inl (by decide))))⟩

/-- The empty text of an invalid object is a prefix that `startsWith` denies, because its guard tests for the null pointer;
a zero is found behind the last character. -/
theorem startsWith_invalid :
    Denotes (fitted [97]) [97] ∧ Denotes Str.init [] ∧ 0 + ([] : List UInt8).length ≤ [97].length ∧ [] <+: [97].drop 0 ∧
      (fitted [97]).startsWithAt Str.init 0 = some false ∧ (fitted [97]).indexOfChar 0 0 = some (some 1) := by
  refine ⟨fitted_denotes _ (by decide) (by decide),.null rfl,by decide,?_,rfl,rfl⟩
  exact List.nil_prefix

theorem LastBefore.unique {pattern word : List UInt8} {bound : Nat} {first second : Option Nat}
    (one : LastBefore pattern word bound first) (other : LastBefore pattern word bound second) : first = second := by
  cases first with
  | none =>
    cases second with
    | none => rfl
    | some q => exact absurd other.2.1 (one q other.1)
  | some p =>
    cases second with
    | none => exact absurd one.2.1 (other p one.1)
    | some q =>
      rcases Nat.lt_trichotomy p q with lower | same | higher
      · exact absurd other.2.1 (one.2.2 q lower other.1)
      · rw [same]
      · exact absurd one.2.1 (other.2.2 p higher one.1)

theorem lastIndexOf_reads (fromIndex : Nat) (of_s : Reads s content) (of_s2 : Reads s2 pattern) (some_ : pattern ≠ []) :
    ∃ result, s.lastIndexOf s2 fromIndex = some result ∧
      LastBefore pattern content (min (fromIndex + 1) content.length) result := by
  have long := List.length_pos_of_ne_nil some_
  by_cases short : content.length < pattern.length
  · refine ⟨none,by simp [Str.lastIndexOf,of_s.len,of_s2.len,short],?_⟩
    intro e below occurs
    have reach := prefix_fits e occurs (by omega)
    omega
  · cases of_s with
    | null => exact absurd long short
    | block _ bytes owned holds len =>
      cases of_s2 with
      | null => contradiction
      | block _ bytes2 owned2 holds2 len2 =>
        have enters : ¬ (s2.len = 0 ∨ s.len = 0 ∨ s.len < s2.len) := by omega
        obtain ⟨bound,clamp⟩ : ∃ bound, bound = if content.length ≤ fromIndex then content.length - 1 else fromIndex := ⟨_,rfl⟩
        have inside : bound < content.length := by split at clamp <;> omega
        have place : bound + 1 = min (fromIndex + 1) content.length := by split at clamp <;> omega
        obtain ⟨result,looped,last⟩ := lastIndexLoop_spec bytes content pattern bound holds inside (bound + 2) 0 none
          (by omega) (by omega) (fun e below => by omega)
        rw [place] at last
        refine ⟨result,?_,last⟩
        simp only [Str.lastIndexOf]
        rw [if_neg enters,len,← clamp]
        simp [Str.bytes,owned,owned2,holds2.text,looped]

/-- The last occurrence at the index or in front of it. -/
theorem last_occurrence (s s2 : Str) (content pattern : List UInt8) (fromIndex : UInt32) (of_s : Denotes s content)
    (of_s2 : Denotes s2 pattern) (some_ : pattern ≠ []) :
    ∃ result, Confined (fun s s2 => s.lastIndexOf s2 fromIndex.toNat) s s2 result ∧
      LastBefore pattern content (min (fromIndex.toNat + 1) content.length) result := by
  obtain ⟨result,_,last⟩ := lastIndexOf_reads fromIndex.toNat of_s.reads of_s2.reads some_
  refine ⟨result,confined_of of_s.reads of_s2.reads ?_,last⟩
  intro t t2 reads reads2 _ _
  obtain ⟨same,finds,also⟩ := lastIndexOf_reads fromIndex.toNat reads reads2 some_
  rw [finds,also.unique last]

/-- "aba" in "ababa", where the occurrences overlap and the last one straddles the index. -/
theorem last_occurrence_overlapping :
    Confined (fun s s2 => s.lastIndexOf s2 3) (fitted [97,98,97,98,97]) (fitted [97,98,97]) (some 2) := by
  obtain ⟨result,finds,_⟩ := last_occurrence (fitted [97,98,97,98,97]) (fitted [97,98,97]) [97,98,97,98,97] [97,98,97] 3
    (fitted_denotes _ (by decide) (by decide)) (fitted_denotes _ (by decide) (by decide)) (by decide)
  have place : (fitted [97,98,97,98,97]).lastIndexOf (fitted [97,98,97]) 3 = some (some 2) := by decide
  rw [show (3 : UInt32).toNat = 3 from rfl] at finds
  rwa [Option.some.inj (finds.1.symm.trans place)] at finds

end Laws

end OpenPlc.Text
