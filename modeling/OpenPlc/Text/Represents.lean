import Mathlib.Data.List.DropRight
import OpenPlc.Text.WString

/-! What a sound `String` stands for, and what each member function makes of it: every
mutator either leaves the text alone, or gives a sound `String` again. -/
namespace OpenPlc.Text
open CString

/-- A block that ends its text where `len` says, with `capacity` characters of room. -/
structure Represents (s : Str) (content : List UInt8) : Prop where
  len : s.len = content.length
  owned : ∃ bytes, s.buffer = .block bytes ∧ Holds bytes content ∧ bytes.length = s.capacity + 1 ∧
    bytes.length < objectLimit

/-- A sound object: one without a buffer, or one that represents its text. -/
inductive Denotes (s : Str) : List UInt8 → Prop
  | null (same : s = Str.init) : Denotes s []
  | block (content : List UInt8) (represents : Represents s content) : Denotes s content

def Sound (s : Str) : Prop := ∃ content, Denotes s content

/-- What the calls that only read ask of an object. -/
inductive Reads (s : Str) : List UInt8 → Prop
  | null (nothing : s.buffer = .null) (len : s.len = 0) : Reads s []
  | block (content bytes : List UInt8) (owned : s.buffer = .block bytes) (holds : Holds bytes content)
      (len : s.len = content.length) : Reads s content

theorem Denotes.reads {s : Str} {content : List UInt8} (denotes : Denotes s content) : Reads s content := by
  cases denotes with
  | null same => exact .null (by rw [same]; rfl) (by rw [same]; rfl)
  | block _ represents =>
    obtain ⟨len,bytes,owned,holds,_⟩ := represents
    exact .block content bytes owned holds len

theorem Reads.len {s : Str} {content : List UInt8} (reads : Reads s content) : s.len = content.length := by
  cases reads with
  | null _ len => exact len
  | block _ _ _ _ len => exact len

/-- What a call that stays in its block makes of an object with another text. -/
structure Changed (s after : Str) (content : List UInt8) : Prop where
  reads : Reads after content
  capacity : after.capacity = s.capacity
  size : ∀ bytes, after.buffer = .block bytes → ∃ old, s.buffer = .block old ∧ bytes.length = old.length
  null : after.buffer = .null → after = s

theorem Changed.denotes {s after : Str} {content old : List UInt8} (changed : Changed s after content)
    (denotes : Denotes s old) : Denotes after content := by
  cases changed.reads with
  | null nothing len =>
    cases changed.null nothing
    cases denotes with
    | null same => exact .null same
    | block _ represents =>
      obtain ⟨_,bytes,owned,_⟩ := represents
      rw [nothing] at owned
      contradiction
  | block _ bytes owned holds len =>
    obtain ⟨former,theirs,size⟩ := changed.size bytes owned
    cases denotes with
    | null same => simp [same,Str.init] at theirs
    | block _ represents =>
      obtain ⟨_,block,mine,_,length,small⟩ := represents
      rw [theirs] at mine
      cases mine
      exact .block content ⟨len,bytes,owned,holds,by rw [size,changed.capacity]; exact length,by rw [size]; exact small⟩

theorem Reads.same {s : Str} {content : List UInt8} (reads : Reads s content) : Changed s s content :=
  ⟨reads,rfl,fun bytes owned => ⟨bytes,owned,rfl⟩,fun _ => rfl⟩


theorem Represents.sound {s : Str} {content : List UInt8} (represents : Represents s content) : Sound s :=
  ⟨content,.block content represents⟩

theorem init_sound : Sound Str.init := ⟨[],.null rfl⟩

theorem Denotes.free {s : Str} {content : List UInt8} (denotes : Denotes s content) : 0 ∉ content := by
  cases denotes with
  | null => simp
  | block _ represents =>
    obtain ⟨_,bytes,_,holds,_⟩ := represents
    exact holds.free

theorem Denotes.len {s : Str} {content : List UInt8} (denotes : Denotes s content) : s.len = content.length := by
  cases denotes with
  | null same => rw [same]; rfl
  | block _ represents => exact represents.len

theorem Denotes.short {s : Str} {content : List UInt8} (denotes : Denotes s content) :
    content.length + 1 < objectLimit := by
  cases denotes with
  | null => decide
  | block _ represents =>
    obtain ⟨_,bytes,_,holds,_,small⟩ := represents
    have := holds.length_lt
    omega

theorem Denotes.invalidate {s : Str} {content : List UInt8} (denotes : Denotes s content) :
    s.invalidate = some Str.init := by
  cases denotes with
  | null same => rw [same]; rfl
  | block _ represents =>
    obtain ⟨_,bytes,owned,_⟩ := represents
    simp [Str.invalidate,Str.release,owned]

theorem Denotes.release {s : Str} {content : List UInt8} (denotes : Denotes s content) :
    s.release = some () := by
  cases denotes with
  | null same => rw [same]; rfl
  | block _ represents =>
    obtain ⟨_,bytes,owned,_⟩ := represents
    simp [Str.release,owned]

theorem allocated_cases (answer : Alloc) (old : List UInt8) (size : Nat) :
    allocated answer old size = none ∨ ∃ fill, size < objectLimit ∧
      allocated answer old size = some (old.take size ++ (List.range (size - old.length)).map fill) := by
  cases answer with
  | refuse => exact Or.inl rfl
  | grant fill =>
    simp only [allocated]
    split
    · rename_i small
      exact Or.inr ⟨fill,small,rfl⟩
    · exact Or.inl rfl

/-- A new block of the asked size keeps the text, or nothing changes. The size whose
block would have no byte is excluded. -/
theorem changeBuffer_spec (s : Str) (content : List UInt8) (size : Nat) (answer : Alloc)
    (denotes : Denotes s content) (bound : size < 4294967295) (larger : s.len ≤ size) :
    s.changeBuffer size answer = some (s,false) ∨
      ∃ block, s.changeBuffer size answer = some ({s with buffer := .block block, capacity := size},true) ∧
        block.length = size + 1 ∧ block.length < objectLimit ∧ (content = [] ∨ Holds block content) := by
  have wrap : (size + 1) % 4294967296 = size + 1 := Nat.mod_eq_of_lt (by omega)
  cases denotes with
  | null same =>
    subst same
    simp only [Str.changeBuffer,Str.init,realloc,wrap]
    rcases allocated_cases answer [] (size + 1) with refused | ⟨fill,small,granted⟩
    · exact Or.inl (by simp [refused])
    · exact Or.inr ⟨_,by rw [granted]; rfl,by simp,by simpa using small,Or.inl trivial⟩
  | block _ represents =>
    obtain ⟨len,bytes,owned,holds,length,_⟩ := represents
    simp only [Str.changeBuffer,realloc,owned,wrap,Nat.succ_ne_zero,if_false]
    rcases allocated_cases answer bytes (size + 1) with refused | ⟨fill,small,granted⟩
    · left
      simp [refused,← owned]
    · right
      obtain ⟨rest,parts⟩ := holds.parts
      have room : content.length + 1 ≤ size + 1 := by omega
      have kept : bytes.take (size + 1) = content ++ 0 :: rest.take (size - content.length) := by
        rw [parts,List.take_append,List.take_of_length_le (by omega)]
        rw [show size + 1 - content.length = size - content.length + 1 by omega,List.take_succ_cons]
      refine ⟨_,by rw [granted]; rfl,?_,?_,Or.inr ?_⟩
      · simp only [List.length_append,List.length_take,List.length_map,List.length_range]
        omega
      · simp only [List.length_append,List.length_take,List.length_map,List.length_range]
        omega
      · rw [kept]
        exact Holds.append ⟨holds.free,_,rfl⟩ _

theorem reserve_enough (s : Str) (size : Nat) (answer : Alloc) (valid : s.buffer ≠ .null) (fits : size ≤ s.capacity) :
    s.reserve size answer = some (s,true) := by
  cases owned : s.buffer with
  | null => exact absurd owned valid
  | block bytes => simp [Str.reserve,owned,fits]
  | freed => simp [Str.reserve,owned,fits]

theorem reserve_enters (s : Str) (size : Nat) (answer : Alloc) (short : ¬ (s.buffer ≠ .null ∧ size ≤ s.capacity)) :
    s.reserve size answer = (s.changeBuffer size answer).bind fun result =>
      if result.2 then
        if result.1.len = 0 then
          result.1.bytes.bind fun bytes => (put bytes 0 [0]).bind fun block =>
            some ({result.1 with buffer := .block block},true)
        else some (result.1,true)
      else some (result.1,false) := by
  cases owned : s.buffer with
  | null =>
    simp only [Str.reserve,owned]
    rfl
  | block bytes =>
    have smaller : ¬ size ≤ s.capacity := fun fits => short ⟨by simp [owned],fits⟩
    simp only [Str.reserve,owned,smaller,if_false]
    rfl
  | freed =>
    have smaller : ¬ size ≤ s.capacity := fun fits => short ⟨by simp [owned],fits⟩
    simp only [Str.reserve,owned,smaller,if_false]
    rfl

theorem reserve_spec (s : Str) (content : List UInt8) (size : Nat) (answer : Alloc) (denotes : Denotes s content)
    (bound : size < 4294967295) :
    s.reserve size answer = some (s,false) ∨
      ∃ after, s.reserve size answer = some (after,true) ∧ Represents after content ∧ size ≤ after.capacity := by
  by_cases enough : s.buffer ≠ .null ∧ size ≤ s.capacity
  · right
    refine ⟨s,reserve_enough s size answer enough.1 enough.2,?_,enough.2⟩
    cases denotes with
    | null same => exact absurd (by rw [same]; rfl) enough.1
    | block _ represents => exact represents
  · have larger : s.len ≤ size := by
      cases denotes with
      | null same => rw [same]; exact Nat.zero_le _
      | block _ represents =>
        obtain ⟨len,bytes,owned,holds,length,_⟩ := represents
        have short : ¬ size ≤ s.capacity := fun fits => enough ⟨by simp [owned],fits⟩
        have := holds.length_lt
        omega
    rw [reserve_enters s size answer enough]
    rcases changeBuffer_spec s content size answer denotes bound larger with refused | ⟨block,granted,length,small,holds⟩
    · left
      simp [refused]
    · right
      by_cases empty : s.len = 0
      · have nothing : content = [] := List.eq_nil_of_length_eq_zero (by rw [← denotes.len]; exact empty)
        obtain ⟨after,done,ends,same⟩ := put_zero block 0 (by omega) (by simp)
        refine ⟨⟨.block after,size,s.len⟩,by simp [granted,empty,Str.bytes,done],⟨denotes.len,after,rfl,?_,?_,?_⟩,
          Nat.le_refl _⟩
        · simpa [nothing] using ends
        · simp only
          omega
        · omega
      · refine ⟨⟨.block block,size,s.len⟩,by simp [granted,empty],⟨denotes.len,block,rfl,?_,length,small⟩,Nat.le_refl _⟩
        rcases holds with nothing | holds
        · rw [denotes.len,nothing] at empty
          contradiction
        · exact holds

/-- Only a refusal stops a request of a size that a block can have. -/
theorem changeBuffer_refusal (s after : Str) (size : Nat) (answer : Alloc) (small : size + 1 < objectLimit)
    (failed : s.changeBuffer size answer = some (after,false)) : answer = .refuse := by
  have wrap : (size + 1) % 4294967296 = size + 1 := Nat.mod_eq_of_lt (by simp only [objectLimit] at small; omega)
  cases answer with
  | refuse => rfl
  | grant fill => cases owned : s.buffer <;> simp [Str.changeBuffer,realloc,owned,wrap,allocated,small] at failed

theorem reserve_refusal (s after : Str) (size : Nat) (answer : Alloc) (small : size + 1 < objectLimit)
    (failed : s.reserve size answer = some (after,false)) : answer = .refuse := by
  by_cases enough : s.buffer ≠ .null ∧ size ≤ s.capacity
  · rw [reserve_enough s size answer enough.1 enough.2] at failed
    simp at failed
  · rw [reserve_enters s size answer enough] at failed
    obtain ⟨⟨changed,done⟩,tried,failed⟩ := Option.bind_eq_some_iff.mp failed
    cases done with
    | false => exact changeBuffer_refusal s changed size answer small tried
    | true =>
      simp only [if_true] at failed
      split at failed
      · obtain ⟨bytes,_,failed⟩ := Option.bind_eq_some_iff.mp failed
        obtain ⟨block,_,failed⟩ := Option.bind_eq_some_iff.mp failed
        simp at failed
      · simp at failed

theorem copy_spec (s : Str) (content source : List UInt8) (answer : Alloc) (denotes : Denotes s content)
    (free : 0 ∉ source) (short : source.length + 1 < objectLimit) :
    s.copy source source.length answer = some Str.init ∨
      ∃ after, s.copy source source.length answer = some after ∧ Represents after source := by
  have bound : source.length < 4294967295 := by
    simp only [objectLimit] at short
    omega
  unfold Str.copy
  rcases reserve_spec s content source.length answer denotes bound with refused | ⟨after,granted,represents,room⟩
  · left
    simp [refused,denotes.invalidate]
  · right
    obtain ⟨_,bytes,owned,holds,length,small⟩ := represents
    obtain ⟨block,copied,ends,same⟩ := strcpy_whole bytes source (by omega) free
    exact ⟨{after with buffer := .block block, len := source.length},by simp [granted,Str.bytes,owned,copied],
      rfl,block,rfl,ends,by rw [same]; exact length,by rw [same]; exact small⟩

theorem copy_refusal (s after : Str) (source : List UInt8) (length : Nat) (answer : Alloc)
    (small : length + 1 < objectLimit) (copied : s.copy source length answer = some after) (lost : after.buffer = .null) :
    answer = .refuse := by
  unfold Str.copy at copied
  obtain ⟨⟨reserved,done⟩,tried,copied⟩ := Option.bind_eq_some_iff.mp copied
  cases done with
  | false => exact reserve_refusal s reserved length answer small tried
  | true =>
    simp only [if_true] at copied
    obtain ⟨bytes,_,copied⟩ := Option.bind_eq_some_iff.mp copied
    obtain ⟨block,_,copied⟩ := Option.bind_eq_some_iff.mp copied
    cases Option.some.inj copied
    contradiction

theorem assignText_spec (s : Str) (content : List UInt8) (cstr : Option CText) (answer : Alloc)
    (denotes : Denotes s content) : ∃ after, s.assignText cstr answer = some after ∧ Sound after := by
  cases cstr with
  | none => exact ⟨Str.init,denotes.invalidate,init_sound⟩
  | some cstr =>
    rcases copy_spec s content cstr.bytes answer denotes cstr.free cstr.short with refused | ⟨after,copied,represents⟩
    · exact ⟨Str.init,refused,init_sound⟩
    · exact ⟨after,copied,represents.sound⟩

theorem assign_eq (s rhs : Str) (source : List UInt8) (answer : Alloc) (represents : Represents rhs source) :
    s.assign rhs answer = s.copy source source.length answer := by
  obtain ⟨len,bytes,owned,holds,_⟩ := represents
  simp [Str.assign,owned,Str.bytes,holds.text,len]

theorem assign_result (s rhs : Str) (content source : List UInt8) (answer : Alloc) (denotes : Denotes s content)
    (from_ : Denotes rhs source) :
    s.assign rhs answer = some Str.init ∨ ∃ after, s.assign rhs answer = some after ∧ Represents after source := by
  have free := from_.free
  have short := from_.short
  cases from_ with
  | null same =>
    subst same
    exact Or.inl (by simp [Str.assign,Str.init,denotes.invalidate])
  | block _ represents =>
    rw [assign_eq s rhs source answer represents]
    exact copy_spec s content source answer denotes free short

theorem assign_spec (s rhs : Str) (content source : List UInt8) (answer : Alloc) (denotes : Denotes s content)
    (from_ : Denotes rhs source) : ∃ after, s.assign rhs answer = some after ∧ Sound after := by
  rcases assign_result s rhs content source answer denotes from_ with refused | ⟨after,copied,represents⟩
  · exact ⟨Str.init,refused,init_sound⟩
  · exact ⟨after,copied,represents.sound⟩

/-- A move that does not copy a text out of a source that keeps its buffer. -/
def Steals (s rhs : Str) : Prop :=
  s.buffer = .null ∨ rhs.buffer = .null ∨ s.capacity < rhs.len ∨ rhs.len = 0

theorem move_spec (s rhs : Str) (content source : List UInt8) (denotes : Denotes s content) (from_ : Denotes rhs source)
    (steals : Steals s rhs) : ∃ after left_, s.move rhs = some (after,left_) ∧ Sound after ∧ Sound left_ := by
  have taken : Sound {s with buffer := rhs.buffer, capacity := rhs.capacity, len := rhs.len} := ⟨source,from_⟩
  by_cases fresh : s.buffer = .null
  · exact ⟨_,_,by simp [Str.move,fresh],taken,init_sound⟩
  · by_cases invalid : rhs.buffer = .null
    · refine ⟨_,_,?_,taken,init_sound⟩
      cases owned : s.buffer with
      | null => contradiction
      | _ => simp [Str.move,owned,invalid,denotes.release]
    · have source_block : ∃ bytes, rhs.buffer = .block bytes ∧ Holds bytes source ∧ rhs.len = source.length := by
        cases from_ with
        | null same => simp [same,Str.init] at invalid
        | block _ represents =>
          obtain ⟨len,bytes,owned,holds,_⟩ := represents
          exact ⟨bytes,owned,holds,len⟩
      have own_block : ∃ bytes, s.buffer = .block bytes ∧ bytes.length = s.capacity + 1 ∧ bytes.length < objectLimit := by
        cases denotes with
        | null same => simp [same,Str.init] at fresh
        | block _ represents =>
          obtain ⟨_,bytes,owned,_,length,small⟩ := represents
          exact ⟨bytes,owned,length,small⟩
      obtain ⟨theirs,other,holds,len⟩ := source_block
      obtain ⟨ours,owned,length,small⟩ := own_block
      by_cases fits : rhs.len ≤ s.capacity
      · have nothing : rhs.len = 0 := by
          rcases steals with null | null | larger | zero
          · contradiction
          · contradiction
          · omega
          · exact zero
        have empty : source = [] := List.eq_nil_of_length_eq_zero (by omega)
        subst empty
        obtain ⟨block,copied,ends,same⟩ := strcpy_whole ours [] (by simp only [List.length_nil]; omega) List.not_mem_nil
        refine ⟨{s with buffer := .block block, len := rhs.len},{rhs with len := 0},?_,?_,?_⟩
        · simp [Str.move,owned,other,fits,Str.bytes,holds.text,copied]
        · exact ⟨[],.block [] ⟨nothing,block,rfl,ends,by rw [same]; exact length,by rw [same]; exact small⟩⟩
        · have kept : ({rhs with len := 0} : Str) = rhs := by rw [← nothing]
          rw [kept]
          exact ⟨[],from_⟩
      · exact ⟨_,_,by simp [Str.move,owned,other,fits,Str.release],taken,init_sound⟩

theorem move_stale (s rhs : Str) (content source : List UInt8) (denotes : Denotes s content) (from_ : Denotes rhs source)
    (copies : ¬ Steals s rhs) :
    ∃ after left_ bytes, s.move rhs = some (after,left_) ∧ left_.buffer = .block bytes ∧ left_.len = 0 ∧
      bytes[0]? ≠ some 0 := by
  simp only [Steals,not_or,Nat.not_lt] at copies
  obtain ⟨fresh,invalid,fits,some_⟩ := copies
  cases denotes with
  | null same => simp [same,Str.init] at fresh
  | block _ represents =>
    cases from_ with
    | null same => simp [same,Str.init] at invalid
    | block _ theirs =>
      obtain ⟨_,ours,owned,_,length,_⟩ := represents
      obtain ⟨len,bytes,other,holds,_⟩ := theirs
      obtain ⟨block,copied,_,_⟩ := strcpy_whole ours source (by omega) holds.free
      refine ⟨{s with buffer := .block block, len := rhs.len},{rhs with len := 0},bytes,?_,other,rfl,?_⟩
      · simp [Str.move,owned,other,fits,Str.bytes,holds.text,copied]
      · exact holds.getElem_ne 0 (by omega)

theorem lengths_fit (a b : Nat) (first : a + 1 < objectLimit) (second : b + 1 < objectLimit) :
    (a + b) % 4294967296 = a + b ∧ a + b + 1 < 4294967296 := by
  rw [objectLimit] at first second
  omega

theorem concatLength_spec (s : Str) (content source : List UInt8) (answer : Alloc) (denotes : Denotes s content)
    (free : 0 ∉ source) (short : source.length + 1 < objectLimit) :
    ∃ after done, s.concatLength (some source) source.length answer = some (after,done) ∧
      ((done = false ∧ after = s) ∨ (done = true ∧ Denotes after (content ++ source))) := by
  obtain ⟨wrap,bound⟩ := lengths_fit s.len source.length (denotes.len ▸ denotes.short) short
  by_cases empty : source = []
  · subst empty
    exact ⟨s,true,by simp [Str.concatLength],Or.inr ⟨rfl,by simpa using denotes⟩⟩
  · have some_ : source.length ≠ 0 := fun zero => empty (List.eq_nil_of_length_eq_zero zero)
    simp only [Str.concatLength,wrap,some_,if_false]
    rcases reserve_spec s content (s.len + source.length) answer denotes (Nat.lt_of_succ_lt_succ bound) with
      refused | ⟨after,granted,represents,room⟩
    · exact ⟨s,false,by simp [refused],Or.inl ⟨rfl,rfl⟩⟩
    · obtain ⟨len,bytes,owned,holds,length,small⟩ := represents
      have same_len : s.len = content.length := denotes.len
      obtain ⟨block,copied,ends,same⟩ := strcpy_behind holds source (by omega) free
      rw [← len] at copied
      refine ⟨{after with buffer := .block block, len := s.len + source.length},true,
        by simp [granted,Str.bytes,owned,copied],Or.inr ⟨rfl,.block _ ⟨?_,block,rfl,?_,?_,?_⟩⟩⟩
      · simp only [List.length_append]
        omega
      · exact ends
      · rw [same]
        exact length
      · rw [same]
        exact small

theorem concatText_spec (s : Str) (content : List UInt8) (cstr : Option CText) (answer : Alloc)
    (denotes : Denotes s content) :
    ∃ after done, s.concatText cstr answer = some (after,done) ∧ Sound after := by
  cases cstr with
  | none => exact ⟨s,false,rfl,content,denotes⟩
  | some cstr =>
    obtain ⟨after,done,appended,⟨rfl,rfl⟩ | ⟨rfl,denotes'⟩⟩ :=
      concatLength_spec s content cstr.bytes answer denotes cstr.free cstr.short
    · exact ⟨_,_,appended,content,denotes⟩
    · exact ⟨after,_,appended,_,denotes'⟩

theorem concat_eq (s rhs : Str) (source : List UInt8) (answer : Alloc) (represents : Represents rhs source) :
    s.concat rhs answer = s.concatLength (some source) source.length answer := by
  obtain ⟨len,bytes,owned,holds,_⟩ := represents
  simp [Str.concat,owned,Str.bytes,holds.text,len]

theorem concat_spec (s rhs : Str) (content source : List UInt8) (answer : Alloc) (denotes : Denotes s content)
    (from_ : Denotes rhs source) : ∃ after done, s.concat rhs answer = some (after,done) ∧ Sound after := by
  have free := from_.free
  have short := from_.short
  cases from_ with
  | null same =>
    subst same
    exact ⟨s,false,rfl,content,denotes⟩
  | block _ represents =>
    rw [concat_eq s rhs source answer represents]
    obtain ⟨after,done,appended,⟨rfl,rfl⟩ | ⟨rfl,denotes'⟩⟩ := concatLength_spec s content source answer denotes free short
    · exact ⟨_,_,appended,content,denotes⟩
    · exact ⟨after,_,appended,_,denotes'⟩

theorem orInvalid_spec (after : Str) (done : Bool) (sound : Sound after) :
    ∃ sum, Str.orInvalid (some (after,done)) = some sum ∧ Sound sum := by
  obtain ⟨content,denotes⟩ := sound
  cases done with
  | true => exact ⟨after,rfl,content,denotes⟩
  | false => exact ⟨Str.init,by simp [Str.orInvalid,denotes.invalidate],init_sound⟩

theorem rewrite_spec (f : UInt8 → UInt8) (keeps : ∀ c, c ≠ 0 → f c ≠ 0) (s : Str) (content : List UInt8)
    (denotes : Denotes s content) : ∃ after, s.rewrite f = some after ∧ Denotes after (content.map f) := by
  cases denotes with
  | null same => exact ⟨s,by rw [same]; rfl,.null same⟩
  | block _ represents =>
    obtain ⟨len,bytes,owned,holds,length,small⟩ := represents
    obtain ⟨block,mapped,ends,same⟩ := mapText_holds holds f keeps
    exact ⟨{s with buffer := .block block},by simp [Str.rewrite,owned,Str.bytes,mapped],
      .block _ ⟨by simpa using len,block,rfl,ends,by rw [same]; exact length,by rw [same]; exact small⟩⟩

theorem toLower_ne (c : UInt8) (some_ : c ≠ 0) : Str.toLower c ≠ 0 := by
  unfold Str.toLower
  split
  · rename_i upper
    obtain ⟨low,high⟩ := upper
    rw [UInt8.le_iff_toNat_le] at low high
    intro zero
    have := congrArg UInt8.toNat zero
    simp only [UInt8.toNat_add,UInt8.reduceToNat] at this low high
    omega
  · exact some_

theorem toUpper_ne (c : UInt8) (some_ : c ≠ 0) : Str.toUpper c ≠ 0 := by
  unfold Str.toUpper
  split
  · rename_i lower
    obtain ⟨low,high⟩ := lower
    rw [UInt8.le_iff_toNat_le] at low high
    intro zero
    have := congrArg UInt8.toNat zero
    simp only [UInt8.toNat_sub,UInt8.reduceToNat] at this low high
    omega
  · exact some_

theorem replaceChar_spec (s : Str) (content : List UInt8) (find replace : UInt8) (some_ : replace ≠ 0)
    (denotes : Denotes s content) : ∃ after, s.replaceChar find replace = some after ∧
      Denotes after (content.map fun c => if c = find then replace else c) := by
  apply rewrite_spec _ _ s content denotes
  intro c other
  split
  · exact some_
  · exact other

theorem setCharAt_spec (s : Str) (content : List UInt8) (loc : Nat) (c : UInt8) (some_ : c ≠ 0)
    (denotes : Denotes s content) : ∃ after, s.setCharAt loc c = some after ∧ Sound after := by
  by_cases inside : loc < s.len
  · cases denotes with
    | null same => simp [same,Str.init] at inside
    | block _ represents =>
      obtain ⟨len,bytes,owned,holds,length,small⟩ := represents
      obtain ⟨block,written,ends,same⟩ := put_holds holds loc [c] (by simp only [List.length_singleton]; omega)
        (by simpa using some_.symm)
      refine ⟨{s with buffer := .block block},by simp [Str.setCharAt,inside,Str.bytes,owned,written],
        _,.block _ ⟨?_,block,rfl,ends,by rw [same]; exact length,by rw [same]; exact small⟩⟩
      simp only [List.length_append,List.length_take,List.length_drop,List.length_singleton]
      omega
  · exact ⟨s,by simp [Str.setCharAt,inside],content,denotes⟩

theorem remove_changed (s : Str) (content : List UInt8) (index count : Nat) (reads : Reads s content) :
    ∃ after, s.remove index count = some after ∧ Changed s after (content.take index ++ content.drop (index + count)) := by
  have len := reads.len
  by_cases beyond : s.len ≤ index
  · refine ⟨s,by simp [Str.remove,beyond],?_⟩
    rw [List.take_of_length_le (by omega),List.drop_eq_nil_of_le (by omega),List.append_nil]
    exact reads.same
  · by_cases none_ : count = 0
    · refine ⟨s,by simp [Str.remove,none_],?_⟩
      rw [none_,Nat.add_zero,List.take_append_drop]
      exact reads.same
    · cases reads with
      | null _ zero => exact absurd (Nat.zero_le index) (zero ▸ beyond)
      | block _ bytes owned holds =>
        obtain ⟨cut,cut_eq⟩ : ∃ cut, cut = if s.len - index < count then s.len - index else count := ⟨_,rfl⟩
        have cut_le : index + cut ≤ content.length := by split at cut_eq <;> omega
        obtain ⟨moved,after,read,written,closed,ends,same⟩ := close_up bytes content index (index + cut)
          (content.length - cut - index) holds (by omega) (by omega)
        have stop : index + (content.length - cut - index) = content.length - cut := by omega
        have tail : (content.drop (index + cut)).take (content.length - cut - index) = content.drop (index + count) := by
          rw [List.take_of_length_le (by rw [List.length_drop]; omega)]
          split at cut_eq
          · rw [List.drop_eq_nil_of_le (by omega),List.drop_eq_nil_of_le (by omega)]
          · rw [cut_eq]
        rw [stop] at closed
        rw [tail] at ends
        refine ⟨{s with buffer := .block after, len := content.length - cut},?_,.block _ after rfl ends ?_,rfl,?_,nofun⟩
        · rw [len] at beyond cut_eq
          simp [Str.remove,beyond,none_,Str.bytes,owned,len,← cut_eq,read,written,closed]
        · rw [← tail]
          simp only [List.length_append,List.length_take,List.length_drop]
          omega
        · rintro _ ⟨⟩
          exact ⟨bytes,owned,same⟩

theorem remove_spec (s : Str) (content : List UInt8) (index count : Nat) (denotes : Denotes s content) :
    ∃ after, s.remove index count = some after ∧ Denotes after (content.take index ++ content.drop (index + count)) := by
  obtain ⟨after,removed,changed⟩ := remove_changed s content index count denotes.reads
  exact ⟨after,removed,changed.denotes denotes⟩

private theorem takeWhile_stops (p : UInt8 → Bool) (items : List UInt8)
    (inside : (items.takeWhile p).length < items.length) : p items[(items.takeWhile p).length] = false := by
  induction items with
  | nil => simp at inside
  | cons c items ih =>
    by_cases pass : p c
    · simp only [List.takeWhile_cons_of_pos pass,List.length_cons,Nat.add_lt_add_iff_right] at inside
      simpa [List.takeWhile_cons_of_pos pass] using ih inside
    · simpa [List.takeWhile_cons_of_neg pass] using pass

theorem trimBegin_spec (bytes content : List UInt8) (holds : Holds bytes content) :
    ∃ begin_, Str.trimBegin bytes = some begin_ ∧ begin_ ≤ content.length ∧
      content.drop begin_ = content.dropWhile Str.isSpace ∧
      ∀ inside : begin_ < content.length, Str.isSpace content[begin_] = false := by
  obtain ⟨rest,rfl⟩ := holds.parts
  have scanned : ((content ++ 0 :: rest).takeWhile Str.isSpace).length = (content.takeWhile Str.isSpace).length := by
    rw [List.takeWhile_append]
    split
    · rename_i all
      rw [List.takeWhile_cons_of_neg (by decide),List.append_nil,all]
    · rfl
  have short := (@List.takeWhile_prefix UInt8 content Str.isSpace).length_le
  refine ⟨(content.takeWhile Str.isSpace).length,?_,short,?_,takeWhile_stops Str.isSpace content⟩
  · simp only [Str.trimBegin,scanned,List.length_append,List.length_cons]
    rw [if_pos (by omega)]
  · have parts := congrArg (List.drop (content.takeWhile Str.isSpace).length)
      (@List.takeWhile_append_dropWhile UInt8 Str.isSpace content)
    rw [List.drop_left] at parts
    exact parts.symm

theorem trimEnd_spec (bytes content : List UInt8) (holds : Holds bytes content) (begin_ stop : Nat)
    (word : ∀ inside : begin_ < content.length, Str.isSpace content[begin_] = false) (above : begin_ < stop)
    (bound : stop ≤ content.length) :
    ∃ last, Str.trimEnd bytes begin_ stop = some last ∧ begin_ < last ∧ last ≤ stop ∧
      ((content.take stop).drop begin_).rdropWhile Str.isSpace = (content.take last).drop begin_ := by
  induction stop with
  | zero => omega
  | succ stop ih =>
    simp only [Str.trimEnd,holds.getElem_lt stop (by omega)]
    have split : (content.take (stop + 1)).drop begin_ = (content.take stop).drop begin_ ++ [content[stop]] := by
      rw [List.take_succ_eq_append_getElem (by omega),List.drop_append_of_le_length (by rw [List.length_take]; omega)]
    by_cases onward : Str.isSpace content[stop] ∧ begin_ ≤ stop
    · have further : begin_ ≠ stop := by
        rintro rfl
        simp [word (by omega)] at onward
      obtain ⟨last,found,lower,upper,trimmed⟩ := ih (by omega) (by omega)
      refine ⟨last,by simpa [onward] using found,lower,by omega,?_⟩
      rw [split,List.rdropWhile_concat_pos _ _ _ onward.1]
      exact trimmed
    · refine ⟨stop + 1,by simp [onward],above,Nat.le_refl _,?_⟩
      have letter : ¬ Str.isSpace content[stop] := fun space => onward ⟨space,by omega⟩
      rw [split,List.rdropWhile_concat_neg _ _ _ letter]

/-- The blanks at both ends are dropped, and the block keeps its size. -/
theorem trim_changed (s : Str) (content : List UInt8) (reads : Reads s content) :
    ∃ after, s.trim = some after ∧ Changed s after ((content.dropWhile Str.isSpace).rdropWhile Str.isSpace) := by
  have len := reads.len
  cases reads with
  | null nothing zero =>
    refine ⟨s,by simp [Str.trim,nothing],?_⟩
    exact (Reads.null nothing zero).same
  | block _ bytes owned holds =>
    by_cases empty : s.len = 0
    · have nothing : content = [] := List.eq_nil_of_length_eq_zero (by omega)
      subst nothing
      exact ⟨s,by simp [Str.trim,owned,empty],(Reads.block [] bytes owned holds len).same⟩
    · obtain ⟨begin_,found,within,front,word⟩ := trimBegin_spec bytes content holds
      have ends : ∃ stop, Str.trimEnd bytes begin_ s.len = some stop ∧ begin_ ≤ stop ∧ stop ≤ content.length ∧
          (content.drop begin_).rdropWhile Str.isSpace = (content.drop begin_).take (stop - begin_) := by
        by_cases blank : begin_ = content.length
        · obtain ⟨last,last_eq⟩ := Nat.exists_eq_succ_of_ne_zero empty
          refine ⟨s.len,?_,by omega,by omega,?_⟩
          · rw [last_eq]
            simp only [Str.trimEnd,holds.getElem_lt last (by omega)]
            have past : ¬ begin_ ≤ last := by omega
            simp [past]
          · rw [List.drop_eq_nil_of_le (by omega)]
            simp
        · obtain ⟨stop,stops,lower,upper,trimmed⟩ := trimEnd_spec bytes content holds begin_ s.len word (by omega) (by omega)
          rw [len,List.take_length,List.drop_take] at trimmed
          exact ⟨stop,stops,by omega,by omega,trimmed⟩
      obtain ⟨stop,stops,lower,upper,trimmed⟩ := ends
      obtain ⟨moved,after,read,written,closed,holds_after,same⟩ := close_up bytes content 0 begin_ (stop - begin_) holds
        (Nat.zero_le _) (by omega)
      rw [Nat.zero_add] at closed
      rw [List.take_zero,List.nil_append,← trimmed,front] at holds_after
      have changed : Changed s {s with buffer := .block after, len := stop - begin_}
          ((content.dropWhile Str.isSpace).rdropWhile Str.isSpace) := by
        refine ⟨.block _ after rfl holds_after ?_,rfl,?_,nofun⟩
        · rw [← front,trimmed]
          simp only [List.length_take,List.length_drop]
          omega
        · rintro _ ⟨⟩
          exact ⟨bytes,owned,same⟩
      by_cases leading : 0 < begin_
      · exact ⟨_,by simp [Str.trim,owned,empty,Str.bytes,found,stops,leading,read,written,closed],changed⟩
      · have first : begin_ = 0 := by omega
        subst first
        have unmoved : moved = bytes := by
          have piece := read
          rw [List.drop_zero,Nat.sub_zero] at piece written
          have front : bytes.take stop = content.take stop := by
            simpa [slice,show stop ≤ bytes.length by have := holds.length_lt; omega] using piece
          rw [← front,put] at written
          have long : (bytes.take stop).length = stop := by
            have := holds.length_lt
            rw [List.length_take]
            omega
          rw [long,if_pos (by have := holds.length_lt; omega)] at written
          simpa using (Option.some.inj written).symm
        rw [unmoved,Nat.sub_zero] at closed
        exact ⟨_,by simp [Str.trim,owned,empty,Str.bytes,found,stops,closed],changed⟩

theorem trim_spec (s : Str) (content : List UInt8) (denotes : Denotes s content) :
    ∃ after, s.trim = some after ∧ Sound after := by
  obtain ⟨after,trims,changed⟩ := trim_changed s content denotes.reads
  exact ⟨after,trims,_,changed.denotes denotes⟩

end OpenPlc.Text
