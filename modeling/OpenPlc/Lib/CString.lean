import Mathlib.Data.List.Basic
import Mathlib.Tactic.Common

/-! Texts that end with a zero byte inside a block of memory. Reading past the end of
the block or writing outside of it has no result. -/
namespace OpenPlc.CString

/-- The text that a block holds: the bytes before its first zero. -/
def text (block : List UInt8) : Option (List UInt8) :=
  if 0 ∈ block then some (block.takeWhile (· ≠ 0)) else none

def slice (block : List UInt8) (start size : Nat) : Option (List UInt8) :=
  if start + size ≤ block.length then some ((block.drop start).take size) else none

def put (block : List UInt8) (start : Nat) (data : List UInt8) : Option (List UInt8) :=
  if start + data.length ≤ block.length then
    some (block.take start ++ data ++ block.drop (start + data.length))
  else none

def strcpy (block : List UInt8) (start : Nat) (source : List UInt8) : Option (List UInt8) :=
  put block start (source ++ [0])

/-- Rewriting every character up to the zero in place. -/
def mapText (f : UInt8 → UInt8) (block : List UInt8) : Option (List UInt8) :=
  if 0 ∈ block then some ((block.takeWhile (· ≠ 0)).map f ++ block.dropWhile (· ≠ 0)) else none

/-- The place that `strchr` finds, which may be that of the zero. -/
def strchr (c : UInt8) : List UInt8 → Option (Option Nat)
  | [] => none
  | b :: rest => if b = c then some (some 0) else if b = 0 then some none else (strchr c rest).map (Option.map (· + 1))

/-- Whether `strcmp` returns 0. -/
def strcmp : List UInt8 → List UInt8 → Option Bool
  | a :: as,b :: bs => if a ≠ b then some false else if a = 0 then some true else strcmp as bs
  | _,_ => none

def strncmp : List UInt8 → List UInt8 → Nat → Option Bool
  | _,_,0 => some true
  | a :: as,b :: bs,n + 1 => if a ≠ b then some false else if a = 0 then some true else strncmp as bs n
  | _,_,_ => none

/-- The bytes that `strncpy` writes: behind the zero of a shorter text it writes zeros. -/
def strncpy : List UInt8 → Nat → Option (List UInt8)
  | _,0 => some []
  | [],_ + 1 => none
  | c :: rest,n + 1 => if c = 0 then some (List.replicate (n + 1) 0) else (strncpy rest n).map (c :: ·)

/-- The block holds exactly this text, and something behind its zero. -/
structure Holds (block content : List UInt8) : Prop where
  free : 0 ∉ content
  parts : ∃ rest, block = content ++ 0 :: rest

variable {block content : List UInt8}

theorem Holds.length_lt (holds : Holds block content) : content.length < block.length := by
  obtain ⟨rest,rfl⟩ := holds.parts
  simp

theorem Holds.take (holds : Holds block content) : block.take content.length = content := by
  obtain ⟨rest,rfl⟩ := holds.parts
  simp

theorem Holds.take_le (holds : Holds block content) (n : Nat) (inside : n ≤ content.length) :
    block.take n = content.take n := by
  rw [← holds.take,List.take_take,Nat.min_eq_left inside]

theorem Holds.mem (holds : Holds block content) : 0 ∈ block := by
  obtain ⟨rest,rfl⟩ := holds.parts
  simp

theorem Holds.takeWhile (holds : Holds block content) : block.takeWhile (· ≠ 0) = content := by
  obtain ⟨rest,rfl⟩ := holds.parts
  have free := holds.free
  rw [List.takeWhile_append_of_pos]
  · simp
  · intro c member
    simpa using fun zero : c = 0 => free (zero ▸ member)

theorem Holds.dropWhile (holds : Holds block content) : block.dropWhile (· ≠ 0) = block.drop content.length := by
  have parts := @List.takeWhile_append_dropWhile UInt8 (· ≠ 0) block
  rw [holds.takeWhile] at parts
  have dropped := congrArg (List.drop content.length) parts
  rw [List.drop_left] at dropped
  exact dropped

theorem Holds.text (holds : Holds block content) : text block = some content := by
  rw [CString.text,if_pos holds.mem,holds.takeWhile]

theorem Holds.getElem_length (holds : Holds block content) : block[content.length]? = some 0 := by
  obtain ⟨rest,rfl⟩ := holds.parts
  simp

theorem Holds.getElem_lt (holds : Holds block content) (i : Nat) (inside : i < content.length) :
    block[i]? = some content[i] := by
  obtain ⟨rest,rfl⟩ := holds.parts
  rw [List.getElem?_append_left inside,List.getElem?_eq_getElem inside]

theorem Holds.getElem_ne (holds : Holds block content) (i : Nat) (inside : i < content.length) :
    block[i]? ≠ some 0 := by
  rw [holds.getElem_lt i inside]
  intro zero
  exact holds.free (Option.some.inj zero ▸ List.getElem_mem inside)

theorem Holds.drop (front rest : List UInt8) (holds : Holds block (front ++ rest)) :
    Holds (block.drop front.length) rest := by
  obtain ⟨behind,rfl⟩ := holds.parts
  refine ⟨fun member => holds.free (List.mem_append_right _ member),behind,?_⟩
  rw [List.append_assoc,List.drop_left]

theorem Holds.append (holds : Holds block content) (more : List UInt8) : Holds (block ++ more) content := by
  obtain ⟨rest,rfl⟩ := holds.parts
  exact ⟨holds.free,rest ++ more,by simp⟩

theorem Holds.nil (holds : Holds block []) : ∃ rest, block = 0 :: rest := holds.parts

theorem Holds.cons (c : UInt8) (rest : List UInt8) (holds : Holds block (c :: rest)) :
    ∃ tail, block = c :: tail ∧ c ≠ 0 ∧ Holds tail rest := by
  obtain ⟨behind,rfl⟩ := holds.parts
  exact ⟨_,rfl,fun zero => holds.free (zero ▸ List.mem_cons_self),fun member => holds.free (List.mem_cons_of_mem c member),
    behind,rfl⟩

theorem Holds.drop_le (holds : Holds block content) (n : Nat) (inside : n ≤ content.length) :
    Holds (block.drop n) (content.drop n) := by
  have front : (content.take n).length = n := List.length_take_of_le inside
  rw [← List.take_append_drop n content] at holds
  have behind := holds.drop (content.take n) (content.drop n)
  rwa [front] at behind

theorem Holds.behind {pos : Nat} (holds : Holds (block.drop pos) content) (n : Nat) (inside : n ≤ content.length) :
    Holds (block.drop (pos + n)) (content.drop n) := by
  rw [← List.drop_drop]
  exact holds.drop_le n inside

theorem strchr_zero (holds : Holds block content) : strchr 0 block = some (some content.length) := by
  induction content generalizing block with
  | nil =>
    obtain ⟨rest,rfl⟩ := holds.nil
    rfl
  | cons c content ih =>
    obtain ⟨tail,rfl,some_,behind⟩ := holds.cons c content
    simp [strchr,some_,ih behind]

theorem strchr_spec (holds : Holds block content) (c : UInt8) (some_ : c ≠ 0) :
    strchr c block = some (content.findIdx? (· == c)) := by
  induction content generalizing block with
  | nil =>
    obtain ⟨rest,rfl⟩ := holds.nil
    simp [strchr,some_.symm]
  | cons b content ih =>
    obtain ⟨tail,rfl,other,behind⟩ := holds.cons b content
    by_cases same : b = c
    · simp [strchr,same,List.findIdx?_cons]
    · simp [strchr,same,other,ih behind,List.findIdx?_cons]

theorem strcmp_spec {other pattern : List UInt8} (holds : Holds block content) (theirs : Holds other pattern) :
    strcmp block other = some (decide (content = pattern)) := by
  induction content generalizing block other pattern with
  | nil =>
    obtain ⟨rest,rfl⟩ := holds.nil
    cases pattern with
    | nil =>
      obtain ⟨rest,rfl⟩ := theirs.nil
      rfl
    | cons p pattern =>
      obtain ⟨tail,rfl,some_,_⟩ := theirs.cons p pattern
      simp [strcmp,some_.symm]
  | cons c content ih =>
    obtain ⟨tail,rfl,some_,behind⟩ := holds.cons c content
    cases pattern with
    | nil =>
      obtain ⟨rest,rfl⟩ := theirs.nil
      simp [strcmp,some_]
    | cons p pattern =>
      obtain ⟨others,rfl,_,later⟩ := theirs.cons p pattern
      by_cases same : c = p
      · subst same
        simp [strcmp,some_,ih behind later]
      · simp [strcmp,same]

/-- The comparison ends at the first difference, which may be at the zero of the text. -/
theorem strncmp_spec {other pattern : List UInt8} (holds : Holds block content) (theirs : Holds other pattern) :
    strncmp block other pattern.length = some (decide (pattern <+: content)) := by
  induction pattern generalizing block content other with
  | nil => simp [strncmp]
  | cons p pattern ih =>
    obtain ⟨others,rfl,some_,later⟩ := theirs.cons p pattern
    cases content with
    | nil =>
      obtain ⟨rest,rfl⟩ := holds.nil
      simp [strncmp,some_.symm]
    | cons c content =>
      obtain ⟨tail,rfl,_,behind⟩ := holds.cons c content
      by_cases same : c = p
      · subst same
        simp [strncmp,some_,ih behind later]
      · simp [strncmp,same,Ne.symm same]

theorem strncpy_spec (holds : Holds block content) (n : Nat) (inside : n ≤ content.length) :
    strncpy block n = some (content.take n) := by
  induction n generalizing block content with
  | zero => simp [strncpy]
  | succ n ih =>
    cases content with
    | nil => simp at inside
    | cons c content =>
      obtain ⟨tail,rfl,some_,behind⟩ := holds.cons c content
      simp [strncpy,some_,ih behind (Nat.le_of_succ_le_succ inside)]

theorem slice_append (rest piece : List UInt8) (start size : Nat) (read : slice block start size = some piece) :
    slice (block ++ rest) start size = some piece := by
  unfold slice at read ⊢
  split at read
  · rename_i inside
    rw [if_pos (by rw [List.length_append]; omega),List.drop_append_of_le_length (by omega),
      List.take_append_of_le_length (by rw [List.length_drop]; omega)]
    exact read
  · contradiction

theorem put_append (rest data after : List UInt8) (start : Nat) (written : put block start data = some after) :
    put (block ++ rest) start data = some (after ++ rest) := by
  unfold put at written ⊢
  split at written
  · rename_i inside
    cases Option.some.inj written
    rw [if_pos (by rw [List.length_append]; omega),List.take_append_of_le_length (by omega),
      List.drop_append_of_le_length inside,List.append_assoc _ _ rest]
  · contradiction

theorem put_length (start : Nat) (data after : List UInt8) (done : put block start data = some after) :
    after.length = block.length := by
  unfold put at done
  split at done
  · cases Option.some.inj done
    simp only [List.length_append,List.length_take,List.length_drop]
    omega
  · contradiction

/-- What `put` makes of the bytes in front of its end, and that it leaves those behind. -/
theorem put_spec (block : List UInt8) (start : Nat) (data : List UInt8) (fits : start + data.length ≤ block.length) :
    ∃ after, put block start data = some after ∧ after.take (start + data.length) = block.take start ++ data ∧
      (∀ j, start + data.length ≤ j → after.drop j = block.drop j) ∧ after.length = block.length := by
  have front : (block.take start ++ data).length = start + data.length := by
    rw [List.length_append,List.length_take]
    omega
  refine ⟨_,by rw [put,if_pos fits],?_,?_,?_⟩
  · rw [← front,List.take_left]
  · intro j behind
    obtain ⟨more,rfl⟩ := Nat.exists_eq_add_of_le behind
    rw [← List.drop_drop]
    nth_rewrite 1 [← front]
    rw [List.drop_left,List.drop_drop]
  · rw [List.length_append,front,List.length_drop]
    omega

theorem exists_middle (block : List UInt8) (front size : Nat) (fits : front + size ≤ block.length) :
    ∃ middle rest, block = block.take front ++ middle ++ rest ∧ middle.length = size := by
  refine ⟨(block.drop front).take size,(block.drop front).drop size,?_,?_⟩
  · rw [List.append_assoc,List.take_append_drop,List.take_append_drop]
  · rw [List.length_take,List.length_drop]
    omega

theorem put_middle (front data old rest : List UInt8) (length : data.length = old.length) :
    put (front ++ old ++ rest) front.length data = some (front ++ data ++ rest) := by
  rw [put,if_pos (by simp only [List.length_append]; omega),List.append_assoc front old rest,List.take_left]
  rw [← List.drop_drop,List.drop_left,length,List.drop_left]

theorem put_back (bytes after : List UInt8) (stop : Nat) (c temp : UInt8) (read : bytes[stop]? = some temp)
    (written : put bytes stop [c] = some after) : put after stop [temp] = some bytes := by
  obtain ⟨inside,value⟩ := List.getElem?_eq_some_iff.mp read
  have split : bytes = bytes.take stop ++ [temp] ++ bytes.drop (stop + 1) := by
    rw [← value,List.append_assoc,List.singleton_append,← List.drop_eq_getElem_cons inside,List.take_append_drop]
  have length : (bytes.take stop).length = stop := List.length_take_of_le (Nat.le_of_lt inside)
  have there := put_middle (bytes.take stop) [c] [temp] (bytes.drop (stop + 1)) rfl
  have back := put_middle (bytes.take stop) [temp] [c] (bytes.drop (stop + 1)) rfl
  rw [length,← split] at there back
  rw [there] at written
  cases written
  exact back

theorem put_cons (block data after : List UInt8) (start : Nat) (c : UInt8)
    (written : put block start (c :: data) = some after) :
    start < block.length ∧ put (block.set start c) (start + 1) data = some after := by
  unfold put at written
  split at written
  · rename_i fits
    rw [List.length_cons] at fits
    have inside : start < block.length := by omega
    have there : start + 1 + data.length ≤ (block.set start c).length := by
      rw [List.length_set]
      omega
    have front : (block.set start c).take (start + 1) = block.take start ++ [c] := by
      rw [List.take_succ_eq_append_getElem (by rw [List.length_set]; exact inside),List.getElem_set_self,
        List.take_set_of_le (Nat.le_refl start)]
    have behind : start + 1 + data.length = start + (data.length + 1) := by omega
    refine ⟨inside,?_⟩
    rw [put,if_pos there,← Option.some.inj written,front,List.drop_set_of_lt (by omega),behind]
    simp
  · contradiction

theorem terminate (block content : List UInt8) (room : content.length < block.length) :
    (put block 0 content).bind (fun after => put after content.length [0]) =
      some (content ++ 0 :: block.drop (content.length + 1)) := by
  have written : put block 0 content = some (content ++ [block[content.length]] ++ block.drop (content.length + 1)) := by
    rw [put,Nat.zero_add,if_pos (Nat.le_of_lt room),List.drop_eq_getElem_cons room]
    simp
  rw [written,Option.bind_some,put_middle content [0] [block[content.length]] _ rfl]
  simp

theorem put_nothing (start : Nat) (inside : start ≤ block.length) : put block start [] = some block := by
  simp [put,inside]

theorem put_zero (block : List UInt8) (stop : Nat) (inside : stop < block.length) (free : 0 ∉ block.take stop) :
    ∃ after, put block stop [0] = some after ∧ Holds after (block.take stop) ∧ after.length = block.length := by
  refine ⟨block.take stop ++ [0] ++ block.drop (stop + 1),?_,⟨free,block.drop (stop + 1),by simp⟩,?_⟩
  · simp only [put,List.length_singleton]
    rw [if_pos (by omega)]
  · simp only [List.length_append,List.length_take,List.length_drop,List.length_singleton]
    omega

/-- A text copied behind characters that are not zero continues them. -/
theorem strcpy_holds (block : List UInt8) (start : Nat) (source : List UInt8) (room : start + source.length < block.length)
    (before : 0 ∉ block.take start) (free : 0 ∉ source) :
    ∃ after, strcpy block start source = some after ∧ Holds after (block.take start ++ source) ∧
      after.length = block.length := by
  have fits : start + (source ++ [0]).length ≤ block.length := by
    simp only [List.length_append,List.length_singleton]
    omega
  refine ⟨block.take start ++ (source ++ [0]) ++ block.drop (start + (source ++ [0]).length),?_,⟨?_,?_⟩,?_⟩
  · rw [strcpy,put,if_pos fits]
  · simp [before,free]
  · exact ⟨block.drop (start + (source ++ [0]).length),by simp⟩
  · simp only [List.length_append,List.length_take,List.length_drop,List.length_singleton]
    omega

theorem strcpy_whole (block source : List UInt8) (room : source.length < block.length) (free : 0 ∉ source) :
    ∃ after, strcpy block 0 source = some after ∧ Holds after source ∧ after.length = block.length := by
  obtain ⟨after,copied,holds,size⟩ := strcpy_holds block 0 source (by rwa [Nat.zero_add]) (by simp) free
  rw [List.take_zero,List.nil_append] at holds
  exact ⟨after,copied,holds,size⟩

theorem strcpy_behind (holds : Holds block content) (source : List UInt8) (room : content.length + source.length < block.length)
    (free : 0 ∉ source) :
    ∃ after, strcpy block content.length source = some after ∧ Holds after (content ++ source) ∧ after.length = block.length := by
  have before := holds.take
  obtain ⟨after,copied,whole,size⟩ := strcpy_holds block content.length source room (by rw [before]; exact holds.free) free
  rw [before] at whole
  exact ⟨after,copied,whole,size⟩

theorem put_holds (holds : Holds block content) (start : Nat) (data : List UInt8)
    (inside : start + data.length ≤ content.length) (free : 0 ∉ data) :
    ∃ after, put block start data = some after ∧
      Holds after (content.take start ++ data ++ content.drop (start + data.length)) ∧ after.length = block.length := by
  obtain ⟨rest,rfl⟩ := holds.parts
  have fits : start + data.length ≤ (content ++ 0 :: rest).length := by
    simp only [List.length_append,List.length_cons]
    omega
  refine ⟨_,by rw [put,if_pos fits],⟨?_,rest,?_⟩,?_⟩
  · simp only [List.mem_append,not_or]
    exact ⟨⟨fun member => holds.free (List.mem_of_mem_take member),free⟩,
      fun member => holds.free (List.mem_of_mem_drop member)⟩
  · rw [List.take_append_of_le_length (by omega),List.drop_append_of_le_length inside]
    simp
  · simp only [List.length_append,List.length_take,List.length_drop,List.length_cons]
    omega

theorem close_up (bytes content : List UInt8) (low from_ size : Nat) (holds : Holds bytes content) (lower : low ≤ from_)
    (inside : from_ + size ≤ content.length) :
    ∃ moved after, slice bytes from_ size = some ((content.drop from_).take size) ∧
      put bytes low ((content.drop from_).take size) = some moved ∧ put moved (low + size) [0] = some after ∧
      Holds after (content.take low ++ (content.drop from_).take size) ∧ after.length = bytes.length := by
  have long := holds.length_lt
  have piece : ((content.drop from_).take size).length = size := by
    simp only [List.length_take,List.length_drop]
    omega
  have free : 0 ∉ (content.drop from_).take size := fun member =>
    holds.free (List.mem_of_mem_drop (List.mem_of_mem_take member))
  obtain ⟨moved,written,ends,same⟩ := put_holds holds low _ (by rw [piece]; omega) free
  have front : moved.take (low + size) = content.take low ++ (content.drop from_).take size := by
    obtain ⟨rest,parts⟩ := ends.parts
    rw [parts,List.append_assoc,List.take_left']
    simp only [List.length_append,List.length_take,List.length_drop]
    omega
  obtain ⟨after,closed,closed_ends,closed_same⟩ := put_zero moved (low + size) (by omega) (by
    rw [front]
    exact fun member => (List.mem_append.mp member).elim (fun m => holds.free (List.mem_of_mem_take m)) free)
  refine ⟨moved,after,?_,written,closed,by rw [← front]; exact closed_ends,by omega⟩
  obtain ⟨rest,rfl⟩ := holds.parts
  rw [slice,if_pos (by omega)]
  rw [List.drop_append_of_le_length (by omega),List.take_append_of_le_length (by rw [List.length_drop]; omega)]

theorem open_up (block word data : List UInt8) (index width : Nat) (holds : Holds block word)
    (inside : index + width ≤ word.length) (wider : width < data.length) (free : 0 ∉ data)
    (room : word.length + (data.length - width) < block.length) :
    ∃ moved ended after, put block (index + data.length) (word.drop (index + width)) = some moved ∧
      put moved (word.length + (data.length - width)) [0] = some ended ∧ put ended index data = some after ∧
      Holds after (word.take index ++ data ++ word.drop (index + width)) ∧ after.length = block.length := by
  obtain ⟨tail,tail_eq⟩ : ∃ tail, tail = word.drop (index + width) := ⟨_,rfl⟩
  have size : tail.length = word.length - (index + width) := by rw [tail_eq,List.length_drop]
  rw [← tail_eq]
  -- the old block in the pieces that the three writes put something over
  obtain ⟨old,behind_old,parts,old_length⟩ := exists_middle block index data.length (by omega)
  have front_length : (block.take index).length = index := by
    rw [List.length_take]
    omega
  have total := congrArg List.length parts
  simp only [List.length_append,front_length,old_length] at total
  obtain ⟨older,behind_older,parts',older_length⟩ := exists_middle behind_old 0 tail.length (by omega)
  rw [List.take_zero,List.nil_append] at parts'
  have total' := congrArg List.length parts'
  rw [List.length_append,older_length] at total'
  obtain ⟨last,rest,parts''⟩ := List.exists_cons_of_length_pos (by omega : 0 < behind_older.length)
  have front_eq : block.take index = word.take index := by
    obtain ⟨more,rfl⟩ := holds.parts
    rw [List.take_append_of_le_length (by omega)]
  rw [front_eq] at parts front_length
  subst parts' parts''
  have first := put_middle (word.take index ++ old) tail older (last :: rest) older_length.symm
  have second := put_middle (word.take index ++ old ++ tail) [0] [last] rest rfl
  have third := put_middle (word.take index) data old (tail ++ 0 :: rest) old_length.symm
  simp only [List.length_append,front_length,old_length,List.append_assoc,List.cons_append,List.nil_append] at first second third parts
  rw [← parts] at first
  have stop : index + (data.length + tail.length) = word.length + (data.length - width) := by omega
  rw [stop] at second
  refine ⟨_,_,_,first,second,third,⟨?_,rest,by simp⟩,?_⟩
  · simp only [List.mem_append,not_or,tail_eq]
    exact ⟨⟨fun member => holds.free (List.mem_of_mem_take member),free⟩,
      fun member => holds.free (List.mem_of_mem_drop member)⟩
  · simp only [List.length_append,List.length_cons,front_length] at total ⊢
    omega

theorem mapText_holds (holds : Holds block content) (f : UInt8 → UInt8) (keeps : ∀ c, c ≠ 0 → f c ≠ 0) :
    ∃ after, mapText f block = some after ∧ Holds after (content.map f) ∧ after.length = block.length := by
  refine ⟨content.map f ++ block.drop content.length,?_,⟨?_,?_⟩,?_⟩
  · rw [mapText,if_pos holds.mem,holds.takeWhile,holds.dropWhile]
  · intro member
    obtain ⟨c,inside,zero⟩ := List.mem_map.mp member
    exact keeps c (fun same => holds.free (same ▸ inside)) zero
  · obtain ⟨rest,rfl⟩ := holds.parts
    exact ⟨rest,by simp⟩
  · have := holds.length_lt
    simp only [List.length_append,List.length_map,List.length_drop]
    omega

end OpenPlc.CString
