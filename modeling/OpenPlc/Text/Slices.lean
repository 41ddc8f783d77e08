import OpenPlc.Text.Search

/-! The pieces that `String` (`WString.cpp`) gives out and cuts away. What a call does on a block that ends with the
terminator it does on a larger one, and it leaves the bytes behind alone. -/
namespace OpenPlc.Text
open CString

namespace Str

/-- `substring(left, right)`, with the source as it is left behind: its character at `right` is replaced for a while.
The local object starts with an empty text. -/
def substring (s : Str) (left right : Nat) (first second : Alloc) : Option (Str × Str) := do
  let (left,right) := if right < left then (right,left) else (left,right)
  let out ← init.copy [] 0 first
  if s.len ≤ left then return (s,out)
  let right := if s.len < right then s.len else right
  let block ← s.bytes
  let temp ← block[right]?
  let block ← put block right [0]
  let source ← text (block.drop left)
  let out ← out.copy source source.length second
  let block ← put block right [temp]
  return ({s with buffer := .block block},out)

/-- `getBytes(buf, bufsize, index)` with the bytes from `buf` on, or a null pointer. -/
def getBytes (s : Str) (buf : Option (List UInt8)) (bufsize index : Nat) : Option (Option (List UInt8)) := do
  match buf with
  | none => return none
  | some target =>
    if bufsize = 0 then return some target
    if s.len ≤ index then return some (← put target 0 [0])
    let n := if s.len - index < bufsize - 1 then s.len - index else bufsize - 1
    let target ← put target 0 (← strncpy ((← s.bytes).drop index) n)
    return some (← put target n [0])

/-- The same object in a block with more bytes. -/
def extend (s : Str) (rest : List UInt8) : Str :=
  match s.buffer with
  | .block bytes => {s with buffer := .block (bytes ++ rest)}
  | _ => s

/-- The bytes behind the terminator. -/
def rest (s : Str) : List UInt8 :=
  match s.buffer with
  | .block bytes => bytes.drop (s.len + 1)
  | _ => []

theorem cut_extend (s : Str) : s.cut.extend s.rest = s := by
  obtain ⟨buffer,capacity,len⟩ := s
  cases buffer with
  | null => rfl
  | block bytes => simp [cut,extend,rest]
  | freed => rfl

end Str

/-- The call changes no byte behind the terminator, and does not read any. -/
def Contained (call : Str → Option Str) (s after : Str) : Prop :=
  call s = some after ∧ ∃ short, call s.cut = some short ∧ after = short.extend s.rest

section Extension
variable (bytes rest : List UInt8) (capacity len : Nat)

theorem remove_block (index count : Nat) : Str.remove ⟨.block bytes,capacity,len⟩ index count =
    if len ≤ index then some ⟨.block bytes,capacity,len⟩ else if count = 0 then some ⟨.block bytes,capacity,len⟩ else
      (slice bytes (index + min count (len - index)) (len - min count (len - index) - index)).bind fun piece =>
        (put bytes index piece).bind fun block => (put block (len - min count (len - index)) [0]).bind fun block =>
          some ⟨.block block,capacity,len - min count (len - index)⟩ := by
  have least : (if len - index < count then len - index else count) = min count (len - index) := by
    rw [Nat.min_def]
    split <;> split <;> omega
  simp only [Str.remove,Str.bytes,least]
  rfl

theorem remove_extend (index count : Nat) (after : Str)
    (removed : Str.remove ⟨.block bytes,capacity,len⟩ index count = some after) :
    Str.remove ⟨.block (bytes ++ rest),capacity,len⟩ index count = some (after.extend rest) := by
  rw [remove_block] at removed ⊢
  split at removed
  · rename_i behind
    cases removed
    rw [if_pos behind]
    rfl
  · rename_i inside
    rw [if_neg inside]
    split at removed
    · rename_i zero
      cases removed
      rw [if_pos zero]
      rfl
    · rename_i some_
      obtain ⟨piece,read,removed⟩ := Option.bind_eq_some_iff.mp removed
      obtain ⟨moved,written,removed⟩ := Option.bind_eq_some_iff.mp removed
      obtain ⟨ended,closed,removed⟩ := Option.bind_eq_some_iff.mp removed
      cases removed
      rw [if_neg some_,slice_append rest _ _ _ read,Option.bind_some,put_append rest _ _ _ written,Option.bind_some,
        put_append rest _ _ _ closed]
      rfl

theorem trimBegin_append (begin_ : Nat) (found : Str.trimBegin bytes = some begin_) :
    Str.trimBegin (bytes ++ rest) = some begin_ := by
  simp only [Str.trimBegin] at found ⊢
  split at found
  · rename_i inside
    cases Option.some.inj found
    have same : ((bytes ++ rest).takeWhile Str.isSpace).length = (bytes.takeWhile Str.isSpace).length := by
      rw [List.takeWhile_append,if_neg (Nat.ne_of_lt inside)]
    rw [same,if_pos (by rw [List.length_append]; omega)]
  · contradiction

theorem trimEnd_append (begin_ stop last : Nat) (found : Str.trimEnd bytes begin_ stop = some last) :
    Str.trimEnd (bytes ++ rest) begin_ stop = some last := by
  induction stop with
  | zero => contradiction
  | succ stop ih =>
    obtain ⟨c,read,found⟩ := Option.bind_eq_some_iff.mp found
    obtain ⟨inside,_⟩ := List.getElem?_eq_some_iff.mp read
    have same : (bytes ++ rest)[stop]? = some c := by
      rw [List.getElem?_append_left inside]
      exact read
    simp only [Str.trimEnd,same,Option.bind_eq_bind,Option.bind_some]
    split at found
    · rename_i onward
      rw [if_pos onward]
      exact ih found
    · rename_i stays
      rw [if_neg stays]
      exact found

theorem trim_block : Str.trim ⟨.block bytes,capacity,len⟩ =
    if len = 0 then some ⟨.block bytes,capacity,len⟩ else
      (Str.trimBegin bytes).bind fun begin_ => (Str.trimEnd bytes begin_ len).bind fun stop =>
        (if 0 < begin_ then (slice bytes begin_ (stop - begin_)).bind fun piece => put bytes 0 piece else some bytes).bind
          fun block => (put block (stop - begin_) [0]).bind fun block => some ⟨.block block,capacity,stop - begin_⟩ := by
  simp only [Str.trim,Str.bytes]
  split
  · rfl
  · cases started : Str.trimBegin bytes with
    | none => simp [started]
    | some begin_ =>
      cases stopped : Str.trimEnd bytes begin_ len with
      | none => simp [started,stopped]
      | some stop =>
        simp only [started,stopped,Option.bind_eq_bind,Option.bind_some]
        split
        · rw [Option.bind_assoc]
          rfl
        · rfl

theorem trim_extend (after : Str) (trimmed : Str.trim ⟨.block bytes,capacity,len⟩ = some after) :
    Str.trim ⟨.block (bytes ++ rest),capacity,len⟩ = some (after.extend rest) := by
  rw [trim_block] at trimmed ⊢
  split at trimmed
  · rename_i empty
    cases trimmed
    rw [if_pos empty]
    rfl
  · rename_i some_
    obtain ⟨begin_,found,trimmed⟩ := Option.bind_eq_some_iff.mp trimmed
    obtain ⟨stop,stops,trimmed⟩ := Option.bind_eq_some_iff.mp trimmed
    obtain ⟨moved,copied,trimmed⟩ := Option.bind_eq_some_iff.mp trimmed
    obtain ⟨ended,closed,trimmed⟩ := Option.bind_eq_some_iff.mp trimmed
    cases trimmed
    have moves : (if 0 < begin_ then
        (slice (bytes ++ rest) begin_ (stop - begin_)).bind fun piece => put (bytes ++ rest) 0 piece
        else some (bytes ++ rest)) = some (moved ++ rest) := by
      split at copied
      · rename_i ahead
        obtain ⟨piece,read,written⟩ := Option.bind_eq_some_iff.mp copied
        rw [if_pos ahead,slice_append rest _ _ _ read,Option.bind_some,put_append rest _ _ _ written]
      · rename_i start
        cases copied
        rw [if_neg start]
    rw [if_neg some_,trimBegin_append bytes rest begin_ found,Option.bind_some,
      trimEnd_append bytes rest begin_ len stop stops,Option.bind_some,moves,Option.bind_some,put_append rest _ _ _ closed]
    rfl

end Extension

theorem extend_nil (s : Str) : s.extend [] = s := by
  obtain ⟨buffer,capacity,len⟩ := s
  cases buffer with
  | null => rfl
  | block bytes => simp [Str.extend]
  | freed => rfl

theorem contained_of {call : Str → Option Str} {s short : Str}
    (extends_ : ∀ bytes rest capacity len after, call ⟨.block bytes,capacity,len⟩ = some after →
      call ⟨.block (bytes ++ rest),capacity,len⟩ = some (after.extend rest))
    (called : call s.cut = some short) : Contained call s (short.extend s.rest) := by
  refine ⟨?_,short,called,rfl⟩
  cases owned : s.buffer with
  | block bytes =>
    have cut : s.cut = ⟨.block (bytes.take (s.len + 1)),s.capacity,s.len⟩ := by simp [Str.cut,owned]
    rw [cut] at called
    have whole := extends_ _ s.rest _ _ _ called
    have same : (⟨.block (bytes.take (s.len + 1) ++ s.rest),s.capacity,s.len⟩ : Str) = s := by
      have back := Str.cut_extend s
      rw [cut] at back
      exact back
    rw [same] at whole
    exact whole
  | null =>
    have same : s.cut = s := by simp [Str.cut,owned]
    have nothing : s.rest = [] := by simp [Str.rest,owned]
    rw [nothing,extend_nil,← called,same]
  | freed =>
    have same : s.cut = s := by simp [Str.cut,owned]
    have nothing : s.rest = [] := by simp [Str.rest,owned]
    rw [nothing,extend_nil,← called,same]

theorem contained_changed {call : Str → Option Str} {s : Str} {content result : List UInt8}
    (extends_ : ∀ bytes rest capacity len after, call ⟨.block bytes,capacity,len⟩ = some after →
      call ⟨.block (bytes ++ rest),capacity,len⟩ = some (after.extend rest)) (of_s : Denotes s content)
    (law : ∀ t, Reads t content → ∃ after, call t = some after ∧ Changed t after result) :
    ∃ after, Contained call s after ∧ Denotes after result := by
  obtain ⟨short,called,_⟩ := law s.cut of_s.reads.cut.1
  obtain ⟨after,whole,changed⟩ := law s of_s.reads
  have contained := contained_of extends_ called
  rw [Option.some.inj (contained.1.symm.trans whole)] at contained
  exact ⟨after,contained,changed.denotes of_s⟩

section Pieces
variable {s : Str} {content : List UInt8}

theorem substring_sorted (left right : Nat) (first second : Alloc) (reads : Reads s content) (sorted : left ≤ right) :
    s.substring left right first second = (Str.init.copy [] 0 first).bind fun out =>
      if content.length ≤ left then some (s,out) else
        (out.copy ((content.take right).drop left) ((content.take right).drop left).length second).map (s,·) := by
  have order : ¬ right < left := Nat.not_lt.mpr sorted
  cases reads with
  | null nothing len => simp [Str.substring,order,len]
  | block _ bytes owned holds len =>
    by_cases behind : content.length ≤ left
    · simp [Str.substring,order,len,behind]
    · obtain ⟨stop,stop_eq⟩ : ∃ stop, stop = if content.length < right then content.length else right := ⟨_,rfl⟩
      have room := holds.length_lt
      have stop_le : left ≤ stop ∧ stop ≤ content.length := by split at stop_eq <;> omega
      have front : bytes.take stop = content.take right := by
        rw [holds.take_le stop stop_le.2]
        split at stop_eq
        · rw [List.take_of_length_le (by omega),List.take_of_length_le (by omega)]
        · rw [stop_eq]
      have length : (content.take right).length = stop := by
        rw [← front,List.length_take_of_le (by omega)]
      obtain ⟨temp,read⟩ : ∃ temp, bytes[stop]? = some temp := ⟨_,List.getElem?_eq_getElem (by omega)⟩
      obtain ⟨after,written,cut,_⟩ := put_zero bytes stop (by omega) (by
        rw [front]
        exact fun member => holds.free (List.mem_of_mem_take member))
      rw [front] at cut
      have piece := (cut.drop_le left (by omega)).text
      have restored := put_back bytes after stop 0 temp read written
      have same : (⟨.block bytes,s.capacity,content.length⟩ : Str) = s := by rw [← owned,← len]
      have paired (made : Option Str) : made.map (s,·) = made.bind fun out => some (s,out) := Option.map_eq_bind
      simp [Str.substring,order,len,behind,Str.bytes,owned,← stop_eq,read,written,piece,restored,same,paired]

theorem substring_eq (left right : Nat) (first second : Alloc) (reads : Reads s content) :
    s.substring left right first second = (Str.init.copy [] 0 first).bind fun out =>
      if content.length ≤ min left right then some (s,out) else
        (out.copy ((content.take (max left right)).drop (min left right))
          ((content.take (max left right)).drop (min left right)).length second).map (s,·) := by
  rcases Nat.le_total left right with sorted | swapped
  · rw [Nat.min_eq_left sorted,Nat.max_eq_right sorted]
    exact substring_sorted left right first second reads sorted
  · have exchanged : s.substring left right first second = s.substring right left first second := by
      by_cases order : right < left
      · simp [Str.substring,order,Nat.not_lt.mpr swapped]
      · rw [Nat.le_antisymm (Nat.not_lt.mp order) swapped]
    rw [Nat.min_eq_right swapped,Nat.max_eq_left swapped,exchanged]
    exact substring_sorted right left first second reads swapped

theorem getBytes_eq (target : List UInt8) (bufsize index : Nat) (reads : Reads s content)
    (room : bufsize = 0 ∨ ((content.drop index).take (bufsize - 1)).length < target.length) :
    s.getBytes (some target) bufsize index = some (some (if bufsize = 0 then target else
      (content.drop index).take (bufsize - 1) ++ 0 :: target.drop (((content.drop index).take (bufsize - 1)).length + 1))) := by
  by_cases nothing : bufsize = 0
  · simp [Str.getBytes,nothing]
  · have room := room.resolve_left nothing
    have ends := terminate target _ room
    by_cases behind : content.length ≤ index
    · rw [List.drop_eq_nil_of_le behind,List.take_nil] at ends ⊢
      rw [put_nothing 0 (Nat.zero_le _),Option.bind_some] at ends
      simp only [List.length_nil,List.nil_append,Nat.zero_add] at ends
      simp [Str.getBytes,nothing,reads.len,behind,ends]
    · cases reads with
      | null _ len => simp at behind
      | block _ bytes owned holds len =>
        obtain ⟨n,n_eq⟩ : ∃ n, n = if content.length - index < bufsize - 1 then content.length - index else bufsize - 1 :=
          ⟨_,rfl⟩
        have piece : (content.drop index).take (bufsize - 1) = (content.drop index).take n := by
          split at n_eq
          · rw [n_eq,List.take_of_length_le (by rw [List.length_drop]; omega),
              List.take_of_length_le (by rw [List.length_drop])]
          · rw [n_eq]
        have inside : n ≤ (content.drop index).length := by
          rw [List.length_drop]
          split at n_eq <;> omega
        have read := strncpy_spec (holds.drop_le index (by omega)) n inside
        rw [piece] at ends ⊢
        have length : ((content.drop index).take n).length = n := List.length_take_of_le inside
        rw [length] at ends ⊢
        obtain ⟨copied,written,ended⟩ := Option.bind_eq_some_iff.mp ends
        simp [Str.getBytes,nothing,len,behind,Str.bytes,owned,← n_eq,read,written,ended]

/-- What a successful `substring` gives, or that the allocator refused. -/
theorem copied_piece (out : Str) (piece : List UInt8) (second : Alloc) (of_out : Denotes out []) (free : 0 ∉ piece)
    (short : piece.length + 1 < objectLimit) : ∃ after, out.copy piece piece.length second = some after ∧
      (Denotes after piece ∨ second = .refuse ∧ after = Str.init) := by
  rcases copy_spec out [] piece second of_out free short with lost | ⟨after,copied,represents⟩
  · exact ⟨Str.init,lost,Or.inr ⟨copy_refusal out Str.init piece _ second short lost rfl,rfl⟩⟩
  · exact ⟨after,copied,Or.inl (.block piece represents)⟩

theorem substring_spec (left right : Nat) (first second : Alloc) (of_s : Denotes s content) :
    ∃ out, (Denotes out ((content.take (max left right)).drop (min left right)) ∨ second = .refuse ∧ out = Str.init) ∧
      ∀ t, Reads t content → t.substring left right first second = some (t,out) := by
  have short := of_s.short
  obtain ⟨empty,made,denotes⟩ : ∃ empty, Str.init.copy [] 0 first = some empty ∧ Denotes empty [] := by
    rcases copy_spec Str.init [] [] first (.null rfl) (by simp) (by decide) with lost | ⟨after,copied,represents⟩
    · exact ⟨Str.init,lost,.null rfl⟩
    · exact ⟨after,copied,.block [] represents⟩
  by_cases behind : content.length ≤ min left right
  · have nothing : (content.take (max left right)).drop (min left right) = [] :=
      List.drop_eq_nil_of_le (by rw [List.length_take]; omega)
    refine ⟨empty,Or.inl (nothing ▸ denotes),fun t reads => ?_⟩
    rw [substring_eq left right first second reads,made,Option.bind_some,if_pos behind]
  · obtain ⟨piece,cut⟩ : ∃ piece, piece = (content.take (max left right)).drop (min left right) := ⟨_,rfl⟩
    have fewer : piece.length ≤ content.length := by
      rw [cut,List.length_drop,List.length_take]
      omega
    have free : 0 ∉ piece := fun member =>
      of_s.free (List.mem_of_mem_take (List.mem_of_mem_drop (cut ▸ member)))
    obtain ⟨after,copied,outcome⟩ := copied_piece empty piece second denotes free (by omega)
    refine ⟨after,cut ▸ outcome,fun t reads => ?_⟩
    rw [substring_eq left right first second reads,made,Option.bind_some,if_neg behind,← cut,copied]
    rfl

end Pieces

/-- The pieces are those that the text has, the source of a copy stays as it is, and no call reaches behind the terminator.
An array has room for the copied characters and a terminator unless its size is 0. -/
theorem pieces (s : Str) (content target : List UInt8) (left right index count bufsize : UInt32) (first second : Alloc)
    (of_s : Denotes s content)
    (room : bufsize.toNat = 0 ∨ ((content.drop index.toNat).take (bufsize.toNat - 1)).length < target.length) :
    (∃ out, s.substring left.toNat right.toNat first second = some (s,out) ∧
      s.cut.substring left.toNat right.toNat first second = some (s.cut,out) ∧
      (Denotes out ((content.take (max left.toNat right.toNat)).drop (min left.toNat right.toNat)) ∨
        second = .refuse ∧ out = Str.init)) ∧
    (∃ after, Contained (·.remove index.toNat count.toNat) s after ∧ Denotes after (content.take index.toNat ++
      content.drop (index.toNat + min count.toNat (content.length - index.toNat)))) ∧
    (∃ after, Contained Str.trim s after ∧ Denotes after ((content.dropWhile Str.isSpace).rdropWhile Str.isSpace)) ∧
    s.getBytes none bufsize.toNat index.toNat = some none ∧
    (∃ filled, s.getBytes (some target) bufsize.toNat index.toNat = some (some filled) ∧
      s.cut.getBytes (some target) bufsize.toNat index.toNat = some (some filled) ∧
      filled = if bufsize.toNat = 0 then target else (content.drop index.toNat).take (bufsize.toNat - 1) ++
        0 :: target.drop (min (bufsize.toNat - 1) (content.length - index.toNat) + 1)) := by
  have reads := of_s.reads
  have cut := reads.cut.1
  refine ⟨?_,?_,?_,rfl,?_⟩
  · obtain ⟨out,outcome,law⟩ := substring_spec left.toNat right.toNat first second of_s
    exact ⟨out,law s reads,law s.cut cut,outcome⟩
  · refine contained_changed (fun bytes rest capacity len => remove_extend bytes rest capacity len _ _) of_s fun t reads => ?_
    have dropped : content.drop (index.toNat + min count.toNat (content.length - index.toNat)) =
        content.drop (index.toNat + count.toNat) := by
      rcases Nat.le_total count.toNat (content.length - index.toNat) with fewer | more
      · rw [Nat.min_eq_left fewer]
      · rw [List.drop_eq_nil_of_le (by omega),List.drop_eq_nil_of_le (by omega)]
    rw [dropped]
    exact remove_changed t content index.toNat count.toNat reads
  · exact contained_changed trim_extend of_s fun t reads => trim_changed t content reads
  · refine ⟨_,getBytes_eq target bufsize.toNat index.toNat reads room,
      getBytes_eq target bufsize.toNat index.toNat cut room,?_⟩
    rw [List.length_take,List.length_drop]

theorem pieces_blanks :
    (fitted [32,97,98,32]).getBytes (some [1,2,3,4]) 3 1 = some (some [97,98,0,4]) ∧
      (∃ after, Contained (·.remove 1 9) (fitted [32,97,98,32]) after ∧ Denotes after [32]) ∧
      ∃ after, Contained Str.trim (fitted [32,97,98,32]) after ∧ Denotes after [97,98] := by
  have cuts := pieces (fitted [32,97,98,32]) [32,97,98,32] [1,2,3,4] 3 1 1 9 3 .refuse .refuse
    (fitted_denotes _ (by decide) (by decide)) (Or.inr (by decide))
  obtain ⟨_,removed,trimmed,_,filled,got,_,rfl⟩ := cuts
  exact ⟨got,removed,trimmed⟩

end OpenPlc.Text
