import OpenPlc.Lib.Replacement
import OpenPlc.Text.Represents

/-! `String::replace(find, replace)` (`WString.cpp`): in place for a replacement of the same
length, from the left for a shorter one, and from the right, after the result was measured
from the left, for a longer one. -/
namespace OpenPlc.Text
open CString Replacement

namespace Str

/-- `strstr(buffer + from_, pattern)` as a place in the buffer. -/
def strstr (block : List UInt8) (from_ : Nat) (pattern : List UInt8) : Option (Option Nat) := do
  return (search pattern (← text (block.drop from_))).map (from_ + ·)

/-- The `len` characters that `memcpy` reads; none of them from a null pointer. -/
def chars (s : Str) : Option (List UInt8) :=
  match s.buffer with
  | .null => if s.len = 0 then some [] else none
  | .block bytes => slice bytes 0 s.len
  | .freed => none

/-- `unsigned += int` -/
def addDiff (value : Nat) (diff : Int) : Nat := ((value + diff) % 4294967296).toNat

/-- `for (char *p = buffer; p <= buffer + fromIndex; p++)` of `lastIndexOf`. -/
def lastIndexLoop (block pattern : List UInt8) (fromIndex : Nat) : Nat → Nat → Option Nat → Option (Option Nat)
  | 0, _, _ => none
  | fuel + 1, p, found => do
    if p ≤ fromIndex then
      match ← strstr block p pattern with
      | none => return found
      | some q => lastIndexLoop block pattern fromIndex fuel (q + 1) (if q ≤ fromIndex then some q else found)
    else return found

/-- `lastIndexOf(s2, fromIndex)`, where -1 is `none`. -/
def lastIndexOf (s s2 : Str) (fromIndex : Nat) : Option (Option Nat) := do
  if s2.len = 0 ∨ s.len = 0 ∨ s.len < s2.len then return none
  let fromIndex := if s.len ≤ fromIndex then s.len - 1 else fromIndex
  lastIndexLoop (← s.bytes) (← text (← s2.bytes)) fromIndex (fromIndex + 2) 0 none

/-- The loop for `diff == 0`. -/
def replaceSame (find replace : Str) : Nat → Nat → List UInt8 → Option (List UInt8)
  | 0, _, _ => none
  | fuel + 1, readFrom, block => do
    match ← strstr block readFrom (← text (← find.bytes)) with
    | none => return block
    | some foundAt =>
      let block ← put block foundAt (← replace.chars)
      replaceSame find replace fuel (foundAt + replace.len) block

/-- The loop for `diff < 0` with the `strcpy` behind it. Its overlapping copies run forwards,
to a lower address. -/
def replaceShorter (find replace : Str) (diff : Int) : Nat → Nat → Nat → Str → Option Str
  | 0, _, _, _ => none
  | fuel + 1, readFrom, writeTo, s => do
    let block ← s.bytes
    match ← strstr block readFrom (← text (← find.bytes)) with
    | none =>
      let block ← strcpy block writeTo (← text (block.drop readFrom))
      return {s with buffer := .block block}
    | some foundAt =>
      let n := foundAt - readFrom
      let block ← put block writeTo (← slice block readFrom n)
      let block ← put block (writeTo + n) (← replace.chars)
      replaceShorter find replace diff fuel (foundAt + find.len) (writeTo + n + replace.len)
        {s with buffer := .block block, len := addDiff s.len diff}

/-- The counting loop for `diff > 0`. -/
def grownSize (find : Str) (diff : Int) (block : List UInt8) : Nat → Nat → Nat → Option Nat
  | 0, _, _ => none
  | fuel + 1, readFrom, size => do
    match ← strstr block readFrom (← text (← find.bytes)) with
    | none => return size
    | some foundAt => grownSize find diff block fuel (foundAt + find.len) (addDiff size diff)

/-- One replacement of the loop for `diff > 0`. -/
def replaceAt (find replace : Str) (diff : Int) (s : Str) (index : Nat) : Option Str := do
  let readFrom := index + find.len
  let block ← s.bytes
  let block ← put block (readFrom + diff.toNat) (← slice block readFrom (s.len - readFrom))
  let len := addDiff s.len diff
  let block ← put block len [0]
  let block ← put block index (← replace.chars)
  return {s with buffer := .block block, len := len}

/-- The loop for `diff > 0`, where `bound` is `index + 1`. -/
def replaceLonger (find replace : Str) (diff : Int) : Nat → Nat → Str → Option Str
  | 0, _, _ => none
  | fuel + 1, bound, s => do
    if bound = 0 then return s
    match ← s.lastIndexOf find (bound - 1) with
    | none => return s
    | some index => replaceLonger find replace diff fuel index (← replaceAt find replace diff s index)

/-- `replace(find, replace)` with other objects. -/
def replace (s find replace : Str) (answer : Alloc) : Option Str := do
  if s.len = 0 ∨ find.len = 0 then return s
  let diff := Int.bmod (replace.len - find.len) 4294967296
  let block ← s.bytes
  if diff = 0 then
    let block ← replaceSame find replace (s.len + 1) 0 block
    return {s with buffer := .block block}
  else if diff < 0 then replaceShorter find replace diff (s.len + 1) 0 0 s
  else
    let size ← grownSize find diff block (s.len + 1) 0 s.len
    if size = s.len then return s
    let (s,done) ← if s.capacity < size then changeBuffer s size answer else some (s,true)
    if done then replaceLonger find replace diff (s.len + 1) s.len s else return s

end Str

theorem Denotes.chars {s : Str} {content : List UInt8} (denotes : Denotes s content) : s.chars = some content := by
  cases denotes with
  | null same => rw [same]; rfl
  | block _ represents =>
    obtain ⟨len,bytes,owned,holds,_⟩ := represents
    have := holds.length_lt
    simp only [Str.chars,owned,slice,len,List.drop_zero,holds.take]
    rw [if_pos (by omega)]

theorem Denotes.pattern {s : Str} {content : List UInt8} (denotes : Denotes s content) (some_ : content ≠ []) :
    (s.bytes.bind text) = some content := by
  cases denotes with
  | null => contradiction
  | block _ represents =>
    obtain ⟨len,bytes,owned,holds,_⟩ := represents
    simp [Str.bytes,owned,holds.text]

theorem strstr_spec (block rest pattern : List UInt8) (readFrom : Nat) (holds : Holds (block.drop readFrom) rest) :
    Str.strstr block readFrom pattern = some ((search pattern rest).map (readFrom + ·)) := by
  simp [Str.strstr,holds.text]

theorem addDiff_eq (value result : Nat) (diff : Int) (sum : value + diff = result) (small : result < 4294967296) :
    Str.addDiff value diff = result := by
  rw [Str.addDiff,sum,Int.emod_eq_of_lt (by omega) (by omega),Int.toNat_natCast]

section Loops

variable (find replace : Str) (pattern replacement : List UInt8)
  (of_find : Denotes find pattern) (of_replace : Denotes replace replacement) (some_ : pattern ≠ [])

include of_find of_replace some_ in
theorem replaceSame_spec (equal : replacement.length = pattern.length) (fuel : Nat) (front rest block : List UInt8)
    (holds : Holds block (front ++ rest)) (enough : rest.length < fuel) :
    ∃ after, Str.replaceSame find replace fuel front.length block = some after ∧
      Holds after (front ++ replaceFrom pattern replacement 0 rest) ∧ after.length = block.length := by
  induction fuel generalizing front rest block with
  | zero => omega
  | succ fuel ih =>
    have found := strstr_spec block rest pattern front.length (holds.drop front rest)
    obtain ⟨bytes,owned,shown⟩ := Option.bind_eq_some_iff.mp (of_find.pattern some_)
    cases place : search pattern rest with
    | none =>
      rw [(replaceFrom_none rest place).1]
      exact ⟨block,by simp [Str.replaceSame,owned,shown,found,place],holds,rfl⟩
    | some d =>
      obtain ⟨long,inside⟩ := occurs_within some_ (search_some rest d place).1
      obtain ⟨written,put_,ends,same⟩ := put_holds holds (front.length + d) replacement
        (by rw [List.length_append]; omega) of_replace.free
      rw [List.take_length_add_append,Nat.add_assoc,List.drop_length_add_append] at ends
      have next := ih (front ++ rest.take d ++ replacement) (rest.drop (d + replacement.length)) written ends
        (by rw [List.length_drop]; omega)
      have length : (front ++ rest.take d ++ replacement).length = front.length + d + replace.len := by
        simp only [List.length_append,List.length_take,of_replace.len]
        omega
      rw [length] at next
      obtain ⟨after,looped,ends',same'⟩ := next
      refine ⟨after,?_,?_,same'.trans same⟩
      · simp [Str.replaceSame,owned,shown,found,place,of_replace.chars,put_,looped]
      · rw [(replaceFrom_some some_ rest d place).1,← equal]
        simpa [List.append_assoc] using ends'

include of_find of_replace some_ in
/-- The part already written and the part still to be read; between them old characters. -/
theorem replaceShorter_spec (shorter : replacement.length < pattern.length) (fuel : Nat) (front rest block : List UInt8)
    (readFrom capacity len : Nat) (written : block.take front.length = front) (free : 0 ∉ front)
    (holds : Holds (block.drop readFrom) rest) (behind : front.length ≤ readFrom) (inside : readFrom < block.length)
    (length : len = front.length + rest.length) (small : len < 4294967296) (enough : rest.length < fuel) :
    ∃ after, Str.replaceShorter find replace (replacement.length - pattern.length) fuel readFrom front.length
        ⟨.block block,capacity,len⟩ =
        some ⟨.block after,capacity,(front ++ replaceFrom pattern replacement 0 rest).length⟩ ∧
      Holds after (front ++ replaceFrom pattern replacement 0 rest) ∧ after.length = block.length := by
  induction fuel generalizing front rest block readFrom len with
  | zero => omega
  | succ fuel ih =>
    obtain ⟨bytes,owned,shown⟩ := Option.bind_eq_some_iff.mp (of_find.pattern some_)
    have found := strstr_spec block rest pattern readFrom holds
    have room := holds.length_lt
    rw [List.length_drop] at room
    cases place : search pattern rest with
    | none =>
      obtain ⟨after,copied,ends,same⟩ := strcpy_holds block front.length rest (by omega)
        (by rw [written]; exact free) holds.free
      rw [(replaceFrom_none rest place).1]
      rw [written] at ends
      refine ⟨after,?_,ends,same⟩
      simp only [Str.bytes] at owned
      simp [Str.replaceShorter,Str.bytes,owned,shown,found,place,holds.text,copied,length]
    | some d =>
      obtain ⟨long,reach⟩ := occurs_within some_ (search_some rest d place).1
      obtain ⟨tail,parts⟩ := holds.parts
      have read : Str.bytes ⟨.block block,capacity,len⟩ = some block := rfl
      have piece : slice block readFrom d = some (rest.take d) := by
        rw [slice,if_pos (by omega),parts,List.take_append_of_le_length (by omega)]
      have size : (rest.take d).length = d := by
        rw [List.length_take]
        omega
      obtain ⟨first,put_first,take_first,drop_first,length_first⟩ := put_spec block front.length (rest.take d)
        (by rw [size]; omega)
      rw [size,written] at take_first
      obtain ⟨second,put_second,take_second,drop_second,length_second⟩ := put_spec first (front.length + d) replacement
        (by omega)
      rw [take_first] at take_second
      have front_length : (front ++ rest.take d ++ replacement).length = front.length + d + replacement.length := by
        simp only [List.length_append,size]
      have next := ih (front ++ rest.take d ++ replacement) (rest.drop (d + pattern.length)) second
        (readFrom + d + pattern.length) (len + replacement.length - pattern.length) (by rw [front_length]; exact take_second)
        (by
          simp only [List.mem_append,not_or]
          exact ⟨⟨free,fun member => holds.free (List.mem_of_mem_take member)⟩,of_replace.free⟩)
        (by
          rw [drop_second _ (by omega),drop_first _ (by rw [size]; omega),Nat.add_assoc]
          exact holds.behind (d + pattern.length) reach)
        (by omega) (by omega) (by rw [front_length,List.length_drop]; omega) (by omega) (by rw [List.length_drop]; omega)
      rw [front_length] at next
      obtain ⟨after,looped,ends,same⟩ := next
      have sum := addDiff_eq len (len + replacement.length - pattern.length) (replacement.length - pattern.length)
        (by omega) (by omega)
      rw [(replaceFrom_some some_ rest d place).1,← List.append_assoc,← List.append_assoc]
      refine ⟨after,?_,ends,by omega⟩
      simp only [Str.replaceShorter,read,owned,shown,found,place,Option.map_some,Option.bind_eq_bind,Option.bind_some,
        Nat.add_sub_cancel_left,piece,put_first,of_replace.chars,put_second,sum,of_find.len,of_replace.len,looped]

include of_find some_ in
theorem grownSize_spec (diff : Nat) (block : List UInt8) (fuel : Nat) (rest : List UInt8) (readFrom size : Nat)
    (holds : Holds (block.drop readFrom) rest) (enough : rest.length < fuel) (small : size < 4294967296) :
    Str.grownSize find diff block fuel readFrom size =
      some ((size + countFrom pattern 0 rest * diff) % 4294967296) := by
  induction fuel generalizing rest readFrom size with
  | zero => omega
  | succ fuel ih =>
    obtain ⟨bytes,owned,shown⟩ := Option.bind_eq_some_iff.mp (of_find.pattern some_)
    have found := strstr_spec block rest pattern readFrom holds
    cases place : search pattern rest with
    | none =>
      rw [(@replaceFrom_none _ _ _ [] rest place).2,Nat.zero_mul,Nat.mod_eq_of_lt (by exact small)]
      simp [Str.grownSize,owned,shown,found,place]
    | some d =>
      obtain ⟨long,reach⟩ := occurs_within some_ (search_some rest d place).1
      have sum : Str.addDiff size diff = (size + diff) % 4294967296 := by
        simp only [Str.addDiff]
        omega
      have next := ih (rest.drop (d + pattern.length)) (readFrom + d + pattern.length) ((size + diff) % 4294967296)
        (by
          rw [Nat.add_assoc]
          exact holds.behind (d + pattern.length) reach)
        (by rw [List.length_drop]; omega) (Nat.mod_lt _ (by omega))
      rw [(@replaceFrom_some _ _ _ [] some_ rest d place).2,Nat.add_mul,Nat.one_mul]
      simp only [Str.grownSize,owned,shown,found,place,Option.map_some,Option.bind_eq_bind,Option.bind_some,of_find.len,
        sum]
      rw [next,Nat.mod_add_mod]
      congr 2
      omega

/-- The last place in front of `bound` where the pattern occurs. -/
def LastBefore (pattern word : List UInt8) (bound : Nat) : Option Nat → Prop
  | none => ∀ e, e < bound → ¬ pattern <+: word.drop e
  | some q => q < bound ∧ pattern <+: word.drop q ∧ ∀ e, q < e → e < bound → ¬ pattern <+: word.drop e

theorem LastBefore.extend (pattern word : List UInt8) (low high : Nat) (found : Option Nat)
    (last : LastBefore pattern word low found) (higher : low ≤ high)
    (quiet : ∀ e, low ≤ e → e < high → ¬ pattern <+: word.drop e) : LastBefore pattern word high found := by
  cases found with
  | none =>
    intro e below
    by_cases old : e < low
    · exact last e old
    · exact quiet e (by omega) below
  | some q =>
    obtain ⟨inside,occurs,above⟩ := last
    refine ⟨by omega,occurs,?_⟩
    intro e after below
    by_cases old : e < low
    · exact above e after old
    · exact quiet e (by omega) below

theorem lastIndexLoop_spec (block word pattern : List UInt8) (fromIndex : Nat) (holds : Holds block word)
    (inside : fromIndex < word.length) (fuel p : Nat) (found : Option Nat) (positive : 0 < fuel) (enough : fromIndex + 1 < p + fuel)
    (last : LastBefore pattern word (min p (fromIndex + 1)) found) :
    ∃ result, Str.lastIndexLoop block pattern fromIndex fuel p found = some result ∧
      LastBefore pattern word (fromIndex + 1) result := by
  induction fuel generalizing p found with
  | zero => omega
  | succ fuel ih =>
    by_cases more : p ≤ fromIndex
    · rw [Nat.min_eq_left (by omega)] at last
      have read := strstr_spec block (word.drop p) pattern p (holds.drop_le p (by omega))
      cases place : search pattern (word.drop p) with
      | none =>
        refine ⟨found,by simp [Str.lastIndexLoop,more,read,place],last.extend _ _ p _ _ (by omega) ?_⟩
        intro e low _
        have missing := search_none (word.drop p) place (e - p)
        rwa [List.drop_drop,Nat.add_sub_cancel' low] at missing
      | some d =>
        obtain ⟨occurs,first⟩ := search_some (word.drop p) d place
        rw [List.drop_drop] at occurs
        have between : ∀ e, p ≤ e → e < p + d → ¬ pattern <+: word.drop e := by
          intro e low below
          have missing := first (e - p) (by omega)
          rwa [List.drop_drop,Nat.add_sub_cancel' low] at missing
        have step : LastBefore pattern word (min (p + d + 1) (fromIndex + 1))
            (if p + d ≤ fromIndex then some (p + d) else found) := by
          split
          · exact ⟨by omega,occurs,fun e above below => by omega⟩
          · exact last.extend _ _ p _ _ (by omega) (fun e low below => between e low (by omega))
        obtain ⟨result,looped,ends⟩ := ih (p + d + 1) _ (by omega) (by omega) step
        exact ⟨result,by simp [Str.lastIndexLoop,more,read,place,looped],ends⟩
    · rw [Nat.min_eq_right (by omega)] at last
      exact ⟨found,by simp [Str.lastIndexLoop,more],last⟩

include of_find some_ in
theorem lastIndexOf_spec (s : Str) (word : List UInt8) (bound : Nat) (represents : Represents s word)
    (inside : bound < word.length) :
    ∃ result, s.lastIndexOf find bound = some result ∧ LastBefore pattern word (bound + 1) result := by
  obtain ⟨bytes,owned,shown⟩ := Option.bind_eq_some_iff.mp (of_find.pattern some_)
  obtain ⟨len,block,mine,holds,_⟩ := represents
  have long := List.length_pos_of_ne_nil some_
  by_cases short : word.length < pattern.length
  · refine ⟨none,by simp [Str.lastIndexOf,len,of_find.len,short],?_⟩
    intro e _ occurs
    have within := (occurs_within some_ occurs).2
    omega
  · obtain ⟨result,looped,last⟩ := lastIndexLoop_spec block word pattern bound holds inside (bound + 2) 0 none
      (by omega) (by omega) (fun e below => by omega)
    refine ⟨result,?_,last⟩
    have enters : ¬ (find.len = 0 ∨ s.len = 0 ∨ s.len < find.len) := by
      rw [len,of_find.len]
      omega
    have own : s.bytes = some block := by simp [Str.bytes,mine]
    have below : ¬ s.len ≤ bound := by omega
    simp only [Str.lastIndexOf]
    rw [if_neg enters,if_neg below]
    simp [own,owned,shown,looped]

include of_find of_replace some_ in
theorem replaceAt_spec (s : Str) (word : List UInt8) (index : Nat) (represents : Represents s word)
    (longer : pattern.length < replacement.length) (occurs : pattern <+: word.drop index) :
    if word.length + (replacement.length - pattern.length) ≤ s.capacity then
      ∃ after, Str.replaceAt find replace (replacement.length - pattern.length) s index = some after ∧
        Represents after (word.take index ++ replacement ++ word.drop (index + pattern.length)) ∧
        after.capacity = s.capacity
    else Str.replaceAt find replace (replacement.length - pattern.length) s index = none := by
  obtain ⟨len,block,mine,holds,capacity,small⟩ := represents
  obtain ⟨long,reach⟩ := occurs_within some_ occurs
  have own : s.bytes = some block := by simp [Str.bytes,mine]
  have behind := holds.length_lt
  have bounded : replacement.length + 1 < 2147483648 := of_replace.short
  rw [objectLimit] at small
  have room : ((replacement.length : Int) - pattern.length).toNat = replacement.length - pattern.length := by omega
  have sum := addDiff_eq s.len (word.length + (replacement.length - pattern.length))
    ((replacement.length : Int) - pattern.length) (by omega) (by omega)
  have piece : slice block (index + pattern.length) (s.len - (index + pattern.length)) =
      some (word.drop (index + pattern.length)) := by
    obtain ⟨rest,rfl⟩ := holds.parts
    rw [slice,if_pos (by omega),List.drop_append_of_le_length (by omega),List.take_left']
    rw [List.length_drop,len]
  have start : index + pattern.length + (replacement.length - pattern.length) = index + replacement.length := by omega
  have unfolded : Str.replaceAt find replace (replacement.length - pattern.length) s index =
      (put block (index + replacement.length) (word.drop (index + pattern.length))).bind fun block =>
        (put block (word.length + (replacement.length - pattern.length)) [0]).bind fun block =>
          (put block index replacement).bind fun block => some { s with
            buffer := .block block, len := word.length + (replacement.length - pattern.length)} := by
    simp only [Str.replaceAt,own,of_find.len,room,sum,piece,of_replace.chars,start,Option.bind_eq_bind,Option.bind_some]
    rfl
  rw [unfolded]
  split
  · rename_i fits
    obtain ⟨moved,ended,after,first,second,third,ends,same⟩ := open_up block word replacement index pattern.length holds
      (by omega) longer of_replace.free (by omega)
    refine ⟨{s with buffer := .block after, len := word.length + (replacement.length - pattern.length)},?_,
      ⟨?_,after,rfl,ends,same.trans capacity,by rw [same]; exact small⟩,rfl⟩
    · rw [first,Option.bind_some,second,Option.bind_some,third,Option.bind_some]
    · simp only [List.length_append,List.length_take,List.length_drop]
      omega
  · rename_i full
    cases moved : put block (index + replacement.length) (word.drop (index + pattern.length)) with
    | none => rfl
    | some after =>
      have same := put_length _ _ _ moved
      rw [Option.bind_some,put,if_neg (by rw [List.length_singleton]; omega)]
      rfl

include of_find of_replace some_ in
/-- The loop sweeps the text from the right, as long as its block has the room. -/
theorem replaceLonger_spec (longer : pattern.length < replacement.length) (content : List UInt8) (fuel bound : Nat)
    (s : Str) (enough : bound < fuel) (within : bound ≤ content.length)
    (represents : Represents s (content.take bound ++ sweep pattern replacement (content.drop bound))) :
    (∀ after, Str.replaceLonger find replace (replacement.length - pattern.length) fuel bound s = some after →
      Represents after (sweep pattern replacement content)) ∧
    ((sweep pattern replacement content).length ≤ s.capacity →
      ∃ after, Str.replaceLonger find replace (replacement.length - pattern.length) fuel bound s = some after) := by
  induction fuel generalizing bound s with
  | zero => omega
  | succ fuel ih =>
    by_cases done : bound = 0
    · subst done
      simp only [List.take_zero,List.drop_zero,List.nil_append] at represents
      constructor
      · intro after looped
        simp only [Str.replaceLonger,if_true] at looped
        cases looped
        exact represents
      · intro _
        exact ⟨s,by simp [Str.replaceLonger]⟩
    · have front : (content.take bound).length = bound := by
        rw [List.length_take]
        omega
      obtain ⟨result,searched,last⟩ := lastIndexOf_spec find pattern of_find some_ s _ (bound - 1) represents
        (by rw [List.length_append]; omega)
      rw [show bound - 1 + 1 = bound by omega] at last
      have parted := List.take_append_drop bound content
      cases result with
      | none =>
        have swept : sweep pattern replacement content =
            content.take bound ++ sweep pattern replacement (content.drop bound) := by
          nth_rewrite 1 [← parted]
          apply sweep_quiet
          intro e below
          rw [← List.drop_append_of_le_length (by omega)]
          exact last e (by omega)
        rw [swept]
        constructor
        · intro after looped
          simp only [Str.replaceLonger,done,if_false,searched,Option.bind_eq_bind,Option.bind_some] at looped
          cases looped
          exact represents
        · intro _
          exact ⟨s,by simp [Str.replaceLonger,done,searched]⟩
      | some q =>
        obtain ⟨below,occurs,above⟩ := last
        have swept : sweep pattern replacement (content.drop q) = replacement ++
            (content.take bound ++ sweep pattern replacement (content.drop bound)).drop (q + pattern.length) := by
          have window : content.drop q = (content.take bound).drop q ++ content.drop bound := by
            rw [← List.drop_append_of_le_length (by omega),parted]
          have shown : ∀ e, e ≤ bound → (content.take bound ++ sweep pattern replacement (content.drop bound)).drop e =
              (content.take bound).drop e ++ sweep pattern replacement (content.drop bound) :=
            fun e low => List.drop_append_of_le_length (by omega)
          have hit := @sweep_hit _ _ pattern replacement ((content.take bound).drop q) (content.drop bound) 0
            (by rw [List.length_drop]; omega) (by rw [List.drop_zero,← shown q (by omega)]; exact occurs) (by
              intro e positive inside
              rw [List.length_drop] at inside
              rw [List.drop_drop,← shown (q + e) (by omega)]
              exact above (q + e) (by omega) (by omega))
          rw [List.drop_zero,← window,← shown q (by omega),List.drop_drop] at hit
          exact hit
        have front' := sweep_length longer (content.take q) (content.drop q)
        rw [List.take_append_drop,swept] at front'
        have taken : (content.take bound ++ sweep pattern replacement (content.drop bound)).take q = content.take q := by
          rw [List.take_append_of_le_length (by omega),List.take_take,Nat.min_eq_left (by omega)]
        have step := replaceAt_spec find replace pattern replacement of_find of_replace some_ s _ q represents longer occurs
        rw [taken,List.append_assoc,← swept] at step
        split at step
        · obtain ⟨t,replaced,represents',capacity⟩ := step
          have next := ih q t (by omega) (by omega) represents'
          rw [capacity] at next
          have unfolded : Str.replaceLonger find replace (replacement.length - pattern.length) (fuel + 1) bound s =
              Str.replaceLonger find replace (replacement.length - pattern.length) fuel q t := by
            simp [Str.replaceLonger,done,searched,replaced]
          rw [unfolded]
          exact next
        · rename_i full
          constructor
          · intro after looped
            simp [Str.replaceLonger,done,searched,step] at looped
          · intro room
            obtain ⟨long,reach⟩ := occurs_within some_ occurs
            simp only [List.length_append,List.length_drop,List.length_take] at full front' front
            omega

end Loops

theorem Denotes.unique {s : Str} {first second : List UInt8} (one : Denotes s first) (other : Denotes s second) :
    first = second := by
  cases one with
  | null same =>
    have length := other.len
    rw [same] at length
    exact (List.eq_nil_of_length_eq_zero length.symm).symm
  | block _ represents =>
    obtain ⟨len,bytes,owned,holds,_⟩ := represents
    cases other with
    | null same =>
      rw [same] at len
      exact List.eq_nil_of_length_eq_zero len.symm
    | block _ represents' =>
      obtain ⟨_,bytes',owned',holds',_⟩ := represents'
      rw [owned] at owned'
      cases owned'
      exact Option.some.inj (holds.text.symm.trans holds'.text)

/-- The size that the counting pass asks for. -/
def asked (content pattern replacement : List UInt8) : Nat :=
  (content.length + countFrom pattern 0 content * (replacement.length - pattern.length)) % 4294967296

theorem changeBuffer_granted (s after : Str) (content : List UInt8) (size : Nat) (answer : Alloc)
    (represents : Represents s content) (some_ : content ≠ []) (small : size < 4294967296) (larger : s.capacity < size)
    (granted : s.changeBuffer size answer = some (after,true)) :
    Represents after content ∧ after.capacity = size := by
  have longer : s.len ≤ size := by
    obtain ⟨len,bytes,owned,holds,capacity,_⟩ := represents
    have := holds.length_lt
    omega
  have bound : size < 4294967295 := by
    by_contra last
    obtain ⟨len,bytes,owned,_⟩ := represents
    have wraps : (size + 1) % 4294967296 = 0 := by omega
    simp [Str.changeBuffer,owned,realloc,wraps] at granted
  rcases changeBuffer_spec s content size answer (.block _ represents) bound longer with
    refused | ⟨block,done,length,fits,empty | holds⟩
  · simp [refused] at granted
  · contradiction
  · rw [done] at granted
    cases granted
    exact ⟨⟨represents.len,block,rfl,holds,length,fits⟩,rfl⟩

section Whole

variable (s find replace : Str) (content pattern replacement : List UInt8) (answer : Alloc)
  (represents : Represents s content) (of_find : Denotes find pattern) (of_replace : Denotes replace replacement)
  (nonempty : content ≠ []) (some_ : pattern ≠ [])

include of_find of_replace in
theorem diff_eq : Int.bmod ((replace.len : Int) - find.len) 4294967296 = replacement.length - pattern.length := by
  have first := of_find.short
  have second := of_replace.short
  rw [objectLimit] at first second
  rw [of_find.len,of_replace.len]
  exact Int.bmod_eq_of_le (by omega) (by omega)

include represents of_find nonempty some_ in
theorem enters : ¬ (s.len = 0 ∨ find.len = 0) := by
  rw [represents.len,of_find.len]
  simp [nonempty,some_]

include represents of_find of_replace nonempty some_ in
theorem replace_same (equal : replacement.length = pattern.length) :
    ∃ after, s.replace find replace answer = some after ∧ Denotes after (replaceFrom pattern replacement 0 content) := by
  have goes_on := enters s find content pattern represents of_find nonempty some_
  have diff := diff_eq find replace pattern replacement of_find of_replace
  obtain ⟨len,block,owned,holds,capacity,small⟩ := represents
  obtain ⟨after,looped,ends,same⟩ := replaceSame_spec find replace pattern replacement of_find of_replace some_ equal
    (s.len + 1) [] content block holds (by omega)
  rw [List.length_nil] at looped
  have length := @replaceFrom_length _ _ pattern replacement some_ content
  have own : s.bytes = some block := by simp [Str.bytes,owned]
  refine ⟨{s with buffer := .block after},?_,.block _ ⟨?_,after,rfl,ends,same.trans capacity,by omega⟩⟩
  · simp only [Str.replace]
    rw [if_neg goes_on,diff,own,Option.bind_eq_bind,Option.bind_some,if_pos (by omega),looped]
    rfl
  · rw [equal] at length
    simp only
    omega

include represents of_find of_replace nonempty some_ in
theorem replace_shorter (shorter : replacement.length < pattern.length) :
    ∃ after, s.replace find replace answer = some after ∧ Denotes after (replaceFrom pattern replacement 0 content) := by
  have goes_on := enters s find content pattern represents of_find nonempty some_
  have diff := diff_eq find replace pattern replacement of_find of_replace
  obtain ⟨len,block,owned,holds,capacity,small⟩ := represents
  have behind := holds.length_lt
  rw [objectLimit] at small
  obtain ⟨after,looped,ends,same⟩ := replaceShorter_spec find replace pattern replacement of_find of_replace some_ shorter
    (s.len + 1) [] content block 0 s.capacity s.len rfl (by simp) holds (Nat.le_refl _) (by omega) (by simpa using len)
    (by omega) (by omega)
  have whole : (⟨.block block,s.capacity,s.len⟩ : Str) = s := by rw [← owned]
  rw [List.length_nil,whole] at looped
  have own : s.bytes = some block := by simp [Str.bytes,owned]
  refine ⟨⟨.block after,s.capacity,(replaceFrom pattern replacement 0 content).length⟩,?_,
    .block _ ⟨rfl,after,rfl,ends,same.trans capacity,by rw [objectLimit]; omega⟩⟩
  simp only [Str.replace]
  rw [if_neg goes_on,diff,own,Option.bind_eq_bind,Option.bind_some,if_neg (by omega),if_pos (by omega)]
  exact looped

include represents of_find of_replace nonempty some_ in
/-- For a longer replacement the result is measured first, and only one that grows needs memory. -/
theorem replace_measured (longer : pattern.length < replacement.length) : s.replace find replace answer =
    if asked content pattern replacement = s.len then some s
    else if s.capacity < asked content pattern replacement then
      (s.changeBuffer (asked content pattern replacement) answer).bind fun (s,done) =>
        if done then Str.replaceLonger find replace (replacement.length - pattern.length) (s.len + 1) s.len s else some s
    else Str.replaceLonger find replace (replacement.length - pattern.length) (s.len + 1) s.len s := by
  have goes_on := enters s find content pattern represents of_find nonempty some_
  have diff := diff_eq find replace pattern replacement of_find of_replace
  obtain ⟨len,block,owned,holds,capacity,small⟩ := represents
  have behind := holds.length_lt
  rw [objectLimit] at small
  have own : s.bytes = some block := by simp [Str.bytes,owned]
  have counted := grownSize_spec find pattern of_find some_ (replacement.length - pattern.length) block (s.len + 1) content 0
    s.len holds (by omega) (by omega)
  have measured : find.grownSize (replacement.length - pattern.length) block (s.len + 1) 0 s.len =
      some (asked content pattern replacement) := by
    rw [show ((replacement.length : Int) - pattern.length) = ((replacement.length - pattern.length : Nat) : Int) by omega,
      counted,asked,len]
  simp only [Str.replace]
  rw [if_neg goes_on,diff,own,Option.bind_eq_bind,Option.bind_some,if_neg (by omega),if_neg (by omega),measured]
  rfl

include represents of_find of_replace nonempty some_ in
theorem replace_longer (longer : pattern.length < replacement.length)
    (granted : s.capacity < asked content pattern replacement →
      ∃ after, s.changeBuffer (asked content pattern replacement) answer = some (after,true)) :
    (∃ after, s.replace find replace answer = some after ∧ Denotes after (replaceFrom pattern replacement 0 content)) ↔
      content.length + countFrom pattern 0 content * (replacement.length - pattern.length) < 4294967296 ∧
        Clean pattern replacement 0 content := by
  have length := @replaceFrom_length _ _ pattern replacement some_ content
  have grown : countFrom pattern 0 content * replacement.length =
      countFrom pattern 0 content * pattern.length + countFrom pattern 0 content * (replacement.length - pattern.length) := by
    rw [← Nat.mul_add,Nat.add_sub_cancel' (by omega)]
  have total : (replaceFrom pattern replacement 0 content).length =
      content.length + countFrom pattern 0 content * (replacement.length - pattern.length) := by omega
  rw [← sweep_iff_clean some_ longer,← total]
  obtain ⟨len,block,owned,holds,capacity,small⟩ := id represents
  have behind := holds.length_lt
  rw [objectLimit] at small
  rw [replace_measured s find replace content pattern replacement answer represents of_find of_replace nonempty some_ longer]
  by_cases still : asked content pattern replacement = s.len
  · rw [if_pos still]
    have never : (content.length + countFrom pattern 0 content * (replacement.length - pattern.length) = content.length) →
        search pattern content = none := by
      intro same
      apply search_of_count some_
      have nothing : countFrom pattern 0 content * (replacement.length - pattern.length) = 0 := by omega
      rcases Nat.mul_eq_zero.mp nothing with never | equal
      · exact never
      · omega
    constructor
    · rintro ⟨after,done,denotes⟩
      cases done
      have kept := (Denotes.block _ represents).unique denotes
      have missing := never (by rw [← total,← kept])
      exact ⟨by rw [← kept]; omega,by rw [sweep_none content missing,← kept]⟩
    · rintro ⟨unwrapped,_⟩
      rw [asked,← total,Nat.mod_eq_of_lt unwrapped,total,len] at still
      refine ⟨s,rfl,?_⟩
      rw [(replaceFrom_none content (never still)).1]
      exact .block _ represents
  · rw [if_neg still]
    have enlarged : ∃ t, Represents t content ∧ asked content pattern replacement ≤ t.capacity ∧
        (if s.capacity < asked content pattern replacement then
          (s.changeBuffer (asked content pattern replacement) answer).bind fun (s,done) =>
            if done then Str.replaceLonger find replace (replacement.length - pattern.length) (s.len + 1) s.len s else some s
        else Str.replaceLonger find replace (replacement.length - pattern.length) (s.len + 1) s.len s) =
          Str.replaceLonger find replace (replacement.length - pattern.length) (t.len + 1) t.len t := by
      by_cases larger : s.capacity < asked content pattern replacement
      · obtain ⟨t,done⟩ := granted larger
        obtain ⟨represents',capacity'⟩ := changeBuffer_granted s t content
          (asked content pattern replacement) answer represents nonempty
          (Nat.mod_lt _ (by omega)) larger done
        exact ⟨t,represents',by omega,by rw [if_pos larger,done]; rfl⟩
      · exact ⟨s,represents,by omega,by rw [if_neg larger]⟩
    obtain ⟨t,represents',room,enters'⟩ := enlarged
    have len' := represents'.len
    obtain ⟨right_,runs⟩ := replaceLonger_spec find replace pattern replacement of_find of_replace some_ longer content
      (t.len + 1) t.len t (by omega) (by omega)
      (by rw [len',List.take_length,List.drop_length,sweep,List.append_nil]; exact represents')
    rw [enters']
    constructor
    · rintro ⟨after,looped,denotes⟩
      have short := denotes.short
      rw [objectLimit] at short
      exact ⟨by omega,(Denotes.block _ (right_ after looped)).unique denotes⟩
    · rintro ⟨unwrapped,same⟩
      rw [asked,← total,Nat.mod_eq_of_lt unwrapped] at room
      obtain ⟨after,looped⟩ := runs (by rw [same]; exact room)
      refine ⟨after,looped,.block _ ?_⟩
      rw [← same]
      exact right_ after looped

include of_find of_replace some_ in
/-- With its memory granted, `replace` replaces from the left exactly when the replacement
is not longer, or when the size of the result does not wrap and no other occurrence starts
where an occurrence on its left meets a replacement on its right. -/
theorem replace_iff_clean (denotes : Denotes s content)
    (granted : s.capacity < asked content pattern replacement →
      ∃ after, s.changeBuffer (asked content pattern replacement) answer = some (after,true)) :
    (∃ after, s.replace find replace answer = some after ∧ Denotes after (replaceFrom pattern replacement 0 content)) ↔
      replacement.length ≤ pattern.length ∨
        (content.length + countFrom pattern 0 content * (replacement.length - pattern.length) < 4294967296 ∧
          Clean pattern replacement 0 content) := by
  by_cases nonempty : content = []
  · subst nonempty
    have len := denotes.len
    constructor
    · intro _
      exact Or.inr ⟨by simp [countFrom],trivial⟩
    · intro _
      exact ⟨s,by simp [Str.replace,len],denotes⟩
  · cases denotes with
    | null same => contradiction
    | block _ represents =>
      rcases Nat.lt_trichotomy replacement.length pattern.length with shorter | equal | longer
      · exact iff_of_true (replace_shorter s find replace content pattern replacement answer represents of_find of_replace
          nonempty some_ shorter) (Or.inl (by omega))
      · exact iff_of_true (replace_same s find replace content pattern replacement answer represents of_find of_replace
          nonempty some_ equal) (Or.inl (by omega))
      · rw [replace_longer s find replace content pattern replacement answer represents of_find of_replace nonempty some_
          longer granted]
        exact (or_iff_right (by omega)).symm

end Whole

/-- A `String` whose block is as large as its text needs. -/
def fitted (chars : List UInt8) : Str := ⟨.block (chars ++ [0]),chars.length,chars.length⟩

theorem fitted_denotes (chars : List UInt8) (free : 0 ∉ chars) (short : chars.length + 1 < objectLimit) :
    Denotes (fitted chars) chars :=
  .block _ ⟨rfl,_,rfl,⟨free,[],rfl⟩,by simp [fitted],by simpa using short⟩

/-- "ab" in "abab" becomes "cab" twice. -/
theorem replace_iff_clean_touching :
    ∃ after, (fitted [97,98,97,98]).replace (fitted [97,98]) (fitted [99,97,98]) (.grant fun _ => 0) = some after ∧
      Denotes after [99,97,98,99,97,98] :=
  (replace_iff_clean (fitted [97,98,97,98]) (fitted [97,98]) (fitted [99,97,98]) [97,98,97,98] [97,98] [99,97,98]
    (.grant fun _ => 0) (fitted_denotes [97,98] (by decide) (by decide))
    (fitted_denotes [99,97,98] (by decide) (by decide)) (by decide) (fitted_denotes [97,98,97,98] (by decide) (by decide))
    (fun _ => ⟨_,rfl⟩)).mpr (Or.inr ⟨by decide,by decide⟩)

/-- "ab" in "aab" with "bbb": after the first replacement "abbb" fills its block and has an
occurrence at its start, for which there is no room. -/
theorem replace_stray :
    Denotes (fitted [97,97,98]) [97,97,98] ∧ Denotes (fitted [97,98]) [97,98] ∧ Denotes (fitted [98,98,98]) [98,98,98] ∧
      (∃ after, (fitted [97,97,98]).changeBuffer (asked [97,97,98] [97,98] [98,98,98]) (.grant fun _ => 0) =
        some (after,true)) ∧
      ¬ ∃ after, (fitted [97,97,98]).replace (fitted [97,98]) (fitted [98,98,98]) (.grant fun _ => 0) = some after ∧
        Denotes after (replaceFrom [97,98] [98,98,98] 0 [97,97,98]) := by
  have wild : (fitted [97,97,98]).replace (fitted [97,98]) (fitted [98,98,98]) (.grant fun _ => 0) = none := rfl
  refine ⟨fitted_denotes _ (by decide) (by decide),fitted_denotes _ (by decide) (by decide),
    fitted_denotes _ (by decide) (by decide),⟨_,rfl⟩,?_⟩
  rintro ⟨after,done,_⟩
  rw [wild] at done
  contradiction

end OpenPlc.Text
