import OpenPlc.Lib.Run
import OpenPlc.Text.Represents

/-! All the `String` objects of a program under every sequence of their mutators, with
an allocator that may refuse at any point. An access outside of every block makes the
whole program state worthless. -/
namespace OpenPlc.Text.Strings
open CString

structure World where
  strings : List Str
  wild : Bool

/-- A character of a text. -/
structure Character where
  code : UInt8
  some_ : code ≠ 0

/-- C strings stand for characters and numbers too, which are converted to one first. -/
inductive Event
  | construct (cstr : Option CText) (answer : Alloc)
  | constructCopy (j : Nat) (answer : Alloc)
  | constructMove (j : Nat)
  | assign (i j : Nat) (answer : Alloc)
  | assignMove (i j : Nat)
  | assignText (i : Nat) (cstr : Option CText) (answer : Alloc)
  | concat (i j : Nat) (answer : Alloc)
  | concatText (i : Nat) (cstr : Option CText) (answer : Alloc)
  | sum (i j : Nat) (answer : Alloc)
  | sumText (i : Nat) (cstr : Option CText) (answer : Alloc)
  | reserve (i : Nat) (size : UInt32) (answer : Alloc)
  | toLowerCase (i : Nat)
  | toUpperCase (i : Nat)
  | setCharAt (i : Nat) (loc : UInt32) (c : Character)
  | remove (i : Nat) (index count : UInt32)
  | trim (i : Nat)
  | replaceChar (i : Nat) (find replace : Character)
  | destroy (i : Nat)

def start : World := ⟨[],false⟩

def World.add (w : World) (made : Option Str) : World :=
  match made with
  | some s => {w with strings := w.strings ++ [s]}
  | none => {w with wild := true}

def World.put (w : World) (i : Nat) (made : Option Str) : World :=
  match made with
  | some s => {w with strings := w.strings.set i s}
  | none => {w with wild := true}

/-- A moved object and the one it was moved from. -/
def World.putMoved (w : World) (i j : Nat) (made : Option (Str × Str)) : World :=
  match made with
  | some (s,left_) => {w with strings := (w.strings.set i s).set j left_}
  | none => {w with wild := true}

/-- Objects are named by their position; an argument is never the object itself, except
for the assignments, which test for it. -/
def step (w : World) : Event → Option World
  | .construct cstr answer => some (w.add (Str.init.assignText cstr answer))
  | .constructCopy j answer => do
    let rhs ← w.strings[j]?
    return w.add (Str.init.assign rhs answer)
  | .constructMove j => do
    let rhs ← w.strings[j]?
    match Str.init.move rhs with
    | some (s,left_) => return {w with strings := w.strings.set j left_ ++ [s]}
    | none => return {w with wild := true}
  | .assign i j answer => do
    let s ← w.strings[i]?
    let rhs ← w.strings[j]?
    return if i = j then w else w.put i (s.assign rhs answer)
  | .assignMove i j => do
    let s ← w.strings[i]?
    let rhs ← w.strings[j]?
    return if i = j then w else w.putMoved i j (s.move rhs)
  | .assignText i cstr answer => do
    let s ← w.strings[i]?
    return w.put i (s.assignText cstr answer)
  | .concat i j answer => do
    let s ← w.strings[i]?
    let rhs ← w.strings[j]?
    if i = j then none else return w.put i ((s.concat rhs answer).map Prod.fst)
  | .concatText i cstr answer => do
    let s ← w.strings[i]?
    return w.put i ((s.concatText cstr answer).map Prod.fst)
  | .sum i j answer => do
    let s ← w.strings[i]?
    let rhs ← w.strings[j]?
    if i = j then none else return w.put i (Str.orInvalid (s.concat rhs answer))
  | .sumText i cstr answer => do
    let s ← w.strings[i]?
    return w.put i (Str.orInvalid (s.concatText cstr answer))
  | .reserve i size answer => do
    let s ← w.strings[i]?
    return w.put i ((s.reserve size.toNat answer).map Prod.fst)
  | .toLowerCase i => do
    let s ← w.strings[i]?
    return w.put i s.toLowerCase
  | .toUpperCase i => do
    let s ← w.strings[i]?
    return w.put i s.toUpperCase
  | .setCharAt i loc c => do
    let s ← w.strings[i]?
    return w.put i (s.setCharAt loc.toNat c.code)
  | .remove i index count => do
    let s ← w.strings[i]?
    return w.put i (s.remove index.toNat count.toNat)
  | .trim i => do
    let s ← w.strings[i]?
    return w.put i s.trim
  | .replaceChar i find replace => do
    let s ← w.strings[i]?
    return w.put i (s.replaceChar find.code replace.code)
  | .destroy i => do
    let s ← w.strings[i]?
    match s.release with
    | some () => return {w with strings := w.strings.eraseIdx i}
    | none => return {w with wild := true}

/-- What a live object promises its users. -/
structure WellFormed (s : Str) : Prop where
  invalid : s.buffer = .null → s.capacity = 0 ∧ s.len = 0
  valid : s.buffer ≠ .null → ∃ bytes, s.buffer = .block bytes ∧ s.len ≤ s.capacity ∧ bytes[s.len]? = some 0 ∧
    (∀ i, i < s.len → bytes[i]? ≠ some 0) ∧ ∃ content, text bytes = some content ∧ content.length = s.len

def Valid (w : World) : Prop := w.wild = false ∧ ∀ s ∈ w.strings, WellFormed s

def Inv (w : World) : Prop := w.wild = false ∧ ∀ s ∈ w.strings, Sound s

/-- No move copies a text out of an object that keeps its buffer, and nobody reserves
the size whose block would have no byte. -/
def Allowed (w : World) : Event → Prop
  | .assignMove i j => ∀ s rhs, w.strings[i]? = some s → w.strings[j]? = some rhs → i ≠ j → Steals s rhs
  | .reserve i size answer => size.toNat = 4294967295 →
      ∀ s, w.strings[i]? = some s → s.buffer = .null ∧ answer = .refuse
  | _ => True

theorem sound_wellFormed (s : Str) (sound : Sound s) : WellFormed s := by
  obtain ⟨content,denotes⟩ := sound
  cases denotes with
  | null same => exact ⟨fun _ => by rw [same]; exact ⟨rfl,rfl⟩,fun some_ => absurd (by rw [same]; rfl) some_⟩
  | block _ represents =>
    obtain ⟨len,bytes,owned,holds,length,_⟩ := represents
    have inside := holds.length_lt
    refine ⟨fun none_ => by simp [owned] at none_,fun _ => ⟨bytes,owned,by omega,?_,?_,content,holds.text,len.symm⟩⟩
    · rw [len]
      exact holds.getElem_length
    · rw [len]
      exact holds.getElem_ne

theorem add_inv (w : World) (made : Option Str) (inv : Inv w) (sound : ∃ s, made = some s ∧ Sound s) :
    Inv (w.add made) := by
  obtain ⟨s,rfl,sound⟩ := sound
  refine ⟨inv.1,?_⟩
  intro other member
  rcases List.mem_append.mp member with before | last
  · exact inv.2 other before
  · exact List.mem_singleton.mp last ▸ sound

theorem put_inv (w : World) (i : Nat) (made : Option Str) (inv : Inv w) (sound : ∃ s, made = some s ∧ Sound s) :
    Inv (w.put i made) := by
  obtain ⟨s,rfl,sound⟩ := sound
  refine ⟨inv.1,?_⟩
  intro other member
  rcases List.mem_or_eq_of_mem_set member with before | rfl
  · exact inv.2 other before
  · exact sound

theorem reserve_sound (s : Str) (size : UInt32) (answer : Alloc) (sound : Sound s)
    (allowed : size.toNat = 4294967295 → s.buffer = .null ∧ answer = .refuse) :
    ∃ after, (s.reserve size.toNat answer).map Prod.fst = some after ∧ Sound after := by
  obtain ⟨content,denotes⟩ := sound
  by_cases whole : size.toNat = 4294967295
  · obtain ⟨none_,rfl⟩ := allowed whole
    cases denotes with
    | null same =>
      subst same
      exact ⟨Str.init,by simp [Str.reserve,Str.init,Str.changeBuffer,realloc,allocated],init_sound⟩
    | block _ represents =>
      obtain ⟨_,bytes,owned,_⟩ := represents
      rw [owned] at none_
      contradiction
  · have bound := size.toNat_lt
    rcases reserve_spec s content size.toNat answer denotes (by omega) with refused | ⟨after,granted,represents,_⟩
    · exact ⟨s,by rw [refused]; rfl,content,denotes⟩
    · exact ⟨after,by rw [granted]; rfl,represents.sound⟩

theorem edit_inv (w next : World) (i : Nat) (edit : Str → Option Str) (inv : Inv w)
    (keeps : ∀ s content, w.strings[i]? = some s → Denotes s content → ∃ after, edit s = some after ∧ Sound after)
    (taken : (w.strings[i]?.bind fun s => some (w.put i (edit s))) = some next) : Inv next := by
  obtain ⟨s,here,done⟩ := Option.bind_eq_some_iff.mp taken
  cases Option.some.inj done
  obtain ⟨content,denotes⟩ := inv.2 s (List.mem_of_getElem? here)
  exact put_inv w i _ inv (keeps s content here denotes)

/-- The objects of a call with two of them, and what they denote. -/
theorem two_found {w next : World} {i j : Nat} {call : Str → Str → Option World} (inv : Inv w)
    (taken : (w.strings[i]?.bind fun s => w.strings[j]?.bind fun rhs => call s rhs) = some next) :
    ∃ s rhs content source, w.strings[i]? = some s ∧ w.strings[j]? = some rhs ∧ Denotes s content ∧ Denotes rhs source ∧
      call s rhs = some next := by
  obtain ⟨s,here,rest⟩ := Option.bind_eq_some_iff.mp taken
  obtain ⟨rhs,there,done⟩ := Option.bind_eq_some_iff.mp rest
  obtain ⟨content,denotes⟩ := inv.2 s (List.mem_of_getElem? here)
  obtain ⟨source,from_⟩ := inv.2 rhs (List.mem_of_getElem? there)
  exact ⟨s,rhs,content,source,here,there,denotes,from_,done⟩

theorem step_inv (w : World) (event : Event) (next : World) (inv : Inv w) (allowed : Allowed w event)
    (taken : step w event = some next) : Inv next := by
  have at_ {i : Nat} {s : Str} (here : w.strings[i]? = some s) : Sound s := inv.2 s (List.mem_of_getElem? here)
  cases event with
  | construct cstr answer =>
    cases Option.some.inj taken
    exact add_inv w _ inv (assignText_spec _ [] cstr answer (.null rfl))
  | constructCopy j answer =>
    obtain ⟨rhs,there,done⟩ := Option.bind_eq_some_iff.mp taken
    cases Option.some.inj done
    obtain ⟨source,from_⟩ := at_ there
    exact add_inv w _ inv (assign_spec _ rhs [] source answer (.null rfl) from_)
  | constructMove j =>
    obtain ⟨rhs,there,done⟩ := Option.bind_eq_some_iff.mp taken
    obtain ⟨source,from_⟩ := at_ there
    obtain ⟨after,left_,moved,sound,sound_left⟩ := move_spec Str.init rhs [] source (.null rfl) from_ (Or.inl rfl)
    simp only [moved] at done
    cases Option.some.inj done
    have left_inv := put_inv w j (some left_) inv ⟨left_,rfl,sound_left⟩
    exact add_inv _ (some after) left_inv ⟨after,rfl,sound⟩
  | assign i j answer =>
    obtain ⟨s,rhs,content,source,here,there,denotes,from_,done⟩ := two_found inv taken
    cases Option.some.inj done
    split
    · exact inv
    · exact put_inv w i _ inv (assign_spec s rhs content source answer denotes from_)
  | assignMove i j =>
    obtain ⟨s,rhs,content,source,here,there,denotes,from_,done⟩ := two_found inv taken
    cases Option.some.inj done
    split
    · exact inv
    · rename_i other
      obtain ⟨after,left_,moved,sound,sound_left⟩ := move_spec s rhs content source denotes from_
        (allowed s rhs here there other)
      rw [moved]
      have moved_inv := put_inv w i (some after) inv ⟨after,rfl,sound⟩
      exact put_inv _ j (some left_) moved_inv ⟨left_,rfl,sound_left⟩
  | assignText i cstr answer =>
    apply edit_inv w next i _ inv _ taken
    intro s content here denotes
    exact assignText_spec s content cstr answer denotes
  | concat i j answer =>
    obtain ⟨s,rhs,content,source,-,-,denotes,from_,done⟩ := two_found inv taken
    split at done
    · contradiction
    · cases Option.some.inj done
      obtain ⟨after,flag,appended,sound⟩ := concat_spec s rhs content source answer denotes from_
      exact put_inv w i _ inv ⟨after,by rw [appended]; rfl,sound⟩
  | concatText i cstr answer =>
    apply edit_inv w next i _ inv _ taken
    intro s content here denotes
    obtain ⟨after,flag,appended,sound⟩ := concatText_spec s content cstr answer denotes
    exact ⟨after,by rw [appended]; rfl,sound⟩
  | sum i j answer =>
    obtain ⟨s,rhs,content,source,-,-,denotes,from_,done⟩ := two_found inv taken
    split at done
    · contradiction
    · cases Option.some.inj done
      obtain ⟨after,flag,appended,sound⟩ := concat_spec s rhs content source answer denotes from_
      rw [appended]
      exact put_inv w i _ inv (orInvalid_spec after flag sound)
  | sumText i cstr answer =>
    apply edit_inv w next i _ inv _ taken
    intro s content here denotes
    obtain ⟨after,flag,appended,sound⟩ := concatText_spec s content cstr answer denotes
    rw [appended]
    exact orInvalid_spec after flag sound
  | reserve i size answer =>
    apply edit_inv w next i _ inv _ taken
    intro s content here denotes
    exact reserve_sound s size answer ⟨content,denotes⟩ fun whole => allowed whole s here
  | toLowerCase i =>
    apply edit_inv w next i _ inv _ taken
    intro s content here denotes
    obtain ⟨after,rewritten,denotes'⟩ := rewrite_spec Str.toLower toLower_ne s content denotes
    exact ⟨after,rewritten,_,denotes'⟩
  | toUpperCase i =>
    apply edit_inv w next i _ inv _ taken
    intro s content here denotes
    obtain ⟨after,rewritten,denotes'⟩ := rewrite_spec Str.toUpper toUpper_ne s content denotes
    exact ⟨after,rewritten,_,denotes'⟩
  | setCharAt i loc c =>
    apply edit_inv w next i _ inv _ taken
    intro s content here denotes
    exact setCharAt_spec s content loc.toNat c.code c.some_ denotes
  | remove i index count =>
    apply edit_inv w next i _ inv _ taken
    intro s content here denotes
    obtain ⟨after,removed,denotes'⟩ := remove_spec s content index.toNat count.toNat denotes
    exact ⟨after,removed,_,denotes'⟩
  | trim i =>
    apply edit_inv w next i _ inv _ taken
    intro s content here denotes
    exact trim_spec s content denotes
  | replaceChar i find replace =>
    apply edit_inv w next i _ inv _ taken
    intro s content here denotes
    obtain ⟨after,rewritten,denotes'⟩ := replaceChar_spec s content find.code replace.code replace.some_ denotes
    exact ⟨after,rewritten,_,denotes'⟩
  | destroy i =>
    obtain ⟨s,here,done⟩ := Option.bind_eq_some_iff.mp taken
    obtain ⟨content,denotes⟩ := at_ here
    simp only [denotes.release] at done
    cases Option.some.inj done
    exact ⟨inv.1,fun object member => inv.2 object (List.mem_of_mem_eraseIdx member)⟩

theorem inv_valid (w : World) (inv : Inv w) : Valid w :=
  ⟨inv.1,fun s member => sound_wellFormed s (inv.2 s member)⟩

/-- Reserving the largest size frees the block under the object, or writes outside of
the block that has no byte. -/
theorem reserve_whole (s : Str) (size : UInt32) (answer : Alloc) (sound : Sound s) (whole : size.toNat = 4294967295)
    (some_ : ¬ (s.buffer = .null ∧ answer = .refuse)) :
    s.reserve size.toNat answer = none ∨
      ∃ after, s.reserve size.toNat answer = some (after,false) ∧ after.buffer = .freed := by
  obtain ⟨content,denotes⟩ := sound
  cases denotes with
  | null same =>
    subst same
    cases answer with
    | refuse => exact absurd ⟨rfl,rfl⟩ some_
    | grant fill =>
      left
      simp [Str.reserve,Str.init,Str.changeBuffer,realloc,allocated,whole,objectLimit,Str.bytes,CString.put]
  | block _ represents =>
    obtain ⟨_,bytes,owned,_,length,small⟩ := represents
    right
    have short : ¬ 4294967295 ≤ s.capacity := by
      simp only [objectLimit] at small
      omega
    exact ⟨{s with buffer := .freed},by simp [Str.reserve,owned,Str.changeBuffer,realloc,whole,short],rfl⟩

theorem step_breaks (w : World) (event : Event) (next : World) (inv : Inv w) (bad : ¬ Allowed w event)
    (taken : step w event = some next) : ¬ Valid next := by
  rintro ⟨tame,sound⟩
  have at_ {i : Nat} {s : Str} (here : w.strings[i]? = some s) : Sound s := inv.2 s (List.mem_of_getElem? here)
  cases event with
  | assignMove i j =>
    simp only [Allowed,not_forall] at bad
    obtain ⟨s,rhs,here,there,other,copies⟩ := bad
    simp only [step,here,there,other,if_false,Option.bind_eq_bind,Option.bind_some] at taken
    cases Option.some.inj taken
    obtain ⟨content,denotes⟩ := at_ here
    obtain ⟨source,from_⟩ := at_ there
    obtain ⟨after,left_,bytes,moved,owned,zero,stale⟩ := move_stale s rhs content source denotes from_ copies
    simp only [moved,World.putMoved] at sound
    have kept : left_ ∈ (w.strings.set i after).set j left_ := by
      apply List.mem_set
      rw [List.length_set]
      exact (List.getElem?_eq_some_iff.mp there).1
    obtain ⟨other_bytes,same,_,ends,_⟩ := (sound left_ kept).valid (by simp [owned])
    rw [owned] at same
    cases same
    rw [zero] at ends
    exact stale ends
  | reserve i size answer =>
    simp only [Allowed,not_forall] at bad
    obtain ⟨whole,s,here,some_⟩ := bad
    simp only [step,here,Option.bind_eq_bind,Option.bind_some] at taken
    cases Option.some.inj taken
    rcases reserve_whole s size answer (at_ here) whole some_ with wild | ⟨after,done,freed⟩
    · simp [wild,World.put] at tame
    · simp only [done,Option.map_some,World.put] at sound
      have kept : after ∈ w.strings.set i after := List.mem_set (List.getElem?_eq_some_iff.mp here).1 _
      obtain ⟨bytes,owned,_⟩ := (sound after kept).valid (by simp [freed])
      rw [freed] at owned
      contradiction
  | _ => exact bad trivial

/-- Every live `String` is well formed throughout exactly the runs in which no move
copies a non-empty text, and none reserves the largest size. -/
theorem valid_iff_allowed (events : List Event) :
    Run.Throughout Valid step start events ↔ Run.Meets Allowed step start events :=
  Run.throughout_iff_meets Valid Inv Allowed inv_valid step_inv step_breaks start events ⟨rfl,by simp [start]⟩

/-- `String a("xyz"), b("ab"); a = std::move(b);` -/
def movedFrom : List Event :=
  [.construct (some ⟨[120,121,122],by decide,by decide⟩) (.grant fun _ => 1),
    .construct (some ⟨[97,98],by decide,by decide⟩) (.grant fun _ => 1),.assignMove 0 1]

/-- Then `b` has length 0 and still the text `ab`. -/
theorem moved_from_stale : ¬ Run.Throughout Valid step start movedFrom := by
  intro holds
  have reached : ∃ w, Run.after step start movedFrom = some w ∧ ∃ b, w.strings[1]? = some b ∧
      b.buffer = .block [97,98,0] ∧ b.len = 0 := ⟨_,rfl,_,rfl,rfl,rfl⟩
  obtain ⟨w,after,b,second,owned,zero⟩ := reached
  have formed := (holds movedFrom w (List.prefix_refl _) after).2 b (List.mem_of_getElem? second)
  obtain ⟨bytes,same,_,ends,_⟩ := formed.valid (by simp [owned])
  rw [owned] at same
  cases same
  simp [zero] at ends

end OpenPlc.Text.Strings
