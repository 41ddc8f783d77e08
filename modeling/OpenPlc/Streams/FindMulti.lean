import OpenPlc.Lib.Overlap
import OpenPlc.Streams.Timed

/-! `Stream::findMulti` and the searches built on it. The matcher keeps no failure
table: after a mismatch it compares the target with itself. -/
namespace OpenPlc.Streams

structure MultiTarget where
  str : List UInt8
  index : Nat

/-- The `do` loop after a mismatch, from the index before its decrement; `continue`
goes to the test of the index. -/
def walkBack (str : List UInt8) (c : UInt8) (origIndex : Nat) : Nat → Nat
  | 0 => 0
  | index + 1 =>
    if str[index]? ≠ some c then walkBack str c origIndex index
    else if index = 0 then index + 1
    else
      let diff := origIndex - index
      if ∀ i < index, str[i]? = str[i + diff]? then index + 1 else walkBack str c origIndex index

/-- The body of the loop over the targets: the new index, and whether the target is complete. -/
def advance (c : UInt8) (t : MultiTarget) : MultiTarget × Bool :=
  if t.str[t.index]? = some c then
    if t.index + 1 = t.str.length then ({t with index := t.index + 1},true)
    else ({t with index := t.index + 1},false)
  else if t.index = 0 then (t,false)
  else ({t with index := walkBack t.str c t.index t.index},false)

/-- The loop over the targets, which ends with the first that is complete. -/
def advanceAll (c : UInt8) : List MultiTarget → List MultiTarget × Option Nat
  | [] => ([],none)
  | t :: rest =>
    if (advance c t).2 then ((advance c t).1 :: rest,some 0)
    else ((advance c t).1 :: (advanceAll c rest).1,(advanceAll c rest).2.map (· + 1))

/-- The reading loop; `none` stands for -1. -/
def findLoop (timeout : UInt32) (targets : List MultiTarget) (ticks : List Tick) : Option Nat × List Tick :=
  match _ : timedRead timeout ticks with
  | (none,rest) => (none,rest)
  | (some c,rest) =>
    match advanceAll c targets with
    | (_,some found) => (some found,rest)
    | (targets,none) => findLoop timeout targets rest
termination_by ticks.length
decreasing_by
  rename_i sees
  rcases timedRead_cases timeout ticks with ⟨value,later,eq,_,_,fewer⟩ | ⟨later,eq,_⟩
  · rw [sees] at eq
    cases eq
    exact fewer
  · rw [sees] at eq
    cases eq

/-- A target without characters matches at once. -/
def findMulti (timeout : UInt32) (targets : List MultiTarget) (ticks : List Tick) : Option Nat × List Tick :=
  match targets.findIdx? fun t => t.str.length = 0 with
  | some empty => (some empty,ticks)
  | none => findLoop timeout targets ticks

def findUntil (timeout : UInt32) (target : List UInt8) (terminator : Option (List UInt8)) (ticks : List Tick) :
    Bool × List Tick :=
  match terminator with
  | none =>
    let found := findMulti timeout [⟨target,0⟩] ticks
    (found.1 = some 0,found.2)
  | some terminator =>
    let found := findMulti timeout [⟨target,0⟩,⟨terminator,0⟩] ticks
    (found.1 = some 0,found.2)

def find (timeout : UInt32) (target : List UInt8) (ticks : List Tick) : Bool × List Tick :=
  findUntil timeout target none ticks

/-- The target with index `i` ends where the text ends. -/
def Ending (targets : List (List UInt8)) (text : List UInt8) (i : Nat) : Prop :=
  ∃ t, targets[i]? = some t ∧ t <:+ text

/-- The first target in list order among those that are complete earliest in the text. -/
structure FoundAt (targets : List (List UInt8)) (text : List UInt8) (found stop : Nat) : Prop where
  within : stop ≤ text.length
  here : Ending targets (text.take stop) found
  first : ∀ j, j < found → ¬ Ending targets (text.take stop) j
  earliest : ∀ e, e < stop → ∀ j, ¬ Ending targets (text.take e) j

/-- What a search owes its caller. -/
def Searched (targets : List (List UInt8)) (text all : List UInt8) (result : Option Nat × List Tick) : Prop :=
  match result.1 with
  | some found => ∃ stop, FoundAt targets text found stop ∧ all = text.take stop ++ bytes result.2
  | none => (∀ t ∈ targets, ¬ t <:+: text) ∧ all = text ++ bytes result.2

open Overlap

/-- The walk back stops at the longest overlap of the text with one more character. -/
theorem walkBack_spec (str past : List UInt8) (c : UInt8) (origIndex index : Nat)
    (before : Longest str past origIndex) (bound : index ≤ origIndex)
    (above : ∀ j, index ≤ j → ¬ Ends str (past ++ [c]) (j + 1)) :
    Longest str (past ++ [c]) (walkBack str c origIndex index) := by
  have inside := before.lt
  induction index with
  | zero =>
    refine ⟨by simp only [walkBack]; omega,ends_zero _ _,?_⟩
    intro j ends
    cases j with
    | zero => exact Nat.zero_le _
    | succ j => exact absurd ends (above j (Nat.zero_le j))
  | succ index ih =>
    have snoc := ends_snoc str past c index (by omega)
    have border : Ends str past index ↔ ∀ i, i < index → str[i]? = str[i + (origIndex - index)]? := by
      rw [ends_border str past origIndex index before.ends (by omega),
        border_iff str origIndex index (by omega) before.ends.1]
    have here (ends : Ends str (past ++ [c]) (index + 1)) : Longest str (past ++ [c]) (index + 1) := by
      refine ⟨by omega,ends,?_⟩
      intro j other
      by_contra longer
      obtain ⟨k,rfl⟩ := Nat.exists_eq_add_of_le (show index + 1 + 1 ≤ j by omega)
      exact above (index + 1 + k) (by omega) (by rw [show index + 1 + k + 1 = index + 1 + 1 + k by omega]; exact other)
    have onward (fails : ¬ Ends str (past ++ [c]) (index + 1)) : ∀ j, index ≤ j → ¬ Ends str (past ++ [c]) (j + 1) := by
      intro j reach
      rcases Nat.eq_or_lt_of_le reach with rfl | further
      · exact fails
      · exact above j further
    simp only [walkBack]
    split
    · rename_i miss
      apply ih (by omega)
      apply onward
      intro ends
      apply miss
      rw [List.getElem?_eq_getElem (by omega),(snoc.mp ends).2]
    · rename_i hit
      have char : str[index] = c := by
        rw [not_not,List.getElem?_eq_getElem (by omega)] at hit
        exact Option.some.inj hit
      split
      · rename_i zero
        subst zero
        exact here (snoc.mpr ⟨ends_zero _ _,char⟩)
      · split
        · rename_i matches_
          exact here (snoc.mpr ⟨border.mpr matches_,char⟩)
        · rename_i differs
          exact ih (by omega) (onward fun ends => differs (border.mp (snoc.mp ends).1))

@[simp] theorem advance_str (c : UInt8) (t : MultiTarget) : (advance c t).1.str = t.str := by
  unfold advance
  split
  · split <;> rfl
  · split <;> rfl

/-- One character keeps the overlap of a target longest, or completes the target. -/
theorem advance_spec (c : UInt8) (t : MultiTarget) (past : List UInt8) (before : Longest t.str past t.index) :
    ((advance c t).2 = true ↔ t.str <:+ past ++ [c]) ∧
      ((advance c t).2 = false → Longest t.str (past ++ [c]) (advance c t).1.index) := by
  have inside := before.lt
  rw [complete_iff t.str past c t.index before]
  unfold advance
  by_cases hit : t.str[t.index]? = some c
  · simp only [hit,if_true,and_true]
    by_cases last : t.index + 1 = t.str.length
    · simp [last]
    · simp only [last,if_false]
      exact ⟨by simp,fun _ => longest_hit t.str past c t.index before hit (by omega)⟩
  · have fails : ¬ Ends t.str (past ++ [c]) (t.index + 1) := fun ends =>
      hit (by rw [List.getElem?_eq_getElem inside,((ends_snoc _ _ _ _ inside).mp ends).2])
    have above : ∀ j, t.index ≤ j → ¬ Ends t.str (past ++ [c]) (j + 1) := by
      intro j reach ends
      have shorter := ((ends_snoc _ _ _ j (by have := ends.1; omega)).mp ends).1
      have same : j = t.index := by
        have := before.longest j shorter
        omega
      exact fails (same ▸ ends)
    have walked := walkBack_spec t.str past c t.index t.index before (Nat.le_refl _) above
    simp only [if_false,hit,and_false,iff_false]
    by_cases zero : t.index = 0
    · simp only [zero,if_true]
      rw [zero] at walked
      exact ⟨by simp,fun _ => walked⟩
    · simp only [zero,if_false]
      exact ⟨by simp,fun _ => walked⟩

def strs (targets : List MultiTarget) : List (List UInt8) := targets.map MultiTarget.str

/-- Every target is at its longest overlap with the text consumed so far. -/
def Tracking (targets : List MultiTarget) (past : List UInt8) : Prop := ∀ t ∈ targets, Longest t.str past t.index

@[simp] theorem ending_zero (t : List UInt8) (rest : List (List UInt8)) (text : List UInt8) :
    Ending (t :: rest) text 0 ↔ t <:+ text := by
  simp [Ending]

@[simp] theorem ending_succ (t : List UInt8) (rest : List (List UInt8)) (text : List UInt8) (i : Nat) :
    Ending (t :: rest) text (i + 1) ↔ Ending rest text i := by
  simp [Ending]

@[simp] theorem advanceAll_strs (c : UInt8) (targets : List MultiTarget) :
    strs (advanceAll c targets).1 = strs targets := by
  induction targets with
  | nil => rfl
  | cons t rest ih =>
    simp only [strs] at ih
    simp only [advanceAll,strs]
    split <;> simp [ih]

theorem advanceAll_spec (c : UInt8) (targets : List MultiTarget) (past : List UInt8) (tracking : Tracking targets past) :
    (∀ found, (advanceAll c targets).2 = some found → Ending (strs targets) (past ++ [c]) found ∧
      ∀ j, j < found → ¬ Ending (strs targets) (past ++ [c]) j) ∧
    ((advanceAll c targets).2 = none → (∀ j, ¬ Ending (strs targets) (past ++ [c]) j) ∧
      Tracking (advanceAll c targets).1 (past ++ [c])) := by
  induction targets with
  | nil => simp [advanceAll,Tracking,Ending,strs]
  | cons t rest ih =>
    obtain ⟨complete,onward⟩ := advance_spec c t past (tracking t (by simp))
    obtain ⟨hits,misses⟩ := ih fun t member => tracking t (by simp [member])
    simp only [strs,List.map_cons] at hits misses ⊢
    by_cases done : (advance c t).2 = true
    · simp only [advanceAll,done,if_true]
      refine ⟨?_,by simp⟩
      rintro found same
      cases Option.some.inj same
      exact ⟨(ending_zero _ _ _).mpr (complete.mp done),fun j below => absurd below (Nat.not_lt_zero j)⟩
    · have short : ¬ t.str <:+ past ++ [c] := fun ends => done (complete.mpr ends)
      have apart (j : Nat) (inner : ∀ k, j = k + 1 → ¬ Ending (rest.map MultiTarget.str) (past ++ [c]) k) :
          ¬ Ending (t.str :: rest.map MultiTarget.str) (past ++ [c]) j := by
        cases j with
        | zero => simpa using short
        | succ k => simpa using inner k rfl
      simp only [advanceAll,done]
      constructor
      · intro found same
        obtain ⟨inner,later,rfl⟩ := Option.map_eq_some_iff.mp same
        obtain ⟨here,first⟩ := hits inner later
        refine ⟨(ending_succ _ _ _ _).mpr here,?_⟩
        intro j below
        exact apart j fun k same => first k (by omega)
      · intro same
        obtain ⟨nowhere,keeps⟩ := misses (by simpa using same)
        refine ⟨fun j => apart j fun k _ => nowhere k,?_⟩
        intro other member
        rcases List.mem_cons.mp member with rfl | member
        · rw [advance_str]
          exact onward (by simpa using done)
        · exact keeps other member

/-- What the reading loop owes, with the text consumed before it was entered. -/
def LoopSearched (targets : List (List UInt8)) (past text all : List UInt8) (result : Option Nat × List Tick) : Prop :=
  match result.1 with
  | some found => ∃ stop, 0 < stop ∧ stop ≤ text.length ∧ Ending targets (past ++ text.take stop) found ∧
      (∀ j, j < found → ¬ Ending targets (past ++ text.take stop) j) ∧
      (∀ e, 0 < e → e < stop → ∀ j, ¬ Ending targets (past ++ text.take e) j) ∧
      all = text.take stop ++ bytes result.2
  | none => (∀ e, 0 < e → e ≤ text.length → ∀ j, ¬ Ending targets (past ++ text.take e) j) ∧
      all = text ++ bytes result.2

theorem findLoop_spec (timeout : UInt32) (targets : List MultiTarget) (ticks : List Tick) (past : List UInt8)
    (tracking : Tracking targets past) :
    LoopSearched (strs targets) past (heard timeout 0 ticks) (bytes ticks) (findLoop timeout targets ticks) := by
  induction size : ticks.length using Nat.strongRecOn generalizing targets ticks past with
  | ind size ih =>
    rcases timedRead_cases timeout ticks with ⟨c,rest,reads,hears,all,fewer⟩ | ⟨rest,reads,hears,all⟩
    · obtain ⟨hits,misses⟩ := advanceAll_spec c targets past tracking
      have unfolded : findLoop timeout targets ticks = match (advanceAll c targets) with
          | (_,some found) => (some found,rest)
          | (targets,none) => findLoop timeout targets rest := by
        rw [findLoop]
        split
        · rename_i later sees
          rw [reads] at sees
          cases sees
        · rename_i c' later sees
          rw [reads] at sees
          cases sees
          rfl
      have shift (e : Nat) : past ++ (c :: heard timeout 0 rest).take (e + 1) =
          past ++ [c] ++ (heard timeout 0 rest).take e := by
        simp
      rw [unfolded,hears,all]
      cases outcome : (advanceAll c targets).2 with
      | some found =>
        obtain ⟨here,first⟩ := hits found outcome
        have same : advanceAll c targets = ((advanceAll c targets).1,some found) := by rw [← outcome]
        rw [same]
        refine ⟨1,by omega,by simp,?_,?_,?_,by simp⟩
        · simpa using here
        · simpa using first
        · intro e positive below
          omega
      | none =>
        obtain ⟨nowhere,keeps⟩ := misses outcome
        have same : advanceAll c targets = ((advanceAll c targets).1,none) := by rw [← outcome]
        have inner := ih rest.length (by omega) (advanceAll c targets).1 rest (past ++ [c]) keeps rfl
        rw [advanceAll_strs] at inner
        rw [same]
        dsimp only
        unfold LoopSearched at inner ⊢
        cases answer : (findLoop timeout (advanceAll c targets).1 rest).1 with
        | some found =>
          rw [answer] at inner
          obtain ⟨stop,positive,bound,here,first,earliest,consumed⟩ := inner
          refine ⟨stop + 1,by omega,by simp only [List.length_cons]; omega,?_,?_,?_,?_⟩
          · rw [shift]
            exact here
          · rw [shift]
            exact first
          · intro e _ below
            cases e with
            | zero => omega
            | succ e =>
              rw [shift]
              rcases Nat.eq_zero_or_pos e with rfl | later
              · simpa using nowhere
              · exact earliest e later (by omega)
          · rw [consumed]
            simp
        | none =>
          rw [answer] at inner
          obtain ⟨never,consumed⟩ := inner
          refine ⟨?_,by rw [consumed]; simp⟩
          intro e _ bound
          cases e with
          | zero => omega
          | succ e =>
            rw [shift]
            rcases Nat.eq_zero_or_pos e with rfl | later
            · simpa using nowhere
            · exact never e later (by simp only [List.length_cons] at bound; omega)
    · have stops : findLoop timeout targets ticks = (none,rest) := by
        rw [findLoop]
        split
        · rename_i later sees
          rw [reads] at sees
          cases sees
          rfl
        · rename_i c later sees
          rw [reads] at sees
          cases sees
      rw [stops,hears,all]
      refine ⟨?_,rfl⟩
      intro e positive bound
      simp only [List.length_nil] at bound
      omega

theorem infix_iff_ends (t text : List UInt8) : t <:+: text ↔ ∃ e, e ≤ text.length ∧ t <:+ text.take e := by
  rw [List.infix_iff_suffix_prefix]
  constructor
  · rintro ⟨front,ends,begins⟩
    refine ⟨front.length,begins.length_le,?_⟩
    rw [← List.prefix_iff_eq_take.mp begins]
    exact ends
  · rintro ⟨e,_,ends⟩
    exact ⟨text.take e,ends,List.take_prefix e text⟩

theorem findMulti_searched (timeout : UInt32) (targets : List (List UInt8)) (ticks : List Tick)
    (some_ : ∀ t ∈ targets, t ≠ []) :
    Searched targets (heard timeout 0 ticks) (bytes ticks)
      (findMulti timeout (targets.map fun str => ⟨str,0⟩) ticks) := by
  have names : strs (targets.map fun str => ⟨str,0⟩) = targets := by
    rw [strs,List.map_map]
    exact List.map_id targets
  have tracking : Tracking (targets.map fun str => ⟨str,0⟩) [] := by
    intro t member
    obtain ⟨str,inside,rfl⟩ := List.mem_map.mp member
    exact longest_nil str (some_ str inside)
  have searched := findLoop_spec timeout _ ticks [] tracking
  have loops : findMulti timeout (targets.map fun str => ⟨str,0⟩) ticks =
      findLoop timeout (targets.map fun str => ⟨str,0⟩) ticks := by
    have none_ : (targets.map fun str => (⟨str,0⟩ : MultiTarget)).findIdx? (fun t => t.str.length = 0) = none := by
      rw [List.findIdx?_eq_none_iff]
      intro t member
      obtain ⟨str,inside,rfl⟩ := List.mem_map.mp member
      simpa using some_ str inside
    rw [findMulti,none_]
  have nothing (j : Nat) : ¬ Ending targets [] j := by
    rintro ⟨t,present,ends⟩
    exact some_ t (List.mem_of_getElem? present) (List.suffix_nil.mp ends)
  rw [loops]
  rw [names] at searched
  unfold LoopSearched at searched
  unfold Searched
  cases answer : (findLoop timeout (targets.map fun str => ⟨str,0⟩) ticks).1 with
  | some found =>
    rw [answer] at searched
    simp only [List.nil_append] at searched
    obtain ⟨stop,positive,bound,here,first,earliest,consumed⟩ := searched
    refine ⟨stop,⟨bound,here,first,?_⟩,consumed⟩
    intro e below j
    rcases Nat.eq_zero_or_pos e with rfl | later
    · simpa using nothing j
    · exact earliest e later below j
  | none =>
    rw [answer] at searched
    simp only [List.nil_append] at searched
    obtain ⟨never,consumed⟩ := searched
    refine ⟨?_,consumed⟩
    intro t member occurs
    obtain ⟨e,bound,ends⟩ := (infix_iff_ends t _).mp occurs
    obtain ⟨j,present⟩ := List.getElem?_of_mem member
    rcases Nat.eq_zero_or_pos e with rfl | later
    · exact nothing j ⟨t,present,by simpa using ends⟩
    · exact never e later bound j ⟨t,present,ends⟩

/-- The target is complete no later than the terminator. -/
def CompletedFirst (target terminator text : List UInt8) : Prop :=
  ∃ e, e ≤ text.length ∧ target <:+ text.take e ∧ ∀ e', e' < e → ¬ terminator <:+ text.take e'

theorem searched_none_iff (targets : List (List UInt8)) (text all : List UInt8) (result : Option Nat × List Tick)
    (searched : Searched targets text all result) : result.1 = none ↔ ∀ t ∈ targets, ¬ t <:+: text := by
  unfold Searched at searched
  cases answer : result.1 with
  | none =>
    rw [answer] at searched
    simpa using searched.1
  | some found =>
    rw [answer] at searched
    obtain ⟨stop,⟨bound,⟨t,present,ends⟩,_,_⟩,_⟩ := searched
    refine iff_of_false (by simp) fun never => ?_
    exact never t (List.mem_of_getElem? present) ((infix_iff_ends t text).mpr ⟨stop,bound,ends⟩)

theorem searched_pair_iff (target terminator text all : List UInt8) (result : Option Nat × List Tick)
    (searched : Searched [target,terminator] text all result) :
    result.1 = some 0 ↔ CompletedFirst target terminator text := by
  have never := searched_none_iff _ text all result searched
  unfold Searched at searched
  constructor
  · intro answer
    rw [answer] at searched
    obtain ⟨stop,⟨bound,here,_,earliest⟩,_⟩ := searched
    refine ⟨stop,bound,(ending_zero _ _ _).mp here,?_⟩
    intro e below ends
    exact earliest e below 1 ((ending_succ _ _ _ 0).mpr ((ending_zero _ _ _).mpr ends))
  · rintro ⟨e,bound,ends,before⟩
    cases answer : result.1 with
    | none => exact absurd ((infix_iff_ends target text).mpr ⟨e,bound,ends⟩) (never.mp answer target (by simp))
    | some found =>
      rw [answer] at searched
      obtain ⟨stop,⟨_,here,first,earliest⟩,_⟩ := searched
      have reach : stop ≤ e := by
        by_contra beyond
        exact earliest e (by omega) 0 ((ending_zero _ _ _).mpr ends)
      match found with
      | 0 => rfl
      | 1 =>
        have closes : terminator <:+ text.take stop := by simpa using here
        have same : stop = e := by
          by_contra other
          exact before stop (by omega) closes
        subst same
        exact absurd ((ending_zero _ _ _).mpr ends) (first 0 (by omega))
      | found + 2 => simp [Ending] at here

/-- `findMulti` finds the first of the targets that are complete earliest, and consumes
the stream up to there; `findUntil` and `find` are its cases of two and of one target. -/
theorem findMulti_first (timeout : UInt32) (ticks : List Tick) (targets : List (List UInt8))
    (target terminator : List UInt8) (some_ : ∀ t ∈ targets, t ≠ []) (name : target ≠ []) (close : terminator ≠ []) :
    Searched targets (heard timeout 0 ticks) (bytes ticks)
        (findMulti timeout (targets.map fun str => ⟨str,0⟩) ticks) ∧
      ((findMulti timeout (targets.map fun str => ⟨str,0⟩) ticks).1 = none ↔
        ∀ t ∈ targets, ¬ t <:+: heard timeout 0 ticks) ∧
      ((findUntil timeout target (some terminator) ticks).1 = true ↔
        CompletedFirst target terminator (heard timeout 0 ticks)) ∧
      (findUntil timeout target (some terminator) ticks).2 =
        (findMulti timeout ([target,terminator].map fun str => ⟨str,0⟩) ticks).2 ∧
      ((find timeout target ticks).1 = true ↔ target <:+: heard timeout 0 ticks) ∧
      (find timeout target ticks).2 = (findMulti timeout ([target].map fun str => ⟨str,0⟩) ticks).2 := by
  have searched := findMulti_searched timeout targets ticks some_
  have pair := findMulti_searched timeout [target,terminator] ticks (by simp [name,close])
  have single := findMulti_searched timeout [target] ticks (by simp [name])
  refine ⟨searched,searched_none_iff _ _ _ _ searched,?_,rfl,?_,rfl⟩
  · simpa [findUntil] using searched_pair_iff target terminator _ _ _ pair
  · have missing := searched_none_iff _ _ _ _ single
    simp only [find,findUntil,decide_eq_true_eq]
    unfold Searched at single
    simp only [List.map_cons,List.map_nil,List.mem_singleton,forall_eq] at single missing
    cases answer : (findMulti timeout [⟨target,0⟩] ticks).1 with
    | none =>
      have absent := missing.mp answer
      simp [absent]
    | some found =>
      rw [answer] at single missing
      obtain ⟨stop,⟨bound,here,_,_⟩,_⟩ := single
      cases found with
      | zero => simpa using (infix_iff_ends target _).mpr ⟨stop,bound,(ending_zero _ _ _).mp here⟩
      | succ found => simp [Ending] at here

/-- A self-overlapping target in a text that nearly has it before, and a terminator. -/
theorem findMulti_first_overlapping :
    Searched [[49,49,50],[50]] (heard 1000 0 ([49,49,49,50].map Tick.byte)) (bytes ([49,49,49,50].map Tick.byte))
        (findMulti 1000 ([[49,49,50],[50]].map fun str => ⟨str,0⟩) ([49,49,49,50].map Tick.byte)) ∧
      ((findMulti 1000 ([[49,49,50],[50]].map fun str => ⟨str,0⟩) ([49,49,49,50].map Tick.byte)).1 = none ↔
        ∀ t ∈ ([[49,49,50],[50]] : List (List UInt8)), ¬ t <:+: heard 1000 0 ([49,49,49,50].map Tick.byte)) ∧
      ((findUntil 1000 [49,49,50] (some [51]) ([49,49,49,50].map Tick.byte)).1 = true ↔
        CompletedFirst [49,49,50] [51] (heard 1000 0 ([49,49,49,50].map Tick.byte))) ∧
      (findUntil 1000 [49,49,50] (some [51]) ([49,49,49,50].map Tick.byte)).2 =
        (findMulti 1000 ([[49,49,50],[51]].map fun str => ⟨str,0⟩) ([49,49,49,50].map Tick.byte)).2 ∧
      ((find 1000 [49,49,50] ([49,49,49,50].map Tick.byte)).1 = true ↔
        [49,49,50] <:+: heard 1000 0 ([49,49,49,50].map Tick.byte)) ∧
      (find 1000 [49,49,50] ([49,49,49,50].map Tick.byte)).2 =
        (findMulti 1000 ([[49,49,50]].map fun str => ⟨str,0⟩) ([49,49,49,50].map Tick.byte)).2 :=
  findMulti_first 1000 _ _ _ _ (by decide) (by decide) (by decide)

end OpenPlc.Streams
