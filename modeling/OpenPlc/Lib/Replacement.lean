import Mathlib.Data.List.Infix
import Mathlib.Tactic.Common

/-! Replacing the occurrences of a word in a text: left to right without overlaps, and in
one sweep from the right that sees what it has already replaced. For a longer replacement
the two agree exactly on the texts in which the sweep meets no other occurrence. -/
namespace OpenPlc.Replacement

variable {α : Type*} [DecidableEq α] (find replace : List α)

/-- The first occurrence. -/
def search : List α → Option Nat
  | [] => if find = [] then some 0 else none
  | item :: rest => if find <+: item :: rest then some 0 else (search rest).map (· + 1)

/-- Left to right, while `skip` items of an occurrence are still to be left out. -/
def replaceFrom : Nat → List α → List α
  | _, [] => []
  | skip + 1, _ :: rest => replaceFrom skip rest
  | 0, item :: rest =>
    if find <+: item :: rest then replace ++ replaceFrom (find.length - 1) rest else item :: replaceFrom 0 rest

def countFrom : Nat → List α → Nat
  | _, [] => 0
  | skip + 1, _ :: rest => countFrom skip rest
  | 0, item :: rest => if find <+: item :: rest then countFrom (find.length - 1) rest + 1 else countFrom 0 rest

def replaceHead (text : List α) : List α :=
  if find <+: text then replace ++ text.drop find.length else text

/-- From the right, each place against the text that the sweep has left behind it. -/
def sweep : List α → List α
  | [] => []
  | item :: rest => replaceHead find replace (item :: sweep rest)

/-- The text up to the next place that is replaced from the left, and the replacement there. -/
def ahead : Nat → List α → List α
  | _, [] => []
  | skip + 1, item :: rest => item :: ahead skip rest
  | 0, item :: rest => if find <+: item :: rest then replace else item :: ahead 0 rest

/-- No occurrence starts at a place that is not replaced from the left, when the text is
cut at the next place that is and continued with the replacement. -/
def Clean : Nat → List α → Prop
  | _, [] => True
  | skip + 1, item :: rest => ¬ find <+: item :: ahead find replace skip rest ∧ Clean skip rest
  | 0, item :: rest =>
    if find <+: item :: rest then Clean (find.length - 1) rest
    else ¬ find <+: item :: ahead find replace 0 rest ∧ Clean 0 rest

instance decidableClean : (skip : Nat) → (text : List α) → Decidable (Clean find replace skip text)
  | 0, [] => .isTrue trivial
  | _ + 1, [] => .isTrue trivial
  | skip + 1, item :: rest =>
    have := decidableClean skip rest
    inferInstanceAs (Decidable (¬ find <+: item :: ahead find replace skip rest ∧ Clean find replace skip rest))
  | 0, item :: rest =>
    have := decidableClean (find.length - 1) rest
    have := decidableClean 0 rest
    inferInstanceAs (Decidable (if find <+: item :: rest then Clean find replace (find.length - 1) rest
      else ¬ find <+: item :: ahead find replace 0 rest ∧ Clean find replace 0 rest))

variable {find replace}

section First

theorem search_none (text : List α) (missing : search find text = none) (d : Nat) : ¬ find <+: text.drop d := by
  induction text generalizing d with
  | nil =>
    intro occurs
    rw [List.drop_nil,List.prefix_nil] at occurs
    simp [search,occurs] at missing
  | cons item rest ih =>
    simp only [search] at missing
    split at missing
    · contradiction
    · rename_i other
      rw [Option.map_eq_none_iff] at missing
      cases d with
      | zero => exact other
      | succ d => exact ih missing d

omit [DecidableEq α] in
theorem occurs_within (some_ : find ≠ []) {text : List α} {d : Nat} (occurs : find <+: text.drop d) :
    0 < find.length ∧ d + find.length ≤ text.length := by
  have long := List.length_pos_of_ne_nil some_
  have inside := occurs.length_le
  rw [List.length_drop] at inside
  omega

theorem search_some (text : List α) (d : Nat) (found : search find text = some d) :
    find <+: text.drop d ∧ ∀ e, e < d → ¬ find <+: text.drop e := by
  induction text generalizing d with
  | nil =>
    simp only [search] at found
    split at found
    · rename_i empty
      cases found
      exact ⟨by simp [empty],by simp⟩
    · contradiction
  | cons item rest ih =>
    simp only [search] at found
    split at found
    · rename_i occurs
      cases found
      exact ⟨occurs,by simp⟩
    · rename_i other
      obtain ⟨before,inside,rfl⟩ := Option.map_eq_some_iff.mp found
      obtain ⟨occurs,first⟩ := ih before inside
      refine ⟨occurs,?_⟩
      intro e lower
      cases e with
      | zero => exact other
      | succ e => exact first e (by omega)

end First

section LeftToRight

theorem replaceFrom_skip (skip : Nat) (text : List α) :
    replaceFrom find replace skip text = replaceFrom find replace 0 (text.drop skip) := by
  induction text generalizing skip with
  | nil => cases skip <;> simp [replaceFrom]
  | cons item rest ih =>
    cases skip with
    | zero => rfl
    | succ skip => simpa [replaceFrom] using ih skip

theorem countFrom_skip (skip : Nat) (text : List α) :
    countFrom find skip text = countFrom find 0 (text.drop skip) := by
  induction text generalizing skip with
  | nil => cases skip <;> simp [countFrom]
  | cons item rest ih =>
    cases skip with
    | zero => rfl
    | succ skip => simpa [countFrom] using ih skip

omit [DecidableEq α] in
private theorem drop_pred (some_ : find ≠ []) (item : α) (rest : List α) :
    rest.drop (find.length - 1) = (item :: rest).drop find.length := by
  have long := List.length_pos_of_ne_nil some_
  obtain ⟨length,same⟩ := Nat.exists_eq_succ_of_ne_zero (by omega : find.length ≠ 0)
  rw [same]
  rfl

theorem replaceFrom_none (text : List α) (missing : search find text = none) :
    replaceFrom find replace 0 text = text ∧ countFrom find 0 text = 0 := by
  induction text with
  | nil => simp [replaceFrom,countFrom]
  | cons item rest ih =>
    have other := search_none (item :: rest) missing 0
    simp only [List.drop_zero] at other
    simp only [search,other,if_false,Option.map_eq_none_iff] at missing
    simp [replaceFrom,countFrom,other,ih missing]

theorem replaceFrom_some (some_ : find ≠ []) (text : List α) (d : Nat) (found : search find text = some d) :
    replaceFrom find replace 0 text = text.take d ++ replace ++ replaceFrom find replace 0 (text.drop (d + find.length)) ∧
      countFrom find 0 text = countFrom find 0 (text.drop (d + find.length)) + 1 := by
  induction text generalizing d with
  | nil => simp [search,some_] at found
  | cons item rest ih =>
    by_cases occurs : find <+: item :: rest
    · simp only [search,occurs,if_true,Option.some.injEq] at found
      subst found
      simp only [replaceFrom,countFrom,occurs,if_true,List.take_zero,List.nil_append,Nat.zero_add]
      rw [replaceFrom_skip,countFrom_skip,drop_pred some_ item]
      exact ⟨rfl,rfl⟩
    · simp only [search,occurs,if_false] at found
      obtain ⟨before,inside,rfl⟩ := Option.map_eq_some_iff.mp found
      obtain ⟨replaced,counted⟩ := ih before inside
      rw [show before + 1 + find.length = before + find.length + 1 by omega]
      simp [replaceFrom,countFrom,occurs,replaced,counted]

theorem search_of_count (some_ : find ≠ []) (text : List α) (never : countFrom find 0 text = 0) :
    search find text = none := by
  cases found : search find text with
  | none => rfl
  | some d =>
    rw [(@replaceFrom_some _ _ _ [] some_ text d found).2] at never
    omega

theorem replaceFrom_occurrence (some_ : find ≠ []) (rest : List α) :
    replaceFrom find replace 0 (find ++ rest) = replace ++ replaceFrom find replace 0 rest := by
  obtain ⟨item,tail,rfl⟩ := List.exists_cons_of_ne_nil some_
  rw [List.cons_append,replaceFrom,if_pos (by simp),replaceFrom_skip]
  simp

theorem replaceFrom_length (some_ : find ≠ []) (text : List α) :
    (replaceFrom find replace 0 text).length + countFrom find 0 text * find.length =
      text.length + countFrom find 0 text * replace.length := by
  induction size : text.length using Nat.strongRecOn generalizing text with
  | ind size ih =>
    cases found : search find text with
    | none =>
      obtain ⟨replaced,counted⟩ := @replaceFrom_none _ _ _ replace text found
      rw [replaced,counted]
      omega
    | some d =>
      obtain ⟨replaced,counted⟩ := @replaceFrom_some _ _ _ replace some_ text d found
      obtain ⟨long,inside⟩ := occurs_within some_ (search_some text d found).1
      have rest := ih (text.drop (d + find.length)).length (by rw [List.length_drop]; omega) _ rfl
      rw [replaced,counted]
      simp only [List.length_append,List.length_take,List.length_drop,Nat.add_mul] at rest ⊢
      omega

/-- A text is read from the left: an item that is passed over, or a whole occurrence. -/
theorem left_induction {motive : List α → Prop} (some_ : find ≠ []) (nil : motive [])
    (passed : ∀ item rest, ¬ find <+: item :: rest → motive rest → motive (item :: rest))
    (occurrence : ∀ rest, motive rest → motive (find ++ rest)) (text : List α) : motive text := by
  induction size : text.length using Nat.strongRecOn generalizing text with
  | ind size ih =>
    cases text with
    | nil => exact nil
    | cons item rest =>
      rw [List.length_cons] at size
      by_cases occurs : find <+: item :: rest
      · obtain ⟨tail,same⟩ := occurs
        have long := List.length_pos_of_ne_nil some_
        have total := congrArg List.length same
        rw [List.length_append,List.length_cons] at total
        rw [← same]
        exact occurrence tail (ih tail.length (by omega) tail rfl)
      · exact passed item rest occurs (ih rest.length (by omega) rest rfl)

end LeftToRight

section Ahead

/-- What lies ahead shows as much of the replaced text as an occurrence can reach. -/
theorem ahead_cases (text : List α) :
    ahead find replace 0 text <+: replaceFrom find replace 0 text ∧
      (ahead find replace 0 text = replaceFrom find replace 0 text ∨
        replace.length ≤ (ahead find replace 0 text).length) := by
  induction text with
  | nil => simp [ahead,replaceFrom]
  | cons item rest ih =>
    by_cases occurs : find <+: item :: rest
    · simp [ahead,replaceFrom,occurs]
    · obtain ⟨shows,reach⟩ := ih
      simp only [ahead,replaceFrom,occurs,if_false,List.prefix_cons_inj,List.cons.injEq,true_and,List.length_cons]
      exact ⟨shows,reach.imp_right (by omega)⟩

theorem ahead_iff (longer : find.length < replace.length) (front text : List α) :
    find <+: front ++ ahead find replace 0 text ↔ find <+: front ++ replaceFrom find replace 0 text := by
  obtain ⟨shows,same | reach⟩ := @ahead_cases α _ find replace text
  · rw [same]
  · have whole : front ++ ahead find replace 0 text <+: front ++ replaceFrom find replace 0 text :=
      (List.prefix_append_right_inj front).mpr shows
    refine ⟨fun occurs => occurs.trans whole,fun occurs => ?_⟩
    exact List.prefix_of_prefix_length_le occurs whole (by rw [List.length_append]; omega)

theorem ahead_skip (front text : List α) :
    ahead find replace front.length (front ++ text) = front ++ ahead find replace 0 text := by
  induction front with
  | nil => rfl
  | cons item front ih => simp [ahead,ih]

theorem clean_skip (front text : List α) :
    Clean find replace front.length (front ++ text) ↔
      (∀ d, d < front.length → ¬ find <+: front.drop d ++ ahead find replace 0 text) ∧ Clean find replace 0 text := by
  induction front with
  | nil => simp
  | cons item front ih =>
    rw [List.cons_append,List.length_cons,Clean,ih,ahead_skip,← and_assoc]
    refine and_congr_left' ⟨?_,?_⟩
    · rintro ⟨here,behind⟩ d bound
      cases d with
      | zero => exact here
      | succ d => exact behind d (by omega)
    · intro quiet
      exact ⟨quiet 0 (by omega),fun d bound => quiet (d + 1) (by omega)⟩

theorem clean_occurrence (some_ : find ≠ []) (text : List α) :
    Clean find replace 0 (find ++ text) ↔
      (∀ d, 0 < d → d < find.length → ¬ find <+: find.drop d ++ ahead find replace 0 text) ∧ Clean find replace 0 text := by
  obtain ⟨item,tail,parts⟩ := List.exists_cons_of_ne_nil some_
  have whole : find <+: item :: (tail ++ text) := by
    rw [parts]
    exact List.prefix_append _ _
  have length : find.length = tail.length + 1 := by
    rw [parts]
    rfl
  have unfolded : Clean find replace 0 (find ++ text) ↔ Clean find replace tail.length (tail ++ text) := by
    nth_rewrite 2 [parts]
    rw [List.cons_append,Clean,if_pos whole,length,Nat.add_sub_cancel]
  have shifted : ∀ d, find.drop (d + 1) = tail.drop d := by
    intro d
    rw [parts]
    rfl
  rw [unfolded,clean_skip]
  refine and_congr_left' ⟨?_,?_⟩
  · intro quiet d positive bound
    obtain ⟨d,rfl⟩ := Nat.exists_eq_succ_of_ne_zero (by omega : d ≠ 0)
    rw [Nat.succ_eq_add_one,shifted]
    exact quiet d (by omega)
  · intro quiet d bound
    rw [← shifted]
    exact quiet (d + 1) (by omega) (by omega)

end Ahead

section Sweep

theorem sweep_quiet (front rest : List α)
    (quiet : ∀ d, d < front.length → ¬ find <+: front.drop d ++ sweep find replace rest) :
    sweep find replace (front ++ rest) = front ++ sweep find replace rest := by
  induction front with
  | nil => rfl
  | cons item front ih =>
    have behind := ih (fun d inside => quiet (d + 1) (by simpa using inside))
    rw [List.cons_append,sweep,behind,replaceHead,if_neg (by simpa using quiet 0 (by simp)),List.cons_append]

theorem sweep_none (text : List α) (missing : search find text = none) : sweep find replace text = text := by
  have quiet := @sweep_quiet _ _ find replace text [] (fun d _ => by
    rw [sweep,List.append_nil]
    exact search_none text missing d)
  simpa [sweep] using quiet

theorem sweep_hit (front rest : List α) (d : Nat) (inside : d < front.length)
    (occurs : find <+: front.drop d ++ sweep find replace rest)
    (quiet : ∀ e, d < e → e < front.length → ¬ find <+: front.drop e ++ sweep find replace rest) :
    sweep find replace (front.drop d ++ rest) =
      replace ++ (front.drop d ++ sweep find replace rest).drop find.length := by
  rw [List.drop_eq_getElem_cons inside] at occurs ⊢
  have behind : sweep find replace (front.drop (d + 1) ++ rest) = front.drop (d + 1) ++ sweep find replace rest := by
    apply sweep_quiet
    intro e bound
    rw [List.length_drop] at bound
    rw [List.drop_drop]
    exact quiet (d + 1 + e) (by omega) (by omega)
  rw [List.cons_append,sweep,behind,replaceHead,← List.cons_append,if_pos occurs]

/-- Either nothing in front is replaced, or there is a last place. -/
theorem sweep_cases (front rest : List α) :
    (∀ d, d < front.length → ¬ find <+: front.drop d ++ sweep find replace rest) ∨
      ∃ d, d < front.length ∧ find <+: front.drop d ++ sweep find replace rest ∧
        ∀ e, d < e → e < front.length → ¬ find <+: front.drop e ++ sweep find replace rest := by
  induction front with
  | nil => exact Or.inl (by simp)
  | cons item front ih =>
    rcases ih with quiet | ⟨d,inside,occurs,last⟩
    · by_cases occurs : find <+: item :: front ++ sweep find replace rest
      · refine Or.inr ⟨0,by simp,occurs,?_⟩
        intro e positive bound
        obtain ⟨e,rfl⟩ := Nat.exists_eq_succ_of_ne_zero (by omega : e ≠ 0)
        exact quiet e (by simpa using bound)
      · left
        intro d bound
        cases d with
        | zero => exact occurs
        | succ d => exact quiet d (by simpa using bound)
    · refine Or.inr ⟨d + 1,by simpa using inside,occurs,?_⟩
      intro e above bound
      obtain ⟨e,rfl⟩ := Nat.exists_eq_succ_of_ne_zero (by omega : e ≠ 0)
      exact last e (by omega) (by simpa using bound)

variable (some_ : find ≠ []) (longer : find.length < replace.length)

include longer in
theorem sweep_length (front rest : List α) :
    front.length + (sweep find replace rest).length ≤ (sweep find replace (front ++ rest)).length := by
  induction front with
  | nil => simp
  | cons item front ih =>
    rw [List.cons_append,sweep,replaceHead]
    split
    · rename_i occurs
      have short := occurs.length_le
      simp only [List.length_append,List.length_drop,List.length_cons] at short ⊢
      omega
    · simp only [List.length_cons]
      omega

include some_ longer in
theorem sweep_occurrence (rest : List α) :
    replace.length + (sweep find replace rest).length ≤ (sweep find replace (find ++ rest)).length := by
  rcases @sweep_cases α _ find replace find rest with quiet | ⟨d,inside,occurs,last⟩
  · exact absurd (List.prefix_append _ _) (quiet 0 (List.length_pos_of_ne_nil some_))
  · have hit := sweep_hit find rest d inside occurs last
    have front := sweep_length longer (find.take d) (find.drop d ++ rest)
    have short := occurs.length_le
    rw [← List.append_assoc,List.take_append_drop,hit] at front
    simp only [List.length_append,List.length_take,List.length_drop] at front short
    omega

include some_ longer in
theorem sweep_length_ge (text : List α) :
    (replaceFrom find replace 0 text).length ≤ (sweep find replace text).length := by
  induction text using left_induction some_ with
  | nil => simp [replaceFrom]
  | passed item rest other ih =>
    have more := sweep_length longer [item] rest
    simp only [replaceFrom,other,if_false,List.length_cons,List.length_nil,List.cons_append,List.nil_append] at more ⊢
    omega
  | occurrence rest ih =>
    have more := sweep_occurrence some_ longer rest
    rw [replaceFrom_occurrence some_,List.length_append]
    omega

include some_ longer in
theorem sweep_of_clean (text : List α) (clean : Clean find replace 0 text) :
    sweep find replace text = replaceFrom find replace 0 text := by
  induction text using left_induction some_ with
  | nil => rfl
  | passed item rest other ih =>
    simp only [Clean,other,if_false] at clean
    have behind := ih clean.2
    have missed := clean.1
    rw [← List.singleton_append,ahead_iff longer,List.singleton_append] at missed
    simp only [sweep,replaceFrom,behind,replaceHead,missed,other,if_false]
  | occurrence rest ih =>
    obtain ⟨quiet,clean_rest⟩ := (clean_occurrence some_ rest).mp clean
    have behind := ih clean_rest
    have hit := @sweep_hit α _ find replace find rest 0 (List.length_pos_of_ne_nil some_)
      (by rw [List.drop_zero]; exact List.prefix_append _ _) (by
        intro e positive bound
        rw [behind,← ahead_iff longer]
        exact quiet e positive bound)
    rw [List.drop_zero,List.drop_left] at hit
    rw [hit,behind,replaceFrom_occurrence some_]

omit [DecidableEq α] in
theorem prefix_of_period (period x y : List α) (some_ : period ≠ []) (first : x <+: period ++ x)
    (second : y <+: period ++ y) (short : x.length ≤ y.length) : x <+: y := by
  have long := List.length_pos_of_ne_nil some_
  rw [List.prefix_iff_getElem?] at first second ⊢
  intro i inside
  induction i using Nat.strongRecOn with
  | ind i ih =>
    have here := first i inside
    have there := second i (by omega)
    rw [List.getElem?_eq_getElem (by omega),← there,← here]
    by_cases initial : i < period.length
    · rw [List.getElem?_append_left initial,List.getElem?_append_left initial]
    · rw [List.getElem?_append_right (by omega),List.getElem?_append_right (by omega)]
      rw [ih (i - period.length) (by omega) (by omega),List.getElem?_eq_getElem (by omega)]

include longer in
/-- A sweep that leaves no longer text than the replacement from the left replaces once in
the window of an occurrence. -/
theorem swept_once (rest : List α) (d : Nat) (inside : d < find.length)
    (occurs : find <+: find.drop d ++ sweep find replace rest)
    (last : ∀ e, d < e → e < find.length → ¬ find <+: find.drop e ++ sweep find replace rest)
    (length : (sweep find replace (find ++ rest)).length ≤ replace.length + (sweep find replace rest).length) :
    ∀ e, e < d → ¬ find <+: (find.take d).drop e ++ sweep find replace (find.drop d ++ rest) := by
  have hit := sweep_hit find rest d inside occurs last
  have short := occurs.length_le
  rcases @sweep_cases α _ find replace (find.take d) (find.drop d ++ rest) with quiet | ⟨e,inside',occurs',last'⟩
  · intro e below
    exact quiet e (by rw [List.length_take]; omega)
  · have again := sweep_hit (find.take d) (find.drop d ++ rest) e inside' occurs' last'
    have front := sweep_length longer ((find.take d).take e) ((find.take d).drop e ++ (find.drop d ++ rest))
    rw [again,← List.append_assoc,List.take_append_drop,← List.append_assoc,List.take_append_drop,hit] at front
    have reach := occurs'.length_le
    rw [hit] at reach
    simp only [List.length_append,List.length_take,List.length_drop] at front short reach inside'
    omega

include longer in
/-- The window of an occurrence that still stands at its start is not replaced later on. -/
theorem swept_first (rest : List α) (d : Nat) (inside : d < find.length)
    (occurs : find <+: find.drop d ++ sweep find replace rest)
    (last : ∀ e, d < e → e < find.length → ¬ find <+: find.drop e ++ sweep find replace rest)
    (first : ∀ e, e < d → ¬ find <+: (find.take d).drop e ++ sweep find replace (find.drop d ++ rest))
    (same : replace <+: sweep find replace (find ++ rest)) : d = 0 := by
  by_contra positive
  have hit := sweep_hit find rest d inside occurs last
  have front := sweep_quiet (find.take d) (find.drop d ++ rest) (fun e bound =>
    first e (by rw [List.length_take] at bound; omega))
  rw [← List.append_assoc,List.take_append_drop,hit] at front
  have self : find.drop d <+: find.take d ++ find.drop d := by
    rw [List.take_append_drop]
    exact List.prefix_of_prefix_length_le (List.prefix_append _ _) occurs (by rw [List.length_drop]; omega)
  have other : replace <+: find.take d ++ replace := by
    rw [front,← List.append_assoc] at same
    exact List.prefix_of_prefix_length_le same (List.prefix_append _ _) (by rw [List.length_append]; omega)
  have period : find.take d ≠ [] := by
    apply List.ne_nil_of_length_pos
    rw [List.length_take]
    omega
  have agree := prefix_of_period (find.take d) (find.drop d) replace period self other (by rw [List.length_drop]; omega)
  apply first 0 (by omega)
  rw [List.drop_zero,hit,← List.append_assoc]
  nth_rewrite 1 [← List.take_append_drop d find]
  exact ((List.prefix_append_right_inj _).mpr agree).trans (List.prefix_append _ _)

include some_ longer in
theorem clean_of_sweep (text : List α) (same : sweep find replace text = replaceFrom find replace 0 text) :
    Clean find replace 0 text := by
  induction text using left_induction some_ with
  | nil => trivial
  | passed item rest other ih =>
    have enough := sweep_length_ge some_ longer rest
    simp only [sweep,replaceFrom,other,if_false,replaceHead] at same
    simp only [Clean,other,if_false]
    split at same
    · rename_i occurs
      have short := occurs.length_le
      have length := congrArg List.length same
      simp only [List.length_append,List.length_drop,List.length_cons] at length short
      omega
    · rename_i missed
      have behind := (List.cons.inj same).2
      rw [behind] at missed
      rw [← List.singleton_append,ahead_iff longer]
      exact ⟨missed,ih behind⟩
  | occurrence rest ih =>
    have enough := sweep_length_ge some_ longer rest
    rw [replaceFrom_occurrence some_] at same
    rcases @sweep_cases α _ find replace find rest with quiet | ⟨d,inside,occurs,last⟩
    · exact absurd (List.prefix_append _ _) (quiet 0 (List.length_pos_of_ne_nil some_))
    · have hit := sweep_hit find rest d inside occurs last
      have first := swept_once longer rest d inside occurs last (by
        have length := congrArg List.length same
        rw [List.length_append] at length
        omega)
      have start := swept_first longer rest d inside occurs last first (by
        rw [same]
        exact List.prefix_append _ _)
      subst start
      rw [List.drop_zero,List.drop_left] at hit
      have behind := List.append_cancel_left (hit.symm.trans same)
      refine (clean_occurrence some_ rest).mpr ⟨?_,ih behind⟩
      intro e positive bound
      rw [ahead_iff longer,← behind]
      exact last e positive bound

/-- The sweep gives the replacement from the left exactly on the clean texts. -/
theorem sweep_iff_clean (some_ : find ≠ []) (longer : find.length < replace.length) (text : List α) :
    sweep find replace text = replaceFrom find replace 0 text ↔ Clean find replace 0 text :=
  ⟨clean_of_sweep some_ longer text,sweep_of_clean some_ longer text⟩

end Sweep

end OpenPlc.Replacement
