import Mathlib.Data.List.Infix

/-! Runs of a deterministic machine driven by events. An event that the machine
cannot take in its present state ends the run with `none`, so every quantifier
over events is a quantifier over all interleavings. -/
namespace OpenPlc.Run

variable {S E : Type*}

def after (step : S → E → Option S) (start : S) (events : List E) : Option S :=
  events.foldlM step start

/-- Every step the run really takes is taken in a state that allows it. -/
def Meets (cond : S → E → Prop) (step : S → E → Option S) : S → List E → Prop
  | _, [] => True
  | s, event :: rest => ∀ next, step s event = some next → cond s event ∧ Meets cond step next rest

/-- The property holds in the starting state and after every prefix of the run. -/
def Throughout (P : S → Prop) (step : S → E → Option S) (start : S) (events : List E) : Prop :=
  ∀ done s, done <+: events → after step start done = some s → P s

variable {step : S → E → Option S}

theorem meets_cons_iff {cond : S → E → Prop} {start next : S} {event : E} {rest : List E} (taken : step start event = some next) :
    Meets cond step start (event :: rest) ↔ cond start event ∧ Meets cond step next rest := by
  constructor
  · exact fun meets => meets next taken
  · intro both other same
    cases Option.some.inj (taken.symm.trans same)
    exact both

instance decidableMeets (cond : S → E → Prop) [∀ s event, Decidable (cond s event)] (start : S) (events : List E) :
    Decidable (Meets cond step start events) :=
  match events with
  | [] => isTrue trivial
  | event :: rest =>
    match taken : step start event with
    | none => isTrue fun _ same => absurd (taken.symm.trans same) nofun
    | some next =>
      have := decidableMeets cond next rest
      decidable_of_iff (cond start event ∧ Meets cond step next rest) (meets_cons_iff taken).symm

@[simp] theorem after_cons (start : S) (event : E) (rest : List E) :
    after step start (event :: rest) = (step start event).bind fun next => after step next rest := by
  simp only [after,List.foldlM_cons]
  rfl

theorem after_append (start : S) (first second : List E) :
    after step start (first ++ second) = (after step start first).bind fun s => after step s second := by
  simp only [after,List.foldlM_append]
  rfl

/-- What holds at the start and is preserved by each step holds after every run. -/
theorem invariant (Inv : S → Prop) (keeps : ∀ s event next, Inv s → step s event = some next → Inv next)
    (start s : S) (events : List E) (initial : Inv start) (reached : after step start events = some s) :
    Inv s := by
  induction events generalizing start with
  | nil =>
    cases Option.some.inj reached
    exact initial
  | cons event rest ih =>
    rw [after_cons] at reached
    obtain ⟨next,taken,onward⟩ := Option.bind_eq_some_iff.mp reached
    exact ih next (keeps start event next initial taken) onward

theorem throughout_cons (P : S → Prop) (start : S) (event : E) (rest : List E) :
    Throughout P step start (event :: rest) ↔
      P start ∧ ∀ next, step start event = some next → Throughout P step next rest := by
  constructor
  · intro holds
    refine ⟨holds [] start (List.nil_prefix) rfl,?_⟩
    intro next taken done s shorter reached
    apply holds (event :: done) s
    · exact (List.prefix_cons_inj event).mpr shorter
    · simp [taken,reached]
  · rintro ⟨here,onward⟩ done s shorter reached
    cases done with
    | nil =>
      cases Option.some.inj reached
      exact here
    | cons first done =>
      obtain ⟨same,inside⟩ := List.cons_prefix_cons.mp shorter
      subst first
      rw [after_cons] at reached
      obtain ⟨next,taken,reached⟩ := Option.bind_eq_some_iff.mp reached
      exact onward next taken done s inside reached

theorem throughout_nil (P : S → Prop) (start : S) : Throughout P step start [] ↔ P start := by
  constructor
  · intro holds
    exact holds [] start (List.nil_prefix) rfl
  · intro here done s shorter reached
    cases List.prefix_nil.mp shorter
    cases Option.some.inj reached
    exact here

theorem throughout_of_meets (P Inv : S → Prop) (cond : S → E → Prop) (sound : ∀ s, Inv s → P s)
    (keeps : ∀ s event next, Inv s → cond s event → step s event = some next → Inv next)
    (start : S) (events : List E) (initial : Inv start) (meets : Meets cond step start events) :
    Throughout P step start events := by
  induction events generalizing start with
  | nil => exact (throughout_nil P start).mpr (sound start initial)
  | cons event rest ih =>
    refine (throughout_cons P start event rest).mpr ⟨sound start initial,?_⟩
    intro next taken
    obtain ⟨allowed,onward⟩ := meets next taken
    exact ih next (keeps start event next initial allowed taken) onward

theorem meets_of_throughout (P Inv : S → Prop) (cond other : S → E → Prop)
    (keeps : ∀ s event next, Inv s → cond s event → step s event = some next → Inv next)
    (breaks : ∀ s event next, Inv s → other s event → ¬ cond s event → step s event = some next → ¬ P next)
    (start : S) (events : List E) (initial : Inv start) (meets : Meets other step start events)
    (holds : Throughout P step start events) : Meets cond step start events := by
  induction events generalizing start with
  | nil => trivial
  | cons event rest ih =>
    intro next taken
    obtain ⟨within,onward⟩ := meets next taken
    have later := ((throughout_cons P start event rest).mp holds).2 next taken
    by_cases allowed : cond start event
    · exact ⟨allowed,ih next (keeps start event next initial allowed taken) onward later⟩
    · exact absurd (later [] next (List.nil_prefix) rfl) (breaks start event next initial within allowed taken)

theorem meets_true (start : S) (events : List E) : Meets (fun _ _ => True) step start events := by
  induction events generalizing start with
  | nil => trivial
  | cons event rest ih => exact fun next _ => ⟨trivial,ih next⟩

/-- An invariant that only the allowed steps preserve carries a property through
exactly the runs that take allowed steps, once a disallowed step breaks it. -/
theorem throughout_iff_meets (P Inv : S → Prop) (cond : S → E → Prop)
    (sound : ∀ s, Inv s → P s)
    (keeps : ∀ s event next, Inv s → cond s event → step s event = some next → Inv next)
    (breaks : ∀ s event next, Inv s → ¬ cond s event → step s event = some next → ¬ P next)
    (start : S) (events : List E) (initial : Inv start) :
    Throughout P step start events ↔ Meets cond step start events :=
  ⟨meets_of_throughout P Inv cond (fun _ _ => True) keeps (fun s event next inv _ => breaks s event next inv) start events
    initial (meets_true start events),throughout_of_meets P Inv cond sound keeps start events initial⟩

/-- Where two laws of a step agree as long as the invariant holds, and the second keeps it,
the same runs obey both. -/
theorem meets_iff (Inv : S → Prop) (law cond : S → E → Prop)
    (same : ∀ s event next, Inv s → step s event = some next → (law s event ↔ cond s event))
    (keeps : ∀ s event next, Inv s → cond s event → step s event = some next → Inv next)
    (start : S) (events : List E) (initial : Inv start) :
    Meets law step start events ↔ Meets cond step start events := by
  induction events generalizing start with
  | nil => exact Iff.rfl
  | cons event rest ih =>
    constructor
    · intro meets next taken
      obtain ⟨here,onward⟩ := meets next taken
      have allowed := (same start event next initial taken).mp here
      exact ⟨allowed,(ih next (keeps start event next initial allowed taken)).mp onward⟩
    · intro meets next taken
      obtain ⟨allowed,onward⟩ := meets next taken
      exact ⟨(same start event next initial taken).mpr allowed,
        (ih next (keeps start event next initial allowed taken)).mpr onward⟩

end OpenPlc.Run
