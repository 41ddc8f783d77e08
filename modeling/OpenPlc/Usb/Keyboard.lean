import Mathlib.Data.List.FinRange
import Mathlib.Logic.Function.Basic
import OpenPlc.Lib.Run

/-! The report of the USB keyboard (`Keyboard.cpp`): six slots for the codes of the keys that are down, and the bits of
the modifiers. -/
namespace OpenPlc.Usb.Keyboard

structure KeyReport where
  modifiers : BitVec 8
  keys : Fin 6 → UInt8

/-- With the flag that `setWriteError` sets. -/
structure State where
  keyReport : KeyReport
  writeError : Bool

def shift : UInt8 := 0x80

/-- `_asciimap`, in which `shift` marks the characters that are reached with the shift key. -/
def asciimap : List UInt8 :=
  [0x00,0x00,0x00,0x00,0x00,0x00,0x00,0x00,0x2a,0x2b,0x28,0x00,0x00,0x00,0x00,0x00,
   0x00,0x00,0x00,0x00,0x00,0x00,0x00,0x00,0x00,0x00,0x00,0x00,0x00,0x00,0x00,0x00,
   0x2c,0x9e,0xb4,0xa0,0xa1,0xa2,0xa4,0x34,0xa6,0xa7,0xa5,0xae,0x36,0x2d,0x37,0x38,
   0x27,0x1e,0x1f,0x20,0x21,0x22,0x23,0x24,0x25,0x26,0xb3,0x33,0xb6,0x2e,0xb7,0xb8,
   0x9f,0x84,0x85,0x86,0x87,0x88,0x89,0x8a,0x8b,0x8c,0x8d,0x8e,0x8f,0x90,0x91,0x92,
   0x93,0x94,0x95,0x96,0x97,0x98,0x99,0x9a,0x9b,0x9c,0x9d,0x2f,0x31,0x30,0xa3,0xad,
   0x35,0x04,0x05,0x06,0x07,0x08,0x09,0x0a,0x0b,0x0c,0x0d,0x0e,0x0f,0x10,0x11,0x12,
   0x13,0x14,0x15,0x16,0x17,0x18,0x19,0x1a,0x1b,0x1c,0x1d,0xaf,0xb1,0xb0,0xb5,0x00]

/-- The modifiers and the code of a key, which `press` and `release` find in the same way. A modifier key has no code,
and `none` stands for a character that no key prints. -/
def decode (k : UInt8) : Option (BitVec 8 × UInt8) :=
  if 136 ≤ k then some (0,k - 136)
  else if 128 ≤ k then some (1 <<< (k - 128).toNat,0)
  else
    let k := asciimap[k.toNat]?.getD 0
    if k = 0 then none else if k &&& shift ≠ 0 then some (0x02,k &&& 0x7F) else some (0,k)

def firstEmpty (keys : Fin 6 → UInt8) : Option (Fin 6) := (List.finRange 6).find? fun i => keys i = 0

section Calls
variable (s : State)

/-- The result is that of `press`: whether it is 1. -/
def press (k : UInt8) : State × Bool :=
  match decode k with
  | none => ({s with writeError := true},false)
  | some (bits,code) =>
    let report := {s.keyReport with modifiers := s.keyReport.modifiers ||| bits}
    if ∀ i, report.keys i ≠ code then
      match firstEmpty report.keys with
      | some i => ({s with keyReport := {report with keys := Function.update report.keys i code}},true)
      | none => (⟨report,true⟩,false)
    else ({s with keyReport := report},true)

def release (k : UInt8) : State × Bool :=
  match decode k with
  | none => (s,false)
  | some (bits,code) =>
    let report := {s.keyReport with modifiers := s.keyReport.modifiers &&& ~~~bits}
    let keys : Fin 6 → UInt8 := fun i => if 0 ≠ code ∧ report.keys i = code then 0 else report.keys i
    ({s with keyReport := {report with keys := keys}},true)

def releaseAll : State := {s with keyReport := ⟨0,fun _ => 0⟩}

def write (c : UInt8) : State × Bool := ((release (press s c).1 c).1,(press s c).2)

end Calls

inductive Call where
  | press (k : UInt8)
  | release (k : UInt8)
  | releaseAll
  | write (c : UInt8)

/-- With the keys that were pressed, the call having returned 1, and not released since, and the modifiers of all keys
that ever were. -/
structure Session where
  keyboard : State
  held : List UInt8
  used : BitVec 8

def Session.start : Session := ⟨⟨⟨0,fun _ => 0⟩,false⟩,[],0⟩

def bitsOf (k : UInt8) : BitVec 8 := (decode k).elim 0 Prod.fst

def Session.press (s : Session) (k : UInt8) : Session :=
  if (Keyboard.press s.keyboard k).2 then ⟨(Keyboard.press s.keyboard k).1,k :: s.held,s.used ||| bitsOf k⟩
  else {s with keyboard := (Keyboard.press s.keyboard k).1}

def Session.release (s : Session) (k : UInt8) : Session :=
  {s with keyboard := (Keyboard.release s.keyboard k).1, held := s.held.filter (· ≠ k)}

def Session.step (s : Session) : Call → Option Session
  | .press k => some (s.press k)
  | .release k => some (s.release k)
  | .releaseAll => some {s with keyboard := releaseAll s.keyboard, held := []}
  | .write c => some ((s.press c).release c)

/-- No code is in two slots, and with no key held there is none, and no modifier that a key has set. -/
structure Proper (s : Session) : Prop where
  distinct : ∀ i j, s.keyboard.keyReport.keys i ≠ 0 → s.keyboard.keyReport.keys i = s.keyboard.keyReport.keys j → i = j
  released : s.held = [] → (∀ i, s.keyboard.keyReport.keys i = 0) ∧ s.keyboard.keyReport.modifiers &&& s.used = 0

/-- A press that fails leaves the report as it was. -/
def Untouched (s : Session) (k : UInt8) : Prop :=
  (press s.keyboard k).2 = false → (press s.keyboard k).1.keyReport = s.keyboard.keyReport

def Lawful (s : Session) (call : Call) : Prop :=
  (∀ next, s.step call = some next → Proper next) ∧
    match call with
    | .press k | .write k => Untouched s k
    | .release _ | .releaseAll => True

/-- Where a key is pressed that is not down and finds no slot, its modifiers are set already. -/
def Roomy (s : Session) (k : UInt8) : Prop :=
  ∀ bits code, decode k = some (bits,code) → (∀ i, s.keyboard.keyReport.keys i ≠ code) →
    (∀ i, s.keyboard.keyReport.keys i ≠ 0) → s.keyboard.keyReport.modifiers ||| bits = s.keyboard.keyReport.modifiers

def Fitting (s : Session) : Call → Prop
  | .press k | .write k => Roomy s k
  | .release _ | .releaseAll => True

/-- Everything in the report is there for a key that is held. -/
structure Known (s : Session) : Prop where
  distinct : ∀ i j, s.keyboard.keyReport.keys i ≠ 0 → s.keyboard.keyReport.keys i = s.keyboard.keyReport.keys j → i = j
  keys : ∀ i, s.keyboard.keyReport.keys i ≠ 0 → ∃ k ∈ s.held, ∃ bits, decode k = some (bits,s.keyboard.keyReport.keys i)
  modifiers : ∀ n, s.keyboard.keyReport.modifiers.getLsbD n = true → ∃ k ∈ s.held, (bitsOf k).getLsbD n = true

section Presses
variable {s : Session}

theorem firstEmpty_some {keys : Fin 6 → UInt8} {i : Fin 6} (found : firstEmpty keys = some i) : keys i = 0 := by
  have empty := List.find?_some found
  simpa using empty

theorem firstEmpty_none {keys : Fin 6 → UInt8} (full : firstEmpty keys = none) (i : Fin 6) : keys i ≠ 0 := by
  have none_ := List.find?_eq_none.mp full i (List.mem_finRange i)
  simpa using none_

theorem press_cases (s : State) (k : UInt8) :
    (decode k = none ∧ press s k = ({s with writeError := true},false)) ∨
    ∃ bits code, decode k = some (bits,code) ∧
      ((∃ i, s.keyReport.keys i = code) ∧
          press s k = ({s with keyReport := ⟨s.keyReport.modifiers ||| bits,s.keyReport.keys⟩},true) ∨
        (∀ i, s.keyReport.keys i ≠ code) ∧ (∃ i, s.keyReport.keys i = 0 ∧ press s k =
          ({s with keyReport := ⟨s.keyReport.modifiers ||| bits,Function.update s.keyReport.keys i code⟩},true)) ∨
        (∀ i, s.keyReport.keys i ≠ code) ∧ (∀ i, s.keyReport.keys i ≠ 0) ∧
          press s k = (⟨⟨s.keyReport.modifiers ||| bits,s.keyReport.keys⟩,true⟩,false)) := by
  rw [press]
  cases means : decode k with
  | none => exact Or.inl ⟨rfl,rfl⟩
  | some pair =>
    obtain ⟨bits,code⟩ := pair
    refine Or.inr ⟨bits,code,rfl,?_⟩
    by_cases absent : ∀ i, s.keyReport.keys i ≠ code
    · simp only [if_pos absent]
      cases empty : firstEmpty s.keyReport.keys with
      | some i => exact Or.inr (Or.inl ⟨absent,i,firstEmpty_some empty,rfl⟩)
      | none => exact Or.inr (Or.inr ⟨absent,firstEmpty_none empty,rfl⟩)
    · simp only [if_neg absent]
      obtain ⟨i,present⟩ := not_forall.mp absent
      exact Or.inl ⟨⟨i,Classical.not_not.mp present⟩,trivial⟩

theorem untouched_iff (s : Session) (k : UInt8) : Untouched s k ↔ Roomy s k := by
  rcases press_cases s.keyboard k with
    ⟨none_,fails⟩ | ⟨bits,code,means,⟨⟨i,present⟩,put⟩ | ⟨absent,i,empty,put⟩ | ⟨absent,full,fails⟩⟩
  · refine iff_of_true (fun _ => by rw [fails]) ?_
    intro bits code means
    exact absurd (none_.symm.trans means) (Option.some_ne_none _).symm
  · refine iff_of_true (fun failed => absurd ((congrArg Prod.snd put).symm.trans failed) Bool.noConfusion) ?_
    intro bits' code' means' absent
    cases Option.some.inj (means.symm.trans means')
    exact absurd present (absent i)
  · refine iff_of_true (fun failed => absurd ((congrArg Prod.snd put).symm.trans failed) Bool.noConfusion) ?_
    intro bits' code' _ _ full
    exact absurd empty (full i)
  · rw [Untouched,fails]
    constructor
    · intro same bits' code' means' _ _
      cases Option.some.inj (means.symm.trans means')
      exact congrArg KeyReport.modifiers (same rfl)
    · intro roomy _
      change KeyReport.mk _ _ = _
      rw [roomy bits code means absent full]

theorem bitsOf_eq {k : UInt8} {bits : BitVec 8} {code : UInt8} (means : decode k = some (bits,code)) : bitsOf k = bits := by
  rw [bitsOf,means]
  rfl

theorem Known.pressed (known : Known s) {k : UInt8} {bits : BitVec 8} {code : UInt8} (means : decode k = some (bits,code))
    (n : Nat) (on : (s.keyboard.keyReport.modifiers ||| bits).getLsbD n = true) :
    ∃ key ∈ k :: s.held, (bitsOf key).getLsbD n = true := by
  rw [BitVec.getLsbD_or,Bool.or_eq_true] at on
  rcases on with before | now
  · obtain ⟨key,held,set⟩ := known.modifiers n before
    exact ⟨key,List.mem_cons_of_mem k held,set⟩
  · exact ⟨k,List.mem_cons_self,by rw [bitsOf_eq means]; exact now⟩

theorem Known.press (known : Known s) (k : UInt8) (roomy : Roomy s k) : Known (s.press k) := by
  rcases press_cases s.keyboard k with
    ⟨none_,fails⟩ | ⟨bits,code,means,⟨⟨i,present⟩,put⟩ | ⟨absent,i,empty,put⟩ | ⟨absent,full,fails⟩⟩
  · rw [Session.press,fails,if_neg Bool.false_ne_true]
    exact ⟨known.distinct,known.keys,known.modifiers⟩
  · rw [Session.press,put,if_pos rfl]
    refine ⟨known.distinct,?_,known.pressed means⟩
    intro j some_
    obtain ⟨key,held,codes⟩ := known.keys j some_
    exact ⟨key,List.mem_cons_of_mem k held,codes⟩
  · rw [Session.press,put,if_pos rfl]
    refine ⟨?_,?_,known.pressed means⟩
    · intro a b some_ same
      by_cases first : a = i
      · by_cases second : b = i
        · rw [first,second]
        · simp only [first,Function.update_self,Function.update_of_ne second] at same
          exact absurd same.symm (absent b)
      · by_cases second : b = i
        · simp only [second,Function.update_self,Function.update_of_ne first] at same
          exact absurd same (absent a)
        · simp only [Function.update_of_ne first,Function.update_of_ne second] at some_ same
          exact known.distinct a b some_ same
    · intro j some_
      by_cases here : j = i
      · subst here
        simp only [Function.update_self]
        exact ⟨k,List.mem_cons_self,bits,means⟩
      · simp only [Function.update_of_ne here] at some_ ⊢
        obtain ⟨key,held,codes⟩ := known.keys j some_
        exact ⟨key,List.mem_cons_of_mem k held,codes⟩
  · rw [Session.press,fails,if_neg Bool.false_ne_true]
    refine ⟨known.distinct,known.keys,?_⟩
    change ∀ n, (s.keyboard.keyReport.modifiers ||| bits).getLsbD n = true → _
    rw [roomy bits code means absent full]
    exact known.modifiers

theorem Known.release (known : Known s) (k : UInt8) : Known (s.release k) := by
  have other {key : UInt8} (held : key ∈ s.held) (apart : key ≠ k) : key ∈ s.held.filter (· ≠ k) :=
    List.mem_filter.mpr ⟨held,by simpa using apart⟩
  cases means : decode k with
  | none =>
    have kept : Keyboard.release s.keyboard k = (s.keyboard,false) := by rw [Keyboard.release,means]
    rw [Session.release,kept]
    refine ⟨known.distinct,?_,?_⟩
    · intro i some_
      obtain ⟨key,held,bits,codes⟩ := known.keys i some_
      refine ⟨key,other held ?_,bits,codes⟩
      rintro rfl
      exact absurd (means.symm.trans codes) (Option.some_ne_none _).symm
    · intro n on
      obtain ⟨key,held,set⟩ := known.modifiers n on
      refine ⟨key,other held ?_,set⟩
      rintro rfl
      rw [bitsOf,means] at set
      exact absurd set (by simp)
  | some pair =>
    obtain ⟨bits,code⟩ := pair
    have slot {i : Fin 6} (some_ : (s.release k).keyboard.keyReport.keys i ≠ 0) :
        (s.release k).keyboard.keyReport.keys i = s.keyboard.keyReport.keys i ∧
          ¬ (0 ≠ code ∧ s.keyboard.keyReport.keys i = code) := by
      simp only [Session.release,Keyboard.release,means] at some_ ⊢
      split
      · rename_i cleared
        exact absurd (if_pos cleared) some_
      · rename_i kept
        exact ⟨rfl,kept⟩
    refine ⟨?_,?_,?_⟩
    · intro i j some_ same
      have too := slot (same ▸ some_ : (s.release k).keyboard.keyReport.keys j ≠ 0)
      rw [too.1,(slot some_).1] at same
      rw [(slot some_).1] at some_
      exact known.distinct i j some_ same
    · intro i some_
      obtain ⟨kept,uncleared⟩ := slot some_
      rw [kept] at some_ ⊢
      obtain ⟨key,held,bits',codes⟩ := known.keys i some_
      refine ⟨key,other held ?_,bits',codes⟩
      rintro rfl
      cases Option.some.inj (means.symm.trans codes)
      exact uncleared ⟨some_.symm,rfl⟩
    · intro n on
      simp only [Session.release,Keyboard.release,means,BitVec.getLsbD_and,Bool.and_eq_true] at on
      obtain ⟨key,held,set⟩ := known.modifiers n on.1
      refine ⟨key,other held ?_,set⟩
      rintro rfl
      rw [bitsOf_eq means] at set
      simp [BitVec.getLsbD_not,set] at on

theorem Known.proper (known : Known s) : Proper s := by
  refine ⟨known.distinct,?_⟩
  intro none_
  constructor
  · intro i
    by_contra some_
    obtain ⟨key,held,_⟩ := known.keys i some_
    rw [none_] at held
    exact List.not_mem_nil held
  · have clear : s.keyboard.keyReport.modifiers = 0 := by
      apply BitVec.eq_of_getLsbD_eq
      intro n _
      have zero : (0 : BitVec 8).getLsbD n = false := by simp
      rw [zero]
      by_contra on
      obtain ⟨key,held,_⟩ := known.modifiers n (Bool.eq_true_of_not_eq_false on)
      rw [none_] at held
      exact List.not_mem_nil held
    rw [clear]
    exact BitVec.zero_and

theorem Known.step (known : Known s) (call : Call) (next : Session) (fitting : Fitting s call)
    (taken : s.step call = some next) : Known next := by
  cases call with
  | press k =>
    cases Option.some.inj taken
    exact known.press k fitting
  | release k =>
    cases Option.some.inj taken
    exact known.release k
  | releaseAll =>
    cases Option.some.inj taken
    exact ⟨fun _ _ some_ => absurd rfl some_,fun _ some_ => absurd rfl some_,fun n on => absurd on (by simp [releaseAll])⟩
  | write c =>
    cases Option.some.inj taken
    exact (known.press c fitting).release c

end Presses

/-- The report keeps to the keys that are held, exactly if no key is pressed without a slot for it while its modifier is
not set. -/
theorem report_iff (calls : List Call) :
    Run.Meets Lawful Session.step Session.start calls ↔ Run.Meets Fitting Session.step Session.start calls := by
  apply Run.meets_iff Known
  · intro s call next known taken
    constructor
    · rintro ⟨_,law⟩
      cases call with
      | press k => exact (untouched_iff s k).mp law
      | write c => exact (untouched_iff s c).mp law
      | release k => trivial
      | releaseAll => trivial
    · intro fitting
      refine ⟨fun next taken => (known.step call next fitting taken).proper,?_⟩
      cases call with
      | press k => exact (untouched_iff s k).mpr fitting
      | write c => exact (untouched_iff s c).mpr fitting
      | release k => trivial
      | releaseAll => trivial
  · intro s call next known
    exact known.step call next
  · exact ⟨fun _ _ some_ => absurd rfl some_,fun _ some_ => absurd rfl some_,fun n on => absurd on (by simp [Session.start])⟩

/-- A capital letter as the seventh key leaves the shift key behind. -/
theorem shift_left : ¬ Run.Meets Lawful Session.step Session.start
    [.press 97,.press 98,.press 99,.press 100,.press 101,.press 102,.press 71] := by
  intro meets
  obtain ⟨_,meets⟩ := meets _ rfl
  obtain ⟨_,meets⟩ := meets _ rfl
  obtain ⟨_,meets⟩ := meets _ rfl
  obtain ⟨_,meets⟩ := meets _ rfl
  obtain ⟨_,meets⟩ := meets _ rfl
  obtain ⟨_,meets⟩ := meets _ rfl
  obtain ⟨⟨_,untouched⟩,_⟩ := meets _ rfl
  have kept := congrArg KeyReport.modifiers (untouched (by decide))
  exact absurd kept (by decide)

end OpenPlc.Usb.Keyboard
