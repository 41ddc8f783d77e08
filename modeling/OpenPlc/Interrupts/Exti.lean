import Mathlib.Data.Fintype.Basic
import Mathlib.Logic.Function.Basic
import OpenPlc.Lib.Run

/-! The external interrupts (`interrupt.cpp`): sixteen lines, each with one callback, share the vectors of the
interrupt controller. -/
namespace OpenPlc.Interrupts

/-- The vectors of the families with `EXTI9_5` and `EXTI15_10`. -/
inductive IRQn where
  | EXTI0
  | EXTI1
  | EXTI2
  | EXTI3
  | EXTI4
  | EXTI9_5
  | EXTI15_10
  deriving DecidableEq

def irqnb : Fin 16 → IRQn
  | 0 => .EXTI0
  | 1 => .EXTI1
  | 2 => .EXTI2
  | 3 => .EXTI3
  | 4 => .EXTI4
  | 5 | 6 | 7 | 8 | 9 => .EXTI9_5
  | _ => .EXTI15_10

/-- The loop of `get_pin_id`, which takes no more than sixteen rounds unless no bit of the pin is set. -/
def pinId : Nat → UInt16 → Nat → Option Nat
  | 0,_,_ => none
  | fuel + 1,pin,id => if pin ≠ 1 then pinId fuel (pin >>> 1) (id + 1) else some id

def getPinId (pin : UInt16) : Option Nat := pinId 16 pin 0

/-- `GPIO_PIN_0` to `GPIO_PIN_15`. -/
def gpioPin (id : Fin 16) : UInt16 := 1 <<< UInt16.ofNat id

/-- The callbacks of the table, the lines that are not masked and the vectors that are enabled. -/
structure Exti (V C : Type) where
  callback : Fin 16 → Option C
  unmasked : Fin 16 → Bool
  enabled : V → Bool

def Exti.reset {V C : Type} : Exti V C := ⟨fun _ => none,fun _ => false,fun _ => false⟩

inductive Event (C : Type) where
  | enable (id : Fin 16) (callback : C)
  | disable (id : Fin 16)

section Booked
variable {V C : Type}

/-- The lines that are not masked are those with a callback, and so are the vectors that are enabled. -/
structure Booked (table : Fin 16 → V) (s : Exti V C) : Prop where
  line : ∀ i, s.unmasked i = true ↔ (s.callback i).isSome
  vector : ∀ v, s.enabled v = true ↔ ∃ i, table i = v ∧ (s.callback i).isSome

/-- No other pin of the group has a callback. -/
def Alone (table : Fin 16 → V) (s : Exti V C) (id : Fin 16) : Prop :=
  ∀ i, i ≠ id → table i = table id → s.callback i = none

/-- A pin with a callback is disabled when it is the last one of its vector. -/
def LastOut (table : Fin 16 → V) (s : Exti V C) : Event C → Prop
  | .enable _ _ => True
  | .disable id => (s.callback id).isSome → Alone table s id

theorem reset_booked (table : Fin 16 → V) : Booked table (Exti.reset : Exti V C) := by
  constructor
  · exact fun i => iff_of_false nofun nofun
  · exact fun v => iff_of_false nofun (fun ⟨i,_,set⟩ => absurd set nofun)

end Booked

section Exti
variable {V C : Type} [DecidableEq V]

/-- The pin is configured for interrupts first, which unmasks its line. The pull, the speed and the priority that are
handed over with it are left out. -/
def enable (table : Fin 16 → V) (s : Exti V C) (id : Fin 16) (callback : C) : Exti V C :=
  { unmasked := Function.update s.unmasked id true, callback := Function.update s.callback id (some callback),
    enabled := Function.update s.enabled (table id) true }

def disable (table : Fin 16 → V) (s : Exti V C) (id : Fin 16) : Exti V C :=
  let s := {s with callback := Function.update s.callback id none}
  if (List.finRange 16).any fun i => table id = table i ∧ (s.callback i).isSome then s
  else {s with unmasked := Function.update s.unmasked id false, enabled := Function.update s.enabled (table id) false}

/-- `none` where `get_pin_id` does not come to an end or reads beyond the table. -/
def slot (pin : UInt16) : Option (Fin 16) :=
  (getPinId pin).bind fun id => if inside : id < 16 then some ⟨id,inside⟩ else none

def stm32InterruptEnable (table : Fin 16 → V) (s : Exti V C) (pin : UInt16) (callback : C) : Option (Exti V C) :=
  (slot pin).map fun id => enable table s id callback

def stm32InterruptDisable (table : Fin 16 → V) (s : Exti V C) (pin : UInt16) : Option (Exti V C) :=
  (slot pin).map fun id => disable table s id

def Exti.step (table : Fin 16 → V) (s : Exti V C) : Event C → Option (Exti V C)
  | .enable id callback => stm32InterruptEnable table s (gpioPin id) callback
  | .disable id => stm32InterruptDisable table s (gpioPin id)

theorem slot_gpioPin (id : Fin 16) : slot (gpioPin id) = some id := by
  revert id
  decide

theorem enable_booked (table : Fin 16 → V) (s : Exti V C) (id : Fin 16) (callback : C) (booked : Booked table s) :
    Booked table (enable table s id callback) := by
  constructor
  · intro i
    by_cases same : i = id
    · subst same
      simp [enable]
    · simp only [enable,Function.update_of_ne same]
      exact booked.line i
  · intro v
    by_cases same : v = table id
    · subst same
      simp only [enable,Function.update_self,true_iff]
      exact ⟨id,rfl,by simp⟩
    · simp only [enable,Function.update_of_ne same]
      rw [booked.vector v]
      apply exists_congr
      intro i
      by_cases own : i = id
      · subst own
        simp [Ne.symm same]
      · rw [Function.update_of_ne own]

theorem others_iff (table : Fin 16 → V) (s : Exti V C) (id : Fin 16) :
    ((List.finRange 16).any fun i => table id = table i ∧ (Function.update s.callback id none i).isSome) = false ↔
      Alone table s id := by
  simp only [List.any_eq_false,List.mem_finRange,decide_eq_true_eq,true_imp_iff,Alone]
  constructor
  · intro empty i different same
    have nothing := empty i
    rw [Function.update_of_ne different] at nothing
    exact Option.not_isSome_iff_eq_none.mp fun set => nothing ⟨same.symm,set⟩
  · rintro alone i ⟨same,set⟩
    by_cases own : i = id
    · subst own
      simp at set
    · rw [Function.update_of_ne own,alone i own same.symm] at set
      contradiction

theorem disable_alone (table : Fin 16 → V) (s : Exti V C) (id : Fin 16) (booked : Booked table s)
    (alone : Alone table s id) : Booked table (disable table s id) := by
  simp only [disable,(others_iff table s id).mpr alone,Bool.false_eq_true,if_false]
  constructor
  · intro i
    by_cases own : i = id
    · subst own
      simp
    · simp only [Function.update_of_ne own]
      exact booked.line i
  · intro v
    by_cases same : v = table id
    · subst same
      simp only [Function.update_self,Bool.false_eq_true,false_iff,not_exists,not_and]
      intro i shared
      by_cases own : i = id
      · subst own
        simp
      · simp [Function.update_of_ne own,alone i own shared]
    · simp only [Function.update_of_ne same]
      rw [booked.vector v]
      apply exists_congr
      intro i
      by_cases own : i = id
      · subst own
        simp [Ne.symm same]
      · rw [Function.update_of_ne own]

theorem disable_accompanied (table : Fin 16 → V) (s : Exti V C) (id : Fin 16) (accompanied : ¬ Alone table s id) :
    disable table s id = {s with callback := Function.update s.callback id none} := by
  have found := Bool.eq_true_of_not_eq_false (mt (others_iff table s id).mp accompanied)
  simp only [disable,found,if_true]

theorem disable_booked (table : Fin 16 → V) (s : Exti V C) (id : Fin 16) (booked : Booked table s) :
    Booked table (disable table s id) ↔ LastOut table s (.disable id) := by
  constructor
  · intro after set
    by_contra accompanied
    rw [disable_accompanied table s id accompanied] at after
    have line := (after.line id).mp ((booked.line id).mpr set)
    simp at line
  · intro last
    by_cases alone : Alone table s id
    · exact disable_alone table s id booked alone
    · have empty : s.callback id = none := Option.not_isSome_iff_eq_none.mp (mt last alone)
      rw [disable_accompanied table s id alone]
      have unchanged : Function.update s.callback id none = s.callback := by
        rw [← empty]
        exact Function.update_eq_self id s.callback
      rw [unchanged]
      exact booked

theorem step_booked (table : Fin 16 → V) (s next : Exti V C) (event : Event C) (booked : Booked table s)
    (taken : s.step table event = some next) : Booked table next ↔ LastOut table s event := by
  cases event with
  | enable id callback =>
    simp only [Exti.step,stm32InterruptEnable,slot_gpioPin,Option.map_some,Option.some.injEq] at taken
    subst taken
    exact iff_of_true (enable_booked table s id callback booked) trivial
  | disable id =>
    simp only [Exti.step,stm32InterruptDisable,slot_gpioPin,Option.map_some,Option.some.injEq] at taken
    subst taken
    exact disable_booked table s id booked

/-- Whatever the vectors are, the books agree throughout a run exactly when each pin is disabled as the last one of its
vector. -/
theorem booked_iff (table : Fin 16 → V) (events : List (Event C)) :
    Run.Throughout (Booked table) (Exti.step table) .reset events ↔
      Run.Meets (LastOut table) (Exti.step table) .reset events := by
  apply Run.throughout_iff_meets _ (Booked table) (LastOut table) (fun s booked => booked)
  · exact fun s event next booked last taken => (step_booked table s next event booked taken).mpr last
  · exact fun s event next booked first taken after => first ((step_booked table s next event booked taken).mp after)
  · exact reset_booked table

theorem exti_booked (events : List (Event C)) :
    Run.Throughout (Booked irqnb) (Exti.step irqnb) .reset events ↔
      Run.Meets (LastOut irqnb) (Exti.step irqnb) .reset events := booked_iff irqnb events

end Exti

/-- The line of pin 5 is left unmasked when the pin is disabled before pin 6. -/
theorem line_left :
    ∃ s : Exti IRQn Unit, Run.after (Exti.step irqnb) .reset [.enable 5 (),.enable 6 (),.disable 5] = some s ∧
      s.callback 5 = none ∧ s.unmasked 5 = true ∧ ¬ Booked irqnb s := by
  refine ⟨_,rfl,?_,?_,?_⟩
  · decide
  · decide
  · intro booked
    exact absurd ((booked.line 5).mp (by decide)) (by decide)

end OpenPlc.Interrupts
