import Mathlib.Data.List.Basic
import Mathlib.Tactic.Common

/-! The U(S)ART that `uart_init` (`uart.c`) finds for the pins of an object, and what it configures then. -/
namespace OpenPlc.Serial.Uart

section Pins
variable {Pin Usart : Type} [DecidableEq Pin] [DecidableEq Usart]

/-- The entries before the one with `NC`. -/
abbrev PinMap (Pin Usart : Type) := List (Pin × Usart)

def pinmapFindPeripheral (pin : Pin) (map : PinMap Pin Usart) : Option Usart := map.lookup pin

/-- `none` is `NC` for a pin and `NP` for a peripheral. -/
def pinmapPeripheral (pin : Option Pin) (map : PinMap Pin Usart) : Option Usart :=
  pin.bind fun pin => pinmapFindPeripheral pin map

def pinmapMergePeripheral (a b : Option Usart) : Option Usart :=
  if a = b then a else if a = none then b else if b = none then a else none

structure PinMaps (Pin Usart : Type) where
  tx : PinMap Pin Usart
  rx : PinMap Pin Usart
  rts : PinMap Pin Usart
  cts : PinMap Pin Usart

structure SerialT (Pin Usart : Type) where
  uart : Option Usart
  pinTx : Option Pin
  pinRx : Option Pin
  pinRts : Option Pin
  pinCts : Option Pin

inductive Action (Pin Usart : Type) where
  | clkEnable (uart : Usart)
  | pinout (pin : Option Pin)
  | init (uart : Usart) (halfDuplex rts cts : Bool)

def uartInit (maps : PinMaps Pin Usart) (obj : SerialT Pin Usart) : SerialT Pin Usart × List (Action Pin Usart) :=
  let uartTx := pinmapPeripheral obj.pinTx maps.tx
  let uartRx := pinmapPeripheral obj.pinRx maps.rx
  let uartRts := pinmapPeripheral obj.pinRts maps.rts
  let uartCts := pinmapPeripheral obj.pinCts maps.cts
  if uartTx = none then (obj,[])
  else if obj.pinRx ≠ none ∧ uartRx = none then (obj,[])
  else if obj.pinRts ≠ none ∧ uartRts = none then (obj,[])
  else if obj.pinCts ≠ none ∧ uartCts = none then (obj,[])
  else
    let uart := pinmapMergePeripheral uartTx uartRx
    let uart := pinmapMergePeripheral uart uartRts
    let uart := pinmapMergePeripheral uart uartCts
    match uart with
    | none => ({obj with uart := none},[])
    | some u => ({obj with uart := some u},[.clkEnable u,.pinout obj.pinTx] ++
        (if uartRx ≠ none then [.pinout obj.pinRx] else []) ++
        (if uartRts ≠ none then [.pinout obj.pinRts] else []) ++
        (if uartCts ≠ none then [.pinout obj.pinCts] else []) ++
        [.init u (uartRx = none) (uartRts ≠ none) (uartCts ≠ none)])

variable (maps : PinMaps Pin Usart) (obj : SerialT Pin Usart)

/-- Each pin that is specified has this peripheral. -/
structure Agree (u : Usart) : Prop where
  tx : obj.pinTx ≠ none → pinmapPeripheral obj.pinTx maps.tx = some u
  rx : obj.pinRx ≠ none → pinmapPeripheral obj.pinRx maps.rx = some u
  rts : obj.pinRts ≠ none → pinmapPeripheral obj.pinRts maps.rts = some u
  cts : obj.pinCts ≠ none → pinmapPeripheral obj.pinCts maps.cts = some u

/-- The object gets the peripheral of all its pins or none, and without such a peripheral nothing is configured. -/
structure Selects : Prop where
  uart : (uartInit maps obj).1.uart ≠ obj.uart → ∀ u, (uartInit maps obj).1.uart = some u → Agree maps obj u
  configures : (∀ u, ¬ Agree maps obj u) → (uartInit maps obj).2 = [] ∧
    ((uartInit maps obj).1.uart = none ∨ (uartInit maps obj).1.uart = obj.uart)

/-- A specified pin has a peripheral. -/
def Mapped (pin : Option Pin) (map : PinMap Pin Usart) : Prop := pin ≠ none → pinmapPeripheral pin map ≠ none

/-- A disagreement that a later pin hides. -/
def Hidden (tx : Usart) (rx rts cts : Option Usart) : Prop :=
  rx ≠ none ∧ rx ≠ some tx ∧ (rts ≠ none ∧ (cts = none ∨ cts = rts) ∨ rts = none ∧ cts ≠ none) ∨
    (rx = none ∨ rx = some tx) ∧ rts ≠ none ∧ rts ≠ some tx ∧ cts ≠ none

def Masked : Prop :=
  ∃ tx, pinmapPeripheral obj.pinTx maps.tx = some tx ∧ Mapped obj.pinRx maps.rx ∧ Mapped obj.pinRts maps.rts ∧
    Mapped obj.pinCts maps.cts ∧ Hidden tx (pinmapPeripheral obj.pinRx maps.rx) (pinmapPeripheral obj.pinRts maps.rts)
      (pinmapPeripheral obj.pinCts maps.cts)

end Pins

section Merge
variable {Usart : Type} {tx : Usart} {rx rts cts : Option Usart}

def Joined (tx : Usart) (uart : Option Usart) : Prop := uart = none ∨ uart = some tx

theorem joined_hidden (first : Joined tx rx) (second : Joined tx rts) : ¬ Hidden tx rx rts cts := by
  grind [Joined,Hidden]

variable [DecidableEq Usart]

/-- The peripherals of the four pins, in the order in which they are merged. -/
def merged (tx : Usart) (rx rts cts : Option Usart) : Option Usart :=
  pinmapMergePeripheral (pinmapMergePeripheral (pinmapMergePeripheral (some tx) rx) rts) cts

theorem merge_joined (joined : Joined tx rx) : pinmapMergePeripheral (some tx) rx = some tx := by
  rcases joined with rfl | rfl <;> simp [pinmapMergePeripheral]

theorem merge_none (uart : Option Usart) : pinmapMergePeripheral none uart = uart := by
  cases uart <;> simp [pinmapMergePeripheral]

theorem merge_apart (apart : ¬ Joined tx rx) : pinmapMergePeripheral (some tx) rx = none := by
  obtain ⟨some_,other⟩ := not_or.mp apart
  rw [pinmapMergePeripheral,if_neg (Ne.symm other),if_neg (Option.some_ne_none tx),if_neg some_]

theorem merged_joined (first : Joined tx rx) (second : Joined tx rts) (third : Joined tx cts) :
    merged tx rx rts cts = some tx := by
  rw [merged,merge_joined first,merge_joined second,merge_joined third]

/-- The merge has a result exactly if all agree, or if the last disagreement is hidden. -/
theorem merged_iff : (∃ u, merged tx rx rts cts = some u) ↔
    Joined tx rx ∧ Joined tx rts ∧ Joined tx cts ∨ Hidden tx rx rts cts := by
  rw [merged]
  by_cases first : Joined tx rx
  · rw [merge_joined first]
    by_cases second : Joined tx rts
    · rw [merge_joined second]
      by_cases third : Joined tx cts
      · rw [merge_joined third]
        exact iff_of_true ⟨tx,rfl⟩ (Or.inl ⟨first,second,third⟩)
      · rw [merge_apart third]
        grind [Joined,Hidden]
    · rw [merge_apart second,merge_none]
      cases cts <;> grind [Joined,Hidden]
  · rw [merge_apart first,merge_none]
    cases rts with
    | none =>
      rw [merge_none]
      cases cts <;> grind [Joined,Hidden]
    | some rts =>
      by_cases third : Joined rts cts
      · rw [merge_joined third]
        grind [Joined,Hidden]
      · rw [merge_apart third]
        grind [Joined,Hidden]

end Merge

section Found
variable {Pin Usart : Type} [DecidableEq Pin] {tx : Usart} {pin : Option Pin} {map : PinMap Pin Usart}

theorem specified (some_ : pinmapPeripheral pin map ≠ none) : pin ≠ none := by
  rintro rfl
  exact some_ rfl

theorem Joined.agrees (joined : Joined tx (pinmapPeripheral pin map)) (mapped : Mapped pin map) (here : pin ≠ none) :
    pinmapPeripheral pin map = some tx :=
  joined.resolve_left (mapped here)

theorem Agree.joined {u : Usart} (agrees : pin ≠ none → pinmapPeripheral pin map = some u) (same : u = tx) :
    Joined tx (pinmapPeripheral pin map) := by
  by_cases none_ : pinmapPeripheral pin map = none
  · exact Or.inl none_
  · exact Or.inr (same ▸ agrees (specified none_))

end Found

section Init
variable {Pin Usart : Type} [DecidableEq Pin] [DecidableEq Usart] {maps : PinMaps Pin Usart} {obj : SerialT Pin Usart}

theorem uartInit_unmapped (unmapped : ¬ (pinmapPeripheral obj.pinTx maps.tx ≠ none ∧ Mapped obj.pinRx maps.rx ∧
    Mapped obj.pinRts maps.rts ∧ Mapped obj.pinCts maps.cts)) : uartInit maps obj = (obj,[]) := by
  rw [uartInit]
  grind [Mapped]

theorem uartInit_mapped {tx : Usart} (found : pinmapPeripheral obj.pinTx maps.tx = some tx) (rx : Mapped obj.pinRx maps.rx)
    (rts : Mapped obj.pinRts maps.rts) (cts : Mapped obj.pinCts maps.cts) :
    (uartInit maps obj).1.uart = merged tx (pinmapPeripheral obj.pinRx maps.rx) (pinmapPeripheral obj.pinRts maps.rts)
        (pinmapPeripheral obj.pinCts maps.cts) ∧
      ((uartInit maps obj).2 = [] ↔ (uartInit maps obj).1.uart = none) := by
  have first : ¬ (obj.pinRx ≠ none ∧ pinmapPeripheral obj.pinRx maps.rx = none) := fun both => rx both.1 both.2
  have second : ¬ (obj.pinRts ≠ none ∧ pinmapPeripheral obj.pinRts maps.rts = none) := fun both => rts both.1 both.2
  have third : ¬ (obj.pinCts ≠ none ∧ pinmapPeripheral obj.pinCts maps.cts = none) := fun both => cts both.1 both.2
  rw [uartInit,found]
  simp only [if_neg (Option.some_ne_none tx),if_neg first,if_neg second,if_neg third]
  rw [← merged]
  cases merged tx (pinmapPeripheral obj.pinRx maps.rx) (pinmapPeripheral obj.pinRts maps.rts)
    (pinmapPeripheral obj.pinCts maps.cts) with
  | none => exact ⟨rfl,iff_of_true rfl rfl⟩
  | some u => exact ⟨rfl,iff_of_false (by simp) (Option.some_ne_none u)⟩

/-- A hidden disagreement configures a peripheral that some pin is not of. -/
theorem masked_selects (masked : Masked maps obj) : ¬ Selects maps obj := by
  obtain ⟨tx,found,rx,rts,cts,hidden⟩ := masked
  obtain ⟨uart,configured⟩ := uartInit_mapped found rx rts cts
  obtain ⟨u,result⟩ := merged_iff.mpr (Or.inr hidden)
  intro selects
  have apart : ∀ u, ¬ Agree maps obj u := by
    intro u agree
    have same : u = tx := by
      have too := agree.tx (specified (found ▸ Option.some_ne_none tx))
      exact Option.some.inj (too.symm.trans found)
    exact joined_hidden (Agree.joined agree.rx same) (Agree.joined agree.rts same) hidden
  have silent := configured.mp (selects.configures apart).1
  rw [uart,result] at silent
  exact Option.some_ne_none u silent

/-- The object gets the peripheral of its pins and nothing else, exactly if no disagreement is hidden. -/
theorem selects_iff (maps : PinMaps Pin Usart) (obj : SerialT Pin Usart) : Selects maps obj ↔ ¬ Masked maps obj := by
  constructor
  · intro selects masked
    exact masked_selects masked selects
  · intro unmasked
    by_cases all : pinmapPeripheral obj.pinTx maps.tx ≠ none ∧ Mapped obj.pinRx maps.rx ∧ Mapped obj.pinRts maps.rts ∧
        Mapped obj.pinCts maps.cts
    · obtain ⟨some_,rx,rts,cts⟩ := all
      obtain ⟨tx,found⟩ := Option.ne_none_iff_exists'.mp some_
      obtain ⟨uart,configured⟩ := uartInit_mapped found rx rts cts
      cases result : merged tx (pinmapPeripheral obj.pinRx maps.rx) (pinmapPeripheral obj.pinRts maps.rts)
          (pinmapPeripheral obj.pinCts maps.cts) with
      | none =>
        rw [result] at uart
        refine ⟨?_,fun _ => ⟨configured.mpr uart,Or.inl uart⟩⟩
        intro _ u some_
        exact absurd (uart.symm.trans some_) (Option.some_ne_none u).symm
      | some u =>
        obtain ⟨first,second,third⟩ | hidden := merged_iff.mp ⟨u,result⟩
        · have agree : Agree maps obj tx := ⟨fun _ => found,first.agrees rx,second.agrees rts,third.agrees cts⟩
          refine ⟨?_,fun apart => absurd agree (apart tx)⟩
          intro _ w given
          rw [uart,merged_joined first second third] at given
          cases Option.some.inj given
          exact agree
        · exact absurd ⟨tx,found,rx,rts,cts,hidden⟩ unmasked
    · have same := uartInit_unmapped all
      refine ⟨?_,fun _ => ⟨congrArg Prod.snd same,?_⟩⟩
      · intro changed
        exact absurd (congrArg (fun result => result.1.uart) same) changed
      · exact Or.inr (congrArg (fun result => result.1.uart) same)

end Init

/-- PD5 is TX of `USART2`, PD9 and PD12 are RX and RTS of `USART3`: the merge of TX and RX is `NP`, and RTS replaces it. -/
def crossed : PinMaps (Char × Nat) Nat where
  tx := [(('D',5),2),(('D',8),3)]
  rx := [(('D',6),2),(('D',9),3)]
  rts := [(('D',4),2),(('D',12),3)]
  cts := [(('D',3),2),(('D',11),3)]

theorem crossed_configured :
    ¬ Selects crossed ⟨none,some ('D',5),some ('D',9),some ('D',12),none⟩ := by
  apply masked_selects
  refine ⟨2,rfl,fun _ => ?_,fun _ => ?_,fun empty => absurd rfl empty,Or.inl ⟨?_,?_,Or.inl ⟨?_,Or.inl rfl⟩⟩⟩ <;>
    decide

end OpenPlc.Serial.Uart
