import OpenPlc.Spi.Spi

/-! The table of settings over every sequence of calls. -/
namespace OpenPlc.Spi

variable {board : Board}

/-- No pin has two slots, there are no more than the table has, and a free slot holds the
defaults. -/
structure Table (s : State board) : Prop where
  distinct : Slots.Distinct (-1) (keys s)
  bounded : (List.finRange board.nbSpiSettings).countP (fun i => keys s i ≠ -1) ≤ board.nbSpiSettings
  free : ∀ i, keys s i = -1 → s.spiSettings i = .init

/-- The slots that are given back receive what is transferred. -/
def Receives (s : State board) : Event → Prop
  | .endTransaction pin =>
    rejected board pin = false → ∀ i, keys s i = pin.toNat → (s.spiSettings i).noReceive = false
  | .finish => ∀ i, (s.spiSettings i).noReceive = false
  | _ => True

/-- A slot gets new settings for its pin, or is given to a pin that has none. -/
def Put (s : State board) (settings : Fin board.nbSpiSettings → SPISettings) : Prop :=
  settings = s.spiSettings ∨
    ∃ (pin : UInt8) (i : Fin board.nbSpiSettings) (slot : SPISettings), rejected board pin = false ∧ slot.pinCS = pin.toNat ∧
      (keys s i = pin.toNat ∨ Slots.find (keys s) pin.toNat = none ∧ keys s i = -1) ∧
      settings = Function.update s.spiSettings i slot

theorem pinIdx_some (s : State board) (pin : UInt8) (i : Fin board.nbSpiSettings) (found : pinIdx s pin = some i) :
    rejected board pin = false ∧ keys s i = pin.toNat := by
  unfold pinIdx at found
  split at found
  · contradiction
  · rename_i admitted
    exact ⟨by simpa using admitted,Slots.find_some i found⟩

theorem pinIdxAdd_some (s t : State board) (pin : UInt8) (i : Fin board.nbSpiSettings)
    (found : pinIdxAdd s pin = (t,some i)) :
    rejected board pin = false ∧
      (keys s i = pin.toNat ∧ t = s ∨
        (Slots.find (keys s) pin.toNat = none ∧ keys s i = -1) ∧ t = setSlot s i fun slot => {slot with pinCS := pin.toNat}) := by
  unfold pinIdxAdd at found
  split at found
  · simp at found
  · rename_i admitted
    refine ⟨by simpa using admitted,?_⟩
    split at found
    · rename_i j owned
      obtain ⟨rfl,same⟩ := Prod.mk.inj found
      obtain rfl := Option.some.inj same
      exact Or.inl ⟨Slots.find_some j owned,rfl⟩
    · rename_i missing
      split at found
      · rename_i j free
        obtain ⟨rfl,same⟩ := Prod.mk.inj found
        obtain rfl := Option.some.inj same
        exact Or.inr ⟨⟨missing,Slots.find_some j free⟩,rfl⟩
      · simp at found

theorem pinIdxAdd_none (s t : State board) (pin : UInt8) (missing : pinIdxAdd s pin = (t,none)) : t = s := by
  unfold pinIdxAdd at missing
  split at missing
  · exact (Prod.mk.inj missing).1.symm
  · split at missing
    · simp at missing
    · split at missing
      · simp at missing
      · exact (Prod.mk.inj missing).1.symm

@[simp] theorem release_settings (s : State board) (pin : UInt8) : (release s pin).spiSettings = s.spiSettings := by
  unfold release
  split <;> rfl

theorem clock_eq (s : State board) (i : Fin board.nbSpiSettings) (pin : UInt8) (tx rx : List UInt8) (mode : SPITransferMode)
    (bus : Bus) : ∃ level sent, (clock s i pin tx rx mode bus).1 = { s with
      level := level,
      clocked := s.clocked ++ [⟨pin,s.configuration,s.spiSettings i,
        s.output pin && (managed board pin || !s.level pin),sent⟩] } := by
  unfold clock
  cases managed board pin with
  | false => exact ⟨s.level,_,rfl⟩
  | true =>
    by_cases last : mode = .last
    · exact ⟨_,_,by simp only [last,and_self,if_true,digitalWrite,Function.update_self,Bool.not_false,Bool.true_or]; rfl⟩
    · exact ⟨_,_,by simp only [last,and_false,if_true,if_false,digitalWrite,Function.update_self,Bool.not_false,Bool.true_or]; rfl⟩

@[simp] theorem transferSlot_settings (s : State board) (i : Fin board.nbSpiSettings) (pin : UInt8) (tx rx : List UInt8)
    (mode : SPITransferMode) (bus : Bus) : (transferSlot s i pin tx rx mode bus).1.spiSettings = s.spiSettings := by
  obtain ⟨level,sent,same⟩ := clock_eq (configure s i pin) i pin tx rx mode bus
  rw [transferSlot,same]
  unfold configure
  split <;> rfl

theorem change_put (s : State board) (pin : UInt8) (f : SPISettings → SPISettings) (kept : ∀ slot, (f slot).pinCS = slot.pinCS) :
    Put s (change s pin f).spiSettings := by
  unfold change
  split
  · exact Or.inl rfl
  · rename_i i found
    obtain ⟨admitted,owned⟩ := pinIdx_some s pin i found
    exact Or.inr ⟨pin,i,f (s.spiSettings i),admitted,(kept _).trans owned,Or.inl owned,rfl⟩

theorem begin_put (s : State board) (pin : UInt8) : Put s (begin s pin).spiSettings := by
  unfold begin
  split
  · rename_i t missing
    rw [pinIdxAdd_none s t pin missing]
    exact Or.inl rfl
  · rename_i t i found
    obtain ⟨admitted,⟨_,rfl⟩ | ⟨free,rfl⟩⟩ := pinIdxAdd_some s t pin i found
    · exact Or.inl (release_settings t pin)
    · refine Or.inr ⟨pin,i,_,admitted,?_,Or.inr free,release_settings _ pin⟩
      rfl

theorem beginTransaction_put (s : State board) (pin : UInt8) (settings : SPISettings) :
    Put s (beginTransaction s pin settings).spiSettings := by
  unfold beginTransaction
  split
  · rename_i t missing
    rw [pinIdxAdd_none s t pin missing]
    exact Or.inl rfl
  · rename_i t i found
    obtain ⟨admitted,⟨owned,rfl⟩ | ⟨free,rfl⟩⟩ := pinIdxAdd_some s t pin i found
    · exact Or.inr ⟨pin,i,given settings (t.spiSettings i),admitted,owned,Or.inl owned,release_settings _ pin⟩
    · refine Or.inr ⟨pin,i,given settings {s.spiSettings i with pinCS := pin.toNat},admitted,rfl,Or.inr free,?_⟩
      exact (release_settings _ pin).trans (by simp [setSlot])

theorem step_settings (s next : State board) (event : Event) (taken : step s event = some next) :
    match event with
    | .endTransaction pin => next.spiSettings = (removePin s pin).spiSettings
    | .finish => next.spiSettings = (removeAllPin s).spiSettings
    | _ => Put s next.spiSettings := by
  cases event with
  | begin pin =>
    cases Option.some.inj taken
    exact begin_put s pin
  | beginTransaction pin settings =>
    cases Option.some.inj taken
    exact beginTransaction_put s pin settings
  | endTransaction pin =>
    cases Option.some.inj taken
    rfl
  | finish =>
    cases Option.some.inj taken
    rfl
  | setBitOrder pin bitOrder =>
    cases Option.some.inj taken
    exact change_put s pin _ fun _ => rfl
  | setDataMode pin mode =>
    cases Option.some.inj taken
    exact change_put s pin _ fun _ => rfl
  | setClockDivider pin divider =>
    cases Option.some.inj taken
    exact change_put s pin _ fun _ => rfl
  | transfer pin data mode bus =>
    cases Option.some.inj taken
    left
    unfold transfer
    split
    · rfl
    · exact transferSlot_settings ..
  | transfer16 pin data mode bus =>
    cases Option.some.inj taken
    left
    unfold transfer16
    split
    · rfl
    · exact transferSlot_settings ..
  | transferBuffer pin buf mode bus =>
    cases Option.some.inj taken
    left
    unfold transferBuffer
    split
    · rfl
    · split
      · rfl
      · exact transferSlot_settings ..
  | transferBuffers pin bufout bufin mode bus =>
    cases Option.some.inj taken
    left
    unfold transferBuffers
    split
    · rfl
    · split
      · rfl
      · exact transferSlot_settings ..

theorem keys_removePin (s : State board) (pin : UInt8) (i : Fin board.nbSpiSettings) :
    keys (removePin s pin) i = -1 ∨ keys (removePin s pin) i = keys s i := by
  unfold removePin
  split
  · exact Or.inr rfl
  · simp only [keys]
    split
    · exact Or.inl rfl
    · exact Or.inr rfl

theorem put_distinct (s : State board) (settings : Fin board.nbSpiSettings → SPISettings) (put_ : Put s settings)
    (distinct : Slots.Distinct (-1) (keys s)) : Slots.Distinct (-1) fun i => (settings i).pinCS := by
  obtain rfl | ⟨pin,i,slot,_,named,place,rfl⟩ := put_
  · exact distinct
  · have taken : (fun j => (Function.update s.spiSettings i slot j).pinCS) = Function.update (keys s) i pin.toNat := by
      ext j
      rw [Function.update_apply,Function.update_apply]
      split
      · exact named
      · rfl
    rw [taken]
    rcases place with owned | ⟨missing,_⟩
    · rw [← owned,Function.update_eq_self]
      exact distinct
    · exact Slots.distinct_take distinct missing i

/-- No call gives a pin a second slot. -/
theorem distinct_step (s : State board) (event : Event) (next : State board) (distinct : Slots.Distinct (-1) (keys s))
    (taken : step s event = some next) : Slots.Distinct (-1) (keys next) := by
  have settings := step_settings s next event taken
  cases event with
  | endTransaction pin =>
    apply Slots.distinct_release distinct
    intro i
    rw [show keys next i = keys (removePin s pin) i from congrArg SPISettings.pinCS (congrFun settings i)]
    exact keys_removePin s pin i
  | finish =>
    apply Slots.distinct_release distinct
    intro i
    exact Or.inl (congrArg SPISettings.pinCS (congrFun settings i))
  | _ => exact put_distinct s next.spiSettings settings distinct

theorem put_free (s : State board) (settings : Fin board.nbSpiSettings → SPISettings) (put_ : Put s settings)
    (free : ∀ i, keys s i = -1 → s.spiSettings i = .init) (i : Fin board.nbSpiSettings) (open_ : (settings i).pinCS = -1) :
    settings i = .init := by
  obtain rfl | ⟨pin,j,slot,_,named,_,rfl⟩ := put_
  · exact free i open_
  · rw [Function.update_apply] at open_ ⊢
    split at open_
    · omega
    · rename_i other
      rw [if_neg other]
      exact free i open_

theorem freed_init (slot : SPISettings) (receives : slot.noReceive = false) : freed slot = .init := by
  simp [freed,SPISettings.init,receives]

theorem start_table : Table (start board) :=
  { distinct := Slots.distinct_free
    bounded := List.countP_le_length.trans (Nat.le_of_eq List.length_finRange)
    free := fun _ _ => rfl }

theorem table_step (s : State board) (event : Event) (next : State board) (table : Table s) (receives : Receives s event)
    (taken : step s event = some next) : Table next := by
  refine ⟨distinct_step s event next table.distinct taken,
    List.countP_le_length.trans (Nat.le_of_eq List.length_finRange),?_⟩
  intro i open_
  have settings := step_settings s next event taken
  cases event with
  | endTransaction pin =>
    simp only at settings
    rw [keys,settings] at open_
    rw [settings]
    unfold removePin at open_ ⊢
    split
    · rename_i refused
      rw [if_pos refused] at open_
      exact table.free i open_
    · rename_i admitted
      rw [if_neg admitted] at open_
      simp only at open_ ⊢
      split
      · rename_i owned
        exact freed_init _ (receives (by simpa using admitted) i owned)
      · rename_i other
        rw [if_neg other] at open_
        exact table.free i open_
  | finish =>
    simp only at settings
    rw [settings]
    exact freed_init _ (receives i)
  | _ => exact put_free s next.spiSettings settings table.free i open_

/-- A slot that is given back while it does not receive keeps that for its next owner. -/
theorem unreceiving_breaks (s : State board) (event : Event) (next : State board) (_ : Table s)
    (deaf : ¬ Receives s event) (taken : step s event = some next) : ¬ Table next := by
  intro table
  have settings := step_settings s next event taken
  cases event with
  | endTransaction pin =>
    apply deaf
    intro admitted i owned
    have settings : next.spiSettings i = freed (s.spiSettings i) := by
      simp only at settings
      have named : (s.spiSettings i).pinCS = pin.toNat := owned
      simp [settings,removePin,admitted,named]
    have default := table.free i (by rw [keys,settings]; rfl)
    rw [settings] at default
    exact congrArg SPISettings.noReceive default
  | finish =>
    apply deaf
    intro i
    have settings : next.spiSettings i = freed (s.spiSettings i) := congrFun settings i
    have default := table.free i (by rw [keys,settings]; rfl)
    rw [settings] at default
    exact congrArg SPISettings.noReceive default
  | _ => exact deaf trivial

/-- The table is kept in exactly the runs in which no slot is given back that does not
receive. -/
theorem table_iff_receives (board : Board) (events : List Event) :
    Run.Throughout Table step (start board) events ↔ Run.Meets Receives step (start board) events :=
  Run.throughout_iff_meets Table Table Receives (fun _ table => table) table_step unreceiving_breaks (start board) events
    start_table

/-- Four slots on the board of the PLC, which has 140 digital pins. -/
def plcBoard : Board :=
  { numDigitalPins := 140, digitalPinIsValid := fun _ => false, nbSpiSettings := 4, ssel := false, clkFreq := 120000000 }

/-- A device that only sends, and after it one that begins with the defaults. -/
theorem deaf_slot_left : ¬ Run.Throughout Table step (start plcBoard)
    [.beginTransaction 10 (.make 4000000 .msbFirst 0 true),.endTransaction 10] := by
  intro holds
  obtain ⟨s,reached,free,deaf⟩ : ∃ s, Run.after step (start plcBoard)
      [.beginTransaction 10 (.make 4000000 .msbFirst 0 true),.endTransaction 10] = some s ∧
      keys s ⟨0,by decide⟩ = -1 ∧ (s.spiSettings ⟨0,by decide⟩).noReceive = true := ⟨_,rfl,by decide,by decide⟩
  have default := (holds _ s (List.prefix_refl _) reached).free _ free
  rw [default] at deaf
  exact absurd deaf (by decide)

end OpenPlc.Spi
