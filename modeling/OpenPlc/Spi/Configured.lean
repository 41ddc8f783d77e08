import OpenPlc.Spi.Table

/-! Under which settings the transfers clock their data. -/
namespace OpenPlc.Spi

variable {board : Board}

/-- The bytes went out under the settings stored for their pin, and with its CS line low where
the class drives it. -/
structure Clocked.Right (board : Board) (record : Clocked) : Prop where
  configured : record.configuration = some (configurationOf board record.settings)
  selected : managed board record.pin = true → record.selected = true

/-- All that was clocked was right, and it will be after whatever is called next. -/
structure Configured (s : State board) : Prop where
  clocked : ∀ record ∈ s.clocked, record.Right board
  next : ∀ event next, step s event = some next → ∀ record ∈ next.clocked, record.Right board

/-- The peripheral is not given other settings than those of the pin that it is known to be
configured for. -/
def Agrees (s : State board) (pin : UInt8) (f : SPISettings → SPISettings) : Prop :=
  ∀ i j, pinIdx s pin = some i → s.csPinConfig ≠ -1 → keys s j = s.csPinConfig → j ≠ i →
    configurationOf board (s.spiSettings j) = configurationOf board (f (s.spiSettings i))

def Matching (s : State board) : Event → Prop
  | .setBitOrder pin bitOrder => Agrees s pin fun slot => {slot with bOrder := bitOrder}
  | .setDataMode pin mode => Agrees s pin fun slot => {slot with dMode := (spiMode mode).getD slot.dMode}
  | .setClockDivider pin divider =>
    Agrees s pin fun slot => {slot with clk := if divider = 0 then speedClockDefault else board.clkFreq / divider.toNat}
  | _ => True

/-- What is true of the table, the lines and the past. -/
structure Ready (s : State board) : Prop where
  distinct : Slots.Distinct (-1) (keys s)
  admitted : ∀ i, keys s i ≠ -1 → ∃ pin : UInt8, rejected board pin = false ∧ keys s i = pin.toNat
  output : ∀ (pin : UInt8) (i : Fin board.nbSpiSettings), keys s i = pin.toNat → managed board pin = true → s.output pin = true
  clocked : ∀ record ∈ s.clocked, record.Right board

/-- The peripheral has the settings of the pin that it is known to be configured for. -/
structure Sound (s : State board) : Prop extends Ready s where
  cached : s.csPinConfig ≠ -1 →
    ∃ i, keys s i = s.csPinConfig ∧ s.configuration = some (configurationOf board (s.spiSettings i))

theorem start_sound : Sound (start board) :=
  { distinct := Slots.distinct_free
    admitted := fun _ owned => absurd rfl owned
    output := by
      intro pin i owned
      have free : keys (start board) i = -1 := rfl
      omega
    clocked := by simp [start]
    cached := fun known => absurd rfl known }

theorem pinIdx_owned (s : State board) (distinct : Slots.Distinct (-1) (keys s)) (pin : UInt8) (i : Fin board.nbSpiSettings)
    (admitted : rejected board pin = false) (owned : keys s i = pin.toNat) : pinIdx s pin = some i := by
  rw [pinIdx,if_neg (by simp [admitted]),← owned]
  exact Slots.find_of_distinct distinct i (by omega)

theorem opened_sound (s : State board) (pin : UInt8) (i : Fin board.nbSpiSettings) (owned : keys s i = pin.toNat)
    (distinct : Slots.Distinct (-1) (keys s))
    (admitted : ∀ i, keys s i ≠ -1 → ∃ pin : UInt8, rejected board pin = false ∧ keys s i = pin.toNat)
    (output : ∀ (other : UInt8) (j : Fin board.nbSpiSettings), keys s j = other.toNat → other ≠ pin →
      managed board other = true → s.output other = true)
    (clocked : ∀ record ∈ s.clocked, record.Right board) :
    Sound {spiInit (release s pin) i with csPinConfig := pin.toNat} := by
  have table := release_settings s pin
  have same : keys {spiInit (release s pin) i with csPinConfig := (pin.toNat : Int)} = keys s := by
    ext j
    exact congrArg SPISettings.pinCS (congrFun table j)
  refine { distinct := ?_, admitted := ?_, output := ?_, clocked := ?_, cached := ?_ }
  · rw [same]
    exact distinct
  · rw [same]
    exact admitted
  · intro other j theirs driven
    rw [same] at theirs
    change (release s pin).output other = true
    unfold release
    by_cases mine : other = pin
    · rw [← mine,if_pos driven]
      exact Function.update_self ..
    · split
      · exact (Function.update_of_ne mine ..).trans (output other j theirs mine driven)
      · exact output other j theirs mine driven
  · change ∀ record ∈ (release s pin).clocked, record.Right board
    unfold release
    split
    · exact clocked
    · exact clocked
  · intro _
    exact ⟨i,by rw [same,owned],rfl⟩

theorem put_admitted (s : State board) (settings : Fin board.nbSpiSettings → SPISettings) (put_ : Put s settings)
    (admitted : ∀ i, keys s i ≠ -1 → ∃ pin : UInt8, rejected board pin = false ∧ keys s i = pin.toNat)
    (i : Fin board.nbSpiSettings) (owned : (settings i).pinCS ≠ -1) :
    ∃ pin : UInt8, rejected board pin = false ∧ (settings i).pinCS = pin.toNat := by
  obtain rfl | ⟨pin,j,slot,legal,named,_,rfl⟩ := put_
  · exact admitted i owned
  · rw [Function.update_apply] at owned ⊢
    split
    · exact ⟨pin,legal,named⟩
    · rename_i other
      rw [if_neg other] at owned
      exact admitted i owned

theorem configure_sound (s : State board) (i : Fin board.nbSpiSettings) (pin : UInt8) (sound : Sound s)
    (owned : keys s i = pin.toNat) :
    Sound (configure s i pin) ∧ (configure s i pin).configuration = some (configurationOf board (s.spiSettings i)) := by
  unfold configure
  split
  · exact ⟨{ sound with cached := fun _ => ⟨i,owned,rfl⟩ },rfl⟩
  · rename_i known
    refine ⟨sound,?_⟩
    rw [ne_eq,not_not] at known
    obtain ⟨j,found,configured⟩ := sound.cached (by omega)
    have same : i = j := sound.distinct i j (by omega) (by rw [owned,found,known])
    rw [same]
    exact configured

theorem transferSlot_sound (s : State board) (i : Fin board.nbSpiSettings) (pin : UInt8) (tx rx : List UInt8)
    (mode : SPITransferMode) (bus : Bus) (sound : Sound s) (owned : keys s i = pin.toNat) :
    Sound (transferSlot s i pin tx rx mode bus).1 := by
  obtain ⟨ready,configured⟩ := configure_sound s i pin sound owned
  have kept : (configure s i pin).spiSettings = s.spiSettings ∧ (configure s i pin).output = s.output := by
    unfold configure
    split <;> exact ⟨rfl,rfl⟩
  obtain ⟨level,sent,same⟩ := clock_eq (configure s i pin) i pin tx rx mode bus
  rw [transferSlot,same]
  refine { ready with clocked := ?_ }
  intro record among
  rcases List.mem_append.mp among with earlier | last
  · exact ready.clocked record earlier
  · rw [List.mem_singleton.mp last]
    refine ⟨by rw [configured,kept.1],?_⟩
    intro driven
    have line := sound.output pin i owned driven
    simp only at driven ⊢
    rw [kept.2,line,driven]
    rfl

theorem transfers_sound (s next : State board) (event : Event) (sound : Sound s) (taken : step s event = some next)
    (transfers : match event with
      | .transfer .. | .transfer16 .. | .transferBuffer .. | .transferBuffers .. => True
      | _ => False) : Sound next := by
  have owned (pin : UInt8) (i : Fin board.nbSpiSettings) (found : pinIdx s pin = some i) : keys s i = pin.toNat :=
    (pinIdx_some s pin i found).2
  cases event with
  | transfer pin data mode bus =>
    cases Option.some.inj taken
    unfold transfer
    split
    · exact sound
    · rename_i i found
      exact transferSlot_sound s i pin _ _ mode bus sound (owned pin i found)
  | transfer16 pin data mode bus =>
    cases Option.some.inj taken
    unfold transfer16
    split
    · exact sound
    · rename_i i found
      exact transferSlot_sound s i pin _ _ mode bus sound (owned pin i found)
  | transferBuffer pin buf mode bus =>
    cases Option.some.inj taken
    unfold transferBuffer
    split
    · exact sound
    · split
      · exact sound
      · rename_i i found
        exact transferSlot_sound s i pin _ _ mode bus sound (owned pin i found)
  | transferBuffers pin bufout bufin mode bus =>
    cases Option.some.inj taken
    unfold transferBuffers
    split
    · exact sound
    · split
      · exact sound
      · rename_i i found
        exact transferSlot_sound s i pin _ _ mode bus sound (owned pin i found)
  | _ => exact transfers.elim

theorem change_sound (s : State board) (pin : UInt8) (f : SPISettings → SPISettings)
    (named : ∀ slot, (f slot).pinCS = slot.pinCS) (sound : Sound s) (agrees : Agrees s pin f) : Sound (change s pin f) := by
  have distinct := put_distinct s _ (change_put s pin f named) sound.distinct
  have admitted := put_admitted s _ (change_put s pin f named) sound.admitted
  unfold change at distinct admitted ⊢
  split
  · exact sound
  · rename_i i found
    rw [found] at distinct admitted
    have same : keys (spiInit (setSlot s i f) i) = keys s := by
      ext j
      change (Function.update s.spiSettings i (f (s.spiSettings i)) j).pinCS = (s.spiSettings j).pinCS
      rw [Function.update_apply]
      split
      · rename_i here
        rw [here]
        exact named _
      · rfl
    refine { distinct := distinct, admitted := admitted, output := ?_, clocked := sound.clocked, cached := ?_ }
    · intro other j theirs driven
      rw [same] at theirs
      exact sound.output other j theirs driven
    · intro known
      obtain ⟨j,cached,configured⟩ := sound.cached known
      refine ⟨j,by rw [same]; exact cached,?_⟩
      change some (configurationOf board (Function.update s.spiSettings i (f (s.spiSettings i)) i)) =
        some (configurationOf board (Function.update s.spiSettings i (f (s.spiSettings i)) j))
      by_cases here : j = i
      · rw [here]
      · rw [Function.update_self,Function.update_of_ne here,agrees i j found known cached here]

theorem placed_sound (s : State board) (pin : UInt8) (i : Fin board.nbSpiSettings) (slot : SPISettings) (sound : Sound s)
    (legal : rejected board pin = false) (named : slot.pinCS = pin.toNat)
    (place : keys s i = pin.toNat ∨ Slots.find (keys s) pin.toNat = none ∧ keys s i = -1) :
    Sound {spiInit (release {s with spiSettings := Function.update s.spiSettings i slot} pin) i with
      csPinConfig := pin.toNat} := by
  have put_ : Put s (Function.update s.spiSettings i slot) := Or.inr ⟨pin,i,slot,legal,named,place,rfl⟩
  apply opened_sound
  · change (Function.update s.spiSettings i slot i).pinCS = pin.toNat
    rw [Function.update_self]
    exact named
  · exact put_distinct s _ put_ sound.distinct
  · exact put_admitted s _ put_ sound.admitted
  · intro other j theirs different driven
    have theirs : (Function.update s.spiSettings i slot j).pinCS = other.toNat := theirs
    rw [Function.update_apply] at theirs
    split at theirs
    · rw [named] at theirs
      exact absurd (UInt8.toNat_inj.mp (by omega)) different
    · exact sound.output other j theirs driven
  · exact sound.clocked

theorem begin_sound (s : State board) (pin : UInt8) (sound : Sound s) : Sound (begin s pin) := by
  unfold begin
  split
  · rename_i t missing
    rw [pinIdxAdd_none s t pin missing]
    exact sound
  · rename_i t i found
    obtain ⟨legal,⟨owned,rfl⟩ | ⟨free,rfl⟩⟩ := pinIdxAdd_some s t pin i found
    · exact opened_sound t pin i owned sound.distinct sound.admitted (fun other j theirs _ => sound.output other j theirs)
        sound.clocked
    · exact placed_sound s pin i _ sound legal rfl (Or.inr free)

theorem beginTransaction_sound (s : State board) (pin : UInt8) (settings : SPISettings) (sound : Sound s) :
    Sound (beginTransaction s pin settings) := by
  unfold beginTransaction
  split
  · rename_i t missing
    rw [pinIdxAdd_none s t pin missing]
    exact sound
  · rename_i t i found
    obtain ⟨legal,⟨owned,rfl⟩ | ⟨free,rfl⟩⟩ := pinIdxAdd_some s t pin i found
    · exact placed_sound t pin i (given settings (t.spiSettings i)) sound legal owned (Or.inl owned)
    · have twice : setSlot (setSlot s i fun slot => {slot with pinCS := (pin.toNat : Int)}) i (given settings) =
          {s with spiSettings := Function.update s.spiSettings i (given settings {s.spiSettings i with pinCS := pin.toNat})} := by
        simp [setSlot]
      rw [twice]
      exact placed_sound s pin i (given settings {s.spiSettings i with pinCS := pin.toNat}) sound legal rfl (Or.inr free)

theorem released_sound (s t : State board) (sound : Sound s) (released : ∀ i, keys t i = -1 ∨ keys t i = keys s i)
    (output : t.output = s.output) (clocked : t.clocked = s.clocked) (unknown : t.csPinConfig = -1) : Sound t := by
  have kept (i : Fin board.nbSpiSettings) (owned : keys t i ≠ -1) : keys t i = keys s i := (released i).resolve_left owned
  refine { distinct := ?_, admitted := ?_, output := ?_, clocked := ?_, cached := ?_ }
  · exact Slots.distinct_release sound.distinct (keys t) released
  · intro i owned
    have same := kept i owned
    rw [same] at owned ⊢
    exact sound.admitted i owned
  · intro pin i owned driven
    rw [output]
    apply sound.output pin i _ driven
    rw [← kept i (by omega)]
    exact owned
  · rw [clocked]
    exact sound.clocked
  · intro known
    exact absurd unknown known

theorem sound_step (s : State board) (event : Event) (next : State board) (sound : Sound s) (matching : Matching s event)
    (taken : step s event = some next) : Sound next := by
  cases event with
  | begin pin =>
    cases Option.some.inj taken
    exact begin_sound s pin sound
  | beginTransaction pin settings =>
    cases Option.some.inj taken
    exact beginTransaction_sound s pin settings sound
  | endTransaction pin =>
    cases Option.some.inj taken
    refine released_sound s (endTransaction s pin) sound (keys_removePin s pin) ?_ ?_ rfl
    · change (removePin s pin).output = s.output
      unfold removePin
      split <;> rfl
    · change (removePin s pin).clocked = s.clocked
      unfold removePin
      split <;> rfl
  | finish =>
    cases Option.some.inj taken
    exact released_sound s _ sound (fun _ => Or.inl rfl) rfl rfl rfl
  | setBitOrder pin bitOrder =>
    cases Option.some.inj taken
    exact change_sound s pin _ (fun _ => rfl) sound matching
  | setDataMode pin mode =>
    cases Option.some.inj taken
    exact change_sound s pin _ (fun _ => rfl) sound matching
  | setClockDivider pin divider =>
    cases Option.some.inj taken
    exact change_sound s pin _ (fun _ => rfl) sound matching
  | _ => exact transfers_sound s next _ sound taken trivial

theorem change_clocked (s : State board) (pin : UInt8) (f : SPISettings → SPISettings) : (change s pin f).clocked = s.clocked := by
  unfold change
  split <;> rfl

theorem sound_configured (s : State board) (sound : Sound s) : Configured s := by
  refine ⟨sound.clocked,?_⟩
  intro event next taken
  by_cases setter : Matching s event
  · exact (sound_step s event next sound setter taken).clocked
  · have same : next.clocked = s.clocked := by
      cases event with
      | setBitOrder pin bitOrder =>
        cases Option.some.inj taken
        exact change_clocked s pin _
      | setDataMode pin mode =>
        cases Option.some.inj taken
        exact change_clocked s pin _
      | setClockDivider pin divider =>
        cases Option.some.inj taken
        exact change_clocked s pin _
      | _ => exact absurd trivial setter
    rw [same]
    exact sound.clocked

/-- After a setter that does not agree, the known pin is clocked with the settings of the
other one. -/
theorem change_breaks (s : State board) (pin : UInt8) (f : SPISettings → SPISettings)
    (named : ∀ slot, (f slot).pinCS = slot.pinCS) (sound : Sound s) (differs : ¬ Agrees s pin f) : ¬ Configured (change s pin f) := by
  intro configured
  apply differs
  intro i j found known cached other
  obtain ⟨mine,legal,owned⟩ := sound.admitted j (by rw [cached]; exact known)
  have distinct := put_distinct s _ (change_put s pin f named) sound.distinct
  obtain ⟨t,t_eq⟩ : ∃ t, t = change s pin f := ⟨_,rfl⟩
  have parts : t.spiSettings j = s.spiSettings j ∧ t.csPinConfig = s.csPinConfig ∧
      t.configuration = some (configurationOf board (f (s.spiSettings i))) := by
    rw [t_eq,change,found]
    refine ⟨Function.update_of_ne other ..,rfl,?_⟩
    change some (configurationOf board (Function.update s.spiSettings i (f (s.spiSettings i)) i)) = _
    rw [Function.update_self]
  rw [← t_eq] at configured distinct
  have here : pinIdx t mine = some j :=
    pinIdx_owned t distinct mine j legal (by rw [← owned]; exact congrArg SPISettings.pinCS parts.1)
  have unchanged : configure t j mine = t := if_neg (by rw [parts.2.1,← cached,owned]; simp)
  obtain ⟨level,sent,clocked⟩ := clock_eq t j mine [0] [0] .last ⟨fun _ => 0,0⟩
  have right := configured.next (.transfer mine 0 .last ⟨fun _ => 0,0⟩) _ rfl
    ⟨mine,t.configuration,t.spiSettings j,t.output mine && (managed board mine || !t.level mine),sent⟩
    (by simp [transfer,here,transferSlot,unchanged,clocked])
  have same := right.configured
  simp only [parts.1,parts.2.2] at same
  exact (Option.some.inj same).symm

theorem mismatch_breaks (s : State board) (event : Event) (next : State board) (sound : Sound s)
    (mismatch : ¬ Matching s event) (taken : step s event = some next) : ¬ Configured next := by
  cases event with
  | setBitOrder pin bitOrder =>
    cases Option.some.inj taken
    exact change_breaks s pin _ (fun _ => rfl) sound mismatch
  | setDataMode pin mode =>
    cases Option.some.inj taken
    exact change_breaks s pin _ (fun _ => rfl) sound mismatch
  | setClockDivider pin divider =>
    cases Option.some.inj taken
    exact change_breaks s pin _ (fun _ => rfl) sound mismatch
  | _ => exact absurd trivial mismatch

/-- The data is clocked under the settings of its pin in exactly the runs whose setters leave
the peripheral with the settings of the pin that it is known to be configured for. -/
theorem configured_iff_matching (board : Board) (events : List Event) :
    Run.Throughout Configured step (start board) events ↔ Run.Meets Matching step (start board) events :=
  Run.throughout_iff_meets Configured Sound Matching sound_configured sound_step mismatch_breaks (start board) events
    start_sound

/-- Two devices, of which the first one gets another bit order, and a byte for the second. -/
theorem other_order_clocked : ¬ Run.Throughout Configured step (start plcBoard)
    [.beginTransaction 9 (.make 1000000 .msbFirst 0 false),.beginTransaction 10 (.make 8000000 .msbFirst 3 false),
      .setBitOrder 9 .lsbFirst,.transfer 10 0x55 .last ⟨fun _ => 0,1000⟩] := by
  intro holds
  obtain ⟨s,record,reached,among,settings,configuration⟩ : ∃ s record, Run.after step (start plcBoard)
      [.beginTransaction 9 (.make 1000000 .msbFirst 0 false),.beginTransaction 10 (.make 8000000 .msbFirst 3 false),
        .setBitOrder 9 .lsbFirst,.transfer 10 0x55 .last ⟨fun _ => 0,1000⟩] = some s ∧
      s.clocked = [record] ∧ record.settings.clk = 8000000 ∧ record.configuration.map (fun c => c.speed) = some 1000000 :=
    ⟨_,_,rfl,rfl,by decide,by decide⟩
  have right := ((holds _ s (List.prefix_refl _) reached).clocked record (by simp [among])).configured
  rw [right,Option.map_some,configurationOf,settings] at configuration
  exact absurd (Option.some.inj configuration) (by simp)

end OpenPlc.Spi
