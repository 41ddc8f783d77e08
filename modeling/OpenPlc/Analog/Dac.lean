import OpenPlc.Lib.Run
import OpenPlc.Analog.Analog

/-! Pins on the channels of one converter: a pin is set up once for each of its configured bits, while a stop resets the
converter of all of them. -/
namespace OpenPlc.Analog

/-- The mapping of an unbounded computation. -/
def scaled (value source target : Nat) : Nat :=
  if source < target then if value = 0 then 0 else (value + 1) * 2 ^ (target - source) - 1 else mapped value source target

structure DacPins (board : Board) (ι : Type*) where
  pin : ι → PinName
  dac : Nat
  channel : ι → Nat
  mapped : ∀ i, board.pinMapDac.lookup (pin i) = some ⟨dac,channel i⟩
  channels : Function.Injective channel
  lines : Function.Injective fun i => (pin i).line

inductive DacCall (ι : Type*) where
  | analogWrite (i : ι) (value : UInt32)
  | pinMode (i : ι) (mode : PinMode)

/-- What a channel is; without its clock a converter has lost that. -/
def Dac.shown (d : Dac) (channel : Nat) : DacChannel := if d.clocked then d.channel channel else ⟨false,false,0⟩

def DacPins.call {board : Board} {ι : Type*} (pins : DacPins board ι) : DacCall ι → Call
  | .analogWrite i value => .analogWrite (pins.pin i) value
  | .pinMode i mode => .pinMode (pins.pin i) mode

def DacPins.step {board : Board} {ι : Type*} (pins : DacPins board ι) (s : State) (call : DacCall ι) : Option State :=
  Analog.step board s (pins.call call)

def DacPins.shown {board : Board} {ι : Type*} (pins : DacPins board ι) (s : State) (i : ι) : DacChannel :=
  (s.dac pins.dac).shown (pins.channel i)

/-- The converter puts out a value that is written, scaled to its bits. -/
structure Held (d : Dac) (channel : Nat) (resolution : Resolution) (value : UInt32) : Prop where
  clocked : d.clocked = true
  configured : (d.channel channel).configured = true
  enabled : (d.channel channel).enabled = true
  kept : (d.channel channel).value.toNat = scaled value.toNat resolution.write daccResolution % 4096
  whole : value.toNat < 2 ^ resolution.write →
    (d.channel channel).value.toNat = scaled value.toNat resolution.write daccResolution

/-- A write sets its own channel, and no call changes another one. -/
def Independent {board : Board} {ι : Type*} (pins : DacPins board ι) (s : State) : DacCall ι → Prop
  | .analogWrite i value => ∀ next, pins.step s (.analogWrite i value) = some next →
    Held (next.dac pins.dac) (pins.channel i) s.resolution value ∧ ∀ j, j ≠ i → pins.shown next j = pins.shown s j
  | .pinMode i mode => ∀ next, pins.step s (.pinMode i mode) = some next → ∀ j, j ≠ i → pins.shown next j = pins.shown s j

/-- A pin that is configured changes its mode where it is the only one of the converter. -/
def Only {board : Board} {ι : Type*} (pins : DacPins board ι) (s : State) : DacCall ι → Prop
  | .analogWrite _ _ => True
  | .pinMode i _ => s.configured (pins.pin i).line = true → ∀ j, j ≠ i → s.configured (pins.pin j).line = false

/-- The bits of the pins tell the truth. -/
structure Reflects {board : Board} {ι : Type*} (pins : DacPins board ι) (s : State) : Prop where
  set : ∀ i, s.configured (pins.pin i).line = true → (s.dac pins.dac).clocked = true ∧
    ((s.dac pins.dac).channel (pins.channel i)).configured = true ∧ ((s.dac pins.dac).channel (pins.channel i)).enabled = true
  clear : ∀ i, s.configured (pins.pin i).line = false → (s.dac pins.dac).channel (pins.channel i) = ⟨false,false,0⟩

/-- No pin is configured, and no converter is. -/
def unwritten (s : State) : State :=
  {s with configured := fun _ => false, dac := fun _ => ⟨false,fun _ => ⟨false,false,0⟩⟩}

section Scale
variable (value : UInt32)

theorem daccMax_and : (value &&& daccMax).toNat = value.toNat % 4096 := by
  rw [UInt32.toNat_and]
  exact Nat.and_two_pow_sub_one_eq_mod value.toNat 12

theorem mapResolution_widened {source : Nat} (wider : source < daccResolution) :
    (mapResolution value source daccResolution &&& daccMax).toNat = scaled value.toNat source daccResolution % 4096 := by
  have shifts : ∀ k ≤ 12, (UInt32.ofNat k).toNat % 32 = k := by decide
  rw [daccMax_and,mapResolution,if_neg (Nat.ne_of_lt wider),if_neg (Nat.lt_asymm wider),scaled,if_pos wider]
  by_cases zero : value = 0
  · subst zero
    rfl
  · have nonzero : value.toNat ≠ 0 := fun same => zero (UInt32.toNat_inj.mp same)
    have place := shifts (daccResolution - source) (Nat.sub_le 12 source)
    have scale : 1 ≤ 2 ^ (daccResolution - source) := Nat.one_le_two_pow
    have product : 1 ≤ (value.toNat + 1) * 2 ^ (daccResolution - source) := Nat.mul_pos (Nat.succ_pos _) scale
    have shifted : ((value + 1) <<< UInt32.ofNat (daccResolution - source)).toNat =
        (value.toNat + 1) * 2 ^ (daccResolution - source) % 4294967296 := by
      rw [UInt32.toNat_shiftLeft,place,Nat.shiftLeft_eq,UInt32.toNat_add]
      exact Nat.mod_mul_mod (value.toNat + 1) _ _
    rw [if_pos zero,if_neg nonzero,UInt32.toNat_sub,shifted]
    have one_ : (1 : UInt32).toNat = 1 := rfl
    omega

/-- What is kept is the scaled value, for a value of more bits than it should have its last ones. -/
theorem mapResolution_scaled (resolution : Resolution) :
    (mapResolution value resolution.write daccResolution &&& daccMax).toNat =
      scaled value.toNat resolution.write daccResolution % 4096 := by
  obtain ⟨low,high⟩ := resolution.range
  rcases Nat.lt_trichotomy resolution.write daccResolution with wider | same | narrower
  · exact mapResolution_widened value wider
  · rw [daccMax_and,same,scaled,if_neg (Nat.lt_irrefl _),mapped_same]
    rfl
  · have near : resolution.write - daccResolution ≤ 20 := Nat.sub_le_sub_right high 12
    have less := value.toNat_lt
    by_cases last : value.toNat = 4294967295
    · have full : ∀ write ≤ 32, daccResolution < write →
          (mapResolution 4294967295 write daccResolution &&& daccMax).toNat =
            scaled (4294967295 : UInt32).toNat write daccResolution % 4096 := by decide
      have value_eq : value = 4294967295 := UInt32.toNat_inj.mp last
      rw [value_eq]
      exact full resolution.write high narrower
    · rw [daccMax_and,mapResolution_narrow value narrower near (by omega),scaled,if_neg (Nat.lt_asymm narrower)]

/-- A value within the resolution of the writes loses nothing. -/
theorem scaled_lt {value : Nat} (resolution : Resolution) (fits : value < 2 ^ resolution.write) :
    scaled value resolution.write daccResolution < 4096 := by
  rw [scaled]
  split
  · rename_i wider
    split
    · decide
    · have full : 2 ^ resolution.write * 2 ^ (daccResolution - resolution.write) = 4096 := by
        rw [← Nat.pow_add,Nat.add_sub_of_le (Nat.le_of_lt wider)]
        rfl
      have product := Nat.mul_le_mul_right (2 ^ (daccResolution - resolution.write)) (Nat.succ_le_of_lt fits)
      rw [full] at product
      change (value + 1) * 2 ^ (daccResolution - resolution.write) ≤ 4096 at product
      omega
  · rename_i narrower
    have last : value ≤ 2 ^ resolution.write - 1 := Nat.le_sub_one_of_lt fits
    have bound := mapped_monotone last resolution.write daccResolution
    rw [mapped_full (Nat.le_of_not_lt narrower) _ (Nat.sub_add_cancel Nat.one_le_two_pow)] at bound
    exact Nat.lt_of_le_of_lt bound (by decide)

end Scale

section Steps
variable {board : Board} {ι : Type*} {pins : DacPins board ι} {s : State}

theorem pinFunction_dac (s : State) (p : PinName) (function : PinFunction) :
    (pinFunction s p function).dac = s.dac ∧ (pinFunction s p function).configured = s.configured := by
  unfold pinFunction
  split <;> exact ⟨rfl,rfl⟩

theorem dacInit_dac (s : State) (p : PinName) (e : DacEntry) :
    (dacInit s p e).dac e.dac = ⟨true,Function.update (s.dac e.dac).channel e.channel
        {(s.dac e.dac).channel e.channel with configured := true}⟩ ∧
      (dacInit s p e).configured = s.configured := by
  obtain ⟨dac,configured⟩ := pinFunction_dac (setDac s e.dac {s.dac e.dac with clocked := true}) p .analog
  have clocked : (setDac s e.dac {s.dac e.dac with clocked := true}).dac e.dac = ⟨true,(s.dac e.dac).channel⟩ :=
    Function.update_self _ _ _
  constructor
  · simp only [dacInit,setDac,Function.update_self]
    simp only [setDac] at dac clocked
    rw [dac,clocked]
    rfl
  · exact configured

theorem dacWriteValue_ready (s : State) (p : PinName) (e : DacEntry) (value : UInt32)
    (clocked : (s.dac e.dac).clocked = true) (configured : ((s.dac e.dac).channel e.channel).configured = true) :
    (dacWriteValue s p e value false).dac e.dac =
      ⟨true,Function.update (s.dac e.dac).channel e.channel ⟨true,true,value &&& daccMax⟩⟩ := by
  simp [dacWriteValue,setDac,Dac.write,clocked,configured]

theorem dacWriteValue_dac (s : State) (p : PinName) (e : DacEntry) (value : UInt32) (doInit : Bool)
    (ready : doInit = false → (s.dac e.dac).clocked = true ∧ ((s.dac e.dac).channel e.channel).configured = true) :
    (dacWriteValue s p e value doInit).dac e.dac =
        ⟨true,Function.update (s.dac e.dac).channel e.channel ⟨true,true,value &&& daccMax⟩⟩ ∧
      (dacWriteValue s p e value doInit).configured = s.configured := by
  cases doInit with
  | true =>
    obtain ⟨dac,configured⟩ := dacInit_dac s p e
    have written := dacWriteValue_ready (dacInit s p e) p e value (by rw [dac]) (by rw [dac]; simp only [Function.update_self])
    rw [dac,Function.update_idem] at written
    exact ⟨written,configured⟩
  | false =>
    obtain ⟨clocked,configured⟩ := ready rfl
    exact ⟨dacWriteValue_ready s p e value clocked configured,rfl⟩

theorem analogWrite_dac (reflects : Reflects pins s) (i : ι) (value : UInt32) :
    ∃ next, pins.step s (.analogWrite i value) = some next ∧
      next.dac pins.dac = ⟨true,Function.update (s.dac pins.dac).channel (pins.channel i)
        ⟨true,true,mapResolution value s.resolution.write daccResolution &&& daccMax⟩⟩ ∧
      next.configured = Function.update s.configured (pins.pin i).line true := by
  have ready : (!s.configured (pins.pin i).line) = false → (s.dac pins.dac).clocked = true ∧
      ((s.dac pins.dac).channel (pins.channel i)).configured = true := by
    intro bit
    obtain ⟨clocked,configured,_⟩ := reflects.set i (by simpa using bit)
    exact ⟨clocked,configured⟩
  have written := dacWriteValue_dac (setPinConfigured s (pins.pin i) true) (pins.pin i) ⟨pins.dac,pins.channel i⟩
    (mapResolution value s.resolution.write daccResolution) (!s.configured (pins.pin i).line) ready
  refine ⟨_,?_,written⟩
  change analogWrite board s (pins.pin i) value = _
  rw [analogWrite,pins.mapped i]

theorem pinMode_dac (pins : DacPins board ι) (s : State) (i : ι) (mode : PinMode) :
    ∃ next, pins.step s (.pinMode i mode) = some next ∧
      next.dac pins.dac = (if s.configured (pins.pin i).line then ⟨!board.clkDisable pins.dac,fun _ => ⟨false,false,0⟩⟩
        else s.dac pins.dac) ∧
      next.configured = (if s.configured (pins.pin i).line then Function.update s.configured (pins.pin i).line false
        else s.configured) := by
  refine ⟨_,rfl,?_⟩
  rw [pinMode,(pinFunction_dac _ _ _).1,(pinFunction_dac _ _ _).2]
  split
  · simp only [pins.mapped i]
    exact ⟨Function.update_self _ _ _,rfl⟩
  · exact ⟨rfl,rfl⟩

theorem Reflects.shown (reflects : Reflects pins s) (i : ι) : pins.shown s i = (s.dac pins.dac).channel (pins.channel i) := by
  rw [DacPins.shown,Dac.shown]
  split
  · rfl
  · rename_i unclocked
    have off : s.configured (pins.pin i).line = false := by
      by_contra set
      exact unclocked (reflects.set i (Bool.eq_true_of_not_eq_false set)).1
    exact (reflects.clear i off).symm

theorem analogWrite_independent (reflects : Reflects pins s) (i : ι) (value : UInt32) :
    Independent pins s (.analogWrite i value) := by
  obtain ⟨result,written,dac,_⟩ := analogWrite_dac reflects i value
  intro next taken
  cases Option.some.inj (written.symm.trans taken)
  constructor
  · have kept := mapResolution_scaled value s.resolution
    rw [dac]
    constructor
    · rfl
    · simp only [Function.update_self]
    · simp only [Function.update_self]
    · simp only [Function.update_self]
      exact kept
    · intro fits
      simp only [Function.update_self]
      rw [kept]
      exact Nat.mod_eq_of_lt (scaled_lt s.resolution fits)
  · intro j other
    have apart : pins.channel j ≠ pins.channel i := fun same => other (pins.channels same)
    rw [reflects.shown j,DacPins.shown,dac]
    exact Function.update_of_ne apart _ _

theorem analogWrite_reflects (reflects : Reflects pins s) (i : ι) (value : UInt32) (next : State)
    (taken : pins.step s (.analogWrite i value) = some next) : Reflects pins next := by
  obtain ⟨result,written,dac,configured⟩ := analogWrite_dac reflects i value
  cases Option.some.inj (written.symm.trans taken)
  constructor
  · intro j bit
    rw [configured] at bit
    rw [dac]
    refine ⟨rfl,?_⟩
    by_cases same : j = i
    · subst same
      simp only [Function.update_self,and_self]
    · have line : (pins.pin j).line ≠ (pins.pin i).line := fun shared => same (pins.lines shared)
      have apart : pins.channel j ≠ pins.channel i := fun shared => same (pins.channels shared)
      rw [Function.update_of_ne line] at bit
      simp only [Function.update_of_ne apart]
      exact (reflects.set j bit).2
  · intro j bit
    rw [configured] at bit
    have same : j ≠ i := by
      rintro rfl
      rw [Function.update_self] at bit
      exact Bool.noConfusion bit
    have line : (pins.pin j).line ≠ (pins.pin i).line := fun shared => same (pins.lines shared)
    have apart : pins.channel j ≠ pins.channel i := fun shared => same (pins.channels shared)
    rw [Function.update_of_ne line] at bit
    rw [dac]
    simp only [Function.update_of_ne apart]
    exact reflects.clear j bit

theorem pinMode_independent_iff (reflects : Reflects pins s) (i : ι) (mode : PinMode) :
    Independent pins s (.pinMode i mode) ↔ Only pins s (.pinMode i mode) := by
  obtain ⟨result,changed,dac,_⟩ := pinMode_dac pins s i mode
  by_cases bit : s.configured (pins.pin i).line = true
  · rw [if_pos bit] at dac
    have lost (j : ι) : pins.shown result j = ⟨false,false,0⟩ := by
      rw [DacPins.shown,dac,Dac.shown]
      split <;> rfl
    constructor
    · intro independent _ j other
      have kept := independent result changed j other
      rw [lost,reflects.shown] at kept
      by_contra set
      have enabled := (reflects.set j (Bool.eq_true_of_not_eq_false set)).2.2
      rw [← kept] at enabled
      exact Bool.noConfusion enabled
    · intro only next taken j other
      cases Option.some.inj (changed.symm.trans taken)
      rw [lost,reflects.shown]
      exact (reflects.clear j (only bit j other)).symm
  · rw [if_neg bit] at dac
    refine iff_of_true ?_ fun set => absurd set bit
    intro next taken j _
    cases Option.some.inj (changed.symm.trans taken)
    rw [DacPins.shown,DacPins.shown,dac]

theorem pinMode_reflects (reflects : Reflects pins s) (i : ι) (mode : PinMode) (only : Only pins s (.pinMode i mode))
    (next : State) (taken : pins.step s (.pinMode i mode) = some next) : Reflects pins next := by
  obtain ⟨result,changed,dac,configured⟩ := pinMode_dac pins s i mode
  cases Option.some.inj (changed.symm.trans taken)
  by_cases bit : s.configured (pins.pin i).line = true
  · rw [if_pos bit] at dac configured
    constructor
    · intro j set
      rw [configured] at set
      by_cases same : j = i
      · subst same
        rw [Function.update_self] at set
        exact Bool.noConfusion set
      · have line : (pins.pin j).line ≠ (pins.pin i).line := fun shared => same (pins.lines shared)
        rw [Function.update_of_ne line,only bit j same] at set
        exact Bool.noConfusion set
    · intro j _
      rw [dac]
  · rw [if_neg bit] at dac configured
    constructor
    · intro j set
      rw [configured] at set
      rw [dac]
      exact reflects.set j set
    · intro j off
      rw [configured] at off
      rw [dac]
      exact reflects.clear j off

end Steps

/-- The channels of a converter are independent, exactly if no pin leaves it while another one is configured. -/
theorem independent_iff {board : Board} {ι : Type*} (pins : DacPins board ι) (s : State) (calls : List (DacCall ι)) :
    Run.Meets (Independent pins) pins.step (unwritten s) calls ↔ Run.Meets (Only pins) pins.step (unwritten s) calls := by
  apply Run.meets_iff (Reflects pins)
  · intro s call next reflects _
    cases call with
    | analogWrite i value => exact iff_of_true (analogWrite_independent reflects i value) trivial
    | pinMode i mode => exact pinMode_independent_iff reflects i mode
  · intro s call next reflects only taken
    cases call with
    | analogWrite i value => exact analogWrite_reflects reflects i value next taken
    | pinMode i mode => exact pinMode_reflects reflects i mode only next taken
  · exact ⟨fun i set => absurd set Bool.false_ne_true,fun i _ => rfl⟩

/-- PA4 and PA5, the two pins of the first converter. -/
def dacBoard : Board :=
  ⟨[],[(⟨0,4,0,false⟩,⟨1,1⟩),(⟨0,5,0,false⟩,⟨1,2⟩)],fun _ => 240000000,fun _ => false⟩

def dacPins : DacPins dacBoard Bool where
  pin second := if second then ⟨0,5,0,false⟩ else ⟨0,4,0,false⟩
  dac := 1
  channel second := if second then 2 else 1
  mapped second := by cases second <;> rfl
  channels := Bool.injective_iff.mpr (by decide)
  lines := Bool.injective_iff.mpr (by decide)

/-- The output of the second pin is lost when the first one becomes a digital one. -/
theorem converter_reset : ¬ Run.Meets (Independent dacPins) dacPins.step (unwritten State.reset)
    [.analogWrite false 128,.analogWrite true 64,.pinMode false .output] := by
  intro independent
  obtain ⟨_,independent⟩ := independent _ rfl
  obtain ⟨_,independent⟩ := independent _ rfl
  obtain ⟨kept,_⟩ := independent _ rfl
  have enabled := congrArg DacChannel.enabled (kept _ rfl true (by decide))
  exact absurd enabled (by decide)

end OpenPlc.Analog
