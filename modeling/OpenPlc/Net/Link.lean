import Mathlib.Tactic.Common
import OpenPlc.Lib.Run

/-! The polling of the Ethernet link: the state that the PHY reports (`lan8742.c`), and what
`ethernetif.c` makes of it in the MAC and in the network interface. -/
namespace OpenPlc.Net.Link

def statusReadError : Int := -5

def statusLinkDown : Int := 1

def status100MbitsFullDuplex : Int := 2

def status100MbitsHalfDuplex : Int := 3

def status10MbitsFullDuplex : Int := 4

def status10MbitsHalfDuplex : Int := 5

def statusAutonegoNotDone : Int := 6

/-- What the PHY answers to the reads of one poll, where a read may fail. -/
structure Phy where
  firstBsr : Option UInt32
  bsr : Option UInt32
  bcr : Option UInt32
  physcsr : Option UInt32

def bsrLinkStatus : UInt32 := 0x0004

def bcrAutonegoEn : UInt32 := 0x1000

def bcrSpeedSelect : UInt32 := 0x2000

def bcrDuplexMode : UInt32 := 0x0100

def physcsrAutonegoDone : UInt32 := 0x1000

def physcsrHcdSpeedMask : UInt32 := 0x001C

def physcsr100BtxFd : UInt32 := 0x0018

def physcsr100BtxHd : UInt32 := 0x0008

def physcsr10BtFd : UInt32 := 0x0014

/-- The end of `LAN8742_GetLinkState`, without and with negotiation. -/
def forced (bcr : UInt32) : Int :=
  if bcr &&& bcrSpeedSelect = bcrSpeedSelect ∧ bcr &&& bcrDuplexMode = bcrDuplexMode then status100MbitsFullDuplex
  else if bcr &&& bcrSpeedSelect = bcrSpeedSelect then status100MbitsHalfDuplex
  else if bcr &&& bcrDuplexMode = bcrDuplexMode then status10MbitsFullDuplex
  else status10MbitsHalfDuplex

def negotiated (physcsr : UInt32) : Int :=
  if physcsr &&& physcsrAutonegoDone = 0 then statusAutonegoNotDone
  else if physcsr &&& physcsrHcdSpeedMask = physcsr100BtxFd then status100MbitsFullDuplex
  else if physcsr &&& physcsrHcdSpeedMask = physcsr100BtxHd then status100MbitsHalfDuplex
  else if physcsr &&& physcsrHcdSpeedMask = physcsr10BtFd then status10MbitsFullDuplex
  else status10MbitsHalfDuplex

/-- `LAN8742_GetLinkState`, where the first value of the latched status is thrown away. -/
def getLinkState (phy : Phy) : Int :=
  match phy.firstBsr with
  | none => statusReadError
  | some _ =>
    match phy.bsr with
    | none => statusReadError
    | some bsr =>
      if bsr &&& bsrLinkStatus = 0 then statusLinkDown
      else
        match phy.bcr with
        | none => statusReadError
        | some bcr =>
          if bcr &&& bcrAutonegoEn ≠ bcrAutonegoEn then forced bcr
          else
            match phy.physcsr with
            | none => statusReadError
            | some physcsr => negotiated physcsr

inductive Speed
  | speed10M
  | speed100M
deriving DecidableEq

inductive Duplex
  | half
  | full
deriving DecidableEq

/-- What a poll sets of the configuration of the MAC. -/
structure MacConfig where
  duplexMode : Duplex
  speed : Speed
deriving DecidableEq

/-- The state of the handle, which is ready from `HAL_ETH_Init` on. -/
inductive GState
  | ready
  | started
deriving DecidableEq

/-- `observed` is what the PHY reported last. -/
structure State where
  gState : GState
  mac : MacConfig
  up : Bool
  linkUp : Bool
  ethRxEvent : Bool
  observed : Option Int

/-- Behind `HAL_ETH_Init`, which leaves the MAC at 100 Mbit/s and full duplex. -/
def start : State :=
  { gState := .ready, mac := ⟨.full,.speed100M⟩, up := false, linkUp := false, ethRxEvent := false, observed := none }

/-- `HAL_ETH_Stop` -/
def ethStop (s : State) : State := if s.gState = .started then {s with gState := .ready} else s

/-- `HAL_ETH_SetMACConfig` -/
def setMacConfig (s : State) (config : MacConfig) : State := if s.gState = .ready then {s with mac := config} else s

/-- `HAL_ETH_Start_IT` -/
def startIT (s : State) : State := if s.gState = .ready then {s with gState := .started} else s

/-- The `switch` over the states of a link that is up. -/
def resolved (phyLinkState : Int) : Option MacConfig :=
  if phyLinkState = status100MbitsFullDuplex then some ⟨.full,.speed100M⟩
  else if phyLinkState = status100MbitsHalfDuplex then some ⟨.half,.speed100M⟩
  else if phyLinkState = status10MbitsFullDuplex then some ⟨.full,.speed10M⟩
  else if phyLinkState = status10MbitsHalfDuplex then some ⟨.half,.speed10M⟩
  else none

def ethernetLinkCheckState (s : State) (phy : Phy) : State :=
  let phyLinkState := getLinkState phy
  let s := {s with observed := some phyLinkState}
  if s.linkUp ∧ phyLinkState ≤ statusLinkDown then {ethStop s with up := false, linkUp := false}
  else if ¬ s.linkUp ∧ statusLinkDown < phyLinkState then
    match resolved phyLinkState with
    | some config => {startIT (setMacConfig s config) with ethRxEvent := true, up := true, linkUp := true}
    | none => s
  else s

/-- Each poll finds the PHY in some state. -/
def step (s : State) (phy : Phy) : Option State := some (ethernetLinkCheckState s phy)

/-- The link is up when the MAC runs, and a resolved link has its speed and duplex mode. -/
structure Tracked (s : State) : Prop where
  running : s.linkUp = true ↔ s.gState = .started
  configured : ∀ status config, s.observed = some status → resolved status = some config → s.mac = config

/-- A link that is up already is not found at another speed or duplex mode. -/
def Steady (s : State) (phy : Phy) : Prop :=
  s.linkUp = true → ∀ config, resolved (getLinkState phy) = some config → s.mac = config

theorem resolved_up (status : Int) (config : MacConfig) (same : resolved status = some config) : statusLinkDown < status := by
  unfold resolved status100MbitsFullDuplex status100MbitsHalfDuplex status10MbitsFullDuplex status10MbitsHalfDuplex at same
  unfold statusLinkDown
  split at same
  · omega
  · split at same
    · omega
    · split at same
      · omega
      · split at same
        · omega
        · contradiction

theorem check_cases (s : State) (phy : Phy) (running : s.linkUp = true ↔ s.gState = .started) :
    (s.linkUp = true ∧ getLinkState phy ≤ statusLinkDown ∧ ethernetLinkCheckState s phy = { s with
      gState := .ready, up := false, linkUp := false, observed := some (getLinkState phy) }) ∨
    (s.linkUp = false ∧ ∃ config, resolved (getLinkState phy) = some config ∧ ethernetLinkCheckState s phy = { s with
      gState := .started, mac := config, up := true, linkUp := true, ethRxEvent := true,
      observed := some (getLinkState phy) }) ∨
    ((s.linkUp = true ∨ resolved (getLinkState phy) = none) ∧
      ethernetLinkCheckState s phy = {s with observed := some (getLinkState phy)}) := by
  cases linked : s.linkUp with
  | true =>
    have started := running.mp linked
    by_cases down : getLinkState phy ≤ statusLinkDown
    · left
      exact ⟨rfl,down,by simp [ethernetLinkCheckState,ethStop,linked,started,down]⟩
    · right; right
      exact ⟨Or.inl rfl,by simp [ethernetLinkCheckState,linked,down]⟩
  | false =>
    have ready : s.gState = .ready := by
      cases state : s.gState with
      | ready => rfl
      | started => simp [running.mpr state] at linked
    right
    cases found : resolved (getLinkState phy) with
    | some config =>
      left
      have upward := resolved_up _ config found
      refine ⟨rfl,config,rfl,?_⟩
      simp [ethernetLinkCheckState,setMacConfig,startIT,linked,ready,found,upward]
    | none =>
      right
      refine ⟨Or.inr rfl,?_⟩
      simp [ethernetLinkCheckState,linked,found]

theorem start_tracked : Tracked start :=
  ⟨by simp [start],by simp [start]⟩

theorem tracked_step (s : State) (phy : Phy) (next : State) (tracked : Tracked s) (steady : Steady s phy)
    (taken : step s phy = some next) : Tracked next := by
  cases Option.some.inj taken
  rcases check_cases s phy tracked.running with ⟨_,down,same⟩ | ⟨_,config,found,same⟩ | ⟨stays,same⟩
  · rw [same]
    refine ⟨by simp,?_⟩
    intro status config observed found
    rw [← Option.some.inj observed] at found
    have upward := resolved_up _ config found
    omega
  · rw [same]
    refine ⟨by simp,?_⟩
    intro status other observed again
    rw [← Option.some.inj observed,found] at again
    exact Option.some.inj again
  · rw [same]
    refine ⟨tracked.running,?_⟩
    intro status config observed found
    rw [← Option.some.inj observed] at found
    rcases stays with linked | missing
    · exact steady linked config found
    · rw [missing] at found
      contradiction

theorem unsteady_breaks (s : State) (phy : Phy) (next : State) (_ : Tracked s) (unsteady : ¬ Steady s phy)
    (taken : step s phy = some next) : ¬ Tracked next := by
  cases Option.some.inj taken
  unfold Steady at unsteady
  push Not at unsteady
  obtain ⟨linked,config,found,differs⟩ := unsteady
  have upward := resolved_up _ config found
  have same : ethernetLinkCheckState s phy = {s with observed := some (getLinkState phy)} := by
    simp [ethernetLinkCheckState,linked,upward]
  intro after
  rw [same] at after
  exact differs (after.configured _ config rfl found)

/-- The MAC follows the PHY in exactly the histories in which no link that is up is found
resolved otherwise. -/
theorem tracked_iff_steady (polls : List Phy) :
    Run.Throughout Tracked step start polls ↔ Run.Meets Steady step start polls :=
  Run.throughout_iff_meets Tracked Tracked Steady (fun _ tracked => tracked) tracked_step unsteady_breaks start polls
    start_tracked

theorem renegotiated_unnoticed : ¬ Run.Throughout Tracked step start
    [⟨some 0x04,some 0x04,some 0x1000,some 0x1018⟩,⟨some 0x04,some 0x04,some 0x1000,some 0x1004⟩] := by
  intro holds
  obtain ⟨s,reached,observed,mac⟩ : ∃ s, Run.after step start
      [⟨some 0x04,some 0x04,some 0x1000,some 0x1018⟩,⟨some 0x04,some 0x04,some 0x1000,some 0x1004⟩] = some s ∧
      s.observed = some status10MbitsHalfDuplex ∧ s.mac = ⟨.full,.speed100M⟩ := ⟨_,rfl,by decide,by decide⟩
  have configured := (holds _ s (List.prefix_refl _) reached).configured _ ⟨.half,.speed10M⟩ observed (by decide)
  rw [mac] at configured
  exact absurd configured (by decide)

end OpenPlc.Net.Link
