import Mathlib.Tactic.IntervalCases
import OpenPlc.Lib.Run
import OpenPlc.Serial.Decoding

/-! The transmit line under the calls of `write` by one full-duplex object, at every place where a tick of the
timer may come between two of its assignments. -/
namespace OpenPlc.Serial.SoftwareSerial
open OpenPlc.Signal

section Session
variable {ι : Type}

/-- Where the call of `write` stands: `done` counts the assignments behind its loop. -/
inductive Stage where
  | idle
  | waiting (b : UInt8)
  | loading (b : UInt8) (done : Nat)

/-- The bytes of calls that have not returned. -/
def Stage.bytes : Stage → List UInt8
  | .idle => []
  | .waiting b | .loading b _ => [b]

/-- `line` has the level of the transmit pin behind each tick, `written` the bytes that were handed to the
interrupt and the number of ticks before. -/
structure Session (ι : Type) where
  serial : State ι
  stage : Stage
  line : List Bool
  written : List (Nat × UInt8)

def Session.start (serial : State ι) : Session ι := ⟨serial,.idle,[],[]⟩

inductive Event (ι : Type) where
  | call (b : UInt8)
  | run
  | tick (pins : ι → Bool)

def Event.bytes : Event ι → List UInt8
  | .call b => [b]
  | _ => []

variable [DecidableEq ι]

def Session.step (self : ι) (s : Session ι) : Event ι → Option (Session ι)
  | .call b =>
    match s.stage with
    | .idle => some {s with serial := request s.serial self, stage := .waiting b}
    | _ => none
  | .run =>
    match s.stage with
    | .idle => none
    | .waiting b => some (if s.serial.activeOut.isSome then s else {s with stage := .loading b 0})
    | .loading b done =>
      (load self b)[done]?.map fun assign =>
        if done + 1 < (load self b).length then {s with serial := assign s.serial, stage := .loading b (done + 1)}
        else {s with serial := assign s.serial, stage := .idle, written := s.written ++ [(s.line.length,b)]}
  | .tick pins =>
    let serial := handleInterrupt s.serial pins
    some {s with serial, line := s.line ++ [(serial.port self).transmitPin]}

/-- The steps that a session takes. -/
inductive Session.Takes (self : ι) (s : Session ι) : Event ι → Session ι → Prop
  | call (b) (idle : s.stage = .idle) : Takes self s (.call b) {s with serial := request s.serial self, stage := .waiting b}
  | waits (b) (waiting : s.stage = .waiting b) : Takes self s .run s
  | begins (b) (waiting : s.stage = .waiting b) (free : s.serial.activeOut = none) :
      Takes self s .run {s with stage := .loading b 0}
  | loads (b done assign) (loading : s.stage = .loading b done) (next : (load self b)[done]? = some assign)
      (more : done + 1 < (load self b).length) :
      Takes self s .run {s with serial := assign s.serial, stage := .loading b (done + 1)}
  | returns (b done assign) (loading : s.stage = .loading b done) (next : (load self b)[done]? = some assign)
      (last : ¬ done + 1 < (load self b).length) :
      Takes self s .run {s with serial := assign s.serial, stage := .idle, written := s.written ++ [(s.line.length,b)]}
  | ticks (pins) : Takes self s (.tick pins) {s with
      serial := handleInterrupt s.serial pins
      line := s.line ++ [((handleInterrupt s.serial pins).port self).transmitPin]}

theorem Session.step_takes {self : ι} {s next : Session ι} {event : Event ι} (taken : s.step self event = some next) :
    s.Takes self event next := by
  cases event with
  | call b =>
    cases stage : s.stage with
    | idle =>
      simp only [step,stage,Option.some.injEq] at taken
      subst taken
      exact .call b stage
    | waiting b => simp [step,stage] at taken
    | loading b done => simp [step,stage] at taken
  | run =>
    cases stage : s.stage with
    | idle => simp [step,stage] at taken
    | waiting b =>
      simp only [step,stage,Option.some.injEq] at taken
      subst taken
      split
      · exact .waits b stage
      · rename_i out
        exact .begins b stage (Option.not_isSome_iff_eq_none.mp out)
    | loading b done =>
      simp only [step,stage] at taken
      obtain ⟨assign,next,rfl⟩ := Option.map_eq_some_iff.mp taken
      split
      · rename_i more
        exact .loads b done assign stage next more
      · rename_i last
        exact .returns b done assign stage next last
  | tick pins =>
    cases Option.some.inj taken
    exact .ticks pins

end Session

section Level

/-- The frame of a byte that was handed over after `written.1` ticks: it begins with the third tick from then. -/
def sent (written : Nat × UInt8) : Frame ℚ := ⟨written.1 + 2,written.2⟩

/-- The level of a line that carries these frames, behind the tick number `n`. -/
def level (written : List (Nat × UInt8)) (n : Nat) : Bool := line (3 : ℚ) (written.map fun w => (sent w).burst) n

/-- Ten bits and the stop level of the last one for three ticks more. -/
def Apart (written : List (Nat × UInt8)) : Prop := written.Pairwise fun v w => v.1 + 33 ≤ w.1

theorem level_bit (written : List (Nat × UInt8)) (apart : Apart written) (w : Nat × UInt8) (among : w ∈ written) (n k : Nat)
    (inside : k < (sent w).bits.length) (begun : w.1 + 2 + 3 * k ≤ n) (on : n < w.1 + 2 + 3 * (k + 1)) :
    level written n = (sent w).bits[k] := by
  have frames : (written.map sent).Pairwise fun f g => f.start + 10 * 3 ≤ g.start := by
    rw [List.pairwise_map]
    apply apart.imp
    intro v w ordered
    have cast : (v.1 : ℚ) + 33 ≤ w.1 := by exact_mod_cast ordered
    simp only [sent]
    linarith
  have first : ((w.1 + 2 + 3 * k : Nat) : ℚ) ≤ n := Nat.cast_le.mpr begun
  have last : (n : ℚ) < (w.1 + 2 + 3 * (k + 1) : Nat) := Nat.cast_lt.mpr on
  push_cast at first last
  have carried := line_frame (by norm_num) frames (sent w) (List.mem_map_of_mem among) (n : ℚ) k inside
    (by simp only [sent]; linarith) (by simp only [sent]; linarith)
  rw [List.map_map] at carried
  exact carried

theorem level_mark (written : List (Nat × UInt8)) (n : Nat) (quiet : ∀ w ∈ written, n < w.1 + 2 ∨ w.1 + 32 ≤ n) :
    level written n = true := by
  apply line_rests
  intro burst among begun on
  obtain ⟨w,member,rfl⟩ := List.mem_map.mp among
  have first : (w.1 : ℚ) + 2 ≤ n := begun
  have last : (n : ℚ) < w.1 + 2 + 10 * 3 := on
  exfalso
  rcases quiet w member with before | behind
  · have cast : (n : ℚ) < w.1 + 2 := by exact_mod_cast before
    linarith
  · have cast : (w.1 : ℚ) + 32 ≤ n := by exact_mod_cast behind
    linarith

theorem level_later (written : List (Nat × UInt8)) (w : Nat × UInt8) (n : Nat) (before : n < w.1 + 2) :
    level (written ++ [w]) n = level written n := by
  have cast : (n : ℚ) < (sent w).burst.start := by
    change (n : ℚ) < w.1 + 2
    exact_mod_cast before
  rw [level,List.map_append]
  exact line_ahead _ _ _ cast

end Level

section Sending
variable {ι : Type}

structure Steady (sender : ι) (s next : State ι) : Prop where
  activeOut : next.activeOut = s.activeOut
  txTickCnt : next.txTickCnt = s.txTickCnt
  txBuffer : next.txBuffer = s.txBuffer
  txBitCnt : next.txBitCnt = s.txBitCnt
  transmitPin : (next.port sender).transmitPin = (s.port sender).transmitPin
  inverseLogic : (next.port sender).inverseLogic = (s.port sender).inverseLogic
  halfDuplex : (next.port sender).halfDuplex = (s.port sender).halfDuplex

/-- What a step leaves alone for the transmission of `sender`. -/
structure Aside (sender : ι) (s next : State ι) : Prop extends Steady sender s next where
  outputPending : (next.port sender).outputPending = (s.port sender).outputPending

theorem Aside.refl (sender : ι) (s : State ι) : Aside sender s s := ⟨⟨rfl,rfl,rfl,rfl,rfl,rfl,rfl⟩,rfl⟩

/-- Where the transmission stands behind `n` ticks: nothing is sent; the bits below `k` of the last byte are sent;
all of them are, and the line rests. -/
inductive Sends (self : ι) (inverse : Bool) (s : State ι) (n : Nat) : List (Nat × UInt8) → Prop
  | silent (written : List (Nat × UInt8)) (out : s.activeOut = none) (mark : (s.port self).transmitPin = !inverse)
      (ended : ∀ w ∈ written, w.1 + 33 ≤ n) : Sends self inverse s n written
  | sending (earlier : List (Nat × UInt8)) (w : Nat × UInt8) (k : Nat) (out : s.activeOut = some self) (more : k ≤ 10)
      (bit : s.txBitCnt = k) (count : 1 ≤ s.txTickCnt) (few : s.txTickCnt ≤ 3)
      (due : n + s.txTickCnt = w.1 + 3 * (k + 1))
      (held : ∀ i, (inside : i + k < (sent w).bits.length) → s.txBuffer.toNat.testBit i = ((sent w).bits[i + k] ^^ inverse))
      (now : (s.port self).transmitPin = ((true :: (sent w).bits).get ⟨k,Nat.lt_succ_of_le more⟩ ^^ inverse))
      (ended : ∀ v ∈ earlier, v.1 + 33 ≤ w.1) : Sends self inverse s n (earlier ++ [w])
  | resting (written : List (Nat × UInt8)) (out : s.activeOut = some self) (mark : (s.port self).transmitPin = !inverse)
      (bit : 10 < s.txBitCnt) (due : s.txTickCnt = 1) (ended : ∀ w ∈ written, w.1 + 33 ≤ n) : Sends self inverse s n written

theorem Sends.steady {self : ι} {inverse : Bool} {s next : State ι} {n : Nat} {written : List (Nat × UInt8)}
    (sends : Sends self inverse s n written) (same : Steady self s next) : Sends self inverse next n written := by
  cases sends with
  | silent _ out mark ended => exact .silent written (same.activeOut.trans out) (same.transmitPin.trans mark) ended
  | sending earlier w k out more bit count few due held now ended =>
    rw [← same.txTickCnt] at count few due
    rw [← same.txBuffer] at held
    exact .sending earlier w k (same.activeOut.trans out) more (same.txBitCnt.trans bit) count few due held
      (same.transmitPin.trans now) ended
  | resting _ out mark bit due ended =>
    rw [← same.txBitCnt] at bit
    exact .resting written (same.activeOut.trans out) (same.transmitPin.trans mark) bit (same.txTickCnt.trans due) ended

theorem Sends.quiet {self : ι} {inverse : Bool} {s : State ι} {n : Nat} {written : List (Nat × UInt8)}
    (sends : Sends self inverse s n written) (out : s.activeOut = none) :
    (s.port self).transmitPin = (!inverse) ∧ ∀ w ∈ written, w.1 + 33 ≤ n := by
  cases sends with
  | silent _ _ mark ended => exact ⟨mark,ended⟩
  | sending earlier w k active => exact absurd (out.symm.trans active) nofun
  | resting _ active => exact absurd (out.symm.trans active) nofun

theorem Sends.own {self sender : ι} {inverse : Bool} {s : State ι} {n : Nat} {written : List (Nat × UInt8)}
    (sends : Sends self inverse s n written) (out : s.activeOut = some sender) : sender = self := by
  cases sends with
  | silent _ none => exact absurd (none.symm.trans out) nofun
  | sending earlier w k active => exact Option.some.inj (out.symm.trans active)
  | resting _ active => exact Option.some.inj (out.symm.trans active)

variable [DecidableEq ι]

theorem save_aside (sender reader : ι) (s : State ι) (byte : UInt8) :
    Aside sender s (modify s reader fun port => port.save byte) := by
  have kept (port : Port) : (port.save byte).transmitPin = port.transmitPin ∧ (port.save byte).inverseLogic = port.inverseLogic ∧
      (port.save byte).halfDuplex = port.halfDuplex ∧ (port.save byte).outputPending = port.outputPending := by
    simp only [Port.save]
    split <;> exact ⟨rfl,rfl,rfl,rfl⟩
  have same : (modify s reader fun port => port.save byte).port sender = s.port sender ∨
      (modify s reader fun port => port.save byte).port sender = (s.port sender).save byte := by
    by_cases own : sender = reader
    · subst own
      exact Or.inr (Function.update_self ..)
    · exact Or.inl (Function.update_of_ne own ..)
  rcases same with same | same
  · exact ⟨⟨rfl,rfl,rfl,rfl,by rw [same],by rw [same],by rw [same]⟩,by rw [same]⟩
  · obtain ⟨pin,inverse,half,pending⟩ := kept (s.port sender)
    exact ⟨⟨rfl,rfl,rfl,rfl,by rw [same,pin],by rw [same,inverse],by rw [same,half]⟩,by rw [same,pending]⟩

theorem recv_aside (sender reader : ι) (s : State ι) (pin : Bool) : Aside sender s (recv s reader pin) := by
  have counted : Aside sender s {s with rxTickCnt := s.rxTickCnt - 1} := ⟨⟨rfl,rfl,rfl,rfl,rfl,rfl,rfl⟩,rfl⟩
  unfold recv
  simp only
  split
  · split
    · split <;> exact ⟨⟨rfl,rfl,rfl,rfl,rfl,rfl,rfl⟩,rfl⟩
    · split
      · split
        · obtain ⟨⟨out,tick,buffer,bit,level,inverse,half⟩,pending⟩ := save_aside sender reader s s.rxBuffer.toUInt8
          exact ⟨⟨out,tick,buffer,bit,level,inverse,half⟩,pending⟩
        · exact ⟨⟨rfl,rfl,rfl,rfl,rfl,rfl,rfl⟩,rfl⟩
      · split <;> exact ⟨⟨rfl,rfl,rfl,rfl,rfl,rfl,rfl⟩,rfl⟩
  · exact counted

theorem send_waits (s : State ι) (self : ι) (early : 1 < s.txTickCnt) :
    send s self = {s with txTickCnt := s.txTickCnt - 1} :=
  if_neg (by change ¬ s.txTickCnt - 1 ≤ 0; omega)

theorem send_bit (s : State ι) (self : ι) (due : s.txTickCnt = 1) (more : s.txBitCnt < 10) :
    send s self = {modify s self fun port => {port with transmitPin := s.txBuffer &&& 1 != 0} with
      txBuffer := s.txBuffer >>> 1, txBitCnt := s.txBitCnt + 1, txTickCnt := 3} := by
  simp [send,due,more,modify,oversample]

/-- Whether the transmission of a frame is given up at the next tick. -/
def Released (s : State ι) (self : ι) : Prop := (s.port self).outputPending = true ∨ 25 < s.txBitCnt + 1

theorem send_releases (s : State ι) (self : ι) (full : (s.port self).halfDuplex = false) (due : s.txTickCnt = 1)
    (whole : 10 ≤ s.txBitCnt) (released : Released s self) :
    send s self = {s with txTickCnt := 1, txBitCnt := s.txBitCnt + 1, activeOut := none} := by
  have past : ¬ s.txBitCnt < 10 := by omega
  rcases released with pending | rested
  · simp [send,due,past,pending]
  · simp [send,due,past,full,oversample,halfduplexSwitchDelay,rested]

theorem send_rests (s : State ι) (self : ι) (due : s.txTickCnt = 1) (whole : 10 ≤ s.txBitCnt) (holds : ¬ Released s self) :
    send s self = {s with txTickCnt := 1, txBitCnt := s.txBitCnt + 1} := by
  have past : ¬ s.txBitCnt < 10 := by omega
  obtain ⟨alone,soon⟩ := not_or.mp holds
  simp [send,due,past,alone,oversample,halfduplexSwitchDelay,soon]

/-- The word that an object of this polarity shifts out. -/
def polar (inverse : Bool) (b : UInt8) : UInt32 := if inverse then ~~~framed b else framed b

theorem framed_bit (w : Nat × UInt8) (k : Nat) (inside : k < (sent w).bits.length) :
    (framed w.2).toNat.testBit k = (sent w).bits[k] := by
  have length : k < 10 := inside
  have small : w.2.toNat < 2 ^ 8 := w.2.toNat_lt
  have word : (framed w.2).toNat = w.2.toNat <<< 1 ||| 2 ^ 9 := by
    have fits : w.2.toNat <<< 1 < 2 ^ 32 := by
      rw [Nat.shiftLeft_eq]
      omega
    simp only [framed,UInt32.toNat_or,UInt32.toNat_shiftLeft,UInt8.toNat_toUInt32]
    rw [show (1 : UInt32).toNat % 32 = 1 from rfl,Nat.mod_eq_of_lt fits]
    rfl
  rw [word,Nat.testBit_or,Nat.testBit_shiftLeft,Nat.testBit_two_pow]
  cases k with
  | zero => rfl
  | succ k =>
    by_cases data : k < 8
    · rw [(sent w).bits_data k data inside]
      have other : ¬ 9 = k + 1 := by omega
      simp [other,sent]
    · have stop : k = 8 := by omega
      subst stop
      rw [decide_eq_true (show 9 = 8 + 1 from rfl),Bool.or_true]
      rfl

theorem polar_bit (inverse : Bool) (w : Nat × UInt8) (k : Nat) (inside : k < (sent w).bits.length) :
    (polar inverse w.2).toNat.testBit k = ((sent w).bits[k] ^^ inverse) := by
  have word : k < 32 := Nat.lt_trans (show k < 10 from inside) (by decide)
  rw [← framed_bit w k inside]
  cases inverse with
  | false => simp [polar]
  | true =>
    rw [polar,if_pos rfl,← UInt32.toNat_toBitVec,UInt32.toBitVec_not,BitVec.testBit_toNat,BitVec.getLsbD_not]
    rw [← BitVec.testBit_toNat,UInt32.toNat_toBitVec,decide_eq_true word,Bool.true_and,Bool.xor_true]

theorem low_bit (buffer : UInt32) : (buffer &&& 1 != 0) = buffer.toNat.testBit 0 := by
  rw [Nat.testBit_zero,Bool.eq_iff_iff,bne_iff_ne,decide_eq_true_iff,ne_eq,← UInt32.toNat_inj,UInt32.toNat_and]
  rw [show (1 : UInt32).toNat = 1 from rfl,Nat.and_one_is_mod]
  exact Nat.mod_two_ne_zero

theorem send_relevelled (s : State ι) (self : ι) : Relevelled s (send s self) := by
  intro other
  unfold send
  simp only
  split
  · split
    · by_cases own : other = self
      · subst own
        exact ⟨_,Function.update_self ..⟩
      · exact ⟨_,Function.update_of_ne own ..⟩
    · split
      · exact ⟨_,rfl⟩
      · split
        · split
          · exact setRXTX_relevelled {s with txTickCnt := 1, txBitCnt := s.txBitCnt + 1} self true other
          · exact ⟨_,rfl⟩
        · exact ⟨_,rfl⟩
  · exact ⟨_,rfl⟩

/-- Behind the stop bit the line is given up, or rests for a bit more. -/
theorem send_ends {self : ι} {inverse : Bool} {s : State ι} {n : Nat} {written : List (Nat × UInt8)}
    (full : (s.port self).halfDuplex = false) (out : s.activeOut = some self) (mark : (s.port self).transmitPin = !inverse)
    (due : s.txTickCnt = 1) (whole : 10 ≤ s.txBitCnt) (ended : ∀ w ∈ written, w.1 + 33 ≤ n) :
    Sends self inverse (send s self) n written ∧ ((send s self).port self).transmitPin = !inverse := by
  by_cases released : Released s self
  · rw [send_releases s self full due whole released]
    exact ⟨.silent _ rfl mark ended,mark⟩
  · rw [send_rests s self due whole released]
    exact ⟨.resting _ out mark (by change 10 < s.txBitCnt + 1; omega) rfl ended,mark⟩

theorem level_beside {earlier : List (Nat × UInt8)} {w : Nat × UInt8} {n : Nat} (behind : ∀ v ∈ earlier, v.1 + 32 ≤ n)
    (off : n < w.1 + 2 ∨ w.1 + 32 ≤ n) : level (earlier ++ [w]) n = true := by
  apply level_mark
  intro v among
  rcases List.mem_append.mp among with before | last
  · exact Or.inr (behind v before)
  · cases List.mem_singleton.mp last
    exact off

/-- The bits below `k` of the byte `w` are sent, and those of the bytes before it. -/
structure Underway (self : ι) (inverse : Bool) (s : State ι) (n : Nat) (earlier : List (Nat × UInt8)) (w : Nat × UInt8)
    (k : Nat) : Prop where
  out : s.activeOut = some self
  more : k ≤ 10
  bit : s.txBitCnt = k
  due : n + s.txTickCnt = w.1 + 3 * (k + 1)
  held : ∀ i, (inside : i + k < (sent w).bits.length) → s.txBuffer.toNat.testBit i = ((sent w).bits[i + k] ^^ inverse)
  now : (s.port self).transmitPin = ((true :: (sent w).bits).get ⟨k,Nat.lt_succ_of_le more⟩ ^^ inverse)
  ended : ∀ v ∈ earlier, v.1 + 33 ≤ w.1

namespace Underway
variable {self : ι} {inverse : Bool} {s : State ι} {n : Nat} {earlier : List (Nat × UInt8)} {w : Nat × UInt8} {k : Nat}

omit [DecidableEq ι] in
theorem behind (underway : Underway self inverse s n earlier w k) (few : s.txTickCnt ≤ 3) : ∀ v ∈ earlier, v.1 + 32 ≤ n := by
  intro v before
  obtain ⟨_,_,_,due,_,_,ended⟩ := underway
  have past := ended v before
  omega

theorem waits (underway : Underway self inverse s n earlier w k) (apart : Apart (earlier ++ [w])) (few : s.txTickCnt ≤ 3)
    (early : 1 < s.txTickCnt) : Sends self inverse (send s self) (n + 1) (earlier ++ [w]) ∧
      ((send s self).port self).transmitPin = (level (earlier ++ [w]) n ^^ inverse) := by
  have behind := underway.behind few
  obtain ⟨out,more,bit,due,held,now,ended⟩ := underway
  rw [send_waits s self early]
  refine ⟨.sending earlier w k out more bit (by change 1 ≤ s.txTickCnt - 1; omega) (by change s.txTickCnt - 1 ≤ 3; omega)
    (by change (n + 1 : Nat) + (s.txTickCnt - 1) = _; push_cast; omega) held now ended,now.trans ?_⟩
  cases k with
  | zero =>
    rw [level_beside behind (Or.inl (by omega))]
    rfl
  | succ k =>
    rw [level_bit _ apart w (by simp) n k more (by push_cast at due; omega) (by push_cast at due; omega)]
    rfl

theorem next (underway : Underway self inverse s n earlier w k) (apart : Apart (earlier ++ [w])) (ready : s.txTickCnt = 1)
    (bits : k < 10) : Sends self inverse (send s self) (n + 1) (earlier ++ [w]) ∧
      ((send s self).port self).transmitPin = (level (earlier ++ [w]) n ^^ inverse) := by
  obtain ⟨out,more,bit,due,held,now,ended⟩ := underway
  rw [send_bit s self ready (by omega)]
  have first := held 0 (by rw [Nat.zero_add]; exact bits)
  simp only [Nat.zero_add] at first
  have pin : (((modify s self fun port => {port with transmitPin := s.txBuffer &&& 1 != 0}).port self).transmitPin) =
      ((sent w).bits.get ⟨k,bits⟩ ^^ inverse) := by
    simp only [modify,Function.update_self,low_bit]
    exact first
  refine ⟨.sending earlier w (k + 1) out bits (by change s.txBitCnt + 1 = _; push_cast; omega)
    (show (1 : Int) ≤ 3 by decide) (le_refl (3 : Int)) ?_ ?_ pin ended,pin.trans ?_⟩
  · change (n + 1 : Nat) + (3 : Int) = _
    push_cast
    omega
  · intro i inside
    change (s.txBuffer >>> 1).toNat.testBit i = _
    have later := held (i + 1) (by omega)
    rw [UInt32.toNat_shiftRight]
    change (s.txBuffer.toNat >>> 1).testBit i = _
    rw [Nat.testBit_shiftRight,Nat.add_comm 1 i,later]
    simp only [Nat.add_assoc,Nat.add_comm 1 k]
  · rw [level_bit _ apart w (by simp) n k bits (by omega) (by omega)]
    rfl

theorem last (underway : Underway self inverse s n earlier w 10) (full : (s.port self).halfDuplex = false)
    (ready : s.txTickCnt = 1) : Sends self inverse (send s self) (n + 1) (earlier ++ [w]) ∧
      ((send s self).port self).transmitPin = (level (earlier ++ [w]) n ^^ inverse) := by
  have behind := underway.behind (by omega)
  obtain ⟨out,more,bit,due,held,now,ended⟩ := underway
  have whole : ∀ v ∈ earlier ++ [w], v.1 + 33 ≤ n + 1 := by
    intro v among
    rcases List.mem_append.mp among with before | same
    · have past := behind v before
      omega
    · cases List.mem_singleton.mp same
      omega
  have mark : (s.port self).transmitPin = !inverse := now.trans (by cases inverse <;> rfl)
  rw [level_beside behind (Or.inr (by omega)),Bool.true_xor]
  exact send_ends full out mark ready (by omega) whole

end Underway

/-- A tick sets the pin to the level of the frames. -/
theorem send_sends {self : ι} {inverse : Bool} {s : State ι} {n : Nat} {written : List (Nat × UInt8)}
    (sends : Sends self inverse s n written) (full : (s.port self).halfDuplex = false) (apart : Apart written)
    (active : s.activeOut = some self) :
    Sends self inverse (send s self) (n + 1) written ∧
      ((send s self).port self).transmitPin = (level written n ^^ inverse) := by
  cases sends with
  | silent _ out mark ended => exact absurd (out.symm.trans active) nofun
  | sending earlier w k out more bit count few due held now ended =>
    have underway : Underway self inverse s n earlier w k := ⟨out,more,bit,due,held,now,ended⟩
    by_cases early : 1 < s.txTickCnt
    · exact underway.waits apart few early
    · have ready : s.txTickCnt = 1 := by omega
      by_cases bits : k < 10
      · exact underway.next apart ready bits
      · have stop : k = 10 := by omega
        subst stop
        exact underway.last full ready
  | resting _ out mark bit due ended =>
    have idle : level written n = true := level_mark written n fun w among => Or.inr (by have past := ended w among; omega)
    have whole : ∀ w ∈ written, w.1 + 33 ≤ n + 1 := fun w among => Nat.le_succ_of_le (ended w among)
    rw [idle,Bool.true_xor]
    exact send_ends full out mark due bit.le whole

theorem handleInterrupt_order (s : State ι) (pins : ι → Bool) :
    ∃ t, (t = s ∨ ∃ reader pin, t = recv s reader pin) ∧ handleInterrupt s pins = match t.activeOut with
      | some sender => send t sender
      | none => t := by
  unfold handleInterrupt
  cases s.activeIn with
  | none => exact ⟨s,Or.inl rfl,rfl⟩
  | some reader => exact ⟨recv s reader (pins reader),Or.inr ⟨reader,_,rfl⟩,rfl⟩

theorem handleInterrupt_sender (self : ι) (s : State ι) (pins : ι → Bool) :
    ∃ t, Aside self s t ∧ handleInterrupt s pins = match t.activeOut with
      | some sender => send t sender
      | none => t := by
  obtain ⟨t,rfl | ⟨reader,pin,rfl⟩,step⟩ := handleInterrupt_order s pins
  · exact ⟨t,.refl self t,step⟩
  · exact ⟨_,recv_aside self reader s pin,step⟩

theorem handleInterrupt_silent (self : ι) (s : State ι) (pins : ι → Bool) (silent : s.activeOut = none) :
    Aside self s (handleInterrupt s pins) := by
  obtain ⟨t,same,step⟩ := handleInterrupt_sender self s pins
  rw [step,same.activeOut,silent]
  exact same

theorem handleInterrupt_port (self : ι) (s : State ι) (pins : ι → Bool) :
    ((handleInterrupt s pins).port self).halfDuplex = (s.port self).halfDuplex ∧
      ((handleInterrupt s pins).port self).inverseLogic = (s.port self).inverseLogic ∧
      ((handleInterrupt s pins).port self).outputPending = (s.port self).outputPending := by
  obtain ⟨t,same,step⟩ := handleInterrupt_sender self s pins
  rw [step]
  cases t.activeOut with
  | none => exact ⟨same.halfDuplex,same.inverseLogic,same.outputPending⟩
  | some sender =>
    obtain ⟨level,kept⟩ := send_relevelled t sender self
    simp only [kept]
    exact ⟨same.halfDuplex,same.inverseLogic,same.outputPending⟩

theorem handleInterrupt_sends {self : ι} {inverse : Bool} {s : State ι} {n : Nat} {written : List (Nat × UInt8)}
    (pins : ι → Bool) (sends : Sends self inverse s n written) (full : (s.port self).halfDuplex = false)
    (apart : Apart written) :
    Sends self inverse (handleInterrupt s pins) (n + 1) written ∧
      ((handleInterrupt s pins).port self).transmitPin = (level written n ^^ inverse) := by
  obtain ⟨t,same,step⟩ := handleInterrupt_sender self s pins
  have before : Sends self inverse t n written := sends.steady same.toSteady
  rw [step]
  cases out : t.activeOut with
  | none =>
    obtain ⟨mark,ended⟩ := before.quiet out
    have idle : level written n = true := level_mark written n fun w among => Or.inr (by have past := ended w among; omega)
    rw [idle,Bool.true_xor]
    exact ⟨.silent written out mark fun w among => Nat.le_succ_of_le (ended w among),mark⟩
  | some sender =>
    cases before.own out
    exact send_sends before (same.halfDuplex.trans full) apart out

end Sending

section Waveform
variable {ι : Type}

/-- What the assignments behind the loop have done so far. -/
structure Loaded (inverse : Bool) (b : UInt8) (done : Nat) (s : State ι) : Prop where
  out : s.activeOut = none
  plain : done = 1 → s.txBuffer = framed b
  word : 2 ≤ done → s.txBuffer = polar inverse b
  bit : 3 ≤ done → s.txBitCnt = 0
  count : 4 ≤ done → s.txTickCnt = 3

def Staged (self : ι) (inverse : Bool) (s : State ι) : Stage → Prop
  | .idle => True
  | .waiting _ => (s.port self).outputPending = true
  | .loading b done => done < 8 ∧ Loaded inverse b done s

structure Session.Sound (sender : ι) (inverse : Bool) (s : Session ι) : Prop where
  full : (s.serial.port sender).halfDuplex = false
  inverseLogic : (s.serial.port sender).inverseLogic = inverse
  sends : Sends sender inverse s.serial s.line.length s.written
  apart : Apart s.written
  levels : ∀ n (inside : n < s.line.length), s.line[n] = (level s.written n ^^ inverse)
  staged : Staged sender inverse s.serial s.stage

theorem Staged.aside {self : ι} {inverse : Bool} {s next : State ι} {stage : Stage} (staged : Staged self inverse s stage)
    (same : Aside self s next) : Staged self inverse next stage := by
  cases stage with
  | idle => trivial
  | waiting b => exact same.outputPending.trans staged
  | loading b done =>
    obtain ⟨few,loaded⟩ := staged
    exact ⟨few,same.activeOut.trans loaded.out,fun one => same.txBuffer.trans (loaded.plain one),
      fun two => same.txBuffer.trans (loaded.word two),fun three => same.txBitCnt.trans (loaded.bit three),
      fun four => same.txTickCnt.trans (loaded.count four)⟩

theorem loaded_sends {self : ι} {inverse : Bool} {b : UInt8} {s : State ι} {n : Nat} {written : List (Nat × UInt8)}
    (loaded : Loaded inverse b 7 s) (sends : Sends self inverse s n written) :
    Sends self inverse {s with activeOut := some self} n (written ++ [(n,b)]) := by
  obtain ⟨mark,ended⟩ := sends.quiet loaded.out
  have count : s.txTickCnt = 3 := loaded.count (by decide)
  refine .sending written (n,b) 0 rfl (Nat.zero_le 10) (loaded.bit (by decide)) ?_ ?_ ?_ ?_ ?_ ended
  · change 1 ≤ s.txTickCnt
    omega
  · change s.txTickCnt ≤ 3
    omega
  · change n + s.txTickCnt = n + 3 * ((0 : Nat) + 1)
    omega
  · intro i inside
    change s.txBuffer.toNat.testBit i = _
    rw [loaded.word (by decide)]
    exact polar_bit inverse (n,b) i inside
  · exact mark.trans (Bool.true_xor inverse).symm

theorem apart_append {written : List (Nat × UInt8)} {n : Nat} {b : UInt8} (apart : Apart written)
    (ended : ∀ w ∈ written, w.1 + 33 ≤ n) : Apart (written ++ [(n,b)]) := by
  refine List.pairwise_append.mpr ⟨apart,List.pairwise_singleton _ _,?_⟩
  intro v before w last
  cases List.mem_singleton.mp last
  exact ended v before

variable [DecidableEq ι]

theorem request_port (s : State ι) (self : ι) :
    (request s self).port self = {s.port self with outputPending := true} := Function.update_self ..

theorem request_steady (s : State ι) (self : ι) : Steady self s (request s self) := by
  have port := request_port s self
  exact ⟨rfl,rfl,rfl,rfl,by rw [port],by rw [port],by rw [port]⟩

/-- One assignment after the other loads the registers of the interrupt. -/
theorem load_loads {self : ι} {inverse : Bool} {b : UInt8} {done : Nat} {s : State ι} (loaded : Loaded inverse b done s)
    (full : (s.port self).halfDuplex = false) (polarity : (s.port self).inverseLogic = inverse) (more : done + 1 < 8)
    (assign : State ι → State ι) (next : (load self b)[done]? = some assign) :
    Loaded inverse b (done + 1) (assign s) ∧ ((assign s).port self).transmitPin = (s.port self).transmitPin ∧
      ((assign s).port self).halfDuplex = (s.port self).halfDuplex ∧
      ((assign s).port self).inverseLogic = (s.port self).inverseLogic := by
  have few : done < 7 := Nat.lt_of_succ_lt_succ more
  interval_cases done
  · cases Option.some.inj next
    exact ⟨⟨loaded.out,fun _ => rfl,nofun,nofun,nofun⟩,rfl,rfl,rfl⟩
  · cases Option.some.inj next
    have plain := loaded.plain rfl
    beta_reduce
    rw [polarity]
    cases inverse with
    | false =>
      rw [if_neg Bool.false_ne_true]
      exact ⟨⟨loaded.out,nofun,fun _ => plain,nofun,nofun⟩,rfl,rfl,polarity⟩
    | true =>
      rw [if_pos rfl]
      exact ⟨⟨loaded.out,nofun,fun _ => congrArg (~~~·) plain,nofun,nofun⟩,rfl,rfl,polarity⟩
  · cases Option.some.inj next
    exact ⟨⟨loaded.out,nofun,fun _ => loaded.word (le_refl 2),fun _ => rfl,nofun⟩,rfl,rfl,rfl⟩
  · cases Option.some.inj next
    exact ⟨⟨loaded.out,nofun,fun _ => loaded.word (by decide),fun _ => loaded.bit (le_refl 3),fun _ => rfl⟩,rfl,rfl,rfl⟩
  · cases Option.some.inj next
    beta_reduce
    rw [setSpeed_frame]
    exact ⟨⟨loaded.out,nofun,fun _ => loaded.word (by decide),fun _ => loaded.bit (by decide),fun _ => loaded.count (le_refl 4)⟩,
      rfl,rfl,rfl⟩
  · cases Option.some.inj next
    beta_reduce
    rw [full,if_neg Bool.false_ne_true]
    exact ⟨⟨loaded.out,nofun,fun _ => loaded.word (by decide),fun _ => loaded.bit (by decide),fun _ => loaded.count (by decide)⟩,
      rfl,full,rfl⟩
  · cases Option.some.inj next
    exact ⟨⟨loaded.out,nofun,fun _ => loaded.word (by decide),fun _ => loaded.bit (by decide),fun _ => loaded.count (by decide)⟩,
      by simp [modify],by simp [modify],by simp [modify]⟩

theorem Session.tick_sound {self : ι} {inverse : Bool} {s : Session ι} (sound : s.Sound self inverse) (pins : ι → Bool) :
    Session.Sound self inverse ⟨handleInterrupt s.serial pins,s.stage,
      s.line ++ [((handleInterrupt s.serial pins).port self).transmitPin],s.written⟩ := by
  obtain ⟨sends,pin⟩ := handleInterrupt_sends pins sound.sends sound.full sound.apart
  obtain ⟨full,polarity,pending⟩ := handleInterrupt_port self s.serial pins
  refine ⟨full.trans sound.full,polarity.trans sound.inverseLogic,?_,sound.apart,?_,?_⟩
  · rw [List.length_append]
    exact sends
  · intro n inside
    by_cases before : n < s.line.length
    · rw [List.getElem_append_left before]
      exact sound.levels n before
    · have last : n = s.line.length := by
        rw [List.length_append,List.length_singleton] at inside
        omega
      subst last
      rw [List.getElem_concat_length rfl]
      exact pin
  · have staged := sound.staged
    cases stage : s.stage with
    | idle => trivial
    | waiting b =>
      rw [stage] at staged
      exact pending.trans staged
    | loading b done =>
      rw [stage] at staged
      exact Staged.aside staged (handleInterrupt_silent self s.serial pins staged.2.out)

theorem Session.step_sound {self : ι} {inverse : Bool} {s next : Session ι} {event : Event ι} (sound : s.Sound self inverse)
    (taken : s.step self event = some next) : next.Sound self inverse := by
  have staged := sound.staged
  cases step_takes taken with
  | call b idle =>
    have same := request_steady s.serial self
    refine ⟨same.halfDuplex.trans sound.full,same.inverseLogic.trans sound.inverseLogic,sound.sends.steady same,sound.apart,
      sound.levels,?_⟩
    change ((request s.serial self).port self).outputPending = true
    rw [request_port]
  | waits b waiting => exact sound
  | begins b waiting free =>
    exact ⟨sound.full,sound.inverseLogic,sound.sends,sound.apart,sound.levels,by decide,free,nofun,nofun,nofun,nofun⟩
  | loads b done assign loading next more =>
    rw [loading] at staged
    obtain ⟨few,loaded⟩ := staged
    obtain ⟨onward,pin,half,polarity⟩ := load_loads loaded sound.full sound.inverseLogic more assign next
    obtain ⟨mark,ended⟩ := sound.sends.quiet loaded.out
    exact ⟨half.trans sound.full,polarity.trans sound.inverseLogic,.silent s.written onward.out (pin.trans mark) ended,
      sound.apart,sound.levels,more,onward⟩
  | returns b done assign loading next last =>
    rw [loading] at staged
    obtain ⟨few,loaded⟩ := staged
    have seven : done = 7 := by
      rw [show (load self b).length = 8 from rfl] at last
      omega
    subst seven
    cases Option.some.inj next
    refine ⟨sound.full,sound.inverseLogic,loaded_sends loaded sound.sends,?_,?_,trivial⟩
    · exact apart_append sound.apart (sound.sends.quiet loaded.out).2
    · intro n inside
      rw [level_later s.written _ n (Nat.lt_add_right 2 inside)]
      exact sound.levels n inside
  | ticks pins => exact Session.tick_sound sound pins

/-- A tick that finds another call behind the stop bit gives the line up. -/
theorem send_prompt {self : ι} {inverse : Bool} {s : State ι} {n : Nat} {written : List (Nat × UInt8)}
    (sends : Sends self inverse s n written) (full : (s.port self).halfDuplex = false)
    (active : s.activeOut = some self) (pending : (s.port self).outputPending = true) :
    (send s self).activeOut = none ∨ (send s self).txBitCnt ≤ 10 := by
  cases sends with
  | silent _ out mark ended => exact absurd (out.symm.trans active) nofun
  | sending earlier w k out more bit count few due held now ended =>
    by_cases early : 1 < s.txTickCnt
    · rw [send_waits s self early]
      exact Or.inr (by change s.txBitCnt ≤ 10; omega)
    · have ready : s.txTickCnt = 1 := by omega
      by_cases bits : k < 10
      · rw [send_bit s self ready (by omega)]
        exact Or.inr (by change s.txBitCnt + 1 ≤ 10; omega)
      · rw [send_releases s self full ready (by omega) (Or.inl pending)]
        exact Or.inl rfl
  | resting _ out mark bit due ended =>
    rw [send_releases s self full due bit.le (Or.inl pending)]
    exact Or.inl rfl

theorem handleInterrupt_prompt {self : ι} {inverse : Bool} {s : State ι} {n : Nat} {written : List (Nat × UInt8)}
    (pins : ι → Bool) (sends : Sends self inverse s n written) (full : (s.port self).halfDuplex = false)
    (pending : (s.port self).outputPending = true) :
    (handleInterrupt s pins).activeOut = none ∨ (handleInterrupt s pins).txBitCnt ≤ 10 := by
  obtain ⟨t,same,step⟩ := handleInterrupt_sender self s pins
  have before : Sends self inverse t n written := sends.steady same.toSteady
  rw [step]
  cases out : t.activeOut with
  | none => exact Or.inl out
  | some sender =>
    cases before.own out
    exact send_prompt before (same.halfDuplex.trans full) out (same.outputPending.trans pending)

theorem ticks_sends {self : ι} {inverse : Bool} {s : State ι} {n : Nat} {written : List (Nat × UInt8)}
    (pins : Nat → ι → Bool) (sends : Sends self inverse s n written) (full : (s.port self).halfDuplex = false)
    (apart : Apart written) (m : Nat) :
    Sends self inverse (ticks s pins m) (n + m) written ∧ ((ticks s pins m).port self).halfDuplex = false ∧
      ((ticks s pins m).port self).outputPending = (s.port self).outputPending := by
  induction m with
  | zero => exact ⟨sends,full,rfl⟩
  | succ m ih =>
    obtain ⟨before,half,pending⟩ := ih
    obtain ⟨duplex,_,same⟩ := handleInterrupt_port self (ticks s pins m) (pins m)
    exact ⟨(handleInterrupt_sends (pins m) before half apart).1,duplex.trans half,same.trans pending⟩

/-- Whoever waits in `write` goes on once the frame before has its ten bits and a stop level. -/
theorem ticks_release {self : ι} {inverse : Bool} {s : State ι} {n : Nat} {written : List (Nat × UInt8)}
    (pins : Nat → ι → Bool) (sends : Sends self inverse s n written) (full : (s.port self).halfDuplex = false)
    (apart : Apart written) (pending : (s.port self).outputPending = true) : (ticks s pins 33).activeOut = none := by
  have past : ∀ w ∈ written, w.1 ≤ n := by
    intro w among
    cases sends with
    | silent _ out mark ended => exact Nat.le_of_add_right_le (ended w among)
    | sending earlier last k out more bit count few due held now ended =>
      rcases List.mem_append.mp among with before | same
      · have early := ended w before
        omega
      · cases List.mem_singleton.mp same
        omega
    | resting _ out mark bit due ended => exact Nat.le_of_add_right_le (ended w among)
  obtain ⟨before,half,same⟩ := ticks_sends pins sends full apart 32
  obtain ⟨behind,_,_⟩ := ticks_sends pins sends full apart 33
  rcases handleInterrupt_prompt (pins 32) before half (same.trans pending) with none | few
  · exact none
  · generalize state : ticks s pins 33 = t at behind
    have count : t.txBitCnt ≤ 10 := by
      rw [← state]
      exact few
    cases behind with
    | silent _ out => exact out
    | sending earlier w k out more bit positive least due =>
      have first := past w (by simp)
      omega
    | resting _ out mark bit => omega

theorem takeOver_full (s : State ι) (self : ι) (full : (s.port self).halfDuplex = false) :
    (takeOver s self).port = s.port ∧ (takeOver s self).activeOut = s.activeOut := by
  unfold takeOver
  rw [setSpeed_frame]
  simp only [full,Bool.not_false,if_true]
  exact ⟨trivial,trivial⟩

theorem setRXTX_other (s : State ι) (self other : ι) (input : Bool) (different : self ≠ other) :
    (setRXTX s other input).port self = s.port self := by
  unfold setRXTX setTX modify
  split_ifs
  · rfl
  · rfl
  · exact Function.update_of_ne different ..
  · rfl
  · rfl

theorem stopListening_other (s next : State ι) (self other : ι) (different : self ≠ other)
    (stops : stopListening s other = some next) : next.port self = s.port self ∧ next.activeOut = s.activeOut := by
  unfold stopListening at stops
  split at stops
  · split at stops
    · contradiction
    · cases Option.some.inj stops
      rw [setSpeed_frame]
      split
      · exact ⟨setRXTX_other s self other false different,setRXTX_activeOut s other false⟩
      · exact ⟨rfl,rfl⟩
  · cases Option.some.inj stops
    exact ⟨rfl,rfl⟩

theorem listen_full (s next : State ι) (self : ι) (full : (s.port self).halfDuplex = false) (listens : listen s self = some next) :
    next.port self = s.port self ∧ next.activeOut = s.activeOut := by
  unfold listen at listens
  split at listens
  · cases Option.some.inj listens
    exact ⟨rfl,rfl⟩
  · rename_i another
    split at listens
    · contradiction
    · split at listens
      · rename_i other listener
        obtain ⟨t,stops,rfl⟩ := Option.map_eq_some_iff.mp listens
        have different : self ≠ other := by
          rintro rfl
          exact another listener
        obtain ⟨port,out⟩ := stopListening_other s t self other different stops
        obtain ⟨ports,same⟩ := takeOver_full t self (by rw [port]; exact full)
        exact ⟨by rw [ports,port],same.trans out⟩
      · cases Option.some.inj listens
        obtain ⟨ports,same⟩ := takeOver_full s self full
        exact ⟨by rw [ports],same⟩

theorem begin_full (s next : State ι) (self : ι) (speed : UInt32) (full : (s.port self).halfDuplex = false)
    (begun : begin s self speed = some next) :
    next.port self = {s.port self with speed := speed, transmitPin := !(s.port self).inverseLogic} ∧
      next.activeOut = s.activeOut := by
  have port : (setTX (modify s self fun port => {port with speed := speed}) self).port self =
      {s.port self with speed := speed, transmitPin := !(s.port self).inverseLogic} := by
    simp [setTX,modify]
  have half : ((modify s self fun port => {port with speed := speed}).port self).halfDuplex = false := by
    simp [modify,full]
  simp only [begin,half,Bool.not_false,if_true] at begun
  obtain ⟨same,out⟩ := listen_full _ next self (by rw [port]; exact full) begun
  exact ⟨same.trans port,out⟩

theorem Session.start_sound (s first : State ι) (self : ι) (speed : UInt32) (silent : s.activeOut = none)
    (full : (s.port self).halfDuplex = false) (begun : begin s self speed = some first) :
    (Session.start first).Sound self (s.port self).inverseLogic := by
  obtain ⟨port,out⟩ := begin_full s first self speed full begun
  have half : (first.port self).halfDuplex = false := by rw [port]; exact full
  have polarity : (first.port self).inverseLogic = (s.port self).inverseLogic := by rw [port]
  have mark : (first.port self).transmitPin = !(s.port self).inverseLogic := by rw [port]
  exact ⟨half,polarity,.silent [] (out.trans silent) mark nofun,List.Pairwise.nil,nofun,trivial⟩

theorem Session.step_bytes {self : ι} {s next : Session ι} {event : Event ι} (taken : s.step self event = some next) :
    next.written.map Prod.snd ++ next.stage.bytes = s.written.map Prod.snd ++ s.stage.bytes ++ event.bytes := by
  cases step_takes taken with
  | call b idle => simp [idle,Stage.bytes,Event.bytes]
  | waits b waiting => simp [Event.bytes]
  | begins b waiting free => simp [waiting,Stage.bytes,Event.bytes]
  | loads b done assign loading next more => simp [loading,Stage.bytes,Event.bytes]
  | returns b done assign loading next last => simp [loading,Stage.bytes,Event.bytes]
  | ticks pins => simp [Event.bytes]

theorem Session.after_bytes {self : ι} {s next : Session ι} {events : List (Event ι)}
    (reached : Run.after (Session.step self) s events = some next) :
    next.written.map Prod.snd ++ next.stage.bytes = s.written.map Prod.snd ++ s.stage.bytes ++ events.flatMap Event.bytes := by
  induction events generalizing s with
  | nil =>
    cases Option.some.inj reached
    exact (List.append_nil _).symm
  | cons event rest ih =>
    rw [Run.after_cons] at reached
    obtain ⟨t,taken,onward⟩ := Option.bind_eq_some_iff.mp reached
    rw [ih onward,step_bytes taken,List.flatMap_cons,List.append_assoc]

/-- After `begin` the transmit pin rests at the mark level and carries the frames of the written bytes one behind the
other, each with a start bit, eight data bits and a stop bit of three ticks; whoever waits gets on after 33 ticks. -/
theorem line_carries (self : ι) (s first : State ι) (speed : UInt32) (silent : s.activeOut = none)
    (full : (s.port self).halfDuplex = false) (begun : begin s self speed = some first) (events : List (Event ι))
    (session : Session ι) (reached : Run.after (Session.step self) (.start first) events = some session) :
    (∀ n (inside : n < session.line.length),
      session.line[n] = (line (3 : ℚ) (session.written.map fun w => (sent w).burst) n ^^ (s.port self).inverseLogic)) ∧
    (session.written.Pairwise fun v w => (sent v).start + 30 + 3 ≤ (sent w).start) ∧
    session.written.map Prod.snd ++ session.stage.bytes = events.flatMap Event.bytes ∧
    ∀ b pins, session.stage = .waiting b → (ticks session.serial pins 33).activeOut = none := by
  have sound : session.Sound self (s.port self).inverseLogic := by
    apply Run.invariant (Session.Sound self (s.port self).inverseLogic) _ (.start first) session events _ reached
    · exact fun t event next sound taken => Session.step_sound sound taken
    · exact Session.start_sound s first self speed silent full begun
  refine ⟨sound.levels,?_,Session.after_bytes reached,?_⟩
  · apply sound.apart.imp
    intro v w ordered
    have cast : (v.1 : ℚ) + 33 ≤ w.1 := by exact_mod_cast ordered
    simp only [sent]
    linarith
  · intro b pins waits
    have staged := sound.staged
    rw [waits] at staged
    exact ticks_release pins sound.sends sound.full sound.apart staged

theorem line_carries_waiting :
    ∃ first session, begin (boot 84000000 fun _ : Unit => .construct true false) () 9600 = some first ∧
      Run.after (Session.step ()) (.start first) ([.call 65] ++ List.replicate 9 .run ++ [.tick fun _ => false,.call 66]) =
        some session ∧ session.stage = .waiting 66 ∧ (ticks session.serial (fun _ _ => true) 33).activeOut = none := by
  refine ⟨_,_,rfl,rfl,rfl,?_⟩
  exact (line_carries () (boot 84000000 fun _ : Unit => .construct true false) _ 9600 rfl rfl rfl
    ([.call 65] ++ List.replicate 9 .run ++ [.tick fun _ => false,.call 66]) _ rfl).2.2.2 66 _ rfl

end Waveform

end OpenPlc.Serial.SoftwareSerial
