import Mathlib.Data.List.Basic
import Mathlib.Tactic.Common

/-! Timed reading from a `Stream`. What a stream is to its reader is the sequence of
answers to its polls: a byte, or none after some milliseconds. A stream without
further answers stays silent until the reader gives up. -/
namespace OpenPlc.Streams

inductive Tick
  | byte (value : UInt8)
  | idle (ms : UInt32)

/-- The `do` loop of `Stream::timedPeek`; `elapsed` is `millis() - _startMillis`. -/
def pollPeek (timeout elapsed : UInt32) : List Tick → Option UInt8 × List Tick
  | [] => (none,[])
  | .byte value :: rest => (some value,.byte value :: rest)
  | .idle ms :: rest => if elapsed + ms < timeout then pollPeek timeout (elapsed + ms) rest else (none,rest)

def timedPeek (timeout : UInt32) (ticks : List Tick) : Option UInt8 × List Tick := pollPeek timeout 0 ticks

def read : List Tick → Option UInt8 × List Tick
  | .byte value :: rest => (some value,rest)
  | ticks => (none,ticks)

/-- The `do` loop of `Stream::timedRead`. -/
def pollRead (timeout elapsed : UInt32) : List Tick → Option UInt8 × List Tick
  | [] => (none,[])
  | .byte value :: rest => (some value,rest)
  | .idle ms :: rest => if elapsed + ms < timeout then pollRead timeout (elapsed + ms) rest else (none,rest)

def timedRead (timeout : UInt32) (ticks : List Tick) : Option UInt8 × List Tick := pollRead timeout 0 ticks

/-- All the bytes that the stream will ever deliver. -/
def bytes (ticks : List Tick) : List UInt8 :=
  ticks.filterMap fun tick => match tick with
    | .byte value => some value
    | .idle _ => none

/-- The bytes that a reader gets before its first timeout. -/
def heard (timeout elapsed : UInt32) : List Tick → List UInt8
  | [] => []
  | .byte value :: rest => value :: heard timeout 0 rest
  | .idle ms :: rest => if elapsed + ms < timeout then heard timeout (elapsed + ms) rest else []

@[simp] theorem bytes_idle (ms : UInt32) (rest : List Tick) : bytes (.idle ms :: rest) = bytes rest := rfl

theorem pollPeek_cases (timeout elapsed : UInt32) (ticks : List Tick) :
    (∃ value rest, pollPeek timeout elapsed ticks = (some value,.byte value :: rest) ∧
      heard timeout elapsed ticks = value :: heard timeout 0 rest ∧ bytes ticks = value :: bytes rest ∧
      rest.length < ticks.length) ∨
    (∃ rest, pollPeek timeout elapsed ticks = (none,rest) ∧ heard timeout elapsed ticks = [] ∧
      bytes ticks = bytes rest) := by
  induction ticks generalizing elapsed with
  | nil => exact Or.inr ⟨[],rfl,rfl,rfl⟩
  | cons tick rest ih =>
    cases tick with
    | byte value => exact Or.inl ⟨value,rest,rfl,rfl,rfl,by simp⟩
    | idle ms =>
      simp only [pollPeek,heard,bytes_idle]
      by_cases more : elapsed + ms < timeout
      · simp only [more,if_true]
        rcases ih (elapsed + ms) with ⟨value,later,found,hears,all,fewer⟩ | silent
        · exact Or.inl ⟨value,later,found,hears,all,by simp only [List.length_cons]; omega⟩
        · exact Or.inr silent
      · simp only [more,if_false]
        exact Or.inr ⟨rest,rfl,trivial,rfl⟩

theorem pollRead_eq (timeout elapsed : UInt32) (ticks : List Tick) :
    pollRead timeout elapsed ticks = match pollPeek timeout elapsed ticks with
      | (some _,rest) => read rest
      | (none,rest) => (none,rest) := by
  induction ticks generalizing elapsed with
  | nil => rfl
  | cons tick rest ih =>
    cases tick with
    | byte value => rfl
    | idle ms =>
      simp only [pollRead,pollPeek]
      by_cases more : elapsed + ms < timeout
      · simp only [more,if_true]
        exact ih (elapsed + ms)
      · simp only [more,if_false]

theorem timedRead_cases (timeout : UInt32) (ticks : List Tick) :
    (∃ value rest, timedRead timeout ticks = (some value,rest) ∧
      heard timeout 0 ticks = value :: heard timeout 0 rest ∧ bytes ticks = value :: bytes rest ∧
      rest.length < ticks.length) ∨
    (∃ rest, timedRead timeout ticks = (none,rest) ∧ heard timeout 0 ticks = [] ∧ bytes ticks = bytes rest) := by
  rcases pollPeek_cases timeout 0 ticks with ⟨value,rest,found,hears,all,fewer⟩ | ⟨rest,silent,hears,all⟩
  · exact Or.inl ⟨value,rest,by rw [timedRead,pollRead_eq,found]; rfl,hears,all,fewer⟩
  · exact Or.inr ⟨rest,by rw [timedRead,pollRead_eq,silent],hears,all⟩

end OpenPlc.Streams
