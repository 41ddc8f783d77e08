import Mathlib.Tactic.Common

/-! `Print::print` of a `long`: the bytes that it writes. A `long` has 32 bits and is
negated modulo 2^32. -/
namespace OpenPlc.Streams.Print

/-- A base for the digit loop, which ends only when dividing by it makes progress. -/
structure Base where
  value : Nat
  two_le : 2 ≤ value

/-- `if (base < 2) base = 10;` on a `uint8_t`. -/
def toBase (base : Nat) : Base :=
  if small : base % 256 < 2 then ⟨10,by decide⟩ else ⟨base % 256,Nat.not_lt.mp small⟩

/-- `c < 10 ? c + '0' : c + 'A' - 10` -/
def digitChar (c : Nat) : UInt8 := if c < 10 then .ofNat (c + 48) else .ofNat (c + 65 - 10)

/-- The loop of `Print::printNumber`, which fills its buffer from the back. -/
def digitLoop (base : Base) (n : Nat) (str : List UInt8) : List UInt8 :=
  let m := n
  let n := m / base.value
  let str := digitChar (m - base.value * n) :: str
  if n = 0 then str else digitLoop base n str
termination_by n
decreasing_by
  rename_i more
  have := base.two_le
  exact Nat.div_lt_self (Nat.pos_of_ne_zero fun zero => more (by simp [n,m,zero])) (by omega)

def printNumber (n : Nat) (base : Nat) : List UInt8 := digitLoop (toBase base) n []

def print (n : BitVec 32) (base : Nat) : List UInt8 :=
  if base = 0 then [.ofNat n.toNat]
  else if base = 10 then
    if n.toInt < 0 then 45 :: printNumber (-n).toNat 10 else printNumber n.toNat 10
  else printNumber n.toNat base

/-- An object that is printed to: whether it takes one more character behind those that it took. -/
structure Sink where
  takes : List UInt8 → UInt8 → Bool

/-- `write(uint8_t)`: the characters taken so far, and how many of this call are. -/
def Sink.write (p : Sink) (taken : List UInt8) (c : UInt8) : List UInt8 × Nat :=
  if p.takes taken c then (taken ++ [c],1) else (taken,0)

/-- `Print::write(const uint8_t *buffer, size_t size)`, which stops at the first character that is not taken. -/
def Sink.writeBuffer (p : Sink) (taken : List UInt8) : List UInt8 → List UInt8 × Nat
  | [] => (taken,0)
  | c :: buffer =>
    let (taken,n) := p.write taken c
    if n = 0 then (taken,0)
    else
      let (taken,n) := p.writeBuffer taken buffer
      (taken,n + 1)

def Sink.print (p : Sink) (taken : List UInt8) (b : UInt8) (base : Nat) : List UInt8 × Nat :=
  if base = 0 then p.write taken b else p.writeBuffer taken (printNumber b.toNat base)

/-- So many characters are behind those that were taken before. -/
def Counts (taken : List UInt8) (result : List UInt8 × Nat) : Prop :=
  ∃ emitted, result = (taken ++ emitted,emitted.length)

theorem write_counts (p : Sink) (taken : List UInt8) (c : UInt8) : Counts taken (p.write taken c) := by
  rw [Sink.write]
  split
  · exact ⟨[c],rfl⟩
  · exact ⟨[],by rw [List.append_nil]; rfl⟩

theorem writeBuffer_counts (p : Sink) (taken buffer : List UInt8) : Counts taken (p.writeBuffer taken buffer) := by
  induction buffer generalizing taken with
  | nil => exact ⟨[],by rw [List.append_nil]; rfl⟩
  | cons c buffer ih =>
    rw [Sink.writeBuffer]
    by_cases takes : p.takes taken c = true
    · obtain ⟨emitted,ran⟩ := ih (taken ++ [c])
      refine ⟨c :: emitted,?_⟩
      simp only [Sink.write,takes,if_true,Nat.one_ne_zero,if_false,ran,List.append_assoc]
      rfl
    · refine ⟨[],?_⟩
      simp only [Sink.write,takes,List.append_nil]
      rfl

theorem print_counts (p : Sink) (taken : List UInt8) (b : UInt8) (base : Nat) : Counts taken (p.print taken b base) := by
  rw [Sink.print]
  split
  · exact write_counts p taken b
  · exact writeBuffer_counts p taken (printNumber b.toNat base)

theorem Counts.more {taken : List UInt8} {s next : List UInt8 × Nat} (counts : Counts taken s) (more : Counts s.1 next) :
    Counts taken (next.1,s.2 + next.2) := by
  obtain ⟨emitted,rfl⟩ := counts
  obtain ⟨later,rfl⟩ := more
  exact ⟨emitted ++ later,by rw [List.append_assoc,List.length_append]⟩

/-- What is printed to an object that takes every character. -/
theorem writeBuffer_all {p : Sink} (all : ∀ taken c, p.takes taken c = true) (taken buffer : List UInt8) :
    p.writeBuffer taken buffer = (taken ++ buffer,buffer.length) := by
  induction buffer generalizing taken with
  | nil =>
    rw [List.append_nil]
    rfl
  | cons c buffer ih =>
    simp only [Sink.writeBuffer,Sink.write,all taken c,if_true,Nat.one_ne_zero,if_false,ih,List.append_assoc]
    rfl

end OpenPlc.Streams.Print
