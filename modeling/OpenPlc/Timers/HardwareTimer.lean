import Mathlib.Logic.Function.Basic

/-! The period and the compare values of a timer (`HardwareTimer.cpp`), computed on its registers. -/
namespace OpenPlc.Timers

inductive Channel where
  | one
  | two
  | three
  | four
  deriving DecidableEq

structure Registers where
  psc : UInt32
  arr : UInt32
  ccr : Channel → UInt32

inductive TimerFormat where
  | tick
  | microsec
  | hertz
  deriving DecidableEq

abbrev Bits := {bits : Nat // 1 ≤ bits ∧ bits ≤ 16}

inductive CompareFormat where
  | resolution (bits : Bits)
  | tick
  | microsec
  | hertz
  | percent

def maxReload : UInt32 := 65535

/-- `none` where it divides by zero. -/
def divide (a b : UInt32) : Option UInt32 := if b = 0 then none else some (a / b)

section Overflow
variable (clk : UInt32) (t : Registers)

def setReload (periodTicks : UInt32) : Registers :=
  {t with arr := if 0 < periodTicks then periodTicks - 1 else 0}

def setPeriod (periodCyc : UInt32) : Registers :=
  let prescalerfactor := periodCyc / 0x10000 + 1
  setReload {t with psc := prescalerfactor - 1} (periodCyc / prescalerfactor)

def setOverflow (overflow : UInt32) : TimerFormat → Option Registers
  | .microsec => some (setPeriod t (overflow * (clk / 1000000)))
  | .hertz => (divide clk overflow).map (setPeriod t)
  | .tick => some (setReload t overflow)

def Registers.period : UInt32 := (t.arr + 1) * (t.psc + 1)

/-- The source divides the doubles that the product and the clock convert to, which truncates to the quotient. -/
def quotient (ticks : UInt32) : Option UInt32 :=
  if clk = 0 then none else some (UInt32.ofNat (ticks.toNat * 1000000 / clk.toNat))

def getOverflow : TimerFormat → Option UInt32
  | .microsec => quotient clk t.period
  | .hertz => divide clk t.period
  | .tick => some (t.arr + 1)

end Overflow

section Compare
variable (clk : UInt32) (t : Registers) (channel : Channel)

/-- The value of a full period, in percent or in the steps of a resolution. -/
def fullScale (bits : Bits) : UInt32 := (1 <<< UInt32.ofNat bits.val) - 1

def compareValue (compare : UInt32) : CompareFormat → Option UInt32
  | .microsec => divide (compare * (clk / 1000000)) (t.psc + 1)
  | .hertz => divide clk (compare * (t.psc + 1))
  | .percent => some ((t.arr + 1) * compare / 100)
  | .resolution bits => divide ((t.arr + 1) * compare) (fullScale bits)
  | .tick => some compare

def setCaptureCompare (compare : UInt32) (format : CompareFormat) : Option Registers :=
  (compareValue clk t compare format).map fun value =>
    -- where `ccr` cannot be one more than `arr`
    let value := if t.arr = maxReload ∧ value = maxReload + 1 then maxReload else value
    {t with ccr := Function.update t.ccr channel value}

def getCaptureCompare : CompareFormat → Option UInt32
  | .microsec => quotient clk (t.ccr channel * (t.psc + 1))
  | .hertz => divide clk (t.ccr channel * (t.psc + 1))
  | .percent => divide (t.ccr channel * 100) t.arr
  | .resolution bits => divide (t.ccr channel * fullScale bits) t.arr
  | .tick => some (t.ccr channel)

end Compare

end OpenPlc.Timers
