import OpenPlc.Lib.CString

/-! The Arduino `String` (`WString.cpp`): a heap block, its capacity and a length, as the
member functions handle them. `unsigned int` has 32 bits and `char` is unsigned. An
access outside of every block has no result. -/
namespace OpenPlc.Text
open CString

inductive Buffer
  | null
  | block (bytes : List UInt8)
  | freed

structure Str where
  buffer : Buffer
  capacity : Nat
  len : Nat

/-- A C string, such as an argument or what a number conversion leaves in its buffer. -/
structure CText where
  bytes : List UInt8
  free : 0 ∉ bytes
  short : bytes.length + 1 < 2147483648

/-- The answer of the allocator, with the bytes that a new block happens to hold. -/
inductive Alloc
  | refuse
  | grant (fill : Nat → UInt8)

/-- No object is larger than half of the address space. -/
def objectLimit : Nat := 2147483648

def allocated (answer : Alloc) (old : List UInt8) (size : Nat) : Option (List UInt8) :=
  match answer with
  | .refuse => none
  | .grant fill =>
    if size < objectLimit then some (old.take size ++ (List.range (size - old.length)).map fill) else none

/-- `realloc` with what becomes of the old block when there is no new one. A size of 0
frees the old block. -/
def realloc (buffer : Buffer) (size : Nat) (answer : Alloc) : Option (Buffer × Option (List UInt8)) :=
  match buffer with
  | .null => some (.null,allocated answer [] size)
  | .block bytes => if size = 0 then some (.freed,none) else some (.block bytes,allocated answer bytes size)
  | .freed => none

namespace Str

def init : Str := ⟨.null,0,0⟩

/-- `free(buffer)`, which allows a null pointer. -/
def release (s : Str) : Option Unit :=
  match s.buffer with
  | .freed => none
  | _ => some ()

def invalidate (s : Str) : Option Str := do
  release s
  return init

def bytes (s : Str) : Option (List UInt8) :=
  match s.buffer with
  | .block bytes => some bytes
  | _ => none

def changeBuffer (s : Str) (maxStrLen : Nat) (answer : Alloc) : Option (Str × Bool) := do
  let (old,new) ← realloc s.buffer ((maxStrLen + 1) % 4294967296) answer
  match new with
  | some block => return ({s with buffer := .block block, capacity := maxStrLen},true)
  | none => return ({s with buffer := old},false)

def reserve (s : Str) (size : Nat) (answer : Alloc) : Option (Str × Bool) := do
  match s.buffer with
  | .null => pure ()
  | _ => if size ≤ s.capacity then return (s,true)
  let (s,done) ← changeBuffer s size answer
  if done then
    if s.len = 0 then
      let block ← put (← s.bytes) 0 [0]
      return ({s with buffer := .block block},true)
    else return (s,true)
  else return (s,false)

/-- `copy(cstr, length)`: `strcpy` stops at the zero of its source, whatever `length` is. -/
def copy (s : Str) (source : List UInt8) (length : Nat) (answer : Alloc) : Option Str := do
  let (s,done) ← reserve s length answer
  if done then
    let block ← strcpy (← s.bytes) 0 source
    return {s with buffer := .block block, len := length}
  else invalidate s

/-- `move(rhs)`, with `rhs` as it is left behind. -/
def move (s rhs : Str) : Option (Str × Str) := do
  match s.buffer with
  | .null => return ({s with buffer := rhs.buffer, capacity := rhs.capacity, len := rhs.len},init)
  | _ =>
    match rhs.buffer with
    | .null =>
      release s
      return ({s with buffer := rhs.buffer, capacity := rhs.capacity, len := rhs.len},init)
    | _ =>
      if rhs.len ≤ s.capacity then
        let block ← strcpy (← s.bytes) 0 (← text (← rhs.bytes))
        return ({s with buffer := .block block, len := rhs.len},{rhs with len := 0})
      else
        release s
        return ({s with buffer := rhs.buffer, capacity := rhs.capacity, len := rhs.len},init)

/-- `operator = (const String &)` from another object. -/
def assign (s rhs : Str) (answer : Alloc) : Option Str := do
  match rhs.buffer with
  | .null => invalidate s
  | _ => copy s (← text (← rhs.bytes)) rhs.len answer

/-- `operator = (const char *)` -/
def assignText (s : Str) (cstr : Option CText) (answer : Alloc) : Option Str :=
  match cstr with
  | some cstr => copy s cstr.bytes cstr.bytes.length answer
  | none => invalidate s

/-- `concat(cstr, length)` -/
def concatLength (s : Str) (cstr : Option (List UInt8)) (length : Nat) (answer : Alloc) : Option (Str × Bool) := do
  let newlen := (s.len + length) % 4294967296
  match cstr with
  | none => return (s,false)
  | some source =>
    if length = 0 then return (s,true)
    let (s,done) ← reserve s newlen answer
    if done then
      let block ← strcpy (← s.bytes) s.len source
      return ({s with buffer := .block block, len := newlen},true)
    else return (s,false)

/-- `concat(const String &)` with another object. -/
def concat (s rhs : Str) (answer : Alloc) : Option (Str × Bool) := do
  match rhs.buffer with
  | .null => concatLength s none rhs.len answer
  | _ => concatLength s (some (← text (← rhs.bytes))) rhs.len answer

/-- `concat(const char *)`, and those of a character or a number after its conversion. -/
def concatText (s : Str) (cstr : Option CText) (answer : Alloc) : Option (Str × Bool) :=
  match cstr with
  | some cstr => concatLength s (some cstr.bytes) cstr.bytes.length answer
  | none => some (s,false)

/-- `operator +` on a `StringSumHelper`: a failed concatenation invalidates the sum. -/
def orInvalid (result : Option (Str × Bool)) : Option Str := do
  let (s,done) ← result
  if done then return s else invalidate s

def toLower (c : UInt8) : UInt8 := if 65 ≤ c ∧ c ≤ 90 then c + 32 else c

def toUpper (c : UInt8) : UInt8 := if 97 ≤ c ∧ c ≤ 122 then c - 32 else c

def isSpace (c : UInt8) : Bool := (9 ≤ c && c ≤ 13) || c == 32

/-- A loop over the characters up to the zero. -/
def rewrite (f : UInt8 → UInt8) (s : Str) : Option Str := do
  match s.buffer with
  | .null => return s
  | _ => return {s with buffer := .block (← mapText f (← s.bytes))}

def toLowerCase (s : Str) : Option Str := rewrite toLower s

def toUpperCase (s : Str) : Option Str := rewrite toUpper s

/-- `replace(char find, char replace)` -/
def replaceChar (s : Str) (find replace : UInt8) : Option Str :=
  rewrite (fun c => if c = find then replace else c) s

def setCharAt (s : Str) (loc : Nat) (c : UInt8) : Option Str := do
  if loc < s.len then return {s with buffer := .block (← put (← s.bytes) loc [c])} else return s

def remove (s : Str) (index count : Nat) : Option Str := do
  if s.len ≤ index then return s
  if count = 0 then return s
  let count := if s.len - index < count then s.len - index else count
  let len := s.len - count
  let block ← s.bytes
  let block ← put block index (← slice block (index + count) (len - index))
  let block ← put block len [0]
  return {s with buffer := .block block, len := len}

/-- `while (isspace(*begin)) begin++;` -/
def trimBegin (block : List UInt8) : Option Nat :=
  let begin_ := (block.takeWhile isSpace).length
  if begin_ < block.length then some begin_ else none

/-- `while (isspace(*end) && end >= begin) end--;` from the index behind `end`. -/
def trimEnd (block : List UInt8) (begin_ : Nat) : Nat → Option Nat
  | 0 => none
  | stop + 1 => do
    let c ← block[stop]?
    if isSpace c ∧ begin_ ≤ stop then trimEnd block begin_ stop else return stop + 1

/-- The overlapping `memcpy` copies forwards, to a lower address. -/
def trim (s : Str) : Option Str := do
  match s.buffer with
  | .null => return s
  | _ =>
    if s.len = 0 then return s
    let block ← s.bytes
    let begin_ ← trimBegin block
    let stop ← trimEnd block begin_ s.len
    let len := stop - begin_
    let block ← if 0 < begin_ then put block 0 (← slice block begin_ len) else some block
    let block ← put block len [0]
    return {s with buffer := .block block, len := len}

end Str
end OpenPlc.Text
