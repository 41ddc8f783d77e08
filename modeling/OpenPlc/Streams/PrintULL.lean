import Mathlib.Data.List.TakeWhile
import OpenPlc.Lib.Digits
import OpenPlc.Lib.While
import OpenPlc.Streams.Print

/-! `Print::printULLNumber` and the reference implementation in the comment above it. An assignment evaluates its
right side as an integer, and a store puts the value into so many bits. -/
namespace OpenPlc.Streams.PrintULL
open While Digits

abbrev Store := Nat → Int → Option Int

/-- What the machine does. -/
def wraps : Store := fun bits v => some (v % 2 ^ bits)

/-- A store that only takes what fits. -/
def exact : Store := fun bits v => if 0 ≤ v ∧ v < 2 ^ bits then some v else none

structure Chunk where
  th16 : Int
  innerLoops : Int

/-- The buffer of 64 characters, with the index of the next. -/
structure Buffer where
  buf : List Int
  i : Int

structure Run where
  chunk : Chunk
  bytes : Int
  written : List UInt8

section Code
variable (store : Store) (base : Int)

def growChunk (s : Chunk) : Option Chunk := do
  let th16 ← store 16 (s.th16 * base)
  let innerLoops ← store 8 (s.innerLoops + 1)
  return ⟨th16,innerLoops⟩

/-- `buf[i++] = v`, which has no result outside of the buffer. -/
def push (s : Buffer) (v : Int) : Option Buffer := do
  let c ← store 8 v
  let i ← store 8 (s.i + 1)
  if 0 ≤ s.i ∧ s.i < s.buf.length then return ⟨s.buf.set s.i.toNat c,i⟩ else none

/-- `qq = r / base; buf[i++] = r - qq * base; r = qq;` -/
def digitStep (s : Buffer × Int) : Option (Buffer × Int) := do
  let qq ← store 16 (s.2 / base)
  let buffer ← push store s.1 (s.2 - qq * base)
  let r ← store 16 qq
  return (buffer,r)

/-- One round of the loop over the digits of a remainder. `j` is the second of its variables. -/
def innerStep (s : (Buffer × Int) × Int) : Option ((Buffer × Int) × Int) := do
  let next ← digitStep store base s.1
  let j ← store 8 (s.2 + 1)
  return (next,j)

def chunkDigits (fuel : Nat) (innerLoops : Int) (buffer : Buffer) (r : Int) : Option Buffer :=
  (loop (fun s => s.2 < innerLoops) (innerStep store base) fuel ((buffer,r),0)).map fun s => s.1.1

def chunkStep (fuel : Nat) (chunk : Chunk) (s : Buffer × Int) : Option (Buffer × Int) := do
  let q ← store 64 (s.2 / chunk.th16)
  let r ← store 16 (s.2 - q * chunk.th16)
  let n64 ← store 64 q
  let buffer ← chunkDigits store base fuel chunk.innerLoops s.1 r
  return (buffer,n64)

/-- The last loop, which writes the buffer from the index down. -/
def writeDown (buf : List Int) : Nat → List UInt8
  | 0 => []
  | i + 1 => Print.digitChar (buf.getD i 0).toNat :: writeDown buf i

end Code

def printULLNumber (store : Store) (fuel : Nat) (n64 : UInt64) (base : UInt8) : Option Run := do
  let base : Int := if base < 2 then 10 else base.toNat
  let top ← store 16 (0xFFFF / base)
  let chunk ← loop (fun s => s.th16 < top) (growChunk store base) fuel ⟨1,0⟩
  let (buffer,n64) ← loop (fun s => chunk.th16 < s.2) (chunkStep store base fuel chunk) fuel
    (⟨List.replicate 64 0,0⟩,(n64.toNat : Int))
  let n16 ← store 16 n64
  let (buffer,_) ← loop (fun s => 0 < s.2) (digitStep store base) fuel (buffer,n16)
  return ⟨chunk,buffer.i,writeDown buffer.buf buffer.i.toNat⟩

/-- The reference implementation. `write(str)` ends at a zero. -/
def reference (n : UInt64) (base : UInt8) : List UInt8 :=
  (Print.digitLoop (Print.toBase base.toNat) n.toNat []).takeWhile (· ≠ 0)

/-- A store that keeps what fits. -/
def Faithful (store : Store) : Prop := ∀ (bits : Nat) (v : Int), 0 ≤ v → v < 2 ^ bits → store bits v = some v

theorem wraps_faithful : Faithful wraps := by
  intro bits v low high
  rw [wraps,Int.emod_eq_of_lt low high]

theorem exact_faithful : Faithful exact := by
  intro bits v low high
  rw [exact,if_pos ⟨low,high⟩]

theorem Faithful.keeps {store : Store} (faithful : Faithful store) {bits v : Nat} (fits : v < 2 ^ bits) :
    store bits (v : Int) = some (v : Int) := by
  apply faithful bits v (Int.natCast_nonneg v)
  exact_mod_cast fits

/-- The cells below the index are these digits. -/
structure Filled (s : Buffer) (ds : List Nat) : Prop where
  i : s.i = ds.length
  size : s.buf.length = 64
  cells : s.buf.take ds.length = ds.map Nat.cast

section Steps
variable {store : Store} {b : Nat} {s : Buffer} {ds : List Nat}

theorem push_filled (faithful : Faithful store) (filled : Filled s ds) (room : ds.length < 64) {v : Nat} (byte : v < 256) :
    ∃ next, push store s v = some next ∧ Filled next (ds ++ [v]) := by
  have inside : ds.length < s.buf.length := filled.size ▸ room
  have index : store 8 ((ds.length : Int) + 1) = some ((ds.length : Int) + 1) :=
    faithful.keeps (v := ds.length + 1) (Nat.lt_of_le_of_lt room (by decide))
  refine ⟨⟨s.buf.set ds.length v,(ds.length : Int) + 1⟩,?_,?_,?_,?_⟩
  · rw [push,filled.i,index,faithful.keeps byte]
    simp only [Option.bind_eq_bind,Option.bind_some]
    rw [if_pos ⟨Int.natCast_nonneg _,by exact_mod_cast inside⟩,Int.toNat_natCast]
    rfl
  · simp
  · rw [List.length_set,filled.size]
  · rw [List.length_append,List.length_singleton,List.take_succ_eq_append_getElem (by rwa [List.length_set]),
      List.getElem_set_self,List.take_set_of_le (Nat.le_refl _),filled.cells,List.map_append]
    rfl

theorem digitStep_filled (faithful : Faithful store) (filled : Filled s ds) (room : ds.length < 64) (valid : 1 < b)
    (byte : b < 256) {r : Nat} (fits : r < 65536) :
    ∃ next, digitStep store b (s,(r : Int)) = some (next,((r / b : Nat) : Int)) ∧ Filled next (ds ++ [r % b]) := by
  have quotient : r / b < 2 ^ 16 := Nat.lt_of_le_of_lt (Nat.div_le_self r b) fits
  have digit : ((r : Int) - ((r / b : Nat) : Int) * b) = ((r % b : Nat) : Int) := by
    have parts := Nat.div_add_mod' r b
    omega
  obtain ⟨next,pushed,after⟩ := push_filled faithful filled room
    (Nat.lt_trans (Nat.mod_lt r (Nat.zero_lt_of_lt valid)) byte : r % b < 256)
  refine ⟨next,?_,after⟩
  rw [digitStep]
  dsimp only
  rw [← Int.natCast_div,faithful.keeps quotient]
  simp only [Option.bind_eq_bind,Option.bind_some]
  rw [digit,pushed,Option.bind_some,faithful.keeps quotient]
  rfl

/-- In round `m` of the loop the buffer has `m` digits of the remainder. -/
def InRound (b : Nat) (ds : List Nat) (k r : Nat) (x : (Buffer × Int) × Int) : Prop :=
  ∃ m : Nat, x.2 = m ∧ m ≤ k ∧ x.1.2 = ((r / b ^ m : Nat) : Int) ∧ Filled x.1.1 (ds ++ low b m r)

theorem innerStep_round (faithful : Faithful store) (valid : 1 < b) (byte : b < 256) {k r : Nat} (room : ds.length + k ≤ 64)
    (fits : r < 65536) (x : (Buffer × Int) × Int) (inv : InRound b ds k r x) (goes : decide (x.2 < k) = true) :
    ∃ next, innerStep store b x = some next ∧ InRound b ds k r next ∧ k - next.2.toNat < k - x.2.toNat := by
  obtain ⟨⟨buffer,rest⟩,j⟩ := x
  obtain ⟨m,rfl,most,rfl,digits⟩ := inv
  have more : m < k := Int.ofNat_lt.mp (of_decide_eq_true goes)
  have free : (ds ++ low b m r).length < 64 := by
    rw [List.length_append,low_length]
    omega
  obtain ⟨next,ran,after⟩ := digitStep_filled faithful digits free valid byte
    (Nat.lt_of_le_of_lt (Nat.div_le_self r (b ^ m)) fits)
  have index : store 8 ((m : Int) + 1) = some ((m : Int) + 1) := faithful.keeps (v := m + 1) (by omega)
  refine ⟨((next,((r / b ^ m / b : Nat) : Int)),(m : Int) + 1),?_,⟨m + 1,rfl,more,?_,?_⟩,?_⟩
  · rw [innerStep,ran]
    simp only [Option.bind_eq_bind,Option.bind_some,index]
    rfl
  · rw [Nat.pow_succ,Nat.div_div_eq_div_mul]
  · rw [low_snoc,← List.append_assoc]
    exact after
  · change k - ((m : Int) + 1).toNat < k - (m : Int).toNat
    omega

theorem chunkDigits_filled (faithful : Faithful store) (filled : Filled s ds) (valid : 1 < b) (byte : b < 256) {k r fuel : Nat}
    (room : ds.length + k ≤ 64) (fits : r < 65536) (enough : k < fuel) :
    ∃ next, chunkDigits store b fuel k s r = some next ∧ Filled next (ds ++ low b k r) := by
  have start : InRound b ds k r ((s,(r : Int)),0) := ⟨0,rfl,Nat.zero_le k,by simp,by simpa [low] using filled⟩
  obtain ⟨last,ran,⟨m,index,most,-,digits⟩,stops⟩ :=
    loop_rule (InRound b ds k r) (fun x => k - x.2.toNat) (innerStep_round faithful valid byte room fits) fuel _ start enough
  have least := of_decide_eq_false stops
  rw [index] at least
  have all : m = k := by omega
  refine ⟨last.1.1,?_,all ▸ digits⟩
  rw [chunkDigits,ran]
  rfl

end Steps

section Loops
variable {store : Store} {b : Nat}

/-- The power that the first loop ends with. -/
structure Power (b k : Nat) : Prop where
  reaches : 65535 / b ≤ b ^ k
  least : ∀ m < k, b ^ m < 65535 / b

theorem exists_power (valid : 1 < b) : ∃ k, Power b k := by
  have reaches : ∃ k, 65535 / b ≤ b ^ k :=
    ⟨65535 / b,Nat.le_of_lt (Nat.lt_pow_self valid)⟩
  exact ⟨Nat.find reaches,Nat.find_spec reaches,fun m less => Nat.not_le.mp (Nat.find_min reaches less)⟩

theorem Power.fits {k : Nat} (power : Power b k) (valid : 1 < b) : b ^ k ≤ 65535 := by
  cases k with
  | zero => exact Nat.le_of_lt_succ (by decide : 1 < 65536)
  | succ m =>
    have less := Nat.mul_lt_mul_of_pos_right (power.least m (Nat.lt_succ_self m)) (Nat.zero_lt_of_lt valid)
    rw [Nat.pow_succ]
    exact Nat.le_of_lt (Nat.lt_of_lt_of_le less (Nat.div_mul_le_self 65535 b))

theorem Power.small {k : Nat} (power : Power b k) (valid : 1 < b) : k < 16 := by
  have most := Nat.le_trans (Nat.pow_le_pow_left valid k) (power.fits valid)
  exact (Nat.pow_lt_pow_iff_right (by decide : 1 < 2)).mp (Nat.lt_of_le_of_lt most (by decide))

theorem Power.pos {k : Nat} (power : Power b k) (valid : 1 < b) (byte : b < 256) : 0 < k := by
  refine Nat.pos_of_ne_zero fun zero => ?_
  have reaches := power.reaches
  rw [zero,Nat.pow_zero,Nat.div_le_iff_le_mul_add_pred (Nat.zero_lt_of_lt valid)] at reaches
  omega

def Growing (b k : Nat) (x : Chunk) : Prop := ∃ m ≤ k, x = ⟨((b ^ m : Nat) : Int),m⟩

theorem growChunk_round (faithful : Faithful store) (valid : 1 < b) {k : Nat} (power : Power b k) (x : Chunk)
    (inv : Growing b k x) (goes : decide (x.th16 < ((65535 / b : Nat) : Int)) = true) :
    ∃ next, growChunk store b x = some next ∧ Growing b k next ∧ k - next.innerLoops.toNat < k - x.innerLoops.toNat := by
  obtain ⟨m,most,rfl⟩ := inv
  have less : b ^ m < 65535 / b := Int.ofNat_lt.mp (of_decide_eq_true goes)
  have more : m < k := Nat.lt_of_le_of_ne most fun same => Nat.not_lt.mpr power.reaches (same ▸ less)
  have fits : b ^ (m + 1) < 2 ^ 16 :=
    Nat.lt_of_le_of_lt (Nat.pow_le_pow_right (Nat.zero_lt_of_lt valid) more) (Nat.lt_succ_of_le (power.fits valid))
  have small := power.small valid
  have grown : ((b ^ m : Nat) : Int) * b = ((b ^ (m + 1) : Nat) : Int) := by
    rw [Nat.pow_succ,Int.natCast_mul]
  have index : store 8 ((m : Int) + 1) = some ((m : Int) + 1) := faithful.keeps (v := m + 1) (by omega)
  refine ⟨⟨((b ^ (m + 1) : Nat) : Int),(m : Int) + 1⟩,?_,⟨m + 1,more,rfl⟩,?_⟩
  · rw [growChunk]
    dsimp only
    rw [grown,faithful.keeps fits]
    simp only [Option.bind_eq_bind,Option.bind_some,index]
    rfl
  · change k - ((m : Int) + 1).toNat < k - (m : Int).toNat
    omega

theorem growChunk_power (faithful : Faithful store) (valid : 1 < b) {k fuel : Nat} (power : Power b k) (enough : 16 < fuel) :
    loop (fun s : Chunk => s.th16 < ((65535 / b : Nat) : Int)) (growChunk store b) fuel ⟨1,0⟩ = some ⟨((b ^ k : Nat) : Int),k⟩ := by
  have start : Growing b k ⟨1,0⟩ := ⟨0,Nat.zero_le k,by simp⟩
  have small := power.small valid
  obtain ⟨last,ran,⟨m,most,rfl⟩,stops⟩ := loop_rule (Growing b k) (fun x => k - x.innerLoops.toNat)
    (growChunk_round faithful valid power) fuel _ start (by change k - 0 < fuel; omega)
  have reached := Int.ofNat_le.mp (Int.not_lt.mp (of_decide_eq_false stops))
  have all : m = k := by
    refine Nat.le_antisymm most (Nat.not_lt.mp fun less => ?_)
    exact Nat.not_lt.mpr reached (power.least m less)
  rw [ran,all]

/-- What is in the buffer and what is left of the number are all its digits. -/
def Splits (b n limit : Nat) (x : Buffer × Int) : Prop :=
  ∃ ds m : _, x.2 = ((m : Nat) : Int) ∧ m ≤ limit ∧ Filled x.1 ds ∧ b.digits n = ds ++ b.digits m

theorem split_room (valid : 1 < b) {n m : Nat} {ds : List Nat} (word : n < 2 ^ 64) (digits : b.digits n = ds ++ b.digits m) :
    ds.length + (b.digits m).length ≤ 64 := by
  rw [← List.length_append,← digits]
  exact digits_length_le valid 64 n word

theorem chunkStep_round (faithful : Faithful store) (valid : 1 < b) (byte : b < 256) {k fuel n : Nat} (power : Power b k)
    (word : n < 2 ^ 64) (enough : 16 < fuel) (x : Buffer × Int) (inv : Splits b n n x)
    (goes : decide (((b ^ k : Nat) : Int) < x.2) = true) :
    ∃ next, chunkStep store b fuel ⟨((b ^ k : Nat) : Int),k⟩ x = some next ∧ Splits b n n next ∧
      (b.digits next.2.toNat).length < (b.digits x.2.toNat).length := by
  obtain ⟨buffer,rest⟩ := x
  obtain ⟨ds,m,rfl,most,filled,digits⟩ := inv
  have larger : b ^ k < m := Int.ofNat_lt.mp (of_decide_eq_true goes)
  have fits := power.fits valid
  have positive : 0 < b ^ k := Nat.pow_pos (Nat.zero_lt_of_lt valid)
  have some_ : m / b ^ k ≠ 0 := Nat.ne_of_gt (Nat.div_pos (Nat.le_of_lt larger) positive)
  have quotient : m / b ^ k < 2 ^ 64 := Nat.lt_of_le_of_lt (Nat.div_le_self m _) (Nat.lt_of_le_of_lt most word)
  have remainder : m % b ^ k < 2 ^ 16 := Nat.lt_of_lt_of_le (Nat.mod_lt m positive) (Nat.le_succ_of_le fits)
  have split := digits_split valid k m some_
  have room : ds.length + k ≤ 64 := by
    have total := split_room valid word digits
    rw [split,List.length_append,low_length] at total
    omega
  have rest : (m : Int) - ((m / b ^ k : Nat) : Int) * ((b ^ k : Nat) : Int) = ((m % b ^ k : Nat) : Int) := by
    have parts := congrArg (Nat.cast : Nat → Int) (Nat.div_add_mod' m (b ^ k))
    rw [Int.natCast_add,Int.natCast_mul] at parts
    omega
  obtain ⟨next,ran,after⟩ := chunkDigits_filled faithful filled valid byte room remainder
    (Nat.lt_trans (power.small valid) enough)
  refine ⟨(next,((m / b ^ k : Nat) : Int)),?_,⟨ds ++ low b k (m % b ^ k),m / b ^ k,rfl,?_,after,?_⟩,?_⟩
  · rw [chunkStep]
    dsimp only
    rw [← Int.natCast_div,faithful.keeps quotient]
    simp only [Option.bind_eq_bind,Option.bind_some]
    rw [rest,faithful.keeps remainder,Option.bind_some,faithful.keeps quotient,Option.bind_some,ran]
    rfl
  · exact Nat.le_trans (Nat.div_le_self m _) most
  · rw [digits,split,List.append_assoc]
  · change (b.digits (m / b ^ k)).length < (b.digits m).length
    rw [split,List.length_append,low_length]
    exact Nat.lt_add_of_pos_left (power.pos valid byte)

theorem digitStep_round (faithful : Faithful store) (valid : 1 < b) (byte : b < 256) {n : Nat}
    (word : n < 2 ^ 64) (x : Buffer × Int) (inv : Splits b n 65535 x) (goes : decide (0 < x.2) = true) :
    ∃ next, digitStep store b x = some next ∧ Splits b n 65535 next ∧
      (b.digits next.2.toNat).length < (b.digits x.2.toNat).length := by
  obtain ⟨buffer,rest⟩ := x
  obtain ⟨ds,m,rfl,most,filled,digits⟩ := inv
  have some_ : 0 < m := Int.ofNat_lt.mp (of_decide_eq_true goes)
  have split := Nat.digits_def' valid some_
  have room : ds.length < 64 := by
    have total := split_room valid word digits
    rw [split,List.length_cons] at total
    omega
  obtain ⟨next,ran,after⟩ := digitStep_filled faithful filled room valid byte (Nat.lt_succ_of_le most)
  refine ⟨(next,((m / b : Nat) : Int)),ran,⟨ds ++ [m % b],m / b,rfl,?_,after,?_⟩,?_⟩
  · exact Nat.le_trans (Nat.div_le_self m _) most
  · rw [digits,split,List.append_assoc]
    rfl
  · change (b.digits (m / b)).length < (b.digits m).length
    rw [split]
    exact Nat.lt_succ_self _

theorem writeDown_take (buf : List Int) (i : Nat) (inside : i ≤ buf.length) :
    writeDown buf i = ((buf.take i).map fun c => Print.digitChar c.toNat).reverse := by
  induction i with
  | zero => rfl
  | succ i ih =>
    rw [writeDown,ih (Nat.le_of_succ_le inside),List.take_succ_eq_append_getElem inside,List.map_append,List.reverse_append,
      List.getD_eq_getElem?_getD,List.getElem?_eq_getElem inside]
    rfl

theorem writeDown_filled {buffer : Buffer} {ds : List Nat} (filled : Filled buffer ds) (fits : ds.length ≤ 64) :
    writeDown buffer.buf ds.length = ds.reverse.map Print.digitChar := by
  rw [writeDown_take buffer.buf ds.length (filled.size ▸ fits),filled.cells,List.map_map,List.map_reverse]
  rfl

end Loops

section Results
variable {store : Store}

theorem toBase_lt (base : UInt8) : (Print.toBase base.toNat).value < 256 := by
  rw [Print.toBase]
  split
  · decide
  · exact Nat.mod_lt _ (by decide)

theorem base_eq (base : UInt8) : (if base < 2 then 10 else (base.toNat : Int)) = ((Print.toBase base.toNat).value : Int) := by
  have byte : base.toNat % 256 = base.toNat := Nat.mod_eq_of_lt base.toNat_lt
  have less : base.toNat % 256 < 2 ↔ base < 2 := by
    rw [byte]
    exact (UInt8.lt_iff_toNat_lt (a := base) (b := 2)).symm
  rw [Print.toBase]
  by_cases small : base < 2
  · rw [if_pos small,dif_pos (less.mpr small)]
    rfl
  · rw [if_neg small,dif_neg (mt less.mp small)]
    exact congrArg Nat.cast byte.symm

/-- The characters are those of the digits, in any store that keeps what fits. -/
theorem printULLNumber_digits (faithful : Faithful store) (n64 : UInt64) (base : UInt8) {b k fuel : Nat}
    (value : b = (Print.toBase base.toNat).value) (power : Power b k) (enough : 64 < fuel) :
    printULLNumber store fuel n64 base =
      some ⟨⟨((b ^ k : Nat) : Int),k⟩,(b.digits n64.toNat).length,(b.digits n64.toNat).reverse.map Print.digitChar⟩ := by
  have valid : 1 < b := value ▸ (Print.toBase base.toNat).two_le
  have byte : b < 256 := value ▸ toBase_lt base
  have word := n64.toNat_lt
  have top : store 16 (65535 / (b : Int)) = some ((65535 / b : Nat) : Int) :=
    faithful.keeps (Nat.lt_of_le_of_lt (Nat.div_le_self 65535 b) (by decide) : 65535 / b < 2 ^ 16)
  have room := digits_length_le valid 64 n64.toNat word
  have start : Splits b n64.toNat n64.toNat (⟨List.replicate 64 0,0⟩,(n64.toNat : Int)) :=
    ⟨[],n64.toNat,rfl,Nat.le_refl _,⟨rfl,rfl,rfl⟩,rfl⟩
  obtain ⟨⟨buffer,rest⟩,chunks,⟨ds,m,left,-,filled,digits⟩,stops⟩ := loop_rule (Splits b n64.toNat n64.toNat)
    (fun x => (b.digits x.2.toNat).length) (chunkStep_round faithful valid byte power word (by omega : 16 < fuel)) fuel _ start
    (Nat.lt_of_le_of_lt room enough)
  have most : m ≤ b ^ k := by
    have stopped := Int.not_lt.mp (of_decide_eq_false stops)
    rw [left] at stopped
    exact Int.ofNat_le.mp stopped
  have fits : m ≤ 65535 := Nat.le_trans most (power.fits valid)
  change rest = _ at left
  subst left
  have shorter : (b.digits m).length ≤ 64 := Nat.le_trans (Nat.le_add_left _ _) (split_room valid word digits)
  obtain ⟨⟨after,nothing⟩,ends,⟨all,rest,last,-,complete,whole⟩,stopped⟩ := loop_rule (Splits b n64.toNat 65535)
    (fun x => (b.digits x.2.toNat).length) (digitStep_round faithful valid byte word) fuel _ ⟨ds,m,rfl,fits,filled,digits⟩
    (Nat.lt_of_le_of_lt shorter enough)
  have none_ : rest = 0 := by
    have stays := of_decide_eq_false stopped
    rw [last] at stays
    omega
  rw [none_,Nat.digits_zero,List.append_nil] at whole
  rw [← whole] at complete
  rw [printULLNumber,base_eq,← value]
  simp only [Option.bind_eq_bind]
  rw [top,Option.bind_some,growChunk_power faithful valid power (by omega),Option.bind_some]
  dsimp only
  rw [chunks,Option.bind_some]
  dsimp only
  rw [faithful.keeps (Nat.lt_succ_of_le fits : m < 2 ^ 16),Option.bind_some,ends,Option.bind_some]
  dsimp only
  rw [complete.i,Int.toNat_natCast,writeDown_filled complete room]
  rfl

/-- Every value that is stored fits: the run with exact stores is that of the machine. -/
theorem exact_runs (fuel : Nat) (n64 : UInt64) (base : UInt8) : ∃ run, printULLNumber exact (fuel + 65) n64 base = some run ∧
    printULLNumber wraps (fuel + 65) n64 base = some run ∧ run.chunk.th16 ≤ 65535 ∧
    run.chunk.th16 = ((Print.toBase base.toNat).value : Int) ^ run.chunk.innerLoops.toNat ∧ 0 ≤ run.bytes ∧ run.bytes ≤ 64 := by
  have valid := (Print.toBase base.toNat).two_le
  obtain ⟨k,power⟩ := exists_power valid
  have enough : 64 < fuel + 65 := Nat.lt_of_lt_of_le (by decide) (Nat.le_add_left 65 fuel)
  have room := digits_length_le valid 64 n64.toNat n64.toNat_lt
  refine ⟨_,printULLNumber_digits exact_faithful n64 base rfl power enough,
    printULLNumber_digits wraps_faithful n64 base rfl power enough,?_,?_,Int.natCast_nonneg _,?_⟩
  · exact Int.ofNat_le.mpr (power.fits valid)
  · rw [Int.toNat_natCast,Int.natCast_pow]
  · exact Int.ofNat_le.mpr room

theorem digitLoop_digits (base : Print.Base) (n : Nat) (str : List UInt8) :
    Print.digitLoop base n str = (if n = 0 then [48] else (base.value.digits n).reverse.map Print.digitChar) ++ str := by
  induction n using Nat.strong_induction_on generalizing str with
  | _ n ih =>
    have digit : n - base.value * (n / base.value) = n % base.value := (Nat.mod_eq_sub n base.value).symm
    rw [Print.digitLoop,digit]
    by_cases zero : n = 0
    · subst zero
      rw [if_pos (Nat.zero_div _),if_pos rfl,Nat.zero_mod]
      rfl
    · have some_ := Nat.pos_of_ne_zero zero
      rw [if_neg zero,Nat.digits_def' base.two_le some_,List.reverse_cons,List.map_append]
      by_cases last : n / base.value = 0
      · rw [if_pos last,last,Nat.digits_zero]
        rfl
      · rw [if_neg last,ih _ (Nat.div_lt_self some_ base.two_le),if_neg last,List.append_assoc]
        rfl

theorem digitChar_zero {d : Nat} (byte : d < 256) : Print.digitChar d = 0 ↔ d = 201 := by
  rw [Print.digitChar]
  split
  · rw [← UInt8.toNat_inj,UInt8.toNat_ofNat']
    change (d + 48) % 256 = 0 ↔ _
    omega
  · rw [← UInt8.toNat_inj,UInt8.toNat_ofNat']
    change (d + 65 - 10) % 256 = 0 ↔ _
    omega

theorem reference_zero (base : UInt8) : reference 0 base = [48] := by
  rw [reference,digitLoop_digits,if_pos (UInt64.toNat_zero)]
  rfl

theorem reference_digits {n : UInt64} (some_ : n ≠ 0) (base : UInt8) : reference n base =
    (((Print.toBase base.toNat).value.digits n.toNat).reverse.map Print.digitChar).takeWhile (· ≠ 0) := by
  have more : n.toNat ≠ 0 := fun zero => some_ (UInt64.toNat_inj.mp zero)
  rw [reference,digitLoop_digits,if_neg more,List.append_nil]

theorem chars_some (base : UInt8) (n : Nat) :
    (∀ c ∈ ((Print.toBase base.toNat).value.digits n).reverse.map Print.digitChar, c ≠ 0) ↔
      201 ∉ (Print.toBase base.toNat).value.digits n := by
  have digit (d : Nat) (member : d ∈ (Print.toBase base.toNat).value.digits n) : Print.digitChar d = 0 ↔ d = 201 :=
    digitChar_zero (Nat.lt_trans (Nat.digits_lt_base (Print.toBase base.toNat).two_le member) (toBase_lt base))
  rw [List.forall_mem_map]
  constructor
  · intro some_ member
    exact some_ 201 (List.mem_reverse.mpr member) ((digit 201 member).mpr rfl)
  · intro absent d member zero
    have inside := List.mem_reverse.mp member
    exact absent ((digit d inside).mp zero ▸ inside)

/-- The fast loop writes what the reference writes, except for zero and for the digit whose character ends a text. -/
theorem matches_iff (fuel : Nat) (n64 : UInt64) (base : UInt8) : ∃ run, printULLNumber wraps (fuel + 65) n64 base = some run ∧
    ((run.written = reference n64 base ∧ run.bytes = run.written.length) ↔
      n64 ≠ 0 ∧ 201 ∉ (Print.toBase base.toNat).value.digits n64.toNat) := by
  obtain ⟨k,power⟩ := exists_power (Print.toBase base.toNat).two_le
  refine ⟨_,printULLNumber_digits wraps_faithful n64 base rfl power (Nat.lt_of_lt_of_le (by decide) (Nat.le_add_left 65 fuel)),?_⟩
  dsimp only
  by_cases zero : n64 = 0
  · subst zero
    rw [reference_zero,UInt64.toNat_zero,Nat.digits_zero]
    exact iff_of_false (fun both => List.cons_ne_nil _ _ both.1.symm) (fun both => both.1 rfl)
  · rw [reference_digits zero,eq_comm,List.takeWhile_eq_self_iff]
    have chars := chars_some base n64.toNat
    simp only [decide_eq_true_eq,List.length_map,List.length_reverse]
    exact ⟨fun both => ⟨zero,chars.mp both.1⟩,fun both => ⟨chars.mpr both.2,trivial⟩⟩

theorem zero_unwritten : ∃ run, printULLNumber wraps 65 0 10 = some run ∧ run.written ≠ reference 0 10 := by
  refine ⟨⟨⟨10000,4⟩,0,[]⟩,rfl,?_⟩
  rw [reference_zero]
  exact (List.cons_ne_nil _ _).symm

end Results

end OpenPlc.Streams.PrintULL
