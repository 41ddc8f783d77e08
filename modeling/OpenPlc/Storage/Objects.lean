import OpenPlc.Storage.Eeprom

/-! Objects in the emulated EEPROM: `put` and `get` of `EEPROM.h`, which go over an object
byte by byte. -/
namespace OpenPlc.Storage.Eeprom
open Memory

/-- The bytes that the loop of `get` reads, and the state that the reads leave. -/
def get (page : Page) (s : State) (idx : Nat) : Nat → State × List UInt8
  | 0 => (s,[])
  | count + 1 =>
    let (s,byte) := readByte page s idx
    let (s,rest) := get page s (idx + 1) count
    (s,byte :: rest)

def put (page : Page) (s : State) (idx : Nat) : List UInt8 → State
  | [] => s
  | byte :: rest => put page (update page s idx byte) (idx + 1) rest

/-- A state with the cells for whose sake the page was erased. -/
structure Logged where
  state : State
  erased : List Nat

/-- Every write flushes the image, and every flush erases the page once. -/
def Logged.writeByte (page : Page) (s : Logged) (pos : Nat) (value : UInt8) : Logged :=
  ⟨Eeprom.writeByte page s.state pos value,s.erased ++ [pos]⟩

def Logged.update (page : Page) (s : Logged) (pos : Nat) (value : UInt8) : Logged :=
  let (state,present) := readByte page s.state pos
  if value ≠ present then Logged.writeByte page ⟨state,s.erased⟩ pos value else ⟨state,s.erased⟩

def Logged.put (page : Page) (s : Logged) (idx : Nat) : List UInt8 → Logged
  | [] => s
  | byte :: rest => Logged.put page (Logged.update page s idx byte) (idx + 1) rest

/-- The cells from `idx` on that differ from the bytes of an object. -/
def differing (page : Page) (s : State) (idx : Nat) (object : List UInt8) : List Nat :=
  ((object.zipIdx idx).filter fun cell => cell.1 ≠ readsAs page s cell.2).map Prod.snd

theorem update_flash (page : Page) (s : State) (pos : Nat) (value : UInt8) (bound : pos < page.size) (q : Nat)
    (inside : q < page.size) : (update page s pos value).flash q = Function.update s.flash pos value q := by
  have cell := update_independent page s pos value bound q inside
  rw [readsAs_eq page _ q inside,readsAs_eq page s q inside] at cell
  rw [Function.update_apply]
  exact cell

/-- To the flash `put` is one block write. -/
theorem put_flash (page : Page) (s : State) (idx : Nat) (object : List UInt8) (fits : idx + object.length ≤ page.size) (q : Nat)
    (inside : q < page.size) : (put page s idx object).flash q = blit s.flash idx object q := by
  induction object generalizing s idx with
  | nil => rw [put,blit_nil]
  | cons byte rest ih =>
    rw [List.length_cons] at fits
    rw [put,ih _ _ (by omega),blit_cons]
    exact blit_congr _ _ (idx + 1) rest q (update_flash page s idx byte (by omega) q inside)

theorem get_slice (page : Page) (s : State) (idx count : Nat) (fits : idx + count ≤ page.size) :
    (get page s idx count).2 = slice s.flash idx count := by
  induction count generalizing s idx with
  | zero => rfl
  | succ count ih =>
    have first := readsAs_eq page s idx (by omega)
    have rest := ih (bufferFill page s) (idx + 1) (by omega)
    change readsAs page s idx :: (get page (bufferFill page s) (idx + 1) count).2 = _
    rw [first,rest,Nat.add_comm count 1,slice_add]
    rfl

theorem update_loaded (page : Page) (s : State) (pos : Nat) (value : UInt8) : Loaded page (update page s pos value) :=
  perform_loaded page s (.update pos value)

theorem put_loaded (page : Page) (s : State) (idx : Nat) (object : List UInt8) (loaded : Loaded page s ∨ object ≠ []) :
    Loaded page (put page s idx object) := by
  induction object generalizing s idx with
  | nil => exact loaded.resolve_right fun other => other rfl
  | cons byte rest ih => exact ih _ _ (Or.inl (update_loaded page s idx byte))

theorem Logged.update_spec (page : Page) (s : State) (log : List Nat) (pos : Nat) (value : UInt8) :
    Logged.update page ⟨s,log⟩ pos value =
      ⟨Eeprom.update page s pos value,if value ≠ readsAs page s pos then log ++ [pos] else log⟩ := by
  have logged : Logged.update page ⟨s,log⟩ pos value =
      if value ≠ readsAs page s pos then ⟨Eeprom.writeByte page (bufferFill page s) pos value,log ++ [pos]⟩
      else ⟨bufferFill page s,log⟩ := rfl
  rcases update_cases page s pos value with ⟨other,written⟩ | ⟨same,kept⟩
  · rw [logged,written,if_pos other,if_pos other]
  · rw [logged,kept,if_neg (not_not.mpr same),if_neg (not_not.mpr same)]

theorem differing_behind (page : Page) (s : State) (idx : Nat) (byte : UInt8) (rest : List UInt8)
    (fits : idx + 1 + rest.length ≤ page.size) :
    differing page (update page s idx byte) (idx + 1) rest = differing page s (idx + 1) rest := by
  unfold differing
  congr 1
  apply List.filter_congr
  rintro ⟨value,q⟩ member
  have low := List.le_snd_of_mem_zipIdx member
  have high := List.snd_lt_add_of_mem_zipIdx member
  rw [readsAs_eq page _ q (by omega),readsAs_eq page s q (by omega),update_flash page s idx byte (by omega) q (by omega),
    Function.update_of_ne (by omega)]

/-- The page is erased for the bytes that differ, and for no other. -/
theorem Logged.put_spec (page : Page) (s : State) (log : List Nat) (idx : Nat) (object : List UInt8)
    (fits : idx + object.length ≤ page.size) :
    Logged.put page ⟨s,log⟩ idx object = ⟨Eeprom.put page s idx object,log ++ differing page s idx object⟩ := by
  induction object generalizing s log idx with
  | nil => simp [Logged.put,Eeprom.put,differing]
  | cons byte rest ih =>
    rw [List.length_cons] at fits
    rw [Logged.put,Logged.update_spec,ih _ _ _ (by omega),differing_behind page s idx byte rest (by omega),Eeprom.put]
    congr 1
    by_cases other : byte ≠ readsAs page s idx
    · simp [differing,other]
    · simp [differing,not_not.mp other]

/-- For all contents of the flash and of the image, `get` returns what `put` stored, the other cells are kept,
the image and a later start say the same as the flash, and the page is erased once for each byte that differs. -/
theorem put_get (page : Page) (s : State) (log : List Nat) (idx : Nat) (object : List UInt8)
    (fits : idx + object.length ≤ page.size) :
    (get page (put page s idx object) idx object.length).2 = object ∧
      (∀ q, q < page.size → q < idx ∨ idx + object.length ≤ q → readsAs page (put page s idx object) q = readsAs page s q) ∧
      (Loaded page s ∨ object ≠ [] → ∀ q, q < page.size →
        bufferedReadByte (put page s idx object) q = readsAs page (put page s idx object) q) ∧
      (get page (boot (put page s idx object).flash) idx object.length).2 = object ∧
      (∀ q, q < page.size → readsAs page (boot (put page s idx object).flash) q = readsAs page (put page s idx object) q) ∧
      Logged.put page ⟨s,log⟩ idx object = ⟨put page s idx object,log ++ differing page s idx object⟩ := by
  have stored : slice (put page s idx object).flash idx object.length = object := by
    rw [slice_congr _ (blit s.flash idx object) idx object.length
      (fun i inside => put_flash page s idx object fits (idx + i) (by omega)),slice_blit]
  refine ⟨?_,?_,?_,?_,?_,Logged.put_spec page s log idx object fits⟩
  · rw [get_slice page _ idx _ fits,stored]
  · intro q inside apart
    rw [readsAs_eq page _ q inside,readsAs_eq page s q inside,put_flash page s idx object fits q inside]
    rcases apart with below | above
    · exact blit_below _ _ _ _ below
    · exact blit_above _ _ _ _ above
  · intro loaded q inside
    rw [readsAs_eq page _ q inside]
    exact put_loaded page s idx object loaded q inside
  · rw [get_slice page _ idx _ fits]
    exact stored
  · intro q inside
    rw [readsAs_eq page _ q inside,readsAs_eq page _ q inside]
    rfl

/-- A word over a page of zeros: its second byte is there already. -/
theorem put_get_word :
    (get flashWords (put flashWords (boot fun _ => 0) 16380 [1,0,2,3]) 16380 4).2 = [1,0,2,3] ∧
      (Logged.put flashWords ⟨boot fun _ => 0,[]⟩ 16380 [1,0,2,3]).erased = [16380,16382,16383] := by
  obtain ⟨read,_,_,_,_,logged⟩ := put_get flashWords (boot fun _ => 0) [] 16380 [1,0,2,3] (by decide)
  refine ⟨read,?_⟩
  rw [logged]
  have empty : ∀ q, q < flashWords.size → readsAs flashWords (boot fun _ => 0) q = 0 := readsAs_eq flashWords (boot fun _ => 0)
  simp [differing,List.zipIdx,empty 16380 (by decide),empty 16381 (by decide),empty 16382 (by decide),empty 16383 (by decide)]

end OpenPlc.Storage.Eeprom
