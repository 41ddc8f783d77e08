import OpenPlc.Lib.Memory
import OpenPlc.Lib.Run
import Mathlib.Tactic.Common

/-! The emulated EEPROM (`stm32_eeprom.c`): a RAM image of the last flash page, which
is erased as a whole and programmed again from the image on every write. Erasing and
programming succeed; addresses count from `FLASH_BASE_ADDRESS`. -/
namespace OpenPlc.Storage.Eeprom
open Memory

/-- `E2END + 1` cells, programmed `unit` bytes at a time. -/
structure Page where
  size : Nat
  unit : Nat
  positive : 0 < unit
  whole : unit ∣ size

/-- 16 kB in flash words of 256 bits. -/
def flashWords : Page := ⟨16384,32,by decide,by decide⟩

structure State where
  flash : Nat → UInt8
  buffer : Nat → UInt8

def boot (flash : Nat → UInt8) : State := ⟨flash,fun _ => 0⟩

def bufferFill (page : Page) (s : State) : State :=
  {s with buffer := blit s.buffer 0 (slice s.flash 0 page.size)}

def erase (_ : Nat → UInt8) : Nat → UInt8 := fun _ => 0xFF

/-- Programming clears bits only. -/
def program (flash : Nat → UInt8) (address : Nat) (data : List UInt8) : Nat → UInt8 :=
  blit flash address (List.zipWith (· &&& ·) (slice flash address data.length) data)

def programLoop (page : Page) (buffer flash : Nat → UInt8) (offset : Nat) : Nat → UInt8 :=
  if offset < page.size then
    programLoop page buffer (program flash offset (slice buffer offset page.unit)) (offset + page.unit)
  else flash
termination_by page.size - offset
decreasing_by
  have := page.positive
  omega

def bufferFlush (page : Page) (s : State) : State :=
  {s with flash := programLoop page s.buffer (erase s.flash) 0}

def bufferedReadByte (s : State) (pos : Nat) : UInt8 := s.buffer pos

def bufferedWriteByte (s : State) (pos : Nat) (value : UInt8) : State :=
  {s with buffer := blit s.buffer pos [value]}

def readByte (page : Page) (s : State) (pos : Nat) : State × UInt8 :=
  let s := bufferFill page s
  (s,bufferedReadByte s pos)

def writeByte (page : Page) (s : State) (pos : Nat) (value : UInt8) : State :=
  bufferFlush page (bufferedWriteByte s pos value)

/-- `EERef::update`: the cell is read first, and written only when it differs. -/
def update (page : Page) (s : State) (pos : Nat) (value : UInt8) : State :=
  let (s,present) := readByte page s pos
  if value ≠ present then writeByte page s pos value else s

inductive Event
  | read (pos : Nat)
  | write (pos : Nat) (value : UInt8)
  | update (pos : Nat) (value : UInt8)

def Event.pos : Event → Nat
  | .read pos => pos
  | .write pos _ => pos
  | .update pos _ => pos

def perform (page : Page) (s : State) : Event → State
  | .read pos => (readByte page s pos).1
  | .write pos value => writeByte page s pos value
  | .update pos value => update page s pos value

/-- A position outside of the image has no cell. -/
def step (page : Page) (s : State) (event : Event) : Option State :=
  if event.pos < page.size then some (perform page s event) else none

def readsAs (page : Page) (s : State) (pos : Nat) : UInt8 := (readByte page s pos).2

/-- The law of a cell array for one call. -/
def Independent (page : Page) (s : State) (event : Event) : Prop :=
  ∀ q, q < page.size → readsAs page (perform page s event) q =
    match event with
    | .read _ => readsAs page s q
    | .write pos value => if q = pos then value else readsAs page s q
    | .update pos value => if q = pos then value else readsAs page s q

/-- The image has been loaded, or holds what a load would give. -/
def Loaded (page : Page) (s : State) : Prop := ∀ q, q < page.size → s.buffer q = s.flash q

@[simp] theorem readsAs_eq (page : Page) (s : State) (pos : Nat) (inside : pos < page.size) :
    readsAs page s pos = s.flash pos := by
  have copied := blit_inside s.buffer 0 (slice s.flash 0 page.size) pos (by simpa using inside)
  rw [Nat.zero_add,slice_getElem,Nat.zero_add] at copied
  exact copied

theorem bufferFill_loaded (page : Page) (s : State) : Loaded page (bufferFill page s) :=
  fun q inside => readsAs_eq page s q inside

theorem program_erased (flash : Nat → UInt8) (address : Nat) (data : List UInt8) (i : Nat) (bound : i < data.length)
    (erased : flash (address + i) = 0xFF) : program flash address data (address + i) = data[i] := by
  unfold program
  rw [blit_inside _ _ _ _ (by simpa using bound),List.getElem_zipWith,slice_getElem,erased]
  have full : (0xFF : UInt8) = -1 := rfl
  rw [full,UInt8.neg_one_and]

theorem program_apart (flash : Nat → UInt8) (address : Nat) (data : List UInt8) (i : Nat)
    (apart : i < address ∨ address + data.length ≤ i) : program flash address data i = flash i := by
  rcases apart with below | above
  · exact blit_below _ _ _ _ below
  · exact blit_above _ _ _ _ (by simpa using above)

/-- The loop programs the image over the erased rest of the page. -/
theorem programLoop_spec (page : Page) (buffer flash : Nat → UInt8) (offset : Nat) (aligned : page.unit ∣ offset)
    (erased : ∀ i, offset ≤ i → flash i = 0xFF) (i : Nat) (inside : i < page.size) :
    programLoop page buffer flash offset i = if offset ≤ i then buffer i else flash i := by
  fun_induction programLoop page buffer flash offset with
  | case1 flash offset more ih =>
    have word : (slice buffer offset page.unit).length = page.unit := slice_length _ _ _
    rw [ih (Nat.dvd_add aligned (Nat.dvd_refl _)) ?_]
    · by_cases ahead : offset + page.unit ≤ i
      · rw [if_pos ahead,if_pos (by omega)]
      · rw [if_neg ahead]
        by_cases here : offset ≤ i
        · obtain ⟨j,rfl⟩ := Nat.exists_eq_add_of_le here
          rw [if_pos here,program_erased _ _ _ j (by omega) (erased _ here),slice_getElem]
        · rw [if_neg here,program_apart _ _ _ _ (Or.inl (by omega))]
    · intro j beyond
      rw [program_apart _ _ _ _ (Or.inr (by omega))]
      exact erased j (by omega)
  | case2 flash offset done => rw [if_neg (by omega)]

theorem bufferFlush_flash (page : Page) (s : State) (i : Nat) (inside : i < page.size) :
    (bufferFlush page s).flash i = s.buffer i := by
  have written := programLoop_spec page s.buffer (erase s.flash) 0 (Nat.dvd_zero _) (fun _ _ => rfl) i inside
  simpa [bufferFlush] using written

theorem bufferedWriteByte_buffer (s : State) (pos : Nat) (value : UInt8) (q : Nat) :
    (bufferedWriteByte s pos value).buffer q = if q = pos then value else s.buffer q := by
  unfold bufferedWriteByte
  by_cases same : q = pos
  · subst same
    simp [blit]
  · rw [if_neg same]
    rcases Nat.lt_or_gt_of_ne same with below | above
    · exact blit_below _ _ _ _ below
    · exact blit_above _ _ _ _ above

theorem writeByte_flash (page : Page) (s : State) (pos : Nat) (value : UInt8) (q : Nat) (inside : q < page.size) :
    (writeByte page s pos value).flash q = if q = pos then value else s.buffer q := by
  rw [writeByte,bufferFlush_flash page _ q inside,bufferedWriteByte_buffer]

theorem writeByte_loaded (page : Page) (s : State) (pos : Nat) (value : UInt8) :
    Loaded page (writeByte page s pos value) := by
  intro q inside
  rw [writeByte,bufferFlush_flash page _ q inside]
  rfl

theorem update_cases (page : Page) (s : State) (pos : Nat) (value : UInt8) :
    (value ≠ readsAs page s pos ∧ update page s pos value = writeByte page (bufferFill page s) pos value) ∨
      (value = readsAs page s pos ∧ update page s pos value = bufferFill page s) := by
  by_cases other : value = readsAs page s pos
  · exact Or.inr ⟨other,if_neg (not_not.mpr other)⟩
  · exact Or.inl ⟨other,if_pos other⟩

theorem perform_loaded (page : Page) (s : State) (event : Event) : Loaded page (perform page s event) := by
  cases event with
  | read pos => exact bufferFill_loaded page s
  | write pos value => exact writeByte_loaded page s pos value
  | update pos value =>
    rcases update_cases page s pos value with ⟨_,same⟩ | ⟨_,same⟩
    · rw [perform,same]
      exact writeByte_loaded page _ pos value
    · rw [perform,same]
      exact bufferFill_loaded page s

/-- A write is independent of the other cells when the image agrees with them. -/
theorem write_independent_iff (page : Page) (s : State) (pos : Nat) (value : UInt8) :
    Independent page s (.write pos value) ↔ ∀ q, q < page.size → q ≠ pos → s.buffer q = s.flash q := by
  constructor
  · intro independent q inside other
    have reads := independent q inside
    simp only [perform,readsAs_eq page _ q inside,writeByte_flash page s pos value q inside,if_neg other] at reads
    exact reads
  · intro agrees q inside
    simp only [perform,readsAs_eq page _ q inside,writeByte_flash page s pos value q inside]
    by_cases same : q = pos
    · simp only [same,if_true]
    · simp only [same,if_false]
      exact agrees q inside same

theorem read_independent (page : Page) (s : State) (pos : Nat) : Independent page s (.read pos) := by
  intro q inside
  simp only [perform,readsAs_eq page _ q inside]
  rfl

theorem update_independent (page : Page) (s : State) (pos : Nat) (value : UInt8) (bound : pos < page.size) :
    Independent page s (.update pos value) := by
  intro q inside
  have filled : (bufferFill page s).buffer q = s.flash q := bufferFill_loaded page s q inside
  rcases update_cases page s pos value with ⟨_,changed⟩ | ⟨present,kept⟩
  · simp only [perform,changed,readsAs_eq page _ q inside]
    rw [writeByte_flash page _ pos value q inside,filled]
  · rw [readsAs_eq page s pos bound] at present
    simp only [perform,kept,readsAs_eq page _ q inside]
    by_cases here : q = pos
    · subst here
      rw [if_pos rfl,present]
      rfl
    · rw [if_neg here]
      rfl

theorem loaded_independent (page : Page) (s : State) (event : Event) (loaded : Loaded page s)
    (bound : event.pos < page.size) : Independent page s event := by
  cases event with
  | read pos => exact read_independent page s pos
  | write pos value => exact (write_independent_iff page s pos value).mpr fun q inside _ => loaded q inside
  | update pos value => exact update_independent page s pos value bound

theorem loaded_run (page : Page) (s : State) (loaded : Loaded page s) (events : List Event) :
    Run.Meets (Independent page) (step page) s events := by
  induction events generalizing s with
  | nil => trivial
  | cons event rest ih =>
    intro next taken
    unfold step at taken
    split at taken
    · rename_i bound
      cases Option.some.inj taken
      exact ⟨loaded_independent page s event loaded bound,ih _ (perform_loaded page s event)⟩
    · contradiction

/-- The first call after boot does not write over cells that the zeroed image belies. -/
def FirstCall (page : Page) (flash : Nat → UInt8) : List Event → Prop
  | .write pos _ :: _ => pos < page.size → ∀ q, q < page.size → q ≠ pos → flash q = 0
  | _ => True

/-- After boot the cells are independent in exactly the runs that do not begin with a
write, or that begin with one while all other cells are zero. -/
theorem independent_iff_firstCall (page : Page) (flash : Nat → UInt8) (events : List Event) :
    Run.Meets (Independent page) (step page) (boot flash) events ↔ FirstCall page flash events := by
  cases events with
  | nil => simp [Run.Meets,FirstCall]
  | cons event rest =>
    have onward := loaded_run page (perform page (boot flash) event) (perform_loaded page _ event) rest
    have first : Run.Meets (Independent page) (step page) (boot flash) (event :: rest) ↔
        (event.pos < page.size → Independent page (boot flash) event) := by
      constructor
      · intro meets bound
        exact (meets (perform page (boot flash) event) (by simp [step,bound])).1
      · intro independent next taken
        unfold step at taken
        split at taken
        · rename_i bound
          cases Option.some.inj taken
          exact ⟨independent bound,onward⟩
        · contradiction
    rw [first]
    cases event with
    | read pos => simp [FirstCall,read_independent]
    | write pos value =>
      simp only [FirstCall,Event.pos,write_independent_iff]
      constructor
      · intro agrees bound q inside other
        exact (agrees bound q inside other).symm
      · intro zero bound q inside other
        exact (zero bound q inside other).symm
    | update pos value =>
      simp only [FirstCall,Event.pos,iff_true]
      exact update_independent page (boot flash) pos value

/-- Cell 1 of a page of sevens does not survive the first write to cell 0. -/
theorem first_write_wipes : ¬ Run.Meets (Independent flashWords) (step flashWords) (boot fun _ => 7) [.write 0 1] := by
  intro meets
  have independent := (meets _ rfl).1 1 (by decide)
  simp only [perform] at independent
  rw [readsAs_eq _ _ _ (by decide),writeByte_flash _ _ _ _ _ (by decide),readsAs_eq _ _ _ (by decide)] at independent
  exact absurd independent (by decide)

end OpenPlc.Storage.Eeprom
