import OpenPlc.Lib.Ring

/-! The ring buffer of the virtual serial port (`virtio_buffer.c`). -/
namespace OpenPlc.Virtio
open OpenPlc.Memory OpenPlc.Ring

/-- `VIRTIO_BUFFER_SIZE`, `RPMSG_VRING_PAYLOAD_SIZE` and `VRING_NUM_BUFFS`: the ring has room for all that one
notification brings. -/
structure Config where
  size : Nat
  payload : Nat
  buffs : Nat
  room : payload * buffs < size
  fits : size ≤ 32768

/-- `RPMSG_VRING_TOTAL_PAYLOAD_SIZE` -/
def Config.total (n : Config) : Nat := n.payload * n.buffs

def Config.default : Config := ⟨496 * 16 + 1,496,16,by decide,by decide⟩

theorem Config.positive (n : Config) : 0 < n.size := Nat.zero_lt_of_lt n.room

structure Buffer where
  buffer : Nat → UInt8
  writeIndex : Nat
  readIndex : Nat

namespace Buffer

def init (ring : Buffer) : Buffer := {ring with writeIndex := 0, readIndex := 0}

variable (n : Config)

/-- A difference of indices, brought into the ring -/
def wrapped (delta : Int) : Nat := (if delta < 0 then n.size + delta else delta).toNat

def readAvailable (ring : Buffer) : Nat := wrapped n (ring.writeIndex - ring.readIndex)

def writeAvailable (ring : Buffer) : Nat := wrapped n (ring.readIndex - ring.writeIndex - 1)

/-- An index of `uint16_t`, moved and brought back into the ring -/
def advanced (index size : Nat) : Nat :=
  let index := (index + size) % 65536
  if n.size ≤ index then index - n.size else index

/-- `read` with the bytes that it copies. -/
def read (ring : Buffer) (size : Nat) (peek : Bool) : Buffer × List UInt8 :=
  let size := min size (wrapped n (ring.writeIndex - ring.readIndex))
  let data :=
    if n.size < size + ring.readIndex then
      slice ring.buffer ring.readIndex (n.size - ring.readIndex) ++ slice ring.buffer 0 (size - (n.size - ring.readIndex))
    else slice ring.buffer ring.readIndex size
  (if peek then ring else {ring with readIndex := advanced n ring.readIndex size},data)

/-- `virtio_buffer_write` of all the bytes of `src`, with the number that it returns -/
def write (ring : Buffer) (src : List UInt8) : Buffer × Nat :=
  let size := min src.length (wrapped n (ring.readIndex - ring.writeIndex - 1))
  let buffer :=
    if n.size < size + ring.writeIndex then
      blit (blit ring.buffer ring.writeIndex (src.take (n.size - ring.writeIndex))) 0
        ((src.drop (n.size - ring.writeIndex)).take (size - (n.size - ring.writeIndex)))
    else blit ring.buffer ring.writeIndex (src.take size)
  ({ring with buffer := buffer, writeIndex := advanced n ring.writeIndex size},size)

structure Valid (ring : Buffer) : Prop where
  write : ring.writeIndex < n.size
  read : ring.readIndex < n.size

/-- The bytes that wait to be read. -/
def stored (ring : Buffer) : List UInt8 :=
  cells ring.buffer n.size ring.readIndex (distance n.size ring.readIndex ring.writeIndex)

variable (ring : Buffer)

theorem stored_length : (stored n ring).length = distance n.size ring.readIndex ring.writeIndex := cells_length ..

theorem stored_lt : (stored n ring).length < n.size := by
  rw [stored_length]
  exact distance_lt _ _ _ n.positive

variable {n} {ring}

theorem init_valid (ring : Buffer) : Valid n (init ring) := ⟨n.positive,n.positive⟩

theorem init_stored (ring : Buffer) : stored n (init ring) = [] := by
  have none_ : distance n.size (init ring).readIndex (init ring).writeIndex = 0 :=
    (distance_eq_zero n.size 0 0 n.positive n.positive).mpr rfl
  rw [stored,none_,cells_zero]

theorem wrapped_used (valid : Valid n ring) : wrapped n (ring.writeIndex - ring.readIndex) = (stored n ring).length := by
  have write := valid.write
  have read := valid.read
  rw [stored_length,wrapped]
  rcases distance_cases n.size ring.readIndex ring.writeIndex read write with ⟨_,used⟩ | ⟨_,used⟩ <;> split_ifs <;> omega

theorem wrapped_free (valid : Valid n ring) :
    wrapped n (ring.readIndex - ring.writeIndex - 1) = n.size - 1 - (stored n ring).length := by
  have write := valid.write
  have read := valid.read
  rw [stored_length,wrapped]
  rcases distance_cases n.size ring.readIndex ring.writeIndex read write with ⟨_,used⟩ | ⟨_,used⟩ <;> split_ifs <;> omega

theorem advanced_eq {index size : Nat} (inside : index < n.size) (short : size ≤ n.size) :
    advanced n index size = (index + size) % n.size := by
  have fits := n.fits
  rw [advanced,Nat.mod_eq_of_lt (by omega)]
  rcases advance_cases n.size index size inside short with ⟨_,moved⟩ | ⟨_,moved⟩
  · rw [if_neg (by omega),moved]
  · rw [if_pos (by omega),moved]

theorem copied_eq {mem : Nat → UInt8} {pos len : Nat} (inside : pos < n.size) (short : len ≤ n.size) :
    (if n.size < len + pos then slice mem pos (n.size - pos) ++ slice mem 0 (len - (n.size - pos)) else slice mem pos len) =
      cells mem n.size pos len := by
  split_ifs with around
  · obtain ⟨rest,split⟩ := Nat.exists_eq_add_of_le (show n.size - pos ≤ len by omega)
    rw [split,cells_add,cells_slice mem n.size pos _ (by omega),Nat.add_sub_cancel_left,
      show pos + (n.size - pos) = n.size by omega,Nat.mod_self,cells_slice mem n.size 0 rest (by omega)]
  · rw [cells_slice mem n.size pos len (by omega)]

theorem read_data (valid : Valid n ring) (size : Nat) (peek : Bool) : (read n ring size peek).2 = (stored n ring).take size := by
  have short := stored_lt n ring
  have used := stored_length n ring
  have within : min size (stored n ring).length ≤ distance n.size ring.readIndex ring.writeIndex := by omega
  simp only [read,wrapped_used valid]
  rw [copied_eq valid.read (by omega),← cells_take _ _ _ _ _ within]
  exact List.take_eq_take_min.symm

theorem read_ring (valid : Valid n ring) (size : Nat) : (read n ring size false).1 =
    {ring with readIndex := (ring.readIndex + min size (stored n ring).length) % n.size} := by
  have short := stored_lt n ring
  simp only [read,wrapped_used valid,Bool.false_eq_true,if_false]
  rw [advanced_eq valid.read (by omega)]

theorem read_valid (valid : Valid n ring) (size : Nat) : Valid n (read n ring size false).1 := by
  rw [read_ring valid]
  exact ⟨valid.write,Nat.mod_lt _ n.positive⟩

theorem read_stored (valid : Valid n ring) (size : Nat) : stored n (read n ring size false).1 = (stored n ring).drop size := by
  have used := stored_length n ring
  have within : min size (stored n ring).length ≤ distance n.size ring.readIndex ring.writeIndex := by omega
  rw [read_ring valid,stored,distance_pop n.size ring.readIndex ring.writeIndex _ valid.read valid.write within,
    ← cells_drop _ _ _ _ _ within]
  change (stored n ring).drop (min size (stored n ring).length) = _
  rcases Nat.le_total size (stored n ring).length with less | more
  · rw [Nat.min_eq_left less]
  · rw [Nat.min_eq_right more,List.drop_length,List.drop_eq_nil_of_le more]

/-- As many bytes are written as there is room for. -/
def accepted (n : Config) (ring : Buffer) (src : List UInt8) : List UInt8 := src.take (n.size - 1 - (stored n ring).length)

theorem accepted_length (src : List UInt8) :
    (accepted n ring src).length = min src.length (n.size - 1 - (stored n ring).length) := by
  rw [accepted,List.length_take,Nat.min_comm]

theorem accepted_whole {src : List UInt8} (fits : src.length ≤ n.size - 1 - (stored n ring).length) : accepted n ring src = src :=
  List.take_of_length_le fits

theorem write_ring (valid : Valid n ring) (src : List UInt8) : write n ring src =
    ({ring with
      buffer := wrapBlit ring.buffer n.size ring.writeIndex (accepted n ring src)
      writeIndex := (ring.writeIndex + (accepted n ring src).length) % n.size},(accepted n ring src).length) := by
  have short := stored_lt n ring
  have start := valid.write
  obtain ⟨count,same⟩ : ∃ count, count = (accepted n ring src).length := ⟨_,rfl⟩
  have data : accepted n ring src = src.take count := by
    rw [same,accepted_length,Nat.min_comm,← List.take_take,List.take_length,accepted]
  simp only [write,wrapped_free valid,← accepted_length,← same]
  rw [advanced_eq valid.write (by rw [same,accepted_length]; omega)]
  congr 2
  split_ifs with around
  · rw [wrapBlit,data,List.take_take,List.drop_take,Nat.min_eq_left (by omega)]
  · rw [wrapBlit_flat _ _ _ _ (by omega),← data]

theorem write_valid (valid : Valid n ring) (src : List UInt8) : Valid n (write n ring src).1 := by
  rw [write_ring valid]
  exact ⟨Nat.mod_lt _ n.positive,valid.read⟩

theorem write_count (valid : Valid n ring) (src : List UInt8) : (write n ring src).2 = (accepted n ring src).length := by
  rw [write_ring valid]

theorem write_stored (valid : Valid n ring) (src : List UInt8) :
    stored n (write n ring src).1 = stored n ring ++ accepted n ring src := by
  have short := stored_lt n ring
  have used := stored_length n ring
  have few : (accepted n ring src).length ≤ n.size - 1 - (stored n ring).length := by
    rw [accepted_length]
    exact Nat.min_le_right _ _
  have place := distance_head n.size ring.readIndex ring.writeIndex valid.read valid.write
  have moved := distance_push n.size ring.readIndex ring.writeIndex (accepted n ring src).length valid.read valid.write (by omega)
  rw [write_ring valid,stored,moved]
  nth_rewrite 1 [← place]
  exact cells_wrapBlit ring.buffer n.size ring.readIndex _ (accepted n ring src) valid.read (by omega)

end Buffer

end OpenPlc.Virtio
