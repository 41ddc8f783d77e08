import Mathlib.Algebra.GroupWithZero.Nat
import Mathlib.Logic.Function.Basic
import Mathlib.Tactic.Common

/-! How the DHCP client of lwIP (`dhcp.c`) reads the options of a reply. The reply may lie in a chain of pbufs. -/
namespace OpenPlc.Net.Dhcp

/-- The memory from `payload` on, of which the first `len` bytes are the pbuf's. -/
structure Pbuf where
  len : Nat
  payload : Nat → UInt8

def Pbuf.bytes (q : Pbuf) : List UInt8 := (List.range q.len).map q.payload

def totLen (p : List Pbuf) : Nat := (p.map Pbuf.len).sum % 65536

/-- `pbuf_copy_partial` with what it copies. -/
def copyPartial : List Pbuf → Nat → Nat → List UInt8
  | [],_,_ => []
  | q :: rest,len,offset =>
    if len = 0 then []
    else if offset ≠ 0 ∧ q.len ≤ offset then copyPartial rest len (offset - q.len)
    else
      let bufCopyLen := min (q.len - offset) len
      (List.range bufCopyLen).map (fun i => q.payload (offset + i)) ++ copyPartial rest (len - bufCopyLen) 0

/-- `enum dhcp_option_idx` -/
inductive Idx where
  | overload
  | msgType
  | serverId
  | leaseTime
  | t1
  | t2
  | subnetMask
  | router
  | dnsServer (n : Nat)
deriving DecidableEq

/-- `decode_idx++` -/
def Idx.next : Idx → Idx
  | .dnsServer n => .dnsServer (n + 1)
  | idx => idx

/-- `dhcp_rx_options_given` and `dhcp_rx_options_val` -/
abbrev Options := Idx → Option Nat

@[match_pattern] def optionPad : Nat := 0
@[match_pattern] def optionSubnetMask : Nat := 1
@[match_pattern] def optionRouter : Nat := 3
@[match_pattern] def optionDnsServer : Nat := 6
@[match_pattern] def optionLeaseTime : Nat := 51
@[match_pattern] def optionOverload : Nat := 52
@[match_pattern] def optionMessageType : Nat := 53
@[match_pattern] def optionServerId : Nat := 54
@[match_pattern] def optionT1 : Nat := 58
@[match_pattern] def optionT2 : Nat := 59
def optionEnd : Nat := 255

def snameOfs : Nat := 44
def snameLen : Nat := 64
def fileOfs : Nat := 108
def fileLen : Nat := 128
def optionsOfs : Nat := 240
def dnsMaxServers : Nat := 2

/-- The bytes in the order of the network -/
def number (bytes : List UInt8) : Nat := bytes.foldl (fun n b => n * 256 + b.toNat) 0

/-- `switch (op)`, with `decode_idx` and `decode_len` if there is something to decode. The reply is refused if there is no
result. -/
def select (first : Bool) (op len : Nat) : Option (Option (Idx × Nat)) :=
  match op with
  | optionPad => some none
  | optionSubnetMask => if len = 4 then some (some (.subnetMask,len)) else none
  | optionRouter => if 4 ≤ len then some (some (.router,4)) else none
  | optionDnsServer => if len % 4 = 0 then some (some (.dnsServer 0,min len (4 * dnsMaxServers))) else none
  | optionLeaseTime => if len = 4 then some (some (.leaseTime,len)) else none
  | optionOverload => if len = 1 ∧ first = true then some (some (.overload,len)) else none
  | optionMessageType => if len = 1 then some (some (.msgType,len)) else none
  | optionServerId => if len = 4 then some (some (.serverId,len)) else none
  | optionT1 => if len = 4 then some (some (.t1,len)) else none
  | optionT2 => if len = 4 then some (some (.t2,len)) else none
  | _ => some none

/-- From `decode_next` on. An option that was given before is left as it was. -/
def decode (q : List Pbuf) : Nat → Options → Idx → Nat → Nat → Option Options
  | 0,_,_,_,_ => none
  | fuel + 1,given,idx,valOffset,decodeLen =>
    if (given idx).isSome then some given
    else
      let copyLen := min decodeLen 4
      let value := copyPartial q copyLen valOffset
      if value.length ≠ copyLen then none
      else if 4 < decodeLen then
        let nextValOffset := (valOffset + 4) % 65536
        if decodeLen % 4 ≠ 0 ∨ nextValOffset < valOffset then none
        else decode q fuel (Function.update given idx (some (number value))) idx.next nextValOffset (decodeLen - 4)
      else if decodeLen = 4 ∨ decodeLen = 1 then some (Function.update given idx (some (number value)))
      else none

/-- The `len` of an option, which may be the first byte of the next pbuf. -/
def lenByte (q : Pbuf) (rest : List Pbuf) (offset : Nat) : Nat :=
  if offset + 1 < q.len then (q.payload (offset + 1)).toNat
  else
    match rest with
    | [] => 0
    | r :: _ => (r.payload 0).toNat

/-- One option: `offset` behind it, with what is given then. -/
def parseOption (first : Bool) (q : Pbuf) (rest : List Pbuf) (offset : Nat) (given : Options) : Option (Nat × Options) :=
  let op := (q.payload offset).toNat
  let valOffset := (offset + 2) % 65536
  if valOffset < offset then none
  else
    let len := lenByte q rest offset
    (select first op len).bind fun selected =>
      if op = optionPad then some (offset + 1,given)
      else if 65535 < offset + len + 2 then none
      else
        match selected with
        | none => some (offset + len + 2,given)
        | some (idx,decodeLen) =>
          if decodeLen = 0 then some (offset + len + 2,given)
          else (decode (q :: rest) decodeLen given idx valOffset decodeLen).map fun given => (offset + len + 2,given)

/-- The loop over the options of one area -/
def parseOptions (first : Bool) : Nat → List Pbuf → Nat → Nat → Options → Option Options
  | 0,_,_,_,_ => none
  | _ + 1,[],_,_,given => some given
  | fuel + 1,q :: rest,offset,offsetMax,given =>
    if offset < offsetMax ∧ (q.payload offset).toNat ≠ optionEnd then
      (parseOption first q rest offset given).bind fun (offset,given) =>
        if q.len ≤ offset then
          let offset := offset - q.len
          let offsetMax := (offsetMax + 65536 - q.len) % 65536
          if offset < offsetMax ∧ rest ≠ [] then parseOptions first fuel rest offset offsetMax given else none
        else parseOptions first fuel (q :: rest) offset offsetMax given
    else some given

/-- The pbuf with the index, the index and the end of the area from there on -/
def seek : List Pbuf → Nat → Nat → Option (List Pbuf × Nat × Nat)
  | [],_,_ => none
  | q :: rest,optionsIdx,optionsIdxMax =>
    if q.len ≤ optionsIdx then seek rest (optionsIdx - q.len) ((optionsIdxMax + 65536 - q.len) % 65536)
    else some (q :: rest,optionsIdx,optionsIdxMax)

/-- From `again` on -/
def parseArea (p : List Pbuf) (optionsIdx optionsIdxMax : Nat) (given : Options) : Option Options :=
  (seek p optionsIdx optionsIdxMax).bind fun (q,offset,offsetMax) =>
    parseOptions (optionsIdx = optionsOfs) (65536 * (p.length + 1)) q offset offsetMax given

/-- A field is an area of options too if the overload option names it. -/
def parseField (p : List Pbuf) (overload : Option Nat) (alone ofs len : Nat) (given : Options) : Option Options :=
  if overload = some alone ∨ overload = some 3 then parseArea p ofs (ofs + len) given else some given

/-- `dhcp_parse_reply` -/
def dhcpParseReply (p : List Pbuf) : Option Options :=
  match p with
  | [] => none
  | first :: _ =>
    if first.len < snameOfs then none
    else
      (parseArea p optionsOfs (totLen p) fun _ => none).bind fun given =>
        let overload := given .overload
        (parseField p overload 1 fileOfs fileLen (Function.update given .overload none)).bind fun given =>
          parseField p overload 2 snameOfs snameLen given

/-- What stands in an area of options, up to the end mark -/
inductive Item where
  | pad
  | option (op : UInt8) (data : List UInt8)

def Item.encode : Item → List UInt8
  | .pad => [0]
  | .option op data => op :: UInt8.ofNat data.length :: data

/-- Neither a pad nor the end mark, with a length that fits its byte -/
def Item.Framed : Item → Prop
  | .pad => True
  | .option op data => op.toNat ≠ optionPad ∧ op.toNat ≠ optionEnd ∧ data.length < 256

/-- The lengths that the protocol gives the options. An overload option is for the options field only. -/
def Item.legal (first : Bool) : Item → Bool
  | .pad => true
  | .option op data =>
    match op.toNat with
    | optionSubnetMask | optionLeaseTime | optionServerId | optionT1 | optionT2 => data.length = 4
    | optionRouter => 4 ≤ data.length
    | optionDnsServer => data.length % 4 = 0
    | optionOverload => data.length = 1 ∧ first = true
    | optionMessageType => data.length = 1
    | _ => true

def servers (data : List UInt8) : List (Idx × Nat) :=
  if data.length = 0 then []
  else if data.length = 4 then [(.dnsServer 0,number data)]
  else [(.dnsServer 0,number (data.take 4)),(.dnsServer 1,number ((data.drop 4).take 4))]

def Item.values : Item → List (Idx × Nat)
  | .pad => []
  | .option op data =>
    match op.toNat with
    | optionSubnetMask => [(.subnetMask,number data)]
    | optionRouter => [(.router,number (data.take 4))]
    | optionDnsServer => servers data
    | optionLeaseTime => [(.leaseTime,number data)]
    | optionOverload => [(.overload,number data)]
    | optionMessageType => [(.msgType,number data)]
    | optionServerId => [(.serverId,number data)]
    | optionT1 => [(.t1,number data)]
    | optionT2 => [(.t2,number data)]
    | _ => []

/-- The values up to the first that was given before -/
def Options.add (given : Options) : List (Idx × Nat) → Options
  | [] => given
  | (idx,value) :: more => if (given idx).isSome then given else Options.add (Function.update given idx (some value)) more

def Options.addAll (given : Options) (items : List Item) : Options := items.foldl (fun given item => given.add item.values) given

/-- What the items of one area add, unless one of them has no legal length -/
def Options.area (first : Bool) (given : Options) (items : List Item) : Option Options :=
  if items.all (Item.legal first) then some (given.addAll items) else none

def flat (p : List Pbuf) : List UInt8 := p.flatMap Pbuf.bytes

section Chains
variable {p rest : List Pbuf} {q : Pbuf} {offset offsetMax : Nat} {bytes front more beyond : List UInt8} {given : Options} {first : Bool}

@[simp] theorem Pbuf.bytes_length (q : Pbuf) : q.bytes.length = q.len := by simp [Pbuf.bytes]

@[simp] theorem flat_cons (q : Pbuf) (rest : List Pbuf) : flat (q :: rest) = q.bytes ++ flat rest := rfl

theorem Pbuf.bytes_drop (q : Pbuf) (offset : Nat) :
    q.bytes.drop offset = (List.range (q.len - offset)).map fun i => q.payload (offset + i) := by
  apply List.ext_getElem
  · simp
  · intro i _ _
    simp [Pbuf.bytes]

theorem copyPartial_eq (p : List Pbuf) (len offset : Nat) : copyPartial p len offset = ((flat p).drop offset).take len := by
  induction p generalizing len offset with
  | nil => simp [copyPartial,flat]
  | cons q rest ih =>
    rw [copyPartial,flat_cons]
    split_ifs with none_ behind
    · rw [none_,List.take_zero]
    · have passed : q.bytes.drop offset = [] := List.drop_eq_nil_of_le (by rw [Pbuf.bytes_length]; exact behind.2)
      rw [ih,List.drop_append,passed,List.nil_append,Pbuf.bytes_length]
    · have inside : offset - q.len = 0 := by omega
      dsimp only
      rw [ih,List.drop_append,Pbuf.bytes_length,inside,List.drop_zero,List.take_append,Pbuf.bytes_drop,List.length_map,
        List.length_range,← List.map_take,List.take_range,Nat.min_comm len]
      congr 2
      omega

/-- The area from the offset on has these bytes, and each pbuf that one option can reach across is wide enough. -/
structure At (p : List Pbuf) (offset offsetMax : Nat) (bytes : List UInt8) : Prop where
  within : ∃ beyond, (flat p).drop offset = bytes ++ beyond
  last : offsetMax = offset + bytes.length
  head : ∃ q rest, p = q :: rest ∧ offset < q.len ∧ ∀ r ∈ rest.dropLast, 257 ≤ r.len
  small : (flat p).length < 65536

theorem payload_eq {b : UInt8} (inside : offset < q.len) (here : (flat (q :: rest)).drop offset = b :: more) :
    q.payload offset = b := by
  obtain ⟨k,same⟩ : ∃ k, q.len - offset = k + 1 := ⟨q.len - offset - 1,by omega⟩
  rw [flat_cons,List.drop_append_of_le_length (by rw [Pbuf.bytes_length]; exact Nat.le_of_lt inside),Pbuf.bytes_drop] at here
  rw [same,List.range_succ_eq_map] at here
  simp only [List.map_cons,List.cons_append,List.cons.injEq,Nat.add_zero] at here
  exact here.1

theorem At.inside (here : At (q :: rest) offset offsetMax bytes) : offset < q.len := by
  obtain ⟨_,_,same,inside,_⟩ := here.head
  cases same
  exact inside

theorem At.wide (here : At (q :: rest) offset offsetMax bytes) : ∀ r ∈ rest.dropLast, 257 ≤ r.len := by
  obtain ⟨_,_,same,_,wide⟩ := here.head
  cases same
  exact wide

theorem At.fits (here : At p offset offsetMax bytes) : offset + bytes.length ≤ (flat p).length ∨ bytes = [] := by
  obtain ⟨beyond,same⟩ := here.within
  have lengths := congrArg List.length same
  rw [List.length_drop,List.length_append] at lengths
  cases bytes with
  | nil => exact Or.inr rfl
  | cons b more =>
    rw [List.length_cons] at lengths ⊢
    exact Or.inl (by omega)

/-- Behind some bytes, in the same pbuf or in the next one -/
theorem At.advance (here : At (q :: rest) offset offsetMax (front ++ more)) (some_ : more ≠ []) (short : front.length ≤ 257) :
    (offset + front.length < q.len ∧ At (q :: rest) (offset + front.length) offsetMax more) ∨
      (q.len ≤ offset + front.length ∧ rest ≠ [] ∧
        offset + front.length - q.len < (offsetMax + 65536 - q.len) % 65536 ∧
          At rest (offset + front.length - q.len) ((offsetMax + 65536 - q.len) % 65536) more) := by
  obtain ⟨beyond,same⟩ := here.within
  have inside := here.inside
  have last := here.last
  have small := here.small
  have positive := List.length_pos_iff.mpr some_
  have fits := here.fits.resolve_right (by simp [some_])
  rw [List.length_append] at last fits
  have onward : (flat (q :: rest)).drop (offset + front.length) = more ++ beyond := by
    rw [← List.drop_drop,same,List.append_assoc,List.drop_left]
  by_cases stays : offset + front.length < q.len
  · refine Or.inl ⟨stays,⟨beyond,onward⟩,?_,⟨q,rest,rfl,stays,here.wide⟩,small⟩
    omega
  · have beyondQ : (flat rest).drop (offset + front.length - q.len) = more ++ beyond := by
      rw [flat_cons,List.drop_append,List.drop_eq_nil_of_le (by rw [Pbuf.bytes_length]; omega),Pbuf.bytes_length] at onward
      exact onward
    have lengths : (flat (q :: rest)).length = q.len + (flat rest).length := by simp
    refine Or.inr ⟨by omega,?_,by omega,⟨beyond,beyondQ⟩,by omega,?_,by omega⟩
    · rintro rfl
      rw [flat,List.flatMap_nil,List.drop_nil] at beyondQ
      exact some_ (List.append_eq_nil_iff.mp beyondQ.symm).1
    · cases rest with
      | nil =>
        rw [flat,List.flatMap_nil,List.drop_nil] at beyondQ
        exact absurd (List.append_eq_nil_iff.mp beyondQ.symm).1 some_
      | cons r others =>
        have wide := here.wide
        cases others with
        | nil =>
          refine ⟨r,[],rfl,?_,nofun⟩
          have alone : (flat [r]).length = r.len := by simp [flat]
          rw [lengths,alone] at fits
          omega
        | cons t others =>
          rw [List.dropLast_cons_cons] at wide
          have first := wide r List.mem_cons_self
          exact ⟨r,t :: others,rfl,by omega,fun u member => wide u (List.mem_cons_of_mem r member)⟩

theorem lenByte_eq {op width : UInt8} (here : At (q :: rest) offset offsetMax (op :: width :: more)) :
    lenByte q rest offset = width.toNat := by
  have split : At (q :: rest) offset offsetMax ([op] ++ width :: more) := here
  rw [lenByte.eq_def]
  rcases split.advance (List.cons_ne_nil width more) (by simp) with ⟨inside,next⟩ | ⟨beyond,some_,_,next⟩
  · obtain ⟨_,same⟩ := next.within
    rw [List.length_singleton] at inside same
    rw [if_pos inside,payload_eq inside same]
  · have start : offset + 1 - q.len = 0 := by
      have inside := here.inside
      omega
    rw [List.length_singleton] at beyond next
    rw [start] at next
    rw [if_neg (by omega)]
    cases rest with
    | nil => exact absurd rfl some_
    | cons r others =>
      obtain ⟨_,same⟩ := next.within
      exact congrArg UInt8.toNat (payload_eq next.inside same)

theorem decode_last {idx : Idx} {decodeLen fuel : Nat} {data : List UInt8} (width : decodeLen = 4 ∨ decodeLen = 1)
    (copied : copyPartial p decodeLen offset = data) (long : data.length = decodeLen) :
    decode p (fuel + 1) given idx offset decodeLen = some (given.add [(idx,number data)]) := by
  have least : min decodeLen 4 = decodeLen := by omega
  rw [decode,Options.add,Options.add]
  by_cases before : (given idx).isSome = true
  · rw [if_pos before,if_pos before]
  · dsimp only
    rw [if_neg before,if_neg before,least,copied,if_neg (by omega),if_neg (by omega),if_pos width]

theorem decode_both {idx : Idx} {one two : List UInt8} (small : offset + 4 < 65536) (copied : copyPartial p 4 offset = one)
    (also : copyPartial p 4 (offset + 4) = two) (long : one.length = 4) (second : two.length = 4) :
    decode p 8 given idx offset 8 = some (given.add [(idx,number one),(idx.next,number two)]) := by
  have index : (offset + 4) % 65536 = offset + 4 := Nat.mod_eq_of_lt small
  have least : min 8 4 = 4 := rfl
  rw [decode,Options.add]
  by_cases before : (given idx).isSome = true
  · rw [if_pos before,if_pos before]
  · dsimp only
    rw [if_neg before,if_neg before,least,copied,if_neg (by omega),if_pos (by omega),index,if_neg (by omega)]
    exact decode_last (Or.inl rfl) also second

/-- What is decoded of an option is what it says. -/
theorem selected {op : UInt8} {data : List UInt8} (framed : (Item.option op data).Framed)
    (legal : (Item.option op data).legal first = true) :
    (select first op.toNat data.length = some none ∧ (Item.option op data).values = []) ∨
      ∃ idx decodeLen, select first op.toNat data.length = some (some (idx,decodeLen)) ∧ decodeLen ≤ data.length ∧
        (decodeLen = 0 ∧ (Item.option op data).values = [] ∨
          (decodeLen = 4 ∨ decodeLen = 1) ∧ (Item.option op data).values = [(idx,number (data.take decodeLen))] ∨
            decodeLen = 8 ∧ (Item.option op data).values = [(idx,number (data.take 4)),(idx.next,number ((data.drop 4).take 4))]) := by
  obtain ⟨nonPad,_,_⟩ := framed
  have whole : ∀ idx : Idx, [(idx,number data)] = [(idx,number (data.take data.length))] := by
    intro idx
    rw [List.take_length]
  rw [Item.values]
  rw [Item.legal] at legal
  unfold select
  generalize op.toNat = k at nonPad legal ⊢
  split at legal <;> try rw [decide_eq_true_eq] at legal
  · exact Or.inr ⟨.subnetMask,_,if_pos legal,Nat.le_refl _,Or.inr (Or.inl ⟨Or.inl legal,whole _⟩)⟩
  · exact Or.inr ⟨.leaseTime,_,if_pos legal,Nat.le_refl _,Or.inr (Or.inl ⟨Or.inl legal,whole _⟩)⟩
  · exact Or.inr ⟨.serverId,_,if_pos legal,Nat.le_refl _,Or.inr (Or.inl ⟨Or.inl legal,whole _⟩)⟩
  · exact Or.inr ⟨.t1,_,if_pos legal,Nat.le_refl _,Or.inr (Or.inl ⟨Or.inl legal,whole _⟩)⟩
  · exact Or.inr ⟨.t2,_,if_pos legal,Nat.le_refl _,Or.inr (Or.inl ⟨Or.inl legal,whole _⟩)⟩
  · exact Or.inr ⟨.router,4,if_pos legal,legal,Or.inr (Or.inl ⟨Or.inl rfl,rfl⟩)⟩
  · refine Or.inr ⟨.dnsServer 0,_,if_pos legal,Nat.min_le_left _ _,?_⟩
    rw [servers,dnsMaxServers]
    by_cases none_ : data.length = 0
    · exact Or.inl ⟨by omega,if_pos none_⟩
    by_cases one : data.length = 4
    · have least : min data.length (4 * 2) = data.length := by omega
      rw [if_neg none_,if_pos one,least]
      exact Or.inr (Or.inl ⟨Or.inl one,whole _⟩)
    · rw [if_neg none_,if_neg one]
      exact Or.inr (Or.inr ⟨by omega,rfl⟩)
  · exact Or.inr ⟨.overload,_,if_pos legal,Nat.le_refl _,Or.inr (Or.inl ⟨Or.inr legal.1,whole _⟩)⟩
  · exact Or.inr ⟨.msgType,_,if_pos legal,Nat.le_refl _,Or.inr (Or.inl ⟨Or.inr legal,whole _⟩)⟩
  · refine Or.inl ⟨?_,?_⟩
    · split <;> first | rfl | contradiction
    · split <;> first | rfl | contradiction

theorem unselected {op : UInt8} {data : List UInt8} (illegal : (Item.option op data).legal first = false) :
    select first op.toNat data.length = none := by
  rw [Item.legal] at illegal
  unfold select
  generalize op.toNat = k at illegal ⊢
  split at illegal <;> first | contradiction | exact if_neg (of_decide_eq_false illegal)

theorem parseOption_spec (given : Options) (item : Item) (framed : item.Framed)
    (here : At (q :: rest) offset offsetMax (item.encode ++ more))
    (some_ : more ≠ []) :
    (q.payload offset).toNat ≠ optionEnd ∧ item.encode.length ≤ 257 ∧ parseOption first q rest offset given =
      if item.legal first then some (offset + item.encode.length,given.add item.values) else none := by
  obtain ⟨beyond,same⟩ := here.within
  have small := here.small
  have positive := List.length_pos_iff.mpr some_
  have fits := here.fits.resolve_right (by simp [some_])
  cases item with
  | pad =>
    have op : q.payload offset = 0 := payload_eq here.inside same
    simp only [Item.encode,List.length_append,List.length_singleton] at fits
    rw [parseOption,op]
    refine ⟨by decide,by decide,?_⟩
    dsimp only
    rw [if_neg (by omega)]
    rfl
  | option op data =>
    obtain ⟨nonPad,nonEnd,short⟩ := framed
    have code : q.payload offset = op := payload_eq here.inside same
    have width : lenByte q rest offset = data.length := by
      rw [lenByte_eq here]
      exact Nat.mod_eq_of_lt short
    have value : (flat (q :: rest)).drop (offset + 2) = data ++ (more ++ beyond) := by
      rw [← List.drop_drop,same]
      simp [Item.encode]
    simp only [Item.encode,List.length_append,List.length_cons] at fits ⊢
    have index : (offset + 2) % 65536 = offset + 2 := by omega
    have sum : offset + (data.length + 1 + 1) = offset + data.length + 2 := by omega
    have copied : ∀ n, n ≤ data.length → copyPartial (q :: rest) n (offset + 2) = data.take n := by
      intro n within
      rw [copyPartial_eq,value,List.take_append_of_le_length within]
    rw [parseOption,code]
    refine ⟨nonEnd,by omega,?_⟩
    dsimp only
    rw [width,index,if_neg (by omega),sum]
    cases legal : (Item.option op data).legal first with
    | false => rw [unselected legal,if_neg Bool.false_ne_true,Option.bind_none]
    | true =>
      rw [if_pos rfl]
      rcases selected ⟨nonPad,nonEnd,short⟩ legal with ⟨nothing,meaning⟩ | ⟨idx,decodeLen,selects,within,decoded⟩
      · rw [nothing,Option.bind_some,if_neg nonPad,if_neg (by omega),meaning]
        rfl
      · rw [selects,Option.bind_some,if_neg nonPad,if_neg (by omega)]
        dsimp only
        rcases decoded with ⟨none_,meaning⟩ | ⟨some_,meaning⟩ | ⟨both,meaning⟩
        · rw [if_pos none_,meaning]
          rfl
        · have enough : decodeLen ≠ 0 := by omega
          obtain ⟨fuel,succ⟩ := Nat.exists_eq_add_one_of_ne_zero enough
          have last : decode (q :: rest) (fuel + 1) given idx (offset + 2) decodeLen =
              some (given.add [(idx,number (data.take decodeLen))]) :=
            decode_last some_ (copied decodeLen within) (by simp [within])
          rw [← succ] at last
          rw [if_neg enough,last,meaning]
          rfl
        · subst both
          have second : copyPartial (q :: rest) 4 (offset + 2 + 4) = (data.drop 4).take 4 := by
            rw [copyPartial_eq,← List.drop_drop,value,List.drop_append_of_le_length (by omega),List.take_append_of_le_length]
            rw [List.length_drop]
            omega
          rw [if_neg (by decide),decode_both (by omega) (copied 4 (by omega)) second (by simp; omega) (by simp; omega),meaning]
          rfl

theorem parseOptions_spec (items : List Item) (framed : ∀ item ∈ items, item.Framed) {fuel : Nat} (enough : items.length < fuel)
    (here : At p offset offsetMax (items.flatMap Item.encode ++ UInt8.ofNat optionEnd :: more)) :
    parseOptions first fuel p offset offsetMax given = given.area first items := by
  induction items generalizing fuel p offset offsetMax given with
  | nil =>
    obtain ⟨fuel,rfl⟩ := Nat.exists_eq_add_one_of_ne_zero (Nat.ne_zero_of_lt enough)
    obtain ⟨q,rest,rfl,inside,_⟩ := here.head
    obtain ⟨_,same⟩ := here.within
    have op : q.payload offset = UInt8.ofNat optionEnd := payload_eq inside same
    rw [parseOptions,op,if_neg fun both => both.2 rfl]
    rfl
  | cons item items ih =>
    obtain ⟨fuel,rfl⟩ := Nat.exists_eq_add_one_of_ne_zero (Nat.ne_zero_of_lt enough)
    obtain ⟨q,rest,rfl,_,_⟩ := here.head
    rw [List.flatMap_cons,List.append_assoc] at here
    have some_ : items.flatMap Item.encode ++ UInt8.ofNat optionEnd :: more ≠ [] := by simp
    obtain ⟨goes,short,parsed⟩ := parseOption_spec given item (framed item List.mem_cons_self) here some_
    have onward := fun other member => framed other (List.mem_cons_of_mem item member)
    have last := here.last
    rw [List.length_append] at last
    have positive := List.length_pos_iff.mpr some_
    have unfolded : given.area first (item :: items) =
        if item.legal first then (given.add item.values).area first items else none := by
      rw [Options.area,Options.area,List.all_cons]
      cases item.legal first <;> rfl
    rw [parseOptions,if_pos ⟨by omega,goes⟩,parsed,unfolded]
    cases item.legal first with
    | false => rfl
    | true =>
      rw [if_pos rfl,if_pos rfl,Option.bind_some]
      dsimp only
      rcases here.advance some_ short with ⟨inside,next⟩ | ⟨beyond,others,ahead,next⟩
      · rw [if_neg (by omega)]
        exact ih onward (Nat.lt_of_succ_lt_succ enough) next
      · rw [if_pos beyond,if_pos ⟨ahead,others⟩]
        exact ih onward (Nat.lt_of_succ_lt_succ enough) next

theorem seek_spec {optionsIdx : Nat} (some_ : bytes ≠ []) (there : (flat p).drop optionsIdx = bytes ++ beyond)
    (wide : ∀ r ∈ p.tail.dropLast, 257 ≤ r.len) (small : (flat p).length < 65536) :
    ∃ q offset offsetMax,
      seek p optionsIdx (optionsIdx + bytes.length) = some (q,offset,offsetMax) ∧ At q offset offsetMax bytes := by
  induction p generalizing optionsIdx with
  | nil =>
    rw [flat,List.flatMap_nil,List.drop_nil] at there
    exact absurd (List.append_eq_nil_iff.mp there.symm).1 some_
  | cons q rest ih =>
    have lengths : (flat (q :: rest)).length = q.len + (flat rest).length := by simp
    have total := congrArg List.length there
    have positive := List.length_pos_iff.mpr some_
    rw [List.length_drop,List.length_append] at total
    rw [seek]
    by_cases behind : q.len ≤ optionsIdx
    · have passed : q.bytes.drop optionsIdx = [] := List.drop_eq_nil_of_le (by rw [Pbuf.bytes_length]; exact behind)
      have onward : (flat rest).drop (optionsIdx - q.len) = bytes ++ beyond := by
        rw [← there,flat_cons,List.drop_append,passed,Pbuf.bytes_length,List.nil_append]
      have index : (optionsIdx + bytes.length + 65536 - q.len) % 65536 = optionsIdx - q.len + bytes.length := by omega
      rw [if_pos behind,index]
      refine ih onward (fun r member => wide r ?_) (by omega)
      cases rest with
      | nil => contradiction
      | cons t others =>
        cases others with
        | nil => contradiction
        | cons u others => exact List.mem_cons_of_mem t member
    · rw [if_neg behind]
      exact ⟨_,_,_,rfl,⟨beyond,there⟩,rfl,⟨q,rest,rfl,Nat.lt_of_not_le behind,wide⟩,small⟩

theorem items_length_le (items : List Item) : items.length ≤ (items.flatMap Item.encode).length := by
  induction items with
  | nil => exact Nat.le_refl 0
  | cons item items ih =>
    have some_ : 0 < item.encode.length := by cases item <;> simp [Item.encode]
    rw [List.flatMap_cons,List.length_append,List.length_cons]
    omega

theorem parseArea_spec {optionsIdx : Nat} (items : List Item) (framed : ∀ item ∈ items, item.Framed)
    (there : (flat p).drop optionsIdx = items.flatMap Item.encode ++ UInt8.ofNat optionEnd :: more ++ beyond)
    (wide : ∀ r ∈ p.tail.dropLast, 257 ≤ r.len) (small : (flat p).length < 65536) :
    parseArea p optionsIdx (optionsIdx + (items.flatMap Item.encode ++ UInt8.ofNat optionEnd :: more).length) given =
      given.area (decide (optionsIdx = optionsOfs)) items := by
  obtain ⟨q,offset,offsetMax,sought,here⟩ := seek_spec (by simp) there wide small
  have few := items_length_le items
  have total := congrArg List.length there
  simp only [List.length_drop,List.length_append] at total
  rw [parseArea,sought,Option.bind_some]
  exact parseOptions_spec items framed (by omega) here

theorem totLen_eq (small : (flat p).length < 65536) : totLen p = (flat p).length := by
  have sum : (flat p).length = (p.map Pbuf.len).sum := by simp [flat,List.length_flatMap]
  rw [totLen,← sum,Nat.mod_eq_of_lt small]

end Chains

/-- The area at this place of the packet, of this length, carries these items. -/
def Area (p : List Pbuf) (ofs len : Nat) (items : List Item) : Prop :=
  (∀ item ∈ items, item.Framed) ∧ ∃ more beyond,
    (flat p).drop ofs = items.flatMap Item.encode ++ UInt8.ofNat optionEnd :: more ++ beyond ∧
    (items.flatMap Item.encode ++ UInt8.ofNat optionEnd :: more).length = len

/-- What an overload option among the items names. -/
def overloaded (items : List Item) : Option Nat := Options.addAll (fun _ => none) items .overload

/-- The items that a packet carries in its options, and in its fields for a file and a name if an overload option names them. -/
structure Carries (p : List Pbuf) (items fileItems snameItems : List Item) : Prop where
  small : (flat p).length < 65536
  first : ∃ q rest, p = q :: rest ∧ snameOfs ≤ q.len
  wide : ∀ r ∈ p.tail.dropLast, 257 ≤ r.len
  options : Area p optionsOfs ((flat p).length - optionsOfs) items
  file : overloaded items = some 1 ∨ overloaded items = some 3 → Area p fileOfs fileLen fileItems
  sname : overloaded items = some 2 ∨ overloaded items = some 3 → Area p snameOfs snameLen snameItems

def meaning (items fileItems snameItems : List Item) : Option Options :=
  let field (alone : Nat) (items' : List Item) (given : Options) :=
    if overloaded items = some alone ∨ overloaded items = some 3 then Options.area false given items' else some given
  (Options.area true (fun _ => none) items).bind fun given =>
    (field 1 fileItems (Function.update given .overload none)).bind fun given => field 2 snameItems given

/-- However the packet is split into pbufs. -/
theorem dhcpParseReply_meaning (p : List Pbuf) (items fileItems snameItems : List Item) (carries : Carries p items fileItems snameItems) :
    dhcpParseReply p = meaning items fileItems snameItems := by
  obtain ⟨small,⟨q,rest,rfl,enough⟩,wide,⟨framed,more,beyond,there,long⟩,file,sname⟩ := carries
  have filled : totLen (q :: rest) = optionsOfs + (items.flatMap Item.encode ++ UInt8.ofNat optionEnd :: more).length := by
    have some_ : 0 < (items.flatMap Item.encode ++ UInt8.ofNat optionEnd :: more).length := List.length_pos_iff.mpr (by simp)
    rw [totLen_eq small]
    omega
  have field : ∀ alone ofs len fieldItems given, ofs ≠ optionsOfs →
      (overloaded items = some alone ∨ overloaded items = some 3 → Area (q :: rest) ofs len fieldItems) →
        parseField (q :: rest) (overloaded items) alone ofs len given =
          if overloaded items = some alone ∨ overloaded items = some 3 then Options.area false given fieldItems else some given := by
    intro alone ofs len fieldItems given other area
    rw [parseField]
    split_ifs with named
    · obtain ⟨framed,more,beyond,there,rfl⟩ := area named
      rw [parseArea_spec fieldItems framed there wide small,decide_eq_false other]
    · rfl
  rw [dhcpParseReply,if_neg (Nat.not_lt.mpr enough),filled,parseArea_spec items framed there wide small,meaning,decide_eq_true rfl,
    Options.area]
  cases items.all (Item.legal true) with
  | false => rfl
  | true =>
    have first := field 1 fileOfs fileLen fileItems (Function.update (Options.addAll (fun _ => none) items) .overload none)
      (by decide) file
    simp only [if_true,Option.bind_some]
    exact (congrArg (Option.bind · _) first).trans (congrArg _ (funext fun given =>
      field 2 snameOfs snameLen snameItems given (by decide) sname))

def Pbuf.ofBytes (bytes : List UInt8) : Pbuf := ⟨bytes.length,fun i => bytes.getD i 0⟩

/-- An acknowledgement with options in all three areas, split within the one that names the server. -/
def acknowledgement : List Pbuf :=
  let bytes := List.replicate 44 0 ++ ([3,4,192,168,1,1,255] ++ List.replicate 57 0) ++ ([51,4,0,0,14,16,255] ++ List.replicate 121 0) ++
    [99,130,83,99] ++ [53,1,5,0,54,4,192,168,1,9,6,8,1,1,1,1,8,8,8,8,52,1,3,255,7]
  [Pbuf.ofBytes (bytes.take 247),Pbuf.ofBytes (bytes.drop 247)]

theorem dhcpParseReply_acknowledgement :
    (dhcpParseReply acknowledgement).map (fun given => [given .msgType,given .serverId,given (.dnsServer 1),given .leaseTime,
      given .router,given .overload,given .t1]) =
        some [some 5,some 0xC0A80109,some 0x08080808,some 3600,some 0xC0A80101,none,none] := by
  have carries : Carries acknowledgement
      [.option 53 [5],.pad,.option 54 [192,168,1,9],.option 6 [1,1,1,1,8,8,8,8],.option 52 [3]] [.option 51 [0,0,14,16]]
      [.option 3 [192,168,1,1]] := by
    refine ⟨by decide +kernel,⟨_,_,rfl,by decide +kernel⟩,nofun,⟨?_,[7],[],by decide +kernel,by decide +kernel⟩,
      fun _ => ⟨?_,List.replicate 121 0,(flat acknowledgement).drop 236,by decide +kernel,by decide +kernel⟩,
      fun _ => ⟨?_,List.replicate 57 0,(flat acknowledgement).drop 108,by decide +kernel,by decide +kernel⟩⟩ <;>
      simp [Item.Framed,optionPad,optionEnd]
  rw [dhcpParseReply_meaning _ _ _ _ carries]
  decide

end OpenPlc.Net.Dhcp
