import Mathlib.Algebra.GroupWithZero.Nat
import Mathlib.Tactic.Common

/-! Fragments of IP datagrams (`ip4_frag.c`): how lwIP cuts a datagram for the MTU, and how it reassembles one. -/
namespace OpenPlc.Net.Reassembly

/-- A buffer at an address, with what it holds behind an IP header -/
structure Pbuf where
  addr : Nat
  payload : List UInt8
deriving DecidableEq

/-- `struct ip_hdr`, with the length of the header in bytes. The offset counts units of eight bytes. -/
structure Header where
  hlen : Nat
  tos : Nat
  len : Nat
  id : Nat
  reserved : Bool
  dontFragment : Bool
  moreFragments : Bool
  offset : Nat
  ttl : Nat
  proto : Nat
  chksum : Nat
  src : Nat
  dest : Nat
deriving DecidableEq

def payload (pbufs : List Pbuf) : List UInt8 := pbufs.flatMap Pbuf.payload

/-- What `ip4_input` passes on has just the length that the header says. -/
structure Fragment where
  header : Header
  pbufs : List Pbuf
  filled : header.hlen + (payload pbufs).length = header.len
  lenFits : header.len < 65536
  offsetFits : header.offset < 8192

/-- `struct ip_reass_helper`, with the pbufs that it stands in -/
structure Piece where
  start : Nat
  stop : Nat
  pbufs : List Pbuf

/-- `struct ip_reassdata` -/
structure Reassdata where
  p : List Piece
  iphdr : Header
  datagramLen : Nat
  lastFrag : Bool
  timer : Nat

def Reassdata.pbufs (ipr : Reassdata) : List Pbuf := ipr.p.flatMap Piece.pbufs

/-- The datagrams, the count of their pbufs, the pbufs given back, and the headers in messages that the time was exceeded. -/
structure Reass where
  reassdatagrams : List Reassdata
  pbufcount : Nat
  freed : List Pbuf
  timeExceeded : List Header

def ipHlen : Nat := 20
def reassMaxPbufs : Nat := 10
def numReassdata : Nat := 5
def reassMaxage : Nat := 15

def Header.offsetBytes (h : Header) : Nat := h.offset * 8 % 65536

/-- `IP_ADDRESSES_AND_ID_MATCH` -/
def Header.matches (a b : Header) : Bool := a.src = b.src && a.dest = b.dest && a.id = b.id

/-- `ip_reass_free_complete_datagram`, but for the list of the datagrams -/
def freeCompleteDatagram (ipr : Reassdata) (s : Reass) : Reass :=
  let timeExceeded :=
    match ipr.p with
    | first :: _ => if first.start = 0 then s.timeExceeded ++ [ipr.iphdr] else s.timeExceeded
    | [] => s.timeExceeded
  {s with
    pbufcount := (s.pbufcount + 65536 - ipr.pbufs.length) % 65536, freed := s.freed ++ ipr.pbufs, timeExceeded := timeExceeded}

/-- `ip_reass_tmr` -/
def ipReassTmr (s : Reass) : Reass :=
  s.reassdatagrams.foldl
    (fun s r =>
      if 0 < r.timer then {s with reassdatagrams := s.reassdatagrams ++ [{r with timer := r.timer - 1}]}
      else freeCompleteDatagram r s)
    {s with reassdatagrams := []}

/-- The oldest datagram from an index on that is not the one of the fragment, with its timer -/
def oldest (fraghdr : Header) : List Reassdata → Nat → Option (Nat × Nat) → Option (Nat × Nat)
  | [],_,found => found
  | r :: rest,i,found =>
    oldest fraghdr rest (i + 1)
      (if r.iphdr.matches fraghdr then found
        else
          match found with
          | none => some (i,r.timer)
          | some (j,timer) => if r.timer ≤ timer then some (i,r.timer) else some (j,timer))

def freeAt (i : Nat) (s : Reass) : Reass × Nat :=
  match s.reassdatagrams[i]? with
  | none => (s,0)
  | some ipr => ({freeCompleteDatagram ipr s with reassdatagrams := s.reassdatagrams.eraseIdx i},ipr.pbufs.length)

/-- The loop of `ip_reass_remove_oldest_datagram`. Each turn but the last leaves a datagram less. -/
def removeOldestLoop (fraghdr : Header) (needed : Nat) : Nat → Nat → Reass → Reass × Nat
  | 0,freed,s => (s,freed)
  | fuel + 1,freed,s =>
    let others := s.reassdatagrams.countP fun r => !r.iphdr.matches fraghdr
    let (s',freed') :=
      match oldest fraghdr s.reassdatagrams 0 none with
      | none => (s,freed)
      | some (i,_) =>
        let (s',current) := freeAt i s
        (s',freed + current)
    if freed' < needed ∧ 1 < others then removeOldestLoop fraghdr needed fuel freed' s' else (s',freed')

def removeOldest (fraghdr : Header) (needed : Nat) (s : Reass) : Reass × Nat :=
  removeOldestLoop fraghdr needed (s.reassdatagrams.length + 1) 0 s

/-- `ip_reass_enqueue_new_datagram`: whether the new datagram is now at the front. -/
def enqueueNewDatagram (fraghdr : Header) (clen : Nat) (s : Reass) : Reass × Bool :=
  let enqueue (s : Reass) : Reass × Bool :=
    ({s with reassdatagrams := ⟨[],fraghdr,0,false,reassMaxage⟩ :: s.reassdatagrams},true)
  if s.reassdatagrams.length < numReassdata then enqueue s
  else
    let (s,freed) := removeOldest fraghdr clen s
    if clen ≤ freed ∧ s.reassdatagrams.length < numReassdata then enqueue s else (s,false)

/-- Whether there was no hole so far, and none is between these two. -/
def follows (valid : Bool) (prev : Option Piece) (next : Piece) : Bool :=
  match prev with
  | some prev => valid && prev.stop = next.start
  | none => valid

/-- Through the pieces up to the place of the new one: all pieces then, those from the new one on, and whether there was no
hole up to it. The piece is dropped if it overlaps another. -/
def chainUpTo (new : Piece) : Option Piece → Bool → List Piece → Option (List Piece × List Piece × Bool)
  | prev,valid,[] => some ([new],[new],follows valid prev new)
  | prev,valid,q :: rest =>
    if new.start < q.start then
      if (prev.any fun prev => new.start < prev.stop) ∨ q.start < new.stop then none
      else some (new :: q :: rest,new :: q :: rest,follows valid prev new)
    else if new.start = q.start then none
    else if new.start < q.stop then none
    else (chainUpTo new (some q) (follows valid prev q) rest).map fun (all,onward,valid) => (q :: all,onward,valid)

/-- The check behind the new piece -/
def noHoles : List Piece → Bool
  | a :: b :: rest => a.stop = b.start && noHoles (b :: rest)
  | _ => true

/-- `ip_reass_chain_frag_into_datagram_and_validate`, with whether the datagram is finished. -/
def chainFragAndValidate (ipr : Reassdata) (new : Fragment) (isLast : Bool) : Option (Reassdata × Bool) :=
  let h := new.header
  if h.len < h.hlen then none
  else
    let len := h.len - h.hlen
    let offset := h.offsetBytes
    let stop := (offset + len) % 65536
    if stop < offset then none
    else
      (chainUpTo ⟨offset,stop,new.pbufs⟩ none true ipr.p).map fun (p,onward,valid) =>
        ({ipr with p := p},(isLast || ipr.lastFrag) && valid && (p.head?.map Piece.start = some 0) && noHoles onward)

/-- `nullreturn` -/
def nullreturn (f : Fragment) (s : Reass) : Reass := {s with freed := s.freed ++ f.pbufs}

/-- `nullreturn_ipr` -/
def nullreturnIpr (i : Nat) (ipr : Reassdata) (f : Fragment) (s : Reass) : Reass :=
  nullreturn f (if ipr.p.isEmpty then {s with reassdatagrams := s.reassdatagrams.eraseIdx i} else s)

/-- The part of `ip4_reass` from `is_last` on, for the datagram at the index -/
def reassInto (i : Nat) (ipr : Reassdata) (f : Fragment) (s : Reass) : Reass × Option (Header × List Pbuf) :=
  let h := f.header
  let isLast := !h.moreFragments
  let datagramLen := (h.offsetBytes + (h.len - h.hlen)) % 65536
  if isLast = true ∧ (datagramLen < h.offsetBytes ∨ 65535 - ipHlen < datagramLen) then (nullreturnIpr i ipr f s,none)
  else
    match chainFragAndValidate ipr f isLast with
    | none => (nullreturnIpr i ipr f s,none)
    | some (ipr,finished) =>
      let pbufcount := (s.pbufcount + f.pbufs.length) % 65536
      let ipr := if isLast then {ipr with datagramLen := datagramLen, lastFrag := true} else ipr
      if finished then
        let header :=
          {ipr.iphdr with
            len := (ipr.datagramLen + ipHlen) % 65536, reserved := false, dontFragment := false, moreFragments := false,
            offset := 0, chksum := 0}
        let clen := ipr.pbufs.length
        ({s with reassdatagrams := s.reassdatagrams.eraseIdx i, pbufcount := (pbufcount + 65536 - clen) % 65536},
          some (header,ipr.pbufs))
      else ({s with reassdatagrams := s.reassdatagrams.set i ipr, pbufcount := pbufcount},none)

/-- The header of the first fragment is kept. -/
def Reassdata.adopt (ipr : Reassdata) (fraghdr : Header) : Reassdata :=
  if fraghdr.offset = 0 ∧ ipr.iphdr.offset ≠ 0 then {ipr with iphdr := fraghdr} else ipr

/-- The datagram of the fragment, which may be a new one -/
def findDatagram (fraghdr : Header) (clen : Nat) (s : Reass) : Reass × Option (Nat × Reassdata) :=
  match s.reassdatagrams.findIdx? fun r => r.iphdr.matches fraghdr with
  | some i =>
    match s.reassdatagrams[i]? with
    | none => (s,none)
    | some ipr => ({s with reassdatagrams := s.reassdatagrams.set i (ipr.adopt fraghdr)},some (i,ipr.adopt fraghdr))
  | none =>
    match enqueueNewDatagram fraghdr clen s with
    | (s,false) => (s,none)
    | (s,true) => (s,some (0,⟨[],fraghdr,0,false,reassMaxage⟩))

/-- Whether the pbufs may be enqueued -/
def makeRoom (fraghdr : Header) (clen : Nat) (s : Reass) : Reass × Bool :=
  if reassMaxPbufs < s.pbufcount + clen then
    let (s,freed) := removeOldest fraghdr clen s
    (s,freed ≠ 0 ∧ s.pbufcount + clen ≤ reassMaxPbufs)
  else (s,true)

def ip4Reass (f : Fragment) (s : Reass) : Reass × Option (Header × List Pbuf) :=
  let h := f.header
  if h.hlen ≠ ipHlen then (nullreturn f s,none)
  else if h.len < h.hlen then (nullreturn f s,none)
  else
    match makeRoom h f.pbufs.length s with
    | (s,false) => (nullreturn f s,none)
    | (s,true) =>
      match findDatagram h f.pbufs.length s with
      | (s,none) => (nullreturn f s,none)
      | (s,some (i,ipr)) => reassInto i ipr f s

/-- How many units of eight bytes fit, for an MTU that the header fits. -/
def fragmentUnits (mtu : Nat) : Nat := (mtu - ipHlen) / 8

/-- The loop of `ip4_frag`, with what it sends: the fragments, and whether there was memory for each. It does not end if no
unit fits. -/
def ip4FragLoop (alloc : Nat → Bool) (mtu : Nat) (original : Header) (bytes : List UInt8) :
    Nat → Nat → Nat → Nat → Option (List (Header × List UInt8) × Bool)
  | 0,_,_,_ => none
  | fuel + 1,sent,poff,ofo =>
    let left := bytes.length - poff
    if left = 0 then some ([],true)
    else if alloc sent = false then some ([],false)
    else
      let fragsize := min left (fragmentUnits mtu * 8)
      let last := left + ipHlen ≤ mtu
      let header :=
        {original with
          reserved := false, dontFragment := false, moreFragments := !last || original.moreFragments, offset := ofo % 8192,
          len := (fragsize + ipHlen) % 65536, chksum := 0}
      (ip4FragLoop alloc mtu original bytes fuel (sent + 1) (poff + fragsize) ((ofo + fragmentUnits mtu) % 65536)).map
        fun (rest,ok) => ((header,(bytes.drop poff).take fragsize) :: rest,ok)

def ip4Frag (alloc : Nat → Bool) (mtu : Nat) (original : Header) (bytes : List UInt8) :
    Option (List (Header × List UInt8) × Bool) :=
  if original.hlen ≠ ipHlen then some ([],false)
  else ip4FragLoop alloc mtu original bytes (bytes.length + 1) 0 0 original.offset

end OpenPlc.Net.Reassembly
