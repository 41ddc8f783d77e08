import Mathlib.Algebra.GroupWithZero.Nat
import Mathlib.Data.List.TakeWhile
import OpenPlc.Lib.CString

/-! The UDP server (`udp_server.c`): which datagrams `udp_server_recv` takes for a command. -/
namespace OpenPlc.Net.Udp
open CString

/-- A pbuf of a chain, where a payload may be null. -/
structure Pbuf where
  payload : Option (List UInt8)

def Pbuf.bytes (p : Pbuf) : List UInt8 := p.payload.getD []

def Pbuf.len (p : Pbuf) : Nat := p.bytes.length

/-- The unique id of the chip, whether `pbuf_alloc` has a pbuf for the reply, whether there is an
`udp_reboot_callback`, and the backup register. -/
structure Board where
  u0 : UInt32
  u1 : UInt32
  u2 : UInt32
  allocates : Bool
  rebootCallback : Bool
  regV : Nat

inductive Effect where
  | pbufFree
  | sendto (msg : List UInt8)
  | rebootCallback
  | bkupWrite (value : Nat)
  | systemReset
deriving DecidableEq

def ascii (text : String) : List UInt8 := text.toList.map fun c => UInt8.ofNat c.toNat

def openplcDeviceName : List UInt8 := ascii "STM32H743"

def udpServerName : List UInt8 := ascii "CUSAPP"

def openplcCusappVersion : List UInt8 := ascii "0.1.2"

def magicEthFlag : Nat := 0xAE

def recvBufSize : Nat := 64

def replyMsgSize : Nat := 96

def uidHexSize : Nat := 25

def discovers : List (List UInt8) :=
  [ascii "DISCOVER",ascii "openplc_discover",ascii "openplc_server_where_r_y",ascii "ping"]

def serverReboot : List UInt8 := ascii "openplc_server_reboot"

def hexDigit (d : Nat) : UInt8 := UInt8.ofNat (if d < 10 then 48 + d else 55 + d)

/-- `%08lX` -/
def hex8 (w : UInt32) : List UInt8 := (List.range 8).map fun i => hexDigit (w.toNat / 16 ^ (7 - i) % 16)

def snprintf (block : List UInt8) (size : Nat) (content : List UInt8) : Option (List UInt8) :=
  strcpy block 0 (content.take (size - 1))

def openplcUidHex (board : Board) (out : List UInt8) : Option (List UInt8) :=
  snprintf out uidHexSize (hex8 board.u2 ++ hex8 board.u1 ++ hex8 board.u0)

def openplcUdpReply (board : Board) (msg : List UInt8) : Option (List Effect) :=
  (text msg).map fun msg => if board.allocates then [.sendto msg] else []

def openplcSetEthFlagAndReset (board : Board) : List Effect :=
  (if board.regV ≠ magicEthFlag then [.bkupWrite magicEthFlag] else []) ++ [.systemReset]

def discoverReply (board : Board) : Option (List Effect) := do
  let uidHex ← openplcUidHex board (List.replicate uidHexSize 0)
  let uidHex ← text uidHex
  let replyMsg ← snprintf (List.replicate replyMsgSize 0) replyMsgSize
    (openplcDeviceName ++ [95] ++ uidHex ++ [95] ++ udpServerName ++ [95] ++ openplcCusappVersion)
  openplcUdpReply board replyMsg

/-- `strcmp(recv_buf, command) == 0` -/
def equals (recvBuf command : List UInt8) : Bool := strcmp recvBuf (command ++ [0]) = some true

/-- `udp_server_recv` of a chain that starts with `p`. It reads the first pbuf only. -/
def udpServerRecv (board : Board) (p : Pbuf) : Option (List Effect) :=
  if p.payload = none ∨ p.len = 0 then some [.pbufFree]
  else do
    let n := if p.len < recvBufSize - 1 then p.len else recvBufSize - 1
    let recvBuf ← put (List.replicate recvBufSize 0) 0 (p.bytes.take n)
    let answer ←
      if discovers.any (equals recvBuf) then discoverReply board
      else if equals recvBuf serverReboot then
        some (if board.rebootCallback then [.rebootCallback] else openplcSetEthFlagAndReset board)
      else some []
    some (.pbufFree :: answer)

/-- The payload of a datagram is in all the pbufs of its chain. -/
def datagram (p : Pbuf) (rest : List Pbuf) : List UInt8 := (p :: rest).flatMap Pbuf.bytes

def Effect.reboots : Effect → Bool
  | .rebootCallback | .systemReset => true
  | _ => false

structure Recognises (payload : List UInt8) (effects : List Effect) : Prop where
  replies : (∃ msg, .sendto msg ∈ effects) ↔ payload ∈ discovers
  reboots : effects.any Effect.reboots = true ↔ payload = serverReboot
  silent : payload ∉ discovers → payload ≠ serverReboot → effects = [.pbufFree]
  freed : effects.count .pbufFree = 1
  fits : ∀ msg, .sendto msg ∈ effects → msg.length < replyMsgSize

/-- These bytes are the command, or go on with a zero after it. -/
def Passes (bytes command : List UInt8) : Prop := bytes = command ∨ command ++ [0] <+: bytes

/-- A command is in the first pbuf with nothing after it, and nothing else begins like a command and a zero. -/
structure Plain (board : Board) (p : Pbuf) (rest : List Pbuf) : Prop where
  first : datagram p rest ∈ serverReboot :: discovers → p.bytes = datagram p rest
  allocates : datagram p rest ∈ discovers → board.allocates = true
  discover : ∀ command ∈ discovers, board.allocates = true → Passes p.bytes command → datagram p rest = command
  reboot : Passes p.bytes serverReboot → datagram p rest = serverReboot

section Commands
variable {bytes command other : List UInt8}

theorem commands_short : ∀ command ∈ serverReboot :: discovers, command ≠ [] ∧ 0 ∉ command ∧ command.length < recvBufSize - 1 := by
  decide

theorem commands_apart : ∀ command ∈ serverReboot :: discovers, ∀ other ∈ serverReboot :: discovers,
    command.isPrefixOf other = true → command = other := by
  decide

theorem reboot_apart : serverReboot ∉ discovers := by
  decide

theorem Passes.starts (passes : Passes bytes command) : command <+: bytes :=
  passes.elim (fun same => same ▸ List.prefix_rfl) (fun more => (List.prefix_append command [0]).trans more)

theorem Passes.unique (passes : Passes bytes command) (too : Passes bytes other) (member : command ∈ serverReboot :: discovers)
    (also_ : other ∈ serverReboot :: discovers) : command = other := by
  obtain first | second := List.prefix_or_prefix_of_prefix passes.starts too.starts
  · exact commands_apart command member other also_ (List.isPrefixOf_iff_prefix.mpr first)
  · exact (commands_apart other also_ command member (List.isPrefixOf_iff_prefix.mpr second)).symm

/-- The bytes of a text before its zero, of what fits into the buffer. -/
theorem heard_iff (free : 0 ∉ command) (short : command.length < recvBufSize - 1) :
    (bytes.take (recvBufSize - 1)).takeWhile (· ≠ 0) = command ↔ Passes bytes command := by
  constructor
  · intro heard
    have parts := List.takeWhile_append_dropWhile (p := (· ≠ (0 : UInt8))) (l := bytes.take (recvBufSize - 1))
    rw [heard] at parts
    cases behind : (bytes.take (recvBufSize - 1)).dropWhile (· ≠ 0) with
    | nil =>
      rw [behind,List.append_nil] at parts
      have length := congrArg List.length parts
      rw [List.length_take] at length
      refine Or.inl (parts.trans (List.take_of_length_le ?_)).symm
      omega
    | cons c tail =>
      have zero : c = 0 := by
        have stops := List.head?_dropWhile_not (· ≠ (0 : UInt8)) (bytes.take (recvBufSize - 1))
        rw [behind] at stops
        simpa using stops
      subst zero
      rw [behind] at parts
      have starts : command ++ [0] <+: bytes.take (recvBufSize - 1) := ⟨tail,by rwa [List.append_assoc]⟩
      exact Or.inr (starts.trans (List.take_prefix (recvBufSize - 1) bytes))
  · rintro (rfl | ⟨tail,rfl⟩)
    · rw [List.take_of_length_le (Nat.le_of_lt short)]
      exact List.takeWhile_eq_self_iff.mpr fun c member => decide_eq_true fun zero => free (zero ▸ member)
    · have inside : (command ++ [0]).length ≤ recvBufSize - 1 := by
        rw [List.length_append]
        exact short
      have holds : Holds ((command ++ [0] ++ tail).take (recvBufSize - 1)) command := by
        rw [List.take_append,List.take_of_length_le inside,List.append_assoc]
        exact ⟨free,_,rfl⟩
      exact holds.takeWhile

end Commands

section Receive
variable {board : Board} {p : Pbuf}

theorem holds_first (data zeros : List UInt8) : Holds (data ++ 0 :: zeros) (data.takeWhile (· ≠ 0)) := by
  induction data with
  | nil => exact ⟨List.not_mem_nil,zeros,rfl⟩
  | cons c data ih =>
    by_cases zero : c = 0
    · subst zero
      exact ⟨by simp,data ++ 0 :: zeros,by simp⟩
    · obtain ⟨rest,parts⟩ := ih.parts
      rw [List.takeWhile_cons_of_pos (by simpa using zero)]
      exact ⟨fun member => (List.mem_cons.mp member).elim (fun same => zero same.symm) ih.free,rest,congrArg (c :: ·) parts⟩

theorem recvBuf_holds (bytes : List UInt8) : ∃ recvBuf,
    put (List.replicate recvBufSize 0) 0 (bytes.take (recvBufSize - 1)) = some recvBuf ∧
      Holds recvBuf ((bytes.take (recvBufSize - 1)).takeWhile (· ≠ 0)) := by
  have short : (bytes.take (recvBufSize - 1)).length ≤ recvBufSize - 1 := List.length_take_le _ bytes
  obtain ⟨zeros,more⟩ : ∃ zeros, recvBufSize - (bytes.take (recvBufSize - 1)).length = zeros + 1 :=
    Nat.exists_eq_add_one_of_ne_zero (by rw [recvBufSize] at short ⊢; omega)
  refine ⟨bytes.take (recvBufSize - 1) ++ 0 :: List.replicate zeros 0,?_,holds_first _ _⟩
  have inside : (bytes.take (recvBufSize - 1)).length ≤ recvBufSize := Nat.le_trans short (Nat.sub_le _ _)
  rw [put,List.length_replicate,Nat.zero_add,if_pos inside,List.take_zero,List.nil_append,List.drop_replicate,more]
  rfl

theorem equals_iff {recvBuf bytes command : List UInt8} (holds : Holds recvBuf ((bytes.take (recvBufSize - 1)).takeWhile (· ≠ 0)))
    (member : command ∈ serverReboot :: discovers) : equals recvBuf command = true ↔ Passes bytes command := by
  obtain ⟨-,free,short⟩ := commands_short command member
  rw [equals,strcmp_spec holds ⟨free,[],rfl⟩,← heard_iff free short]
  simp

theorem hexDigit_some : ∀ d < 16, hexDigit d ≠ 0 := by
  decide

theorem hex8_free (w : UInt32) : 0 ∉ hex8 w := by
  intro member
  obtain ⟨i,-,zero⟩ := List.mem_map.mp member
  exact hexDigit_some _ (Nat.mod_lt _ (by decide)) zero

theorem snprintf_holds (block : List UInt8) (size : Nat) (content : List UInt8) (room : content.length < size)
    (long : size ≤ block.length) (free : 0 ∉ content) :
    ∃ after, snprintf block size content = some after ∧ Holds after content := by
  obtain ⟨after,written,holds,-⟩ := strcpy_whole block content (by omega) free
  refine ⟨after,?_,holds⟩
  rw [snprintf,List.take_of_length_le (Nat.le_sub_one_of_lt room),written]

theorem discoverReply_eq (board : Board) : ∃ msg, msg.length < replyMsgSize ∧
    discoverReply board = some (if board.allocates then [.sendto msg] else []) := by
  obtain ⟨uid,uid_eq⟩ : ∃ uid, uid = hex8 board.u2 ++ hex8 board.u1 ++ hex8 board.u0 := ⟨_,rfl⟩
  have length : uid.length = 24 := by simp [uid_eq,hex8]
  have free : 0 ∉ uid := by
    simp only [uid_eq,List.mem_append,not_or]
    exact ⟨⟨hex8_free board.u2,hex8_free board.u1⟩,hex8_free board.u0⟩
  obtain ⟨out,printed,holds⟩ := snprintf_holds (List.replicate uidHexSize 0) uidHexSize uid (by rw [length]; decide)
    (by rw [List.length_replicate]) free
  obtain ⟨msg,msg_eq⟩ : ∃ msg, msg = openplcDeviceName ++ [95] ++ uid ++ [95] ++ udpServerName ++ [95] ++ openplcCusappVersion :=
    ⟨_,rfl⟩
  have fits : msg.length < replyMsgSize := by
    simp only [msg_eq,List.length_append,length]
    decide
  have clear : 0 ∉ msg := by
    simp only [msg_eq,List.mem_append,not_or]
    exact ⟨⟨⟨⟨⟨⟨by decide,by decide⟩,free⟩,by decide⟩,by decide⟩,by decide⟩,by decide⟩
  obtain ⟨replyMsg,replied,ends⟩ := snprintf_holds (List.replicate replyMsgSize 0) replyMsgSize msg fits
    (by rw [List.length_replicate]) clear
  refine ⟨msg,fits,?_⟩
  simp only [discoverReply,openplcUidHex]
  rw [← uid_eq,printed]
  simp only [Option.bind_eq_bind,Option.bind_some,holds.text]
  rw [← msg_eq,replied,Option.bind_some,openplcUdpReply,ends.text]
  rfl

theorem take_min (p : Pbuf) :
    p.bytes.take (if p.len < recvBufSize - 1 then p.len else recvBufSize - 1) = p.bytes.take (recvBufSize - 1) := by
  split
  · rename_i small
    exact (List.take_of_length_le (Nat.le_refl _)).trans (List.take_of_length_le (Nat.le_of_lt small)).symm
  · rfl

def rebootEffects (board : Board) : List Effect :=
  if board.rebootCallback then [.rebootCallback] else openplcSetEthFlagAndReset board

/-- What a datagram does, by the command that its first pbuf passes for. -/
inductive Answer (board : Board) (p : Pbuf) : List Effect → Prop where
  | reply (command msg : List UInt8) (member : command ∈ discovers) (passes : Passes p.bytes command)
      (fits : msg.length < replyMsgSize) : Answer board p (if board.allocates then [.sendto msg] else [])
  | reboot (passes : Passes p.bytes serverReboot) : Answer board p (rebootEffects board)
  | none (silent : ∀ command ∈ serverReboot :: discovers, ¬ Passes p.bytes command) : Answer board p []

theorem udpServerRecv_answer (board : Board) (p : Pbuf) :
    ∃ answer, udpServerRecv board p = some (.pbufFree :: answer) ∧ Answer board p answer := by
  rw [udpServerRecv]
  by_cases empty : p.payload = none ∨ p.len = 0
  · have nothing : p.bytes = [] := by
      obtain null | zero := empty
      · rw [Pbuf.bytes,null,Option.getD_none]
      · exact List.length_eq_zero_iff.mp zero
    rw [if_pos empty]
    refine ⟨[],rfl,.none fun command member passes => ?_⟩
    rw [nothing] at passes
    exact (commands_short command member).1 (List.prefix_nil.mp passes.starts)
  · obtain ⟨recvBuf,copied,holds⟩ := recvBuf_holds p.bytes
    rw [if_neg empty]
    simp only [take_min,copied,Option.bind_eq_bind,Option.bind_some]
    by_cases asked : discovers.any (equals recvBuf) = true
    · obtain ⟨command,member,same⟩ := List.any_eq_true.mp asked
      have passes := (equals_iff holds (List.mem_cons_of_mem _ member)).mp same
      obtain ⟨msg,fits,replied⟩ := discoverReply_eq board
      rw [if_pos asked,replied]
      exact ⟨_,rfl,.reply command msg member passes fits⟩
    · rw [if_neg asked]
      by_cases rebooted : equals recvBuf serverReboot = true
      · rw [if_pos rebooted]
        exact ⟨_,rfl,.reboot ((equals_iff holds List.mem_cons_self).mp rebooted)⟩
      · rw [if_neg rebooted]
        refine ⟨[],rfl,.none fun command member passes => ?_⟩
        have same := (equals_iff holds member).mpr passes
        obtain rfl | among := List.mem_cons.mp member
        · exact rebooted same
        · exact asked (List.any_eq_true.mpr ⟨command,among,same⟩)

end Receive

section Recognition
variable {board : Board} {p : Pbuf} {rest : List Pbuf} {command : List UInt8}

theorem first_starts (p : Pbuf) (rest : List Pbuf) : p.bytes <+: datagram p rest := List.prefix_append p.bytes _

/-- A datagram that is a command begins with no other command. -/
theorem Passes.whole (passes : Passes p.bytes command) (member : command ∈ serverReboot :: discovers)
    (whole : datagram p rest ∈ serverReboot :: discovers) : datagram p rest = command ∧ p.bytes = command := by
  have starts := passes.starts.trans (first_starts p rest)
  have same := commands_apart command member _ whole (List.isPrefixOf_iff_prefix.mpr starts)
  refine ⟨same.symm,passes.resolve_right fun more => ?_⟩
  have long := (more.trans (first_starts p rest)).length_le
  rw [← same,List.length_append] at long
  exact absurd long (Nat.not_succ_le_self _)

theorem reply_iff (msg : List UInt8) (member : command ∈ discovers) (passes : Passes p.bytes command)
    (fits : msg.length < replyMsgSize) :
    Recognises (datagram p rest) (.pbufFree :: if board.allocates then [.sendto msg] else []) ↔ Plain board p rest := by
  have among := List.mem_cons_of_mem serverReboot member
  have unbooted : ¬ Passes p.bytes serverReboot := fun too =>
    reboot_apart (passes.unique too among List.mem_cons_self ▸ member)
  have whole (asks : datagram p rest ∈ serverReboot :: discovers) := passes.whole among asks
  have other : datagram p rest ≠ serverReboot := by
    intro same
    exact reboot_apart (same ▸ (whole (same ▸ List.mem_cons_self)).1 ▸ member)
  have first (asks : datagram p rest ∈ serverReboot :: discovers) : p.bytes = datagram p rest :=
    (whole asks).2.trans (whole asks).1.symm
  cases allocates : board.allocates with
  | false =>
    constructor
    · intro recognises
      have unasked : datagram p rest ∉ discovers := fun asks => by simpa using recognises.replies.mpr asks
      exact ⟨first,fun asks => absurd asks unasked,fun _ _ alloc => by simp [allocates] at alloc,fun too => absurd too unbooted⟩
    · intro plain
      have unasked : datagram p rest ∉ discovers := fun asks => by simpa [allocates] using plain.allocates asks
      exact ⟨by simp [unasked],by simp [Effect.reboots,other],fun _ _ => rfl,by simp,by simp⟩
  | true =>
    constructor
    · intro recognises
      have asks : datagram p rest ∈ discovers := recognises.replies.mp ⟨msg,by simp⟩
      refine ⟨first,fun _ => allocates,?_,fun too => absurd too unbooted⟩
      intro command_ member_ _ passes_
      exact (passes_.whole (List.mem_cons_of_mem _ member_) (List.mem_cons_of_mem _ asks)).1
    · intro plain
      have asks : datagram p rest ∈ discovers := plain.discover command member allocates passes ▸ member
      refine ⟨by simp [asks],by simp [Effect.reboots,other],fun unasked => absurd asks unasked,by simp,?_⟩
      intro sent among_
      simp only [reduceIte,List.mem_cons,reduceCtorEq,Effect.sendto.injEq,List.not_mem_nil,or_false,false_or] at among_
      exact among_ ▸ fits

theorem rebootEffects_cases (board : Board) : rebootEffects board = [.rebootCallback] ∨
    rebootEffects board = [.bkupWrite magicEthFlag,.systemReset] ∨ rebootEffects board = [.systemReset] := by
  rw [rebootEffects,openplcSetEthFlagAndReset]
  split_ifs
  · exact Or.inl rfl
  · exact Or.inr (Or.inl rfl)
  · exact Or.inr (Or.inr rfl)

theorem rebootEffects_spec (board : Board) : (rebootEffects board).any Effect.reboots = true ∧
    (∀ msg, .sendto msg ∉ Effect.pbufFree :: rebootEffects board) ∧ (Effect.pbufFree :: rebootEffects board).count .pbufFree = 1 := by
  obtain same | same | same := rebootEffects_cases board <;>
    · rw [same]
      exact ⟨rfl,by simp,by simp⟩

theorem reboot_iff (passes : Passes p.bytes serverReboot) :
    Recognises (datagram p rest) (.pbufFree :: rebootEffects board) ↔ Plain board p rest := by
  have unasked : datagram p rest ∉ discovers := fun asks =>
    reboot_apart ((passes.whole List.mem_cons_self (List.mem_cons_of_mem _ asks)).1 ▸ asks)
  obtain ⟨reboots,unanswered,freed⟩ := rebootEffects_spec board
  constructor
  · intro recognises
    have same := recognises.reboots.mp reboots
    refine ⟨fun asks => ?_,fun asks => absurd asks unasked,fun command member _ too => ?_,fun _ => same⟩
    · exact (passes.whole List.mem_cons_self asks).2.trans same.symm
    · exact absurd (passes.unique too List.mem_cons_self (List.mem_cons_of_mem _ member) ▸ member) reboot_apart
  · intro plain
    have same := plain.reboot passes
    exact ⟨iff_of_false (fun ⟨msg,sent⟩ => unanswered msg sent) unasked,iff_of_true reboots same,fun _ other => absurd same other,
      freed,fun msg sent => absurd sent (unanswered msg)⟩

theorem none_iff (silent : ∀ command ∈ serverReboot :: discovers, ¬ Passes p.bytes command) :
    Recognises (datagram p rest) [.pbufFree] ↔ Plain board p rest := by
  constructor
  · intro recognises
    have unasked : datagram p rest ∉ discovers := fun asks => by simpa using recognises.replies.mpr asks
    have other : datagram p rest ≠ serverReboot := fun same => by simpa [Effect.reboots] using recognises.reboots.mpr same
    refine ⟨fun asks => ?_,fun asks => absurd asks unasked,fun command member _ too => ?_,fun too => ?_⟩
    · exact ((List.mem_cons.mp asks).elim other unasked).elim
    · exact absurd too (silent command (List.mem_cons_of_mem _ member))
    · exact absurd too (silent serverReboot List.mem_cons_self)
  · intro plain
    have neither : datagram p rest ∉ serverReboot :: discovers := fun asks => silent _ asks (Or.inl (plain.first asks))
    obtain ⟨other,unasked⟩ := not_or.mp (mt List.mem_cons.mpr neither)
    exact ⟨by simp [unasked],by simp [Effect.reboots,other],fun _ _ => rfl,by simp,by simp⟩

/-- The commands are recognised exactly if each is in the first pbuf and nothing follows it there. -/
theorem recognises_iff (board : Board) (p : Pbuf) (rest : List Pbuf) :
    ∃ effects, udpServerRecv board p = some effects ∧ (Recognises (datagram p rest) effects ↔ Plain board p rest) := by
  obtain ⟨answer,received,kind⟩ := udpServerRecv_answer board p
  refine ⟨_,received,?_⟩
  cases kind with
  | reply command msg member passes fits => exact reply_iff msg member passes fits
  | reboot passes => exact reboot_iff passes
  | none silent => exact none_iff silent

/-- The reboot command with a zero and a letter behind it reboots. -/
theorem reboot_behind : ∃ effects, udpServerRecv ⟨0,0,0,true,true,0⟩ ⟨some (serverReboot ++ [0,120])⟩ = some effects ∧
    ¬ Recognises (datagram ⟨some (serverReboot ++ [0,120])⟩ []) effects := by
  refine ⟨[.pbufFree,.rebootCallback],by decide,fun recognises => ?_⟩
  exact absurd (recognises.reboots.mp rfl) (by decide)

end Recognition

end OpenPlc.Net.Udp
