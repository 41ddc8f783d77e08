import OpenPlc.Net.DhcpOptions

/-! The DHCP client of lwIP (`dhcp.c`), from which the board has its address. Addresses are numbers in the order of the
network. -/
namespace OpenPlc.Net.Dhcp

/-- `dhcp_state_enum_t`, as far as a client of a netif enters the states -/
inductive ClientState where
  | off
  | requesting
  | init
  | rebooting
  | rebinding
  | renewing
  | selecting
  | checking
  | bound
  | backingOff
deriving DecidableEq

inductive MsgType where
  | discover
  | request
  | decline
  | release
deriving DecidableEq

/-- What the client sends: a message with its options, or an ARP query. -/
inductive Sent where
  | msg (type : MsgType) (xid ciaddr : Nat) (maxMsgSize requestedIp serverId : Option Nat) (dest : Nat)
  | query (addr : Nat)

/-- `struct dhcp` -/
structure Control where
  xid : Nat
  pcbAllocated : Bool
  state : ClientState
  tries : Nat
  subnetMaskGiven : Bool
  requestTimeout : Nat
  t1Timeout : Nat
  t2Timeout : Nat
  t1RenewTime : Nat
  t2RebindTime : Nat
  leaseUsed : Nat
  t0Timeout : Nat
  serverIpAddr : Nat
  offeredIpAddr : Nat
  offeredSnMask : Nat
  offeredGwAddr : Nat
  offeredT0Lease : Nat
  offeredT1Renew : Nat
  offeredT2Rebind : Nat

/-- After `memset` -/
def Control.zero : Control := ⟨0,false,.off,0,false,0,0,0,0,0,0,0,0,0,0,0,0,0,0⟩

structure Netif where
  ipAddr : Nat
  netmask : Nat
  gw : Nat
  hwaddr : List UInt8
  mtu : Nat
  up : Bool
  linkUp : Bool
  etharp : Bool

/-- The netif with its client, once there is one, and with what is global: the number of users of the pcb, the last
transaction id and the DNS servers. -/
structure Client where
  netif : Netif
  attached : Bool
  dhcp : Control
  pcbRefcount : Nat
  xid : Nat
  dnsServers : Nat → Nat
  sent : List Sent

/-- Whether a call gets the memory it asks for, and the random numbers. No call creates two messages of one type. -/
structure Env where
  pbufAlloc : MsgType → Bool
  rand : MsgType → Nat
  udpNew : Bool
  memMalloc : Bool

def broadcast : Nat := 0xffffffff

def infinite : Nat := 0xffffffff

def Client.state (c : Client) : ClientState := c.dhcp.state

def dhcpSuppliedAddress (c : Client) : Bool :=
  c.attached && (c.state = .bound || c.state = .renewing || c.state = .rebinding)

def Control.setState (d : Control) (newState : ClientState) : Control :=
  if newState ≠ d.state then {d with state := newState, tries := 0, requestTimeout := 0} else d

def Client.setState (c : Client) (newState : ClientState) : Client := {c with dhcp := c.dhcp.setState newState}

/-- `netif_set_addr` -/
def Client.setAddr (c : Client) (ipAddr netmask gw : Nat) : Client :=
  {c with netif := {c.netif with ipAddr := ipAddr, netmask := netmask, gw := gw}}

variable (env : Env)

/-- `dhcp_create_msg` and what its callers do with the message. A request takes the transaction id of the offer. -/
def sendMsg (type : MsgType) (maxMsgSize requestedIp serverId : Option Nat) (dest : Nat) (c : Client) : Client :=
  if env.pbufAlloc type then
    let xid := if type ≠ .request ∨ c.state = .rebooting then (if c.dhcp.tries = 0 then env.rand type else c.xid) else c.dhcp.xid
    let c := if type ≠ .request ∨ c.state = .rebooting then {c with xid := xid, dhcp := {c.dhcp with xid := xid}} else c
    let ciaddr :=
      if type = .decline ∨ type = .release ∨ (type = .request ∧ (c.state = .renewing ∨ c.state = .rebinding)) then c.netif.ipAddr
      else 0
    {c with sent := c.sent ++ [.msg type xid ciaddr maxMsgSize requestedIp serverId dest]}
  else c

/-- `DHCP_FINE_TIMER_MSECS` is 500. -/
def fineTicks (msecs : Nat) : Nat := (msecs % 65536 + 499) / 500 % 65536

/-- Counts the try, and sets the timeout of the request. -/
def retryAfter (msecs : Nat → Nat) (c : Client) : Client :=
  let tries := if c.dhcp.tries < 255 then c.dhcp.tries + 1 else c.dhcp.tries
  {c with dhcp := {c.dhcp with tries := tries, requestTimeout := fineTicks (msecs tries)}}

def backoff (tries : Nat) : Nat := (if tries < 6 then 2 ^ tries else 60) * 1000

def dhcpDiscover (c : Client) : Client :=
  let c := {c with dhcp := {c.dhcp with offeredIpAddr := 0}}.setState .selecting
  retryAfter backoff (sendMsg env .discover (some c.netif.mtu) none none broadcast c)

def dhcpSelect (c : Client) : Client :=
  let c := c.setState .requesting
  retryAfter backoff
    (sendMsg env .request (some c.netif.mtu) (some c.dhcp.offeredIpAddr) (some c.dhcp.serverIpAddr) broadcast c)

def dhcpCheck (c : Client) : Client :=
  let c := c.setState .checking
  retryAfter (fun _ => 500) {c with sent := c.sent ++ [.query c.dhcp.offeredIpAddr]}

def dhcpDecline (c : Client) : Client :=
  let c := c.setState .backingOff
  retryAfter (fun _ => 10 * 1000) (sendMsg env .decline none (some c.dhcp.offeredIpAddr) none broadcast c)

def dhcpRenew (c : Client) : Client :=
  let c := c.setState .renewing
  retryAfter (fun tries => if tries < 10 then tries * 2000 else 20 * 1000)
    (sendMsg env .request (some c.netif.mtu) none none c.dhcp.serverIpAddr c)

def dhcpRebind (c : Client) : Client :=
  let c := c.setState .rebinding
  retryAfter (fun tries => if tries < 10 then tries * 1000 else 10 * 1000)
    (sendMsg env .request (some c.netif.mtu) none none broadcast c)

def dhcpReboot (c : Client) : Client :=
  let c := c.setState .rebooting
  retryAfter (fun tries => if tries < 10 then tries * 1000 else 10 * 1000)
    (sendMsg env .request (some 576) (some c.dhcp.offeredIpAddr) none broadcast c)

/-- A period in ticks of `DHCP_COARSE_TIMER_SECS`, which is 60, at least one. -/
def coarseTicks (period : Nat) : Nat :=
  let timeout := (period + 30) % 4294967296 / 60
  let timeout := if 65535 < timeout then 65535 else timeout
  if timeout = 0 then 1 else timeout

def Control.timers (d : Control) : Control :=
  let d := {d with leaseUsed := 0}
  let d := if d.offeredT0Lease ≠ infinite then {d with t0Timeout := coarseTicks d.offeredT0Lease} else d
  let d :=
    if d.offeredT1Renew ≠ infinite then
      {d with t1Timeout := coarseTicks d.offeredT1Renew, t1RenewTime := coarseTicks d.offeredT1Renew}
    else d
  let d :=
    if d.offeredT2Rebind ≠ infinite then
      {d with t2Timeout := coarseTicks d.offeredT2Rebind, t2RebindTime := coarseTicks d.offeredT2Rebind}
    else d
  if d.t2Timeout ≤ d.t1Timeout ∧ 0 < d.t2Timeout then {d with t1Timeout := 0} else d

/-- By the class of the network -/
def safeMask (addr : Nat) : Nat :=
  let firstOctet := addr / 16777216 % 256
  if firstOctet ≤ 127 then 0xff000000 else if 192 ≤ firstOctet then 0xffffff00 else 0xffff0000

def dhcpBind (c : Client) : Client :=
  let c := {c with dhcp := c.dhcp.timers}
  let snMask := if c.dhcp.subnetMaskGiven then c.dhcp.offeredSnMask else safeMask c.dhcp.offeredIpAddr
  (c.setState .bound).setAddr c.dhcp.offeredIpAddr snMask c.dhcp.offeredGwAddr

/-- Without the old offer and its timers -/
def Control.clean (d : Control) : Control :=
  {d with
    serverIpAddr := 0, offeredIpAddr := 0, offeredSnMask := 0, offeredGwAddr := 0, offeredT0Lease := 0, offeredT1Renew := 0,
    offeredT2Rebind := 0, t1RenewTime := 0, t2RebindTime := 0, leaseUsed := 0, t0Timeout := 0}

def dhcpReleaseAndStop (c : Client) : Client :=
  if c.attached = false ∨ c.state = .off then c
  else
    let server := c.dhcp.serverIpAddr
    let c := {c with dhcp := c.dhcp.clean}
    let c :=
      if dhcpSuppliedAddress c then (sendMsg env .release none none (some server) server (c.setState .off)).setAddr 0 0 0
      else c.setState .off
    if c.dhcp.pcbAllocated then {c with pcbRefcount := c.pcbRefcount - 1, dhcp := {c.dhcp with pcbAllocated := false}} else c

def dhcpStart (c : Client) : Client :=
  if c.netif.up = false then c
  else if c.netif.mtu < 576 then c
  else if c.attached = false ∧ env.memMalloc = false then c
  else
    let pcbRefcount := if c.attached && c.dhcp.pcbAllocated then c.pcbRefcount - 1 else c.pcbRefcount
    let c := {c with attached := true, dhcp := Control.zero, pcbRefcount := pcbRefcount}
    if pcbRefcount = 0 ∧ env.udpNew = false then c
    else
      let c := {c with pcbRefcount := pcbRefcount + 1, dhcp := {c.dhcp with pcbAllocated := true}}
      if c.netif.linkUp then dhcpDiscover env c else c.setState .init

def dhcpNetworkChanged (c : Client) : Client :=
  if c.attached = false then c
  else
    match c.state with
    | .rebinding | .renewing | .bound | .rebooting => dhcpReboot env {c with dhcp := {c.dhcp with tries := 0}}
    | .off => c
    | _ => dhcpDiscover env {c with dhcp := {c.dhcp with tries := 0}}

/-- `netif_set_up` -/
def setUp (c : Client) : Client := {c with netif := {c.netif with up := true}}

/-- `netif_set_down` -/
def setDown (c : Client) : Client := {c with netif := {c.netif with up := false}}

/-- `netif_set_link_up` -/
def setLinkUp (c : Client) : Client :=
  if c.netif.linkUp then c else dhcpNetworkChanged env {c with netif := {c.netif with linkUp := true}}

/-- `netif_set_link_down` -/
def setLinkDown (c : Client) : Client := {c with netif := {c.netif with linkUp := false}}

def dhcpArpReply (c : Client) (addr : Nat) : Client :=
  if c.attached = true ∧ c.state = .checking ∧ addr = c.dhcp.offeredIpAddr then dhcpDecline env c else c

/-- `REBOOT_TRIES` is 2. -/
def dhcpTimeout (c : Client) : Client :=
  match c.state with
  | .backingOff | .selecting => dhcpDiscover env c
  | .requesting => if c.dhcp.tries ≤ 5 then dhcpSelect env c else dhcpStart env (dhcpReleaseAndStop env c)
  | .checking => if c.dhcp.tries ≤ 1 then dhcpCheck c else dhcpBind c
  | .rebooting => if c.dhcp.tries < 2 then dhcpReboot env c else dhcpDiscover env c
  | _ => c

def dhcpFineTmr (c : Client) : Client :=
  if c.attached = false then c
  else if 1 < c.dhcp.requestTimeout then {c with dhcp := {c.dhcp with requestTimeout := c.dhcp.requestTimeout - 1}}
  else if c.dhcp.requestTimeout = 1 then dhcpTimeout env {c with dhcp := {c.dhcp with requestTimeout := 0}}
  else c

def dhcpT1Timeout (c : Client) : Client :=
  if c.state = .requesting ∨ c.state = .bound ∨ c.state = .renewing then
    let c := dhcpRenew env c
    let half := (c.dhcp.t2Timeout - c.dhcp.leaseUsed) / 2
    if 1 ≤ half then {c with dhcp := {c.dhcp with t1RenewTime := half}} else c
  else c

def dhcpT2Timeout (c : Client) : Client :=
  if c.state = .requesting ∨ c.state = .bound ∨ c.state = .renewing ∨ c.state = .rebinding then
    let c := dhcpRebind env c
    let half := (c.dhcp.t0Timeout - c.dhcp.leaseUsed) / 2
    if 1 ≤ half then {c with dhcp := {c.dhcp with t2RebindTime := half}} else c
  else c

/-- Each condition counts its timer when it is looked at. -/
def dhcpCoarseTmr (c : Client) : Client :=
  if c.attached = false ∨ c.state = .off then c
  else
    let leaseUsed := if c.dhcp.t0Timeout ≠ 0 then (c.dhcp.leaseUsed + 1) % 65536 else c.dhcp.leaseUsed
    let c := {c with dhcp := {c.dhcp with leaseUsed := leaseUsed}}
    if c.dhcp.t0Timeout ≠ 0 ∧ leaseUsed = c.dhcp.t0Timeout then dhcpStart env (dhcpReleaseAndStop env c)
    else
      let t2 := c.dhcp.t2RebindTime
      let c := {c with dhcp := {c.dhcp with t2RebindTime := t2 - 1}}
      if t2 = 1 then dhcpT2Timeout env c
      else
        let t1 := c.dhcp.t1RenewTime
        let c := {c with dhcp := {c.dhcp with t1RenewTime := t1 - 1}}
        if t1 = 1 then dhcpT1Timeout env c else c

/-- A field of the first pbuf -/
def field (first : Pbuf) (ofs len : Nat) : List UInt8 := (List.range len).map fun i => first.payload (ofs + i)

/-- The type, the options and `yiaddr` of a message that answers the open transaction. -/
def answer (c : Client) (p : List Pbuf) : Option (Nat × Options × Nat) :=
  match p with
  | [] => none
  | first :: _ =>
    if c.attached = false ∨ c.dhcp.pcbAllocated = false then none
    else if first.len < 44 then none
    else if field first 0 1 ≠ [2] then none
    else if field first 28 (min c.netif.hwaddr.length 6) ≠ c.netif.hwaddr.take 6 then none
    else if number (field first 4 4) ≠ c.dhcp.xid then none
    else
      (dhcpParseReply p).bind fun options =>
        (options .msgType).map fun msgType => (msgType % 256,options,number (field first 16 4))

/-- The configuration of an acknowledgement. What it does not name is calculated or cleared, but for the lease. -/
def Control.acknowledged (d : Control) (options : Options) (yiaddr : Nat) : Control :=
  let t0 := (options .leaseTime).getD d.offeredT0Lease
  {d with
    offeredT0Lease := t0, offeredT1Renew := (options .t1).getD (t0 / 2),
    offeredT2Rebind := (options .t2).getD (t0 * 7 % 4294967296 / 8), offeredIpAddr := yiaddr,
    offeredSnMask := (options .subnetMask).getD 0, subnetMaskGiven := (options .subnetMask).isSome,
    offeredGwAddr := (options .router).getD 0}

def dhcpHandleAck (options : Options) (yiaddr : Nat) (c : Client) : Client :=
  let dnsServers : Nat → Nat := fun n =>
    if n < dnsMaxServers ∧ ∀ k ≤ n, (options (.dnsServer k)).isSome then (options (.dnsServer n)).getD 0 else c.dnsServers n
  {c with dhcp := c.dhcp.acknowledged options yiaddr, dnsServers := dnsServers}

def dhcpHandleNak (c : Client) : Client := dhcpDiscover env ((c.setState .backingOff).setAddr 0 0 0)

def dhcpHandleOffer (options : Options) (yiaddr : Nat) (c : Client) : Client :=
  match options .serverId with
  | none => c
  | some server => dhcpSelect env {c with dhcp := {c.dhcp with requestTimeout := 0, serverIpAddr := server, offeredIpAddr := yiaddr}}

def typeOffer : Nat := 2
def typeAck : Nat := 5
def typeNak : Nat := 6

/-- The states in which an acknowledgement or a refusal is awaited. -/
def Client.awaits (c : Client) : Prop :=
  c.state = .requesting ∨ c.state = .rebooting ∨ c.state = .rebinding ∨ c.state = .renewing

instance (c : Client) : Decidable c.awaits := inferInstanceAs (Decidable (_ ∨ _))

def dhcpRecv (c : Client) (p : List Pbuf) : Client :=
  match answer c p with
  | none => c
  | some (msgType,options,yiaddr) =>
    if msgType = typeAck then
      if c.awaits then
        let requested := c.state = .requesting ∧ c.netif.etharp = true
        let c := dhcpHandleAck options yiaddr c
        if requested then dhcpCheck c else dhcpBind c
      else c
    else if msgType = typeNak ∧ c.awaits then dhcpHandleNak env c
    else if msgType = typeOffer ∧ c.state = .selecting then dhcpHandleOffer env options yiaddr c
    else c

end OpenPlc.Net.Dhcp
