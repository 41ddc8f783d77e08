import OpenPlc.Lib.Run
import OpenPlc.Net.Dhcp

/-! When the DHCP client has an address (`dhcp_supplied_address`), however the timers, the packets and the link interleave. -/
namespace OpenPlc.Net.Dhcp

structure Offer where
  xid : Nat
  addr : Nat
  server : Nat

structure Lease where
  addr : Nat
  mask : Nat
  gw : Nat
  period : Option Nat
deriving DecidableEq

/-- What has happened: the offers taken, the last acknowledgement taken, how many ARP queries for its address were sent
before it and whether the address was answered for while it was checked. The lease that the netif was bound to last, whether a
server has refused it since, how often the coarse timer ran since, and whether its address had been checked, which on Ethernet it
has to be. -/
structure History where
  offers : List Offer
  acked : Lease
  queriesBefore : Nat
  objected : Bool
  lease : Lease
  refused : Bool
  ticks : Nat
  probed : Bool

structure State where
  client : Client
  history : History

inductive Event where
  | start (env : Env)
  | fine (env : Env)
  | coarse (env : Env)
  | receive (env : Env) (p : List Pbuf)
  | arpReply (env : Env) (addr : Nat)
  | up
  | down
  | linkUp (env : Env)
  | linkDown
  | stop (env : Env)

def act (c : Client) : Event → Client
  | .start env => dhcpStart env c
  | .fine env => dhcpFineTmr env c
  | .coarse env => dhcpCoarseTmr env c
  | .receive env p => dhcpRecv env c p
  | .arpReply env addr => dhcpArpReply env c addr
  | .up => setUp c
  | .down => setDown c
  | .linkUp env => setLinkUp env c
  | .linkDown => setLinkDown c
  | .stop env => dhcpReleaseAndStop env c

def Sent.isQuery (addr : Nat) : Sent → Bool
  | .query asked => asked = addr
  | _ => false

def queries (addr : Nat) (c : Client) : Nat := c.sent.countP (Sent.isQuery addr)

def leaseOf (options : Options) (yiaddr : Nat) : Lease :=
  ⟨yiaddr,(options .subnetMask).getD (safeMask yiaddr),(options .router).getD 0,options .leaseTime⟩

def History.receive (h : History) (c : Client) (p : List Pbuf) : History :=
  match answer c p with
  | none => h
  | some (msgType,options,yiaddr) =>
    if msgType = typeAck then
      if c.awaits then {h with acked := leaseOf options yiaddr, queriesBefore := queries yiaddr c, objected := false} else h
    else if msgType = typeNak then (if c.awaits then {h with refused := true} else h)
    else if msgType = typeOffer ∧ c.state = .selecting then
      match options .serverId with
      | none => h
      | some server => {h with offers := h.offers ++ [⟨c.dhcp.xid,yiaddr,server⟩]}
    else h

def History.observe (h : History) (c : Client) : Event → History
  | .receive _ p => h.receive c p
  | .arpReply _ addr => if c.state = .checking ∧ addr = h.acked.addr then {h with objected := true} else h
  | .coarse _ => {h with ticks := h.ticks + 1}
  | _ => h

/-- The states in which the client has its address from before. -/
def ClientState.renews : ClientState → Bool
  | .rebooting | .renewing | .rebinding => true
  | _ => false

/-- Two ARP queries that nobody answers check an address that is new. One that is renewed was checked if it is the address that the
netif has had. -/
def History.checks (h : History) (before after : Client) : Bool :=
  if before.state.renews then h.probed && h.acked.addr = h.lease.addr
  else queries h.acked.addr after = h.queriesBefore + 2 && !h.objected

/-- Once the netif is bound -/
def History.bind (h : History) (before after : Client) : History :=
  if before.state ≠ .bound ∧ after.state = .bound then
    {h with lease := h.acked, refused := false, ticks := 0, probed := !before.netif.etharp || h.checks before after}
  else h

def step (s : State) (event : Event) : Option State :=
  let after := act s.client event
  some ⟨after,(s.history.observe s.client event).bind s.client after⟩

def start (netif : Netif) (xid : Nat) (dnsServers : Nat → Nat) : State :=
  ⟨⟨netif,false,Control.zero,0,xid,dnsServers,[]⟩,⟨[],⟨0,0,0,none⟩,0,false,⟨0,0,0,none⟩,false,0,true⟩⟩

/-- With the next tick -/
def Control.expires (d : Control) : Prop := d.t0Timeout ≠ 0 ∧ (d.leaseUsed + 1) % 65536 = d.t0Timeout

instance (d : Control) : Decidable d.expires := inferInstanceAs (Decidable (_ ∧ _))

/-- No timer of a lease that was refused runs out while another one is requested, unless the old lease does. On Ethernet, no server
that is asked for the address of the lease acknowledges another one. -/
def Allowed (s : State) : Event → Prop
  | .coarse _ =>
    s.client.state = .requesting → s.history.refused = true → ¬ s.client.dhcp.expires →
      s.client.dhcp.t1RenewTime ≠ 1 ∧ s.client.dhcp.t2RebindTime ≠ 1
  | .receive _ p =>
    s.client.netif.etharp = true → s.client.state.renews = true →
      ∀ msg ∈ answer s.client p, msg.1 = typeAck → msg.2.2 = s.history.lease.addr
  | _ => True

instance (s : State) (event : Event) : Decidable (Allowed s event) := by
  cases event <;> unfold Allowed <;> infer_instance

/-- The states that `dhcp_timeout` acts on. -/
def ClientState.waits : ClientState → Bool
  | .selecting | .requesting | .checking | .rebooting | .backingOff => true
  | _ => false

def asks (offers : List Offer) : Sent → Prop
  | .msg .request xid _ _ requestedIp (some server) _ =>
    ∃ offer ∈ offers, offer.xid = xid ∧ requestedIp = some offer.addr ∧ offer.server = server
  | _ => True

/-- The time of the lease -/
def Control.time (d : Control) : Nat × Nat := (d.t0Timeout,d.leaseUsed)

/-- A timer is to renew or rebind the lease. -/
def Control.timed (d : Control) : Prop := d.t1RenewTime ≠ 0 ∨ d.t2RebindTime ≠ 0

theorem not_timed {d : Control} (t1 : d.t1RenewTime = 0) (t2 : d.t2RebindTime = 0) : ¬ d.timed :=
  fun timed => timed.elim (absurd t1) (absurd t2)

section Attempts
variable {env : Env} {c : Client} {state : ClientState} {type : MsgType} {maxMsgSize requestedIp serverId : Option Nat}
variable {dest : Nat} {msecs : Nat → Nat}

@[simp] theorem Control.setState_state (d : Control) (s : ClientState) : (d.setState s).state = s := by
  unfold Control.setState
  split_ifs with other
  · rfl
  · exact (not_not.mp other).symm

@[simp] theorem setState_offeredIpAddr (c : Client) (s : ClientState) :
    (c.setState s).dhcp.offeredIpAddr = c.dhcp.offeredIpAddr := by
  unfold Client.setState Control.setState
  split_ifs <;> rfl

@[simp] theorem setState_serverIpAddr (c : Client) (s : ClientState) :
    (c.setState s).dhcp.serverIpAddr = c.dhcp.serverIpAddr := by
  unfold Client.setState Control.setState
  split_ifs <;> rfl

theorem setState_eq (c : Client) (state : ClientState) :
    ∃ tries timeout, c.setState state = {c with dhcp := {c.dhcp with state := state, tries := tries, requestTimeout := timeout}} := by
  by_cases other : state ≠ c.dhcp.state
  · exact ⟨0,0,by simp [Client.setState,Control.setState,other]⟩
  · have same : state = c.dhcp.state := not_not.mp other
    exact ⟨c.dhcp.tries,c.dhcp.requestTimeout,by simp [Client.setState,Control.setState,same]⟩

theorem sendMsg_eq (env : Env) (c : Client) (type : MsgType) (maxMsgSize requestedIp serverId : Option Nat) (dest : Nat) :
    ∃ last xid more, sendMsg env type maxMsgSize requestedIp serverId dest c =
      {c with xid := last, dhcp := {c.dhcp with xid := xid}, sent := c.sent ++ more} ∧
    (∀ m ∈ more, ∃ ciaddr, m = .msg type xid ciaddr maxMsgSize requestedIp serverId dest) ∧
    (type = .request → c.state ≠ .rebooting → xid = c.dhcp.xid) := by
  unfold sendMsg
  split_ifs with allocated fresh again
  · exact ⟨_,_,_,rfl,by simp,fun isRequest other => absurd fresh (by simp [isRequest,other])⟩
  · exact ⟨_,_,_,rfl,by simp,fun isRequest other => absurd fresh (by simp [isRequest,other])⟩
  · exact ⟨_,_,_,rfl,by simp,fun _ _ => rfl⟩
  · exact ⟨c.xid,c.dhcp.xid,[],by simp,by simp,fun _ _ => rfl⟩

theorem retryAfter_eq (msecs : Nat → Nat) (c : Client) : ∃ tries, 0 < tries ∧
    retryAfter msecs c = {c with dhcp := {c.dhcp with tries := tries, requestTimeout := fineTicks (msecs tries)}} := by
  refine ⟨if c.dhcp.tries < 255 then c.dhcp.tries + 1 else c.dhcp.tries,?_,rfl⟩
  split_ifs <;> omega

/-- What the calls have in common that send a message and wait. -/
structure Attempt (entered : ClientState) (type : MsgType) (requestedIp serverId : Option Nat) (c c' : Client) : Prop where
  netif : c'.netif = c.netif
  attached : c'.attached = c.attached
  time : c'.dhcp.time = c.dhcp.time
  timed : c'.dhcp.timed → c.dhcp.timed
  offered : c'.dhcp.offeredIpAddr = c.dhcp.offeredIpAddr ∧ c'.dhcp.serverIpAddr = c.dhcp.serverIpAddr
  state : c'.state = entered
  timeout : 0 < c'.dhcp.requestTimeout ∧ c'.dhcp.requestTimeout ≤ 120
  xid : type = .request → entered ≠ .rebooting → c'.dhcp.xid = c.dhcp.xid
  sent : ∃ more, c'.sent = c.sent ++ more ∧
    ∀ m ∈ more, ∃ ciaddr maxMsgSize dest, m = .msg type c'.dhcp.xid ciaddr maxMsgSize requestedIp serverId dest

theorem attempt (bounds : ∀ tries, 0 < tries → 0 < fineTicks (msecs tries) ∧ fineTicks (msecs tries) ≤ 120) :
    Attempt state type requestedIp serverId c
      (retryAfter msecs (sendMsg env type maxMsgSize requestedIp serverId dest (c.setState state))) := by
  obtain ⟨_,_,changed⟩ := setState_eq c state
  obtain ⟨last,xid,more,made,messages,same⟩ :=
    sendMsg_eq env (c.setState state) type maxMsgSize requestedIp serverId dest
  obtain ⟨tries,positive,counted⟩ :=
    retryAfter_eq msecs (sendMsg env type maxMsgSize requestedIp serverId dest (c.setState state))
  rw [counted,made]
  rw [changed] at same ⊢
  refine ⟨rfl,rfl,rfl,id,⟨rfl,rfl⟩,rfl,bounds tries positive,same,more,rfl,?_⟩
  intro m new
  obtain ⟨ciaddr,message⟩ := messages m new
  exact ⟨ciaddr,maxMsgSize,dest,message⟩

theorem fineTicks_bounds {n : Nat} (positive : 0 < n) (bound : n ≤ 60000) : 0 < fineTicks n ∧ fineTicks n ≤ 120 := by
  unfold fineTicks
  omega

theorem backoff_bounds (tries : Nat) : 0 < fineTicks (backoff tries) ∧ fineTicks (backoff tries) ≤ 120 := by
  apply fineTicks_bounds
  · unfold backoff
    split_ifs
    · exact Nat.mul_pos (Nat.two_pow_pos tries) (by omega)
    · omega
  · unfold backoff
    split_ifs with few
    · have power : 2 ^ tries ≤ 2 ^ 5 := Nat.pow_le_pow_right (by omega) (by omega)
      omega
    · omega

section Calls
variable (env c)

theorem dhcpDiscover_attempt :
    Attempt .selecting .discover none none {c with dhcp := {c.dhcp with offeredIpAddr := 0}} (dhcpDiscover env c) := by
  unfold dhcpDiscover
  exact attempt fun tries _ => backoff_bounds tries

theorem dhcpSelect_attempt :
    Attempt .requesting .request (some c.dhcp.offeredIpAddr) (some c.dhcp.serverIpAddr) c (dhcpSelect env c) := by
  simp only [dhcpSelect,setState_offeredIpAddr,setState_serverIpAddr]
  exact attempt fun tries _ => backoff_bounds tries

theorem dhcpDecline_attempt : Attempt .backingOff .decline (some c.dhcp.offeredIpAddr) none c (dhcpDecline env c) := by
  simp only [dhcpDecline,setState_offeredIpAddr]
  exact attempt fun _ _ => fineTicks_bounds (by omega) (by omega)

theorem dhcpRenew_attempt : Attempt .renewing .request none none c (dhcpRenew env c) := by
  unfold dhcpRenew
  apply attempt
  intro tries positive
  split_ifs <;> exact fineTicks_bounds (by omega) (by omega)

theorem dhcpRebind_attempt : Attempt .rebinding .request none none c (dhcpRebind env c) := by
  unfold dhcpRebind
  apply attempt
  intro tries positive
  split_ifs <;> exact fineTicks_bounds (by omega) (by omega)

theorem dhcpReboot_attempt : Attempt .rebooting .request (some c.dhcp.offeredIpAddr) none c (dhcpReboot env c) := by
  simp only [dhcpReboot,setState_offeredIpAddr]
  apply attempt
  intro tries positive
  split_ifs <;> exact fineTicks_bounds (by omega) (by omega)

end Calls

end Attempts

/-- The netif has the lease, and the client counts its time. -/
structure Leased (c : Client) (h : History) : Prop where
  addr : c.netif.ipAddr = h.lease.addr
  mask : c.netif.netmask = h.lease.mask
  gw : c.netif.gw = h.lease.gw
  time : ∀ period, h.lease.period = some period → period ≠ infinite →
    c.dhcp.t0Timeout = coarseTicks period ∧ c.dhcp.leaseUsed = h.ticks

/-- What the last acknowledgement gives is what the client is about to take. -/
structure Acked (c : Client) (h : History) : Prop where
  addr : c.dhcp.offeredIpAddr = h.acked.addr
  mask : (if c.dhcp.subnetMaskGiven then c.dhcp.offeredSnMask else safeMask c.dhcp.offeredIpAddr) = h.acked.mask
  gw : c.dhcp.offeredGwAddr = h.acked.gw
  period : ∀ period, h.acked.period = some period → c.dhcp.offeredT0Lease = period

structure Checked (c : Client) (h : History) : Prop where
  acked : Acked c h
  etharp : c.netif.etharp = true
  queries : queries h.acked.addr c = h.queriesBefore + c.dhcp.tries
  objected : h.objected = false

def Requested (d : Control) (offers : List Offer) : Prop :=
  ∃ offer ∈ offers, offer.xid = d.xid ∧ offer.addr = d.offeredIpAddr ∧ offer.server = d.serverIpAddr

/-- What holds in every state. -/
structure Base (c : Client) (h : History) : Prop where
  attached : c.state ≠ .off → c.attached = true
  counted : c.dhcp.t0Timeout ≠ 0 → c.dhcp.leaseUsed < c.dhcp.t0Timeout ∧ c.dhcp.t0Timeout ≤ 65535
  leased : h.refused = false → c.dhcp.timed → Leased c h
  off : c.state = .off → ¬ c.dhcp.timed
  probed : h.probed = true
  asked : ∀ m ∈ c.sent, asks h.offers m

structure Inv (c : Client) (h : History) : Prop extends Base c h where
  supplied : dhcpSuppliedAddress c = true → h.refused = false ∧ Leased c h
  waiting : c.state.waits = true → 0 < c.dhcp.requestTimeout ∧ c.dhcp.requestTimeout ≤ 120
  checking : c.state = .checking → Checked c h ∧ (c.dhcp.tries = 1 ∨ c.dhcp.tries = 2)
  requesting : c.state = .requesting → Requested c.dhcp h.offers

section Operations
variable {env : Env} {c c' before : Client} {h : History} {entered : ClientState} {type : MsgType}
variable {requestedIp serverId : Option Nat}

theorem Leased.of_same (leased : Leased c h) (netif : c'.netif = c.netif) (time : c'.dhcp.time = c.dhcp.time) : Leased c' h := by
  obtain ⟨t0,used⟩ := Prod.mk.inj time
  refine ⟨netif ▸ leased.addr,netif ▸ leased.mask,netif ▸ leased.gw,?_⟩
  intro period given finite
  rw [t0,used]
  exact leased.time period given finite

theorem Base.of_same (base : Base c h) (attached : c'.attached = true) (netif : c'.netif = c.netif)
    (time : c'.dhcp.time = c.dhcp.time) (timed : c'.dhcp.timed → c.dhcp.timed) (off : c'.state = .off → c.state = .off)
    (asked : ∀ m ∈ c'.sent, asks h.offers m) : Base c' h := by
  obtain ⟨t0,used⟩ := Prod.mk.inj time
  refine ⟨fun _ => attached,?_,?_,fun state => mt timed (base.off (off state)),base.probed,asked⟩
  · rw [t0,used]
    exact base.counted
  · exact fun accepted still => (base.leased accepted (timed still)).of_same netif time

/-- Without timers, the netif may have any address. -/
theorem base_of_stopped (attached : c'.state ≠ .off → c'.attached = true) (time : c'.dhcp.time = (0,0)) (timed : ¬ c'.dhcp.timed)
    (probed : h.probed = true) (asked : ∀ m ∈ c'.sent, asks h.offers m) : Base c' h :=
  ⟨attached,fun counted => absurd (Prod.mk.inj time).1 counted,fun _ still => absurd still timed,fun _ => timed,probed,asked⟩

theorem Base.idle (base : Base c h) (state : c.state = .off ∨ c.state = .init) : Inv c h := by
  refine ⟨base,?_,?_,?_,?_⟩ <;> rcases state with state | state <;> simp [dhcpSuppliedAddress,ClientState.waits,state]

theorem Base.attempt (base : Base c h) (attached : c.attached = true) (made : Attempt entered type requestedIp serverId c c')
    (runs : entered ≠ .off)
    (asked : ∀ ciaddr maxMsgSize dest, asks h.offers (.msg type c'.dhcp.xid ciaddr maxMsgSize requestedIp serverId dest)) :
    Base c' h := by
  apply base.of_same (made.attached.trans attached) made.netif made.time made.timed fun off => absurd (made.state.symm.trans off) runs
  obtain ⟨more,sent,messages⟩ := made.sent
  intro m member
  rw [sent,List.mem_append] at member
  rcases member with old | new
  · exact base.asked m old
  · obtain ⟨ciaddr,maxMsgSize,dest,rfl⟩ := messages m new
    exact asked ciaddr maxMsgSize dest

theorem bind_of_same (same : c'.state = .bound → c.state = .bound) : h.bind c c' = h := by
  unfold History.bind
  split_ifs with bound
  · exact absurd (same bound.2) bound.1
  · rfl

theorem Base.discover (base : Base c h) (attached : c.attached = true) : Inv (dhcpDiscover env c) h := by
  have made := dhcpDiscover_attempt env c
  have zeroed : Base {c with dhcp := {c.dhcp with offeredIpAddr := 0}} h := base.of_same attached rfl rfl id id base.asked
  refine ⟨zeroed.attempt attached made nofun fun _ _ _ => trivial,?_,fun _ => made.timeout,?_,?_⟩ <;>
    simp [dhcpSuppliedAddress,made.state]

theorem Base.select (base : Base c h) (attached : c.attached = true) (requested : Requested c.dhcp h.offers) :
    Inv (dhcpSelect env c) h := by
  have made := dhcpSelect_attempt env c
  have xid : (dhcpSelect env c).dhcp.xid = c.dhcp.xid := made.xid rfl (by decide)
  obtain ⟨offer,taken,sameXid,sameAddr,sameServer⟩ := requested
  refine ⟨base.attempt attached made nofun ?_,?_,fun _ => made.timeout,?_,?_⟩
  · intro _ _ _
    exact ⟨offer,taken,sameXid.trans xid.symm,congrArg some sameAddr.symm,sameServer⟩
  · simp [dhcpSuppliedAddress,made.state]
  · simp [made.state]
  · intro _
    exact ⟨offer,taken,sameXid.trans xid.symm,sameAddr.trans made.offered.1.symm,sameServer.trans made.offered.2.symm⟩

theorem Base.decline (base : Base c h) (attached : c.attached = true) : Inv (dhcpDecline env c) h := by
  have made := dhcpDecline_attempt env c
  refine ⟨base.attempt attached made nofun fun _ _ _ => trivial,?_,fun _ => made.timeout,?_,?_⟩ <;>
    simp [dhcpSuppliedAddress,made.state]

theorem Base.reboot (base : Base c h) (attached : c.attached = true) : Inv (dhcpReboot env c) h := by
  have made := dhcpReboot_attempt env c
  refine ⟨base.attempt attached made nofun fun _ _ _ => trivial,?_,fun _ => made.timeout,?_,?_⟩ <;>
    simp [dhcpSuppliedAddress,made.state]

/-- Renewing and rebinding go on with the lease. -/
theorem Base.extend (base : Base c h) (attached : c.attached = true) (accepted : h.refused = false) (leased : Leased c h)
    (made : Attempt entered .request none none c c') (renews : entered = .renewing ∨ entered = .rebinding) : Inv c' h := by
  have runs : entered ≠ .off := by rcases renews with rfl | rfl <;> decide
  refine ⟨base.attempt attached made runs fun _ _ _ => trivial,fun _ => ⟨accepted,leased.of_same made.netif made.time⟩,?_,?_,?_⟩
  all_goals rcases renews with rfl | rfl <;> simp [made.state,ClientState.waits]

theorem queries_append (addr : Nat) (c : Client) (m : Sent) :
    queries addr {c with sent := c.sent ++ [m]} = queries addr c + if Sent.isQuery addr m then 1 else 0 := by
  simp [queries,List.countP_append,List.countP_singleton]

theorem dhcpCheck_eq (c : Client) : ∃ tries, dhcpCheck c = {c with
      sent := c.sent ++ [.query c.dhcp.offeredIpAddr],
      dhcp := {c.dhcp with state := .checking, tries := tries, requestTimeout := 1}} ∧
    (c.state ≠ .checking → tries = 1) ∧ (c.state = .checking → c.dhcp.tries = 1 → tries = 2) := by
  unfold dhcpCheck Client.setState Control.setState
  by_cases other : c.state = .checking
  · have same : c.dhcp.state = .checking := other
    refine ⟨if c.dhcp.tries < 255 then c.dhcp.tries + 1 else c.dhcp.tries,?_,fun entered => absurd other entered,?_⟩
    · simp [retryAfter,same,fineTicks]
    · exact fun _ first => by simp [first]
  · have differs : ClientState.checking ≠ c.dhcp.state := fun same => other same.symm
    exact ⟨1,by simp [retryAfter,differs,fineTicks],fun _ => rfl,fun entered => absurd entered other⟩

theorem Base.check (base : Base c h) (attached : c.attached = true) (acked : Acked c h) (etharp : c.netif.etharp = true)
    (objected : h.objected = false)
    (counted : c.state ≠ .checking ∧ queries h.acked.addr c = h.queriesBefore ∨
      c.state = .checking ∧ c.dhcp.tries = 1 ∧ queries h.acked.addr c = h.queriesBefore + 1) :
    Inv (dhcpCheck c) h := by
  obtain ⟨tries,changed,first,second⟩ := dhcpCheck_eq c
  rw [changed]
  have asked : ∀ m ∈ c.sent ++ [Sent.query c.dhcp.offeredIpAddr], asks h.offers m := by
    intro m member
    rcases List.mem_append.mp member with old | new
    · exact base.asked m old
    · rw [List.mem_singleton.mp new]
      trivial
  refine ⟨base.of_same attached rfl rfl id nofun asked,?_,fun _ => ⟨Nat.zero_lt_one,show 1 ≤ 120 by omega⟩,?_,?_⟩
  · simp [dhcpSuppliedAddress,Client.state]
  · intro _
    have total : queries h.acked.addr {c with sent := c.sent ++ [.query c.dhcp.offeredIpAddr]} =
        queries h.acked.addr c + 1 := by
      rw [queries_append]
      simp [Sent.isQuery,acked.addr]
    rcases counted with ⟨other,none⟩ | ⟨same,once,one⟩
    · obtain rfl := first other
      exact ⟨⟨⟨acked.addr,acked.mask,acked.gw,acked.period⟩,etharp,total.trans (by rw [none]),objected⟩,.inl rfl⟩
    · obtain rfl := second same once
      exact ⟨⟨⟨acked.addr,acked.mask,acked.gw,acked.period⟩,etharp,total.trans (by rw [one,Nat.add_assoc]),objected⟩,.inr rfl⟩
  · intro requesting
    exact absurd requesting (by simp [Client.state])

theorem coarseTicks_bounds (period : Nat) : 0 < coarseTicks period ∧ coarseTicks period ≤ 65535 := by
  unfold coarseTicks
  dsimp only
  split_ifs <;> omega

theorem timers_leaseUsed (d : Control) : d.timers.leaseUsed = 0 := by
  unfold Control.timers
  dsimp only
  split_ifs <;> rfl

theorem timers_t0Timeout (d : Control) :
    d.timers.t0Timeout = if d.offeredT0Lease ≠ infinite then coarseTicks d.offeredT0Lease else d.t0Timeout := by
  unfold Control.timers
  dsimp only
  split_ifs <;> rfl

/-- The timers touch no offer. -/
theorem timers_offer (d : Control) :
    d.timers.offeredIpAddr = d.offeredIpAddr ∧ d.timers.subnetMaskGiven = d.subnetMaskGiven ∧
    d.timers.offeredSnMask = d.offeredSnMask ∧ d.timers.offeredGwAddr = d.offeredGwAddr := by
  unfold Control.timers
  dsimp only
  split_ifs <;> exact ⟨rfl,rfl,rfl,rfl⟩

theorem dhcpBind_eq (c : Client) : ∃ tries timeout, dhcpBind c = {c with
    netif := {c.netif with
      ipAddr := c.dhcp.offeredIpAddr, gw := c.dhcp.offeredGwAddr,
      netmask := if c.dhcp.subnetMaskGiven then c.dhcp.offeredSnMask else safeMask c.dhcp.offeredIpAddr},
    dhcp := {c.dhcp.timers with state := .bound, tries := tries, requestTimeout := timeout}} := by
  obtain ⟨addr,given,mask,gw⟩ := timers_offer c.dhcp
  obtain ⟨tries,timeout,changed⟩ := setState_eq {c with dhcp := c.dhcp.timers} .bound
  refine ⟨tries,timeout,?_⟩
  unfold dhcpBind
  dsimp only
  rw [changed]
  simp only [Client.setAddr,addr,given,mask,gw]

theorem dhcpBind_state (c : Client) : (dhcpBind c).state = .bound ∧ (dhcpBind c).attached = c.attached := by
  obtain ⟨tries,timeout,changed⟩ := dhcpBind_eq c
  rw [changed]
  exact ⟨rfl,rfl⟩

theorem Base.bind (base : Base c h) (attached : c.attached = true) (acked : Acked c h) (unbound : before.state ≠ .bound)
    (probed : (!before.netif.etharp || h.checks before c) = true) : Inv (dhcpBind c) (h.bind before (dhcpBind c)) := by
  obtain ⟨tries,timeout,changed⟩ := dhcpBind_eq c
  have checks : h.checks before (dhcpBind c) = h.checks before c := by rw [changed]; rfl
  unfold History.bind
  rw [if_pos ⟨unbound,(dhcpBind_state c).1⟩,checks,probed,changed]
  have leased : Leased {c with
      netif := {c.netif with
        ipAddr := c.dhcp.offeredIpAddr, gw := c.dhcp.offeredGwAddr,
        netmask := if c.dhcp.subnetMaskGiven then c.dhcp.offeredSnMask else safeMask c.dhcp.offeredIpAddr},
      dhcp := {c.dhcp.timers with state := .bound, tries := tries, requestTimeout := timeout}}
      {h with lease := h.acked, refused := false, ticks := 0, probed := true} := by
    refine ⟨acked.addr,acked.mask,acked.gw,?_⟩
    intro period given finite
    have offered : c.dhcp.offeredT0Lease = period := acked.period period given
    refine ⟨?_,timers_leaseUsed c.dhcp⟩
    change c.dhcp.timers.t0Timeout = _
    rw [timers_t0Timeout,offered,if_pos finite]
  refine ⟨⟨fun _ => attached,?_,fun _ _ => leased,nofun,rfl,base.asked⟩,fun _ => ⟨rfl,leased⟩,?_,?_,?_⟩
  · intro counted
    change c.dhcp.timers.t0Timeout ≠ 0 at counted
    change c.dhcp.timers.leaseUsed < c.dhcp.timers.t0Timeout ∧ c.dhcp.timers.t0Timeout ≤ 65535
    rw [timers_leaseUsed]
    refine ⟨Nat.pos_of_ne_zero counted,?_⟩
    rw [timers_t0Timeout] at counted ⊢
    split_ifs with finite
    · exact (coarseTicks_bounds _).2
    · rw [if_neg finite] at counted
      exact (base.counted counted).2
  all_goals simp [Client.state,ClientState.waits]

/-- Stopped, with no lease left to count -/
structure Stopped (c c' : Client) (h : History) : Prop where
  state : c'.state = .off
  attached : c'.attached = c.attached
  time : c'.dhcp.time = (0,0)
  timed : ¬ c'.dhcp.timed
  asked : ∀ m ∈ c'.sent, asks h.offers m

theorem dhcpReleaseAndStop_stopped (asked : ∀ m ∈ c.sent, asks h.offers m) (attached : c.attached = true) (runs : c.state ≠ .off) :
    Stopped c (dhcpReleaseAndStop env c) h := by
  obtain ⟨tries,timeout,off⟩ := setState_eq {c with dhcp := c.dhcp.clean} .off
  obtain ⟨last,xid,more,released,messages,-⟩ :=
    sendMsg_eq env ({c with dhcp := c.dhcp.clean}.setState .off) .release none none (some c.dhcp.serverIpAddr) c.dhcp.serverIpAddr
  have asked' : ∀ m ∈ c.sent ++ more, asks h.offers m := by
    intro m member
    rcases List.mem_append.mp member with old | new
    · exact asked m old
    · obtain ⟨_,rfl⟩ := messages m new
      trivial
  unfold dhcpReleaseAndStop
  rw [if_neg (by simp [attached,runs])]
  dsimp only
  rw [released,off]
  split_ifs <;> first | exact ⟨rfl,rfl,rfl,not_timed rfl rfl,asked'⟩ | exact ⟨rfl,rfl,rfl,not_timed rfl rfl,asked⟩

theorem Base.stop (env : Env) (base : Base c h) :
    Base (dhcpReleaseAndStop env c) h ∧ (dhcpReleaseAndStop env c).state = .off := by
  by_cases off : c.state = .off
  · have same : dhcpReleaseAndStop env c = c := if_pos (.inr off)
    rw [same]
    exact ⟨base,off⟩
  · have attached := base.attached off
    have stopped : Stopped c (dhcpReleaseAndStop env c) h := dhcpReleaseAndStop_stopped base.asked attached off
    exact ⟨base_of_stopped (fun _ => stopped.attached.trans attached) stopped.time stopped.timed base.probed stopped.asked,
      stopped.state⟩

/-- The client waits for the link. -/
theorem Base.wait (base : Base c h) (attached : c.attached = true) : Inv (c.setState .init) h := by
  obtain ⟨tries,timeout,init⟩ := setState_eq c .init
  rw [init]
  exact Base.idle (base.of_same attached rfl rfl id nofun base.asked) (.inr rfl)

theorem Inv.start (env : Env) (inv : Inv c h) : Inv (dhcpStart env c) h ∧ ((dhcpStart env c).state = .bound → c.state = .bound) := by
  unfold dhcpStart
  dsimp only
  generalize (if (c.attached && c.dhcp.pcbAllocated) = true then c.pcbRefcount - 1 else c.pcbRefcount) = refcount
  have zeroed (pcb : Bool) (refcount : Nat) :
      Base {c with attached := true, dhcp := {Control.zero with pcbAllocated := pcb}, pcbRefcount := refcount} h :=
    base_of_stopped (fun _ => rfl) rfl (not_timed rfl rfl) inv.probed inv.asked
  split_ifs
  · exact ⟨inv,id⟩
  · exact ⟨inv,id⟩
  · exact ⟨inv,id⟩
  · exact ⟨(zeroed false refcount).idle (.inl rfl),nofun⟩
  · refine ⟨(zeroed true (refcount + 1)).discover rfl,?_⟩
    intro bound
    exact absurd ((dhcpDiscover_attempt _ _).state.symm.trans bound) nofun
  · refine ⟨(zeroed true (refcount + 1)).wait rfl,?_⟩
    intro bound
    exact absurd ((Control.setState_state _ .init).symm.trans bound) nofun

/-- Neither the netif's being up, nor its link, nor a timer is part of the check. -/
theorem Checked.retime (checked : Checked c h) (up linkUp : Bool) (timeout leaseUsed t1 t2 ticks : Nat) :
    Checked {c with
      netif := {c.netif with up := up, linkUp := linkUp},
      dhcp := {c.dhcp with requestTimeout := timeout, leaseUsed := leaseUsed, t1RenewTime := t1, t2RebindTime := t2}}
      {h with ticks := ticks} :=
  ⟨⟨checked.acked.addr,checked.acked.mask,checked.acked.gw,checked.acked.period⟩,checked.etharp,checked.queries,checked.objected⟩

theorem Inv.of_flags (inv : Inv c h) (up linkUp : Bool) : Inv {c with netif := {c.netif with up := up, linkUp := linkUp}} h := by
  have leased : Leased c h → Leased {c with netif := {c.netif with up := up, linkUp := linkUp}} h :=
    fun leased => ⟨leased.addr,leased.mask,leased.gw,leased.time⟩
  refine ⟨⟨inv.attached,inv.counted,fun accepted timed => leased (inv.leased accepted timed),inv.off,inv.probed,inv.asked⟩,
    fun supplied => (inv.supplied supplied).imp id leased,inv.waiting,?_,inv.requesting⟩
  exact fun state => (inv.checking state).imp (fun checked => checked.retime up linkUp _ _ _ _ _) id

theorem dhcpNetworkChanged_eq (env : Env) (c : Client) : dhcpNetworkChanged env c = c ∨
    c.attached = true ∧ (dhcpNetworkChanged env c = dhcpReboot env {c with dhcp := {c.dhcp with tries := 0}} ∨
      dhcpNetworkChanged env c = dhcpDiscover env {c with dhcp := {c.dhcp with tries := 0}}) := by
  unfold dhcpNetworkChanged
  split_ifs with detached
  · exact .inl rfl
  · have attached : c.attached = true := by simpa using detached
    split
    · exact .inr ⟨attached,.inl rfl⟩
    · exact .inr ⟨attached,.inl rfl⟩
    · exact .inr ⟨attached,.inl rfl⟩
    · exact .inr ⟨attached,.inl rfl⟩
    · exact .inl rfl
    · exact .inr ⟨attached,.inr rfl⟩

theorem Inv.changed (env : Env) (inv : Inv c h) :
    Inv (dhcpNetworkChanged env c) h ∧ ((dhcpNetworkChanged env c).state = .bound → c.state = .bound) := by
  rcases dhcpNetworkChanged_eq env c with same | ⟨attached,reboots | discovers⟩
  · rw [same]
    exact ⟨inv,id⟩
  · have base : Base {c with dhcp := {c.dhcp with tries := 0}} h := inv.toBase.of_same attached rfl rfl id id inv.asked
    rw [reboots]
    exact ⟨base.reboot attached,fun bound => absurd ((dhcpReboot_attempt _ _).state.symm.trans bound) nofun⟩
  · have base : Base {c with dhcp := {c.dhcp with tries := 0}} h := inv.toBase.of_same attached rfl rfl id id inv.asked
    rw [discovers]
    exact ⟨base.discover attached,fun bound => absurd ((dhcpDiscover_attempt _ _).state.symm.trans bound) nofun⟩

theorem Inv.restart (env : Env) (attached : c.attached = true) (runs : c.state ≠ .off) (probed : h.probed = true)
    (asked : ∀ m ∈ c.sent, asks h.offers m) :
    Inv (dhcpStart env (dhcpReleaseAndStop env c)) h ∧ (dhcpStart env (dhcpReleaseAndStop env c)).state ≠ .bound := by
  have stopped : Stopped c (dhcpReleaseAndStop env c) h := dhcpReleaseAndStop_stopped asked attached runs
  have base : Base (dhcpReleaseAndStop env c) h :=
    base_of_stopped (fun _ => stopped.attached.trans attached) stopped.time stopped.timed probed stopped.asked
  obtain ⟨inv,same⟩ := (base.idle (.inl stopped.state)).start env
  exact ⟨inv,fun bound => absurd (stopped.state.symm.trans (same bound)) nofun⟩

/-- What a call leaves, with what has then happened. -/
def Next (c : Client) (h : History) (c' : Client) : Prop := Inv c' (h.bind c c')

theorem Inv.next (inv : Inv c' h) (same : c'.state = .bound → c.state = .bound) : Next c h c' := by
  unfold Next
  rw [bind_of_same same]
  exact inv

theorem Next.of_same (next : Next c h c') (state : before.state = c.state) (netif : before.netif = c.netif) : Next before h c' := by
  unfold Next History.bind History.checks at next ⊢
  rw [state,netif]
  exact next

theorem Base.expire (base : Base c h) (attached : c.attached = true) (idle : c.state.waits = false → Inv c h)
    (checking : c.state = .checking → Checked c h ∧ (c.dhcp.tries = 1 ∨ c.dhcp.tries = 2))
    (requesting : c.state = .requesting → Requested c.dhcp h.offers) : Next c h (dhcpTimeout env c) := by
  have discovered : Next c h (dhcpDiscover env c) :=
    (base.discover attached).next fun bound => absurd ((dhcpDiscover_attempt _ _).state.symm.trans bound) nofun
  unfold dhcpTimeout
  split
  case h_1 => exact discovered
  case h_2 => exact discovered
  case h_3 state =>
    split_ifs
    · exact (base.select attached (requesting state)).next fun bound => absurd ((dhcpSelect_attempt _ _).state.symm.trans bound) nofun
    · have runs : c.state ≠ .off := fun off => absurd (state.symm.trans off) nofun
      obtain ⟨inv,unbound⟩ := Inv.restart env attached runs base.probed base.asked
      exact inv.next fun bound => absurd bound unbound
  case h_4 state =>
    obtain ⟨checked,tries⟩ := checking state
    split_ifs with first
    · have once : c.dhcp.tries = 1 := by omega
      have sent : queries h.acked.addr c = h.queriesBefore + 1 := checked.queries.trans (by rw [once])
      have inv := base.check attached checked.acked checked.etharp checked.objected (.inr ⟨state,once,sent⟩)
      obtain ⟨_,changed,-,-⟩ := dhcpCheck_eq c
      exact inv.next fun bound => by rw [changed] at bound; exact nomatch bound
    · have twice : c.dhcp.tries = 2 := by omega
      have sent : queries h.acked.addr c = h.queriesBefore + 2 := checked.queries.trans (by rw [twice])
      exact base.bind attached checked.acked (by rw [state]; decide)
        (by simp [History.checks,state,ClientState.renews,sent,checked.objected])
  case h_5 =>
    split_ifs
    · exact (base.reboot attached).next fun bound => absurd ((dhcpReboot_attempt _ _).state.symm.trans bound) nofun
    · exact discovered
  case h_6 _ _ _ _ _ =>
    have rests : c.state.waits = false := by
      cases state : c.state <;> simp_all [ClientState.waits]
    exact (idle rests).next id

theorem Inv.fine (inv : Inv c h) : Next c h (dhcpFineTmr env c) := by
  unfold dhcpFineTmr
  split_ifs with detached runs expires
  · exact inv.next id
  · have attached : c.attached = true := by simpa using detached
    have base : Base {c with dhcp := {c.dhcp with requestTimeout := c.dhcp.requestTimeout - 1}} h :=
      inv.toBase.of_same attached rfl rfl id id inv.asked
    refine Inv.next ⟨base,fun supplied => ?_,fun waits => ?_,fun state => ?_,inv.requesting⟩ id
    · exact (inv.supplied supplied).imp id fun leased => leased.of_same rfl rfl
    · obtain ⟨-,bound⟩ := inv.waiting waits
      exact ⟨Nat.sub_pos_of_lt runs,(Nat.sub_le _ _).trans bound⟩
    · exact (inv.checking state).imp (fun checked => checked.retime _ _ _ _ _ _ _) id
  · have attached : c.attached = true := by simpa using detached
    have base : Base {c with dhcp := {c.dhcp with requestTimeout := 0}} h :=
      inv.toBase.of_same attached rfl rfl id id inv.asked
    have checking : c.state = .checking → Checked {c with dhcp := {c.dhcp with requestTimeout := 0}} h ∧
        (c.dhcp.tries = 1 ∨ c.dhcp.tries = 2) :=
      fun state => (inv.checking state).imp (fun checked => checked.retime _ _ 0 _ _ _ _) id
    refine base.expire attached (fun rests => ⟨base,fun supplied => ?_,fun waits => ?_,checking,inv.requesting⟩) checking
      inv.requesting
    · exact (inv.supplied supplied).imp id fun leased => leased.of_same rfl rfl
    · exact absurd (rests.symm.trans waits) nofun
  · exact inv.next id

theorem Inv.retime (inv : Inv c h) (t1 t2 : Nat) (leased : h.refused = false → (t1 ≠ 0 ∨ t2 ≠ 0) → Leased c h)
    (off : c.state = .off → t1 = 0 ∧ t2 = 0) :
    Inv {c with dhcp := {c.dhcp with t1RenewTime := t1, t2RebindTime := t2}} h := by
  refine ⟨⟨inv.attached,inv.counted,?_,?_,inv.probed,inv.asked⟩,?_,inv.waiting,?_,inv.requesting⟩
  · exact fun accepted timed => (leased accepted timed).of_same rfl rfl
  · exact fun state => not_timed (off state).1 (off state).2
  · exact fun supplied => (inv.supplied supplied).imp id fun leased => leased.of_same rfl rfl
  · exact fun state => (inv.checking state).imp (fun checked => checked.retime _ _ _ _ t1 t2 _) id

/-- The lease goes on if a client may count on it. -/
def Extends (c : Client) (h : History) : Prop :=
  c.state = .requesting ∨ c.state = .bound ∨ c.state = .renewing ∨ c.state = .rebinding → h.refused = false ∧ Leased c h

theorem Inv.extended (inv : Inv c h) (timed : c.dhcp.timed) (allowed : c.state = .requesting → h.refused = false) : Extends c h := by
  intro state
  have runs : c.state ≠ .off := by
    intro off
    simp [off] at state
  have attached := inv.attached runs
  rcases state with requesting | bound | renewing | rebinding
  · exact ⟨allowed requesting,inv.leased (allowed requesting) timed⟩
  · exact inv.supplied (by simp [dhcpSuppliedAddress,attached,bound])
  · exact inv.supplied (by simp [dhcpSuppliedAddress,attached,renewing])
  · exact inv.supplied (by simp [dhcpSuppliedAddress,attached,rebinding])

theorem Inv.rebind (env : Env) (inv : Inv c h) (goesOn : Extends c h) (runs : c.state ≠ .off) : Next c h (dhcpT2Timeout env c) := by
  unfold dhcpT2Timeout
  split_ifs with counts
  · obtain ⟨accepted,leased⟩ := goesOn counts
    have made := dhcpRebind_attempt env c
    have rebinding := inv.toBase.extend (inv.attached runs) accepted leased made (.inr rfl)
    have unbound : (dhcpRebind env c).state ≠ .bound := fun bound => absurd (made.state.symm.trans bound) nofun
    dsimp only
    split_ifs
    · refine Inv.next (rebinding.retime _ _ ?_ ?_) fun bound => absurd bound unbound
      · exact fun _ _ => leased.of_same made.netif made.time
      · exact fun off => absurd (made.state.symm.trans off) nofun
    · exact rebinding.next fun bound => absurd bound unbound
  · exact inv.next id

theorem Inv.renew (env : Env) (inv : Inv c h) (goesOn : Extends c h) (runs : c.state ≠ .off) : Next c h (dhcpT1Timeout env c) := by
  unfold dhcpT1Timeout
  split_ifs with counts
  · obtain ⟨accepted,leased⟩ := goesOn (counts.imp id fun counts => counts.imp id .inl)
    have made := dhcpRenew_attempt env c
    have renewing := inv.toBase.extend (inv.attached runs) accepted leased made (.inl rfl)
    have unbound : (dhcpRenew env c).state ≠ .bound := fun bound => absurd (made.state.symm.trans bound) nofun
    dsimp only
    split_ifs
    · refine Inv.next (renewing.retime _ _ ?_ ?_) fun bound => absurd bound unbound
      · exact fun _ _ => leased.of_same made.netif made.time
      · exact fun off => absurd (made.state.symm.trans off) nofun
    · exact renewing.next fun bound => absurd bound unbound
  · exact inv.next id

def Client.tick (c : Client) : Client :=
  {c with dhcp := {c.dhcp with leaseUsed := if c.dhcp.t0Timeout ≠ 0 then (c.dhcp.leaseUsed + 1) % 65536 else c.dhcp.leaseUsed}}

def Client.countdown (c : Client) (t1 t2 : Nat) : Client :=
  {c with dhcp := {c.dhcp with t1RenewTime := t1, t2RebindTime := t2}}

theorem dhcpCoarseTmr_eq (attached : c.attached = true) (runs : c.state ≠ .off) :
    dhcpCoarseTmr env c =
      if c.dhcp.expires then dhcpStart env (dhcpReleaseAndStop env c.tick)
      else if c.dhcp.t2RebindTime = 1 then dhcpT2Timeout env (c.tick.countdown c.dhcp.t1RenewTime 0)
      else if c.dhcp.t1RenewTime = 1 then dhcpT1Timeout env (c.tick.countdown 0 (c.dhcp.t2RebindTime - 1))
      else c.tick.countdown (c.dhcp.t1RenewTime - 1) (c.dhcp.t2RebindTime - 1) := by
  have expires : (c.dhcp.t0Timeout ≠ 0 ∧ c.tick.dhcp.leaseUsed = c.dhcp.t0Timeout) ↔ c.dhcp.expires := by
    unfold Client.tick Control.expires
    exact and_congr_right fun counted => by rw [if_pos counted]
  unfold dhcpCoarseTmr
  rw [if_neg (by simp [attached,runs])]
  change (if c.dhcp.t0Timeout ≠ 0 ∧ c.tick.dhcp.leaseUsed = c.dhcp.t0Timeout then dhcpStart env (dhcpReleaseAndStop env c.tick)
    else if c.dhcp.t2RebindTime = 1 then dhcpT2Timeout env (c.tick.countdown c.dhcp.t1RenewTime (c.dhcp.t2RebindTime - 1))
    else if c.dhcp.t1RenewTime = 1 then
      dhcpT1Timeout env (c.tick.countdown (c.dhcp.t1RenewTime - 1) (c.dhcp.t2RebindTime - 1))
    else c.tick.countdown (c.dhcp.t1RenewTime - 1) (c.dhcp.t2RebindTime - 1)) = _
  simp only [expires]
  split_ifs with ended second first
  · rfl
  · rw [second]
  · rw [first]
  · rfl

theorem Leased.tick (leased : Leased c h) (base : Base c h) :
    Leased c.tick {h with ticks := h.ticks + 1} := by
  refine ⟨leased.addr,leased.mask,leased.gw,?_⟩
  intro period given finite
  obtain ⟨t0,used⟩ := leased.time period given finite
  have counted : c.dhcp.t0Timeout ≠ 0 := by
    have bounds := coarseTicks_bounds period
    omega
  have bound := base.counted counted
  refine ⟨t0,?_⟩
  change (if c.dhcp.t0Timeout ≠ 0 then _ else _) = h.ticks + 1
  rw [if_pos counted,Nat.mod_eq_of_lt (by omega),used]

theorem Inv.tick (inv : Inv c h) (live : ¬ c.dhcp.expires) : Inv c.tick {h with ticks := h.ticks + 1} := by
  have leased : Leased c h → Leased c.tick {h with ticks := h.ticks + 1} := fun leased => leased.tick inv.toBase
  refine ⟨⟨inv.attached,?_,fun accepted timed => leased (inv.leased accepted timed),inv.off,inv.probed,inv.asked⟩,
    fun supplied => (inv.supplied supplied).imp id leased,inv.waiting,?_,inv.requesting⟩
  · intro (counted : c.dhcp.t0Timeout ≠ 0)
    have bound := inv.counted counted
    have other : (c.dhcp.leaseUsed + 1) % 65536 ≠ c.dhcp.t0Timeout := fun same => live ⟨counted,same⟩
    rw [Nat.mod_eq_of_lt (by omega)] at other
    refine ⟨?_,bound.2⟩
    change (if c.dhcp.t0Timeout ≠ 0 then _ else _) < c.dhcp.t0Timeout
    rw [if_pos counted,Nat.mod_eq_of_lt (by omega)]
    omega
  · exact fun state => (inv.checking state).imp (fun checked => checked.retime _ _ _ _ _ _ _) id

theorem Inv.countdown (inv : Inv c h) (runs : c.state ≠ .off) {t1 t2 : Nat} (less1 : t1 ≤ c.dhcp.t1RenewTime)
    (less2 : t2 ≤ c.dhcp.t2RebindTime) : Inv (c.countdown t1 t2) h := by
  refine inv.retime t1 t2 (fun accepted timed => inv.leased accepted ?_) fun off => absurd off runs
  exact timed.imp (fun left => by omega) fun left => by omega

theorem Inv.due (inv : Inv c h) (t1 t2 : Nat) (due : c.dhcp.t1RenewTime = 1 ∨ c.dhcp.t2RebindTime = 1)
    (allowed : c.state = .requesting → h.refused = false) : Extends (c.countdown t1 t2) h := by
  have timed : c.dhcp.timed := due.imp (fun first => by omega) fun second => by omega
  exact fun state => (inv.extended timed allowed state).imp id fun leased => leased.of_same rfl rfl

theorem Inv.coarse (inv : Inv c h)
    (allowed : c.state = .requesting → h.refused = true → ¬ c.dhcp.expires →
      c.dhcp.t1RenewTime ≠ 1 ∧ c.dhcp.t2RebindTime ≠ 1) :
    Next c {h with ticks := h.ticks + 1} (dhcpCoarseTmr env c) := by
  by_cases off : c.state = .off
  · have same : dhcpCoarseTmr env c = c := if_pos (.inr off)
    have base : Base c {h with ticks := h.ticks + 1} :=
      ⟨inv.attached,inv.counted,fun _ timed => absurd timed (inv.off off),inv.off,inv.probed,inv.asked⟩
    rw [same]
    exact (base.idle (.inl off)).next id
  · have attached := inv.attached off
    rw [dhcpCoarseTmr_eq attached off]
    by_cases ended : c.dhcp.expires
    · rw [if_pos ended]
      have stillAttached : c.tick.attached = true := attached
      have asked : ∀ m ∈ c.tick.sent, asks h.offers m := inv.asked
      obtain ⟨restarted,unbound⟩ : Inv (dhcpStart env (dhcpReleaseAndStop env c.tick)) {h with ticks := h.ticks + 1} ∧
          (dhcpStart env (dhcpReleaseAndStop env c.tick)).state ≠ .bound :=
        Inv.restart env stillAttached off inv.probed asked
      exact restarted.next fun bound => absurd bound unbound
    · have ticked := inv.tick ended
      have accepted (due : c.dhcp.t1RenewTime = 1 ∨ c.dhcp.t2RebindTime = 1) (requesting : c.state = .requesting) :
          h.refused = false := by
        by_contra refused
        have notDue := allowed requesting (by simpa using refused) ended
        omega
      rw [if_neg ended]
      split_ifs with second first
      · have rebound := Inv.rebind env (ticked.countdown off (Nat.le_refl c.dhcp.t1RenewTime) (Nat.zero_le _))
          (ticked.due _ 0 (.inr second) (accepted (.inr second))) off
        exact rebound.of_same rfl rfl
      · have renewed := Inv.renew env (ticked.countdown off (Nat.zero_le _) (Nat.sub_le c.dhcp.t2RebindTime 1))
          (ticked.due 0 _ (.inl first) (accepted (.inl first))) off
        exact renewed.of_same rfl rfl
      · exact (ticked.countdown off (Nat.sub_le _ _) (Nat.sub_le _ _)).next id

theorem Client.awaits.runs (awaits : c.awaits) : c.state ≠ .off := by
  intro off
  rcases awaits with state | state | state | state <;> exact absurd (off.symm.trans state) nofun

theorem acked_of_ack (options : Options) (yiaddr : Nat) :
    Acked (dhcpHandleAck options yiaddr c)
      {h with acked := leaseOf options yiaddr, queriesBefore := queries yiaddr c, objected := false} := by
  refine ⟨rfl,?_,rfl,?_⟩
  · change (if (options .subnetMask).isSome = true then (options .subnetMask).getD 0 else safeMask yiaddr) =
      (options .subnetMask).getD (safeMask yiaddr)
    cases options .subnetMask <;> rfl
  · intro period given
    change (options .leaseTime).getD c.dhcp.offeredT0Lease = period
    change options .leaseTime = some period at given
    rw [given]
    rfl

theorem Inv.acknowledge (inv : Inv c h) (awaits : c.awaits) (options : Options) (yiaddr : Nat)
    (same : c.netif.etharp = true → c.state.renews = true → yiaddr = h.lease.addr) :
    Next c {h with acked := leaseOf options yiaddr, queriesBefore := queries yiaddr c, objected := false}
      (if c.state = .requesting ∧ c.netif.etharp = true then dhcpCheck (dhcpHandleAck options yiaddr c)
        else dhcpBind (dhcpHandleAck options yiaddr c)) := by
  have attached := inv.attached awaits.runs
  have leased : Leased c h → Leased (dhcpHandleAck options yiaddr c)
      {h with acked := leaseOf options yiaddr, queriesBefore := queries yiaddr c, objected := false} :=
    fun leased => ⟨leased.addr,leased.mask,leased.gw,leased.time⟩
  have base : Base (dhcpHandleAck options yiaddr c)
      {h with acked := leaseOf options yiaddr, queriesBefore := queries yiaddr c, objected := false} :=
    ⟨inv.attached,inv.counted,fun accepted timed => leased (inv.leased accepted timed),inv.off,inv.probed,inv.asked⟩
  split_ifs with new
  · have other : (dhcpHandleAck options yiaddr c).state ≠ .checking := fun checking => absurd (new.1.symm.trans checking) nofun
    obtain ⟨_,changed,-,-⟩ := dhcpCheck_eq (dhcpHandleAck options yiaddr c)
    refine (base.check attached (acked_of_ack options yiaddr) new.2 rfl (.inl ⟨other,rfl⟩)).next fun bound => ?_
    rw [changed] at bound
    exact nomatch bound
  · apply base.bind attached (acked_of_ack options yiaddr)
    · intro bound
      rcases awaits with state | state | state | state <;> exact absurd (bound.symm.trans state) nofun
    · by_cases etharp : c.netif.etharp = true
      · have renews : c.state.renews = true := by
          rcases awaits with state | state | state | state
          · exact absurd ⟨state,etharp⟩ new
          all_goals rw [state]; rfl
        simp [History.checks,renews,inv.probed,leaseOf,same etharp renews]
      · simp [etharp]

theorem Inv.refuse (inv : Inv c h) (awaits : c.awaits) : Next c {h with refused := true} (dhcpHandleNak env c) := by
  have attached := inv.attached awaits.runs
  obtain ⟨_,_,changed⟩ := setState_eq c .backingOff
  have base : Base ((c.setState .backingOff).setAddr 0 0 0) {h with refused := true} := by
    rw [changed]
    exact ⟨fun _ => attached,inv.counted,nofun,nofun,inv.probed,inv.asked⟩
  have backingOff : ((c.setState .backingOff).setAddr 0 0 0).attached = true := by
    rw [changed]
    exact attached
  exact (base.discover backingOff).next fun bound => absurd ((dhcpDiscover_attempt _ _).state.symm.trans bound) nofun

theorem Inv.take (inv : Inv c h) (selecting : c.state = .selecting) (yiaddr server : Nat) :
    Next c {h with offers := h.offers ++ [⟨c.dhcp.xid,yiaddr,server⟩]}
      (dhcpSelect env {c with dhcp := {c.dhcp with requestTimeout := 0, serverIpAddr := server, offeredIpAddr := yiaddr}}) := by
  have attached := inv.attached (by rw [selecting]; decide)
  have asked : ∀ m ∈ c.sent, asks (h.offers ++ [⟨c.dhcp.xid,yiaddr,server⟩]) m := by
    intro m member
    have before := inv.asked m member
    unfold asks at before ⊢
    split
    · obtain ⟨offer,taken,same⟩ := before
      exact ⟨offer,List.mem_append_left _ taken,same⟩
    · trivial
  have leased : Leased c h → Leased
      {c with dhcp := {c.dhcp with requestTimeout := 0, serverIpAddr := server, offeredIpAddr := yiaddr}}
      {h with offers := h.offers ++ [⟨c.dhcp.xid,yiaddr,server⟩]} :=
    fun leased => ⟨leased.addr,leased.mask,leased.gw,leased.time⟩
  have base : Base {c with dhcp := {c.dhcp with requestTimeout := 0, serverIpAddr := server, offeredIpAddr := yiaddr}}
      {h with offers := h.offers ++ [⟨c.dhcp.xid,yiaddr,server⟩]} :=
    ⟨inv.attached,inv.counted,fun accepted timed => leased (inv.leased accepted timed),inv.off,inv.probed,asked⟩
  have requested : Requested {c.dhcp with requestTimeout := 0, serverIpAddr := server, offeredIpAddr := yiaddr}
      (h.offers ++ [⟨c.dhcp.xid,yiaddr,server⟩]) :=
    ⟨⟨c.dhcp.xid,yiaddr,server⟩,List.mem_append_right _ (List.mem_singleton.mpr rfl),rfl,rfl,rfl⟩
  exact (base.select attached requested).next fun bound => absurd ((dhcpSelect_attempt _ _).state.symm.trans bound) nofun

theorem Inv.receive (inv : Inv c h) (p : List Pbuf)
    (allowed : c.netif.etharp = true → c.state.renews = true → ∀ msg ∈ answer c p, msg.1 = typeAck → msg.2.2 = h.lease.addr) :
    Next c (h.receive c p) (dhcpRecv env c p) := by
  unfold History.receive dhcpRecv
  rcases taken : answer c p with _ | ⟨msgType,options,yiaddr⟩
  · exact inv.next id
  · dsimp only
    by_cases ack : msgType = typeAck
    · rw [if_pos ack,if_pos ack]
      by_cases awaits : c.awaits
      · rw [if_pos awaits,if_pos awaits]
        exact inv.acknowledge awaits options yiaddr fun etharp renews => allowed etharp renews _ taken ack
      · rw [if_neg awaits,if_neg awaits]
        exact inv.next id
    · rw [if_neg ack,if_neg ack]
      by_cases nak : msgType = typeNak
      · have noOffer : ¬ (msgType = typeOffer ∧ c.state = .selecting) := fun offer => absurd (nak.symm.trans offer.1) nofun
        by_cases awaits : c.awaits
        · rw [if_pos nak,if_pos awaits,if_pos ⟨nak,awaits⟩]
          exact inv.refuse awaits
        · rw [if_pos nak,if_neg awaits,if_neg fun both => awaits both.2,if_neg noOffer]
          exact inv.next id
      · have noNak : ¬ (msgType = typeNak ∧ c.awaits) := fun both => nak both.1
        rw [if_neg nak,if_neg noNak]
        by_cases offer : msgType = typeOffer ∧ c.state = .selecting
        · rw [if_pos offer,if_pos offer]
          unfold dhcpHandleOffer
          rcases options .serverId with _ | server
          · exact inv.next id
          · exact inv.take offer.2 yiaddr server
        · rw [if_neg offer,if_neg offer]
          exact inv.next id

theorem Inv.reply (inv : Inv c h) (addr : Nat) :
    Next c (if c.state = .checking ∧ addr = h.acked.addr then {h with objected := true} else h) (dhcpArpReply env c addr) := by
  unfold dhcpArpReply
  by_cases state : c.state = .checking
  · have attached := inv.attached (by rw [state]; decide)
    have offered : c.dhcp.offeredIpAddr = h.acked.addr := (inv.checking state).1.acked.addr
    by_cases answered : addr = h.acked.addr
    · have leased : Leased c h → Leased c {h with objected := true} :=
        fun leased => ⟨leased.addr,leased.mask,leased.gw,leased.time⟩
      have base : Base c {h with objected := true} :=
        ⟨inv.attached,inv.counted,fun accepted timed => leased (inv.leased accepted timed),inv.off,inv.probed,inv.asked⟩
      rw [if_pos ⟨state,answered⟩,if_pos ⟨attached,state,answered.trans offered.symm⟩]
      exact (base.decline attached).next fun bound => absurd ((dhcpDecline_attempt _ _).state.symm.trans bound) nofun
    · rw [if_neg fun both => answered both.2,if_neg fun all => answered (all.2.2.trans offered)]
      exact inv.next id
  · rw [if_neg fun both => state both.1,if_neg fun all => state all.2.1]
    exact inv.next id

end Operations

theorem step_inv {s next : State} (event : Event) (inv : Inv s.client s.history) (allowed : Allowed s event)
    (taken : step s event = some next) : Inv next.client next.history := by
  obtain ⟨c,h⟩ := s
  obtain rfl := Option.some.inj taken
  cases event with
  | start env =>
    obtain ⟨started,same⟩ := inv.start env
    exact started.next same
  | fine env => exact inv.fine
  | coarse env => exact inv.coarse allowed
  | receive env p => exact inv.receive p allowed
  | arpReply env addr => exact inv.reply addr
  | up => exact (inv.of_flags true c.netif.linkUp).next id
  | down => exact (inv.of_flags false c.netif.linkUp).next id
  | linkUp env =>
    change Next c h (setLinkUp env c)
    unfold setLinkUp
    split_ifs
    · exact inv.next id
    · obtain ⟨changed,same⟩ := (inv.of_flags c.netif.up true).changed env
      exact changed.next same
  | linkDown => exact (inv.of_flags c.netif.up false).next id
  | stop env =>
    obtain ⟨stopped,off⟩ := inv.toBase.stop env
    exact (stopped.idle (.inl off)).next fun bound => absurd (off.symm.trans bound) nofun

theorem start_inv (netif : Netif) (xid : Nat) (dnsServers : Nat → Nat) :
    Inv (start netif xid dnsServers).client (start netif xid dnsServers).history := by
  have base : Base (start netif xid dnsServers).client (start netif xid dnsServers).history :=
    base_of_stopped (absurd rfl) rfl (not_timed rfl rfl) rfl nofun
  exact base.idle (.inl rfl)

/-- The address that the client supplies is the last one it was bound to, which no server refused since and nobody else answered
for, and its lease still runs. -/
structure Supplied (c : Client) (h : History) : Prop where
  accepted : h.refused = false
  probed : h.probed = true
  addr : c.netif.ipAddr = h.lease.addr
  mask : c.netif.netmask = h.lease.mask
  gw : c.netif.gw = h.lease.gw
  time : ∀ period, h.lease.period = some period → period ≠ infinite → h.ticks = 0 ∨ (h.ticks + 1) * 60 ≤ period + 30

structure Kept (s : State) : Prop where
  supplied : dhcpSuppliedAddress s.client = true → Supplied s.client s.history
  waiting : s.client.state.waits = true → 0 < s.client.dhcp.requestTimeout ∧ s.client.dhcp.requestTimeout ≤ 120
  asked : ∀ m ∈ s.client.sent, asks s.history.offers m

theorem coarseTicks_time {period ticks : Nat} (left : ticks < coarseTicks period) : ticks = 0 ∨ (ticks + 1) * 60 ≤ period + 30 := by
  unfold coarseTicks at left
  dsimp only at left
  split_ifs at left <;> omega

theorem Inv.kept {s : State} (inv : Inv s.client s.history) : Kept s := by
  refine ⟨?_,inv.waiting,inv.asked⟩
  intro supplied
  obtain ⟨accepted,leased⟩ := inv.supplied supplied
  refine ⟨accepted,inv.probed,leased.addr,leased.mask,leased.gw,?_⟩
  intro period given finite
  obtain ⟨t0,used⟩ := leased.time period given finite
  have bounds := coarseTicks_bounds period
  have left := (inv.counted (by omega)).1
  rw [t0,used] at left
  exact coarseTicks_time left

/-- To the transaction 7 of the client 2:0:0:0:0:1 -/
def replyOf (msgType host : UInt8) (options : List UInt8) : List Pbuf :=
  [Pbuf.ofBytes ([2,1,6,0,0,0,0,7] ++ List.replicate 8 0 ++ [192,168,1,host] ++ List.replicate 8 0 ++ [2,0,0,0,0,1] ++
    List.replicate 202 0 ++ [99,130,83,99] ++ [53,1,msgType,54,4,192,168,1,9] ++ options ++ [255])]

/-- Bound for four minutes, renewing after two of them, refused, and about to request what is offered then. -/
def refusedRun : List Event :=
  let env : Env := ⟨fun _ => true,fun _ => 7,true,true⟩
  [.start env,.receive env (replyOf 2 77 []),.receive env (replyOf 5 77 [51,4,0,0,0,240,58,4,0,0,0,120,59,4,0,0,0,180]),.fine env,
    .fine env,.coarse env,.coarse env,.receive env (replyOf 6 77 []),.receive env (replyOf 2 77 [])]

/-- The next tick is not allowed: the client supplies an address, which is 0.0.0.0. Nor is a renewal with another address. -/
example :
    let env : Env := ⟨fun _ => true,fun _ => 7,true,true⟩
    let seen := fun events : List Event => (Run.after step (start ⟨0,0,0,[2,0,0,0,0,1],1500,true,true,true⟩ 0 fun _ => 0) events).map
      fun s => (s.client.state,dhcpSuppliedAddress s.client,s.client.netif.ipAddr,s.history.probed)
    seen (refusedRun.take 5) = some (.bound,true,0xC0A8014D,true) ∧ seen refusedRun = some (.requesting,false,0,true) ∧
      seen (refusedRun ++ [.coarse env]) = some (.rebinding,true,0,true) ∧
      seen (refusedRun.take 7 ++ [.receive env (replyOf 5 88 [])]) = some (.bound,true,0xC0A80158,false) := by
  decide +kernel

end OpenPlc.Net.Dhcp
