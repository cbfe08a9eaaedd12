import McpeLauncher.Lib.LinkedList
import McpeLauncher.LibcShim.SocketAddress

/-!
# Lists of addresses

`from_host_alloc` copies a list of `addrinfo`, and `getifaddrs` one of `ifaddrs`. The first calls itself
for the rest of the list and catches what a conversion throws; the second keeps a pointer to the last
node that it has made. What `malloc` returns has any bytes before an address is stored.
-/

namespace McpeLauncher.Network
open ByteMemory LinkedList

/-! ## Entries of `addrinfo` -/

/-- `AI_PASSIVE`, `AI_CANONNAME` and `AI_NUMERICHOST` are the lowest bits on both sides. -/
def fromHostAiFlags (flags : BitVec 32) : BitVec 32 :=
  (if flags &&& 1 ≠ 0 then 1 else 0) ||| (if flags &&& 2 ≠ 0 then 2 else 0) |||
    (if flags &&& 4 ≠ 0 then 4 else 0)

inductive AfFamily
  | UNSPEC
  | UNIX
  | INET
  | INET6
  | NETLINK
  deriving DecidableEq

def fromHostAfFamily (family : Int) : AfFamily :=
  if family = 0 then .UNSPEC
  else if family = 1 then .UNIX
  else if family = 2 then .INET
  else if family = 10 then .INET6
  else if family = 16 then .NETLINK
  else .UNSPEC

inductive Socktype
  | STREAM
  | DGRAM
  | RAW
  deriving DecidableEq

def Socktype.code : Socktype → Int
  | .STREAM => 1
  | .DGRAM => 2
  | .RAW => 3

def fromHostSocktype (socktype : Int) : Except String Socktype :=
  if socktype = 1 then .ok .STREAM
  else if socktype = 2 then .ok .DGRAM
  else if socktype = 3 then .ok .RAW
  else .error ("Unknown socktype " ++ toString socktype)

inductive Ipproto
  | IP
  | TCP
  | UDP
  | IPV6
  deriving DecidableEq

def Ipproto.code : Ipproto → Int
  | .IP => 0
  | .TCP => 6
  | .UDP => 17
  | .IPV6 => 41

def fromHostIpproto (proto : Int) : Except String Ipproto :=
  if proto = 0 then .ok .IP
  else if proto = 6 then .ok .TCP
  else if proto = 17 then .ok .UDP
  else if proto = 41 then .ok .IPV6
  else .error ("Unknown ipproto " ++ toString proto)

structure HostAddrinfo where
  ai_flags : BitVec 32
  ai_family : Int
  ai_socktype : Int
  ai_protocol : Int
  ai_addr : Option Memory
  ai_canonname : Option (List UInt8)

/-- The address is what is stored in the memory for it. -/
structure Addrinfo where
  ai_flags : BitVec 32
  ai_family : AfFamily
  ai_socktype : Socktype
  ai_protocol : Ipproto
  ai_addrlen : Nat
  ai_canonname : Option (List UInt8)
  ai_addr : Option (List Store)

/-- The fields of one node. -/
def convertAddrinfo (e : HostAddrinfo) : Except String Addrinfo := do
  let ai_socktype ← fromHostSocktype e.ai_socktype
  let ai_protocol ← fromHostIpproto e.ai_protocol
  let ai_addrlen ← getBionicLen e.ai_addr
  let ai_addr ← match e.ai_addr with
    | some addr => if ai_addrlen ≠ 0 then (fromHost addr).map some else pure none
    | none => pure none
  return {
    ai_flags := fromHostAiFlags e.ai_flags
    ai_family := fromHostAfFamily e.ai_family
    ai_socktype, ai_protocol, ai_addrlen
    ai_canonname := e.ai_canonname
    ai_addr }

/-- The recursion is within the block whose exceptions are caught. -/
def fromHostAlloc : List HostAddrinfo → Except String (List Addrinfo)
  | [] => .ok []
  | e :: next =>
    let out := do
      let node ← convertAddrinfo e
      let ai_next ← fromHostAlloc next
      return node :: ai_next
    match out with
    | .ok list => .ok list
    | .error _ => fromHostAlloc next

/-- The socket type, the protocol and the family of the address, if there is one, are known. -/
def convertible (e : HostAddrinfo) : Bool :=
  (e.ai_socktype = 1 || e.ai_socktype = 2 || e.ai_socktype = 3) &&
  (e.ai_protocol = 0 || e.ai_protocol = 6 || e.ai_protocol = 17 || e.ai_protocol = 41) &&
  e.ai_addr.all fun addr => (address hostFamilies addr).isSome

/-- `out` says what `e` says. -/
structure Converted (e : HostAddrinfo) (out : Addrinfo) : Prop where
  flags : out.ai_flags = fromHostAiFlags e.ai_flags
  family : out.ai_family = fromHostAfFamily e.ai_family
  socktype : out.ai_socktype.code = e.ai_socktype
  protocol : out.ai_protocol.code = e.ai_protocol
  canonname : out.ai_canonname = e.ai_canonname
  noAddr : e.ai_addr = none → out.ai_addr = none ∧ out.ai_addrlen = 0
  addr : ∀ m, e.ai_addr = some m → ∃ a stores, address hostFamilies m = some a ∧
    out.ai_addr = some stores ∧ Makes afFamily a stores ∧ out.ai_addrlen = a.size

section Addrinfo
variable {e : HostAddrinfo} {out : Addrinfo}

theorem fromHostSocktype_ok {n : Int} (h : (n = 1 ∨ n = 2) ∨ n = 3) :
    ∃ t, fromHostSocktype n = .ok t ∧ t.code = n := by
  obtain (rfl | rfl) | rfl := h
  · exact ⟨.STREAM, rfl, rfl⟩
  · exact ⟨.DGRAM, rfl, rfl⟩
  · exact ⟨.RAW, rfl, rfl⟩

theorem fromHostSocktype_error {n : Int} (h : ¬((n = 1 ∨ n = 2) ∨ n = 3)) :
    fromHostSocktype n = .error ("Unknown socktype " ++ toString n) := by
  simp only [not_or] at h
  rw [fromHostSocktype, if_neg h.1.1, if_neg h.1.2, if_neg h.2]

theorem fromHostIpproto_ok {n : Int} (h : ((n = 0 ∨ n = 6) ∨ n = 17) ∨ n = 41) :
    ∃ t, fromHostIpproto n = .ok t ∧ t.code = n := by
  obtain ((rfl | rfl) | rfl) | rfl := h
  · exact ⟨.IP, rfl, rfl⟩
  · exact ⟨.TCP, rfl, rfl⟩
  · exact ⟨.UDP, rfl, rfl⟩
  · exact ⟨.IPV6, rfl, rfl⟩

theorem fromHostIpproto_error {n : Int} (h : ¬(((n = 0 ∨ n = 6) ∨ n = 17) ∨ n = 41)) :
    fromHostIpproto n = .error ("Unknown ipproto " ++ toString n) := by
  simp only [not_or] at h
  rw [fromHostIpproto, if_neg h.1.1.1, if_neg h.1.1.2, if_neg h.1.2, if_neg h.2]

/-- The address of an entry is converted, if it has one. -/
theorem addr_ok (hsocktype : ∃ t, fromHostSocktype e.ai_socktype = .ok t ∧ t.code = e.ai_socktype)
    (hprotocol : ∃ t, fromHostIpproto e.ai_protocol = .ok t ∧ t.code = e.ai_protocol)
    (haddr : ∀ m, e.ai_addr = some m → ∃ a, address hostFamilies m = some a) :
    ∃ out, convertAddrinfo e = .ok out ∧ Converted e out := by
  obtain ⟨socktype, hs, hscode⟩ := hsocktype
  obtain ⟨protocol, hp, hpcode⟩ := hprotocol
  cases hm : e.ai_addr with
  | none =>
    refine ⟨⟨fromHostAiFlags e.ai_flags, fromHostAfFamily e.ai_family, socktype, protocol, 0,
      e.ai_canonname, none⟩, ?_, rfl, rfl, hscode, hpcode, rfl, fun _ => ⟨rfl, rfl⟩,
      fun m h => ?_⟩
    · simp only [convertAddrinfo, hs, hp, hm, getBionicLen, sizeOfAddress, bind, Except.bind, pure,
        Except.pure]
    · cases hm.symm.trans h
  | some m =>
    obtain ⟨a, ha⟩ := haddr m hm
    obtain ⟨stores, hfrom, hmakes⟩ : ∃ stores, fromHost m = .ok stores ∧ Makes afFamily a stores :=
      convert_address agree_host ha
    have hsize : a.size ≠ 0 := by cases a <;> simp [Address.size]
    refine ⟨⟨fromHostAiFlags e.ai_flags, fromHostAfFamily e.ai_family, socktype, protocol, a.size,
      e.ai_canonname, some stores⟩, ?_, rfl, rfl, hscode, hpcode, rfl, fun h => ?_, fun m' h => ?_⟩
    · simp only [convertAddrinfo, hs, hp, hm, getBionicLen, sizeOfAddress_some, ha, hfrom, bind,
        Except.bind, if_pos hsize, Except.map, pure, Except.pure]
    · cases hm.symm.trans h
    · cases hm.symm.trans h
      exact ⟨a, stores, ha, rfl, hmakes, rfl⟩

theorem convertAddrinfo_of_convertible (h : convertible e = true) :
    ∃ out, convertAddrinfo e = .ok out ∧ Converted e out := by
  simp only [convertible, Bool.and_eq_true, Bool.or_eq_true, decide_eq_true_eq] at h
  obtain ⟨⟨hsocktype, hprotocol⟩, haddr⟩ := h
  refine addr_ok (fromHostSocktype_ok hsocktype) (fromHostIpproto_ok hprotocol) fun m hm => ?_
  rw [hm] at haddr
  exact Option.isSome_iff_exists.mp haddr

theorem convertAddrinfo_error (h : convertible e = false) :
    ∃ what, convertAddrinfo e = .error what := by
  by_cases hsocktype : (e.ai_socktype = 1 ∨ e.ai_socktype = 2) ∨ e.ai_socktype = 3
  · by_cases hprotocol : ((e.ai_protocol = 0 ∨ e.ai_protocol = 6) ∨ e.ai_protocol = 17) ∨
        e.ai_protocol = 41
    · obtain ⟨t, ht, -⟩ := fromHostSocktype_ok hsocktype
      obtain ⟨p, hp, -⟩ := fromHostIpproto_ok hprotocol
      have haddr : (e.ai_addr.all fun addr => (address hostFamilies addr).isSome) = false := by
        simpa [convertible, hsocktype, hprotocol] using h
      cases hm : e.ai_addr with
      | none => rw [hm] at haddr; cases haddr
      | some m =>
        rw [hm] at haddr
        have hnone : address hostFamilies m = none := by simpa using haddr
        refine ⟨"Unknown socket family when converting sockaddr from host " ++
          toString (m.half 0).toNat, ?_⟩
        simp only [convertAddrinfo, ht, hp, hm, getBionicLen, sizeOfAddress_some, hnone, bind,
          Except.bind]
    · obtain ⟨t, ht, -⟩ := fromHostSocktype_ok hsocktype
      refine ⟨"Unknown ipproto " ++ toString e.ai_protocol, ?_⟩
      simp only [convertAddrinfo, ht, fromHostIpproto_error hprotocol, bind, Except.bind]
  · refine ⟨"Unknown socktype " ++ toString e.ai_socktype, ?_⟩
    simp only [convertAddrinfo, fromHostSocktype_error hsocktype, bind, Except.bind]

/-- Only the entries that cannot be converted are left out, and nothing is thrown. -/
theorem fromHostAlloc_spec (l : List HostAddrinfo) : ∃ out, fromHostAlloc l = .ok out ∧
    List.Forall₂ Converted (l.filter convertible) out := by
  induction l with
  | nil => exact ⟨[], rfl, .nil⟩
  | cons e next ih =>
    obtain ⟨rest, hrest, hall⟩ := ih
    cases hconv : convertible e with
    | true =>
      obtain ⟨node, hnode, hconverted⟩ := convertAddrinfo_of_convertible hconv
      refine ⟨node :: rest, ?_, ?_⟩
      · simp only [fromHostAlloc, hnode, hrest, bind, Except.bind, pure, Except.pure]
      · rw [List.filter_cons_of_pos hconv]
        exact .cons hconverted hall
    | false =>
      obtain ⟨what, hwhat⟩ := convertAddrinfo_error hconv
      refine ⟨rest, ?_, ?_⟩
      · simp only [fromHostAlloc, hwhat, hrest, bind, Except.bind]
      · rw [List.filter_cons_of_neg (by simp [hconv])]
        exact hall

end Addrinfo

/-! ## `getifaddrs` -/

structure HostIfaddrs where
  ifa_name : Option (List UInt8)
  ifa_flags : BitVec 32
  ifa_addr : Option Memory
  ifa_netmask : Option Memory

/-- A node without its link. The addresses are what is stored in the memory for them. -/
structure Ifaddrs where
  ifa_name : Option (List UInt8)
  ifa_flags : BitVec 32
  ifa_addr : List Store
  ifa_netmask : Option (List Store)

/-- The flags of the host and of bionic from `UP` to `DYNAMIC`. The host has no name for the last three
of bionic, `LOWER_UP`, `DORMANT` and `ECHO`. -/
def iff : List (BitVec 32 × BitVec 32) :=
  [(0x1, 0x1), (0x2, 0x2), (0x4, 0x4), (0x8, 0x8), (0x10, 0x10), (0x20, 0x20), (0x40, 0x40),
    (0x80, 0x80), (0x100, 0x100), (0x200, 0x200), (0x400, 0x400), (0x800, 0x800), (0x1000, 0x1000),
    (0x2000, 0x2000), (0x4000, 0x4000), (0x8000, 0x8000)]

def fromHostIff (flags : BitVec 32) : BitVec 32 :=
  iff.foldl (fun ret bit => if flags &&& bit.1 ≠ 0 then ret ||| bit.2 else ret) 0

def isInet (m : Memory) : Bool :=
  m.half 0 = hostFamilies.inet || m.half 0 = hostFamilies.inet6

/-- The body of the loop for an entry with the address `addr`. -/
def convertIfaddrs (c : HostIfaddrs) (addr : Memory) : Except String Ifaddrs := do
  let _ ← getBionicLen (some addr)
  let ifa_addr ← fromHost addr
  let ifa_netmask ← match c.ifa_netmask with
    | some mask =>
      if isInet mask then do
        let _ ← getBionicLen (some mask)
        (fromHost mask).map some
      else pure none
    | none => pure none
  return { ifa_name := c.ifa_name, ifa_flags := fromHostIff c.ifa_flags, ifa_addr, ifa_netmask }

/-- The nodes by their addresses, the next address that `new` gives, `*result` and `pc`. -/
structure IfState where
  heap : Nat → Option (Ifaddrs × Option Nat)
  fresh : Nat
  result : Option Nat
  pc : Option Nat

namespace IfState

def setNext (heap : Nat → Option (Ifaddrs × Option Nat)) (p next : Nat) :
    Nat → Option (Ifaddrs × Option Nat) := fun k =>
  if k = p then (heap p).map fun node => (node.1, some next) else heap k

/-- A new node is linked behind the one that `pc` points to. -/
def push (s : IfState) (n : Ifaddrs) : IfState :=
  let heap := fun k => if k = s.fresh then some (n, none) else s.heap k
  match s.pc with
  | none => ⟨heap, s.fresh + 1, some s.fresh, some s.fresh⟩
  | some pc => ⟨setNext heap pc s.fresh, s.fresh + 1, s.result, some s.fresh⟩

end IfState

def getifaddrsLoop (s : IfState) : List HostIfaddrs → Except String IfState
  | [] => .ok s
  | c :: cs =>
    match c.ifa_addr with
    | some addr =>
      if isInet addr then do
        let n ← convertIfaddrs c addr
        getifaddrsLoop (s.push n) cs
      else getifaddrsLoop s cs
    | none => getifaddrsLoop s cs

/-- The return value, and the state if the call of the host has not failed. -/
def getifaddrs (ret : Int32) (nresult : List HostIfaddrs)
    (heap : Nat → Option (Ifaddrs × Option Nat)) (fresh : Nat) :
    Except String (Int32 × Option IfState) :=
  if ret ≠ 0 then .ok (ret, none)
  else (getifaddrsLoop ⟨heap, fresh, none, none⟩ nresult).map fun s => (0, some s)

/-- The entry has an address of IPv4 or IPv6. -/
def hasInet (c : HostIfaddrs) : Bool := c.ifa_addr.any isInet

/-- `n` says what `c` says. A netmask of another family is left out. -/
structure ConvertedIf (c : HostIfaddrs) (n : Ifaddrs) : Prop where
  name : n.ifa_name = c.ifa_name
  flags : n.ifa_flags = fromHostIff c.ifa_flags
  addr : ∃ m a, c.ifa_addr = some m ∧ address hostFamilies m = some a ∧ Makes afFamily a n.ifa_addr
  netmask : ∀ m, c.ifa_netmask = some m → isInet m = true → ∃ a stores,
    address hostFamilies m = some a ∧ n.ifa_netmask = some stores ∧ Makes afFamily a stores
  noNetmask : c.ifa_netmask.all (fun m => !isInet m) = true → n.ifa_netmask = none

section Ifaddrs
variable {c : HostIfaddrs} {m : Memory} {s : IfState} {n : Ifaddrs}

theorem address_of_isInet (h : isInet m = true) : ∃ a stores, address hostFamilies m = some a ∧
    fromHost m = .ok stores ∧ Makes afFamily a stores ∧
    getBionicLen (some m) = .ok a.size := by
  have hsome : ∃ a, address hostFamilies m = some a := by
    rw [isInet, Bool.or_eq_true, decide_eq_true_eq, decide_eq_true_eq] at h
    rw [address]
    obtain h | h := h
    · rw [h, if_neg (by decide), if_pos rfl]
      exact ⟨_, rfl⟩
    · rw [h, if_neg (by decide), if_neg (by decide), if_pos rfl]
      exact ⟨_, rfl⟩
  obtain ⟨a, ha⟩ := hsome
  obtain ⟨stores, hfrom, hmakes⟩ : ∃ stores, fromHost m = .ok stores ∧ Makes afFamily a stores :=
    convert_address agree_host ha
  refine ⟨a, stores, ha, hfrom, hmakes, ?_⟩
  rw [getBionicLen, sizeOfAddress_some, ha]

theorem convertIfaddrs_spec (haddr : c.ifa_addr = some m) (hm : isInet m = true) :
    ∃ n, convertIfaddrs c m = .ok n ∧ ConvertedIf c n := by
  obtain ⟨a, stores, ha, hfrom, hmakes, hlen⟩ := address_of_isInet hm
  have hbare (hmask : c.ifa_netmask.all (fun m => !isInet m) = true)
      (hconv : convertIfaddrs c m = .ok ⟨c.ifa_name, fromHostIff c.ifa_flags, stores, none⟩) :
      ∃ n, convertIfaddrs c m = .ok n ∧ ConvertedIf c n := by
    refine ⟨_, hconv, rfl, rfl, ⟨m, a, haddr, ha, hmakes⟩, fun mask hsome hinet => ?_, fun _ => rfl⟩
    rw [hsome, Option.all_some, hinet] at hmask
    cases hmask
  cases hmask : c.ifa_netmask with
  | none =>
    refine hbare (by rw [hmask]; rfl) ?_
    simp only [convertIfaddrs, hlen, hfrom, hmask, bind, Except.bind, pure, Except.pure]
  | some mask =>
    cases hinet : isInet mask with
    | false =>
      refine hbare (by rw [hmask, Option.all_some, hinet]; rfl) ?_
      simp only [convertIfaddrs, hlen, hfrom, hmask, hinet, bind, Except.bind, pure, Except.pure,
        Bool.false_eq_true, if_false]
    | true =>
      obtain ⟨b, stores', hb, hfrom', hmakes', hlen'⟩ := address_of_isInet hinet
      refine ⟨⟨c.ifa_name, fromHostIff c.ifa_flags, stores, some stores'⟩, ?_, rfl, rfl,
        ⟨m, a, haddr, ha, hmakes⟩, fun mask' hsome _ => ?_, fun hall => ?_⟩
      · simp only [convertIfaddrs, hlen, hfrom, hmask, hinet, hlen', hfrom', bind, Except.bind, pure,
          Except.pure, Except.map, if_true]
      · cases hmask.symm.trans hsome
        exact ⟨b, stores', hb, rfl, hmakes'⟩
      · rw [hmask, Option.all_some, hinet] at hall
        cases hall

/-- The nodes that were made so far are a list, whose last node `pc` points to. -/
structure IfState.Lists (s : IfState) (C : List (Nat × Ifaddrs)) : Prop where
  chain : Chain s.heap s.result C
  pc : s.pc = C.getLast?.map Prod.fst
  lt : ∀ k ∈ C.map Prod.fst, k < s.fresh
  nodup : (C.map Prod.fst).Nodup

theorem IfState.Lists.ne_fresh {C : List (Nat × Ifaddrs)} (h : s.Lists C) {k : Nat}
    (hk : k ∈ C.map Prod.fst) : k ≠ s.fresh :=
  Nat.ne_of_lt (h.lt k hk)

/-- A new node behind the last one. -/
theorem IfState.Lists.chain_setNext {B : List (Nat × Ifaddrs)} {x : Nat} {a : Ifaddrs}
    (h : s.Lists (B ++ [(x, a)])) (n : Ifaddrs) :
    Chain (IfState.setNext (fun k => if k = s.fresh then some (n, none) else s.heap k) x s.fresh)
      s.result (B ++ [(x, a)] ++ [(s.fresh, n)]) := by
  have hx : x ≠ s.fresh := h.ne_fresh (by simp)
  obtain ⟨next, hnode⟩ := h.chain.node_of_mem (List.mem_append_right B (.head _))
  have hfront (k : Nat) (hk : k ∈ (B ++ [(x, a)]).dropLast.map Prod.fst) :
      IfState.setNext (fun k => if k = s.fresh then some (n, none) else s.heap k) x s.fresh k =
        s.heap k := by
    rw [List.dropLast_concat] at hk
    have hnodup := h.nodup
    rw [List.map_append, List.nodup_append] at hnodup
    have hkx : k ≠ x := hnodup.2.2 k hk x (List.mem_singleton.mpr rfl)
    have hkfresh : k ≠ s.fresh := h.ne_fresh (by simp [hk])
    exact (if_neg hkx).trans (if_neg hkfresh)
  have hback (y : Nat) (b : Ifaddrs) (hy : (B ++ [(x, a)]).getLast? = some (y, b)) :
      IfState.setNext (fun k => if k = s.fresh then some (n, none) else s.heap k) x s.fresh y =
        some (b, some s.fresh) := by
    cases List.getLast?_concat.symm.trans hy
    rw [IfState.setNext, if_pos rfl, if_neg hx, hnode, Option.map_some]
  have hchain := h.chain.concat hfront hback ((if_neg hx.symm).trans (if_pos rfl))
  rwa [if_neg (by simp)] at hchain

theorem IfState.Lists.push {C : List (Nat × Ifaddrs)} (h : s.Lists C) (n : Ifaddrs) :
    (s.push n).Lists (C ++ [(s.fresh, n)]) := by
  have hlt : ∀ k ∈ (C ++ [(s.fresh, n)]).map Prod.fst, k < s.fresh + 1 := by
    intro k hk
    rw [List.map_append, List.mem_append] at hk
    obtain hk | hk := hk
    · exact Nat.lt_succ_of_lt (h.lt k hk)
    · rw [List.mem_singleton.mp hk]
      exact Nat.lt_succ_self _
  have hnodup : ((C ++ [(s.fresh, n)]).map Prod.fst).Nodup := by
    rw [List.map_append]
    exact List.nodup_append.mpr ⟨h.nodup, List.nodup_singleton _, fun k hk l hl =>
      List.mem_singleton.mp hl ▸ h.ne_fresh hk⟩
  have hpc := h.pc
  cases hlast : C.getLast? with
  | none =>
    obtain rfl := List.getLast?_eq_none_iff.mp hlast
    rw [hlast] at hpc
    have hpush : s.push n = ⟨fun k => if k = s.fresh then some (n, none) else s.heap k, s.fresh + 1,
        some s.fresh, some s.fresh⟩ := by
      simp only [IfState.push, hpc, Option.map_none]
    rw [hpush]
    exact ⟨⟨rfl, none, if_pos rfl, rfl⟩, rfl, hlt, hnodup⟩
  | some last =>
    obtain ⟨x, a⟩ := last
    rw [hlast] at hpc
    obtain ⟨B, rfl⟩ := List.getLast?_eq_some_iff.mp hlast
    have hpush : s.push n =
        ⟨IfState.setNext (fun k => if k = s.fresh then some (n, none) else s.heap k) x s.fresh,
          s.fresh + 1, s.result, some s.fresh⟩ := by
      simp only [IfState.push, hpc, Option.map_some]
    rw [hpush]
    exact ⟨h.chain_setNext n, by simp, hlt, hnodup⟩

/-- Entries without an address of IPv4 or IPv6 are left out, wherever they are. -/
theorem getifaddrsLoop_spec (cs : List HostIfaddrs) {C : List (Nat × Ifaddrs)} (h : s.Lists C) :
    ∃ s' D, getifaddrsLoop s cs = .ok s' ∧ s'.Lists (C ++ D) ∧
      List.Forall₂ ConvertedIf (cs.filter hasInet) (D.map Prod.snd) := by
  induction cs generalizing s C with
  | nil => exact ⟨s, [], rfl, by rwa [List.append_nil], .nil⟩
  | cons c cs ih =>
    have hskip (hinet : hasInet c = false) (hloop : getifaddrsLoop s (c :: cs) = getifaddrsLoop s cs) :
        ∃ s' D, getifaddrsLoop s (c :: cs) = .ok s' ∧ s'.Lists (C ++ D) ∧
          List.Forall₂ ConvertedIf ((c :: cs).filter hasInet) (D.map Prod.snd) := by
      rw [hloop, List.filter_cons_of_neg (by simp [hinet])]
      exact ih h
    cases haddr : c.ifa_addr with
    | none =>
      refine hskip (by rw [hasInet, haddr]; rfl) ?_
      rw [getifaddrsLoop, haddr]
    | some m =>
      cases hinet : isInet m with
      | false =>
        refine hskip (by rw [hasInet, haddr, Option.any_some, hinet]) ?_
        rw [getifaddrsLoop, haddr]
        simp only [hinet, Bool.false_eq_true, if_false]
      | true =>
        obtain ⟨n, hn, hconverted⟩ := convertIfaddrs_spec haddr hinet
        obtain ⟨s', D, hloop, hlists, hall⟩ := ih (h.push n)
        refine ⟨s', (s.fresh, n) :: D, ?_, ?_, ?_⟩
        · rw [getifaddrsLoop, haddr]
          simp only [hinet, if_true, hn, bind, Except.bind, hloop]
        · rwa [List.append_assoc] at hlists
        · rw [List.filter_cons_of_pos (by rw [hasInet, haddr, Option.any_some, hinet])]
          exact .cons hconverted hall

end Ifaddrs

/-- **Nothing of an address is lost**, and of a list only what cannot be converted. -/
theorem addresses_kept :
    (∀ m a, address afFamily m = some a → ∃ stores, toHost m = .ok stores ∧ ∀ out : Memory,
      ∃ back, fromHost (out.storeAll stores) = .ok back ∧
        ∀ out' : Memory, address afFamily (out'.storeAll back) = some a) ∧
    (∀ m a, address hostFamilies m = some a → ∃ stores, fromHost m = .ok stores ∧ ∀ out : Memory,
      ∃ back, toHost (out.storeAll stores) = .ok back ∧
        ∀ out' : Memory, address hostFamilies (out'.storeAll back) = some a) ∧
    (∀ l, ∃ out, fromHostAlloc l = .ok out ∧
      List.Forall₂ Converted (l.filter convertible) out) ∧
    ∀ l heap fresh, ∃ s C, getifaddrs 0 l heap fresh = .ok (0, some s) ∧
      Chain s.heap s.result C ∧ List.Forall₂ ConvertedIf (l.filter hasInet) (C.map Prod.snd) := by
  refine ⟨fun m a h => ?_, fun m a h => ?_, fromHostAlloc_spec, fun l heap fresh => ?_⟩
  · obtain ⟨stores, hto, hmakes⟩ : ∃ stores, toHost m = .ok stores ∧ Makes hostFamilies a stores :=
      convert_address agree_bionic h
    refine ⟨stores, hto, fun out => ?_⟩
    obtain ⟨back, hfrom, hback⟩ : ∃ back, fromHost (out.storeAll stores) = .ok back ∧
        Makes afFamily a back := convert_address agree_host (hmakes.address out)
    exact ⟨back, hfrom, hback.address⟩
  · obtain ⟨stores, hfrom, hmakes⟩ : ∃ stores, fromHost m = .ok stores ∧ Makes afFamily a stores :=
      convert_address agree_host h
    refine ⟨stores, hfrom, fun out => ?_⟩
    obtain ⟨back, hto, hback⟩ : ∃ back, toHost (out.storeAll stores) = .ok back ∧
        Makes hostFamilies a back := convert_address agree_bionic (hmakes.address out)
    exact ⟨back, hto, hback.address⟩
  · have hstart : IfState.Lists ⟨heap, fresh, none, none⟩ [] :=
      ⟨rfl, rfl, List.forall_mem_nil _, List.nodup_nil⟩
    obtain ⟨s, C, hloop, hlists, hall⟩ := getifaddrsLoop_spec l hstart
    refine ⟨s, C, ?_, hlists.chain, hall⟩
    have hzero : ¬(0 : Int32) ≠ 0 := not_not.mpr rfl
    rw [getifaddrs, if_neg hzero, hloop]
    rfl

end McpeLauncher.Network
