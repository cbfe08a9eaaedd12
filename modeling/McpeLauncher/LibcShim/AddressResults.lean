import McpeLauncher.LibcShim.SocketAddress

/-!
# Addresses that the host returns

The calls of `libc-shim` that return the address of a peer let the host write it into a temporary of
their own, and convert it into the caller's buffer.
-/

namespace McpeLauncher.Network
open ByteMemory

/-- What a call of the host returns, what it leaves in the temporary, which is zeroed before, and the
length that it reports. -/
structure HostCall where
  ret : Int64
  haddr : Memory
  len : UInt32

/-- `sockaddr_out::apply`: what is stored in the caller's buffer, and its new length. -/
def apply (host : HostCall) (addrlen : UInt32) : Except String (List Store × UInt32) := do
  let needed ← getBionicLen (some host.haddr)
  if needed > addrlen.toNat then throw "buffer for sockaddr not big enough"
  let stores ← fromHost host.haddr
  let len ← getBionicLen (some host.haddr)
  return (stores, UInt32.ofNat len)

/-- What a call of the shim returns or throws, what it stores in the caller's buffer, and the caller's
length after it. -/
structure Result where
  returned : Except String Int
  stores : List Store
  addrlen : UInt32

def Result.untouched (returned : Except String Int) (addrlen : UInt32) : Result :=
  ⟨returned, [], addrlen⟩

/-- A call that has returned `ret` and applies the address. -/
def applied (ret : Int) (host : HostCall) (addrlen : UInt32) : Result :=
  match apply host addrlen with
  | .ok (stores, len) => ⟨.ok ret, stores, len⟩
  | .error what => .untouched (.error what) addrlen

/-- Where `msg_name` points to. -/
inductive MsgName
  | null
  | caller
  | temporary
  deriving DecidableEq

def callerName (named : Bool) : MsgName := if named then .caller else .null

/-- The host gets the temporary and its length, so that it is the length of the host that `apply` takes
for the capacity. -/
def recvmsg (flags : Int32) (named : Bool) (namelen : UInt32) (host : HostCall) :
    Result × MsgName :=
  if flags ≠ 0 then
    (.untouched (.error ("recvmsg with unsupported flags " ++ toString flags)) namelen,
      callerName named)
  else
    let name : MsgName := if named then .temporary else .null
    let val := host.ret
    if 0 < val ∧ named then (applied val.toInt host host.len, name)
    else (.untouched (.ok val.toInt) host.len, name)

def recvfrom (flags : Int32) (addr : Bool) (addrlen : UInt32) (host : HostCall) : Result :=
  if flags ≠ 0 ∧ flags ≠ 0x4000 then
    .untouched (.error ("recvfrom with unsupported flags " ++ toString flags)) addrlen
  else if !addr then .untouched (.ok host.ret.toInt) addrlen
  else
    -- the number of bytes becomes an `int`
    let ret := host.ret.toInt32
    if 0 ≤ ret then applied ret.toInt host addrlen else .untouched (.ok ret.toInt) addrlen

def getsockname (addrlen : UInt32) (host : HostCall) : Result :=
  let ret := host.ret.toInt32
  if ret = 0 then applied ret.toInt host addrlen else .untouched (.ok ret.toInt) addrlen

def getpeername (addrlen : UInt32) (host : HostCall) : Result :=
  let ret := host.ret.toInt32
  if ret = 0 then applied ret.toInt host addrlen else .untouched (.ok ret.toInt) addrlen

/-- The caller may give no length. -/
def accept (addrlen : Option UInt32) (host : HostCall) : Result :=
  let ret := host.ret.toInt32
  match addrlen with
  | some addrlen =>
    if 0 ≤ ret then applied ret.toInt host addrlen else .untouched (.ok ret.toInt) addrlen
  | none => .untouched (.ok ret.toInt) 0

/-! ## What the caller relies on -/

/-- All stores are within the caller's buffer. If there are any, they are the address of the host, and
its length is reported. -/
structure Respects (buffer : Bool) (capacity : UInt32) (host : HostCall) (r : Result) : Prop where
  within : ∀ s ∈ r.stores, buffer = true ∧ s.1 + s.2.length ≤ capacity.toNat
  reports : r.stores ≠ [] → fromHost host.haddr = .ok r.stores ∧
    getBionicLen (some host.haddr) = .ok r.addrlen.toNat

/-- A receive without an address returns its number of bytes. -/
def Counted (host : HostCall) (r : Result) : Prop :=
  0 ≤ host.ret → host.haddr.half 0 = hostFamilies.unspec → r.returned = .ok host.ret.toInt

section Calls
variable {buffer : Bool} {capacity : UInt32} {host : HostCall}

theorem respects_untouched (buffer : Bool) (capacity : UInt32) (host : HostCall)
    (returned : Except String Int) (addrlen : UInt32) :
    Respects buffer capacity host (.untouched returned addrlen) :=
  ⟨List.forall_mem_nil _, fun h => absurd rfl h⟩

theorem size_le (a : Address) : a.size ≤ 110 := by
  cases a <;> simp [Address.size]

/-- An address that fits is stored. -/
theorem apply_of_le {a : Address} (h : address hostFamilies host.haddr = some a)
    (hle : a.size ≤ capacity.toNat) : ∃ stores, fromHost host.haddr = .ok stores ∧
      Makes afFamily a stores ∧ apply host capacity = .ok (stores, UInt32.ofNat a.size) := by
  obtain ⟨stores, hfrom, hmakes⟩ : ∃ stores, fromHost host.haddr = .ok stores ∧
      Makes afFamily a stores := convert_address agree_host h
  have hlen : getBionicLen (some host.haddr) = .ok a.size := by
    rw [getBionicLen, sizeOfAddress_some, h]
  refine ⟨stores, hfrom, hmakes, ?_⟩
  simp only [apply, hlen, hfrom, bind, Except.bind, pure, Except.pure, if_neg (Nat.not_lt.mpr hle)]

/-- A family that is not known is an error, and so is an address that does not fit. -/
theorem apply_of_none (h : address hostFamilies host.haddr = none) :
    apply host capacity = .error ("Unknown socket family when converting sockaddr from host " ++
      toString (host.haddr.half 0).toNat) := by
  simp only [apply, getBionicLen, sizeOfAddress_some, h, bind, Except.bind]

theorem apply_of_lt {a : Address} (h : address hostFamilies host.haddr = some a)
    (hlt : capacity.toNat < a.size) :
    apply host capacity = .error "buffer for sockaddr not big enough" := by
  simp only [apply, getBionicLen, sizeOfAddress_some, h, bind, Except.bind, if_pos hlt, throw,
    throwThe, MonadExceptOf.throw]

theorem applied_of_error {what : String} (h : apply host capacity = .error what) (ret : Int) :
    applied ret host capacity = .untouched (.error what) capacity := by
  rw [applied, h]

/-- Either nothing is stored, or an address that fits and has its length reported. -/
theorem applied_cases (ret : Int) (host : HostCall) (capacity : UInt32) :
    (∃ what, applied ret host capacity = .untouched (.error what) capacity) ∨
    ∃ a stores, address hostFamilies host.haddr = some a ∧ a.size ≤ capacity.toNat ∧
      fromHost host.haddr = .ok stores ∧ Makes afFamily a stores ∧
      applied ret host capacity = ⟨.ok ret, stores, UInt32.ofNat a.size⟩ := by
  cases h : address hostFamilies host.haddr with
  | none =>
    exact .inl ⟨_, applied_of_error (apply_of_none h) ret⟩
  | some a =>
    obtain hlt | hle := Nat.lt_or_ge capacity.toNat a.size
    · exact .inl ⟨_, applied_of_error (apply_of_lt h hlt) ret⟩
    · obtain ⟨stores, hfrom, hmakes, happly⟩ := apply_of_le h hle
      refine .inr ⟨a, stores, rfl, hle, hfrom, hmakes, ?_⟩
      rw [applied, happly]

theorem respects_applied (ret : Int) : Respects true capacity host (applied ret host capacity) := by
  obtain ⟨what, h⟩ | ⟨a, stores, ha, hle, hfrom, hmakes, h⟩ := applied_cases ret host capacity
  · rw [h]
    exact respects_untouched _ _ _ _ _
  · rw [h]
    refine ⟨fun s hs => ⟨rfl, (hmakes.within s hs).trans hle⟩, fun _ => ⟨hfrom, ?_⟩⟩
    have hsize : (UInt32.ofNat a.size).toNat = a.size := by
      rw [UInt32.toNat_ofNat']
      exact Nat.mod_eq_of_lt (Nat.lt_of_le_of_lt (size_le a) (by decide))
    rw [getBionicLen, sizeOfAddress_some, ha, hsize]

/-- The family that is none is not one of the three. -/
theorem address_of_unspec (h : host.haddr.half 0 = hostFamilies.unspec) :
    address hostFamilies host.haddr = none := by
  rw [address, h]
  rfl

/-- What the caller of `recvfrom` gets when it should. -/
theorem recvfrom_iff (flags : Int32) (addr : Bool) (capacity : UInt32) (host : HostCall) :
    ((flags = 0 ∨ flags = 0x4000 → Counted host (recvfrom flags addr capacity host)) ∧
      Respects addr capacity host (recvfrom flags addr capacity host)) ↔
    ¬((flags = 0 ∨ flags = 0x4000) ∧ addr = true ∧ 0 ≤ host.ret ∧
      host.haddr.half 0 = hostFamilies.unspec) := by
  constructor
  · rintro ⟨hcounted, -⟩ ⟨hflags, rfl, hret, hunspec⟩
    have hflags' : ¬(flags ≠ 0 ∧ flags ≠ 0x4000) := by
      rintro ⟨h₀, h₁⟩
      exact hflags.elim h₀ h₁
    have hreturned := hcounted hflags hret hunspec
    simp only [recvfrom, if_neg hflags', Bool.not_true, Bool.false_eq_true, if_false] at hreturned
    split at hreturned
    · rw [applied, apply_of_none (address_of_unspec hunspec)] at hreturned
      cases hreturned
    · next hneg =>
      -- the number of bytes is not negative, but its lower half is
      have heq : host.ret.toInt32.toInt = host.ret.toInt := Except.ok.inj hreturned
      have hpos : (0 : Int) ≤ host.ret.toInt := Int64.le_iff_toInt_le.mp hret
      exact hneg (Int32.le_iff_toInt_le.mpr (heq ▸ hpos))
  · intro hnot
    rw [recvfrom]
    split
    · next hflags =>
      refine ⟨fun h => ?_, respects_untouched _ _ _ _ _⟩
      exact absurd h (not_or.mpr hflags)
    · next hflags =>
      have hflags : flags = 0 ∨ flags = 0x4000 := by
        rw [ne_eq, ne_eq, ← not_or] at hflags
        exact not_not.mp hflags
      cases addr with
      | false => exact ⟨fun _ _ _ => rfl, respects_untouched _ _ _ _ _⟩
      | true =>
        have hcounted (r : Result) : Counted host r := fun hret hunspec =>
          absurd ⟨hflags, rfl, hret, hunspec⟩ hnot
        refine ⟨fun _ => hcounted _, ?_⟩
        have hgiven : ¬(!true) = true := by decide
        rw [if_neg hgiven]
        dsimp only
        split
        · exact respects_applied _
        · exact respects_untouched _ _ _ _ _

/-- `msg_name` is put back by nothing. -/
theorem recvmsg_iff (flags : Int32) (named : Bool) (capacity : UInt32) (host : HostCall) :
    ((flags = 0 → Counted host (recvmsg flags named capacity host).1) ∧
      Respects named capacity host (recvmsg flags named capacity host).1 ∧
      (recvmsg flags named capacity host).2 = callerName named) ↔ flags ≠ 0 ∨ named = false := by
  constructor
  · rintro ⟨-, -, hname⟩
    rw [or_iff_not_imp_left, not_not]
    rintro rfl
    cases named with
    | false => rfl
    | true =>
      have htemporary : (recvmsg 0 true capacity host).2 = .temporary := by
        simp only [recvmsg, ne_eq, not_true_eq_false, if_false, if_true]
        split <;> rfl
      cases htemporary.symm.trans hname
  · rintro (hflags | rfl)
    · rw [recvmsg, if_pos hflags]
      exact ⟨fun h => absurd h hflags, respects_untouched _ _ _ _ _, rfl⟩
    · by_cases hflags : flags = 0
      · have heq : recvmsg flags false capacity host =
            (.untouched (.ok host.ret.toInt) host.len, .null) := by
          simp only [recvmsg, hflags, ne_eq, not_true_eq_false, if_false, Bool.false_eq_true,
            and_false]
        rw [heq]
        exact ⟨fun _ _ _ => rfl, respects_untouched _ _ _ _ _, rfl⟩
      · rw [recvmsg, if_pos hflags]
        exact ⟨fun h => absurd h hflags, respects_untouched _ _ _ _ _, rfl⟩

theorem respects_getsockname (capacity : UInt32) (host : HostCall) :
    Respects true capacity host (getsockname capacity host) := by
  rw [getsockname]
  split
  · exact respects_applied _
  · exact respects_untouched _ _ _ _ _

theorem respects_getpeername (capacity : UInt32) (host : HostCall) :
    Respects true capacity host (getpeername capacity host) :=
  respects_getsockname capacity host

/-- Without a buffer, an address that fits into the given length is stored nevertheless. -/
theorem accept_iff (buffer : Bool) (addrlen : Option UInt32) (host : HostCall) :
    Respects buffer (addrlen.getD 0) host (accept addrlen host) ↔
      ¬(buffer = false ∧ 0 ≤ host.ret.toInt32 ∧ ∃ capacity a, addrlen = some capacity ∧
        address hostFamilies host.haddr = some a ∧ a.size ≤ capacity.toNat) := by
  constructor
  · rintro ⟨hwithin, -⟩ ⟨rfl, hret, capacity, a, rfl, ha, hle⟩
    obtain ⟨stores, -, hmakes, happly⟩ := apply_of_le ha hle
    have hstores : (accept (some capacity) host).stores = stores := by
      simp only [accept, if_pos hret, applied, happly]
    obtain ⟨s, hs⟩ := List.exists_mem_of_ne_nil _ hmakes.ne_nil
    exact Bool.false_ne_true (hwithin s (hstores.symm ▸ hs)).1
  · intro hnot
    cases addrlen with
    | none => exact respects_untouched _ _ _ _ _
    | some capacity =>
      rw [accept]
      dsimp only [Option.getD_some]
      split
      · next hret =>
        cases buffer with
        | true => exact respects_applied _
        | false =>
          obtain ⟨what, h⟩ | ⟨a, -, ha, hle, -⟩ := applied_cases host.ret.toInt32.toInt host capacity
          · rw [h]
            exact respects_untouched _ _ _ _ _
          · exact absurd ⟨rfl, hret, capacity, a, rfl, ha, hle⟩ hnot
      · exact respects_untouched _ _ _ _ _

end Calls

/-- A call with what the caller passes: whether there is a buffer, and its length. -/
inductive Call
  | recvmsg (flags : Int32) (named : Bool) (namelen : UInt32)
  | recvfrom (flags : Int32) (addr : Bool) (addrlen : UInt32)
  | getsockname (addrlen : UInt32)
  | getpeername (addrlen : UInt32)
  | accept (addr : Bool) (addrlen : Option UInt32)

/-- What the caller relies on. -/
def Honoured (host : HostCall) : Call → Prop
  | .recvmsg flags named namelen =>
    (flags = 0 → Counted host (recvmsg flags named namelen host).1) ∧
      Respects named namelen host (recvmsg flags named namelen host).1 ∧
      (recvmsg flags named namelen host).2 = callerName named
  | .recvfrom flags addr addrlen =>
    (flags = 0 ∨ flags = 0x4000 → Counted host (recvfrom flags addr addrlen host)) ∧
      Respects addr addrlen host (recvfrom flags addr addrlen host)
  | .getsockname addrlen => Respects true addrlen host (getsockname addrlen host)
  | .getpeername addrlen => Respects true addrlen host (getpeername addrlen host)
  | .accept addr addrlen => Respects addr (addrlen.getD 0) host (accept addrlen host)

/-- When it can. -/
def Safe (host : HostCall) : Call → Prop
  | .recvmsg flags named _ => flags ≠ 0 ∨ named = false
  | .recvfrom flags addr _ =>
    ¬((flags = 0 ∨ flags = 0x4000) ∧ addr = true ∧ 0 ≤ host.ret ∧
      host.haddr.half 0 = hostFamilies.unspec)
  | .getsockname _ => True
  | .getpeername _ => True
  | .accept addr addrlen =>
    ¬(addr = false ∧ 0 ≤ host.ret.toInt32 ∧ ∃ capacity a, addrlen = some capacity ∧
      address hostFamilies host.haddr = some a ∧ a.size ≤ capacity.toNat)

/-- **When the callers' buffers are respected**, for each of the five calls. -/
theorem address_results (host : HostCall) (call : Call) : Honoured host call ↔ Safe host call := by
  cases call with
  | recvmsg flags named namelen => exact recvmsg_iff flags named namelen host
  | recvfrom flags addr addrlen => exact recvfrom_iff flags addr addrlen host
  | getsockname addrlen => exact iff_of_true (respects_getsockname addrlen host) trivial
  | getpeername addrlen => exact iff_of_true (respects_getpeername addrlen host) trivial
  | accept addr addrlen => exact accept_iff addr addrlen host

/-- Five bytes from an IPv6 peer. -/
def inet6Call : HostCall := ⟨5, fun k => if k = 0 then 10 else 0, 28⟩

/-- Five bytes from a stream, which says no address. -/
def streamCall : HostCall := ⟨5, fun _ => 0, 0⟩

/-- A buffer of 16 bytes is overrun and not pointed to any more, and the bytes of a stream are lost. -/
theorem address_results_fail :
    (recvmsg 0 true 16 inet6Call).2 ≠ callerName true ∧
    (24, [0, 0, 0, 0]) ∈ (recvmsg 0 true 16 inet6Call).1.stores ∧
    ¬Honoured inet6Call (.recvmsg 0 true 16) ∧
    (recvfrom 0 true 16 streamCall).returned =
      .error "Unknown socket family when converting sockaddr from host 0" ∧
    ¬Honoured streamCall (.recvfrom 0 true 16) := by
  refine ⟨by decide, by decide, fun h => ?_, by decide, fun h => ?_⟩
  · exact absurd h.2.2 (by decide)
  · exact absurd (h.1 (.inl rfl) (by decide) (by decide)) (by decide)

end McpeLauncher.Network
