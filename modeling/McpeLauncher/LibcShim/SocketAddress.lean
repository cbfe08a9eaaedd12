import McpeLauncher.Lib.ByteMemory

/-!
# Socket addresses

The conversions of `libc-shim` between the socket addresses of the host and those of bionic. The host is
a little-endian Linux, so that both sides have the same layouts and numbers; the conversions copy
field by field, and what is between and behind the fields is left alone.
-/

namespace McpeLauncher.Network
open ByteMemory Codec

/-- The numbers of the address families. -/
structure Families where
  unspec : UInt16
  unix : UInt16
  inet : UInt16
  inet6 : UInt16
  deriving DecidableEq

/-- `AF_UNSPEC`, `AF_UNIX`, `AF_INET` and `AF_INET6`. -/
def hostFamilies : Families := ⟨0, 1, 2, 10⟩

/-- `bionic::af_family`. -/
def afFamily : Families := ⟨0, 1, 2, 10⟩

/-- What is stored in an address that is made from `m`. The field of the family is copied for a UNIX
address and filled in for the others. -/
def convert (source target : Families) (what : String) (m : Memory) : Except String (List Store) :=
  let family := m.half 0
  if family = source.unspec then .ok [Store.halfAt 0 target.unspec]
  else if family = source.unix then .ok [Store.halfAt 0 family, (2, m.bytes 2 108)]
  else if family = source.inet then
    .ok [Store.halfAt 0 target.inet, (2, m.bytes 2 2), (4, m.bytes 4 4)]
  else if family = source.inet6 then
    .ok [Store.halfAt 0 target.inet6, (2, m.bytes 2 2), (4, m.bytes 4 4), (8, m.bytes 8 16),
      (24, m.bytes 24 4)]
  else .error (what ++ toString family.toNat)

def fromHost : Memory → Except String (List Store) :=
  convert hostFamilies afFamily "Unknown socket family when converting sockaddr from host "

def toHost : Memory → Except String (List Store) :=
  convert afFamily hostFamilies "Unknown socket family when converting sockaddr to host "

/-- The size of the structure for an address, if there is one. -/
def sizeOfAddress (source : Families) (what : String) : Option Memory → Except String Nat
  | none => .ok 0
  | some m =>
    let family := m.half 0
    if family = source.unix then .ok 110
    else if family = source.inet then .ok 16
    else if family = source.inet6 then .ok 28
    else .error (what ++ toString family.toNat)

def getBionicLen : Option Memory → Except String Nat :=
  sizeOfAddress hostFamilies "Unknown socket family when converting sockaddr from host "

def getHostLen : Option Memory → Except String Nat :=
  sizeOfAddress afFamily "Unknown socket family when converting sockaddr to host "

/-! ## What an address says -/

/-- The fields of an address, each by its bytes. -/
inductive Address
  | unix (path : List UInt8)
  | inet (port addr : List UInt8)
  | inet6 (port flowInfo addr scope : List UInt8)
  deriving DecidableEq

/-- The size of the structure for an address. -/
def Address.size : Address → Nat
  | .unix _ => 110
  | .inet _ _ => 16
  | .inet6 _ _ _ _ => 28

def address (families : Families) (m : Memory) : Option Address :=
  if m.half 0 = families.unix then some (.unix (m.bytes 2 108))
  else if m.half 0 = families.inet then some (.inet (m.bytes 2 2) (m.bytes 4 4))
  else if m.half 0 = families.inet6 then
    some (.inet6 (m.bytes 2 2) (m.bytes 4 4) (m.bytes 8 16) (m.bytes 24 4))
  else none

/-- The stores make an address that says `a`, within its size. -/
structure Makes (target : Families) (a : Address) (stores : List Store) : Prop where
  ne_nil : stores ≠ []
  within : ∀ s ∈ stores, s.1 + s.2.length ≤ a.size
  address : ∀ out : Memory, address target (out.storeAll stores) = some a

/-- The three families have numbers of their own, that of UNIX addresses on both sides. -/
structure Families.Agree (source target : Families) : Prop where
  unix : source.unix = target.unix
  unspec_ne : source.unspec ≠ source.unix ∧ source.unspec ≠ source.inet ∧
    source.unspec ≠ source.inet6
  source_ne : source.unix ≠ source.inet ∧ source.unix ≠ source.inet6 ∧
    source.inet ≠ source.inet6
  target_ne : target.unix ≠ target.inet ∧ target.unix ≠ target.inet6 ∧
    target.inet ≠ target.inet6

theorem agree_host : Families.Agree hostFamilies afFamily := by
  constructor <;> decide

theorem agree_bionic : Families.Agree afFamily hostFamilies := by
  constructor <;> decide

section Convert
variable {source target : Families} {what : String} {m : Memory}

/-- The family, and the fields that are stored behind it. -/
theorem storeAll_family (out : Memory) (v : UInt16) (stores : List Store)
    (h : ∀ s ∈ stores, 2 ≤ s.1) : (out.storeAll (Store.halfAt 0 v :: stores)).half 0 = v := by
  have hkeep (m : Memory) : (m.storeAll stores).half 0 = m.half 0 := by
    induction stores generalizing m with
    | nil => rfl
    | cons s stores ih =>
      rw [Memory.storeAll, List.foldl_cons]
      exact (ih (fun s hs => h s (.tail _ hs)) _).trans
        (half_store_of_disjoint (.inl (h s (.head _))))
  exact (hkeep _).trans (half_store_same _ _ _)

/-- A field is what was stored there, if nothing was stored over it. -/
theorem bytes_storeAll {off : Nat} {bs : List UInt8} (front back : List Store) (out : Memory)
    (h : ∀ s ∈ back, off + bs.length ≤ s.1) :
    (out.storeAll (front ++ (off, bs) :: back)).bytes off bs.length = bs := by
  have hkeep (m : Memory) : (m.storeAll back).bytes off bs.length = m.bytes off bs.length := by
    induction back generalizing m with
    | nil => rfl
    | cons s back ih =>
      rw [Memory.storeAll, List.foldl_cons]
      exact (ih (fun s hs => h s (.tail _ hs)) _).trans
        (bytes_store_of_disjoint (.inl (h s (.head _))))
  rw [Memory.storeAll, List.foldl_append, List.foldl_cons]
  exact (hkeep _).trans (bytes_store_same _ _ _)

/-- Each store begins behind the ones before it. -/
def InOrder (stores : List Store) : Prop :=
  stores.Pairwise fun s s' => s.1 + s.2.length ≤ s'.1

/-- The field of `n` bytes at `off` that is copied. -/
theorem bytes_copied {stores : List Store} (horder : InOrder stores) (m out : Memory) (off n : Nat)
    (h : (off, m.bytes off n) ∈ stores) :
    (out.storeAll stores).bytes off n = m.bytes off n := by
  obtain ⟨front, back, rfl⟩ := List.append_of_mem h
  have hback := (List.pairwise_cons.mp (List.pairwise_append.mp horder).2.1).1
  have hcopy := bytes_storeAll front back out hback
  rwa [bytes_length] at hcopy

section
variable (hagree : Families.Agree source target)
include hagree

theorem convert_unix (h : m.half 0 = source.unix) : convert source target what m =
    .ok [Store.halfAt 0 (m.half 0), (2, m.bytes 2 108)] := by
  have hunspec : m.half 0 ≠ source.unspec := h ▸ hagree.unspec_ne.1.symm
  rw [convert, if_neg hunspec, if_pos h]

theorem convert_inet (h : m.half 0 = source.inet) : convert source target what m =
    .ok [Store.halfAt 0 target.inet, (2, m.bytes 2 2), (4, m.bytes 4 4)] := by
  have hunspec : m.half 0 ≠ source.unspec := h ▸ hagree.unspec_ne.2.1.symm
  have hunix : m.half 0 ≠ source.unix := h ▸ hagree.source_ne.1.symm
  rw [convert, if_neg hunspec, if_neg hunix, if_pos h]

theorem convert_inet6 (h : m.half 0 = source.inet6) : convert source target what m =
    .ok [Store.halfAt 0 target.inet6, (2, m.bytes 2 2), (4, m.bytes 4 4), (8, m.bytes 8 16),
      (24, m.bytes 24 4)] := by
  have hunspec : m.half 0 ≠ source.unspec := h ▸ hagree.unspec_ne.2.2.symm
  have hunix : m.half 0 ≠ source.unix := h ▸ hagree.source_ne.2.1.symm
  have hinet : m.half 0 ≠ source.inet := h ▸ hagree.source_ne.2.2.symm
  rw [convert, if_neg hunspec, if_neg hunix, if_neg hinet, if_pos h]

/-- A conversion keeps what the address says, wherever it is stored. -/
theorem convert_address {a : Address} (h : address source m = some a) :
    ∃ stores, convert source target what m = .ok stores ∧ Makes target a stores := by
  obtain ⟨hunix, hunix6, hinet6⟩ := hagree.target_ne
  rw [address] at h
  split at h
  · next hfamily =>
    cases h
    refine ⟨_, convert_unix hagree hfamily, by simp, by simp [Address.size, Store.halfAt], fun out => ?_⟩
    have horder : InOrder [Store.halfAt 0 (m.half 0), (2, m.bytes 2 108)] := by
      simp [InOrder, Store.halfAt]
    rw [address, storeAll_family _ _ _ (by simp), if_pos (hfamily.trans hagree.unix),
      bytes_copied horder m out 2 108 (by simp)]
  · split at h
    · next hfamily =>
      cases h
      refine ⟨_, convert_inet hagree hfamily, by simp, by simp [Address.size, Store.halfAt], fun out => ?_⟩
      have horder : InOrder [Store.halfAt 0 target.inet, (2, m.bytes 2 2), (4, m.bytes 4 4)] := by
        simp [InOrder, Store.halfAt]
      rw [address, storeAll_family _ _ _ (by simp), if_neg hunix.symm, if_pos rfl,
        bytes_copied horder m out 2 2 (by simp), bytes_copied horder m out 4 4 (by simp)]
    · split at h
      · next hfamily =>
        cases h
        refine ⟨_, convert_inet6 hagree hfamily, by simp, by simp [Address.size, Store.halfAt], fun out => ?_⟩
        have horder : InOrder [Store.halfAt 0 target.inet6, (2, m.bytes 2 2), (4, m.bytes 4 4),
            (8, m.bytes 8 16), (24, m.bytes 24 4)] := by
          simp [InOrder, Store.halfAt]
        rw [address, storeAll_family _ _ _ (by simp), if_neg hunix6.symm, if_neg hinet6.symm,
          if_pos rfl, bytes_copied horder m out 2 2 (by simp), bytes_copied horder m out 4 4 (by simp),
          bytes_copied horder m out 8 16 (by simp), bytes_copied horder m out 24 4 (by simp)]
      · cases h

end

/-- The size of what is no address of the three families is an error. -/
theorem sizeOfAddress_some (source : Families) (what : String) (m : Memory) :
    sizeOfAddress source what (some m) =
      match address source m with
      | some a => .ok a.size
      | none => .error (what ++ toString (m.half 0).toNat) := by
  rw [sizeOfAddress, address]
  by_cases hunix : m.half 0 = source.unix
  · rw [if_pos hunix, if_pos hunix]
    rfl
  · by_cases hinet : m.half 0 = source.inet
    · rw [if_neg hunix, if_pos hinet, if_neg hunix, if_pos hinet]
      rfl
    · by_cases hinet6 : m.half 0 = source.inet6
      · rw [if_neg hunix, if_neg hinet, if_pos hinet6, if_neg hunix, if_neg hinet, if_pos hinet6]
        rfl
      · rw [if_neg hunix, if_neg hinet, if_neg hinet6, if_neg hunix, if_neg hinet, if_neg hinet6]

end Convert

end McpeLauncher.Network
