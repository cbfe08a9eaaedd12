import Mathlib.Logic.Function.Basic
import McpeLauncher.Lib.Runs

/-!
# Static initialisers

A mutex, condition variable or read-write lock of bionic that was initialised statically gets its
host object when a thread uses it first. The pointer is kept in the bionic object, and threads that
use the object at the same time race to store theirs. A step is a statement of one of the threads,
of which there may be any number, and each thread may use the object again when its call has
returned.
-/

namespace McpeLauncher.LibcShim

inductive Abi
  | lp64
  | ilp32
  deriving DecidableEq

abbrev Abi.bits : Abi → Nat
  | .lp64 => 64
  | .ilp32 => 32

/-- `uintptr_t` -/
abbrev Uintptr (abi : Abi) : Type := BitVec abi.bits

/-- The addresses below this one are not mapped: on the 32-bit systems, the first 64 KiB. -/
def Abi.minAddress : Abi → Nat
  | .lp64 => 1
  | .ilp32 => 0x10000

inductive HostMutexType
  | normal
  | recursive
  | errorcheck
  deriving DecidableEq

/-- An object of the host, and the static initialiser that stands for it. -/
inductive HostObject
  | mutex (type : HostMutexType)
  | cond
  | rwlock
  deriving DecidableEq

namespace HostObject

/-- `data[0]` of the static initialiser; the others are 0. -/
def initValue : HostObject → BitVec 32
  | .mutex .normal => 0
  | .mutex .recursive => 0x4000
  | .mutex .errorcheck => 0x8000
  | .cond => 0
  | .rwlock => 0

/-- The payload of the static initialiser, which is `data[0]` itself on the 32-bit systems. -/
def initPayload : (abi : Abi) → HostObject → Uintptr abi
  | .lp64, _ => 0#64
  | .ilp32, kind => kind.initValue

end HostObject

/-- `o->data[0]` of an object with the given payload. -/
def data0 : (abi : Abi) → HostObject → Uintptr abi → BitVec 32
  | .lp64, kind, _ => kind.initValue
  | .ilp32, _, payload => payload

/-- `get_payload_pointer` -/
def getPayloadPointer : (abi : Abi) → Uintptr abi → Uintptr abi
  | .lp64, (p : BitVec 64) => (p + 11#64) &&& -8#64
  | .ilp32, p => p

def isMutexInitialized : (abi : Abi) → Uintptr abi → Bool
  | .lp64, v => v != 0#64
  | .ilp32, (v : BitVec 32) => (v &&& ~~~(3#32 <<< 14)) != 0#32

def isCondInitialized (abi : Abi) (v : Uintptr abi) : Bool := v != 0

def isRwlockInitialized (abi : Abi) (v : Uintptr abi) : Bool := v != 0

/-- The test that `to_host` and the static initialiser make for this type of object. -/
def isInitialized (abi : Abi) : HostObject → Uintptr abi → Bool
  | .mutex _ => isMutexInitialized abi
  | .cond => isCondInitialized abi
  | .rwlock => isRwlockInitialized abi

/-- The mutex that `mutex_static_initializer` creates. -/
def createMutex (abi : Abi) (initValue : BitVec 32) : HostObject :=
  if initValue.signExtend abi.bits = 0x4000#_ then .mutex .recursive
  else if initValue.signExtend abi.bits = 0x8000#_ then .mutex .errorcheck
  else .mutex .normal

/-- The object that the static initialiser of this type creates. -/
def createObject (abi : Abi) : HostObject → BitVec 32 → HostObject
  | .mutex _, initValue => createMutex abi initValue
  | .cond, _ => .cond
  | .rwlock, _ => .rwlock

/-- Where a thread is in `to_host`, with its local variables. -/
inductive InitPc (abi : Abi)
  /-- Not in a call. -/
  | idle
  /-- `atomic_load_explicit` -/
  | load
  /-- `o->data[0]` is read for the call of `mutex_static_initializer`. -/
  | readInitValue (payload : Uintptr abi)
  /-- The static initialiser begins. -/
  | create (initValue : BitVec 32) (payload : Uintptr abi)
  /-- `atomic_compare_exchange_strong_explicit` -/
  | exchange (payload object : Uintptr abi)
  /-- `free`, after the exchange has found another payload. -/
  | discard (payload object : Uintptr abi)
  | leave (object : Uintptr abi)
  /-- `handle_runtime_error` -/
  | error

/-- The payload of the bionic object, the host objects that were allocated and not freed, the
threads, and what the calls have returned. -/
structure StaticObject (abi : Abi) (ι : Type) where
  payload : Uintptr abi
  heap : Uintptr abi → Option HostObject
  pcs : ι → InitPc abi
  returned : List (Uintptr abi)

namespace StaticObject

variable {abi : Abi} {ι : Type}

def init (kind : HostObject) : StaticObject abi ι where
  payload := kind.initPayload abi
  heap _ := none
  pcs _ := .idle
  returned := []

/-- What `malloc` may return. -/
structure Allocates (s : StaticObject abi ι) (a : Uintptr abi) : Prop where
  unused : s.heap a = none
  mapped : abi.minAddress ≤ a.toNat

instance (s : StaticObject abi ι) (a : Uintptr abi) : Decidable (s.Allocates a) :=
  decidable_of_iff (s.heap a = none ∧ abi.minAddress ≤ a.toNat)
    ⟨fun h => ⟨h.1, h.2⟩, fun h => ⟨h.1, h.2⟩⟩

variable [DecidableEq ι]

def goto (s : StaticObject abi ι) (i : ι) (pc : InitPc abi) : StaticObject abi ι :=
  { s with pcs := Function.update s.pcs i pc }

variable (kind : HostObject) (o : Uintptr abi)

/-- The next statement of a thread that uses the object at the address `o`, with the address that
`malloc` returns if it is called. -/
def step (s : StaticObject abi ι) : ι × Uintptr abi → Option (StaticObject abi ι)
  | (i, a) =>
    match s.pcs i with
    | .idle => some (s.goto i .load)
    | .load =>
      if isInitialized abi kind s.payload then some (s.goto i (.leave s.payload))
      else
        match kind with
        | .mutex _ => some (s.goto i (.readInitValue s.payload))
        | _ => some (s.goto i (.create 0 s.payload))
    | .readInitValue payload => some (s.goto i (.create (data0 abi kind s.payload) payload))
    | .create initValue payload =>
      if (getPayloadPointer abi o).toNat % (abi.bits / 8) ≠ 0 then some (s.goto i .error)
      else if s.Allocates a then
        some { s.goto i (.exchange payload a) with
          heap := Function.update s.heap a (some (createObject abi kind initValue)) }
      else none
    | .exchange payload object =>
      if s.payload = payload then some { s.goto i (.leave object) with payload := object }
      else some (s.goto i (.discard s.payload object))
    | .discard payload object =>
      some { s.goto i (if isInitialized abi kind payload then .leave payload else .error) with
        heap := Function.update s.heap object none }
    | .leave object => some { s.goto i .idle with returned := s.returned ++ [object] }
    | .error => none

end StaticObject

/-! ## Payloads and pointers -/

theorem isInitialized_initPayload (abi : Abi) (kind : HostObject) :
    isInitialized abi kind (kind.initPayload abi) = false := by
  cases abi with
  | lp64 => cases kind <;> rfl
  | ilp32 =>
    cases kind with
    | mutex type => cases type <;> rfl
    | cond => rfl
    | rwlock => rfl

/-- The bits of a mask above those of the two mutex types. -/
theorem mutexMask_ne_zero {v : BitVec 32} (h : 0x10000 ≤ v.toNat) :
    v &&& ~~~(3#32 <<< 14) ≠ 0#32 := by
  intro hzero
  have hand : v.toNat &&& 0xFFFF3FFF = 0 := congrArg BitVec.toNat hzero
  have hshift : (v.toNat &&& 0xFFFF3FFF) >>> 16 = v.toNat >>> 16 &&& (2 ^ 16 - 1) :=
    Nat.shiftRight_and_distrib
  rw [hand, Nat.and_two_pow_sub_one_eq_mod, Nat.shiftRight_eq_div_pow,
    Nat.shiftRight_eq_div_pow] at hshift
  have hlt : v.toNat < 2 ^ 32 := v.isLt
  omega

theorem isInitialized_of_mapped {abi : Abi} {v : Uintptr abi} (h : abi.minAddress ≤ v.toNat)
    (kind : HostObject) : isInitialized abi kind v = true := by
  have hpos : 0 < abi.minAddress := by cases abi <;> decide
  have hne : v ≠ 0 := by
    rintro rfl
    exact absurd (Nat.lt_of_lt_of_le hpos h) (by simp)
  cases kind with
  | mutex type =>
    cases abi with
    | lp64 => exact bne_iff_ne.mpr hne
    | ilp32 => exact bne_iff_ne.mpr (mutexMask_ne_zero h)
  | cond => exact bne_iff_ne.mpr hne
  | rwlock => exact bne_iff_ne.mpr hne

theorem data0_initPayload (abi : Abi) (kind : HostObject) :
    data0 abi kind (kind.initPayload abi) = kind.initValue := by
  cases abi <;> rfl

/-- The object has the type that the static initialiser stands for. -/
theorem createObject_initValue (abi : Abi) (kind : HostObject) :
    createObject abi kind kind.initValue = kind := by
  cases kind with
  | mutex type => cases abi <;> cases type <;> decide
  | cond => rfl
  | rwlock => rfl

theorem getPayloadPointer_aligned {abi : Abi} {o : Uintptr abi} (h : o.toNat % 4 = 0) :
    (getPayloadPointer abi o).toNat % (abi.bits / 8) = 0 := by
  cases abi with
  | lp64 =>
    have hand : (getPayloadPointer .lp64 o).toNat = BitVec.toNat (o + 11) &&& (-8#64).toNat :=
      BitVec.toNat_and ..
    have hmask : (-8#64).toNat &&& (2 ^ 3 - 1) = 0 := by decide
    calc (getPayloadPointer .lp64 o).toNat % 2 ^ 3
        = (getPayloadPointer .lp64 o).toNat &&& (2 ^ 3 - 1) :=
          (Nat.and_two_pow_sub_one_eq_mod ..).symm
      _ = BitVec.toNat (o + 11) &&& ((-8#64).toNat &&& (2 ^ 3 - 1)) := by rw [hand, Nat.and_assoc]
      _ = 0 := by rw [hmask, Nat.and_zero]
  | ilp32 => exact h

/-! ## The invariant -/

/-- The object that a thread has created and nobody else knows of. -/
def InitPc.owned {abi : Abi} : InitPc abi → Option (Uintptr abi)
  | .exchange _ object => some object
  | .discard _ object => some object
  | _ => none

namespace StaticObject

variable {abi : Abi} {ι : Type}

/-- The payload is a pointer to an object of the right type. -/
structure Stored (kind : HostObject) (s : StaticObject abi ι) : Prop where
  initialized : isInitialized abi kind s.payload = true
  live : s.heap s.payload = some kind

/-- What a thread knows: the payload it has loaded was the one of the static initialiser, and what
it has created since is of the right type if nobody was faster. What a thread returns is stored. -/
def PcOk (kind : HostObject) (s : StaticObject abi ι) : InitPc abi → Prop
  | .idle => True
  | .load => True
  | .readInitValue payload => payload = kind.initPayload abi
  | .create initValue payload => payload = kind.initPayload abi ∧
    (s.payload = kind.initPayload abi → createObject abi kind initValue = kind)
  | .exchange payload object => payload = kind.initPayload abi ∧
    isInitialized abi kind object = true ∧
      (s.payload = kind.initPayload abi → s.heap object = some kind)
  | .discard payload _ => payload = s.payload ∧ s.Stored kind
  | .leave object => object = s.payload ∧ s.Stored kind
  | .error => False

/-- The payload is that of the static initialiser or what all calls have returned, and the objects
of the racing threads are different ones. -/
structure Inv (kind : HostObject) (s : StaticObject abi ι) : Prop where
  payload : s.payload = kind.initPayload abi ∨ s.Stored kind
  returned : ∀ a ∈ s.returned, a = s.payload ∧ s.Stored kind
  pcs : ∀ i, s.PcOk kind (s.pcs i)
  owned : ∀ i a, (s.pcs i).owned = some a → s.heap a ≠ none ∧ a ≠ s.payload
  distinct : ∀ i j a, (s.pcs i).owned = some a → (s.pcs j).owned = some a → i = j

variable {kind : HostObject} {s s' : StaticObject abi ι}

theorem inv_init : Inv kind (init kind : StaticObject abi ι) where
  payload := .inl rfl
  returned _ h := nomatch h
  pcs _ := trivial
  owned _ _ h := nomatch h
  distinct _ _ _ h := nomatch h

theorem Stored.ne_initPayload (h : s.Stored kind) : s.payload ≠ kind.initPayload abi := by
  intro heq
  have hinit := isInitialized_initPayload abi kind
  rw [← heq, h.initialized] at hinit
  exact nomatch hinit

/-- What a thread knows stays true if the payload and the objects that it knows are left alone. -/
theorem PcOk.frame {pc : InitPc abi} (h : s.PcOk kind pc) (hpayload : s'.payload = s.payload)
    (hstored : s.Stored kind → s'.Stored kind)
    (howned : ∀ a, pc.owned = some a → s'.heap a = s.heap a) : s'.PcOk kind pc := by
  cases pc with
  | idle => trivial
  | load => trivial
  | readInitValue payload => exact h
  | create initValue payload => exact ⟨h.1, fun heq => h.2 (hpayload ▸ heq)⟩
  | exchange payload object =>
    refine ⟨h.1, h.2.1, fun heq => ?_⟩
    rw [howned object rfl]
    exact h.2.2 (hpayload ▸ heq)
  | discard payload object => exact ⟨h.1.trans hpayload.symm, hstored h.2⟩
  | leave object => exact ⟨h.1.trans hpayload.symm, hstored h.2⟩
  | error => exact h

variable [DecidableEq ι] {i : ι} {pc : InitPc abi}

theorem goto_self : (s.goto i pc).pcs i = pc := Function.update_self ..

theorem goto_of_ne {j : ι} (h : j ≠ i) : (s.goto i pc).pcs j = s.pcs j :=
  Function.update_of_ne h ..

theorem forall_goto {P : ι → InitPc abi → Prop} (hi : P i pc) (h : ∀ j, j ≠ i → P j (s.pcs j))
    (j : ι) :
    P j ((s.goto i pc).pcs j) :=
  (Function.forall_update_iff s.pcs P).mpr ⟨hi, h⟩ j

/-- The objects stay different ones if the one of the thread that moves, if it has one, is its
own. -/
theorem Inv.distinct_goto (h : Inv kind s)
    (hpc : ∀ a, pc.owned = some a → ∀ j, j ≠ i → (s.pcs j).owned ≠ some a)
    (j k : ι) (a : Uintptr abi)
    (hj : ((s.goto i pc).pcs j).owned = some a) (hk : ((s.goto i pc).pcs k).owned = some a) :
    j = k := by
  by_cases hji : j = i <;> by_cases hki : k = i
  · exact hji.trans hki.symm
  · rw [hji, goto_self] at hj
    rw [goto_of_ne hki] at hk
    exact absurd hk (hpc a hj k hki)
  · rw [hki, goto_self] at hk
    rw [goto_of_ne hji] at hj
    exact absurd hj (hpc a hk j hji)
  · rw [goto_of_ne hji] at hj
    rw [goto_of_ne hki] at hk
    exact h.distinct j k a hj hk

/-- A statement that changes local variables only. -/
theorem Inv.goto (h : Inv kind s) (hok : s.PcOk kind pc)
    (howned : ∀ a, pc.owned = some a → (s.pcs i).owned = some a) : Inv kind (s.goto i pc) where
  payload := h.payload.imp_right fun hs => ⟨hs.1, hs.2⟩
  returned a ha := (h.returned a ha).imp_right fun hs => ⟨hs.1, hs.2⟩
  pcs := by
    have hframe : ∀ pc', s.PcOk kind pc' → (s.goto i pc).PcOk kind pc' :=
      fun pc' hpc' => hpc'.frame rfl (fun hs => ⟨hs.1, hs.2⟩) fun _ _ => rfl
    exact forall_goto (P := fun _ pc' => (s.goto i pc).PcOk kind pc') (hframe pc hok)
      fun j _ => hframe _ (h.pcs j)
  owned := by
    refine forall_goto (P := fun _ pc' => ∀ a, pc'.owned = some a → s.heap a ≠ none ∧ a ≠ s.payload)
      ?_ ?_
    · exact fun a ha => h.owned i a (howned a ha)
    · exact fun j _ => h.owned j
  distinct := h.distinct_goto fun a ha j hj hja => hj (h.distinct j i a hja (howned a ha))

/-- `malloc` returns an address that no thread knows. -/
theorem Inv.allocate (h : Inv kind s) {a : Uintptr abi} (ha : s.Allocates a) {initValue : BitVec 32}
    {payload : Uintptr abi} (hok : s.PcOk kind (.create initValue payload)) :
    Inv kind { s.goto i (.exchange payload a) with
      heap := Function.update s.heap a (some (createObject abi kind initValue)) } := by
  have hheap : ∀ b, s.heap b ≠ none →
      Function.update s.heap a (some (createObject abi kind initValue)) b = s.heap b := by
    intro b hb
    have hba : b ≠ a := fun heq => hb (heq ▸ ha.unused)
    exact Function.update_of_ne hba ..
  have hstored : s.Stored kind → Stored kind { s.goto i (.exchange payload a) with
      heap := Function.update s.heap a (some (createObject abi kind initValue)) } := by
    intro hs
    refine ⟨hs.initialized, ?_⟩
    show Function.update s.heap a _ s.payload = some kind
    rw [hheap _ (by rw [hs.live]; exact Option.some_ne_none kind), hs.live]
  have hinit : isInitialized abi kind a = true := isInitialized_of_mapped ha.mapped kind
  have hne : a ≠ s.payload := by
    rintro rfl
    rcases h.payload with hp | hp
    · rw [hp, isInitialized_initPayload] at hinit
      exact nomatch hinit
    · exact nomatch hp.live.symm.trans ha.unused
  constructor
  case payload => exact h.payload.imp_right hstored
  case returned => exact fun b hb => (h.returned b hb).imp_right hstored
  case pcs =>
    refine forall_goto (P := fun _ pc => PcOk kind _ pc) ?_ fun j _ => ?_
    · refine ⟨hok.1, hinit, fun heq => ?_⟩
      show Function.update s.heap a _ a = some kind
      rw [Function.update_self, hok.2 heq]
    · exact (h.pcs j).frame rfl hstored fun b hb => hheap b (h.owned j b hb).1
  case owned =>
    refine forall_goto (P := fun _ pc => ∀ b, pc.owned = some b →
      Function.update s.heap a _ b ≠ none ∧ b ≠ s.payload) ?_ fun j _ b hb => ?_
    · intro b hb
      cases hb
      rw [Function.update_self]
      exact ⟨Option.some_ne_none _, hne⟩
    · rw [hheap b (h.owned j b hb).1]
      exact h.owned j b hb
  case distinct =>
    refine h.distinct_goto fun b hb j _ hj => ?_
    cases hb
    exact (h.owned j a hj).1 ha.unused

/-- The first exchange stores the object of its thread; the others have seen the same payload
before. -/
theorem Inv.exchange (h : Inv kind s) {payload object : Uintptr abi}
    (hpc : s.pcs i = .exchange payload object) (heq : s.payload = payload) :
    Inv kind { s.goto i (.leave object) with payload := object } := by
  have hok := h.pcs i
  rw [hpc] at hok
  have hfresh : s.payload = kind.initPayload abi := heq.trans hok.1
  have hstored : Stored kind { s.goto i (.leave object) with payload := object } :=
    ⟨hok.2.1, hok.2.2 hfresh⟩
  have hnone : ¬ s.Stored kind := fun hs => hs.ne_initPayload hfresh
  have hobject : (s.pcs i).owned = some object := congrArg InitPc.owned hpc
  constructor
  case payload => exact .inr hstored
  case returned => exact fun a ha => absurd (h.returned a ha).2 hnone
  case pcs =>
    refine forall_goto (P := fun _ pc => PcOk kind _ pc) ⟨rfl, hstored⟩ fun j _ => ?_
    have hj := h.pcs j
    generalize s.pcs j = pc at hj
    cases pc with
    | idle => trivial
    | load => trivial
    | readInitValue payload => exact hj
    | create initValue payload => exact ⟨hj.1, fun hinit => absurd hinit hstored.ne_initPayload⟩
    | exchange payload other => exact
      ⟨hj.1, hj.2.1, fun hinit => absurd hinit hstored.ne_initPayload⟩
    | discard payload other => exact absurd hj.2 hnone
    | leave other => exact absurd hj.2 hnone
    | error => exact hj
  case owned =>
    refine forall_goto (P := fun _ pc => ∀ a, pc.owned = some a → s.heap a ≠ none ∧ a ≠ object)
      ?_ ?_
    · exact fun a ha => nomatch ha
    · intro j hj a ha
      refine ⟨(h.owned j a ha).1, fun haobject => hj ?_⟩
      exact h.distinct j i a ha (haobject ▸ hobject)
  case distinct => exact h.distinct_goto fun a ha => nomatch ha

/-- A thread that was late frees its own object, and takes the one that is stored. -/
theorem Inv.discard (h : Inv kind s) {payload object : Uintptr abi}
    (hpc : s.pcs i = .discard payload object) :
    Inv kind { s.goto i (.leave payload) with heap := Function.update s.heap object none } := by
  have hok := h.pcs i
  rw [hpc] at hok
  have hobject : (s.pcs i).owned = some object := congrArg InitPc.owned hpc
  have hheap : ∀ b, b ≠ object → Function.update s.heap object none b = s.heap b :=
    fun b hb => Function.update_of_ne hb ..
  have hother : ∀ j, j ≠ i → ∀ b, (s.pcs j).owned = some b → b ≠ object :=
    fun j hj b hb heq => hj (h.distinct j i b hb (heq ▸ hobject))
  have hstored : Stored kind { s.goto i (.leave payload) with
      heap := Function.update s.heap object none } := by
    refine ⟨hok.2.initialized, ?_⟩
    show Function.update s.heap object none s.payload = some kind
    rw [hheap _ (h.owned i object hobject).2.symm, hok.2.live]
  constructor
  case payload => exact .inr hstored
  case returned => exact fun a ha => ⟨(h.returned a ha).1, hstored⟩
  case pcs =>
    refine forall_goto (P := fun _ pc => PcOk kind _ pc) ⟨hok.1, hstored⟩ fun j hj => ?_
    exact (h.pcs j).frame rfl (fun _ => hstored) fun b hb => hheap b (hother j hj b hb)
  case owned =>
    refine forall_goto (P := fun _ pc => ∀ b, pc.owned = some b →
      Function.update s.heap object none b ≠ none ∧ b ≠ s.payload) ?_ fun j hj b hb => ?_
    · exact fun b hb => nomatch hb
    · rw [hheap b (hother j hj b hb)]
      exact h.owned j b hb
  case distinct => exact h.distinct_goto fun a ha => nomatch ha

theorem Inv.leave (h : Inv kind s) {object : Uintptr abi} (hpc : s.pcs i = .leave object) :
    Inv kind { s.goto i .idle with returned := s.returned ++ [object] } := by
  have hok := h.pcs i
  rw [hpc] at hok
  have hgoto : Inv kind (s.goto i .idle) := h.goto trivial fun a ha => nomatch ha
  constructor
  case payload => exact h.payload.imp_right fun hs => ⟨hs.1, hs.2⟩
  case returned =>
    intro a ha
    rcases List.mem_append.mp ha with ha | ha
    · exact (h.returned a ha).imp_right fun hs => ⟨hs.1, hs.2⟩
    · rw [List.mem_singleton.mp ha]
      exact ⟨hok.1, hok.2.1, hok.2.2⟩
  case pcs => exact fun j => (hgoto.pcs j).frame rfl (fun hs => ⟨hs.1, hs.2⟩) fun _ _ => rfl
  case owned => exact hgoto.owned
  case distinct => exact hgoto.distinct

/-! ## Runs -/

variable {o : Uintptr abi}

/-- The load finds the object of an earlier call, or the initializer, from which a mutex is created
with the type that is in it. -/
theorem Inv.load (h : Inv kind s) {a : Uintptr abi} (hpc : s.pcs i = .load)
    (hstep : s.step kind o (i, a) = some s') : Inv kind s' := by
  simp only [StaticObject.step, hpc] at hstep
  split at hstep
  next hinit =>
    cases hstep
    have hstored : s.Stored kind := by
      refine h.payload.resolve_left fun heq => ?_
      rw [heq, isInitialized_initPayload] at hinit
      exact nomatch hinit
    exact h.goto ⟨rfl, hstored⟩ fun a ha => nomatch ha
  next hinit =>
    have hpayload : s.payload = kind.initPayload abi :=
      h.payload.resolve_right fun hs => hinit hs.initialized
    split at hstep
    next =>
      cases hstep
      exact h.goto hpayload fun a ha => nomatch ha
    next hmutex =>
      cases hstep
      refine h.goto ⟨hpayload, fun _ => ?_⟩ fun a ha => nomatch ha
      cases kind with
      | mutex type => exact absurd rfl (hmutex type)
      | cond => rfl
      | rwlock => rfl

theorem Inv.step (ho : o.toNat % 4 = 0) (h : Inv kind s) {a : ι × Uintptr abi}
    (hstep : s.step kind o a = some s') : Inv kind s' := by
  obtain ⟨i, a⟩ := a
  have hok := h.pcs i
  cases hpc : s.pcs i with
  | idle =>
    simp only [StaticObject.step, hpc] at hstep
    cases hstep
    exact h.goto trivial fun a ha => nomatch ha
  | load => exact h.load hpc hstep
  | readInitValue payload =>
    simp only [StaticObject.step, hpc] at hstep
    cases hstep
    rw [hpc] at hok
    refine h.goto ⟨hok, fun heq => ?_⟩ fun a ha => nomatch ha
    rw [heq, data0_initPayload, createObject_initValue]
  | create initValue payload =>
    rw [hpc] at hok
    simp only [StaticObject.step, hpc, getPayloadPointer_aligned ho, ne_eq, not_true,
      if_false] at hstep
    split at hstep
    next ha =>
      cases hstep
      exact h.allocate ha hok
    next => cases hstep
  | exchange payload object =>
    simp only [StaticObject.step, hpc] at hstep
    rw [hpc] at hok
    split at hstep
    next heq =>
      cases hstep
      exact h.exchange hpc heq
    next hne =>
      cases hstep
      refine h.goto ⟨rfl, ?_⟩ fun a ha => ?_
      · exact h.payload.resolve_left fun heq => hne (heq.trans hok.1.symm)
      · rw [hpc]
        exact ha
  | discard payload object =>
    simp only [StaticObject.step, hpc] at hstep
    rw [hpc] at hok
    rw [if_pos (hok.1 ▸ hok.2.initialized)] at hstep
    cases hstep
    exact h.discard hpc
  | leave object =>
    simp only [StaticObject.step, hpc] at hstep
    cases hstep
    exact h.leave hpc
  | error =>
    rw [hpc] at hok
    exact hok.elim

/-- How many statements of a call are left, at most. -/
def remaining : InitPc abi → Nat
  | .idle => 0
  | .load => 6
  | .readInitValue _ => 5
  | .create .. => 4
  | .exchange .. => 3
  | .discard .. => 2
  | .leave _ => 1
  | .error => 0

/-- A thread is never stopped by the others: if there is memory, its next statement is defined, and
brings it closer to the end of the call. -/
theorem Inv.progress (ho : o.toNat % 4 = 0) (h : Inv kind s) {a : Uintptr abi} (ha : s.Allocates a)
    (hcall : s.pcs i ≠ .idle) :
    ∃ s', s.step kind o (i, a) = some s' ∧ remaining (s'.pcs i) < remaining (s.pcs i) := by
  have hok := h.pcs i
  have hgoto : ∀ pc, remaining pc < remaining (s.pcs i) →
      remaining ((s.goto i pc).pcs i) < remaining (s.pcs i) := by
    intro pc hlt
    rwa [goto_self]
  cases hpc : s.pcs i with
  | idle => exact absurd hpc hcall
  | load =>
    rw [hpc] at hgoto
    simp only [StaticObject.step, hpc]
    split
    next => exact ⟨_, rfl, hgoto (.leave s.payload) (by simp [remaining])⟩
    next =>
      split
      next => exact ⟨_, rfl, hgoto (.readInitValue s.payload) (by simp [remaining])⟩
      next => exact ⟨_, rfl, hgoto (.create 0 s.payload) (by simp [remaining])⟩
  | readInitValue payload =>
    rw [hpc] at hgoto
    simp only [StaticObject.step, hpc]
    exact ⟨_, rfl, hgoto (.create _ payload) (by simp [remaining])⟩
  | create initValue payload =>
    rw [hpc] at hgoto
    simp only [StaticObject.step, hpc, getPayloadPointer_aligned ho, ne_eq, not_true, if_false,
      if_pos ha]
    exact ⟨_, rfl, hgoto (.exchange payload a) (by simp [remaining])⟩
  | exchange payload object =>
    rw [hpc] at hgoto
    simp only [StaticObject.step, hpc]
    split
    next => exact ⟨_, rfl, hgoto (.leave object) (by simp [remaining])⟩
    next => exact ⟨_, rfl, hgoto (.discard s.payload object) (by simp [remaining])⟩
  | discard payload object =>
    rw [hpc] at hgoto hok
    simp only [StaticObject.step, hpc, if_pos (hok.1 ▸ hok.2.initialized)]
    exact ⟨_, rfl, hgoto (.leave payload) (by simp [remaining])⟩
  | leave object =>
    rw [hpc] at hgoto
    simp only [StaticObject.step, hpc]
    exact ⟨_, rfl, hgoto .idle (by simp [remaining])⟩
  | error =>
    rw [hpc] at hok
    exact hok.elim

/-- What has been returned is not forgotten. -/
theorem returned_step {a : ι × Uintptr abi} (hstep : s.step kind o a = some s') {r : Uintptr abi}
    (hr : r ∈ s.returned) : r ∈ s'.returned := by
  obtain ⟨i, a⟩ := a
  simp only [StaticObject.step] at hstep
  split at hstep
  next => cases hstep; exact hr
  next =>
    split at hstep
    next => cases hstep; exact hr
    next => split at hstep <;> (cases hstep; exact hr)
  next => cases hstep; exact hr
  next =>
    split at hstep
    next => cases hstep; exact hr
    next =>
      split at hstep
      next => cases hstep; exact hr
      next => cases hstep
  next => split at hstep <;> (cases hstep; exact hr)
  next => cases hstep; exact hr
  next => cases hstep; exact List.mem_append_left _ hr
  next => cases hstep

/-- **One object for all threads.** Whatever calls have returned is one and the same object, which
has the type that the static initialiser stands for, and it stays stored and is not freed. No thread
reaches an error, and each call returns after at most six statements of its thread. -/
theorem one_object (kind : HostObject) (o : Uintptr abi) (ho : o.toNat % 4 = 0)
    (as bs : List (ι × Uintptr abi)) (h : Runs.run (step kind o) (init kind) as = some s)
    (h' : Runs.run (step kind o) s bs = some s') :
    (∀ a ∈ s.returned, ∀ b ∈ s'.returned, a = b) ∧
    (∀ a ∈ s.returned, s'.payload = a ∧ s'.heap a = some kind) ∧
    (∀ i, s'.pcs i ≠ .error) ∧
    ∀ i a, s'.Allocates a → s'.pcs i ≠ .idle →
      ∃ s'', s'.step kind o (i, a) = some s'' ∧ remaining (s''.pcs i) < remaining (s'.pcs i) := by
  have hinv : Inv kind s := Runs.inv_of_run (fun s a s' hs => hs.step ho) inv_init h
  have hinv' : Inv kind s' := Runs.inv_of_run (fun s a s' hs => hs.step ho) hinv h'
  have hreturned : ∀ a ∈ s.returned, a ∈ s'.returned := fun a ha =>
    Runs.inv_of_run (I := fun s => a ∈ s.returned) (fun s _ s' hs hstep => returned_step hstep hs)
      ha h'
  have hstored : ∀ a ∈ s.returned, s'.payload = a ∧ s'.heap a = some kind := by
    intro a ha
    obtain ⟨heq, hstored⟩ := hinv'.returned a (hreturned a ha)
    exact ⟨heq.symm, heq ▸ hstored.live⟩
  refine ⟨?_, hstored, ?_, ?_⟩
  · exact fun a ha b hb => (hstored a ha).1.symm.trans (hinv'.returned b hb).1.symm
  · intro i hi
    have hok := hinv'.pcs i
    rw [hi] at hok
    exact hok
  · exact fun i a ha hi => hinv'.progress ho ha hi

/-- Two threads have both created a recursive mutex, and the second one is faster. -/
def race : List (Bool × Uintptr .ilp32) :=
  [(true, 0), (false, 0), (true, 0), (false, 0), (true, 0), (false, 0), (true, 0x10000#32),
    (false, 0x20000#32), (false, 0), (true, 0), (true, 0), (true, 0), (false, 0)]

theorem one_object_race :
    ∃ s, Runs.run (step (.mutex .recursive) 0x8000#32) (init (.mutex .recursive)) race = some s ∧
      s.returned = [0x20000#32, 0x20000#32] ∧ s.heap 0x10000#32 = none ∧
      ∀ a ∈ s.returned, s.payload = a ∧ s.heap a = some (.mutex .recursive) := by
  refine ⟨_, rfl, by decide, by decide, ?_⟩
  exact (one_object (.mutex .recursive) 0x8000#32 (by decide) race [] rfl rfl).2.1

end StaticObject

end McpeLauncher.LibcShim
