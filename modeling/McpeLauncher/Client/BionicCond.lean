import Mathlib.Algebra.Group.Nat.Defs
import Mathlib.Data.List.Perm.Subperm
import Mathlib.Logic.Function.Basic
import McpeLauncher.Lib.Runs

/-!
# Condition variables of bionic

`libPlayFabMultiplayer.so` brings a bionic condition variable, for which the launcher has shims: the
state is one word with two flags and a counter of the signals, and the threads wait on it with a
futex. A step is a statement of one of the threads, of which there may be any number, or of the
kernel. The mutex is not part of the model, so a thread gets it whenever it asks for it.
-/

namespace McpeLauncher.Client

def futexWaitOp : BitVec 32 := 0

def futexWakeOp : BitVec 32 := 1

def futexPrivateFlag : BitVec 32 := 128

def intMax : Nat := 2147483647

/-- `ETIMEDOUT` on Android. -/
def bionicTimedOut : Int := 110

/-- `futex_op` of a thread that has loaded `oldState`. -/
def futexOp (op oldState : BitVec 32) : BitVec 32 :=
  if oldState &&& 1 = 0 then op ||| futexPrivateFlag else op

structure Timespec where
  tvSec : Int
  tvNsec : Int

namespace Timespec

/-- `rel` in `bionic_pthread_cond_timedwait` -/
def relative (abstime now : Timespec) : Timespec :=
  if abstime.tvNsec - now.tvNsec < 0 then
    ⟨abstime.tvSec - now.tvSec - 1, abstime.tvNsec - now.tvNsec + 1000000000⟩
  else ⟨abstime.tvSec - now.tvSec, abstime.tvNsec - now.tvNsec⟩

/-- A timeout that the kernel does not refuse. -/
def Valid (t : Timespec) : Prop := 0 ≤ t.tvSec ∧ 0 ≤ t.tvNsec ∧ t.tvNsec < 1000000000
  deriving Decidable

end Timespec

/-- The local variables of a thread that waits; `loaded` is how often the state was incremented
before the thread has loaded it. -/
structure Waiter where
  oldState : BitVec 32
  futexOp : BitVec 32
  rel : Option Timespec
  loaded : Nat

/-- Where a thread is, with its local variables. -/
inductive CondPc
  /-- Not in a call. -/
  | idle
  /-- `__atomic_load_n`, with `abstime` in `bionic_pthread_cond_timedwait`. -/
  | waitLoad (abstime : Option Timespec)
  /-- `clock_gettime` and the test of the remaining time -/
  | clock (w : Waiter) (abstime : Timespec)
  /-- `pthread_mutex_unlock` -/
  | unlock (w : Waiter)
  | futexWait (w : Waiter)
  /-- In the kernel. -/
  | asleep (w : Waiter)
  /-- `pthread_mutex_lock` -/
  | relock (result : Int)
  /-- `__atomic_load_n` in `bionic_pthread_cond_signal` (`nr` is 1) or
  `bionic_pthread_cond_broadcast` -/
  | wakeLoad (nr : Nat)
  | fetchAdd (nr : Nat) (op : BitVec 32)
  /-- `n` is how often the state was incremented, this call included. -/
  | futexWake (nr : Nat) (op : BitVec 32) (n : Nat)
  | leave (result : Int)

inductive CondCall
  | wait
  | timedwait (abstime : Timespec)
  | signal
  | broadcast

/-- The state word, how often it was incremented, the threads, those that the kernel keeps asleep,
and how many calls of `bionic_pthread_cond_signal` and `bionic_pthread_cond_broadcast` there
were. -/
structure BionicCond (ι : Type) where
  state : BitVec 32
  increments : Nat
  pcs : ι → CondPc
  queue : List ι
  calls : Nat

namespace BionicCond

variable {ι : Type}

def init (state : BitVec 32) : BionicCond ι where
  state
  increments := 0
  pcs _ := .idle
  queue := []
  calls := 0

/-- Whether the kernel finds a thread when a wake is made with this operation. -/
def sleepsOn (op : BitVec 32) : CondPc → Bool
  | .asleep w => w.futexOp &&& futexPrivateFlag == op &&& futexPrivateFlag
  | _ => false

def sleepers (s : BionicCond ι) (op : BitVec 32) : List ι :=
  s.queue.filter fun i => sleepsOn op (s.pcs i)

/-- The calls, the statements, and what the kernel does. -/
inductive Action (ι : Type)
  | call (i : ι) (call : CondCall)
  | next (i : ι)
  | clock (i : ι) (now : Timespec)
  | wake (i : ι) (woken : List ι)
  | timeout (i : ι)
  /-- A signal handler, or no reason at all. -/
  | interrupt (i : ι)

variable [DecidableEq ι]

/-- `FUTEX_WAKE` wakes `nr` threads or all that there are, and `INT_MAX` wakes all. -/
def wakes (s : BionicCond ι) (op : BitVec 32) (nr : Nat) (woken : List ι) : Bool :=
  decide woken.Nodup && woken.all (s.sleepers op).contains &&
    woken.length == if nr = intMax then (s.sleepers op).length else min nr (s.sleepers op).length

def goto (s : BionicCond ι) (i : ι) (pc : CondPc) : BionicCond ι :=
  { s with pcs := Function.update s.pcs i pc }

/-- The kernel ends the sleep of a thread. -/
def getUp (s : BionicCond ι) (i : ι) (result : Int) : BionicCond ι :=
  { s.goto i (.relock result) with queue := s.queue.filter (· ≠ i) }

/-- The thread `i` has woken these threads. -/
def wakeUp (s : BionicCond ι) (i : ι) (woken : List ι) : BionicCond ι :=
  { s with
    pcs := fun j => if j = i then .leave 0 else if woken.contains j then .relock 0 else s.pcs j,
    queue := s.queue.filter (!woken.contains ·) }

def step (s : BionicCond ι) : Action ι → Option (BionicCond ι)
  | .call i call =>
    match s.pcs i, call with
    | .idle, .wait => some (s.goto i (.waitLoad none))
    | .idle, .timedwait abstime => some (s.goto i (.waitLoad (some abstime)))
    | .idle, .signal => some { s.goto i (.wakeLoad 1) with calls := s.calls + 1 }
    | .idle, .broadcast => some { s.goto i (.wakeLoad intMax) with calls := s.calls + 1 }
    | _, _ => none
  | .next i =>
    match s.pcs i with
    | .waitLoad none =>
      some (s.goto i (.unlock ⟨s.state, futexOp futexWaitOp s.state, none, s.increments⟩))
    | .waitLoad (some abstime) =>
      some (s.goto i (.clock ⟨s.state, futexOp futexWaitOp s.state, none, s.increments⟩ abstime))
    | .unlock w => some (s.goto i (.futexWait w))
    | .futexWait w =>
      if w.rel.any (!decide ·.Valid) then some (s.goto i (.relock 0))
      else if s.state = w.oldState then some { s.goto i (.asleep w) with queue := s.queue ++ [i] }
      else some (s.goto i (.relock 0))
    | .relock result => some (s.goto i (.leave result))
    | .wakeLoad nr => some (s.goto i (.fetchAdd nr (futexOp futexWakeOp s.state)))
    | .fetchAdd nr op =>
      some { s.goto i (.futexWake nr op (s.increments + 1)) with
        state := s.state + 4, increments := s.increments + 1 }
    | .leave _ => some (s.goto i .idle)
    | _ => none
  | .clock i now =>
    match s.pcs i with
    | .clock w abstime =>
      if (abstime.relative now).tvSec < 0 then some (s.goto i (.leave bionicTimedOut))
      else some (s.goto i (.unlock { w with rel := some (abstime.relative now) }))
    | _ => none
  | .wake i woken =>
    match s.pcs i with
    | .futexWake nr op _ => if s.wakes op nr woken then some (s.wakeUp i woken) else none
    | _ => none
  | .timeout i =>
    match s.pcs i with
    | .asleep w => if w.rel.isSome then some (s.getUp i bionicTimedOut) else none
    | _ => none
  | .interrupt i =>
    match s.pcs i with
    | .asleep _ => some (s.getUp i 0)
    | _ => none

end BionicCond

/-! ## The state word -/

/-- The state after so many increments. -/
def counter (state : BitVec 32) (n : Nat) : BitVec 32 := state + BitVec.ofNat 32 (4 * n)

section counter

variable (state : BitVec 32)

theorem counter_zero : counter state 0 = state := BitVec.add_zero state

theorem counter_succ (n : Nat) : counter state n + 4 = counter state (n + 1) := by
  rw [counter, counter, BitVec.add_assoc, Nat.mul_succ, BitVec.ofNat_add]
  rfl

theorem toNat_counter (n : Nat) : (counter state n).toNat = (state.toNat + 4 * n) % 2 ^ 32 := by
  rw [counter, BitVec.toNat_add, BitVec.toNat_ofNat, Nat.add_mod_mod]

/-- The counter does not come back to a value that it had. -/
theorem counter_inj {m n : Nat} (hm : m < 2 ^ 30) (hn : n < 2 ^ 30)
    (h : counter state m = counter state n) : m = n := by
  have hnat := congrArg BitVec.toNat h
  rw [toNat_counter, toNat_counter] at hnat
  have hlt : state.toNat < 2 ^ 32 := state.isLt
  omega

/-- The lowest two bits are flags, and are not changed. -/
theorem counter_flags (n : Nat) : counter state n &&& 3 = state &&& 3 := by
  apply BitVec.eq_of_toNat_eq
  have hand : ∀ x : BitVec 32, (x &&& 3).toNat = x.toNat % 2 ^ 2 :=
    fun x => Nat.and_two_pow_sub_one_eq_mod x.toNat 2
  rw [hand, hand, toNat_counter]
  omega

theorem counter_shared (n : Nat) : counter state n &&& 1 = state &&& 1 := by
  have hone : ∀ x : BitVec 32, x &&& 1 = (x &&& 3) &&& 1 := by
    intro x
    rw [BitVec.and_assoc]
    rfl
  rw [hone, counter_flags, ← hone]

theorem futexOp_counter (op : BitVec 32) (n : Nat) :
    futexOp op (counter state n) = futexOp op state := by
  rw [futexOp, futexOp, counter_shared]

end counter

/-- Waits and wakes are both private or both shared. -/
theorem futexOp_private {op : BitVec 32} (hop : op = futexWaitOp ∨ op = futexWakeOp)
    (state : BitVec 32) :
    futexOp op state &&& futexPrivateFlag = if state &&& 1 = 0 then futexPrivateFlag else 0 := by
  rw [futexOp]
  rcases hop with rfl | rfl
  · split <;> rfl
  · split <;> rfl

/-! ## The invariant -/

/-- A thread that is in a call of `bionic_pthread_cond_signal` or `bionic_pthread_cond_broadcast`
and has not incremented the state. -/
def CondPc.pending : CondPc → Bool
  | .wakeLoad _ => true
  | .fetchAdd .. => true
  | _ => false

/-- The local variables of a thread in a wait. -/
def CondPc.waiter? : CondPc → Option Waiter
  | .clock w _ => some w
  | .unlock w => some w
  | .futexWait w => some w
  | .asleep w => some w
  | _ => none

/-- The operation of a thread that is at or in the system call. -/
def CondPc.futexOp? : CondPc → Option (BitVec 32)
  | .futexWait w => some w.futexOp
  | .asleep w => some w.futexOp
  | .futexWake _ op _ => some op
  | _ => none

namespace BionicCond

variable {ι : Type}

/-- What a thread knows of the state that it has loaded. -/
structure Loaded (state : BitVec 32) (s : BionicCond ι) (w : Waiter) : Prop where
  le : w.loaded ≤ s.increments
  oldState : w.oldState = counter state w.loaded
  futexOp : w.futexOp = Client.futexOp futexWaitOp state

/-- What holds of the thread `i`, which, if it is asleep, has loaded the state after `n i`
increments. -/
def PcOk (state : BitVec 32) (n : ι → Nat) (s : BionicCond ι) (i : ι) : CondPc → Prop
  | .clock w _ => s.Loaded state w
  | .unlock w => s.Loaded state w
  | .futexWait w => s.Loaded state w
  | .asleep w => s.Loaded state w ∧ i ∈ s.queue ∧ (s.increments < 2 ^ 30 → n i ≤ w.loaded)
  | .fetchAdd _ op => op = futexOp futexWakeOp state
  | .futexWake _ op m => op = futexOp futexWakeOp state ∧ m ≤ s.increments
  | _ => True

/-- The calls that have not incremented the state are among the calls. -/
def CallsOk (s : BionicCond ι) : Prop :=
  ∃ l : List ι, (∀ i, (s.pcs i).pending = true → i ∈ l) ∧ s.increments + l.length ≤ s.calls

structure Inv (state : BitVec 32) (n : ι → Nat) (s : BionicCond ι) : Prop where
  word : s.state = counter state s.increments
  le : ∀ i, n i ≤ s.increments
  pcs : ∀ i, s.PcOk state n i (s.pcs i)
  calls : s.CallsOk

variable {state : BitVec 32} {m n : ι → Nat} {s s' : BionicCond ι}

theorem inv_init : Inv state (fun _ => 0) (init state : BionicCond ι) where
  word := (counter_zero state).symm
  le _ := Nat.le_refl 0
  pcs _ := trivial
  calls := ⟨[], fun _ h => absurd h Bool.false_ne_true, Nat.le_refl 0⟩

/-- What holds of a thread stays true while it does nothing, also if the others increment the
state. -/
theorem PcOk.mono {i : ι} {pc : CondPc} (h : s.PcOk state n i pc)
    (hle : s.increments ≤ s'.increments)
    (hqueue : ∀ w, pc = .asleep w → i ∈ s.queue → i ∈ s'.queue) : s'.PcOk state n i pc := by
  have hloaded : ∀ w, s.Loaded state w → s'.Loaded state w :=
    fun w hw => ⟨Nat.le_trans hw.le hle, hw.oldState, hw.futexOp⟩
  cases pc with
  | clock w abstime => exact hloaded w h
  | unlock w => exact hloaded w h
  | futexWait w => exact hloaded w h
  | asleep w => exact ⟨hloaded w h.1, hqueue w rfl h.2.1,
      fun hlt => h.2.2 (Nat.lt_of_le_of_lt hle hlt)⟩
  | fetchAdd nr op => exact h
  | futexWake nr op m => exact ⟨h.1, Nat.le_trans h.2 hle⟩
  | idle => trivial
  | waitLoad abstime => trivial
  | relock result => trivial
  | wakeLoad nr => trivial
  | leave result => trivial

variable [DecidableEq ι] {i : ι} {pc : CondPc}

theorem goto_self : (s.goto i pc).pcs i = pc := Function.update_self ..

theorem goto_of_ne {j : ι} (h : j ≠ i) : (s.goto i pc).pcs j = s.pcs j :=
  Function.update_of_ne h ..

theorem forall_goto {P : ι → CondPc → Prop} (hi : P i pc) (h : ∀ j, j ≠ i → P j (s.pcs j)) (j : ι) :
    P j ((s.goto i pc).pcs j) :=
  (Function.forall_update_iff s.pcs P).mpr ⟨hi, h⟩ j

/-- A statement that leaves the state word alone. -/
theorem Inv.goto (h : Inv state n s) (hok : (s.goto i pc).PcOk state n i pc)
    (hpending : pc.pending = true → (s.pcs i).pending = true) : Inv state n (s.goto i pc) where
  word := h.word
  le := h.le
  pcs := forall_goto (P := fun j pc' => (s.goto i pc).PcOk state n j pc') hok
    fun j _ => (h.pcs j).mono (Nat.le_refl _) fun _ _ => id
  calls := by
    obtain ⟨l, hl, hle⟩ := h.calls
    refine ⟨l, ?_, hle⟩
    exact forall_goto (P := fun j pc' => pc'.pending = true → j ∈ l) (fun hp => hl i (hpending hp))
      fun j _ => hl j

/-- A call of `bionic_pthread_cond_signal` or `bionic_pthread_cond_broadcast` begins. -/
theorem Inv.call (h : Inv state n s) (nr : Nat) :
    Inv state n { s.goto i (.wakeLoad nr) with calls := s.calls + 1 } where
  word := h.word
  le := h.le
  pcs := by
    refine forall_goto (P := fun j pc' => PcOk state n _ j pc') trivial fun j _ => ?_
    exact (h.pcs j).mono (Nat.le_refl _) fun _ _ => id
  calls := by
    obtain ⟨l, hl, hle⟩ := h.calls
    refine ⟨i :: l, ?_, Nat.succ_le_succ hle⟩
    exact forall_goto (P := fun j pc' => pc'.pending = true → j ∈ i :: l) (fun _ => .head l)
      fun j _ hp => .tail i (hl j hp)

/-- The increment. -/
theorem Inv.fetchAdd (h : Inv state n s) {nr : Nat} {op : BitVec 32}
    (hpc : s.pcs i = .fetchAdd nr op) :
    Inv state n { s.goto i (.futexWake nr op (s.increments + 1)) with
      state := s.state + 4, increments := s.increments + 1 } where
  word := by
    show s.state + 4 = counter state (s.increments + 1)
    rw [h.word, counter_succ]
  le j := Nat.le_succ_of_le (h.le j)
  pcs := by
    have hok := h.pcs i
    rw [hpc] at hok
    refine forall_goto (P := fun j pc' => PcOk state n _ j pc') ?_ fun j _ => ?_
    · exact ⟨hok, Nat.le_refl _⟩
    · exact (h.pcs j).mono (Nat.le_succ _) fun _ _ => id
  calls := by
    obtain ⟨l, hl, hle⟩ := h.calls
    have hmem : i ∈ l := hl i (by rw [hpc]; rfl)
    refine ⟨l.erase i, ?_, ?_⟩
    · refine forall_goto (P := fun j pc' => pc'.pending = true → j ∈ l.erase i)
        (fun hp => nomatch hp) ?_
      exact fun j hj hp => (List.mem_erase_of_ne hj).mpr (hl j hp)
    · show s.increments + 1 + (l.erase i).length ≤ s.calls
      have hlen : (l.erase i).length + 1 = l.length := List.length_erase_add_one hmem
      omega

/-- The kernel lets a thread sleep only if the state was not incremented since the thread has loaded
it. -/
theorem Inv.sleep (h : Inv state n s) {w : Waiter} (hpc : s.pcs i = .futexWait w)
    (heq : s.state = w.oldState) :
    Inv state n { s.goto i (.asleep w) with queue := s.queue ++ [i] } where
  word := h.word
  le := h.le
  pcs := by
    have hok : s.Loaded state w := by
      have hok := h.pcs i
      rwa [hpc] at hok
    refine forall_goto (P := fun j pc' => PcOk state n _ j pc') ?_
      fun j _ => (h.pcs j).mono (Nat.le_refl _) fun _ _ => List.mem_append_left [i]
    refine ⟨⟨hok.le, hok.oldState, hok.futexOp⟩, List.mem_append_right _ (.head _), fun hlt => ?_⟩
    have hlt : s.increments < 2 ^ 30 := hlt
    have hcounter : counter state s.increments = counter state w.loaded :=
      h.word.symm.trans (heq.trans hok.oldState)
    rw [← counter_inj state hlt (Nat.lt_of_le_of_lt hok.le hlt) hcounter]
    exact h.le i
  calls := by
    obtain ⟨l, hl, hle⟩ := h.calls
    refine ⟨l, ?_, hle⟩
    exact forall_goto (P := fun j pc' => pc'.pending = true → j ∈ l)
      (fun hp => nomatch hp) fun j _ => hl j

theorem Inv.getUp (h : Inv state n s) (result : Int) : Inv state n (s.getUp i result) where
  word := h.word
  le := h.le
  pcs := by
    refine forall_goto (P := fun j pc' => PcOk state n _ j pc') trivial fun j hj => ?_
    exact (h.pcs j).mono (Nat.le_refl _)
      fun _ _ hmem => List.mem_filter.mpr ⟨hmem, decide_eq_true hj⟩
  calls := by
    obtain ⟨l, hl, hle⟩ := h.calls
    refine ⟨l, ?_, hle⟩
    exact forall_goto (P := fun j pc' => pc'.pending = true → j ∈ l)
      (fun hp => nomatch hp) fun j _ => hl j

theorem of_wakes {op : BitVec 32} {nr : Nat} {woken : List ι} (h : s.wakes op nr woken = true) :
    woken.Nodup ∧ woken ⊆ s.sleepers op ∧
      woken.length =
        if nr = intMax then (s.sleepers op).length else min nr (s.sleepers op).length := by
  rw [wakes, Bool.and_eq_true, Bool.and_eq_true, decide_eq_true_iff, List.all_eq_true,
    beq_iff_eq] at h
  exact ⟨h.1.1, fun k hk => List.contains_iff_mem.mp (h.1.2 k hk), h.2⟩

omit [DecidableEq ι] in
/-- The kernel finds every thread that is asleep. -/
theorem Inv.mem_sleepers (h : Inv state n s) {nr k : Nat} {op : BitVec 32}
    (hpc : s.pcs i = .futexWake nr op k) {j : ι} {w : Waiter} (hj : s.pcs j = .asleep w) :
    j ∈ s.sleepers op := by
  have hi := h.pcs i
  have hok := h.pcs j
  rw [hpc] at hi
  rw [hj] at hok
  refine List.mem_filter.mpr ⟨hok.2.1, ?_⟩
  rw [hj, sleepsOn, beq_iff_eq, hok.1.futexOp, hi.1, futexOp_private (.inl rfl),
    futexOp_private (.inr rfl)]

/-- A broadcast wakes all of them. -/
theorem Inv.mem_woken (h : Inv state n s) {k : Nat} {op : BitVec 32}
    (hpc : s.pcs i = .futexWake intMax op k) {woken : List ι}
    (hwakes : s.wakes op intMax woken = true)
    {j : ι} {w : Waiter} (hj : s.pcs j = .asleep w) : j ∈ woken := by
  obtain ⟨hnodup, hsub, hlen⟩ := of_wakes hwakes
  rw [if_pos rfl] at hlen
  have hperm : woken.Perm (s.sleepers op) :=
    (List.subperm_of_subset hnodup hsub).perm_of_length_le (Nat.le_of_eq hlen.symm)
  exact hperm.mem_iff.mpr (h.mem_sleepers hpc hj)

/-- A signal wakes one of them. -/
theorem Inv.exists_woken (h : Inv state n s) {k : Nat} {op : BitVec 32}
    (hpc : s.pcs i = .futexWake 1 op k) {woken : List ι} (hwakes : s.wakes op 1 woken = true)
    {j : ι} {w : Waiter} (hj : s.pcs j = .asleep w) : ∃ k ∈ woken, ∃ v, s.pcs k = .asleep v := by
  obtain ⟨-, hsub, hlen⟩ := of_wakes hwakes
  have hpos : 0 < (s.sleepers op).length := List.length_pos_of_mem (h.mem_sleepers hpc hj)
  have hone : (1 : Nat) ≠ intMax := by decide
  rw [if_neg hone, Nat.min_eq_left hpos] at hlen
  obtain ⟨k, hk⟩ := List.exists_mem_of_length_pos (Nat.lt_of_lt_of_eq Nat.one_pos hlen.symm)
  have hsleeps : sleepsOn op (s.pcs k) = true := (List.mem_filter.mp (hsub hk)).2
  refine ⟨k, hk, ?_⟩
  unfold sleepsOn at hsleeps
  split at hsleeps
  next v heq => exact ⟨v, heq⟩
  next => exact absurd hsleeps Bool.false_ne_true

/-- The wake, after which other bounds may hold: only those of threads that stay asleep matter. -/
theorem Inv.wake (h : Inv state m s) {woken : List ι} (hle : ∀ j, n j ≤ s.increments)
    (hrest : ∀ j w, s.pcs j = .asleep w → j ∉ woken → n j ≤ m j) :
    Inv state n (s.wakeUp i woken) where
  word := h.word
  le := hle
  pcs j := by
    show PcOk state n _ j (if j = i then _ else if woken.contains j then _ else s.pcs j)
    split
    next => trivial
    next =>
      split
      next => trivial
      next hnot =>
        have hj := h.pcs j
        cases hpc : s.pcs j with
        | asleep w =>
          rw [hpc] at hj
          refine ⟨⟨hj.1.le, hj.1.oldState, hj.1.futexOp⟩, List.mem_filter.mpr ⟨hj.2.1, ?_⟩,
            fun hlt => ?_⟩
          · exact (Bool.not_eq_true' _).mpr (Bool.not_eq_true _ ▸ hnot)
          · exact Nat.le_trans (hrest j w hpc fun hmem => hnot (List.contains_iff_mem.mpr hmem))
              (hj.2.2 hlt)
        | clock w abstime => rw [hpc] at hj; exact ⟨hj.le, hj.oldState, hj.futexOp⟩
        | unlock w => rw [hpc] at hj; exact ⟨hj.le, hj.oldState, hj.futexOp⟩
        | futexWait w => rw [hpc] at hj; exact ⟨hj.le, hj.oldState, hj.futexOp⟩
        | fetchAdd nr op => rw [hpc] at hj; exact hj
        | futexWake nr op k => rw [hpc] at hj; exact hj
        | idle => trivial
        | waitLoad abstime => trivial
        | relock result => trivial
        | wakeLoad nr => trivial
        | leave result => trivial
  calls := by
    obtain ⟨l, hl, hle⟩ := h.calls
    refine ⟨l, fun j => ?_, hle⟩
    show CondPc.pending (if j = i then _ else if woken.contains j then _ else s.pcs j) = true →
      j ∈ l
    split
    next => exact fun hp => nomatch hp
    next =>
      split
      next => exact fun hp => nomatch hp
      next => exact hl j

theorem Inv.next (h : Inv state n s) (hstep : s.step (.next i) = some s') : Inv state n s' := by
  have hok := h.pcs i
  cases hpc : s.pcs i with
  | waitLoad abstime =>
    have hload : s.Loaded state ⟨s.state, futexOp futexWaitOp s.state, none, s.increments⟩ :=
      ⟨Nat.le_refl _, h.word, by rw [h.word, futexOp_counter]⟩
    cases abstime with
    | none =>
      simp only [BionicCond.step, hpc] at hstep
      cases hstep
      exact h.goto ⟨hload.le, hload.oldState, hload.futexOp⟩ fun hp => nomatch hp
    | some abstime =>
      simp only [BionicCond.step, hpc] at hstep
      cases hstep
      exact h.goto ⟨hload.le, hload.oldState, hload.futexOp⟩ fun hp => nomatch hp
  | unlock w =>
    simp only [BionicCond.step, hpc] at hstep
    cases hstep
    rw [hpc] at hok
    exact h.goto ⟨hok.le, hok.oldState, hok.futexOp⟩ fun hp => nomatch hp
  | futexWait w =>
    simp only [BionicCond.step, hpc] at hstep
    split at hstep
    next => cases hstep; exact h.goto trivial fun hp => nomatch hp
    next =>
      split at hstep
      next heq => cases hstep; exact h.sleep hpc heq
      next => cases hstep; exact h.goto trivial fun hp => nomatch hp
  | relock result =>
    simp only [BionicCond.step, hpc] at hstep
    cases hstep
    exact h.goto trivial fun hp => nomatch hp
  | wakeLoad nr =>
    simp only [BionicCond.step, hpc] at hstep
    cases hstep
    refine h.goto ?_ fun _ => hpc ▸ rfl
    show futexOp futexWakeOp s.state = futexOp futexWakeOp state
    rw [h.word, futexOp_counter]
  | fetchAdd nr op =>
    simp only [BionicCond.step, hpc] at hstep
    cases hstep
    exact h.fetchAdd hpc
  | leave result =>
    simp only [BionicCond.step, hpc] at hstep
    cases hstep
    exact h.goto trivial fun hp => nomatch hp
  | idle => simp only [BionicCond.step, hpc] at hstep; cases hstep
  | clock w abstime => simp only [BionicCond.step, hpc] at hstep; cases hstep
  | asleep w => simp only [BionicCond.step, hpc] at hstep; cases hstep
  | futexWake nr op k => simp only [BionicCond.step, hpc] at hstep; cases hstep

/-- `clock_gettime` returns, and the wait gives up or goes on with the time that is left. -/
theorem Inv.clock (h : Inv state n s) {now : Timespec} (hstep : s.step (.clock i now) = some s') :
    Inv state n s' := by
  have hok := h.pcs i
  simp only [BionicCond.step] at hstep
  split at hstep
  next w abstime hpc =>
    rw [hpc] at hok
    split at hstep
    next => cases hstep; exact h.goto trivial fun hp => nomatch hp
    next => cases hstep; exact h.goto ⟨hok.le, hok.oldState, hok.futexOp⟩ fun hp => nomatch hp
  next => cases hstep

theorem Inv.step (h : Inv state n s) {a : Action ι} (hstep : s.step a = some s') :
    Inv state n s' := by
  cases a with
  | call i call =>
    simp only [BionicCond.step] at hstep
    split at hstep
    next => cases hstep; exact h.goto trivial fun hp => nomatch hp
    next => cases hstep; exact h.goto trivial fun hp => nomatch hp
    next => cases hstep; exact h.call 1
    next => cases hstep; exact h.call intMax
    next => cases hstep
  | next i => exact h.next hstep
  | clock i now => exact h.clock hstep
  | wake i woken =>
    simp only [BionicCond.step] at hstep
    split at hstep
    next =>
      split at hstep
      next =>
        cases hstep
        exact h.wake h.le fun j _ _ _ => Nat.le_refl (n j)
      next => cases hstep
    next => cases hstep
  | timeout i =>
    simp only [BionicCond.step] at hstep
    split at hstep
    next =>
      split at hstep
      next => cases hstep; exact h.getUp bionicTimedOut
      next => cases hstep
    next => cases hstep
  | interrupt i =>
    simp only [BionicCond.step] at hstep
    split at hstep
    next => cases hstep; exact h.getUp 0
    next => cases hstep

/-! ## Runs -/

section

omit [DecidableEq ι]

theorem Inv.increments_le_calls (h : Inv state n s) : s.increments ≤ s.calls := by
  obtain ⟨l, -, hle⟩ := h.calls
  omega

theorem Inv.flags (h : Inv state n s) : s.state &&& 3 = state &&& 3 := by
  rw [h.word, counter_flags]

theorem Inv.mode (h : Inv state n s) {op : BitVec 32} (hop : (s.pcs i).futexOp? = some op) :
    op &&& futexPrivateFlag = if state &&& 1 = 0 then futexPrivateFlag else 0 := by
  have hok := h.pcs i
  generalize s.pcs i = pc at hok hop
  cases pc with
  | futexWait w =>
    cases hop
    rw [hok.futexOp, futexOp_private (.inl rfl)]
  | asleep w =>
    cases hop
    rw [hok.1.futexOp, futexOp_private (.inl rfl)]
  | futexWake nr op k =>
    cases hop
    rw [hok.1, futexOp_private (.inr rfl)]
  | idle => cases hop
  | waitLoad abstime => cases hop
  | clock w abstime => cases hop
  | unlock w => cases hop
  | relock result => cases hop
  | wakeLoad nr => cases hop
  | fetchAdd nr op => cases hop
  | leave result => cases hop

theorem Inv.loaded (h : Inv state n s) {w : Waiter} (hw : (s.pcs i).waiter? = some w) :
    s.Loaded state w := by
  have hok := h.pcs i
  generalize s.pcs i = pc at hok hw
  cases pc with
  | clock w abstime => cases hw; exact hok
  | unlock w => cases hw; exact hok
  | futexWait w => cases hw; exact hok
  | asleep w => cases hw; exact hok.1
  | idle => cases hw
  | waitLoad abstime => cases hw
  | relock result => cases hw
  | wakeLoad nr => cases hw
  | fetchAdd nr op => cases hw
  | futexWake nr op k => cases hw
  | leave result => cases hw

/-- The check of a thread fails that has loaded the state before one of the increments. -/
theorem Inv.state_ne (h : Inv state n s) (hlt : s.increments < 2 ^ 30) {w : Waiter}
    (hw : (s.pcs i).waiter? = some w) (hold : w.loaded < s.increments) : s.state ≠ w.oldState := by
  intro heq
  have hcounter : counter state s.increments = counter state w.loaded :=
    h.word.symm.trans (heq.trans (h.loaded hw).oldState)
  have hsame := counter_inj state hlt (Nat.lt_trans hold hlt) hcounter
  omega

end

theorem Inv.run (h : Inv state n s) {as : List (Action ι)}
    (hrun : Runs.run BionicCond.step s as = some s') : Inv state n s' :=
  Runs.inv_of_run (fun _ _ _ hs => hs.step) h hrun

/-- From the wake of a broadcast on, the threads that are asleep have loaded the state after its
increment. -/
theorem Inv.broadcast (h : Inv state (fun _ => 0) s) {op : BitVec 32} {k : Nat}
    (hpc : s.pcs i = .futexWake intMax op k) {woken : List ι}
    (hwakes : s.wakes op intMax woken = true) :
    Inv state (fun _ => k) (s.wakeUp i woken) := by
  have hok := h.pcs i
  rw [hpc] at hok
  exact h.wake (fun _ => hok.2) fun j w hj hnot => absurd (h.mem_woken hpc hwakes hj) hnot

/-- A thread that is awake when a wake is made will not sleep if it has loaded the state before the
increment. -/
theorem Inv.awake (h : Inv state (fun _ => 0) s) {op : BitVec 32} {nr k : Nat}
    (hpc : s.pcs i = .futexWake nr op k) {woken : List ι} {j : ι}
    (hawake : ¬ ∃ v, s.pcs j = .asleep v) :
    Inv state (Function.update (fun _ => 0) j k) (s.wakeUp i woken) := by
  have hok := h.pcs i
  rw [hpc] at hok
  refine h.wake ?_ fun j' w hj' _ => ?_
  · refine (Function.forall_update_iff _ fun _ m => m ≤ s.increments).mpr ⟨hok.2, fun _ _ => ?_⟩
    exact Nat.zero_le _
  · have hne : j' ≠ j := fun heq => hawake ⟨w, heq ▸ hj'⟩
    exact Nat.le_of_eq (Function.update_of_ne hne ..)

/-- **No wake-up is lost.** The flags do not change, and all waits and wakes have the same mode.
From the wake of a broadcast on, no thread is asleep that has loaded the state before its increment.
If there is such a thread in a wait when a signal makes its wake, a thread is woken, or the one in
the wait does not fall asleep any more and finds that the state has changed. -/
theorem no_lost_wakeup (state : BitVec 32) (as : List (Action ι))
    (h : Runs.run BionicCond.step (init state) as = some s) :
    (s.state &&& 3 = state &&& 3 ∧ ∀ i op, (s.pcs i).futexOp? = some op →
      op &&& futexPrivateFlag = if state &&& 1 = 0 then futexPrivateFlag else 0) ∧
    ∀ i nr op n woken s₁ bs s₂, s.pcs i = .futexWake nr op n → s.step (.wake i woken) = some s₁ →
      Runs.run BionicCond.step s₁ bs = some s₂ → s₂.calls < 2 ^ 30 →
      (nr = intMax → ∀ j w, s₂.pcs j = .asleep w → n ≤ w.loaded) ∧
      (nr = 1 → ∀ j w, (s.pcs j).waiter? = some w → w.loaded < n →
        (∃ k ∈ woken, (∃ v, s.pcs k = .asleep v) ∧ s₁.pcs k = .relock 0) ∨
        ∀ v, (s₂.pcs j).waiter? = some v → v.loaded < n →
          s₂.state ≠ v.oldState ∧ s₂.pcs j ≠ .asleep v) := by
  have hinv : Inv state (fun _ => 0) s := inv_init.run h
  refine ⟨⟨hinv.flags, fun i op => hinv.mode⟩, ?_⟩
  intro i nr op n woken s₁ bs s₂ hpc hwake hbs hcalls
  simp only [BionicCond.step, hpc] at hwake
  split at hwake
  next hwakes =>
    cases hwake
    constructor
    · rintro rfl j w hj
      have hinv₂ := (hinv.broadcast hpc hwakes).run hbs
      have hok := hinv₂.pcs j
      rw [hj] at hok
      exact hok.2.2 (Nat.lt_of_le_of_lt hinv₂.increments_le_calls hcalls)
    · rintro rfl j w hw hold
      by_cases hasleep : ∃ v, s.pcs j = .asleep v
      · obtain ⟨v, hv⟩ := hasleep
        obtain ⟨k, hk, u, hu⟩ := hinv.exists_woken hpc hwakes hv
        refine .inl ⟨k, hk, ⟨u, hu⟩, ?_⟩
        have hki : k ≠ i := by
          rintro rfl
          exact nomatch hpc.symm.trans hu
        show (if k = i then _ else if woken.contains k then _ else s.pcs k) = _
        rw [if_neg hki, if_pos (List.contains_iff_mem.mpr hk)]
      · have hinv₂ := (hinv.awake hpc hasleep).run hbs
        have hlt := Nat.lt_of_le_of_lt hinv₂.increments_le_calls hcalls
        have hle := hinv₂.le j
        rw [Function.update_self] at hle
        refine .inr fun v hv hvold => ⟨?_, fun hsleeps => ?_⟩
        · exact hinv₂.state_ne hlt hv (Nat.lt_of_lt_of_le hvold hle)
        · have hok := hinv₂.pcs j
          rw [hsleeps] at hok
          have hbound := hok.2.2 hlt
          rw [Function.update_self] at hbound
          exact Nat.not_lt_of_le hbound hvold
  next => cases hwake

/-- One thread is asleep and another one has just loaded the state when a broadcast is made; both
flags are set. -/
def broadcastRun : List (Action (Fin 3)) :=
  [.call 0 .wait, .next 0, .next 0, .next 0, .call 1 .wait, .next 1, .call 2 .broadcast,
    .next 2, .next 2]

theorem no_lost_wakeup_broadcast :
    ∃ s s₁, Runs.run BionicCond.step (init 3) broadcastRun = some s ∧
      s.step (.wake 2 [0]) = some s₁ ∧
      s.queue = [0] ∧ s.state &&& 3 = 3 ∧ ∀ j w, s₁.pcs j = .asleep w → 1 ≤ w.loaded := by
  have hwakeup := fun s h => no_lost_wakeup (s := s) 3 broadcastRun h
  refine ⟨_, _, rfl, rfl, rfl, (hwakeup _ rfl).1.1, ?_⟩
  exact ((hwakeup _ rfl).2 2 intMax 1 1 [0] _ [] _ rfl rfl rfl (by decide)).1 rfl

end BionicCond

end McpeLauncher.Client
