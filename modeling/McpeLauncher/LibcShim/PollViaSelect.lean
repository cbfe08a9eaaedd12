import Mathlib.Algebra.BigOperators.Ring.Finset

/-!
# `poll` over `select`

`shim::poll_via_select` fills the sets of `select` from an array of `pollfd`, and the results of the
array from the sets. What `select` does is a parameter.
-/

namespace McpeLauncher.PollViaSelect

def POLLIN : BitVec 16 := 0x1
def POLLPRI : BitVec 16 := 0x2
def POLLOUT : BitVec 16 := 0x4
def POLLERR : BitVec 16 := 0x8
def POLLHUP : BitVec 16 := 0x10
def POLLNVAL : BitVec 16 := 0x20

def FD_SETSIZE : Int := 1024

structure Pollfd where
  fd : Int
  events : BitVec 16
  revents : BitVec 16
  deriving DecidableEq

abbrev FdSet := Finset Int

structure Timeval where
  tv_sec : Int
  tv_usec : Int
  deriving DecidableEq

/-- The arguments of `select`. Without a time it waits without limit. -/
structure SelectCall where
  nfds : Int
  readfds : FdSet
  writefds : FdSet
  errorfds : FdSet
  timeout : Option Timeval

/-- Either `select` returns -1 and leaves the sets alone, or it leaves in them what is ready and returns
how many members they have. -/
inductive Outcome
  | failed
  | ready (readfds writefds errorfds : FdSet)

/-- `timeout` is in milliseconds. -/
def timeval (timeout : Int) : Timeval where
  tv_sec := timeout.tdiv 1000
  tv_usec := timeout.tmod 1000 * 1000

structure Sets where
  maxfd : Int
  r : FdSet
  w : FdSet
  e : FdSet

def addFd (s : Sets) (f : Pollfd) : Sets where
  maxfd := if f.fd > s.maxfd then f.fd else s.maxfd
  r := if f.events &&& POLLIN ≠ 0 ∨ f.events &&& POLLPRI ≠ 0 then insert f.fd s.r else s.r
  w := if f.events &&& POLLOUT ≠ 0 then insert f.fd s.w else s.w
  e := insert f.fd s.e

/-- The first loop. -/
def fillSets (fds : List Pollfd) : Sets := fds.foldl addFd ⟨0, ∅, ∅, ∅⟩

def request (fds : List Pollfd) (timeout : Int) : SelectCall :=
  let s := fillSets fds
  ⟨s.maxfd + 1, s.r, s.w, s.e, some (timeval timeout)⟩

/-- The body of the second loop. -/
def result (r w e : FdSet) (f : Pollfd) : Pollfd :=
  { f with
    revents := (if f.fd ∈ r then POLLIN else 0) ||| (if f.fd ∈ w then POLLOUT else 0) |||
      (if f.fd ∈ e then POLLERR else 0) }

/-- What is returned, and the array after it. -/
def pollViaSelect (fds : List Pollfd) (timeout : Int) (outcome : Outcome) : Int × List Pollfd :=
  let call := request fds timeout
  match outcome with
  | .failed => (-1, fds.map (result call.readfds call.writefds call.errorfds))
  | .ready r w e => (r.card + w.card + e.card, fds.map (result r w e))

/-! ## What `poll` promises -/

/-- What POSIX says of the sets that `select` leaves. -/
def Posix (call : SelectCall) : Outcome → Prop
  | .failed => True
  | .ready r w e => r ⊆ call.readfds ∧ w ⊆ call.writefds ∧ e ⊆ call.errorfds

/-- The time that `poll` waits. -/
def Waits (timeout : Int) : Option Timeval → Prop
  | none => timeout < 0
  | some t => 0 ≤ timeout ∧ t.tv_sec * 1000000 + t.tv_usec = timeout * 1000 ∧
    0 ≤ t.tv_usec ∧ t.tv_usec < 1000000

/-- Only conditions that were asked for are reported, and errors. -/
def Requested (f : Pollfd) : Prop :=
  ∀ k, f.revents.getLsbD k = true →
    f.events.getLsbD k = true ∨ (POLLERR ||| POLLHUP ||| POLLNVAL).getLsbD k = true

/-- `poll` by `select`: the sets have descriptors only, which are all looked at, the time is that of
`poll`, and so are the return value and the results. -/
structure Refines (fds : List Pollfd) (timeout : Int) (outcome : Outcome) : Prop where
  sets : ∀ fd, fd ∈ (request fds timeout).readfds ∨ fd ∈ (request fds timeout).writefds ∨
    fd ∈ (request fds timeout).errorfds →
    0 ≤ fd ∧ fd < FD_SETSIZE ∧ fd < (request fds timeout).nfds
  waits : Waits timeout (request fds timeout).timeout
  failed : outcome = .failed → (pollViaSelect fds timeout outcome).1 = -1 ∧
    ∀ f ∈ (pollViaSelect fds timeout outcome).2, f.revents = 0
  count : outcome ≠ .failed → (pollViaSelect fds timeout outcome).1 =
    (pollViaSelect fds timeout outcome).2.countP fun f => f.revents ≠ 0
  requested : ∀ f ∈ (pollViaSelect fds timeout outcome).2, Requested f
  negative : ∀ f ∈ (pollViaSelect fds timeout outcome).2, f.fd < 0 → f.revents = 0

/-- In how many sets a descriptor is. -/
def ways (r w e : FdSet) (fd : Int) : Nat :=
  (if fd ∈ r then 1 else 0) + (if fd ∈ w then 1 else 0) + (if fd ∈ e then 1 else 0)

/-- How many entries a descriptor has. -/
def entries (fds : List Pollfd) (fd : Int) : Nat := (fds.map Pollfd.fd).count fd

/-- Who is readable has asked for input, who is writable for output, and the ready descriptors are
ready in as many ways as they have entries. -/
def Matched (fds : List Pollfd) (r w e : FdSet) : Prop :=
  (∀ f ∈ fds, (f.fd ∈ r → f.events &&& POLLIN ≠ 0) ∧ (f.fd ∈ w → f.events &&& POLLOUT ≠ 0)) ∧
  ∑ fd ∈ r ∪ w ∪ e, ways r w e fd = ∑ fd ∈ r ∪ w ∪ e, entries fds fd

/-! ## The sets -/

section Sets
variable {fds : List Pollfd} {f : Pollfd} {fd : Int} {s : Sets}

theorem mem_foldl_addFd (fds : List Pollfd) (s : Sets) (fd : Int) :
    (fd ∈ (fds.foldl addFd s).e ↔ fd ∈ s.e ∨ fd ∈ fds.map Pollfd.fd) ∧
    (fd ∈ (fds.foldl addFd s).r → fd ∈ s.r ∨ fd ∈ fds.map Pollfd.fd) ∧
    (fd ∈ (fds.foldl addFd s).w → fd ∈ s.w ∨ fd ∈ fds.map Pollfd.fd) := by
  induction fds generalizing s with
  | nil => simp
  | cons f fds ih =>
    obtain ⟨he, hr, hw⟩ := ih (addFd s f)
    rw [List.foldl_cons, List.map_cons, List.mem_cons]
    have hinsert (p : Prop) [Decidable p] (t : FdSet)
        (h : (fd ∈ if p then insert f.fd t else t) ∨ fd ∈ fds.map Pollfd.fd) :
        fd ∈ t ∨ fd = f.fd ∨ fd ∈ fds.map Pollfd.fd := by
      split at h
      · rw [Finset.mem_insert, or_assoc] at h
        exact or_left_comm.mp h
      · exact h.imp_right .inr
    refine ⟨?_, fun h => hinsert _ _ (hr h), fun h => hinsert _ _ (hw h)⟩
    rw [he, addFd, Finset.mem_insert, or_comm (a := fd = f.fd), or_assoc]

theorem mem_errorfds {timeout : Int} : fd ∈ (request fds timeout).errorfds ↔
    fd ∈ fds.map Pollfd.fd := by
  have h := (mem_foldl_addFd fds ⟨0, ∅, ∅, ∅⟩ fd).1
  simpa [request, fillSets] using h

/-- Every descriptor of a set is one of the array. -/
theorem mem_of_mem_sets (timeout : Int) (h : fd ∈ (request fds timeout).readfds ∨
    fd ∈ (request fds timeout).writefds ∨ fd ∈ (request fds timeout).errorfds) :
    fd ∈ fds.map Pollfd.fd := by
  obtain ⟨he, hr, hw⟩ := mem_foldl_addFd fds ⟨0, ∅, ∅, ∅⟩ fd
  have hempty : fd ∉ (∅ : FdSet) := Finset.notMem_empty fd
  obtain h | h | h := h
  · exact (hr h).resolve_left hempty
  · exact (hw h).resolve_left hempty
  · exact mem_errorfds.mp h

theorem le_maxfd (fds : List Pollfd) (s : Sets) : s.maxfd ≤ (fds.foldl addFd s).maxfd ∧
    ∀ f ∈ fds, f.fd ≤ (fds.foldl addFd s).maxfd := by
  induction fds generalizing s with
  | nil => exact ⟨Int.le_refl _, List.forall_mem_nil _⟩
  | cons f fds ih =>
    obtain ⟨hle, hfds⟩ := ih (addFd s f)
    have hadd : s.maxfd ≤ (addFd s f).maxfd ∧ f.fd ≤ (addFd s f).maxfd := by
      dsimp only [addFd]
      split <;> omega
    rw [List.foldl_cons]
    exact ⟨hadd.1.trans hle, List.forall_mem_cons.mpr ⟨hadd.2.trans hle, hfds⟩⟩

end Sets

/-! ## The time -/

theorem waits_timeval_iff (timeout : Int) : Waits timeout (some (timeval timeout)) ↔ 0 ≤ timeout := by
  refine ⟨fun h => h.1, fun h => ⟨h, ?_⟩⟩
  rw [timeval, Int.tdiv_eq_ediv_of_nonneg h, Int.tmod_eq_emod_of_nonneg h]
  refine ⟨?_, ?_, ?_⟩ <;> dsimp only <;> omega

/-! ## The results -/

section Results
variable {fds : List Pollfd} {f : Pollfd} {r w e : FdSet} {outcome : Outcome} {timeout : Int}

theorem getLsbD_revents (r w e : FdSet) (f : Pollfd) (k : Nat) :
    (result r w e f).revents.getLsbD k =
      (decide (f.fd ∈ r ∧ k = 0) || decide (f.fd ∈ w ∧ k = 2) || decide (f.fd ∈ e ∧ k = 3)) := by
  have hbit (p : Prop) [Decidable p] (x : BitVec 16) (i : Nat) (hx : x = BitVec.twoPow 16 i)
      (hi : i < 16) : (if p then x else 0).getLsbD k = decide (p ∧ k = i) := by
    subst hx
    by_cases hp : p
    · simp [hp, BitVec.getLsbD_twoPow, hi, eq_comm]
    · simp [hp]
  rw [result, BitVec.getLsbD_or, BitVec.getLsbD_or, hbit _ POLLIN 0 rfl (by decide),
    hbit _ POLLOUT 2 rfl (by decide), hbit _ POLLERR 3 rfl (by decide)]

/-- An entry has results when its descriptor is ready in some way. -/
theorem revents_ne_zero_iff : (result r w e f).revents ≠ 0 ↔ f.fd ∈ r ∪ w ∪ e := by
  rw [Finset.mem_union, Finset.mem_union]
  constructor
  · intro h
    by_contra hnot
    simp only [not_or] at hnot
    refine h (BitVec.eq_of_getLsbD_eq fun k _ => ?_)
    rw [getLsbD_revents]
    simp [hnot]
  · intro h hzero
    have hbits (k : Nat) : ¬ (((f.fd ∈ r ∧ k = 0) ∨ (f.fd ∈ w ∧ k = 2)) ∨ (f.fd ∈ e ∧ k = 3)) := by
      have hbit := getLsbD_revents r w e f k
      rw [hzero] at hbit
      simpa using hbit.symm
    obtain (h | h) | h := h
    · exact hbits 0 (.inl (.inl ⟨h, rfl⟩))
    · exact hbits 2 (.inl (.inr ⟨h, rfl⟩))
    · exact hbits 3 (.inr ⟨h, rfl⟩)

theorem and_twoPow_ne_zero (x : BitVec 16) {i : Nat} (hi : i < 16) :
    x &&& BitVec.twoPow 16 i ≠ 0 ↔ x.getLsbD i = true := by
  rw [BitVec.and_twoPow]
  cases x.getLsbD i with
  | false => simp
  | true =>
    refine iff_of_true (fun h => ?_) rfl
    have hbit := congrArg (fun y : BitVec 16 => y.getLsbD i) h
    simp [hi] at hbit

theorem requested_result_iff : Requested (result r w e f) ↔
    (f.fd ∈ r → f.events &&& POLLIN ≠ 0) ∧ (f.fd ∈ w → f.events &&& POLLOUT ≠ 0) := by
  have hin := and_twoPow_ne_zero f.events (show 0 < 16 by decide)
  have hout := and_twoPow_ne_zero f.events (show 2 < 16 by decide)
  rw [show BitVec.twoPow 16 0 = POLLIN from rfl] at hin
  rw [show BitVec.twoPow 16 2 = POLLOUT from rfl] at hout
  rw [hin, hout]
  constructor
  · intro h
    constructor
    · intro hr
      refine (h 0 ?_).resolve_right (by decide)
      rw [getLsbD_revents]
      simp [hr]
    · intro hw
      refine (h 2 ?_).resolve_right (by decide)
      rw [getLsbD_revents]
      simp [hw]
  · rintro ⟨hr, hw⟩ k hk
    rw [getLsbD_revents, Bool.or_eq_true, Bool.or_eq_true, decide_eq_true_eq, decide_eq_true_eq,
      decide_eq_true_eq] at hk
    obtain (⟨h, rfl⟩ | ⟨h, rfl⟩) | ⟨-, rfl⟩ := hk
    · exact .inl (hr h)
    · exact .inl (hw h)
    · exact .inr (by decide)

/-- The members of the sets, by descriptors. -/
theorem sum_ways (r w e : FdSet) :
    ∑ fd ∈ r ∪ w ∪ e, ways r w e fd = r.card + w.card + e.card := by
  have hcard (t : FdSet) (ht : t ⊆ r ∪ w ∪ e) :
      ∑ fd ∈ r ∪ w ∪ e, (if fd ∈ t then 1 else 0) = t.card := by
    rw [Finset.sum_boole, Finset.filter_mem_eq_inter, Finset.inter_eq_right.mpr ht, Nat.cast_id]
  simp only [ways, Finset.sum_add_distrib]
  rw [hcard r fun x hx => by simp [hx], hcard w fun x hx => by simp [hx],
    hcard e fun x hx => by simp [hx]]

/-- The entries with results, by descriptors. -/
theorem countP_result (h : ∀ fd ∈ r ∪ w ∪ e, fd ∈ fds.map Pollfd.fd) :
    (fds.map (result r w e)).countP (fun f => f.revents ≠ 0) =
      ∑ fd ∈ r ∪ w ∪ e, entries fds fd := by
  have hfilter : (fds.map Pollfd.fd).toFinset.filter (· ∈ r ∪ w ∪ e) = r ∪ w ∪ e := by
    ext fd
    rw [Finset.mem_filter, List.mem_toFinset]
    exact ⟨fun hfd => hfd.2, fun hfd => ⟨h fd hfd, hfd⟩⟩
  have hsum := Finset.sum_filter_count_eq_countP (· ∈ r ∪ w ∪ e) (fds.map Pollfd.fd)
  rw [hfilter] at hsum
  rw [List.countP_map]
  refine Eq.trans ?_ hsum.symm
  rw [List.countP_map]
  refine List.countP_congr fun f _ => ?_
  simp only [Function.comp_apply, decide_eq_true_eq]
  exact revents_ne_zero_iff

/-- After a failure every entry has results. -/
theorem revents_failed_ne_zero (hf : f ∈ fds) :
    (result (request fds timeout).readfds (request fds timeout).writefds
      (request fds timeout).errorfds f).revents ≠ 0 := by
  refine revents_ne_zero_iff.mpr (Finset.mem_union_right _ (mem_errorfds.mpr ?_))
  exact List.mem_map_of_mem hf

theorem exists_fd_eq (h : f ∈ (pollViaSelect fds timeout outcome).2) : ∃ g ∈ fds, f.fd = g.fd := by
  cases outcome with
  | failed =>
    obtain ⟨g, hg, rfl⟩ := List.mem_map.mp h
    exact ⟨g, hg, rfl⟩
  | ready r w e =>
    obtain ⟨g, hg, rfl⟩ := List.mem_map.mp h
    exact ⟨g, hg, rfl⟩

theorem sets_iff : (∀ fd, fd ∈ (request fds timeout).readfds ∨ fd ∈ (request fds timeout).writefds ∨
      fd ∈ (request fds timeout).errorfds →
      0 ≤ fd ∧ fd < FD_SETSIZE ∧ fd < (request fds timeout).nfds) ↔
    ∀ f ∈ fds, 0 ≤ f.fd ∧ f.fd < FD_SETSIZE := by
  constructor
  · intro h f hf
    obtain ⟨hle, hlt, -⟩ := h f.fd (.inr (.inr (mem_errorfds.mpr (List.mem_map_of_mem hf))))
    exact ⟨hle, hlt⟩
  · intro h fd hfd
    obtain ⟨f, hf, rfl⟩ := List.mem_map.mp (mem_of_mem_sets timeout hfd)
    have hmax := (le_maxfd fds ⟨0, ∅, ∅, ∅⟩).2 f hf
    exact ⟨(h f hf).1, (h f hf).2, Int.lt_add_one_of_le hmax⟩

/-- What the return value and the results of a `select` that does not fail have to be. -/
theorem matched_iff {r w e : FdSet} (hposix : Posix (request fds timeout) (.ready r w e)) :
    ((pollViaSelect fds timeout (.ready r w e)).1 =
        ((pollViaSelect fds timeout (.ready r w e)).2.countP fun f => f.revents ≠ 0 : Nat) ∧
      ∀ f ∈ (pollViaSelect fds timeout (.ready r w e)).2, Requested f) ↔ Matched fds r w e := by
  obtain ⟨hr, hw, he⟩ := hposix
  have hmem : ∀ fd ∈ r ∪ w ∪ e, fd ∈ fds.map Pollfd.fd := by
    intro fd hfd
    rw [Finset.mem_union, Finset.mem_union, or_assoc] at hfd
    exact mem_of_mem_sets timeout (hfd.imp (@hr _) (Or.imp (@hw _) (@he _)))
  have hcount : ((r.card + w.card + e.card : Int) =
      ((fds.map (result r w e)).countP fun f => f.revents ≠ 0 : Nat)) ↔
      ∑ fd ∈ r ∪ w ∪ e, ways r w e fd = ∑ fd ∈ r ∪ w ∪ e, entries fds fd := by
    rw [countP_result hmem, sum_ways]
    omega
  have hrequested : (∀ f ∈ fds.map (result r w e), Requested f) ↔
      ∀ f ∈ fds, (f.fd ∈ r → f.events &&& POLLIN ≠ 0) ∧ (f.fd ∈ w → f.events &&& POLLOUT ≠ 0) := by
    rw [List.forall_mem_map]
    exact forall₂_congr fun f _ => requested_result_iff
  rw [Matched, and_comm]
  exact and_congr hrequested hcount

end Results

/-- `poll` is right when it need not wait without limit, all descriptors fit into a set, `select` does
not fail for any of them, and each ready one is ready in one way for each of its entries, in sum. -/
theorem pollViaSelect_iff (fds : List Pollfd) (timeout : Int) (outcome : Outcome)
    (hposix : Posix (request fds timeout) outcome) : Refines fds timeout outcome ↔
    0 ≤ timeout ∧ (∀ f ∈ fds, 0 ≤ f.fd ∧ f.fd < FD_SETSIZE) ∧
      match outcome with
      | .failed => fds = []
      | .ready r w e => Matched fds r w e := by
  constructor
  · intro h
    refine ⟨(waits_timeval_iff timeout).mp h.waits, sets_iff.mp h.sets, ?_⟩
    cases outcome with
    | failed =>
      refine List.eq_nil_iff_forall_not_mem.mpr fun f hf => ?_
      exact revents_failed_ne_zero hf ((h.failed rfl).2 _ (List.mem_map_of_mem hf))
    | ready r w e => exact (matched_iff hposix).mp ⟨h.count (by simp), h.requested⟩
  · rintro ⟨hle, hfds, houtcome⟩
    have hnegative : ∀ f ∈ (pollViaSelect fds timeout outcome).2, f.fd < 0 → f.revents = 0 := by
      intro f hf hlt
      obtain ⟨g, hg, hfd⟩ := exists_fd_eq hf
      exact absurd hlt (not_lt.mpr (hfd ▸ (hfds g hg).1))
    cases outcome with
    | failed =>
      obtain rfl : fds = [] := houtcome
      exact ⟨sets_iff.mpr hfds, (waits_timeval_iff timeout).mpr hle,
        fun _ => ⟨rfl, List.forall_mem_nil _⟩, fun h => absurd rfl h, List.forall_mem_nil _, hnegative⟩
    | ready r w e =>
      obtain ⟨hcount, hrequested⟩ := (matched_iff hposix).mpr houtcome
      exact ⟨sets_iff.mpr hfds, (waits_timeval_iff timeout).mpr hle, by simp, fun _ => hcount,
        hrequested, hnegative⟩

/-- One entry, ready in its one way. -/
theorem pollViaSelect_reading : Refines [⟨3, POLLIN, 0⟩] 100 (.ready {3} ∅ ∅) :=
  (pollViaSelect_iff [⟨3, POLLIN, 0⟩] 100 (.ready {3} ∅ ∅) (by
    refine ⟨?_, Finset.empty_subset _, Finset.empty_subset _⟩
    decide)).mpr (by
    refine ⟨by decide, by decide, ?_⟩
    exact ⟨by decide, by decide⟩)

/-- Entry 3 can be read and written, and counts twice. -/
theorem pollViaSelect_both : Posix (request [⟨3, POLLIN ||| POLLOUT, 0⟩] 100) (.ready {3} {3} ∅) ∧
    pollViaSelect [⟨3, POLLIN ||| POLLOUT, 0⟩] 100 (.ready {3} {3} ∅) =
      (2, [⟨3, POLLIN ||| POLLOUT, POLLIN ||| POLLOUT⟩]) ∧
    ¬ Refines [⟨3, POLLIN ||| POLLOUT, 0⟩] 100 (.ready {3} {3} ∅) := by
  refine ⟨⟨by decide, by decide, Finset.empty_subset _⟩, by decide, fun h => ?_⟩
  exact absurd (h.count (by simp)) (by decide)

end McpeLauncher.PollViaSelect
