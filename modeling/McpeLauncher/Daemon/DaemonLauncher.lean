import Mathlib.Data.List.Basic
import McpeLauncher.Lib.Runs

/-!
# Waiting for a daemon

`daemon_launcher::open` starts the daemon and waits until one of four callbacks sets a promise: the
directory of the service file has changed, a child process has exited, or one of the two descriptors
is closed. The callbacks run on the thread of the I/O handler, in any order.
-/

namespace McpeLauncher.Daemon

/-- The name of a file. -/
structure FileName where
  bytes : List UInt8
  noNul : 0 ∉ bytes
  deriving DecidableEq

/-- `strncmp`. There is a zero byte behind both texts. -/
def strncmp : List UInt8 → List UInt8 → Nat → Int
  | _, _, 0 => 0
  | a, b, n + 1 =>
    if a.headD 0 ≠ b.headD 0 then (a.headD 0).toNat - (b.headD 0).toNat
    else if a.headD 0 = 0 then 0
    else strncmp a.tail b.tail n

/-- `inotify_event`; `len` is the length of the name. -/
structure InotifyEvent where
  wd : Int
  name : List UInt8

/-- What the kernel reports: a file was created in the directory (its name is padded with zero
bytes), the directory is no longer watched or was unmounted, or events were lost. -/
inductive KernelEvent
  | created (name : FileName) (padding : Nat)
  | nameless
  | overflow
  deriving DecidableEq

/-- A watch descriptor that was returned is not negative. -/
def KernelEvent.toInotify (wd : Nat) : KernelEvent → InotifyEvent
  | .created name padding => ⟨wd, name.bytes ++ List.replicate (padding + 1) 0⟩
  | .nameless => ⟨wd, []⟩
  | .overflow => ⟨-1, []⟩

inductive ProcState
  | running
  | exited
  | reaped
  deriving DecidableEq

/-- The events that were not read, what has happened, how often `stop_promise.set_value` was called,
and whether one of the calls had no reason. -/
structure DaemonWait where
  queue : List KernelEvent
  created : Bool
  proc : ProcState
  closed : Bool
  setValues : Nat
  unfounded : Bool

namespace DaemonWait

def init : DaemonWait := ⟨[], false, .running, false, 0, false⟩

/-- A reason to stop waiting. -/
def Cause (s : DaemonWait) : Prop := s.created = true ∨ s.proc ≠ .running ∨ s.closed = true
  deriving Decidable

/-- `stop_promise.set_value()`; it throws if it was called before. -/
def setValue (s : DaemonWait) : DaemonWait :=
  { s with setValues := s.setValues + 1, unfounded := s.unfounded || !decide s.Cause }

variable (wd : Nat) (serviceFilename : FileName)

/-- The condition in the callback of the inotify descriptor. -/
def isService (event : InotifyEvent) : Prop :=
  event.wd = wd ∧ strncmp event.name serviceFilename.bytes event.name.length = 0
  deriving Decidable

/-- The loop over the events that were read; it is left when `set_value` throws. -/
def eventLoop (s : DaemonWait) : List InotifyEvent → DaemonWait
  | [] => s
  | event :: events =>
    if isService wd serviceFilename event then
      if s.setValues = 0 then eventLoop s.setValue events else s.setValue
    else eventLoop s events

/-- The callback of the inotify descriptor, which reads all events or, if the read does not return
the size that was asked for, drops some. -/
def onInotify (s : DaemonWait) : Option Nat → DaemonWait
  | none => eventLoop wd serviceFilename { s with queue := [] } (s.queue.map (·.toInotify wd))
  | some dropped => { s with queue := s.queue.drop dropped }

/-- The callback of the signal descriptor. `waitpid` returns 0 for a process that is running, and -1
for one that was reaped. -/
def onSignal (s : DaemonWait) : DaemonWait :=
  match s.proc with
  | .running => s.setValue
  | .exited => { s with proc := .reaped }.setValue
  | .reaped => s

/-- The callback of a descriptor that was closed. -/
def onHangUp (s : DaemonWait) : DaemonWait := { s with closed := true }.setValue

/-- What happens in the system, and the callbacks. -/
inductive Action
  | create (name : FileName) (padding : Nat)
  | unwatch
  | overflow
  | exit
  /-- Another part of the program reaps the process. -/
  | reap
  | inotify (short : Option Nat)
  | signal
  | hangUp

def step (s : DaemonWait) : Action → Option DaemonWait
  | .create name padding =>
    some { s with queue := s.queue ++ [.created name padding],
                  created := s.created || decide (name = serviceFilename) }
  | .unwatch => some { s with queue := s.queue ++ [.nameless] }
  | .overflow => some { s with queue := s.queue ++ [.overflow] }
  | .exit => if s.proc = .running then some { s with proc := .exited } else none
  | .reap => if s.proc = .exited then some { s with proc := .reaped } else none
  | .inotify short => some (s.onInotify wd serviceFilename short)
  | .signal => some s.onSignal
  | .hangUp => some s.onHangUp

/-- The promise was set once at most, and each time for a reason. -/
structure Sound (s : DaemonWait) : Prop where
  once : s.setValues ≤ 1
  founded : s.unfounded = false

/-- An event that stops the waiting. -/
def Matches : KernelEvent → Bool
  | .created name _ => name = serviceFilename
  | .nameless => true
  | .overflow => false

/-- The callback does not set a promise that is set or sets it twice, and it sets it for a
reason. -/
def CallOk (s : DaemonWait) : Action → Prop
  | .inotify none =>
    s.setValues + s.queue.countP (Matches serviceFilename) ≤ 1 ∧ (.nameless ∈ s.queue → s.Cause)
  | .signal => s.proc = .reaped ∨ s.setValues = 0 ∧ s.Cause
  | .hangUp => s.setValues = 0
  | _ => True

/-! ## Which events match -/

variable {wd serviceFilename}

theorem strncmp_padded_eq_zero_iff {a b : List UInt8} (ha : 0 ∉ a) (hb : 0 ∉ b) (k : Nat) :
    strncmp (a ++ List.replicate (k + 1) 0) b (a.length + (k + 1)) = 0 ↔ a = b := by
  have hdiff : ∀ x y : UInt8, x ≠ y → (x.toNat - y.toNat : Int) ≠ 0 := by
    intro x y hxy h
    exact hxy (UInt8.toNat_inj.mp (by omega))
  induction a generalizing b with
  | nil =>
    rw [List.nil_append, List.length_nil, Nat.zero_add, strncmp, List.replicate_succ,
      List.headD_cons]
    cases b with
    | nil => exact iff_of_true rfl rfl
    | cons y b =>
      have hy : 0 ≠ y := fun h => hb (h ▸ .head b)
      rw [List.headD_cons, if_pos hy]
      exact iff_of_false (hdiff 0 y hy) (List.cons_ne_nil y b).symm
  | cons x a ih =>
    have hx : x ≠ 0 := fun h => ha (h ▸ .head a)
    rw [List.cons_append, List.length_cons, Nat.add_right_comm, strncmp, List.headD_cons]
    cases b with
    | nil =>
      rw [List.headD_nil, if_pos hx]
      exact iff_of_false (hdiff x 0 hx) (List.cons_ne_nil x a)
    | cons y b =>
      rw [List.headD_cons, List.cons.injEq]
      by_cases hxy : x = y
      · rw [if_neg (not_not.mpr hxy), if_neg hx, and_iff_right hxy]
        exact ih (fun h => ha (.tail x h)) fun h => hb (.tail y h)
      · rw [if_pos hxy]
        exact iff_of_false (hdiff x y hxy) fun h => hxy h.1

/-- A padded name is compared as a whole, and an event without a name always matches. -/
theorem isService_iff (e : KernelEvent) :
    isService wd serviceFilename (e.toInotify wd) ↔ Matches serviceFilename e = true := by
  cases e with
  | created name padding =>
    have hcmp := strncmp_padded_eq_zero_iff name.noNul serviceFilename.noNul padding
    rw [isService, KernelEvent.toInotify, and_iff_right rfl, List.length_append,
      List.length_replicate, hcmp, Matches, decide_eq_true_iff]
    exact ⟨fun h => by cases name; cases serviceFilename; cases h; rfl, fun h => h ▸ rfl⟩
  | nameless => exact iff_of_true ⟨rfl, rfl⟩ rfl
  | overflow =>
    refine iff_of_false (fun h => ?_) Bool.false_ne_true
    have hwd : (-1 : Int) = wd := h.1
    omega

/-! ## What the callbacks do -/

variable {s s' : DaemonWait}

theorem sound_congr (hset : s'.setValues = s.setValues) (hunfounded : s'.unfounded = s.unfounded) :
    s'.Sound ↔ s.Sound :=
  ⟨fun h => ⟨hset ▸ h.once, hunfounded ▸ h.founded⟩,
   fun h => ⟨hset ▸ h.once, hunfounded ▸ h.founded⟩⟩

theorem setValue_sound_iff : s.setValue.Sound ↔
    s.setValues = 0 ∧ s.unfounded = false ∧ s.Cause := by
  constructor
  · intro h
    have honce : s.setValues + 1 ≤ 1 := h.once
    have hfounded : (s.unfounded || !decide s.Cause) = false := h.founded
    rw [Bool.or_eq_false_iff, Bool.not_eq_false', decide_eq_true_iff] at hfounded
    exact ⟨by omega, hfounded⟩
  · rintro ⟨hzero, hunfounded, hcause⟩
    refine ⟨?_, ?_⟩
    · show s.setValues + 1 ≤ 1
      omega
    · show (s.unfounded || !decide s.Cause) = false
      rw [hunfounded, decide_eq_true hcause]
      rfl

/-- The loop over the events: those that match are counted, and there must be a reason. -/
theorem eventLoop_sound_iff (events : List KernelEvent) :
    (s.eventLoop wd serviceFilename (events.map (·.toInotify wd))).Sound ↔
      s.Sound ∧ s.setValues + events.countP (Matches serviceFilename) ≤ 1 ∧
        (0 < events.countP (Matches serviceFilename) → s.Cause) := by
  induction events generalizing s with
  | nil =>
    rw [List.countP_nil]
    exact ⟨fun h => ⟨h, h.once, fun h0 => absurd h0 (Nat.lt_irrefl 0)⟩, fun h => h.1⟩
  | cons e events ih =>
    rw [List.map_cons, eventLoop]
    by_cases hmatch : Matches serviceFilename e = true
    · rw [if_pos ((isService_iff e).mpr hmatch), List.countP_cons_of_pos hmatch]
      split
      next hzero =>
        rw [ih, setValue_sound_iff]
        have hset : s.setValue.setValues = s.setValues + 1 := rfl
        have hcause : s.setValue.Cause ↔ s.Cause := Iff.rfl
        rw [hset, hcause]
        constructor
        · rintro ⟨⟨-, hfounded, hc⟩, hcount, -⟩
          exact ⟨⟨by omega, hfounded⟩, by omega, fun _ => hc⟩
        · rintro ⟨hs, hcount, hc⟩
          exact ⟨⟨hzero, hs.founded, hc (Nat.succ_pos _)⟩, by omega, fun _ => hc (Nat.succ_pos _)⟩
      next hset =>
        refine iff_of_false (fun h => hset (setValue_sound_iff.mp h).1) ?_
        rintro ⟨-, hcount, -⟩
        omega
    · rw [if_neg fun h => hmatch ((isService_iff e).mp h), List.countP_cons_of_neg hmatch]
      exact ih

/-- A file whose creation was not read yet has been created. -/
def Inv (serviceFilename : FileName) (s : DaemonWait) : Prop :=
  ∀ padding, .created serviceFilename padding ∈ s.queue → s.created = true

theorem eventLoop_queue (s : DaemonWait) (events : List InotifyEvent) :
    (s.eventLoop wd serviceFilename events).queue = s.queue := by
  induction events generalizing s with
  | nil => rfl
  | cons event events ih =>
    rw [eventLoop]
    split
    next =>
      split
      next => exact ih s.setValue
      next => rfl
    next => exact ih s

theorem Inv.append (h : Inv serviceFilename s) {e : KernelEvent} {c : Bool}
    (hnew : ∀ padding, e = .created serviceFilename padding → c = true) :
    Inv serviceFilename { s with queue := s.queue ++ [e], created := s.created || c } := by
  intro padding hmem
  rw [Bool.or_eq_true]
  rcases List.mem_append.mp hmem with hmem | hmem
  · exact .inl (h padding hmem)
  · exact .inr (hnew padding (List.mem_singleton.mp hmem).symm)

theorem Inv.step (h : Inv serviceFilename s) {a : Action}
    (hstep : s.step wd serviceFilename a = some s') : Inv serviceFilename s' := by
  cases a with
  | create name padding =>
    cases hstep
    refine h.append fun padding' he => ?_
    cases he
    exact decide_eq_true rfl
  | unwatch =>
    cases hstep
    have happend := h.append (e := .nameless) (c := false) fun padding he => nomatch he
    rwa [Bool.or_false] at happend
  | overflow =>
    cases hstep
    have happend := h.append (e := .overflow) (c := false) fun padding he => nomatch he
    rwa [Bool.or_false] at happend
  | exit =>
    rw [DaemonWait.step] at hstep
    split at hstep
    next => cases hstep; exact h
    next => cases hstep
  | reap =>
    rw [DaemonWait.step] at hstep
    split at hstep
    next => cases hstep; exact h
    next => cases hstep
  | inotify short =>
    cases hstep
    cases short with
    | none =>
      intro padding hmem
      rw [onInotify, eventLoop_queue] at hmem
      cases hmem
    | some dropped => exact fun padding hmem => h padding (List.mem_of_mem_drop hmem)
  | signal =>
    cases hstep
    intro padding hmem
    rw [onSignal] at hmem ⊢
    split at hmem <;> exact h padding hmem
  | hangUp => cases hstep; exact h

/-! ## The promise -/

/-- An event that matches is a reason, unless it has no name. -/
theorem cause_of_matches (h : Inv serviceFilename s) :
    (0 < s.queue.countP (Matches serviceFilename) → s.Cause) ↔ (.nameless ∈ s.queue → s.Cause) := by
  constructor
  · exact fun hc hmem => hc (List.countP_pos_iff.mpr ⟨_, hmem, rfl⟩)
  · intro hc hpos
    obtain ⟨e, hmem, hmatch⟩ := List.countP_pos_iff.mp hpos
    cases e with
    | created name padding =>
      have hname : name = serviceFilename := of_decide_eq_true hmatch
      exact .inl (h padding (hname ▸ hmem))
    | nameless => exact hc hmem
    | overflow => exact absurd hmatch Bool.false_ne_true

theorem onInotify_sound_iff (h : Inv serviceFilename s) :
    (s.onInotify wd serviceFilename none).Sound ↔
      s.Sound ∧ CallOk serviceFilename s (.inotify none) := by
  rw [onInotify, eventLoop_sound_iff, CallOk, ← cause_of_matches h]
  exact and_congr_left' (sound_congr rfl rfl)

theorem onSignal_sound_iff :
    s.onSignal.Sound ↔ s.Sound ∧ CallOk serviceFilename s .signal := by
  rw [onSignal, CallOk]
  split
  next hproc =>
    rw [setValue_sound_iff, hproc]
    constructor
    · rintro ⟨hzero, hfounded, hc⟩
      exact ⟨⟨by omega, hfounded⟩, .inr ⟨hzero, hc⟩⟩
    · rintro ⟨hs, h | ⟨hzero, hc⟩⟩
      · cases h
      · exact ⟨hzero, hs.founded, hc⟩
  next hproc =>
    rw [setValue_sound_iff, hproc]
    have hcause : s.Cause := .inr (.inl (fun h => nomatch hproc.symm.trans h))
    constructor
    · rintro ⟨hzero, hfounded, -⟩
      exact ⟨⟨Nat.le_succ_of_le (Nat.le_of_eq hzero), hfounded⟩, .inr ⟨hzero, hcause⟩⟩
    · rintro ⟨hs, h | ⟨hzero, -⟩⟩
      · cases h
      · exact ⟨hzero, hs.founded, .inr (.inl (fun h => nomatch h))⟩
  next hproc => exact (and_iff_left (.inl hproc)).symm

theorem onHangUp_sound_iff :
    s.onHangUp.Sound ↔ s.Sound ∧ CallOk serviceFilename s .hangUp := by
  rw [onHangUp, setValue_sound_iff, CallOk]
  constructor
  · rintro ⟨hzero, hfounded, -⟩
    exact ⟨⟨Nat.le_succ_of_le (Nat.le_of_eq hzero), hfounded⟩, hzero⟩
  · exact fun ⟨hs, hzero⟩ => ⟨hzero, hs.founded, .inr (.inr rfl)⟩

theorem step_sound_iff (h : Inv serviceFilename s) {a : Action}
    (hstep : s.step wd serviceFilename a = some s') :
    s'.Sound ↔ s.Sound ∧ CallOk serviceFilename s a := by
  -- What happens in the system leaves the promise alone.
  have hsame : s'.setValues = s.setValues → s'.unfounded = s.unfounded →
      (s'.Sound ↔ s.Sound ∧ True) := by
    intro hset hunfounded
    rw [and_true]
    exact sound_congr hset hunfounded
  cases a with
  | create name padding => cases hstep; exact hsame rfl rfl
  | unwatch => cases hstep; exact hsame rfl rfl
  | overflow => cases hstep; exact hsame rfl rfl
  | exit =>
    rw [DaemonWait.step] at hstep
    split at hstep
    next => cases hstep; exact hsame rfl rfl
    next => cases hstep
  | reap =>
    rw [DaemonWait.step] at hstep
    split at hstep
    next => cases hstep; exact hsame rfl rfl
    next => cases hstep
  | inotify short =>
    cases hstep
    cases short with
    | none => exact onInotify_sound_iff h
    | some dropped => exact hsame rfl rfl
  | signal => cases hstep; exact onSignal_sound_iff
  | hangUp => cases hstep; exact onHangUp_sound_iff

/-- The promise is set once at most and for a reason, exactly if each callback of the run finds a
state in which it may set it. -/
theorem sound_iff_meets (wd : Nat) (serviceFilename : FileName) (actions : List Action)
    (s : DaemonWait) (h : Runs.run (step wd serviceFilename) init actions = some s) :
    s.Sound ↔ Runs.Meets (step wd serviceFilename) (CallOk serviceFilename) init actions := by
  have hinit : Inv serviceFilename init := fun padding hmem => nomatch hmem
  rw [Runs.meets_iff_of_run (I := Inv serviceFilename) (P := Sound) (C := CallOk serviceFilename)
    (fun s a s' hs h => hs.step h) (fun s a s' hs h => step_sound_iff hs h) hinit h]
  exact and_iff_right ⟨Nat.zero_le 1, rfl⟩

/-- A daemon that creates its file under the name `a`, and exits after the callback. -/
theorem sound_created :
    ∃ s, Runs.run (step 1 ⟨[97], by decide⟩) init
        [.create ⟨[97], by decide⟩ 14, .inotify none, .exit] = some s ∧
      s.setValues = 1 ∧ s.Sound := by
  refine ⟨_, rfl, rfl, ?_⟩
  refine (sound_iff_meets 1 ⟨[97], by decide⟩
    [.create ⟨[97], by decide⟩ 14, .inotify none, .exit] _ rfl).mpr ?_
  refine .cons trivial rfl (.cons ⟨by decide, ?_⟩ rfl (.cons trivial rfl trivial))
  exact fun hmem => nomatch List.mem_singleton.mp hmem

/-- Another child process exits, and `waitpid` returns 0; after that the daemon exits as well. -/
theorem not_sound_signal : ¬ (∀ wd serviceFilename actions s,
    Runs.run (step wd serviceFilename) init actions = some s → s.Sound) := by
  intro h
  have hsound := h 1 ⟨[97], by decide⟩ [.signal, .exit, .signal] _ rfl
  exact absurd hsound.once (by decide)

end DaemonWait

end McpeLauncher.Daemon
