import Mathlib.Data.List.Perm.Subperm
import Mathlib.Data.List.Range
import McpeLauncher.Lib.Runs

/-!
# Downloads of several files

`startDownload` of `DownloadTask` and of `GoogleApkDownloadTask` starts a request for each file and
counts the callbacks down; the last one ends the task. It holds the mutex of the progress until all
requests are started, so that callbacks that come earlier wait.
-/

namespace McpeLauncher.Download

/-- What is downloaded: a list of files, or the main APK and its splits, in a list with some
capacity. -/
inductive Request
  | files (count : Nat)
  | apks (skipMainApk : Bool) (splits capacity : Nat)
  deriving DecidableEq

namespace Request

/-- The first value of `progress->downloads`. -/
def downloads : Request → Nat
  | .files count => count
  | .apks _ _ capacity => 1 + capacity

/-- The number of calls of `downloadFile`. Old versions have no splits and need the main APK. -/
def count : Request → Nat
  | .files count => count
  | .apks skipMainApk splits _ => (if !skipMainApk || splits = 0 then 1 else 0) + splits

end Request

inductive Signal
  | activeChanged
  | finished
  deriving DecidableEq

/-- The callbacks of a request. -/
inductive Callback
  | success
  | error
  deriving DecidableEq

/-- The task with its progress, the signals it has emitted, how far `startDownload` is, and the
files whose callback has run. -/
structure DownloadTask where
  downloads : Nat
  failed : Bool
  active : Bool
  signals : List Signal
  id : Nat
  locked : Bool
  called : List Nat

namespace DownloadTask

/-- `--progress->downloads`, which is unsigned. -/
def decrement (downloads : Nat) : Nat := if downloads = 0 then UInt64.size - 1 else downloads - 1

def cleanup (s : DownloadTask) : DownloadTask :=
  let downloads := decrement s.downloads
  if downloads = 0 then
    { s with downloads, failed := true, active := false, signals := s.signals ++ [.activeChanged] }
  else { s with downloads }

def success (s : DownloadTask) : DownloadTask :=
  let downloads := decrement s.downloads
  if downloads = 0 ∧ s.failed = false then
    { s with downloads, active := false, signals := s.signals ++ [.activeChanged, .finished] }
  else { s with downloads }

def call (s : DownloadTask) : Callback → DownloadTask
  | .success => s.success
  | .error => s.cleanup

/-- `startDownload` of an active task, before its loop. -/
def startDownload (R : Request) : DownloadTask where
  downloads := R.downloads
  failed := false
  active := true
  signals := []
  id := 0
  locked := true
  called := []

/-- The loop of `startDownload` starts a request, it ends and gives the mutex back, or the callback
of a file gets the mutex. -/
inductive Action
  | downloadFile
  | unlock
  | callback (file : Nat) (c : Callback)

def step (R : Request) (s : DownloadTask) : Action → Option DownloadTask
  | .downloadFile => if s.locked ∧ s.id < R.count then some { s with id := s.id + 1 } else none
  | .unlock =>
    if s.locked ∧ s.id = R.count then some { s with downloads := s.id, locked := false } else none
  | .callback file c =>
    if s.locked = false ∧ file < s.id ∧ file ∉ s.called then
      some { s.call c with called := file :: s.called }
    else none

/-- The callbacks of a run. -/
def callbacks (as : List Action) : List Callback :=
  as.filterMap fun
    | .callback _ c => some c
    | _ => none

/-- At each point of the run the task is active as long as a callback is missing, and it has emitted
`finished` once if all callbacks came and were successes. -/
def Completes (R : Request) (as : List Action) : Prop :=
  ∀ bs t, bs <+: as → Runs.run (step R) (startDownload R) bs = some t →
    t.active = decide ((callbacks bs).length < R.count) ∧
    t.signals.count .finished =
      if (callbacks bs).length = R.count ∧ ∀ c ∈ callbacks bs, c = .success then 1 else 0

/-! ## What the callbacks do -/

variable {R : Request} {s t : DownloadTask} {as : List Action} {cs : List Callback}

theorem callbacks_append (as bs : List Action) :
    callbacks (as ++ bs) = callbacks as ++ callbacks bs :=
  List.filterMap_append

/-- No callback runs before the end of the loop. -/
structure Starting (s : DownloadTask) : Prop where
  locked : s.locked = true
  active : s.active = true
  failed : s.failed = false
  signals : s.signals = []
  called : s.called = []

/-- The callbacks that are missing are counted, and the last one decides what is emitted. -/
structure Running (R : Request) (cs : List Callback) (s : DownloadTask) : Prop where
  locked : s.locked = false
  id : s.id = R.count
  downloads : s.downloads + cs.length = R.count
  active : s.active = decide (cs.length < R.count)
  failed : cs.length < R.count → s.failed = false
  finished : s.signals.count .finished =
    if cs.length = R.count ∧ cs.getLast? = some .success then 1 else 0
  called : s.called.length = cs.length ∧ s.called.Nodup ∧ ∀ f ∈ s.called, f < R.count

/-- A file whose callback has not run yet is missing in the count. -/
theorem Running.length_lt (h : s.Running R cs) (hf : f < R.count) (hnot : f ∉ s.called) :
    cs.length < R.count := by
  obtain ⟨hlen, hnodup, hlt⟩ := h.called
  have hsub : (f :: s.called) ⊆ List.range R.count := by
    intro g hg
    rcases List.mem_cons.mp hg with rfl | hg
    · exact List.mem_range.mpr hf
    · exact List.mem_range.mpr (hlt g hg)
  have hle := ((List.nodup_cons.mpr ⟨hnot, hnodup⟩).subperm hsub).length_le
  rw [List.length_cons, List.length_range] at hle
  omega

theorem Running.decrement (h : s.Running R cs) (hlt : cs.length < R.count) :
    DownloadTask.decrement s.downloads + (cs.length + 1) = R.count := by
  have hd := h.downloads
  rw [DownloadTask.decrement, if_neg (by omega)]
  omega

/-- A callback that is not the last one only counts. -/
theorem call_of_ne_zero (h : decrement s.downloads ≠ 0) (c : Callback) :
    s.call c = { s with downloads := decrement s.downloads } := by
  cases c with
  | success => exact if_neg fun hz => h hz.1
  | error => exact if_neg h

/-- The last callback ends the task. -/
theorem call_of_zero (h : decrement s.downloads = 0) (hf : s.failed = false) (c : Callback) :
    s.call c = { s with
      downloads := 0
      failed := decide (c = .error)
      active := false
      signals := s.signals ++
        if c = .success then [.activeChanged, .finished] else [.activeChanged] } := by
  cases c with
  | success => simp [call, success, h, hf]
  | error => simp [call, cleanup, h]

/-- The callback of another file. -/
theorem Running.call (h : s.Running R cs) (hf : f < R.count) (hnot : f ∉ s.called) (c : Callback) :
    Running R (cs ++ [c]) { s.call c with called := f :: s.called } := by
  have hlt := h.length_lt hf hnot
  have hdec := h.decrement hlt
  have hcalled : (f :: s.called).length = (cs ++ [c]).length ∧ (f :: s.called).Nodup ∧
      ∀ g ∈ f :: s.called, g < R.count := by
    obtain ⟨hlen, hnodup, hall⟩ := h.called
    refine ⟨by simp [hlen], List.nodup_cons.mpr ⟨hnot, hnodup⟩, ?_⟩
    exact List.forall_mem_cons.mpr ⟨hf, hall⟩
  have hfinished := h.finished
  rw [if_neg (by omega)] at hfinished
  by_cases hz : DownloadTask.decrement s.downloads = 0
  · have hlast : cs.length + 1 = R.count := by omega
    rw [call_of_zero hz (h.failed hlt)]
    refine ⟨h.locked, h.id, by simp [hlast], by simp [hlast], by simp [hlast], ?_, hcalled⟩
    cases c with
    | success => simp [hfinished, hlast]
    | error => simp [hfinished]
  · have hmore : cs.length + 1 ≠ R.count := by omega
    rw [call_of_ne_zero hz]
    refine ⟨h.locked, h.id, by simpa using hdec, ?_, fun _ => h.failed hlt, ?_, hcalled⟩
    · simp only [h.active, List.length_append, List.length_singleton, decide_eq_decide]
      omega
    · simp [hfinished, hmore]

/-- Where a run is after some callbacks. -/
theorem starting_or_running (hR : 0 < R.count)
    (h : Runs.run (step R) (startDownload R) as = some s) :
    callbacks as = [] ∧ s.Starting ∨ s.Running R (callbacks as) := by
  induction as using List.reverseRecOn generalizing s with
  | nil =>
    cases h
    exact .inl ⟨rfl, rfl, rfl, rfl, rfl, rfl⟩
  | append_singleton as a ih =>
    rw [Runs.run_append] at h
    obtain ⟨t, ht, hstep⟩ := Option.bind_eq_some_iff.mp h
    obtain ⟨s', hs', hlast⟩ := Option.bind_eq_some_iff.mp hstep
    cases hlast
    rw [callbacks_append]
    cases a with
    | downloadFile =>
      obtain ⟨⟨hlocked, _⟩, hs⟩ := Option.ite_none_right_eq_some.mp hs'
      cases hs
      obtain ⟨hnil, hstart⟩ := (ih ht).resolve_right fun h => by simp [h.locked] at hlocked
      exact .inl ⟨by rw [hnil]; rfl, { hstart with }⟩
    | unlock =>
      obtain ⟨⟨hlocked, hid⟩, hs⟩ := Option.ite_none_right_eq_some.mp hs'
      cases hs
      obtain ⟨hnil, hstart⟩ := (ih ht).resolve_right fun h => by simp [h.locked] at hlocked
      rw [hnil]
      refine .inr ⟨rfl, hid, by simp [hid, callbacks], ?_, fun _ => hstart.failed, ?_, ?_⟩
      · simpa [hstart.active, callbacks] using hR
      · simp [hstart.signals, callbacks]
      · simp [hstart.called, callbacks]
    | callback f c =>
      obtain ⟨⟨hunlocked, hf, hnot⟩, hs⟩ := Option.ite_none_right_eq_some.mp hs'
      cases hs
      have hrun := (ih ht).resolve_left fun h => by simp [h.2.locked] at hunlocked
      exact .inr (hrun.call (hrun.id ▸ hf) hnot c)

/-- The task is active until the last callback, which emits `finished` if it is a success. -/
theorem active_and_finished (hR : 0 < R.count)
    (h : Runs.run (step R) (startDownload R) as = some s) :
    s.active = decide ((callbacks as).length < R.count) ∧ s.signals.count .finished =
      if (callbacks as).length = R.count ∧ (callbacks as).getLast? = some .success then 1 else 0 := by
  rcases starting_or_running hR h with ⟨hnil, hstart⟩ | hrun
  · simp [hnil, hstart.active, hstart.signals, hR]
  · exact ⟨hrun.active, hrun.finished⟩

theorem getLast?_of_forall_success (hne : cs ≠ []) (h : ∀ c ∈ cs, c = .success) :
    cs.getLast? = some .success := by
  rw [List.getLast?_eq_some_getLast hne, h _ (List.getLast_mem hne)]

/-- A download of at least one file whose callbacks have all come went as it should if and only if
no error came before a success that is the last callback. -/
theorem completes_iff (R : Request) (hR : 0 < R.count) (as : List Action)
    (hrun : Runs.run (step R) (startDownload R) as = some s)
    (hall : (callbacks as).length = R.count) :
    Completes R as ↔
      (∀ c ∈ callbacks as, c = .success) ∨ (callbacks as).getLast? = some .error := by
  have hne : callbacks as ≠ [] := by
    intro hnil
    rw [hnil, List.length_nil] at hall
    omega
  constructor
  · intro h
    by_cases hok : ∀ c ∈ callbacks as, c = .success
    · exact .inl hok
    · have hlast : (callbacks as).getLast? ≠ some .success := by
        intro hlast
        have hcount := (h as s (List.prefix_refl as) hrun).2
        rw [(active_and_finished hR hrun).2, if_pos ⟨hall, hlast⟩,
          if_neg fun hand => hok hand.2] at hcount
        cases hcount
      rw [List.getLast?_eq_some_getLast hne] at hlast ⊢
      cases hc : (callbacks as).getLast hne with
      | success => exact absurd (congrArg some hc) hlast
      | error => exact .inr rfl
  · intro h bs t hbs ht
    refine ⟨(active_and_finished hR ht).1, (active_and_finished hR ht).2.trans (if_congr ?_ rfl rfl)⟩
    apply and_congr_right
    intro hlen
    -- all callbacks have come, so they are those of the whole run
    have heq : callbacks bs = callbacks as := by
      obtain ⟨cs, rfl⟩ := hbs
      rw [callbacks_append, List.length_append] at hall
      have hnil : callbacks cs = [] := List.length_eq_zero_iff.mp (by omega)
      rw [callbacks_append, hnil, List.append_nil]
    rw [heq]
    refine ⟨fun hlast => h.resolve_right fun herror => ?_, getLast?_of_forall_success hne⟩
    exact absurd (hlast.symm.trans herror) (by simp)

theorem completes_twoFiles : Completes (.files 2)
    [.downloadFile, .downloadFile, .unlock, .callback 1 .success, .callback 0 .error] :=
  (completes_iff (.files 2) (by decide) _ rfl rfl).mpr (.inr rfl)

/-- The first file fails and the second one does not. -/
theorem not_completes_errorFirst : ¬Completes (.files 2)
    [.downloadFile, .downloadFile, .unlock, .callback 0 .error, .callback 1 .success] := by
  intro h
  have hcount := (h _ _ (List.prefix_refl _) rfl).2
  exact absurd hcount (by decide)

end DownloadTask

end McpeLauncher.Download
