import Mathlib.Data.Rat.Floor
import Mathlib.Tactic.Linarith
import Mathlib.Tactic.Positivity
import Mathlib.Tactic.Ring
import McpeLauncher.Lib.Runs

/-!
# The transition of the zoom

`Transition` moves a value from a start to an end with the time. Progress is a rational number here;
what is made of it is truncated to an `unsigned long`, which is not defined outside of its range.
-/

namespace McpeLauncher.Zoom

/-- The conversion to `unsigned long`. -/
def toUnsignedLong (x : ℚ) : Option UInt64 :=
  if -1 < x ∧ x < 2 ^ 64 then some (UInt64.ofNat x.floor.toNat) else none

/-- The times are milliseconds of the epoch. -/
structure Transition where
  start : UInt64
  end_ : UInt64
  startTime : Int
  endTime : Int
  current : UInt64
  transitionInProgress : Bool
  deriving DecidableEq

namespace Transition

/-- The members of a static object. -/
def init : Transition := ⟨0, 0, 0, 0, 0, false⟩

def startTransition (t : Transition) (startVal endVal : UInt64) (durationMs getEpochTime : Int) :
    Transition :=
  { t with
    start := if t.transitionInProgress then t.current else startVal
    end_ := endVal
    transitionInProgress := true
    startTime := getEpochTime
    endTime := getEpochTime + durationMs }

def tick (t : Transition) (getEpochTime : Int) : Option Transition :=
  if t.transitionInProgress then
    let timeSinceStart := getEpochTime - t.startTime
    let currentProgress : ℚ := timeSinceStart / (t.endTime - t.startTime : Int)
    let t :=
      if currentProgress ≥ 1 then { t with current := t.end_, transitionInProgress := false } else t
    if t.start > t.end_ then
      let diff := t.start - t.end_
      (toUnsignedLong (t.start.toNat - diff.toNat * currentProgress)).map fun current =>
        { t with current }
    else
      let diff := t.end_ - t.start
      (toUnsignedLong (t.start.toNat + diff.toNat * currentProgress)).map fun current =>
        { t with current }
  else some t

end Transition

/-! ## Truncation -/

theorem floor_eq_iff {x : ℚ} {n : Int} : x.floor = n ↔ n ≤ x ∧ x < n + 1 := by
  constructor
  · rintro rfl
    exact ⟨Rat.floor_le x, by exact_mod_cast Rat.lt_floor_add_one x⟩
  · rintro ⟨hle, hlt⟩
    refine le_antisymm (Int.lt_add_one_iff.mp (Rat.floor_lt_iff.mpr ?_)) (Rat.le_floor_iff.mpr hle)
    exact_mod_cast hlt

theorem cast_succ_le (c : UInt64) : (c.toNat : ℚ) + 1 ≤ 2 ^ 64 := by
  have hlt := c.toNat_lt
  exact_mod_cast hlt

/-- What is not negative is rounded down. -/
theorem toUnsignedLong_of_nonneg {x : ℚ} {c : UInt64} (hx : 0 ≤ x) :
    toUnsignedLong x = some c ↔ c.toNat ≤ x ∧ x < c.toNat + 1 := by
  rw [toUnsignedLong, Option.ite_none_right_eq_some]
  constructor
  · rintro ⟨⟨-, hlt⟩, hc⟩
    have hfloor : 0 ≤ x.floor := Rat.le_floor_iff.mpr hx
    have hword : x.floor < 2 ^ 64 := Rat.floor_lt_iff.mpr (by exact_mod_cast hlt)
    have hnat : (c.toNat : Int) = x.floor := by
      have hsize : x.floor.toNat < 2 ^ 64 := by omega
      rw [← Option.some.inj hc, UInt64.toNat_ofNat_of_lt' hsize, Int.toNat_of_nonneg hfloor]
    exact_mod_cast floor_eq_iff.mp hnat.symm
  · rintro ⟨hle, hlt⟩
    have hfloor : x.floor = c.toNat :=
      floor_eq_iff.mpr ⟨by exact_mod_cast hle, by exact_mod_cast hlt⟩
    refine ⟨⟨by linarith, lt_of_lt_of_le hlt (cast_succ_le c)⟩, ?_⟩
    rw [hfloor, Int.toNat_natCast, UInt64.ofNat_toNat]

/-- What is negative, but not below -1, is rounded to 0. -/
theorem toUnsignedLong_of_neg {x : ℚ} {c : UInt64} (hx : x < 0) :
    toUnsignedLong x = some c ↔ c = 0 ∧ -1 < x := by
  have hfloor : x.floor.toNat = 0 := by
    have : x.floor < 0 := Rat.floor_lt_iff.mpr hx
    omega
  have hlt : x < 2 ^ 64 := lt_of_lt_of_le hx (by norm_num)
  rw [toUnsignedLong, Option.ite_none_right_eq_some, hfloor, and_iff_left hlt, and_comm, eq_comm,
    Option.some_inj]
  rfl

/-- A value between two words is rounded to one between them. -/
theorem toUnsignedLong_between {x : ℚ} {a b : UInt64} (ha : a.toNat ≤ x) (hb : x ≤ b.toNat) :
    ∃ c, toUnsignedLong x = some c ∧ a ≤ c ∧ c ≤ b := by
  have hx : 0 ≤ x := le_trans (Nat.cast_nonneg _) ha
  have hlt : x < 2 ^ 64 := lt_of_lt_of_le (by linarith) (cast_succ_le b)
  have hc : toUnsignedLong x = some (UInt64.ofNat x.floor.toNat) := by
    rw [toUnsignedLong, if_pos ⟨by linarith, hlt⟩]
  obtain ⟨hle, hsucc⟩ := (toUnsignedLong_of_nonneg hx).mp hc
  refine ⟨_, hc, ?_, ?_⟩
  · have hac : (a.toNat : ℚ) < (UInt64.ofNat x.floor.toNat).toNat + 1 := lt_of_le_of_lt ha hsucc
    exact UInt64.le_iff_toNat_le.mpr (Nat.lt_succ_iff.mp (by exact_mod_cast hac))
  · have hcb := le_trans hle hb
    exact UInt64.le_iff_toNat_le.mpr (by exact_mod_cast hcb)

/-! ## Between the end points -/

section Interpolation
variable {s e : UInt64} {p : ℚ}

/-- The value on the way from `s` to `e`, as it is computed for either direction. -/
def interpolate (s e : UInt64) (p : ℚ) : Option UInt64 :=
  if s > e then toUnsignedLong (s.toNat - (s - e).toNat * p)
  else toUnsignedLong (s.toNat + (e - s).toNat * p)

def Between (s e c : UInt64) : Prop := (s ≤ c ∧ c ≤ e) ∨ (e ≤ c ∧ c ≤ s)

theorem between_end : Between s e e :=
  (UInt64.le_total s e).imp (⟨·, UInt64.le_refl e⟩) (⟨UInt64.le_refl e, ·⟩)

theorem interpolate_up (h : s ≤ e) (p : ℚ) :
    interpolate s e p = toUnsignedLong (s.toNat + (e.toNat - s.toNat) * p) := by
  rw [interpolate, if_neg (UInt64.not_lt.mpr h), UInt64.toNat_sub_of_le e s h,
    Nat.cast_sub (UInt64.le_iff_toNat_le.mp h)]

theorem interpolate_down (h : e < s) (p : ℚ) :
    interpolate s e p = toUnsignedLong (s.toNat - (s.toNat - e.toNat) * p) := by
  have hle : e ≤ s := UInt64.le_of_lt h
  rw [interpolate, if_pos h, UInt64.toNat_sub_of_le s e hle,
    Nat.cast_sub (UInt64.le_iff_toNat_le.mp hle)]

theorem cast_le (h : s ≤ e) : (s.toNat : ℚ) ≤ e.toNat :=
  Nat.cast_le.mpr (UInt64.le_iff_toNat_le.mp h)

/-- As long as the progress is not beyond the end, the value is not either. -/
theorem interpolate_between (hp : 0 ≤ p) (hp' : p ≤ 1) :
    ∃ c, interpolate s e p = some c ∧ Between s e c := by
  by_cases h : s ≤ e
  · have hse := cast_le h
    rw [interpolate_up h]
    obtain ⟨c, hc, hs, he⟩ := toUnsignedLong_between (a := s) (b := e)
      (x := s.toNat + (e.toNat - s.toNat) * p) (by nlinarith) (by nlinarith)
    exact ⟨c, hc, .inl ⟨hs, he⟩⟩
  · have h := UInt64.not_le.mp h
    have hes := cast_le (UInt64.le_of_lt h)
    rw [interpolate_down h]
    obtain ⟨c, hc, he, hs⟩ := toUnsignedLong_between (a := e) (b := s)
      (x := s.toNat - (s.toNat - e.toNat) * p) (by nlinarith) (by nlinarith)
    exact ⟨c, hc, .inr ⟨he, hs⟩⟩

theorem interpolate_one : interpolate s e 1 = some e := by
  by_cases h : s ≤ e
  · rw [interpolate_up h, mul_one, add_sub_cancel, toUnsignedLong_of_nonneg (Nat.cast_nonneg _)]
    exact ⟨le_rfl, lt_add_one _⟩
  · rw [interpolate_down (UInt64.not_le.mp h), mul_one, sub_sub_cancel,
      toUnsignedLong_of_nonneg (Nat.cast_nonneg _)]
    exact ⟨le_rfl, lt_add_one _⟩

/-- The distance of two words. -/
def distance (s e : UInt64) : Nat := (s.toNat - e.toNat) + (e.toNat - s.toNat)

theorem distance_comm (s e : UInt64) : distance s e = distance e s := Nat.add_comm _ _

theorem cast_distance (h : s ≤ e) : (distance s e : ℚ) = e.toNat - s.toNat := by
  have hle := UInt64.le_iff_toNat_le.mp h
  rw [distance, Nat.sub_eq_zero_of_le hle, Nat.zero_add, Nat.cast_sub hle]

/-- Progress beyond the end gives the end if it is less than one unit beyond it, and there is
nothing below the end or the way goes up. -/
theorem interpolate_late_iff (hp : 1 < p) : interpolate s e p = some e ↔
    (s ≤ e ∨ e = 0) ∧ distance s e * (p - 1) < 1 := by
  by_cases h : s ≤ e
  · have hse := cast_le h
    have hvalue : s.toNat + (e.toNat - s.toNat) * p =
        e.toNat + (e.toNat - s.toNat : ℚ) * (p - 1) := by ring
    have hlate : 0 ≤ (e.toNat - s.toNat : ℚ) * (p - 1) := mul_nonneg (by linarith) (by linarith)
    rw [interpolate_up h, hvalue, toUnsignedLong_of_nonneg (by positivity), cast_distance h]
    constructor
    · rintro ⟨-, hlt⟩
      exact ⟨.inl h, by linarith⟩
    · rintro ⟨-, hlt⟩
      exact ⟨by linarith, by linarith⟩
  · have hlt := UInt64.not_le.mp h
    have hes : (e.toNat : ℚ) < s.toNat := Nat.cast_lt.mpr (UInt64.lt_iff_toNat_lt.mp hlt)
    have hvalue : s.toNat - (s.toNat - e.toNat) * p =
        e.toNat - (s.toNat - e.toNat : ℚ) * (p - 1) := by ring
    have hlate : 0 < (s.toNat - e.toNat : ℚ) * (p - 1) := mul_pos (by linarith) (by linarith)
    rw [interpolate_down hlt, hvalue, or_iff_right h, distance_comm,
      cast_distance (UInt64.le_of_lt hlt)]
    by_cases hx : (e.toNat - (s.toNat - e.toNat : ℚ) * (p - 1)) < 0
    · rw [toUnsignedLong_of_neg hx]
      refine and_congr_right fun he => ?_
      rw [he, UInt64.toNat_zero, Nat.cast_zero]
      constructor
      · intro h
        linarith
      · intro h
        linarith
    · -- a value that is not negative is below the end
      rw [toUnsignedLong_of_nonneg (not_lt.mp hx)]
      refine iff_of_false (fun h => ?_) fun h => ?_
      · linarith [h.1]
      · obtain ⟨rfl, -⟩ := h
        rw [UInt64.toNat_zero, Nat.cast_zero] at hx hlate
        exact hx (by linarith)

end Interpolation

namespace Transition

/-- The part of the duration that is over; it goes on beyond the end. -/
def progress (t : Transition) (time : Int) : ℚ :=
  (time - t.startTime : Int) / (t.endTime - t.startTime : Int)

@[simp] theorem tick_idle {t : Transition} (h : t.transitionInProgress = false) (time : Int) :
    t.tick time = some t := by
  rw [tick, h]
  rfl

/-- The last tick computes the value as every other one does. -/
theorem tick_running {t : Transition} (h : t.transitionInProgress = true) (time : Int) :
    t.tick time = (interpolate t.start t.end_ (t.progress time)).map fun current =>
      { t with current, transitionInProgress := decide (t.progress time < 1) } := by
  have hprogress : ((time - t.startTime : Int) : ℚ) / (t.endTime - t.startTime : Int) =
      t.progress time := rfl
  rw [tick, if_pos h]
  simp only [hprogress, interpolate]
  by_cases hp : t.progress time < 1
  · simp only [if_neg (not_le.mpr hp), decide_eq_true hp, ← h]
    split <;> rfl
  · simp only [if_pos (not_lt.mp hp), decide_eq_false hp]
    split <;> rfl

/-- A tick does not move the end points or the times, and starts nothing. -/
theorem tick_frame {t t' : Transition} {time : Int} (h : t.tick time = some t') :
    t'.start = t.start ∧ t'.end_ = t.end_ ∧ t'.startTime = t.startTime ∧ t'.endTime = t.endTime ∧
      (t'.transitionInProgress = true → t.transitionInProgress = true) := by
  by_cases hrun : t.transitionInProgress = true
  · rw [tick_running hrun] at h
    obtain ⟨current, -, rfl⟩ := Option.map_eq_some_iff.mp h
    exact ⟨rfl, rfl, rfl, rfl, fun _ => hrun⟩
  · rw [tick_idle (Bool.not_eq_true _ ▸ hrun)] at h
    cases h
    exact ⟨rfl, rfl, rfl, rfl, id⟩

end Transition

/-! ## Runs of the clock -/

/-- A transition with the last reading of the clock. -/
structure Animation where
  transition : Transition
  clock : Int
  deriving DecidableEq

/-- What happens to a transition, and the time since the last reading of the clock. -/
inductive Action where
  | startTransition (startVal endVal : UInt64) (durationMs : {d : Int // 100 ≤ d}) (elapsed : Nat)
  | tick (elapsed : Nat)

/-- The shortest time of a transition. -/
def shortest : {d : Int // 100 ≤ d} := ⟨100, le_rfl⟩

namespace Animation

def init (clock : Int) : Animation := ⟨.init, clock⟩

def step (s : Animation) : Action → Option Animation
  | .startTransition startVal endVal durationMs elapsed =>
    let clock := s.clock + elapsed
    some ⟨s.transition.startTransition startVal endVal durationMs clock, clock⟩
  | .tick elapsed =>
    let clock := s.clock + elapsed
    (s.transition.tick clock).map fun transition => ⟨transition, clock⟩

/-- A step has a result, which is between the end points if it is that of a tick, and which is the
end if no transition is in progress. -/
def Smooth (s : Animation) (a : Action) : Prop :=
  ∃ s', s.step a = some s' ∧
    (∀ elapsed, a = .tick elapsed → s.transition.transitionInProgress = true →
      Between s'.transition.start s'.transition.end_ s'.transition.current) ∧
    (s'.transition.transitionInProgress = false → s'.transition.current = s'.transition.end_)

/-- A tick of a transition does not come after its end, or it does by so little that it is less
than one unit beyond the end. -/
def OnTime (s : Animation) : Action → Prop
  | .startTransition .. => True
  | .tick elapsed =>
    let t := s.transition
    t.transitionInProgress = true →
      s.clock + elapsed ≤ t.endTime ∨
      ((t.start ≤ t.end_ ∨ t.end_ = 0) ∧
        distance t.start t.end_ * (s.clock + elapsed - t.endTime) < t.endTime - t.startTime)

structure Inv (s : Animation) : Prop where
  running : s.transition.transitionInProgress = true →
    s.transition.startTime ≤ s.clock ∧ s.transition.startTime < s.transition.endTime
  idle : s.transition.transitionInProgress = false → s.transition.current = s.transition.end_

theorem inv_init (clock : Int) : Inv (init clock) where
  running h := nomatch h
  idle _ := rfl

variable {s s' : Animation}

theorem progress_nonneg (h : Inv s) (hrun : s.transition.transitionInProgress = true)
    (elapsed : Nat) : 0 ≤ s.transition.progress (s.clock + elapsed) := by
  obtain ⟨hstart, hend⟩ := h.running hrun
  exact div_nonneg (Int.cast_nonneg (by omega)) (Int.cast_nonneg (by omega))

theorem progress_le_one_iff (h : Inv s) (hrun : s.transition.transitionInProgress = true)
    (time : Int) : s.transition.progress time ≤ 1 ↔ time ≤ s.transition.endTime := by
  obtain ⟨-, hend⟩ := h.running hrun
  rw [Transition.progress, div_le_one (Int.cast_pos.mpr (by omega)), Int.cast_le]
  omega

theorem late_iff (h : Inv s) (hrun : s.transition.transitionInProgress = true) (d : Nat)
    (time : Int) : d * (s.transition.progress time - 1) < 1 ↔
      d * (time - s.transition.endTime) < s.transition.endTime - s.transition.startTime := by
  obtain ⟨-, hend⟩ := h.running hrun
  have hpos : (0 : ℚ) < (s.transition.endTime - s.transition.startTime : Int) :=
    Int.cast_pos.mpr (by omega)
  have hlate : s.transition.progress time - 1 =
      (time - s.transition.endTime : Int) /
        (s.transition.endTime - s.transition.startTime : Int) := by
    rw [Transition.progress, div_sub_one hpos.ne']
    push_cast
    ring
  rw [hlate, mul_div_assoc', div_lt_one hpos]
  exact_mod_cast Iff.rfl

theorem step_running (hrun : s.transition.transitionInProgress = true) {elapsed : Nat} {p : ℚ}
    (hp : s.transition.progress (s.clock + elapsed) = p) :
    s.step (.tick elapsed) = (interpolate s.transition.start s.transition.end_ p).map
      fun current => ⟨{ s.transition with
        current, transitionInProgress := decide (p < 1) }, s.clock + elapsed⟩ := by
  rw [step, Transition.tick_running hrun, hp, Option.map_map]
  rfl

/-- What a tick of a transition has to compute. -/
theorem smooth_running (hrun : s.transition.transitionInProgress = true) {elapsed : Nat} {p : ℚ}
    (hp : s.transition.progress (s.clock + elapsed) = p) : Smooth s (.tick elapsed) ↔
      ∃ current, interpolate s.transition.start s.transition.end_ p = some current ∧
        Between s.transition.start s.transition.end_ current ∧
        (1 ≤ p → current = s.transition.end_) := by
  constructor
  · rintro ⟨s', hstep, hbetween, hidle⟩
    rw [step_running hrun hp] at hstep
    obtain ⟨current, hcurrent, rfl⟩ := Option.map_eq_some_iff.mp hstep
    exact ⟨current, hcurrent, hbetween elapsed rfl hrun,
      fun hp => hidle (decide_eq_false (not_lt.mpr hp))⟩
  · rintro ⟨current, hcurrent, hbetween, hend⟩
    refine ⟨_, by rw [step_running hrun hp, hcurrent]; rfl, fun _ _ _ => hbetween, fun hidle => ?_⟩
    exact hend (not_lt.mp (of_decide_eq_false hidle))

theorem smooth_running_iff (h : Inv s) (hrun : s.transition.transitionInProgress = true)
    (elapsed : Nat) : Smooth s (.tick elapsed) ↔ OnTime s (.tick elapsed) := by
  have hlate := late_iff h hrun (distance s.transition.start s.transition.end_) (s.clock + elapsed)
  have hle := progress_le_one_iff h hrun (s.clock + elapsed)
  have hnonneg := progress_nonneg h hrun elapsed
  generalize hp : s.transition.progress (s.clock + elapsed) = p at hlate hle hnonneg
  rw [smooth_running hrun hp]
  rcases lt_trichotomy p 1 with hp | rfl | hp
  · obtain ⟨current, hcurrent, hbetween⟩ := interpolate_between hnonneg hp.le
    exact iff_of_true ⟨current, hcurrent, hbetween, fun hp' => absurd hp' (not_le.mpr hp)⟩
      fun _ => .inl (hle.mp hp.le)
  · exact iff_of_true ⟨_, interpolate_one, between_end, fun _ => rfl⟩
      fun _ => .inl (hle.mp le_rfl)
  · -- the end is computed again, with a progress beyond it
    have hend := interpolate_late_iff (s := s.transition.start) (e := s.transition.end_) hp
    constructor
    · rintro ⟨current, hcurrent, -, hcurrent'⟩ -
      obtain rfl := hcurrent' hp.le
      obtain ⟨hup, hdistance⟩ := hend.mp hcurrent
      exact .inr ⟨hup, hlate.mp hdistance⟩
    · intro hok
      obtain hok | ⟨hup, hdistance⟩ := hok hrun
      · exact absurd (hle.mpr hok) (not_le.mpr hp)
      · exact ⟨_, hend.mpr ⟨hup, hlate.mpr hdistance⟩, between_end, fun _ => rfl⟩

theorem smooth_iff (h : Inv s) (a : Action) : Smooth s a ↔ OnTime s a := by
  cases a with
  | startTransition =>
    exact iff_of_true ⟨_, rfl, (fun _ h => nomatch h), fun h => nomatch h⟩ trivial
  | tick elapsed =>
    by_cases hrun : s.transition.transitionInProgress = true
    · exact smooth_running_iff h hrun elapsed
    · refine iff_of_true ?_ fun hrun' => absurd hrun' hrun
      have hidle := Bool.eq_false_iff.mpr hrun
      exact ⟨⟨s.transition, s.clock + elapsed⟩, by rw [step, Transition.tick_idle hidle]; rfl,
        fun _ _ hrun' => absurd hrun' hrun, fun _ => h.idle hidle⟩

theorem Inv.step (h : Inv s) {a : Action} (hok : OnTime s a) (hstep : s.step a = some s') :
    Inv s' := by
  obtain ⟨s'', hstep', -, hidle⟩ := (smooth_iff h a).mpr hok
  obtain rfl : s'' = s' := Option.some.inj (hstep'.symm.trans hstep)
  refine ⟨fun hrun => ?_, hidle⟩
  cases a with
  | startTransition startVal endVal durationMs elapsed =>
    cases hstep
    have hduration := durationMs.2
    exact ⟨le_rfl, show s.clock + elapsed < s.clock + elapsed + durationMs.1 by omega⟩
  | tick elapsed =>
    obtain ⟨t, htick, rfl⟩ := Option.map_eq_some_iff.mp hstep
    obtain ⟨-, -, hstart, hend, hrunning⟩ := Transition.tick_frame htick
    obtain ⟨hclock, hlt⟩ := h.running (hrunning hrun)
    rw [hstart, hend]
    exact ⟨by simpa using hclock.trans (Int.le_add_of_nonneg_right (Int.natCast_nonneg _)), hlt⟩

/-- A transition stays between its end points and ends at its end in all of a run exactly if all
ticks of it are on time. -/
theorem smooth_iff_onTime (clock : Int) (actions : List Action) :
    Runs.Meets step Smooth (init clock) actions ↔ Runs.Meets step OnTime (init clock) actions :=
  Runs.meets_congr (fun _ a h => smooth_iff h a) (fun _ _ _ h => h.step) (inv_init clock)

/-- A second and a half after the end of a transition of 100 ms, the frame that ends it is 15
times the distance beyond the end. -/
def lateFrame : List Action := [.startTransition 0 10 shortest 0, .tick 1600]

theorem not_smooth_late : (∃ s, Runs.run step (init 0) lateFrame = some s ∧
      s.transition.transitionInProgress = false ∧ s.transition.end_ = 10 ∧
      s.transition.current = 160) ∧
    ¬ ∀ (clock : Int) (actions : List Action), Runs.Meets step Smooth (init clock) actions := by
  refine ⟨?_, fun h => ?_⟩
  · exact ⟨⟨⟨0, 10, 0, 100, 160, false⟩, 1600⟩, by decide +kernel, rfl, rfl, rfl⟩
  · obtain ⟨-, hrest⟩ := h 0 lateFrame
    have hinv := (inv_init 0).step (a := lateFrame.head nofun) trivial rfl
    have htime := (smooth_iff hinv _).mp (hrest _ rfl).1
    exact absurd (htime rfl) (by decide +kernel)

end Animation

end McpeLauncher.Zoom
