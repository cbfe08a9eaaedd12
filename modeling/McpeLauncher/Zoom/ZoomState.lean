import McpeLauncher.Zoom.Transition

/-!
# The zoom

`Zoom` starts the transitions: when the zoom key is pressed and released, and when the mouse wheel
is turned meanwhile. They are ticked where the game asks for its field of view. What is left out is
the scale of the mouse, which nothing here depends on.
-/

namespace McpeLauncher.Zoom

structure Conf where
  zoomKey : Int
  animated : Bool

/-- The members of `Zoom`, with the transition at the last reading of the clock. -/
structure ZoomState where
  zoomKeyDown : Bool
  zoomLevel : UInt64
  lastClientZoom : UInt64
  animation : Animation

def unsignedDiff (a b : UInt64) : UInt64 := if a > b then a - b else b - a

def clamp (min v max : Int) : Int :=
  if v < min then min
  else if v > max then max
  else v

theorem le_clamp {min max : Int} (h : min ≤ max) (v : Int) : min ≤ clamp min v max := by
  unfold clamp
  split_ifs <;> omega

/-- The time of a transition, for a difference that is taken for an `int`. -/
def duration (diff : UInt64) : {d : Int // 100 ≤ d} :=
  ⟨clamp 100 (diff / 150000).toUInt32.toInt32.toInt 250, le_clamp (by decide) _⟩

namespace ZoomState

/-- The members of the static object. -/
def init (clock : Int) : ZoomState := ⟨false, 5345000000, 0, .init clock⟩

/-- `transition.startTransition`, which is called if the zoom is animated. -/
def start (conf : Conf) (z : ZoomState) (startVal endVal : UInt64)
    (durationMs : {d : Int // 100 ≤ d}) (elapsed : Nat) : Option Animation :=
  if conf.animated then z.animation.step (.startTransition startVal endVal durationMs elapsed)
  else some z.animation

/-- The field of view, when the game has `fov`. -/
def tryGetFOV (conf : Conf) (z : ZoomState) (fov : UInt64) (elapsed : Nat) :
    Option (UInt64 × ZoomState) :=
  let z := { z with lastClientZoom := fov }
  if ¬ conf.animated then
    some (if z.zoomKeyDown then z.zoomLevel else z.lastClientZoom, z)
  else if z.animation.transition.transitionInProgress || z.zoomKeyDown then do
    let animation ← z.animation.step (.tick elapsed)
    let current := animation.transition.current
    some (if current = 0 then z.lastClientZoom else current, { z with animation })
  else some (z.lastClientZoom, z)

/-- The wheel is turned up if `dy` is positive. -/
def onMouseScroll (conf : Conf) (z : ZoomState) (up mouseLocked : Bool) (elapsed : Nat) :
    Option (Bool × ZoomState) :=
  if z.zoomKeyDown && mouseLocked then
    if up then
      if z.zoomLevel > 5310000000 then do
        let animation ← z.start conf z.zoomLevel (z.zoomLevel - 1000000) shortest elapsed
        some (true, { z with animation, zoomLevel := z.zoomLevel - 1000000 })
      else some (true, z)
    else if z.zoomLevel < 5360000000 then do
      let animation ← z.start conf z.zoomLevel (z.zoomLevel + 1000000) shortest elapsed
      some (true, { z with animation, zoomLevel := z.zoomLevel + 1000000 })
    else some (true, z)
  else some (false, z)

/-- The action 0 presses the key, and 2 releases it. -/
def onKeyboard (conf : Conf) (z : ZoomState) (keyCode action : Int) (mouseLocked : Bool)
    (elapsed : Nat) : Option ZoomState :=
  if keyCode = conf.zoomKey then
    let diff := unsignedDiff z.lastClientZoom z.zoomLevel
    if action = 0 then
      if mouseLocked && !z.zoomKeyDown then do
        let animation ← z.start conf z.lastClientZoom z.zoomLevel (duration diff) elapsed
        some { z with animation, zoomKeyDown := true }
      else some z
    else if action = 2 then
      if z.zoomKeyDown then do
        let animation ← z.start conf z.zoomLevel z.lastClientZoom (duration diff) elapsed
        some { z with animation, zoomKeyDown := false }
      else some z
    else some z
  else some z

end ZoomState

/-- What the game does, with the time since the clock was read last. -/
inductive Event
  | tryGetFOV (fov : UInt64) (elapsed : Nat)
  | onMouseScroll (up mouseLocked : Bool) (elapsed : Nat)
  | onKeyboard (keyCode action : Int) (mouseLocked : Bool) (elapsed : Nat)

namespace ZoomState

def step (conf : Conf) (z : ZoomState) : Event → Option ZoomState
  | .tryGetFOV fov elapsed => (z.tryGetFOV conf fov elapsed).map Prod.snd
  | .onMouseScroll up mouseLocked elapsed =>
    (z.onMouseScroll conf up mouseLocked elapsed).map Prod.snd
  | .onKeyboard keyCode action mouseLocked elapsed =>
    z.onKeyboard conf keyCode action mouseLocked elapsed

/-- A field of view is asked for on time. -/
def OnTime (z : ZoomState) : Event → Prop
  | .tryGetFOV _ elapsed => z.animation.OnTime (.tick elapsed)
  | _ => True

/-- The levels of the zoom are whole steps between its bounds. -/
def LevelOk (zoomLevel : UInt64) : Prop :=
  5310000000 ≤ zoomLevel.toNat ∧ zoomLevel.toNat ≤ 5360000000 ∧ zoomLevel.toNat % 1000000 = 0

theorem LevelOk.down {zoomLevel : UInt64} (h : LevelOk zoomLevel) (hgt : zoomLevel > 5310000000) :
    LevelOk (zoomLevel - 1000000) := by
  have hgt : 5310000000 < zoomLevel.toNat := UInt64.lt_iff_toNat_lt.mp hgt
  have hle : (1000000 : UInt64) ≤ zoomLevel := UInt64.le_iff_toNat_le.mpr (by
    change 1000000 ≤ zoomLevel.toNat
    omega)
  have hsub : (zoomLevel - 1000000).toNat = zoomLevel.toNat - 1000000 :=
    UInt64.toNat_sub_of_le zoomLevel 1000000 hle
  obtain ⟨hlow, hhigh, hstep⟩ := h
  rw [LevelOk, hsub]
  omega

theorem LevelOk.up {zoomLevel : UInt64} (h : LevelOk zoomLevel) (hlt : zoomLevel < 5360000000) :
    LevelOk (zoomLevel + 1000000) := by
  have hlt : zoomLevel.toNat < 5360000000 := UInt64.lt_iff_toNat_lt.mp hlt
  have hadd : (zoomLevel + 1000000).toNat = zoomLevel.toNat + 1000000 := by
    rw [UInt64.toNat_add]
    exact Nat.mod_eq_of_lt (by change zoomLevel.toNat + 1000000 < 2 ^ 64; omega)
  obtain ⟨hlow, hhigh, hstep⟩ := h
  rw [LevelOk, hadd]
  omega

structure Inv (z : ZoomState) : Prop where
  animation : z.animation.Inv
  level : LevelOk z.zoomLevel

theorem inv_init (clock : Int) : Inv (init clock) where
  animation := Animation.inv_init clock
  level := show LevelOk 5345000000 by unfold LevelOk; decide

section Steps
variable {z : ZoomState} {elapsed : Nat}

theorem start_spec (conf : Conf) (h : z.animation.Inv) (startVal endVal : UInt64)
    (durationMs : {d : Int // 100 ≤ d}) (elapsed : Nat) :
    ∃ animation, z.start conf startVal endVal durationMs elapsed = some animation ∧
      animation.Inv := by
  unfold start
  split
  · exact ⟨_, rfl,
      h.step (a := .startTransition startVal endVal durationMs elapsed) trivial rfl⟩
  · exact ⟨_, rfl, h⟩

/-- A tick on time has a result, between the end points of the transition. -/
theorem tick_spec (h : z.animation.Inv) (hok : z.animation.OnTime (.tick elapsed)) :
    ∃ animation, z.animation.step (.tick elapsed) = some animation ∧ animation.Inv ∧
      (z.animation.transition.transitionInProgress = true →
        Between z.animation.transition.start z.animation.transition.end_
          animation.transition.current) := by
  obtain ⟨animation, hstep, hbetween, -⟩ := (Animation.smooth_iff h _).mpr hok
  refine ⟨animation, hstep, h.step hok hstep, fun hrun => ?_⟩
  obtain ⟨t, htick, rfl⟩ := Option.map_eq_some_iff.mp hstep
  obtain ⟨hstart, hend, -⟩ := Transition.tick_frame htick
  have hbetween := hbetween elapsed rfl hrun
  rwa [hstart, hend] at hbetween

theorem tryGetFOV_spec (conf : Conf) (fov : UInt64) (h : Inv z)
    (hok : z.animation.OnTime (.tick elapsed)) :
    ∃ ret z', z.tryGetFOV conf fov elapsed = some (ret, z') ∧ Inv z' ∧
      (conf.animated = true → z.animation.transition.transitionInProgress = true → ret = fov ∨
        Between z.animation.transition.start z.animation.transition.end_ ret) := by
  simp only [tryGetFOV]
  split
  · next hplain =>
    exact ⟨_, _, rfl, ⟨h.animation, h.level⟩, fun hanimated => absurd hanimated hplain⟩
  split
  · obtain ⟨animation, hstep, hinv, hbetween⟩ := tick_spec h.animation hok
    rw [hstep]
    refine ⟨_, _, rfl, ⟨hinv, h.level⟩, fun _ hrun => ?_⟩
    split
    · exact .inl rfl
    · exact .inr (hbetween hrun)
  · next hidle =>
    refine ⟨_, _, rfl, ⟨h.animation, h.level⟩, fun _ hrun => absurd ?_ hidle⟩
    rw [hrun, Bool.true_or]

theorem onMouseScroll_spec (conf : Conf) (h : Inv z) (up mouseLocked : Bool) :
    ∃ ret z', z.onMouseScroll conf up mouseLocked elapsed = some (ret, z') ∧ Inv z' := by
  simp only [onMouseScroll]
  split
  · split
    · split
      · next hgt =>
        obtain ⟨animation, hstart, hinv⟩ := start_spec conf h.animation z.zoomLevel
          (z.zoomLevel - 1000000) shortest elapsed
        rw [hstart]
        exact ⟨_, _, rfl, hinv, h.level.down hgt⟩
      · exact ⟨_, _, rfl, h⟩
    · split
      · next hlt =>
        obtain ⟨animation, hstart, hinv⟩ := start_spec conf h.animation z.zoomLevel
          (z.zoomLevel + 1000000) shortest elapsed
        rw [hstart]
        exact ⟨_, _, rfl, hinv, h.level.up hlt⟩
      · exact ⟨_, _, rfl, h⟩
  · exact ⟨_, _, rfl, h⟩

theorem onKeyboard_spec (conf : Conf) (h : Inv z) (keyCode action : Int) (mouseLocked : Bool) :
    ∃ z', z.onKeyboard conf keyCode action mouseLocked elapsed = some z' ∧ Inv z' := by
  simp only [onKeyboard]
  split
  · split
    · split
      · obtain ⟨animation, hstart, hinv⟩ := start_spec conf h.animation z.lastClientZoom
          z.zoomLevel (duration (unsignedDiff z.lastClientZoom z.zoomLevel)) elapsed
        rw [hstart]
        exact ⟨_, rfl, hinv, h.level⟩
      · exact ⟨_, rfl, h⟩
    split
    · split
      · obtain ⟨animation, hstart, hinv⟩ := start_spec conf h.animation z.zoomLevel
          z.lastClientZoom (duration (unsignedDiff z.lastClientZoom z.zoomLevel)) elapsed
        rw [hstart]
        exact ⟨_, rfl, hinv, h.level⟩
      · exact ⟨_, rfl, h⟩
    · exact ⟨_, rfl, h⟩
  · exact ⟨_, rfl, h⟩

theorem Inv.step (conf : Conf) (h : Inv z) {e : Event} (hok : OnTime z e) :
    ∃ z', z.step conf e = some z' ∧ Inv z' := by
  cases e with
  | tryGetFOV fov elapsed =>
    obtain ⟨ret, z', hfov, hinv, -⟩ := tryGetFOV_spec conf fov h hok
    exact ⟨z', by rw [ZoomState.step, hfov]; rfl, hinv⟩
  | onMouseScroll up mouseLocked elapsed =>
    obtain ⟨ret, z', hscroll, hinv⟩ := onMouseScroll_spec conf h up mouseLocked
    exact ⟨z', by rw [ZoomState.step, hscroll]; rfl, hinv⟩
  | onKeyboard keyCode action mouseLocked elapsed =>
    exact onKeyboard_spec conf h keyCode action mouseLocked

end Steps

/-- If the game asks for its field of view in time, the zoom is defined all the way, its level is
between its bounds, and it moves between the end points of its transitions. -/
theorem run_onTime (conf : Conf) (clock : Int) (events : List Event)
    (h : Runs.Meets (step conf) OnTime (init clock) events) :
    ∃ z, Runs.run (step conf) (init clock) events = some z ∧ Inv z :=
  Runs.run_inv (fun _ _ hz hok => hz.step conf hok) (inv_init clock) h

end ZoomState

end McpeLauncher.Zoom
