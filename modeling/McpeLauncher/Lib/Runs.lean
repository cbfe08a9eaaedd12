import Mathlib.Data.List.Basic

/-!
# Runs of a partial step function

`step s a = none` means that the call `a` has no defined behaviour in the state `s`. `Meets` says
that every step of a run satisfies a condition on the call and on the state before it; the run
rules turn what one step preserves into what a whole run preserves.
-/

namespace Runs

variable {σ α : Type _}

/-- The state after a list of calls, if each of them is defined. -/
def run (step : σ → α → Option σ) : σ → List α → Option σ
  | s, [] => some s
  | s, a :: as => (step s a).bind fun s' => run step s' as

/-- Each call of the run meets `C` in the state it is made in. -/
def Meets (step : σ → α → Option σ) (C : σ → α → Prop) : σ → List α → Prop
  | _, [] => True
  | s, a :: as => C s a ∧ ∀ s', step s a = some s' → Meets step C s' as

variable {step : σ → α → Option σ} {C : σ → α → Prop} {I : σ → Prop}

@[simp] theorem run_nil (s : σ) : run step s [] = some s := rfl

theorem run_cons (s : σ) (a : α) (as : List α) :
    run step s (a :: as) = (step s a).bind fun s' => run step s' as := rfl

/-- **The run rule**: if a step that meets `C` is defined and preserves `I`, so is and does
every run whose steps meet `C`. -/
theorem run_inv (hstep : ∀ s a, I s → C s a → ∃ s', step s a = some s' ∧ I s')
    {s : σ} (hs : I s) {as : List α} (h : Meets step C s as) :
    ∃ s', run step s as = some s' ∧ I s' := by
  induction as generalizing s with
  | nil => exact ⟨s, rfl, hs⟩
  | cons a as ih =>
    obtain ⟨s₁, h₁, hs₁⟩ := hstep s a hs h.1
    obtain ⟨s₂, h₂, hs₂⟩ := ih hs₁ (h.2 s₁ h₁)
    exact ⟨s₂, by rw [run_cons, h₁]; exact h₂, hs₂⟩

theorem run_append (s : σ) (as bs : List α) :
    run step s (as ++ bs) = (run step s as).bind fun s' => run step s' bs := by
  induction as generalizing s with
  | nil => rfl
  | cons a as ih =>
    rw [List.cons_append, run_cons, run_cons, Option.bind_assoc]
    exact congrArg _ (funext ih)

/-- The run rule with an invariant that knows what is left to do. -/
theorem run_todo {I : List α → σ → Prop}
    (hstep : ∀ s a as, I (a :: as) s → ∃ s', step s a = some s' ∧ I as s')
    {s : σ} {as : List α} (hs : I as s) : ∃ s', run step s as = some s' ∧ I [] s' := by
  induction as generalizing s with
  | nil => exact ⟨s, rfl, hs⟩
  | cons a as ih =>
    obtain ⟨s₁, h₁, hs₁⟩ := hstep s a as hs
    obtain ⟨s₂, h₂, hs₂⟩ := ih hs₁
    exact ⟨s₂, by rw [run_cons, h₁]; exact h₂, hs₂⟩

theorem meets_of_forall : ∀ {s : σ} {as : List α}, (∀ a ∈ as, ∀ s, C s a) → Meets step C s as
  | _, [], _ => trivial
  | s, a :: _, h => ⟨h a (.head _) s, fun _ _ => meets_of_forall fun b hb => h b (.tail a hb)⟩

/-- A run meets a condition if it holds of each call in the state before it. -/
theorem meets_iff_forall {s : σ} {as : List α} : Meets step C s as ↔
    ∀ bs a cs s', as = bs ++ a :: cs → run step s bs = some s' → C s' a := by
  induction as generalizing s with
  | nil => exact iff_of_true trivial fun bs a cs s' h => absurd h (by simp)
  | cons b as ih =>
    constructor
    · rintro ⟨hb, hrest⟩ bs a cs s' happend hrun
      cases bs with
      | nil =>
        cases hrun
        exact (List.cons.inj happend).1 ▸ hb
      | cons b' bs =>
        obtain ⟨rfl, htail⟩ := List.cons.inj happend
        obtain ⟨s₁, h₁, h₂⟩ := Option.bind_eq_some_iff.mp hrun
        exact ih.mp (hrest s₁ h₁) bs a cs s' htail h₂
    · intro h
      refine ⟨h [] b as s rfl rfl, fun s₁ h₁ => ih.mpr fun bs a cs s' happend hrun => ?_⟩
      exact h (b :: bs) a cs s' (congrArg (b :: ·) happend) (by rw [run_cons, h₁]; exact hrun)

theorem run_some {step : σ → α → σ} (s : σ) (as : List α) :
    run (fun s a => some (step s a)) s as = some (as.foldl step s) := by
  induction as generalizing s with
  | nil => rfl
  | cons a as ih => exact ih (step s a)

/-- A run meets a condition if its first call does and the rest does. -/
theorem Meets.cons {s s' : σ} {a : α} {as : List α} (ha : C s a) (hs : step s a = some s')
    (h : Meets step C s' as) : Meets step C s (a :: as) :=
  ⟨ha, fun _ h' => Option.some.inj (hs.symm.trans h') ▸ h⟩

theorem Meets.and {D : σ → α → Prop} {s : σ} {as : List α} (h : Meets step C s as)
    (h' : Meets step D s as) : Meets step (fun s a => C s a ∧ D s a) s as := by
  induction as generalizing s with
  | nil => trivial
  | cons a as ih => exact ⟨⟨h.1, h'.1⟩, fun s' hs => ih (h.2 s' hs) (h'.2 s' hs)⟩

/-- Conditions that an invariant makes the same are met by the same runs, if a step that meets
them preserves it. -/
theorem meets_congr {D : σ → α → Prop} (hiff : ∀ s a, I s → (C s a ↔ D s a))
    (hstep : ∀ s a s', I s → D s a → step s a = some s' → I s') {s : σ} (hs : I s) {as : List α} :
    Meets step C s as ↔ Meets step D s as := by
  induction as generalizing s with
  | nil => exact Iff.rfl
  | cons a as ih =>
    rw [Meets, Meets, hiff s a hs]
    exact and_congr_right fun ha => forall₂_congr fun s' h => ih (hstep s a s' hs ha h)

/-- The beginning of a run that meets a condition meets it. -/
theorem Meets.left {s : σ} {as bs : List α} (h : Meets step C s (as ++ bs)) : Meets step C s as := by
  induction as generalizing s with
  | nil => trivial
  | cons a as ih => exact ⟨h.1, fun s' hs => ih (h.2 s' hs)⟩

/-- An invariant of the defined steps that meet `C` holds wherever such a run arrives. -/
theorem Meets.inv_of_run (hstep : ∀ s a s', I s → C s a → step s a = some s' → I s')
    {s s' : σ} (hs : I s) {as : List α} (hok : Meets step C s as)
    (h : run step s as = some s') : I s' := by
  induction as generalizing s with
  | nil => cases h; exact hs
  | cons a as ih =>
    obtain ⟨s₁, h₁, h₂⟩ := Option.bind_eq_some_iff.mp h
    exact ih (hstep s a s₁ hs hok.1 h₁) (hok.2 s₁ h₁) h₂

/-- An invariant of the defined steps holds wherever a run arrives. -/
theorem inv_of_run (hstep : ∀ s a s', I s → step s a = some s' → I s')
    {s s' : σ} (hs : I s) {as : List α} (h : run step s as = some s') : I s' :=
  (meets_of_forall (C := fun _ _ => True) fun _ _ _ => trivial).inv_of_run
    (fun s a s' hs _ => hstep s a s' hs) hs h

/-- If each step keeps `P` exactly when it meets `C`, a run keeps it exactly when all its steps
do. -/
theorem meets_iff_of_run {P : σ → Prop} (hinv : ∀ s a s', I s → step s a = some s' → I s')
    (hstep : ∀ s a s', I s → step s a = some s' → (P s' ↔ P s ∧ C s a))
    {s s' : σ} (hs : I s) {as : List α} (h : run step s as = some s') :
    P s' ↔ P s ∧ Meets step C s as := by
  induction as generalizing s with
  | nil =>
    cases h
    exact (and_iff_left trivial).symm
  | cons a as ih =>
    obtain ⟨s₁, h₁, h₂⟩ := Option.bind_eq_some_iff.mp h
    rw [ih (hinv s a s₁ hs h₁) h₂, hstep s a s₁ hs h₁, and_assoc]
    refine and_congr_right fun _ => and_congr_right fun _ => ?_
    exact ⟨fun hm t ht => Option.some.inj (h₁.symm.trans ht) ▸ hm, fun hm => hm s₁ h₁⟩

/-- If each step leads from `P` to `P` exactly when it meets `C`, a run stays in `P` exactly when
all its steps do. -/
theorem meets_iff_forall_append {P : σ → Prop} (hinv : ∀ s a s', I s → step s a = some s' → I s')
    (hstep : ∀ s a s', I s → P s → step s a = some s' → (P s' ↔ C s a))
    {s s' : σ} (hs : I s) (hP : P s) {as : List α} (h : run step s as = some s') :
    (∀ bs cs t, as = bs ++ cs → run step s bs = some t → P t) ↔ Meets step C s as := by
  induction as generalizing s with
  | nil =>
    refine iff_of_true (fun bs cs t happend ht => ?_) trivial
    cases (List.append_eq_nil_iff.mp happend.symm).1
    cases ht
    exact hP
  | cons a as ih =>
    obtain ⟨s₁, h₁, h₂⟩ := Option.bind_eq_some_iff.mp h
    have hiff := hstep s a s₁ hs hP h₁
    constructor
    · intro hall
      have hP₁ : P s₁ := hall [a] as s₁ rfl (by rw [run_cons, h₁]; rfl)
      refine .cons (hiff.mp hP₁) h₁ ((ih (hinv s a s₁ hs h₁) hP₁ h₂).mp fun bs cs t happend ht => ?_)
      exact hall (a :: bs) cs t (congrArg (a :: ·) happend) (by rw [run_cons, h₁]; exact ht)
    · intro hmeets bs cs t happend ht
      have hP₁ : P s₁ := hiff.mpr hmeets.1
      cases bs with
      | nil => cases ht; exact hP
      | cons b bs =>
        rw [List.cons_append] at happend
        obtain ⟨rfl, htail⟩ := List.cons.inj happend
        rw [run_cons, h₁] at ht
        exact (ih (hinv s _ s₁ hs h₁) hP₁ h₂).mpr (hmeets.2 s₁ h₁) bs cs t htail ht

end Runs
