import Mathlib.Logic.Basic

/- Runs of a partial step function. `step s a = none` says that action `a` has
   no defined result in state `s` (an assertion fails, or memory that was given
   back is used); a run ends there. `run` is the state after a list of actions,
   `Along` says that every action of the run meets a condition in the state it
   is taken in, and `Holds` that every action is defined and every state reached
   has a property. -/
namespace Runs

variable {σ α : Type}

/-- The state after a list of actions, if every one of them is defined. -/
def run (step : σ → α → Option σ) : σ → List α → Option σ
  | s, [] => some s
  | s, a :: as => (step s a).bind (fun t => run step t as)

/-- Every action of the run meets `c` in the state it is taken in. -/
def Along (step : σ → α → Option σ) (c : σ → α → Prop) : σ → List α → Prop
  | _, [] => True
  | s, a :: as => c s a ∧ ∀ t, step s a = some t → Along step c t as

/-- Every action of the run is defined, and every state it reaches has `P`. -/
def Holds (step : σ → α → Option σ) (P : σ → Prop) : σ → List α → Prop
  | s, [] => P s
  | s, a :: as => P s ∧ ∃ t, step s a = some t ∧ Holds step P t as

variable {step : σ → α → Option σ}

@[simp] theorem run_nil (s : σ) : run step s [] = some s := rfl

theorem run_cons (s : σ) (a : α) (as : List α) :
    run step s (a :: as) = (step s a).bind (fun t => run step t as) := rfl

theorem run_append (s : σ) (as bs : List α) :
    run step s (as ++ bs) = (run step s as).bind (fun t => run step t bs) := by
  induction as generalizing s with
  | nil => rfl
  | cons a as ih =>
    simp only [List.cons_append, run_cons]
    cases step s a with
    | none => rfl
    | some t => exact ih t

theorem Holds.here {P : σ → Prop} {s : σ} {as : List α} (h : Holds step P s as) : P s := by
  cases as with
  | nil => exact h
  | cons a as => exact h.1

theorem Along.cons {c : σ → α → Prop} {s t : σ} {a : α} {as : List α} (hc : c s a)
    (hs : step s a = some t) (h : Along step c t as) : Along step c s (a :: as) :=
  ⟨hc, fun u hu => by rw [hs] at hu; cases hu; exact h⟩

theorem Along.append {c : σ → α → Prop} {s t : σ} {as bs : List α} (h : Along step c s (as ++ bs))
    (hr : run step s as = some t) : Along step c s as ∧ Along step c t bs := by
  induction as generalizing s with
  | nil =>
    cases hr
    exact ⟨trivial, h⟩
  | cons a as ih =>
    rw [run_cons] at hr
    obtain ⟨u, hu, hr⟩ := Option.bind_eq_some_iff.mp hr
    obtain ⟨has, hbs⟩ := ih (h.2 u hu) hr
    exact ⟨.cons h.1 hu has, hbs⟩

/-- Every action of a run that reaches a state is defined. -/
theorem Along.defined {c : σ → α → Prop} {s t : σ} {as : List α} (h : Along step c s as)
    (hr : run step s as = some t) : Along step (fun s a => c s a ∧ ∃ u, step s a = some u) s as := by
  induction as generalizing s with
  | nil => trivial
  | cons a as ih =>
    rw [run_cons] at hr
    obtain ⟨u, hu, hr⟩ := Option.bind_eq_some_iff.mp hr
    exact .cons ⟨h.1, u, hu⟩ hu (ih (h.2 u hu) hr)

instance (c : σ → α → Prop) [∀ s a, Decidable (c s a)] :
    ∀ (s : σ) (as : List α), Decidable (Along step c s as)
  | _, [] => isTrue trivial
  | s, a :: as =>
    match h : step s a with
    | none => decidable_of_iff (c s a) ⟨fun hc => ⟨hc, fun t ht => by rw [h] at ht; cases ht⟩, And.left⟩
    | some t =>
      have : Decidable (Along step c t as) := instDecidableAlong c t as
      decidable_of_iff (c s a ∧ Along step c t as)
        ⟨fun ⟨hc, hrest⟩ => .cons hc h hrest, fun hall => ⟨hall.1, hall.2 t h⟩⟩

theorem Holds.cons {P : σ → Prop} {s t : σ} {a : α} {as : List α} (h : Holds step P s (a :: as))
    (hs : step s a = some t) : Holds step P t as := by
  obtain ⟨_, u, hu, hrest⟩ := h
  rw [hs] at hu
  cases hu
  exact hrest

/-- Where each step is defined exactly under a condition, a run is defined exactly
    when all its steps meet it. -/
theorem run_defined_iff {I : σ → Prop} {c : σ → α → Prop}
    (hdefined : ∀ s a, I s → ((∃ t, step s a = some t) ↔ c s a))
    (hkeep : ∀ s a t, I s → step s a = some t → I t) {as : List α} {s : σ} (hs : I s) :
    (∃ t, run step s as = some t) ↔ Along step c s as := by
  induction as generalizing s with
  | nil => exact ⟨fun _ => trivial, fun _ => ⟨s, rfl⟩⟩
  | cons a as ih =>
    constructor
    · rintro ⟨t, hr⟩
      rw [run_cons] at hr
      obtain ⟨u, hu, hr⟩ := Option.bind_eq_some_iff.mp hr
      exact .cons ((hdefined s a hs).mp ⟨u, hu⟩) hu ((ih (hkeep s a u hs hu)).mp ⟨t, hr⟩)
    · rintro ⟨hc, hrest⟩
      obtain ⟨u, hu⟩ := (hdefined s a hs).mpr hc
      obtain ⟨t, hr⟩ := (ih (hkeep s a u hs hu)).mpr (hrest u hu)
      exact ⟨t, by rw [run_cons, hu]; exact hr⟩

/-- Where each step raises a weight exactly when it fails a condition, the weight is
    what it was exactly when all steps of the run meet it. -/
theorem run_weight_eq_iff {I : σ → Prop} {c : σ → α → Prop} (weight : σ → Nat)
    (hkeep : ∀ s a t, I s → step s a = some t → I t)
    (hsame : ∀ s a t, I s → c s a → step s a = some t → weight t = weight s)
    (hmore : ∀ s a t, I s → ¬ c s a → step s a = some t → weight s < weight t) {as : List α} {s t : σ}
    (hs : I s) (hr : run step s as = some t) : weight s ≤ weight t ∧ (weight t = weight s ↔ Along step c s as) := by
  induction as generalizing s with
  | nil =>
    cases hr
    exact ⟨Nat.le_refl _, fun _ => trivial, fun _ => rfl⟩
  | cons a as ih =>
    rw [run_cons] at hr
    obtain ⟨u, hu, hr⟩ := Option.bind_eq_some_iff.mp hr
    obtain ⟨hle, hiff⟩ := ih (hkeep s a u hs hu) hr
    by_cases hc : c s a
    · have hweight := hsame s a u hs hc hu
      rw [← hweight]
      exact ⟨hle, fun heq => .cons hc hu (hiff.mp heq), fun h => hiff.mpr (h.2 u hu)⟩
    · have hweight := hmore s a u hs hc hu
      exact ⟨by omega, fun heq => by omega, fun h => absurd h.1 hc⟩

/-- What holds at the start and is kept by every step that meets the condition
    holds in every state of a run whose steps all meet it. -/
theorem run_invariant {I : σ → Prop} {c : σ → α → Prop}
    (hstep : ∀ s a t, I s → c s a → step s a = some t → I t) :
    ∀ (as : List α) (s t : σ), I s → Along step c s as → run step s as = some t → I t
  | [], s, t, hs, _, hr => by
    simp only [run_nil, Option.some.injEq] at hr
    exact hr ▸ hs
  | a :: as, s, t, hs, hc, hr => by
    rw [run_cons] at hr
    obtain ⟨u, hu, hr⟩ := Option.bind_eq_some_iff.mp hr
    exact run_invariant hstep as u t (hstep s a u hs hc.1 hu) (hc.2 u hu) hr

/-- A condition that every action of the list meets in every state. -/
theorem along_of_mem {c : σ → α → Prop} {as : List α} (h : ∀ a ∈ as, ∀ s, c s a) (s : σ) :
    Along step c s as := by
  induction as generalizing s with
  | nil => trivial
  | cons a as ih =>
    exact ⟨h a List.mem_cons_self s, fun t _ => ih (fun b hb => h b (List.mem_cons_of_mem a hb)) t⟩

theorem along_true (as : List α) (s : σ) : Along step (fun _ _ => True) s as :=
  along_of_mem (fun _ _ _ => trivial) s

/-- The rule without a condition: an inductive invariant holds along every run. -/
theorem run_preserves {I : σ → Prop} (hstep : ∀ s a t, I s → step s a = some t → I t)
    {as : List α} {s t : σ} (hs : I s) (hr : run step s as = some t) : I t :=
  run_invariant (fun s a t h _ => hstep s a t h) as s t hs (along_true as s) hr

/-- A weight that the counted actions lower and the others do not raise bounds
    how many counted actions a run has. -/
theorem run_countP_le {I : σ → Prop} (counted : α → Bool) (weight : σ → Nat)
    (hI : ∀ s a t, I s → step s a = some t → I t)
    (hw : ∀ s a t, I s → step s a = some t → weight t + (if counted a then 1 else 0) ≤ weight s) :
    ∀ (as : List α) (s t : σ), I s → run step s as = some t → weight t + as.countP counted ≤ weight s
  | [], s, t, _, hr => by
    simp only [run_nil, Option.some.injEq] at hr
    simp [hr]
  | a :: as, s, t, hs, hr => by
    rw [run_cons] at hr
    obtain ⟨u, hu, hr⟩ := Option.bind_eq_some_iff.mp hr
    have hrest := run_countP_le counted weight hI hw as u t (hI s a u hs hu) hr
    have hfirst := hw s a u hs hu
    rw [List.countP_cons]
    omega

/-- A run along which a property holds ends in a state with it. -/
theorem Holds.final {P : σ → Prop} {s : σ} {as : List α} (h : Holds step P s as) :
    ∃ t, run step s as = some t ∧ P t := by
  induction as generalizing s with
  | nil => exact ⟨s, rfl, h⟩
  | cons a as ih =>
    obtain ⟨_, t, ht, hrest⟩ := h
    obtain ⟨u, hu, hP⟩ := ih hrest
    exact ⟨u, by rw [run_cons, ht]; exact hu, hP⟩

/-- An invariant that the actions of this run keep holds along it. -/
theorem holds_of_mem {I P : σ → Prop} (hP : ∀ s, I s → P s) {as : List α}
    (hstep : ∀ s, ∀ a ∈ as, I s → ∃ t, step s a = some t ∧ I t) {s : σ} (hs : I s) :
    Holds step P s as := by
  induction as generalizing s with
  | nil => exact hP s hs
  | cons a as ih =>
    obtain ⟨t, ht, hI⟩ := hstep s a List.mem_cons_self hs
    exact ⟨hP s hs, t, ht, ih (fun s a ha => hstep s a (List.mem_cons_of_mem _ ha)) hI⟩

/-- A state property holds along a run exactly when a step condition does, if
    an invariant implies the property, the steps that meet the condition are
    defined and keep the invariant, and no step that fails it leads to a state
    with the property. -/
theorem holds_iff_along {I P : σ → Prop} {valid c : σ → α → Prop}
    (hP : ∀ s, I s → P s)
    (hgood : ∀ s a, I s → valid s a → c s a → ∃ t, step s a = some t ∧ I t)
    (hbad : ∀ s a t, I s → valid s a → ¬ c s a → step s a = some t → ¬ P t) :
    ∀ (as : List α) (s : σ), I s → Along step valid s as →
      (Holds step P s as ↔ Along step c s as)
  | [], s, hs, _ => ⟨fun _ => trivial, fun _ => hP s hs⟩
  | a :: as, s, hs, hv => by
    refine ⟨fun h => ?_, fun h => ?_⟩
    · have hc : c s a := by
        by_cases hc : c s a
        · exact hc
        · obtain ⟨_, t, ht, hrest⟩ := h
          exact absurd hrest.here (hbad s a t hs hv.1 hc ht)
      obtain ⟨t, ht, hI⟩ := hgood s a hs hv.1 hc
      exact .cons hc ht ((holds_iff_along hP hgood hbad as t hI (hv.2 t ht)).mp (h.cons ht))
    · obtain ⟨t, ht, hI⟩ := hgood s a hs hv.1 h.1
      exact ⟨hP s hs, t, ht, (holds_iff_along hP hgood hbad as t hI (hv.2 t ht)).mpr (h.2 t ht)⟩

end Runs
