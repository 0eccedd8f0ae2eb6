import Mathlib.Data.List.Forall2

/- Fields of a state that is folded over messages. A message carries values for a
   field (`carried`), and the values act on it one after the other: they are
   appended, or the first or the last of them counts. Then the field after any
   sequence of messages is what it was, acted on by all values the sequence
   carries for it, and by nothing else. -/
namespace FoldView

variable {S U A B : Type}

/-- Values act on a field one after the other. -/
structure Acts (act : A → List B → A) : Prop where
  nil : ∀ a, act a [] = a
  append : ∀ a xs ys, act a (xs ++ ys) = act (act a xs) ys

/-- What one message does to a field, every sequence of messages does. -/
theorem Acts.foldl {act : A → List B → A} (h : Acts act) {f : S → U → S} {g : S → A}
    {carried : U → List B} (step : ∀ s u, g (f s u) = act (g s) (carried u)) (us : List U) (s : S) :
    g (us.foldl f s) = act (g s) (us.flatMap carried) := by
  induction us generalizing s with
  | nil => exact (h.nil _).symm
  | cons u us ih => rw [List.foldl_cons, ih, step, List.flatMap_cons, h.append]

/-- A field that no message changes. -/
theorem foldl_frame {f : S → U → S} {g : S → A} (step : ∀ s u, g (f s u) = g s) (us : List U)
    (s : S) : g (us.foldl f s) = g s := by
  induction us generalizing s with
  | nil => rfl
  | cons u us ih => rw [List.foldl_cons, ih, step]

/-- Messages that carry nothing for a field can be left out. -/
theorem flatMap_filter {p : U → Bool} {carried : U → List B} (h : ∀ u, p u = false → carried u = [])
    (us : List U) : (us.filter p).flatMap carried = us.flatMap carried := by
  induction us with
  | nil => rfl
  | cons u us ih =>
    cases hu : p u with
    | true => rw [List.filter_cons_of_pos hu, List.flatMap_cons, List.flatMap_cons, ih]
    | false => rw [List.filter_cons_of_neg (by simp [hu]), List.flatMap_cons, ih, h u hu, List.nil_append]

/-! Ways to act on a field. -/

theorem acts_append : Acts fun (a xs : List B) => a ++ xs :=
  ⟨List.append_nil, fun a xs ys => (List.append_assoc a xs ys).symm⟩

/-- Only the first value is taken, into a field that is not set. -/
def first (a : Option B) (xs : List B) : Option B := a.or xs.head?

theorem acts_first : Acts (first (B := B)) := by
  refine ⟨fun a => Option.or_none, fun a xs ys => ?_⟩
  unfold first
  rw [List.head?_append, Option.or_assoc]

/-- The values go to the end of a list that is there from the first of them on. -/
def extend : Option (List B) → List B → Option (List B)
  | a, [] => a
  | a, x :: xs => some (a.getD [] ++ x :: xs)

theorem extend_of_ne_nil {a : Option (List B)} {xs : List B} (h : xs ≠ []) :
    extend a xs = some (a.getD [] ++ xs) := by
  cases xs with
  | nil => exact absurd rfl h
  | cons x xs => rfl

theorem acts_extend : Acts (extend (B := B)) := by
  refine ⟨fun a => rfl, fun a xs ys => ?_⟩
  cases xs with
  | nil => rfl
  | cons x xs =>
    cases ys with
    | nil => rw [List.append_nil]; rfl
    | cons y ys =>
      rw [extend_of_ne_nil (List.cons_ne_nil y ys), extend_of_ne_nil (List.cons_ne_nil x xs),
        extend_of_ne_nil (by simp), Option.getD_some, List.append_assoc]

/-- A value that was added shows. -/
theorem extend_ne {a : Option (List B)} {xs : List B} (h : xs ≠ []) : extend a xs ≠ a := by
  rw [extend_of_ne_nil h]
  intro heq
  cases a with
  | none => cases heq
  | some ys =>
    have hlen := congrArg List.length (Option.some.inj heq)
    have hpos := List.length_pos_iff.mpr h
    rw [Option.getD_some, List.length_append] at hlen
    omega

theorem acts_foldl (f : A → B → A) : Acts fun a xs => xs.foldl f a :=
  ⟨fun _ => rfl, fun _ _ _ => List.foldl_append⟩

/-! Loops that read what they fold. -/

/-- A loop each pass of which reads a value and then takes a step with it succeeds where all values can be
    read and the loop over them succeeds. -/
theorem foldlM_eq_some_iff {E X : Type} {R : E → X → Prop} {f : S → E → Option S} {g : S → X → Option S}
    (step : ∀ s e t, f s e = some t ↔ ∃ x, R e x ∧ g s x = some t) (es : List E) (s t : S) :
    es.foldlM f s = some t ↔ ∃ xs, List.Forall₂ R es xs ∧ xs.foldlM g s = some t := by
  induction es generalizing s with
  | nil => simp
  | cons e es ih =>
    rw [List.foldlM_cons]
    constructor
    · intro h
      obtain ⟨u, hu, hrest⟩ := Option.bind_eq_some_iff.mp h
      obtain ⟨x, hx, hgu⟩ := (step s e u).mp hu
      obtain ⟨xs, hxs, hgt⟩ := (ih u).mp hrest
      refine ⟨x :: xs, .cons hx hxs, ?_⟩
      rw [List.foldlM_cons]
      exact Option.bind_eq_some_iff.mpr ⟨u, hgu, hgt⟩
    · rintro ⟨xs, hxs, hgt⟩
      obtain ⟨x, xs', hx, hrest, rfl⟩ := List.forall₂_cons_left_iff.mp hxs
      rw [List.foldlM_cons] at hgt
      obtain ⟨u, hgu, hgt⟩ := Option.bind_eq_some_iff.mp hgt
      exact Option.bind_eq_some_iff.mpr ⟨u, (step s e u).mpr ⟨x, hx, hgu⟩, (ih u).mpr ⟨xs', hrest, hgt⟩⟩

end FoldView
