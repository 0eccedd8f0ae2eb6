import Mathlib.Data.List.Perm.Basic
import Mathlib.Logic.Function.Basic

/- Use counting. `count r` is the counter of the object at `r`, and `none` when
   there is no such object; `owners` lists what each handle refers to. They are
   balanced when every counter stands at the number of handles that refer to its
   object, and no handle refers to anything else. One rule for each thing a
   program does with a counted object keeps them balanced. -/
namespace UseCount

section
variable {ρ : Type} [DecidableEq ρ]

def Balanced (count : ρ → Option Nat) (owners : List ρ) : Prop :=
  ∀ r, owners.count r = (count r).getD 0

variable {count : ρ → Option Nat} {owners owners' : List ρ} {r : ρ} {n : Nat}

theorem balanced_nil : Balanced (fun _ : ρ => none) [] := fun _ => rfl

theorem Balanced.perm (h : Balanced count owners) (hp : owners'.Perm owners) : Balanced count owners' :=
  fun r => by rw [hp.count_eq]; exact h r

/-- What a handle refers to is there, and its counter is not zero. -/
theorem Balanced.alive (h : Balanced count owners) (hr : r ∈ owners) : ∃ n, count r = some (n + 1) := by
  have hpos := List.count_pos_iff.mpr hr
  rw [h r] at hpos
  cases hc : count r with
  | none => rw [hc] at hpos; exact absurd hpos (Nat.lt_irrefl 0)
  | some n =>
    rw [hc, Option.getD_some] at hpos
    exact ⟨n - 1, by rw [Nat.sub_add_cancel hpos]⟩

/-- A counter changes by as much as the number of its handles does. -/
theorem Balanced.update (h : Balanced count owners) {v : Option Nat} (hv : owners'.count r = v.getD 0)
    (hother : ∀ q, q ≠ r → owners'.count q = owners.count q) :
    Balanced (Function.update count r v) owners' := by
  intro q
  by_cases hq : q = r
  · subst hq; rw [Function.update_self]; exact hv
  · rw [Function.update_of_ne hq, hother q hq]; exact h q

/-- A new object with one handle. -/
theorem Balanced.alloc (h : Balanced count owners) (hr : count r = none) :
    Balanced (Function.update count r (some 1)) (r :: owners) := by
  refine h.update ?_ (fun q hq => List.count_cons_of_ne hq.symm)
  rw [List.count_cons_self, h r, hr]
  rfl

/-- One more handle to the same object. -/
theorem Balanced.dup (h : Balanced count owners) (hr : count r = some n) :
    Balanced (Function.update count r (some (n + 1))) (r :: owners) := by
  refine h.update ?_ (fun q hq => List.count_cons_of_ne hq.symm)
  rw [List.count_cons_self, h r, hr]
  rfl

/-- One handle fewer. -/
theorem Balanced.drop (h : Balanced count (r :: owners)) (hr : count r = some n) :
    Balanced (Function.update count r (some (n - 1))) owners := by
  refine h.update ?_ (fun q hq => (List.count_cons_of_ne hq.symm).symm)
  have := h r
  rw [List.count_cons_self, hr] at this
  simp only [Option.getD_some] at this ⊢
  omega

/-- Handles that counted once more do not balance without it. -/
theorem Balanced.not_of_cons (h : Balanced count (r :: owners)) : ¬ Balanced count owners := by
  intro hless
  have hone := h r
  rw [List.count_cons_self, hless r] at hone
  omega

/-- An object without handles is given back. -/
theorem Balanced.free (h : Balanced count owners) (hr : count r = some 0) :
    Balanced (Function.update count r none) owners := by
  refine h.update ?_ (fun q _ => rfl)
  rw [h r, hr]
  rfl

end

/-! Tables of handles: what their entries refer to when one of them is replaced or removed. -/

section
variable {ρ η : Type} {f : η → Option ρ} {hs : List η} {i : Nat} {p : η}

theorem filterMap_eraseIdx_perm (hi : hs[i]? = some p) :
    (hs.filterMap f).Perm ((f p).toList ++ (hs.eraseIdx i).filterMap f) := by
  obtain ⟨hlt, rfl⟩ := List.getElem?_eq_some_iff.mp hi
  have h := (List.getElem_cons_eraseIdx_perm hlt).symm.filterMap f
  rw [List.filterMap_cons] at h
  cases hf : f hs[i] <;> simpa [hf] using h

theorem filterMap_set_perm (q : η) (hi : hs[i]? = some p) :
    ((hs.set i q).filterMap f).Perm ((f q).toList ++ (hs.eraseIdx i).filterMap f) := by
  obtain ⟨hlt, rfl⟩ := List.getElem?_eq_some_iff.mp hi
  have h := (List.set_perm_cons_eraseIdx hlt q).filterMap f
  rw [List.filterMap_cons] at h
  cases hf : f q <;> simpa [hf] using h

/-- What a replaced handle referred to and what it refers to now change places. -/
theorem filterMap_set_swap (q : η) (hi : hs[i]? = some p) :
    ((f p).toList ++ (hs.set i q).filterMap f).Perm ((f q).toList ++ hs.filterMap f) :=
  calc List.Perm _ ((f p).toList ++ ((f q).toList ++ (hs.eraseIdx i).filterMap f)) :=
        (filterMap_set_perm q hi).append_left _
    List.Perm _ ((f q).toList ++ ((f p).toList ++ (hs.eraseIdx i).filterMap f)) :=
        List.perm_append_comm_assoc _ _ _
    List.Perm _ ((f q).toList ++ hs.filterMap f) := (filterMap_eraseIdx_perm hi).symm.append_left _

end

end UseCount
