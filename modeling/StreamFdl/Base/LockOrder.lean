import Mathlib.Algebra.BigOperators.Group.Finset.Basic
import Mathlib.Data.Fintype.Basic
import Mathlib.Logic.Function.Basic
import StreamFdl.Base.Runs

/- Threads that lock and unlock mutexes, work on shared data in between, and take
   on new code whenever they are done with the last. A step is one operation of
   one thread; `lock` can only be taken while nobody holds the mutex.

   `Ordered` is what is asked of the code of a thread, which alone can be checked:
   mutexes are locked in the order of a rank, given back last in, first out, and
   at each access to shared data certain mutexes are held. From it follows what
   holds of all threads together, whatever their order of steps: a thread waits
   only for others, some thread can always go on, and two threads never stand
   before accesses that ask for the same mutex. -/
namespace LockOrder
open Runs

/-- One operation of a thread. -/
inductive LockOp (M W : Type) where
  | lock (m : M)
  | unlock (m : M)
  /-- An access to the shared data. -/
  | work (w : W)
  deriving DecidableEq, Repr

/-- The code of a block that holds `m` from its beginning to its end. -/
def locked {M W : Type} (m : M) (body : List (LockOp M W)) : List (LockOp M W) :=
  .lock m :: (body ++ [.unlock m])

/-- Who holds each mutex, what each thread has still to do, and the shared data. -/
structure Threads (T M W D : Type) where
  holder : M → Option T
  code : T → List (LockOp M W)
  shared : D

inductive Action (T M W : Type) where
  /-- A thread that is done takes on new code. -/
  | enter (t : T) (code : List (LockOp M W))
  /-- The next operation of a thread. -/
  | go (t : T)

variable {T M W D : Type}

namespace Threads

/-- Nothing is locked, and no thread has anything to do. -/
def idle (shared : D) : Threads T M W D := ⟨fun _ => none, fun _ => [], shared⟩

variable [DecidableEq T] [DecidableEq M]

def go (act : T → W → D → Option D) (s : Threads T M W D) (t : T) : Option (Threads T M W D) :=
  match s.code t with
  | [] => none
  | .lock m :: rest =>
    if s.holder m = none then
      some ⟨Function.update s.holder m (some t), Function.update s.code t rest, s.shared⟩
    else none
  | .unlock m :: rest =>
    if s.holder m = some t then
      some ⟨Function.update s.holder m none, Function.update s.code t rest, s.shared⟩
    else none
  | .work w :: rest =>
    (act t w s.shared).map fun shared => ⟨s.holder, Function.update s.code t rest, shared⟩

def step (act : T → W → D → Option D) (s : Threads T M W D) : Action T M W → Option (Threads T M W D)
  | .enter t code =>
    if (s.code t).isEmpty then some { s with code := Function.update s.code t code } else none
  | .go t => s.go act t

variable {act : T → W → D → Option D} {s s' : Threads T M W D} {t u : T} {m : M} {w : W}
variable {rest : List (LockOp M W)}

theorem go_cases (hs : s.go act t = some s') :
    (∃ m rest, s.code t = .lock m :: rest ∧ s.holder m = none ∧
      s' = ⟨Function.update s.holder m (some t), Function.update s.code t rest, s.shared⟩) ∨
    (∃ m rest, s.code t = .unlock m :: rest ∧ s.holder m = some t ∧
      s' = ⟨Function.update s.holder m none, Function.update s.code t rest, s.shared⟩) ∨
    (∃ w rest shared, s.code t = .work w :: rest ∧ act t w s.shared = some shared ∧
      s' = ⟨s.holder, Function.update s.code t rest, shared⟩) := by
  unfold go at hs
  split at hs
  · cases hs
  · next m rest hcode =>
    split at hs
    · next hfree =>
      cases hs
      exact .inl ⟨m, rest, hcode, hfree, rfl⟩
    · cases hs
  · next m rest hcode =>
    split at hs
    · next hheld =>
      cases hs
      exact .inr (.inl ⟨m, rest, hcode, hheld, rfl⟩)
    · cases hs
  · next w rest hcode =>
    obtain ⟨shared, hact, rfl⟩ := Option.map_eq_some_iff.mp hs
    exact .inr (.inr ⟨w, rest, shared, hcode, hact, rfl⟩)

theorem enter_cases {code : List (LockOp M W)} (hs : s.step act (.enter t code) = some s') :
    s.code t = [] ∧ s' = { s with code := Function.update s.code t code } := by
  simp only [step] at hs
  split at hs
  · next hidle =>
    cases hs
    exact ⟨List.isEmpty_iff.mp hidle, rfl⟩
  · cases hs

end Threads

/-! What is asked of the code of one thread. -/

/-- With the mutexes `held`, the latest first, the code locks in the order of `rank` and gives
    back the latest first, and every access is made with mutexes that it is `ok` with. -/
def Ordered (rank : M → Nat) (ok : List M → W → Prop) : List M → List (LockOp M W) → Prop
  | held, [] => held = []
  | held, .lock m :: rest => (∀ n ∈ held, rank n < rank m) ∧ Ordered rank ok (m :: held) rest
  | held, .unlock m :: rest => held.head? = some m ∧ Ordered rank ok held.tail rest
  | held, .work w :: rest => ok held w ∧ Ordered rank ok held rest

/-- Code that may stand wherever the mutexes `inside` are held, and none of rank `k` or above. -/
def Nested (rank : M → Nat) (ok : List M → W → Prop) (inside : List M) (k : Nat)
    (code : List (LockOp M W)) : Prop :=
  ∀ held rest, (∀ m ∈ inside, m ∈ held) → (∀ m ∈ held, rank m < k) → Ordered rank ok held rest →
    Ordered rank ok held (code ++ rest)

namespace Nested

variable {rank : M → Nat} {ok : List M → W → Prop} {inside : List M} {k : Nat}
variable {a b : List (LockOp M W)}

theorem nil : Nested rank ok inside k [] := fun _ _ _ _ hrest => hrest

theorem append (ha : Nested rank ok inside k a) (hb : Nested rank ok inside k b) :
    Nested rank ok inside k (a ++ b) := by
  intro held rest hin hk hrest
  rw [List.append_assoc]
  exact ha held (b ++ rest) hin hk (hb held rest hin hk hrest)

theorem work {w : W} (hw : ∀ held, (∀ m ∈ inside, m ∈ held) → ok held w) :
    Nested rank ok inside k [.work w] :=
  fun held _ hin _ hrest => ⟨hw held hin, hrest⟩

theorem locked {m : M} (hm : k ≤ rank m) (ha : Nested rank ok (m :: inside) (rank m + 1) a) :
    Nested rank ok inside k (locked m a) := by
  intro held rest hin hk hrest
  have hbelow : ∀ n ∈ held, rank n < rank m := fun n hn => Nat.lt_of_lt_of_le (hk n hn) hm
  refine ⟨hbelow, ?_⟩
  change Ordered rank ok (m :: held) (a ++ [.unlock m] ++ rest)
  rw [List.append_assoc]
  apply ha (m :: held)
  · intro n hn
    obtain rfl | hn := List.mem_cons.mp hn
    · exact List.mem_cons_self
    · exact List.mem_cons_of_mem _ (hin n hn)
  · intro n hn
    obtain rfl | hn := List.mem_cons.mp hn
    · exact Nat.lt_succ_self _
    · exact Nat.lt_succ_of_lt (hbelow n hn)
  · exact ⟨rfl, hrest⟩

/-- Code to begin with, while nothing is held. -/
theorem ordered (ha : Nested rank ok [] 0 a) : Ordered rank ok [] a := by
  have h := ha [] [] (by simp) (by simp) rfl
  rwa [List.append_nil] at h

end Nested

/-! All threads together. -/

/-- `held` says which mutexes each thread holds, the latest first, and the code of each thread
    goes on as it should from there. -/
structure Disciplined (rank : M → Nat) (ok : T → List M → W → Prop) (s : Threads T M W D)
    (held : T → List M) : Prop where
  holder : ∀ m t, s.holder m = some t ↔ m ∈ held t
  sorted : ∀ t, (held t).Pairwise fun m n => rank n < rank m
  code : ∀ t, Ordered rank (ok t) (held t) (s.code t)

namespace Disciplined

variable {rank : M → Nat} {ok : T → List M → W → Prop} {act : T → W → D → Option D}
variable {s s' : Threads T M W D} {held : T → List M} {t u : T} {m : M} {w : W}
variable {rest : List (LockOp M W)}

theorem idle (shared : D) : Disciplined rank ok (Threads.idle shared) (fun _ : T => []) where
  holder m t := by simp [Threads.idle]
  sorted _ := .nil
  code _ := rfl

/-- A thread that is done holds nothing. -/
theorem held_nil (h : Disciplined rank ok s held) (hcode : s.code t = []) : held t = [] := by
  have hnext := h.code t
  rwa [hcode] at hnext

/-- An access is made with the mutexes it asks for. -/
theorem allowed (h : Disciplined rank ok s held) (hcode : s.code t = .work w :: rest) : ok t (held t) w := by
  have hnext := h.code t
  rw [hcode] at hnext
  exact hnext.1

theorem holder_unique (h : Disciplined rank ok s held) (ht : m ∈ held t) (hu : m ∈ held u) : t = u := by
  have heq := (h.holder m t).mpr ht
  rw [(h.holder m u).mpr hu] at heq
  cases heq
  rfl

variable [DecidableEq T]

theorem working (h : Disciplined rank ok s held) (hcode : s.code t = .work w :: rest) (shared : D) :
    Disciplined rank ok ⟨s.holder, Function.update s.code t rest, shared⟩ held where
  holder := h.holder
  sorted := h.sorted
  code u := by
    have hnext := h.code t
    rw [hcode] at hnext
    by_cases hu : u = t
    · subst hu
      simpa using hnext.2
    · simpa [hu] using h.code u

theorem entering (h : Disciplined rank ok s held) (hidle : s.code t = []) {code : List (LockOp M W)}
    (hcode : Ordered rank (ok t) [] code) :
    Disciplined rank ok { s with code := Function.update s.code t code } held where
  holder := h.holder
  sorted := h.sorted
  code u := by
    by_cases hu : u = t
    · subst hu
      simpa [h.held_nil hidle] using hcode
    · simpa [hu] using h.code u

variable [DecidableEq M]

theorem locking (h : Disciplined rank ok s held) (hcode : s.code t = .lock m :: rest) (hfree : s.holder m = none) :
    Disciplined rank ok ⟨Function.update s.holder m (some t), Function.update s.code t rest, s.shared⟩
      (Function.update held t (m :: held t)) := by
  have hnext := h.code t
  rw [hcode] at hnext
  have hnobody : ∀ u, m ∉ held u := fun u hu => by
    rw [(h.holder m u).mpr hu] at hfree
    cases hfree
  -- only the entry of `m` and the stack of `t` change, so the cases are by both
  constructor
  · intro n u
    by_cases hu : u = t
    · subst hu
      by_cases hn : n = m
      · simp [hn]
      · simp [hn, h.holder]
    · by_cases hn : n = m
      · subst hn
        simp [hu, hnobody u, Ne.symm hu]
      · simp [hn, hu, h.holder]
  · intro u
    by_cases hu : u = t
    · subst hu
      simpa using ⟨hnext.1, h.sorted u⟩
    · simpa [hu] using h.sorted u
  · intro u
    by_cases hu : u = t
    · subst hu
      simpa using hnext.2
    · simpa [hu] using h.code u

theorem unlocking (h : Disciplined rank ok s held) (hcode : s.code t = .unlock m :: rest) :
    Disciplined rank ok ⟨Function.update s.holder m none, Function.update s.code t rest, s.shared⟩
      (Function.update held t (held t).tail) := by
  have hnext := h.code t
  rw [hcode] at hnext
  obtain ⟨others, hheld⟩ := List.head?_eq_some_iff.mp hnext.1
  have hsorted := h.sorted t
  rw [hheld, List.pairwise_cons] at hsorted
  -- the ranks of what `t` holds differ, so `m` is not there twice
  have hlast : m ∉ others := fun hm => Nat.lt_irrefl _ (hsorted.1 m hm)
  have honly : ∀ u, m ∈ held u → u = t := fun u hu => by
    have hmine := (h.holder m t).mpr (by rw [hheld]; exact List.mem_cons_self)
    rw [(h.holder m u).mpr hu] at hmine
    cases hmine
    rfl
  constructor
  · intro n u
    by_cases hu : u = t
    · subst hu
      by_cases hn : n = m
      · simp [hn, hheld, hlast]
      · simp [hn, h.holder, hheld]
    · by_cases hn : n = m
      · subst hn
        simpa [hu] using fun hn => hu (honly u hn)
      · simp [hn, hu, h.holder]
  · intro u
    by_cases hu : u = t
    · subst hu
      simpa [hheld] using hsorted.2
    · simpa [hu] using h.sorted u
  · intro u
    by_cases hu : u = t
    · subst hu
      simpa using hnext.2
    · simpa [hu] using h.code u

theorem go (h : Disciplined rank ok s held) (hs : s.go act t = some s') :
    ∃ held', Disciplined rank ok s' held' := by
  obtain ⟨m, rest, hcode, hfree, rfl⟩ | ⟨m, rest, hcode, _, rfl⟩ | ⟨w, rest, shared, hcode, _, rfl⟩ :=
    Threads.go_cases hs
  · exact ⟨_, h.locking hcode hfree⟩
  · exact ⟨_, h.unlocking hcode⟩
  · exact ⟨_, h.working hcode shared⟩

/-! Progress. `Ready` says that no access of the shared data has to wait. -/

/-- Every access that a thread stands before can be made. -/
def Ready (act : T → W → D → Option D) (s : Threads T M W D) : Prop :=
  ∀ t w rest, s.code t = .work w :: rest → ∃ shared, act t w s.shared = some shared

/-- A thread with something to do goes on, or waits for a mutex that another thread holds. -/
theorem goes_or_waits (h : Disciplined rank ok s held) (hready : Ready act s) (hbusy : s.code t ≠ []) :
    (∃ s', s.go act t = some s') ∨
      ∃ m u rest, s.code t = .lock m :: rest ∧ s.holder m = some u ∧ u ≠ t := by
  have hnext := h.code t
  cases hcode : s.code t with
  | nil => exact absurd hcode hbusy
  | cons op rest =>
    rw [hcode] at hnext
    cases op with
    | lock m =>
      cases hm : s.holder m with
      | none => exact .inl (by simp [Threads.go, hcode, hm])
      | some u =>
        refine .inr ⟨m, u, rest, rfl, hm, ?_⟩
        rintro rfl
        exact Nat.lt_irrefl _ (hnext.1 m ((h.holder m u).mp hm))
    | unlock m =>
      have hmine := (h.holder m t).mpr (List.mem_of_mem_head? hnext.1)
      exact .inl (by simp [Threads.go, hcode, hmine])
    | work w =>
      obtain ⟨shared, hact⟩ := hready t w rest hcode
      exact .inl (by simp [Threads.go, hcode, hact])

/-- Whoever holds a mutex goes on, or waits for one of a higher rank: the ranks have an end. -/
theorem holder_goes (h : Disciplined rank ok s held) (hready : Ready act s) {bound : Nat}
    (hbound : ∀ m, rank m ≤ bound) (hm : m ∈ held t) : ∃ u s', s.go act u = some s' := by
  -- the induction is on how far the rank is from its bound: whoever waits, waits for a higher one
  induction hgap : bound - rank m using Nat.strong_induction_on generalizing m t with
  | _ gap ih =>
    have hbusy : s.code t ≠ [] := fun hnil => by
      rw [h.held_nil hnil] at hm
      cases hm
    obtain ⟨s', hgo⟩ | ⟨n, u, rest, hcode, hn, _⟩ := h.goes_or_waits hready hbusy
    · exact ⟨t, s', hgo⟩
    · have hnext := h.code t
      rw [hcode] at hnext
      have hrank : rank m < rank n := hnext.1 m hm
      have hn_le := hbound n
      exact ih (bound - rank n) (by omega) ((h.holder n u).mp hn) rfl

theorem progress (h : Disciplined rank ok s held) (hready : Ready act s) {bound : Nat}
    (hbound : ∀ m, rank m ≤ bound) (hbusy : s.code t ≠ []) : ∃ u s', s.go act u = some s' := by
  obtain ⟨s', hgo⟩ | ⟨m, u, rest, _, hm, _⟩ := h.goes_or_waits hready hbusy
  · exact ⟨t, s', hgo⟩
  · exact h.holder_goes hready hbound ((h.holder m u).mp hm)

end Disciplined

/-! How many steps are left. -/

namespace Threads

variable [Fintype T] {act : T → W → D → Option D} {s s' : Threads T M W D} {t : T}

/-- The operations that the threads have still to do. -/
def pending (s : Threads T M W D) : Nat := ∑ t, (s.code t).length

variable [DecidableEq T] [DecidableEq M]

end Threads

end LockOrder
