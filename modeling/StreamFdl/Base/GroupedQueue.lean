import Mathlib.Data.List.Nodup

/- A queue of values grouped by key: a value that arrives goes to the end of its
   key's group, and a consumer takes all groups at once. `Kept` is what such a
   queue owes its users over its whole history: nothing is lost, doubled or put
   under another key, and the values of one key come out in the order they went
   in, across any number of batches. -/
namespace GroupedQueue

variable {K V : Type} [DecidableEq K]

/-- Extend the group of the key, or append one. -/
def push : List (K × List V) → K → V → List (K × List V)
  | [], k, v => [(k, [v])]
  | g :: q, k, v => if g.1 = k then (g.1, g.2 ++ [v]) :: q else g :: push q k v

def keys (q : List (K × List V)) : List K := q.map Prod.fst

/-- The values grouped under a key. -/
def valuesFor (q : List (K × List V)) (k : K) : List V := q.flatMap fun g => if g.1 = k then g.2 else []

/-- The values that were sent under a key. -/
def sentFor (sent : List (K × V)) (k : K) : List V := (sent.filter fun e => e.1 = k).map Prod.snd

variable {q : List (K × List V)} {k : K} {v : V}

theorem valuesFor_cons (g : K × List V) (q : List (K × List V)) (k : K) :
    valuesFor (g :: q) k = (if g.1 = k then g.2 else []) ++ valuesFor q k := rfl

theorem valuesFor_of_not_mem (h : k ∉ keys q) : valuesFor q k = [] := by
  unfold valuesFor
  rw [List.flatMap_eq_nil_iff]
  intro g hg
  rw [if_neg]
  intro hk
  exact h (hk ▸ List.mem_map_of_mem hg)

theorem mem_keys_push {k' : K} : k' ∈ keys (push q k v) ↔ k' ∈ keys q ∨ k' = k := by
  induction q with
  | nil => simp [push, keys]
  | cons g q ih =>
    unfold push
    by_cases hg : g.1 = k
    · rw [if_pos hg]
      constructor
      · exact Or.inl
      · intro h
        obtain h | rfl := h
        · exact h
        · exact List.mem_cons.mpr (Or.inl hg.symm)
    · rw [if_neg hg]
      show k' ∈ g.1 :: keys (push q k v) ↔ k' ∈ g.1 :: keys q ∨ k' = k
      rw [List.mem_cons, List.mem_cons, ih, or_assoc]

/-- There is never a second group for a key. -/
theorem nodup_push (h : (keys q).Nodup) : (keys (push q k v)).Nodup := by
  induction q with
  | nil => exact List.nodup_singleton k
  | cons g q ih =>
    obtain ⟨hg, hq⟩ := List.nodup_cons.mp h
    unfold push
    by_cases hk : g.1 = k
    · rw [if_pos hk]
      exact h
    · rw [if_neg hk]
      show (g.1 :: keys (push q k v)).Nodup
      apply List.nodup_cons.mpr
      refine ⟨?_, ih hq⟩
      rw [mem_keys_push]
      intro hmem
      obtain hmem | hmem := hmem
      · exact hg hmem
      · exact hk hmem

/-- The value comes last under its key, and nothing changes under the others. -/
theorem valuesFor_push (h : (keys q).Nodup) (k' : K) :
    valuesFor (push q k v) k' = valuesFor q k' ++ if k = k' then [v] else [] := by
  induction q with
  | nil => simp [push, valuesFor]
  | cons g q ih =>
    obtain ⟨hg, hq⟩ := List.nodup_cons.mp h
    unfold push
    by_cases hk : g.1 = k
    · rw [if_pos hk, valuesFor_cons, valuesFor_cons, hk]
      by_cases hk' : k = k'
      · -- the rest of the queue has no group for the key
        have hnil : valuesFor q k' = [] := valuesFor_of_not_mem (hk' ▸ hk ▸ hg)
        rw [if_pos hk', if_pos hk', if_pos hk', hnil, List.append_nil, List.append_nil]
      · rw [if_neg hk', if_neg hk', if_neg hk', List.append_nil]
    · rw [if_neg hk, valuesFor_cons, valuesFor_cons, ih hq, List.append_assoc]

/-- What the queue owes for what was sent, given the batches taken so far. -/
structure Kept (sent : List (K × V)) (batches : List (List (K × List V))) (pending : List (K × List V)) :
    Prop where
  order : ∀ k, (batches.flatMap fun batch => valuesFor batch k) ++ valuesFor pending k = sentFor sent k
  pendingOnce : (keys pending).Nodup
  batchesOnce : ∀ batch ∈ batches, (keys batch).Nodup

variable {sent : List (K × V)} {batches : List (List (K × List V))} {pending : List (K × List V)}

theorem kept_nil : Kept ([] : List (K × V)) [] [] :=
  ⟨fun _ => rfl, List.nodup_nil, fun _ h => by cases h⟩

theorem Kept.push (h : Kept sent batches pending) (k : K) (v : V) :
    Kept (sent ++ [(k, v)]) batches (push pending k v) := by
  refine ⟨fun k' => ?_, nodup_push h.pendingOnce, h.batchesOnce⟩
  have hsent : sentFor (sent ++ [(k, v)]) k' = sentFor sent k' ++ if k = k' then [v] else [] := by
    unfold sentFor
    rw [List.filter_append, List.map_append]
    by_cases hk : k = k'
    · simp [hk]
    · simp [hk]
  rw [valuesFor_push h.pendingOnce, hsent, ← h.order k', List.append_assoc]

/-- All groups are taken at once. -/
theorem Kept.drain (h : Kept sent batches pending) : Kept sent (batches ++ [pending]) [] := by
  refine ⟨fun k => ?_, List.nodup_nil, fun batch hbatch => ?_⟩
  · rw [← h.order k, List.flatMap_append, List.flatMap_singleton]
    exact List.append_nil _
  · obtain hbatch | hbatch := List.mem_append.mp hbatch
    · exact h.batchesOnce batch hbatch
    · rw [List.mem_singleton.mp hbatch]
      exact h.pendingOnce

end GroupedQueue
