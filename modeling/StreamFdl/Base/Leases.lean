import Mathlib.Data.List.Nodup
import Mathlib.Logic.Function.Basic

/- Leases of owners. An owner holds the ids of the leases that were opened for it;
   `opened` and `closed` are the logs of all that were opened and of all that were
   given back. `Settled` says that exactly the leases of the owners that are there
   are open, and that none was given back twice. Opening a lease for an owner and
   giving back all leases of one that goes keep it; an owner that goes and keeps
   one back leaves it open for good. -/
namespace Leases

variable {ρ ι : Type}

structure Settled (owned : ρ → Option (List ι)) (opened closed : List ι) : Prop where
  openedOnce : opened.Nodup
  closedOnce : closed.Nodup
  closedOpened : ∀ id ∈ closed, id ∈ opened
  owns : ∀ id, (id ∈ opened ∧ id ∉ closed) ↔ ∃ r ids, owned r = some ids ∧ id ∈ ids
  apart : ∀ r r' ids ids' id, owned r = some ids → owned r' = some ids' → id ∈ ids → id ∈ ids' → r = r'
  ownedOnce : ∀ r ids, owned r = some ids → ids.Nodup

variable {owned : ρ → Option (List ι)} {opened closed ids : List ι} {r : ρ} {id : ι}

theorem settled_nil : Settled (fun _ : ρ => none) ([] : List ι) [] :=
  ⟨List.nodup_nil, List.nodup_nil, fun _ h => (by cases h),
    fun _ => ⟨fun h => (by cases h.1), fun ⟨_, _, h, _⟩ => (by cases h)⟩,
    fun _ _ _ _ _ h => (by cases h), fun _ _ h => (by cases h)⟩

/-- What an owner holds was opened and not given back. -/
theorem Settled.isOpen (h : Settled owned opened closed) (hr : owned r = some ids) (hid : id ∈ ids) :
    id ∈ opened ∧ id ∉ closed := (h.owns id).mpr ⟨r, ids, hr, hid⟩

variable [DecidableEq ρ]

/-- One more lease, for an owner that holds `ids`, or that is new and holds none. -/
theorem Settled.open (h : Settled owned opened closed) (hr : owned r = some ids ∨ owned r = none ∧ ids = [])
    (hid : id ∉ opened) :
    Settled (Function.update owned r (some (ids ++ [id]))) (opened ++ [id]) closed := by
  have hown : ∀ q js, Function.update owned r (some (ids ++ [id])) q = some js →
      ∀ j ∈ js, (q = r ∧ j = id) ∨ ∃ ks, owned q = some ks ∧ j ∈ ks := by
    intro q js hq j hj
    by_cases hqr : q = r
    · subst hqr
      rw [Function.update_self] at hq
      cases hq
      obtain hj | hj := List.mem_append.mp hj
      · obtain hr | ⟨_, rfl⟩ := hr
        · exact Or.inr ⟨ids, hr, hj⟩
        · cases hj
      · exact Or.inl ⟨rfl, List.mem_singleton.mp hj⟩
    · rw [Function.update_of_ne hqr] at hq
      exact Or.inr ⟨js, hq, hj⟩
  have hnew : ∀ q js, owned q = some js → id ∉ js := fun q js hq hmem => hid (h.isOpen hq hmem).1
  refine ⟨?_, h.closedOnce, fun j hj => List.mem_append_left _ (h.closedOpened j hj), fun j => ⟨fun hj => ?_, ?_⟩, ?_, ?_⟩
  · apply List.nodup_append.mpr
    refine ⟨h.openedOnce, List.nodup_singleton id, fun j hj k hk => ?_⟩
    rw [List.mem_singleton.mp hk]
    exact fun heq => hid (heq ▸ hj)
  · obtain ⟨hj, hclosed⟩ := hj
    obtain hj | hj := List.mem_append.mp hj
    · obtain ⟨q, js, hq, hjs⟩ := (h.owns j).mp ⟨hj, hclosed⟩
      by_cases hqr : q = r
      · subst hqr
        obtain hr | ⟨hr, _⟩ := hr
        · rw [hr] at hq
          cases hq
          exact ⟨q, _, Function.update_self .., List.mem_append_left _ hjs⟩
        · rw [hr] at hq
          cases hq
      · exact ⟨q, js, by rw [Function.update_of_ne hqr, hq], hjs⟩
    · exact ⟨r, _, Function.update_self .., List.mem_append_right _ hj⟩
  · intro hj
    obtain ⟨q, js, hq, hjs⟩ := hj
    obtain ⟨_, rfl⟩ | ⟨ks, hks, hj⟩ := hown q js hq j hjs
    · exact ⟨List.mem_append_right _ (List.mem_singleton_self _), fun hc => hid (h.closedOpened _ hc)⟩
    · obtain ⟨hj, hclosed⟩ := h.isOpen hks hj
      exact ⟨List.mem_append_left _ hj, hclosed⟩
  · intro q q' js js' j hq hq' hj hj'
    obtain ⟨rfl, rfl⟩ | ⟨ks, hks, hj⟩ := hown q js hq j hj
    · obtain ⟨rfl, _⟩ | ⟨ks', hks', hj'⟩ := hown q' js' hq' _ hj'
      · rfl
      · exact absurd hj' (hnew _ _ hks')
    · obtain ⟨rfl, rfl⟩ | ⟨ks', hks', hj'⟩ := hown q' js' hq' j hj'
      · exact absurd hj (hnew _ _ hks)
      · exact h.apart q q' ks ks' j hks hks' hj hj'
  · intro q js hq
    by_cases hqr : q = r
    · subst hqr
      rw [Function.update_self] at hq
      cases hq
      obtain hr | ⟨_, rfl⟩ := hr
      · apply List.nodup_append.mpr
        refine ⟨h.ownedOnce _ _ hr, List.nodup_singleton id, fun j hj k hk => ?_⟩
        rw [List.mem_singleton.mp hk]
        exact fun heq => hnew _ _ hr (heq ▸ hj)
      · exact List.nodup_singleton id
    · rw [Function.update_of_ne hqr] at hq
      exact h.ownedOnce q js hq

/-- An owner goes and gives back what it holds. -/
theorem Settled.release (h : Settled owned opened closed) (hr : owned r = some ids) :
    Settled (Function.update owned r none) opened (closed ++ ids) := by
  have hown : ∀ q js, Function.update owned r none q = some js → q ≠ r ∧ owned q = some js := by
    intro q js hq
    by_cases hqr : q = r
    · rw [hqr, Function.update_self] at hq
      cases hq
    · rw [Function.update_of_ne hqr] at hq
      exact ⟨hqr, hq⟩
  refine ⟨h.openedOnce, ?_, fun j hj => ?_, fun j => ⟨fun hj => ?_, fun hj => ?_⟩, ?_, ?_⟩
  · apply List.nodup_append.mpr
    refine ⟨h.closedOnce, h.ownedOnce _ _ hr, fun j hj k hk heq => ?_⟩
    exact (h.isOpen hr hk).2 (heq ▸ hj)
  · obtain hj | hj := List.mem_append.mp hj
    · exact h.closedOpened j hj
    · exact (h.isOpen hr hj).1
  · obtain ⟨hj, hclosed⟩ := hj
    obtain ⟨q, js, hq, hjs⟩ := (h.owns j).mp ⟨hj, fun hc => hclosed (List.mem_append_left _ hc)⟩
    have hqr : q ≠ r := by
      intro heq
      rw [heq, hr] at hq
      cases hq
      exact hclosed (List.mem_append_right _ hjs)
    exact ⟨q, js, by rw [Function.update_of_ne hqr, hq], hjs⟩
  · obtain ⟨q, js, hq, hjs⟩ := hj
    obtain ⟨hqr, hq⟩ := hown q js hq
    obtain ⟨hj, hclosed⟩ := h.isOpen hq hjs
    refine ⟨hj, fun hc => ?_⟩
    obtain hc | hc := List.mem_append.mp hc
    · exact hclosed hc
    · exact hqr (h.apart q r js ids j hq hr hjs hc)
  · intro q q' js js' j hq hq' hj hj'
    exact h.apart q q' js js' j (hown q js hq).2 (hown q' js' hq').2 hj hj'
  · intro q js hq
    exact h.ownedOnce q js (hown q js hq).2

/-- An owner goes and does not give everything back: something stays open that no one holds. -/
theorem Settled.leaks (h : Settled owned opened closed) (hr : owned r = some ids) (hid : id ∈ ids)
    {part : List ι} (hpart : id ∉ part) :
    (id ∈ opened ∧ id ∉ closed ++ part) ∧ ¬ ∃ q js, Function.update owned r none q = some js ∧ id ∈ js := by
  obtain ⟨hopen, hclosed⟩ := h.isOpen hr hid
  refine ⟨⟨hopen, fun hc => (List.mem_append.mp hc).elim hclosed hpart⟩, fun hex => ?_⟩
  obtain ⟨q, js, hq, hjs⟩ := hex
  by_cases hqr : q = r
  · rw [hqr, Function.update_self] at hq
    cases hq
  · rw [Function.update_of_ne hqr] at hq
    exact hqr (h.apart q r js ids id hq hr hjs hid)

end Leases
