import StreamFdl.Base.Runs
import StreamFdl.ListShape

/- Runs of one `DoubleLinkedList`: appends, erasures of live elements, sweeps,
   and writes to use counters, in any order. A state pairs the list with the
   sequence of its live elements in insertion order, which the run keeps beside
   it. `Sound` is what the list owes its users in each state. It holds along a
   run exactly when no step removes the first or the last element: `erase`
   mends the links of the neighbours but not `mBegin` and `mEnd`. -/
namespace StreamFdl
open LinkedChain Runs

namespace DoubleLinkedList

variable {T : Type} {l l' : DoubleLinkedList T} {xs : List Nat}

/-- The element at `a` is live and in use. -/
def nonZeroAt (l : DoubleLinkedList T) (a : Nat) : Bool := (l.data a).any (fun d => d.useCounter.nonZero)

/-! The sweep. -/

/-- The sweep from an iterator on removes the unused elements behind it, and no pointer
    outside the elements changes. -/
theorem sweepFrom_rep (n : Nat) : ∀ (cur pre : List Nat) (l : DoubleLinkedList T), cur.length ≤ n →
    l.Rep (pre ++ cur) → ∃ l', sweepFrom n l cur.head? = some l' ∧
      l'.Rep (pre ++ cur.filter l.nonZeroAt) ∧ l'.mBegin = l.mBegin ∧ l'.mEnd = l.mEnd := by
  induction n with
  | zero =>
    intro cur pre l hn h
    have : cur = [] := List.eq_nil_of_length_eq_zero (by omega)
    subst this
    exact ⟨l, rfl, by simpa using h, rfl, rfl⟩
  | succ n ih =>
    intro cur pre l hn h
    cases cur with
    | nil => exact ⟨l, rfl, by simpa using h, rfl, rfl⟩
    | cons a rest =>
      obtain ⟨e, he⟩ := h.heap_some (a := a) (by simp)
      have hlen : rest.length ≤ n := by simpa using hn
      have hcell := (seg_split.mp h.seg).2.1
      simp only [links, linksOf, he, Option.map_some, Option.some.injEq, Links.mk.injEq,
        Option.or_none] at hcell
      have hnz : l.nonZeroAt a = e.mData.useCounter.nonZero := by simp [nonZeroAt, data, dataOf, he]
      simp only [List.head?_cons, sweepFrom, he, Option.bind_some]
      cases hz : e.mData.useCounter.nonZero with
      -- kept: it joins the elements behind the iterator
      | true =>
        obtain ⟨l', hs, hrep, hb, hend⟩ := ih rest (pre ++ [a]) l hlen (by simpa using h)
        refine ⟨l', by simpa [hcell.2] using hs, ?_, hb, hend⟩
        simpa [List.filter_cons, hnz, hz] using hrep
      -- erased: the sweep goes on in the list that `erase` leaves, at the iterator it returns
      | false =>
        obtain ⟨l₁, next, hs⟩ := erase_defined h (a := a) (by simp)
        have hrep₁ := h.erase hs
        rw [erase_split h.nodup] at hrep₁
        obtain ⟨_, _, hdata, _, hb₁, he₁⟩ := erase_spec hs
        obtain ⟨l', hs', hrep, hb, hend⟩ := ih rest pre l₁ hlen hrep₁
        have hnext := h.erase_next hs
        have hsame : rest.filter l₁.nonZeroAt = rest.filter l.nonZeroAt := by
          apply List.filter_congr
          intro b hbm
          have hba : b ≠ a := by
            intro hba
            have hnd := (List.nodup_append.mp h.nodup).2.1
            exact (List.nodup_cons.mp hnd).1 (hba ▸ hbm)
          simp [nonZeroAt, hdata, hba]
        refine ⟨l', by simpa [hs, hnext] using hs', ?_, hb.trans hb₁, hend.trans he₁⟩
        simpa [List.filter_cons, hnz, hz, hsame] using hrep

/-- The sweep keeps exactly the elements in use, in order; `mBegin` and `mEnd` stay as they are. -/
theorem Intact.sweep (h : l.Intact xs) : ∃ l', l.sweep = some l' ∧ l'.Rep (xs.filter l.nonZeroAt) ∧
    l'.mBegin = l.mBegin ∧ l'.mEnd = l.mEnd := by
  have hs := sweepFrom_rep l.fresh xs [] l h.rep.length_le (by simpa using h.rep)
  simpa [DoubleLinkedList.sweep, h.begin_eq] using hs

theorem head?_filter_of {p : Nat → Bool} (h : ∀ a, xs.head? = some a → p a = true) :
    (xs.filter p).head? = xs.head? := by
  cases xs with
  | nil => rfl
  | cons a as => simp [h a rfl]

theorem getLast?_filter_of {p : Nat → Bool} (h : ∀ a, xs.getLast? = some a → p a = true) :
    (xs.filter p).getLast? = xs.getLast? := by
  rcases List.eq_nil_or_concat' xs with rfl | ⟨ys, a, rfl⟩
  · rfl
  · have ha : p a = true := h a (by simp)
    simp [List.filter_append, ha]

/-! The destructor. -/

/-- The destructor frees the elements from the current one to `mEnd`. -/
theorem destroyFrom_seg (n : Nat) : ∀ (cur : List Nat) (p : Option Nat) (l : DoubleLinkedList T),
    cur.length ≤ n → cur.Nodup → Seg l.links p cur none → (cur ≠ [] → l.mEnd = cur.getLast?) →
    destroyFrom n l cur.head? = some cur := by
  induction n with
  | zero =>
    intro cur p l hn _ _ _
    have : cur = [] := List.eq_nil_of_length_eq_zero (by omega)
    subst this; rfl
  | succ n ih =>
    intro cur p l hn hnd hs hend
    cases cur with
    | nil => rfl
    | cons a rest =>
      have hlen : rest.length ≤ n := by simpa using hn
      have hcell := hs.1
      simp only [links, linksOf, Option.map_eq_some_iff, Links.mk.injEq, Option.or_none] at hcell
      obtain ⟨e, he, _, hnext⟩ := hcell
      have hndc := List.nodup_cons.mp hnd
      -- the element that was freed is not among the rest, whose links are those from before
      have hrest := ih rest (some a) { l with heap := Function.update l.heap a none } hlen hndc.2
        (seg_congr (fun b hb => by
          have hba : b ≠ a := fun h => hndc.1 (h ▸ hb)
          simp [links, linksOf, hba]) hs.2)
        (fun hne => by
          obtain ⟨b, bs, rfl⟩ := List.exists_cons_of_ne_nil hne
          simpa using hend (by simp))
      simp only [List.head?_cons, destroyFrom, he, Option.bind_some, hnext]
      cases rest with
      | nil => simp [hend, destroyFrom]
      | cons b bs =>
        have hb := hs.2.1
        simp only [links, linksOf, Option.map_eq_some_iff, Links.mk.injEq] at hb
        obtain ⟨e', he', hprev, _⟩ := hb
        simp only [List.head?_cons] at hrest
        simp [he', hprev, hrest]

theorem Intact.destroy (h : l.Intact xs) : l.destroy = some xs := by
  have hs := destroyFrom_seg l.fresh xs none l h.rep.length_le h.rep.nodup h.rep.seg (fun _ => h.end_eq)
  cases xs with
  | nil => simp [DoubleLinkedList.destroy, h.begin_eq, h.end_eq]
  | cons a as => simpa [DoubleLinkedList.destroy, h.begin_eq] using hs

theorem Intact.walk_next (h : l.Intact xs) : walk l.links Links.next l.fresh l.mBegin = some xs := by
  rw [h.begin_eq]
  exact LinkedChain.walk_next _ h.rep.length_le h.rep.seg

theorem Intact.pointers (h : l.Intact xs) {a : Nat} (hp : l.mBegin = some a ∨ l.mEnd = some a ∨
    ∃ b e, l.heap b = some e ∧ (e.mPrev = some a ∨ e.mNext = some a)) : a ∈ xs := by
  rcases hp with hb | he | ⟨b, e, he, hp⟩
  · exact List.mem_of_head? (h.begin_eq ▸ hb)
  · exact List.mem_of_getLast? (h.end_eq ▸ he)
  · have hmem : b ∈ xs := (h.rep.live b).mp (by simp [he])
    obtain ⟨ys, zs, rfl⟩ := List.append_of_mem hmem
    have hcell := (seg_split.mp h.rep.seg).2.1
    simp only [links, linksOf, he, Option.map_some, Option.some.injEq, Links.mk.injEq,
      Option.or_none] at hcell
    rcases hp with hp | hp
    · have := List.mem_of_getLast? (hcell.1 ▸ hp)
      simp [this]
    · have := List.mem_of_head? (hcell.2 ▸ hp)
      simp [this]

/-! What the list owes its users. -/

section
variable [Stored T]

/-- The list with live elements `xs`, in insertion order, is well formed, and each of its
    operations does what it is for. -/
structure Sound (l : DoubleLinkedList T) (xs : List Nat) : Prop where
  begin_null : l.mBegin = none ↔ xs = []
  end_null : l.mEnd = none ↔ xs = []
  live : ∀ a, l.heap a ≠ none ↔ a ∈ xs
  forward : walk l.links Links.next l.fresh l.mBegin = some xs
  ends : l.mEnd = xs.getLast?
  backward : walk l.links Links.prev l.fresh l.mEnd = some xs.reverse
  pointers : ∀ a, (l.mBegin = some a ∨ l.mEnd = some a ∨
    ∃ b e, l.heap b = some e ∧ (e.mPrev = some a ∨ e.mNext = some a)) → a ∈ xs
  find : ∀ primary, l.find primary =
    some (xs.find? (l.holds (fun t => Stored.mPrimaryKey t == primary)))
  findName : ∀ name, l.findName name = some (xs.find? (l.holds (fun t => Stored.mName t == name)))
  append : ∀ inst requestId, ∃ l' a, l.emplaceBack inst requestId = some (l', a) ∧ a ∉ xs ∧
    walk l'.links Links.next l'.fresh l'.mBegin = some (xs ++ [a])
  destroy : l.destroy = some xs

theorem Intact.sound (h : l.Intact xs) : l.Sound xs where
  begin_null := by rw [h.begin_eq]; simp
  end_null := by rw [h.end_eq]; simp
  live := h.rep.live
  forward := h.walk_next
  ends := h.end_eq
  backward := by rw [h.end_eq]; exact walk_prev _ h.rep.length_le h.rep.seg
  pointers := fun _ hp => h.pointers hp
  find := fun _ => h.findFrom _
  findName := fun _ => h.findFrom _
  append := fun inst requestId => by
    obtain ⟨l', hs⟩ := emplaceBack_defined h.rep h.end_eq inst requestId
    exact ⟨l', _, hs, fun hm => Nat.lt_irrefl _ (h.rep.below _ hm), (h.emplaceBack hs).walk_next⟩
  destroy := h.destroy

end

end DoubleLinkedList

/-! Runs. -/

inductive ListOp (T : Type) where
  | emplaceBack (inst : T) (requestId : RequestId)
  | erase (it : Nat)
  | sweep
  /-- A handle of the element at `it` writes its use counter. -/
  | useCounter (it : Nat) (value : AtomicCounter)

variable {T : Type}

/-- A step of the list, and of the sequence of live elements beside it. -/
def listStep (s : DoubleLinkedList T × List Nat) : ListOp T → Option (DoubleLinkedList T × List Nat)
  | .emplaceBack inst requestId =>
    (s.1.emplaceBack inst requestId).map fun r => (r.1, s.2 ++ [r.2])
  | .erase it => (s.1.erase it).map fun r => (r.1, s.2.erase it)
  | .sweep => s.1.sweep.map fun l => (l, s.2.filter s.1.nonZeroAt)
  | .useCounter it value => (s.1.modify it (fun d => { d with useCounter := value })).map fun l => (l, s.2)

/-- Only live elements are erased or counted. -/
def OfLive (s : DoubleLinkedList T × List Nat) : ListOp T → Prop
  | .erase it | .useCounter it _ => it ∈ s.2
  | _ => True

/-- The step does not remove the first or the last element. -/
def RemovesInner (s : DoubleLinkedList T × List Nat) : ListOp T → Prop
  | .erase it => s.2.head? ≠ some it ∧ s.2.getLast? ≠ some it
  | .sweep => ∀ a, s.2.head? = some a ∨ s.2.getLast? = some a → s.1.nonZeroAt a = true
  | _ => True

theorem listStep_intact (s : DoubleLinkedList T × List Nat) (op : ListOp T) (h : s.1.Intact s.2)
    (hv : OfLive s op) (hc : RemovesInner s op) : ∃ t, listStep s op = some t ∧ t.1.Intact t.2 := by
  cases op with
  | emplaceBack inst requestId =>
    obtain ⟨l', hs⟩ := DoubleLinkedList.emplaceBack_defined h.rep h.end_eq inst requestId
    exact ⟨_, by rw [listStep, hs]; rfl, h.emplaceBack hs⟩
  | erase it =>
    obtain ⟨l', next, hs⟩ := DoubleLinkedList.erase_defined h.rep hv
    exact ⟨_, by rw [listStep, hs]; rfl, h.erase hs hc.1 hc.2⟩
  | sweep =>
    obtain ⟨l', hs, hrep, hb, he⟩ := h.sweep
    refine ⟨_, by rw [listStep, hs]; rfl, hrep, ?_, ?_⟩
    · rw [hb, h.begin_eq]
      exact (DoubleLinkedList.head?_filter_of (fun a ha => hc a (Or.inl ha))).symm
    · rw [he, h.end_eq]
      exact (DoubleLinkedList.getLast?_filter_of (fun a ha => hc a (Or.inr ha))).symm
  | useCounter it value =>
    obtain ⟨l', hs⟩ := DoubleLinkedList.modify_defined h.rep hv (fun d => { d with useCounter := value })
    exact ⟨(l', s.2), by rw [listStep, hs]; rfl, h.modify hs⟩

/-- A step that removes the first or the last element leaves a pointer to it behind. -/
theorem listStep_unsound [Stored T] (s t : DoubleLinkedList T × List Nat) (op : ListOp T)
    (h : s.1.Intact s.2) (hc : ¬ RemovesInner s op) (hs : listStep s op = some t) :
    ¬ t.1.Sound t.2 := by
  -- the removed element is no longer live, but `mBegin` or `mEnd` still leads to it
  have key : ∀ a, a ∉ t.2 → t.1.mBegin = s.1.mBegin → t.1.mEnd = s.1.mEnd →
      (s.2.head? = some a ∨ s.2.getLast? = some a) → ¬ t.1.Sound t.2 := by
    intro a hgone hb he hor hsound
    rcases hor with ha | ha
    · exact hgone (hsound.pointers a (Or.inl (by rw [hb, h.begin_eq, ha])))
    · exact hgone (hsound.pointers a (Or.inr (Or.inl (by rw [he, h.end_eq, ha]))))
  cases op with
  | emplaceBack inst requestId => exact absurd trivial hc
  | erase it =>
    obtain ⟨⟨l', next⟩, hl, rfl⟩ := Option.map_eq_some_iff.mp hs
    obtain ⟨_, _, _, _, hb, he⟩ := DoubleLinkedList.erase_spec hl
    have hor : s.2.head? = some it ∨ s.2.getLast? = some it := by
      by_cases h1 : s.2.head? = some it
      · exact Or.inl h1
      · by_cases h2 : s.2.getLast? = some it
        · exact Or.inr h2
        · exact absurd ⟨h1, h2⟩ hc
    exact key it (h.rep.nodup.not_mem_erase) hb he hor
  | sweep =>
    obtain ⟨l', hl, rfl⟩ := Option.map_eq_some_iff.mp hs
    obtain ⟨l'', hl', _, hb, he⟩ := h.sweep
    rw [hl] at hl'
    cases hl'
    simp only [RemovesInner, not_forall] at hc
    obtain ⟨a, hor, hz⟩ := hc
    exact key a (by simp [hz]) hb he hor
  | useCounter it value => exact absurd trivial hc

/-- In every run of appends, erasures of live elements, sweeps and counter writes, the list is
    well formed and serves its users in every state exactly when no step removes its first or
    its last element. -/
theorem list_sound_iff_removes_inner [Stored T] (ops : List (ListOp T))
    (live : Along listStep OfLive (DoubleLinkedList.new, []) ops) :
    Holds listStep (fun s => s.1.Sound s.2) (DoubleLinkedList.new, []) ops ↔
      Along listStep RemovesInner (DoubleLinkedList.new, []) ops :=
  holds_iff_along (I := fun s => s.1.Intact s.2) (fun _ h => h.sound)
    (fun s op h hv hc => listStep_intact s op h hv hc)
    (fun s op t h _ hc hs => listStep_unsound s t op h hc hs)
    ops _ DoubleLinkedList.intact_new live

def exampleNode (primary : PrimaryKey) : Node := .ofResponse ⟨primary, primary, "", .ACTIVE, 0, 0, 0⟩

def appendThreeEraseSecond : List (ListOp Node) :=
  [.emplaceBack (exampleNode "a") 1, .emplaceBack (exampleNode "b") 2,
    .emplaceBack (exampleNode "c") 3, .erase 1]

/-- With three elements the inner one can be erased. -/
theorem list_sound_erase_second :
    Holds listStep (fun s => s.1.Sound s.2) (DoubleLinkedList.new, []) appendThreeEraseSecond :=
  (list_sound_iff_removes_inner appendThreeEraseSecond
    (.cons trivial rfl (.cons trivial rfl (.cons trivial rfl
      (.cons (show 1 ∈ [0, 1, 2] by decide) rfl trivial))))).mpr
    (.cons trivial rfl (.cons trivial rfl (.cons trivial rfl
      (.cons (show [0, 1, 2].head? ≠ some 1 ∧ [0, 1, 2].getLast? ≠ some 1 by decide) rfl trivial))))

/-- Erasing the only element leaves `mBegin` leading to it. -/
theorem list_unsound_erase_only :
    Along listStep OfLive (DoubleLinkedList.new, []) [.emplaceBack (exampleNode "a") 1, .erase 0] ∧
    ¬ Holds listStep (fun s => s.1.Sound s.2) (DoubleLinkedList.new, [])
      [.emplaceBack (exampleNode "a") 1, .erase 0] := by
  refine ⟨.cons trivial rfl (.cons (show 0 ∈ [0] by decide) rfl trivial), fun h => ?_⟩
  have hsound := ((h.cons rfl).cons rfl).here
  have hnull := hsound.begin_null.mpr (by decide)
  exact absurd hnull (by decide)

end StreamFdl
