import StreamFdl.DoubleLinkedList

/- The shape `DoubleLinkedList` keeps. Every operation that is defined keeps
   `Rep`: the live elements are chained in insertion order, whatever was erased.
   Erasing an inner element and appending also keep `Intact`; erasing the first
   or the last element leaves `mBegin` or `mEnd` leading to the deleted element,
   and then the next traversal or append has no defined result. -/
namespace StreamFdl
open LinkedChain

namespace DoubleLinkedList

variable {T : Type} {l l' : DoubleLinkedList T} {xs : List Nat} {a : Nat}

/-- The pointer leads to an element that was deleted. -/
def Dangling (l : DoubleLinkedList T) (p : Option Nat) : Prop :=
  ∃ a, p = some a ∧ a < l.fresh ∧ l.heap a = none

/-- `xs` are the live elements in insertion order, and they are chained in that order. -/
structure Rep (l : DoubleLinkedList T) (xs : List Nat) : Prop where
  seg : Seg l.links none xs none
  live : ∀ a, l.heap a ≠ none ↔ a ∈ xs
  nodup : xs.Nodup
  below : ∀ a ∈ xs, a < l.fresh
  begin_eq : l.mBegin = xs.head? ∨ l.Dangling l.mBegin
  end_eq : l.mEnd = xs.getLast? ∨ l.Dangling l.mEnd

/-- Also, `mBegin` and `mEnd` lead to the first and the last of them. -/
structure Intact (l : DoubleLinkedList T) (xs : List Nat) : Prop where
  rep : l.Rep xs
  begin_eq : l.mBegin = xs.head?
  end_eq : l.mEnd = xs.getLast?

theorem intact_new : (new : DoubleLinkedList T).Intact [] :=
  ⟨⟨trivial, by simp [new], List.nodup_nil, by simp, Or.inl rfl, Or.inl rfl⟩, rfl, rfl⟩

theorem Rep.length_le (h : l.Rep xs) : xs.length ≤ l.fresh := by
  have hsub : xs ⊆ List.range l.fresh := fun a ha => List.mem_range.mpr (h.below a ha)
  have := (List.subperm_of_subset h.nodup hsub).length_le
  rwa [List.length_range] at this

/-- The element of a live address. -/
theorem Rep.heap_some (h : l.Rep xs) (ha : a ∈ xs) : ∃ e, l.heap a = some e :=
  Option.ne_none_iff_exists'.mp ((h.live a).mpr ha)

theorem Rep.heap_fresh (h : l.Rep xs) : l.heap l.fresh = none := by
  by_contra hne
  exact Nat.lt_irrefl _ (h.below _ ((h.live _).mp hne))

theorem dangling_of_data {p : Option Nat} (hd : l.Dangling p) (hf : l.fresh ≤ l'.fresh)
    (hdata : ∀ a, a < l.fresh → l.data a = none → l'.data a = none) : l'.Dangling p := by
  obtain ⟨a, rfl, hlt, ha⟩ := hd
  have h' := hdata a hlt (data_eq_none.mpr ha)
  exact ⟨a, rfl, by omega, data_eq_none.mp h'⟩

/-! Appending. -/

/-- Appending behind a deleted element writes to memory that was given back. -/
theorem emplaceBack_dangling (hd : l.Dangling l.mEnd) (inst : T) (requestId : RequestId) :
    l.emplaceBack inst requestId = none := by
  obtain ⟨a, ha, hlt, hnone⟩ := hd
  have hne : a ≠ l.fresh := by omega
  simp [emplaceBack, ha, writeIf, hne, hnone]

theorem emplaceBack_defined (h : l.Rep xs) (he : l.mEnd = xs.getLast?) (inst : T)
    (requestId : RequestId) : ∃ l', l.emplaceBack inst requestId = some (l', l.fresh) := by
  have hw := writeIf_defined (Function.update l.heap l.fresh
    (some ⟨l.mEnd, none, ⟨inst, requestId, ⟨1⟩⟩⟩)) l.mEnd (fun e => { e with mNext := some l.fresh }) (fun a ha => by
      have hmem : a ∈ xs := List.mem_of_getLast? (he ▸ ha)
      by_cases hf : a = l.fresh
      · subst hf; simp
      · simpa [hf] using (h.live a).mpr hmem)
  obtain ⟨heap', hw⟩ := hw
  simp [emplaceBack, hw]

/-- A new element goes to the end, whatever `mBegin` was left at. -/
theorem Rep.emplaceBack {inst : T} {requestId : RequestId} (h : l.Rep xs)
    (hs : l.emplaceBack inst requestId = some (l', a)) : l'.Rep (xs ++ [a]) := by
  obtain ⟨rfl, hfresh, hlinks, hdata, hbegin, hend⟩ := emplaceBack_spec hs
  have hnew : l.fresh ∉ xs := fun hm => Nat.lt_irrefl _ (h.below _ hm)
  have hlast : l.mEnd = xs.getLast? := by
    rcases h.end_eq with he | hd
    · exact he
    · rw [emplaceBack_dangling hd] at hs; cases hs
  have hother : ∀ b, b ≠ l.fresh → l'.data b = l.data b := fun b hb => by
    rw [hdata, Function.update_of_ne hb]
  refine ⟨?_, ?_, ?_, ?_, ?_, ?_⟩
  · rw [hlinks, hlast]
    exact seg_append_new hnew h.nodup h.seg
  · intro b
    rw [← data_eq_none.ne]
    by_cases hb : b = l.fresh
    · subst hb; simp [hdata]
    · rw [hother b hb, data_eq_none.ne, h.live b]; simp [hb]
  · exact List.nodup_append.mpr ⟨h.nodup, by simp, by simpa using fun b hb (h' : b = l.fresh) => hnew (h' ▸ hb)⟩
  · intro b hb
    rcases List.mem_append.mp hb with hb | hb
    · have := h.below b hb; omega
    · have : b = l.fresh := by simpa using hb
      omega
  · rcases List.eq_nil_or_concat' xs with rfl | ⟨ys, z, rfl⟩
    · left; simp [hbegin, hlast]
    -- `mBegin` is written only when `mEnd` was null, so a dangling one stays dangling
    · rcases h.begin_eq with hb | hd
      · left; rw [hbegin, hlast, hb]; simp [List.head?_append]
      · right
        rw [hbegin, hlast]
        have hd' := dangling_of_data hd (show l.fresh ≤ l'.fresh by omega)
          (fun b hlt hnone => (hother b (by omega)).trans hnone)
        simpa using hd'
  · left; simp [hend]

theorem Intact.emplaceBack {inst : T} {requestId : RequestId} (h : l.Intact xs)
    (hs : l.emplaceBack inst requestId = some (l', a)) : l'.Intact (xs ++ [a]) := by
  obtain ⟨_, _, _, _, hbegin, hend⟩ := emplaceBack_spec hs
  refine ⟨h.rep.emplaceBack hs, ?_, by simp [hend]⟩
  rw [hbegin, h.end_eq, h.begin_eq]
  rcases List.eq_nil_or_concat' xs with rfl | ⟨ys, z, rfl⟩ <;> simp [List.head?_append]

/-! Erasing. -/

theorem erase_defined (h : l.Rep xs) (ha : a ∈ xs) : ∃ l' next, l.erase a = some (l', next) := by
  obtain ⟨ys, zs, rfl⟩ := List.append_of_mem ha
  obtain ⟨e, he⟩ := h.heap_some ha
  have hcell := (seg_split.mp h.seg).2.1
  simp only [links, linksOf, he, Option.map_some, Option.some.injEq, Links.mk.injEq, Option.or_none] at hcell
  obtain ⟨heap₁, h₁⟩ := writeIf_defined l.heap e.mPrev
    (fun c => { c with mNext := e.mNext }) (fun b hb => (h.live b).mpr (by
      rw [hcell.1] at hb; simp [List.mem_of_getLast? hb]))
  obtain ⟨heap₂, h₂⟩ := writeIf_defined heap₁ e.mNext
    (fun c => { c with mPrev := e.mPrev }) (fun b hb => by
      have hd := (writeIf_next h₁).2
      rw [← dataOf_eq_none.ne, hd, dataOf_eq_none.ne, h.live b]
      rw [hcell.2] at hb
      simp [List.mem_of_head? hb])
  exact ⟨_, _, by simp only [erase, he, h₁, h₂, Option.bind_eq_bind, Option.bind_some]; rfl⟩

theorem erase_split {ys zs : List Nat} (hnd : (ys ++ a :: zs).Nodup) :
    (ys ++ a :: zs).erase a = ys ++ zs := by
  have ha : a ∉ ys := fun h => (List.nodup_append.mp hnd).2.2 a h a (by simp) rfl
  rw [List.erase_append_right _ ha, List.erase_cons_head]

/-- Where the iterator `erase` returns leads. -/
theorem Rep.erase_next {ys zs : List Nat} {next : Option Nat} (h : l.Rep (ys ++ a :: zs))
    (hs : l.erase a = some (l', next)) : next = zs.head? := by
  obtain ⟨⟨c, hc, hn⟩, _⟩ := erase_spec hs
  have hcell := (seg_split.mp h.seg).2.1
  rw [hc] at hcell
  simp only [Option.some.injEq, Option.or_none] at hcell
  rw [hn, hcell]

/-- Erasing mends the links between the elements that remain; `mBegin` and `mEnd` keep pointing to
    the element erased. -/
theorem Rep.erase {next : Option Nat} (h : l.Rep xs) (hs : l.erase a = some (l', next)) :
    l'.Rep (xs.erase a) := by
  obtain ⟨⟨c, hc, _⟩, hlinks, hdata, hfresh, hbegin, hend⟩ := erase_spec hs
  have hmem : a ∈ xs := (h.live a).mp (links_eq_none.ne.mp (by rw [hc]; simp))
  have hlt := h.below a hmem
  obtain ⟨ys, zs, rfl⟩ := List.append_of_mem hmem
  have hnd := h.nodup
  have hgone : l'.data a = none := by rw [hdata]; simp
  have hkeep : ∀ b, b < l.fresh → l.data b = none → l'.data b = none := fun b _ hb => by
    by_cases hba : b = a
    · rw [hba, hgone]
    · rw [hdata, Function.update_of_ne hba, hb]
  rw [erase_split hnd]
  have hsub : (ys ++ zs).Sublist (ys ++ a :: zs) := by simp
  refine ⟨by rw [hlinks]; exact seg_unlink hnd h.seg, ?_, hnd.sublist hsub,
    fun b hb => hfresh ▸ h.below b (hsub.subset hb), ?_, ?_⟩
  · intro b
    rw [← data_eq_none.ne]
    by_cases hba : b = a
    · subst hba
      have hb : b ∉ ys ++ zs := by
        rw [← erase_split hnd]
        exact hnd.not_mem_erase
      simpa [hgone] using hb
    · rw [hdata, Function.update_of_ne hba, data_eq_none.ne, h.live b]
      simp [hba]
  · rw [hbegin]
    rcases h.begin_eq with hb | hd
    · cases ys with
      | nil => right; exact ⟨a, by simpa using hb, by omega, data_eq_none.mp hgone⟩
      | cons y ys => left; simpa using hb
    · right; exact dangling_of_data hd (by omega) hkeep
  · rw [hend]
    rcases h.end_eq with he | hd
    · cases zs with
      | nil => right; exact ⟨a, by simpa using he, by omega, data_eq_none.mp hgone⟩
      | cons z zs => left; simpa [List.getLast?_append, List.getLast?_cons_cons] using he
    · right; exact dangling_of_data hd (by omega) hkeep

/-- Erasing an inner element leaves the list intact. -/
theorem Intact.erase {next : Option Nat} (h : l.Intact xs) (hs : l.erase a = some (l', next))
    (hfirst : xs.head? ≠ some a) (hlast : xs.getLast? ≠ some a) : l'.Intact (xs.erase a) := by
  obtain ⟨⟨c, hc, _⟩, _, _, _, hbegin, hend⟩ := erase_spec hs
  have hmem : a ∈ xs := (h.rep.live a).mp (links_eq_none.ne.mp (by rw [hc]; simp))
  refine ⟨h.rep.erase hs, ?_, ?_⟩
  all_goals
    obtain ⟨ys, zs, rfl⟩ := List.append_of_mem hmem
    rw [erase_split h.rep.nodup]
  · rw [hbegin, h.begin_eq]
    cases ys with
    | nil => simp at hfirst
    | cons y ys => simp
  · rw [hend, h.end_eq]
    cases zs with
    | nil => simp at hlast
    | cons z zs => simp [List.getLast?_append, List.getLast?_cons_cons]

/-! Writes to an element. -/

theorem Rep.modify {f : Data T → Data T} (h : l.Rep xs) (hs : l.modify a f = some l') :
    l'.Rep xs := by
  obtain ⟨_, hlinks, hfresh, hbegin, hend⟩ := modify_spec hs
  have hheap : ∀ b, l'.heap b = none ↔ l.heap b = none := fun b => by
    rw [← links_eq_none, hlinks, links_eq_none]
  have hdang : ∀ p, l.Dangling p → l'.Dangling p := fun p ⟨b, hp, hlt, hb⟩ =>
    ⟨b, hp, hfresh ▸ hlt, (hheap b).mpr hb⟩
  refine ⟨hlinks ▸ h.seg, fun b => by rw [(hheap b).ne, h.live], h.nodup, hfresh ▸ h.below, ?_, ?_⟩
  · rw [hbegin]; exact h.begin_eq.imp_right (hdang _)
  · rw [hend]; exact h.end_eq.imp_right (hdang _)

theorem Intact.modify {f : Data T → Data T} (h : l.Intact xs) (hs : l.modify a f = some l') :
    l'.Intact xs := by
  obtain ⟨_, _, _, hbegin, hend⟩ := modify_spec hs
  exact ⟨h.rep.modify hs, hbegin.trans h.begin_eq, hend.trans h.end_eq⟩

theorem modify_defined (h : l.Rep xs) (ha : a ∈ xs) (f : Data T → Data T) :
    ∃ l', l.modify a f = some l' := by
  obtain ⟨e, he⟩ := h.heap_some ha
  simp [DoubleLinkedList.modify, he]

/-! Searching. -/

/-- The element at `a` is live and its object has property `p`. -/
def holds (l : DoubleLinkedList T) (p : T → Bool) (a : Nat) : Bool := (l.data a).any (fun d => p d.inst)

theorem findFrom_seg {p : T → Bool} (n : Nat) (pr : Option Nat) (hn : xs.length ≤ n)
    (hs : Seg l.links pr xs none) : l.findFrom p n xs.head? = some (xs.find? (l.holds p)) := by
  induction xs generalizing pr n with
  | nil => cases n <;> rfl
  | cons b bs ih =>
    cases n with
    | zero => simp at hn
    | succ n =>
      have hrest := ih n (some b) (by simpa using hn) hs.2
      have hcell := hs.1
      simp only [links, linksOf, Option.map_eq_some_iff, Links.mk.injEq, Option.or_none] at hcell
      obtain ⟨e, he, _, hnext⟩ := hcell
      have hh : l.holds p b = p e.mData.inst := by simp [holds, data, dataOf, he]
      simp only [List.head?_cons, findFrom, he, Option.bind_some, List.find?_cons, hh, hnext, hrest]
      cases p e.mData.inst <;> rfl

theorem Intact.findFrom (h : l.Intact xs) (p : T → Bool) :
    l.findFrom p l.fresh l.mBegin = some (xs.find? (l.holds p)) := by
  rw [h.begin_eq]
  exact findFrom_seg _ none h.rep.length_le h.rep.seg

/-- A search that is defined finds the first live match, also in a list that is not intact. -/
theorem Rep.findFrom {p : T → Bool} {r : Option Nat} (h : l.Rep xs)
    (hs : l.findFrom p l.fresh l.mBegin = some r) : r = xs.find? (l.holds p) := by
  rcases h.begin_eq with hb | ⟨b, hb, hlt, hnone⟩
  · rw [hb, findFrom_seg _ none h.length_le h.seg] at hs
    simpa using hs.symm
  · obtain ⟨n, hn⟩ : ∃ n, l.fresh = n + 1 := ⟨l.fresh - 1, by omega⟩
    rw [hb, hn] at hs
    simp [DoubleLinkedList.findFrom, hnone] at hs

end DoubleLinkedList

end StreamFdl
