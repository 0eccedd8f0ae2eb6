import StreamFdl.Handles

/- The special members of `MemberPtr` over stored elements whose counters stand
   at the numbers of their handles. Constructors and the destructor keep that.
   An assignment counts the handle that is assigned from and never the one that
   is overwritten: afterwards the counters stand as if what the target referred
   to before still had a handle (`assigned`). So counters and handles agree along
   a run exactly when every target of an assignment is null. -/
namespace StreamFdl
open Runs UseCount

/-- The handle holds the counter of the element it points to. -/
def MemberPtr.Linked (p : MemberPtr) : Prop := ∀ m, p.mpMember = some m → p.mpUseCounter = some m.ref

theorem MemberPtr.linked_of_null {p : MemberPtr} (h : p.mpMember = none) : p.Linked := by
  intro m hm
  rw [h] at hm
  cases hm

structure PtrState where
  store : DataStore
  handles : List MemberPtr

/-- The special members, on the handles at these places of the table; a new handle goes to its end. -/
inductive PtrAction where
  | construct
  | copyConstruct (other : Nat)
  | copyAssign (this other : Nat)
  | moveConstruct (other : Nat)
  | moveAssign (this other : Nat)
  | destroy (this : Nat)
  deriving DecidableEq

namespace PtrState

/-- A step; no result when there is no such handle, or an object is used that was deleted. -/
def step (s : PtrState) : PtrAction → Option PtrState
  | .construct => some { s with handles := s.handles ++ [.null] }
  | .copyConstruct j => s.handles[j]?.bind fun other =>
    (other.copyConstruct DataStore.access s.store).map fun r => ⟨r.2, s.handles ++ [r.1]⟩
  | .copyAssign i j => s.handles[i]?.bind fun this => s.handles[j]?.bind fun other =>
    (this.copyAssign DataStore.access other s.store).map fun r => ⟨r.2, s.handles.set i r.1⟩
  | .moveConstruct j => s.handles[j]?.map fun other =>
    { s with handles := s.handles.set j other.moveConstruct.2 ++ [other.moveConstruct.1] }
  | .moveAssign i j => s.handles[i]?.bind fun this => s.handles[j]?.map fun other =>
    { s with handles := (s.handles.set i (this.moveAssign other).1).set j (this.moveAssign other).2 }
  | .destroy i => s.handles[i]?.bind fun this =>
    (this.destroy DataStore.access s.store).map fun store => ⟨store, s.handles.eraseIdx i⟩

def owners (s : PtrState) : List Ref := s.handles.filterMap MemberPtr.target

/-- Each element's counter stands at the number of valid handles that point to it. -/
def Agrees (s : PtrState) : Prop := Balanced s.store.useCount s.owners

/-- Every handle holds the counter of its own element. -/
def Linked (s : PtrState) : Prop := ∀ p ∈ s.handles, p.Linked

/-- The handles the operation works on are there. -/
def Live (s : PtrState) : PtrAction → Prop
  | .construct => True
  | .copyConstruct j | .moveConstruct j | .destroy j => j < s.handles.length
  | .copyAssign i j | .moveAssign i j => i < s.handles.length ∧ j < s.handles.length

/-- An assignment overwrites a null handle only. -/
def NullTarget (s : PtrState) : PtrAction → Prop
  | .copyAssign i _ | .moveAssign i _ => ∀ p, s.handles[i]? = some p → p.valid = false
  | _ => True

end PtrState

/-- The counter of a stored element can be used. -/
theorem DataStore.access_defined {s : DataStore} {r : Ref} {n : Nat} (h : s.useCount r = some n)
    (f : AtomicCounter → AtomicCounter) : ∃ s', s.access r f = some s' := by
  obtain ⟨c, hc, _⟩ := Option.map_eq_some_iff.mp h
  obtain ⟨e, he, _⟩ := Option.map_eq_some_iff.mp hc
  obtain ⟨isTopic, a⟩ := r
  cases isTopic with
  | false =>
    obtain ⟨d, hd, _⟩ := Option.map_eq_some_iff.mp he
    obtain ⟨x, hx, _⟩ := Option.map_eq_some_iff.mp hd
    simp [access, DoubleLinkedList.modify, hx]
  | true =>
    obtain ⟨d, hd, _⟩ := Option.map_eq_some_iff.mp he
    obtain ⟨x, hx, _⟩ := Option.map_eq_some_iff.mp hd
    simp [access, DoubleLinkedList.modify, hx]

namespace PtrState

variable {s t : PtrState} {i j : Nat} {this other : MemberPtr}

/-- Counting one more handle of what a handle refers to. -/
theorem count_increase {m : Member} {owners : List Ref} (h : Balanced s.store.useCount owners)
    (hm : m.ref ∈ owners) : ∃ store, s.store.access m.ref .increase = some store ∧
      Balanced store.useCount (m.ref :: owners) := by
  obtain ⟨n, hn⟩ := h.alive hm
  obtain ⟨store, hstore⟩ := DataStore.access_defined hn .increase
  obtain ⟨⟨c, hc, hcounter⟩, _⟩ := DataStore.access_spec hstore
  have hcn : c.mValue = n + 1 := by simpa [DataStore.useCount, hc] using hn
  refine ⟨store, hstore, ?_⟩
  rw [DataStore.useCount_update hcounter, Option.map_some, AtomicCounter.increase_mValue, hcn]
  exact h.dup hn

/-- Counting one handle fewer. -/
theorem count_decrease {m : Member} {owners : List Ref} (h : Balanced s.store.useCount (m.ref :: owners)) :
    ∃ store, s.store.access m.ref .decrease = some store ∧ Balanced store.useCount owners := by
  obtain ⟨n, hn⟩ := h.alive List.mem_cons_self
  obtain ⟨store, hstore⟩ := DataStore.access_defined hn .decrease
  obtain ⟨⟨c, hc, hcounter⟩, _⟩ := DataStore.access_spec hstore
  have hcn : c.mValue = n + 1 := by simpa [DataStore.useCount, hc] using hn
  refine ⟨store, hstore, ?_⟩
  rw [DataStore.useCount_update hcounter, Option.map_some, AtomicCounter.decrease_mValue, hcn]
  exact h.drop hn

theorem target_mem {m : Member} (hj : s.handles[j]? = some other) (hm : other.mpMember = some m) :
    m.ref ∈ s.owners :=
  List.mem_filterMap.mpr ⟨other, List.mem_of_getElem? hj, by rw [MemberPtr.target, hm]; rfl⟩

theorem linked_set {handles : List MemberPtr} {q : MemberPtr} (h : ∀ p ∈ handles, p.Linked) (hq : q.Linked) :
    ∀ p ∈ handles.set i q, p.Linked := by
  intro p hp
  obtain hp | rfl := List.mem_or_eq_of_mem_set hp
  · exact h p hp
  · exact hq

theorem linked_append {handles : List MemberPtr} {q : MemberPtr} (h : ∀ p ∈ handles, p.Linked) (hq : q.Linked) :
    ∀ p ∈ handles ++ [q], p.Linked := by
  intro p hp
  obtain hp | hp := List.mem_append.mp hp
  · exact h p hp
  · rw [List.mem_singleton.mp hp]
    exact hq

theorem owners_push (p : MemberPtr) : ((s.handles ++ [p]).filterMap MemberPtr.target).Perm
    (p.target.toList ++ s.owners) := by
  have hone : [p].filterMap MemberPtr.target = p.target.toList := by
    cases hp : p.target <;> simp [hp]
  rw [List.filterMap_append, hone]
  exact List.perm_append_comm

/-- The step is defined, and the counters it leaves count one handle of `extra` more than there is. -/
def Leaves (s : PtrState) (act : PtrAction) (extra : Option Ref) : Prop :=
  ∃ t, s.step act = some t ∧ Balanced t.store.useCount (extra.toList ++ t.owners) ∧ t.Linked

section Steps
variable (agrees : s.Agrees) (linked : s.Linked)

include agrees linked

theorem construct_leaves : s.Leaves .construct none := by
  refine ⟨_, rfl, agrees.perm (owners_push .null), linked_append linked (MemberPtr.linked_of_null rfl)⟩

theorem copyConstruct_leaves (hj : s.handles[j]? = some other) : s.Leaves (.copyConstruct j) none := by
  unfold Leaves
  simp only [step, hj, Option.bind_some]
  cases hm : other.mpMember with
  | none =>
    refine ⟨⟨s.store, s.handles ++ [.null]⟩, by simp [MemberPtr.copyConstruct, hm], ?_, ?_⟩
    · exact agrees.perm (owners_push .null)
    · exact linked_append linked (MemberPtr.linked_of_null rfl)
  | some m =>
    obtain ⟨store, hstore, hbalanced⟩ := count_increase agrees (target_mem hj hm)
    have hcounter := linked other (List.mem_of_getElem? hj) m hm
    refine ⟨⟨store, s.handles ++ [⟨some m, some m.ref⟩]⟩, ?_, ?_, ?_⟩
    · simp [MemberPtr.copyConstruct, hm, hcounter, hstore]
    · exact hbalanced.perm (owners_push ⟨some m, some m.ref⟩)
    · exact linked_append linked fun m' hm' => by cases hm'; rfl

/-- What the overwritten handle pointed to stays counted. -/
theorem copyAssign_leaves (hi : s.handles[i]? = some this) (hj : s.handles[j]? = some other) :
    s.Leaves (.copyAssign i j) this.target := by
  unfold Leaves
  simp only [step, hi, hj, Option.bind_some]
  cases hm : other.mpMember with
  | none =>
    refine ⟨⟨s.store, s.handles.set i { this with mpMember := none }⟩, ?_, ?_, ?_⟩
    · simp [MemberPtr.copyAssign, hm]
    · exact agrees.perm (filterMap_set_swap _ hi)
    · exact linked_set linked (MemberPtr.linked_of_null rfl)
  | some m =>
    obtain ⟨store, hstore, hbalanced⟩ := count_increase agrees (target_mem hj hm)
    have hcounter := linked other (List.mem_of_getElem? hj) m hm
    refine ⟨⟨store, s.handles.set i ⟨some m, some m.ref⟩⟩, ?_, ?_, ?_⟩
    · simp [MemberPtr.copyAssign, hm, hcounter, hstore]
    · exact hbalanced.perm (filterMap_set_swap ⟨some m, some m.ref⟩ hi)
    · exact linked_set linked fun m' hm' => by cases hm'; rfl

theorem moveConstruct_leaves (hj : s.handles[j]? = some other) : s.Leaves (.moveConstruct j) none := by
  have hmem := linked other (List.mem_of_getElem? hj)
  have htarget : other.moveConstruct.2.target = none ∧ other.moveConstruct.1.target = other.target := by
    cases hm : other.mpMember <;> simp [MemberPtr.moveConstruct, hm, MemberPtr.target, MemberPtr.null]
  have hlinked : other.moveConstruct.1.Linked ∧ other.moveConstruct.2.Linked := by
    unfold MemberPtr.moveConstruct
    cases hm : other.mpMember with
    | none => exact ⟨MemberPtr.linked_of_null rfl, hmem⟩
    | some m => exact ⟨fun m' hm' => hmem m' (hm.trans hm'), MemberPtr.linked_of_null rfl⟩
  refine ⟨{ s with handles := s.handles.set j other.moveConstruct.2 ++ [other.moveConstruct.1] },
    by simp [step, hj], ?_, linked_append (linked_set linked hlinked.2) hlinked.1⟩
  have hset := filterMap_set_swap (f := MemberPtr.target) other.moveConstruct.2 hj
  rw [htarget.1] at hset
  have hpush := owners_push (s := { s with handles := s.handles.set j other.moveConstruct.2 })
    other.moveConstruct.1
  rw [htarget.2] at hpush
  exact agrees.perm (hpush.trans hset)

theorem moveAssign_leaves (hi : s.handles[i]? = some this) (hj : s.handles[j]? = some other) :
    s.Leaves (.moveAssign i j) this.target := by
  have hmem := linked other (List.mem_of_getElem? hj)
  have hlinked : (this.moveAssign other).1.Linked ∧ (this.moveAssign other).2.Linked := by
    unfold MemberPtr.moveAssign
    cases hm : other.mpMember with
    | none => exact ⟨MemberPtr.linked_of_null rfl, hmem⟩
    | some m => exact ⟨fun m' hm' => hmem m' (hm.trans hm'), MemberPtr.linked_of_null rfl⟩
  have htarget : (this.moveAssign other).2.target = none ∧ (this.moveAssign other).1.target = other.target := by
    cases hm : other.mpMember <;> simp [MemberPtr.moveAssign, hm, MemberPtr.target]
  refine ⟨{ s with handles :=
    (s.handles.set i (this.moveAssign other).1).set j (this.moveAssign other).2 }, by simp [step, hi, hj], ?_,
    linked_set (linked_set linked hlinked.1) hlinked.2⟩
  apply agrees.perm
  by_cases hij : i = j
  · -- the handle that was assigned is written again
    subst hij
    rw [hi] at hj
    cases hj
    have hset := filterMap_set_swap (f := MemberPtr.target) (this.moveAssign this).2 hi
    rw [htarget.1] at hset
    show ((this.target).toList ++ ((s.handles.set i _).set i _).filterMap MemberPtr.target).Perm s.owners
    rw [List.set_set]
    exact hset
  · have hother : (s.handles.set i (this.moveAssign other).1)[j]? = some other := by
      rw [List.getElem?_set_ne hij]
      exact hj
    have hsecond := filterMap_set_swap (f := MemberPtr.target) (this.moveAssign other).2 hother
    rw [htarget.1] at hsecond
    have hfirst := filterMap_set_swap (f := MemberPtr.target) (this.moveAssign other).1 hi
    rw [htarget.2] at hfirst
    rw [← List.perm_append_left_iff other.target.toList]
    calc List.Perm _ (this.target.toList ++ (other.target.toList ++
          ((s.handles.set i (this.moveAssign other).1).set j
            (this.moveAssign other).2).filterMap MemberPtr.target)) := List.perm_append_comm_assoc _ _ _
      List.Perm _ (this.target.toList ++
          (s.handles.set i (this.moveAssign other).1).filterMap MemberPtr.target) := hsecond.append_left _
      List.Perm _ (other.target.toList ++ s.owners) := hfirst

theorem destroy_leaves (hi : s.handles[i]? = some this) : s.Leaves (.destroy i) none := by
  have hsplit := filterMap_eraseIdx_perm (f := MemberPtr.target) hi
  have hrest : ∀ p ∈ s.handles.eraseIdx i, p.Linked := fun p hp => linked p (List.eraseIdx_subset hp)
  unfold Leaves
  simp only [step, hi, Option.bind_some]
  cases hm : this.mpMember with
  | none =>
    refine ⟨⟨s.store, s.handles.eraseIdx i⟩, by simp [MemberPtr.destroy, hm], ?_, hrest⟩
    rw [MemberPtr.target, hm] at hsplit
    exact agrees.perm hsplit.symm
  | some m =>
    rw [MemberPtr.target, hm] at hsplit
    obtain ⟨store, hstore, hbalanced⟩ := count_decrease (agrees.perm hsplit.symm)
    have hcounter := linked this (List.mem_of_getElem? hi) m hm
    refine ⟨⟨store, s.handles.eraseIdx i⟩, ?_, hbalanced, hrest⟩
    simp [MemberPtr.destroy, hm, hcounter, hstore]

end Steps

theorem target_eq_none {p : MemberPtr} : p.target = none ↔ p.valid = false := by
  unfold MemberPtr.target MemberPtr.valid
  cases p.mpMember <;> simp

theorem nullTarget_iff (hi : s.handles[i]? = some this) :
    this.target = none ↔ ∀ p, s.handles[i]? = some p → p.valid = false := by
  rw [target_eq_none]
  constructor
  · intro h p hp
    rw [hi] at hp
    cases hp
    exact h
  · intro h
    exact h this hi

/-- Every operation on live handles is defined, and what it counts too much is what it overwrites. -/
theorem step_leaves (agrees : s.Agrees) (linked : s.Linked) {act : PtrAction} (live : s.Live act) :
    ∃ extra, s.Leaves act extra ∧ (extra = none ↔ s.NullTarget act) := by
  have handle : ∀ i, i < s.handles.length → ∃ p, s.handles[i]? = some p := by
    intro i hi
    exact ⟨_, List.getElem?_eq_getElem hi⟩
  cases act with
  | construct => exact ⟨none, construct_leaves agrees linked, iff_of_true rfl trivial⟩
  | copyConstruct j =>
    obtain ⟨other, hj⟩ := handle j live
    exact ⟨none, copyConstruct_leaves agrees linked hj, iff_of_true rfl trivial⟩
  | copyAssign i j =>
    obtain ⟨this, hi⟩ := handle i live.1
    obtain ⟨other, hj⟩ := handle j live.2
    exact ⟨this.target, copyAssign_leaves agrees linked hi hj, nullTarget_iff hi⟩
  | moveConstruct j =>
    obtain ⟨other, hj⟩ := handle j live
    exact ⟨none, moveConstruct_leaves agrees linked hj, iff_of_true rfl trivial⟩
  | moveAssign i j =>
    obtain ⟨this, hi⟩ := handle i live.1
    obtain ⟨other, hj⟩ := handle j live.2
    exact ⟨this.target, moveAssign_leaves agrees linked hi hj, nullTarget_iff hi⟩
  | destroy i =>
    obtain ⟨this, hi⟩ := handle i live
    exact ⟨none, destroy_leaves agrees linked hi, iff_of_true rfl trivial⟩

end PtrState

/-- From a state in which every counter is the number of its element's handles, a run of operations on
    live handles keeps it so in every state exactly when no assignment overwrites a valid handle. -/
theorem counters_agree_iff {s : PtrState} (agrees : s.Agrees) (linked : s.Linked) (acts : List PtrAction)
    (live : Along PtrState.step PtrState.Live s acts) :
    Holds PtrState.step PtrState.Agrees s acts ↔ Along PtrState.step PtrState.NullTarget s acts := by
  have hgood : ∀ (s : PtrState) (act : PtrAction), s.Agrees ∧ s.Linked → s.Live act → s.NullTarget act →
      ∃ t, s.step act = some t ∧ t.Agrees ∧ t.Linked := by
    intro s act hs hlive hnull
    obtain ⟨extra, ⟨t, ht, hbalanced, hlinked⟩, hextra⟩ := PtrState.step_leaves hs.1 hs.2 hlive
    obtain rfl := hextra.mpr hnull
    exact ⟨t, ht, hbalanced, hlinked⟩
  have hbad : ∀ (s : PtrState) (act : PtrAction) (t : PtrState), s.Agrees ∧ s.Linked → s.Live act → ¬ s.NullTarget act → s.step act = some t →
      ¬ t.Agrees := by
    intro s act t hs hlive hnull ht
    obtain ⟨extra, ⟨t', ht', hbalanced, _⟩, hextra⟩ := PtrState.step_leaves hs.1 hs.2 hlive
    rw [ht] at ht'
    cases ht'
    cases extra with
    | none => exact absurd (hextra.mp rfl) hnull
    | some r => exact hbalanced.not_of_cons
  exact holds_iff_along (fun _ hs => hs.1) hgood hbad acts s ⟨agrees, linked⟩ live

/-- One element and the handle its request returned. -/
def examplePtrs : PtrState :=
  ⟨(((DataStore.new "e" "r").emplaceNode (exampleResponse "a") 1).get rfl).1,
    [.make ⟨⟨false, 0⟩, false, "a"⟩]⟩

theorem examplePtrs_counted : examplePtrs.Agrees ∧ examplePtrs.Linked := by
  have hstored : (DataStore.new "e" "r").emplaceNode (exampleResponse "a") 1 =
      some (examplePtrs.store, ⟨⟨false, 0⟩, false, "a"⟩) := rfl
  obtain ⟨_, hheader, _⟩ := DataStore.emplaceNode_spec hstored (DataStore.wellFormed_new "e" "r")
  have hcount := DataStore.useCount_update (DataStore.counter_update hheader)
  have hnone : (DataStore.new "e" "r").useCount = fun _ => none := by
    funext r
    simp [DataStore.useCount, DataStore.counter]
  refine ⟨?_, fun p hp => ?_⟩
  · unfold PtrState.Agrees
    rw [hcount, hnone]
    exact balanced_nil.alloc rfl
  · rw [List.mem_singleton.mp hp]
    intro m hm
    cases hm
    rfl

/-- A copy into a new null handle, moved on to another. -/
theorem counters_agree_nullTargets : Holds PtrState.step PtrState.Agrees examplePtrs
    [.construct, .copyAssign 1 0, .construct, .moveAssign 2 1, .destroy 0] ↔
    Along PtrState.step PtrState.NullTarget examplePtrs
      [.construct, .copyAssign 1 0, .construct, .moveAssign 2 1, .destroy 0] :=
  counters_agree_iff examplePtrs_counted.1 examplePtrs_counted.2
    [.construct, .copyAssign 1 0, .construct, .moveAssign 2 1, .destroy 0]
    (.cons trivial rfl (.cons (by decide : 1 < 2 ∧ 0 < 2) rfl (.cons trivial rfl
      (.cons (by decide : 2 < 3 ∧ 1 < 3) rfl (.cons (by decide : 0 < 3) rfl trivial)))))

/-- A null handle assigned to the only handle of an element: its counter stays at 1. -/
theorem counters_disagree_overwrite : examplePtrs.Agrees ∧ examplePtrs.Linked ∧
    Along PtrState.step PtrState.Live examplePtrs [.construct, .copyAssign 0 1] ∧
    (∃ t, run PtrState.step examplePtrs [.construct, .copyAssign 0 1] = some t ∧
      t.store.useCount ⟨false, 0⟩ = some 1 ∧ t.owners = []) ∧
    ¬ Holds PtrState.step PtrState.Agrees examplePtrs [.construct, .copyAssign 0 1] := by
  refine ⟨examplePtrs_counted.1, examplePtrs_counted.2,
    .cons trivial rfl (.cons (by decide : 0 < 2 ∧ 1 < 2) rfl trivial), ⟨_, rfl, rfl, rfl⟩, fun h => ?_⟩
  have hagrees := ((h.cons rfl).cons rfl).here ⟨false, 0⟩
  exact absurd hagrees (by decide)

end StreamFdl
