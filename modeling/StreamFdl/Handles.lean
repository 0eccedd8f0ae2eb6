import StreamFdl.Base.Runs
import StreamFdl.Base.UseCount
import StreamFdl.DataStore
import StreamFdl.ListRuns

/- Handles of stored members. A run interleaves lookups, each a sequence of the
   steps other threads can come between (the search; the search request; the
   member request with its append, under one lock; the attribute request; the
   return of the handle), with copies, moves and destructions of the handles
   returned so far, and with the sweep of `DataStore::run`, whose test of a
   counter and whose erasure are two steps.

   A lookup that has to request its member makes an element whose counter
   already stands at 1 for the handle it returns. A lookup that finds its member
   stored returns a handle too, but nothing adds 1 for it: the constructor
   leaves that to the data store, which does not do it. So counters and handles
   agree along every run without such a lookup, and come apart at the first. -/
namespace StreamFdl
open Runs UseCount

/-- A lookup that has not returned yet. -/
inductive Lookup where
  /-- The search stopped at this member. -/
  | found (member : Member)
  /-- The search reached the end; the name has to be resolved by a search request. -/
  | search (isTopic : Bool) (name : String)
  /-- The member with this key has to be requested. -/
  | request (isTopic : Bool) (primary : PrimaryKey)
  /-- The member was appended; its attribute has to be requested. -/
  | stored (member : Member)
  | ready (member : Member)
  deriving DecidableEq, Repr

/-- Where a lookup goes on when its search reached the end. -/
def Query.missed : Query → Lookup
  | .getNode primary => .request false primary
  | .getNodeByName name => .search false name
  | .getTopic primary => .request true primary
  | .getTopicByName name => .search true name

/-- Where the sweep of `DataStore::run` stands. -/
inductive Sweep where
  | idle
  | test (isTopic : Bool) (it : Option Nat)
  | advance (it : Ref)
  | erase (it : Ref)
  deriving DecidableEq, Repr

structure HandleState where
  store : DataStore
  lookups : List Lookup
  handles : List MemberPtr
  sweep : Sweep

inductive HandleAction where
  | lookup (query : Query)
  | search (i : Nat) (primary : PrimaryKey)
  | requestNode (i : Nat) (response : NodeResponse) (requestId : RequestId)
  | requestTopic (i : Nat) (response : TopicResponse) (requestId : RequestId)
  | addAttributeSource (i : Nat) (attr : Attribute)
  | returns (i : Nat)
  | copy (i : Nat)
  | move (i : Nat)
  | destroy (i : Nat)
  | sweepBegin
  | sweepStep

namespace HandleState

/-- After the construction of the data store. -/
def new (parameterEventsKey rosoutKey : PrimaryKey) : HandleState :=
  ⟨.new parameterEventsKey rosoutKey, [], [], .idle⟩

/-- The member an appended lookup stands for goes on to its attribute. -/
def storeMember (s : HandleState) (i : Nat) (r : DataStore × Member) : HandleState :=
  { s with store := r.1, lookups := s.lookups.set i (.stored r.2) }

def returnHandle (s : HandleState) (i : Nat) (p : MemberPtr) : HandleState :=
  { s with lookups := s.lookups.eraseIdx i, handles := s.handles ++ [p] }

def sweepStep (s : HandleState) : Option HandleState :=
  match s.sweep with
  | .idle => none
  | .test false none => some { s with sweep := .test true (s.store.begin true) }
  | .test true none => some { s with sweep := .idle }
  | .test isTopic (some a) => (s.store.counter ⟨isTopic, a⟩).map fun c =>
    { s with sweep := if c.nonZero then .advance ⟨isTopic, a⟩ else .erase ⟨isTopic, a⟩ }
  | .advance r => (s.store.next r).map fun n => { s with sweep := .test r.isTopic n }
  | .erase r => (s.store.erase r).map fun p => { s with store := p.1, sweep := .test r.isTopic p.2 }

/-- A step; no result when the action is not the next one of its thread, or has none itself. -/
def step (s : HandleState) : HandleAction → Option HandleState
  | .lookup query => (s.store.find query).map fun
    | none => { s with lookups := s.lookups ++ [query.missed] }
    | some m => { s with lookups := s.lookups ++ [.found m] }
  | .search i primary =>
    match s.lookups[i]? with
    | some (.search isTopic _) =>
      if primary.isEmpty then some (s.returnHandle i .null)
      else some { s with lookups := s.lookups.set i (.request isTopic primary) }
    | _ => none
  | .requestNode i response requestId =>
    match s.lookups[i]? with
    | some (.request false _) => (s.store.emplaceNode response requestId).map (s.storeMember i)
    | _ => none
  | .requestTopic i response requestId =>
    match s.lookups[i]? with
    | some (.request true _) => (s.store.emplaceTopic response requestId).map (s.storeMember i)
    | _ => none
  | .addAttributeSource i attr =>
    match s.lookups[i]? with
    | some (.stored m) => (s.store.addAttributeSource m.ref attr).map fun store =>
      { s with store := store, lookups := s.lookups.set i (.ready m) }
    | _ => none
  | .returns i =>
    match s.lookups[i]? with
    | some (.found m) | some (.ready m) => some (s.returnHandle i (.make m))
    | _ => none
  | .copy i => s.handles[i]?.bind fun p =>
    (p.copyConstruct DataStore.access s.store).map fun r =>
      { s with store := r.2, handles := s.handles ++ [r.1] }
  | .move i => s.handles[i]?.map fun p =>
    { s with handles := s.handles.set i p.moveConstruct.2 ++ [p.moveConstruct.1] }
  | .destroy i => s.handles[i]?.bind fun p =>
    (p.destroy DataStore.access s.store).map fun store =>
      { s with store := store, handles := s.handles.eraseIdx i }
  | .sweepBegin =>
    if s.sweep = .idle then some { s with sweep := .test false (s.store.begin false) } else none
  | .sweepStep => s.sweepStep

end HandleState

/-- What a handle refers to. -/
def MemberPtr.target (p : MemberPtr) : Option Ref := p.mpMember.map Member.ref

/-- What a lookup on its way will hand out the element's first count of. -/
def Lookup.target : Lookup → Option Ref
  | .stored m | .ready m => some m.ref
  | _ => none

theorem Query.missed_target (q : Query) : q.missed.target = none := by cases q <;> rfl

theorem Query.missed_ne_found (q : Query) (m : Member) : q.missed ≠ .found m := by cases q <;> simp [missed]

namespace HandleState

def owners (s : HandleState) : List Ref :=
  s.handles.filterMap MemberPtr.target ++ s.lookups.filterMap Lookup.target

/-- Every counter stands at the number of handles of its element, those of lookups on their way
    included, and the sweep only erases elements without any. -/
structure Counted (s : HandleState) : Prop where
  wellFormed : s.store.WellFormed
  balanced : Balanced s.store.useCount s.owners
  linked : ∀ p ∈ s.handles, ∀ m, p.mpMember = some m → p.mpUseCounter = some m.ref
  missed : ∀ l ∈ s.lookups, ∀ m, l ≠ .found m
  erases : ∀ r, s.sweep = .erase r → s.store.counter r = some ⟨0⟩

theorem counted_new (k k' : PrimaryKey) : (new k k').Counted where
  wellFormed := DataStore.wellFormed_new k k'
  balanced := by
    have : (new k k').store.useCount = fun _ => none := by
      funext r
      simp [new, DataStore.useCount, DataStore.counter]
    rw [this]
    exact balanced_nil
  linked := by simp [new]
  missed := by simp [new]
  erases := by simp [new]

/-- The lookup does not find its member in the store. -/
def MissesStore (s : HandleState) : HandleAction → Prop
  | .lookup query => ∀ m, s.store.find query ≠ some (some m)
  | _ => True

variable {s t : HandleState} {i : Nat}

/-- The store, the lookups and the handles change, and the counters with them; the sweep does not.
    What it is about to erase is not the element whose counter changes. -/
theorem Counted.change (h : s.Counted) {store : DataStore} {lookups : List Lookup}
    {handles : List MemberPtr} (hw : store.WellFormed)
    (hb : Balanced store.useCount
      (handles.filterMap MemberPtr.target ++ lookups.filterMap Lookup.target))
    (hlinked : ∀ p ∈ handles, ∀ m, p.mpMember = some m → p.mpUseCounter = some m.ref)
    (hmissed : ∀ l ∈ lookups, ∀ m, l ≠ .found m)
    (hcount : ∀ q, s.store.counter q = some ⟨0⟩ → store.counter q = some ⟨0⟩) :
    Counted ⟨store, lookups, handles, s.sweep⟩ :=
  ⟨hw, hb, hlinked, hmissed, fun r hr => hcount r (h.erases r hr)⟩

/-- A counter that is not zero changes, and no other. -/
theorem zero_kept {store store' : DataStore} {r : Ref} {v : Option AtomicCounter}
    (hr : store.counter r ≠ some ⟨0⟩) (hs : store'.counter = Function.update store.counter r v)
    (q : Ref) (hq : store.counter q = some ⟨0⟩) : store'.counter q = some ⟨0⟩ := by
  have hne : q ≠ r := fun h => hr (h ▸ hq)
  rw [hs, Function.update_of_ne hne, hq]

theorem mem_set_ne_found {lookups : List Lookup} {l : Lookup} (h : ∀ l ∈ lookups, ∀ m, l ≠ .found m)
    (hl : ∀ m, l ≠ .found m) : ∀ l' ∈ lookups.set i l, ∀ m, l' ≠ .found m := fun l' hl' => by
  rcases List.mem_or_eq_of_mem_set hl' with h' | rfl
  · exact h l' h'
  · exact hl

theorem owners_append {handles : List MemberPtr} (p : MemberPtr) (rest : List Ref) :
    ((handles ++ [p]).filterMap MemberPtr.target ++ rest).Perm
    (p.target.toList ++ (handles.filterMap MemberPtr.target ++ rest)) := by
  have hone : [p].filterMap MemberPtr.target = p.target.toList := by
    cases hp : p.target <;> simp [hp]
  rw [List.filterMap_append, hone, List.append_assoc]
  exact List.perm_append_comm_assoc _ _ _

theorem owners_lookup {l : Lookup} (hi : s.lookups[i]? = some l) : s.owners.Perm
    (l.target.toList ++ (s.handles.filterMap MemberPtr.target ++
      (s.lookups.eraseIdx i).filterMap Lookup.target)) :=
  ((filterMap_eraseIdx_perm hi).append_left _).trans (List.perm_append_comm_assoc _ _ _)

theorem owners_setLookup {l : Lookup} (l' : Lookup) (hi : s.lookups[i]? = some l) :
    (s.handles.filterMap MemberPtr.target ++ (s.lookups.set i l').filterMap Lookup.target).Perm
    (l'.target.toList ++ (s.handles.filterMap MemberPtr.target ++
      (s.lookups.eraseIdx i).filterMap Lookup.target)) :=
  ((filterMap_set_perm l' hi).append_left _).trans (List.perm_append_comm_assoc _ _ _)

theorem owners_handle {p : MemberPtr} (hi : s.handles[i]? = some p) : s.owners.Perm
    (p.target.toList ++ ((s.handles.eraseIdx i).filterMap MemberPtr.target ++
      s.lookups.filterMap Lookup.target)) := by
  rw [← List.append_assoc]
  exact (filterMap_eraseIdx_perm hi).append_right _

/-- A lookup on its way moves on without changing what it holds. -/
theorem Counted.setLookup {l l' : Lookup} {store : DataStore} (h : s.Counted)
    (hi : s.lookups[i]? = some l) (hl : l'.target = l.target) (hf : ∀ m, l' ≠ .found m)
    (hw : store.WellFormed) (hc : store.counter = s.store.counter) :
    Counted { s with store := store, lookups := s.lookups.set i l' } := by
  have hb : store.useCount = s.store.useCount := by
    funext r
    rw [DataStore.useCount, hc, DataStore.useCount]
  refine h.change hw ?_ h.linked (mem_set_ne_found h.missed hf) (fun q hq => by rw [hc, hq])
  rw [hb]
  apply h.balanced.perm
  calc List.Perm _ (l'.target.toList ++ (s.handles.filterMap MemberPtr.target ++
        (s.lookups.eraseIdx i).filterMap Lookup.target)) := owners_setLookup l' hi
    List.Perm _ s.owners := by rw [hl]; exact (owners_lookup hi).symm

/-- A request appends its member: the lookup now holds the element's first count. -/
theorem Counted.storeMember {isTopic : Bool} {asked primary : PrimaryKey} {store : DataStore} {m : Member}
    (h : s.Counted) (hi : s.lookups[i]? = some (.request isTopic asked))
    (hnone : s.store.header m.ref = none)
    (hs : store.header = Function.update s.store.header m.ref (some ⟨primary, ⟨1⟩⟩))
    (hw : store.WellFormed) : (s.storeMember i (store, m)).Counted := by
  have hc : store.counter = Function.update s.store.counter m.ref (some ⟨1⟩) := DataStore.counter_update hs
  rw [← DataStore.counter_eq_none] at hnone
  refine h.change hw ?_ h.linked (mem_set_ne_found h.missed (by simp))
    (zero_kept (by rw [hnone]; simp) hc)
  rw [DataStore.useCount_update hc]
  apply Balanced.perm (h.balanced.alloc (by rw [DataStore.useCount, hnone]; rfl))
  calc List.Perm _ (m.ref :: (s.handles.filterMap MemberPtr.target ++
        (s.lookups.eraseIdx i).filterMap Lookup.target)) := owners_setLookup (.stored m) hi
    List.Perm _ (m.ref :: s.owners) := (owners_lookup hi).symm.cons m.ref

/-- A lookup returns a handle to what it held. -/
theorem Counted.returnHandle {l : Lookup} {p : MemberPtr} (h : s.Counted)
    (hi : s.lookups[i]? = some l) (hp : p.target = l.target)
    (hlink : ∀ m, p.mpMember = some m → p.mpUseCounter = some m.ref) : (s.returnHandle i p).Counted := by
  refine h.change h.wellFormed ?_ ?_ (fun l' hl' => h.missed l' (List.eraseIdx_subset hl')) (fun _ hq => hq)
  · apply h.balanced.perm
    calc List.Perm _ (p.target.toList ++ (s.handles.filterMap MemberPtr.target ++
          (s.lookups.eraseIdx i).filterMap Lookup.target)) := owners_append p _
      List.Perm _ s.owners := by rw [hp]; exact (owners_lookup hi).symm
  · intro q hq
    rcases List.mem_append.mp hq with hq | hq
    · exact h.linked q hq
    · rw [List.mem_singleton.mp hq]
      exact hlink

/-- Copying a handle counts the copy. -/
theorem Counted.copy {p : MemberPtr} {r : MemberPtr × DataStore} (h : s.Counted)
    (hi : s.handles[i]? = some p) (hr : p.copyConstruct DataStore.access s.store = some r) :
    Counted { s with store := r.2, handles := s.handles ++ [r.1] } := by
  have hmem := List.mem_of_getElem? hi
  obtain ⟨q, store⟩ := r
  have hall : ∀ q : MemberPtr, (∀ m, q.mpMember = some m → q.mpUseCounter = some m.ref) →
      ∀ p ∈ s.handles ++ [q], ∀ m, p.mpMember = some m → p.mpUseCounter = some m.ref := by
    intro q hq p hp
    rcases List.mem_append.mp hp with hp | hp
    · exact h.linked p hp
    · rw [List.mem_singleton.mp hp]; exact hq
  cases hm : p.mpMember with
  | none =>
    simp only [MemberPtr.copyConstruct, hm, Option.some.injEq, Prod.mk.injEq] at hr
    obtain ⟨rfl, rfl⟩ := hr
    refine h.change h.wellFormed ?_ (hall _ (by simp [MemberPtr.null])) h.missed (fun _ hq => hq)
    exact h.balanced.perm (owners_append .null _)
  | some m =>
    simp only [MemberPtr.copyConstruct, hm, h.linked p hmem m hm, Option.bind_eq_bind, Option.bind_some,
      Option.pure_def, Option.bind_eq_some_iff, Option.some.injEq, Prod.mk.injEq] at hr
    obtain ⟨store', ha, rfl, rfl⟩ := hr
    obtain ⟨⟨c, hc, hcounter⟩, hw⟩ := DataStore.access_spec ha
    have hown : m.ref ∈ s.owners := by
      rw [(owners_handle hi).mem_iff]
      simp [MemberPtr.target, hm]
    -- the counter is not 0, so the sweep has not marked the element for erasure
    obtain ⟨n, hn⟩ := h.balanced.alive hown
    have hcn : c.mValue = n + 1 := by simpa [DataStore.useCount, hc] using hn
    refine h.change (hw h.wellFormed) ?_ (hall _ (by simp)) h.missed
      (zero_kept (by rw [hc]; intro h0; cases h0; simp at hcn) hcounter)
    rw [DataStore.useCount_update hcounter]
    have hb := h.balanced.dup hn
    rw [Option.map_some, AtomicCounter.increase_mValue, hcn]
    exact hb.perm (owners_append _ _)

/-- Moving from a handle leaves the count with the new one. -/
theorem Counted.move {p : MemberPtr} (h : s.Counted) (hi : s.handles[i]? = some p) :
    Counted { s with handles := s.handles.set i p.moveConstruct.2 ++ [p.moveConstruct.1] } := by
  have hmem := List.mem_of_getElem? hi
  have htarget : p.moveConstruct.2.target = none ∧ p.moveConstruct.1.target = p.target := by
    cases hm : p.mpMember <;> simp [MemberPtr.moveConstruct, hm, MemberPtr.target, MemberPtr.null]
  have hlink : (∀ m, p.moveConstruct.2.mpMember = some m → p.moveConstruct.2.mpUseCounter = some m.ref) ∧
      ∀ m, p.moveConstruct.1.mpMember = some m → p.moveConstruct.1.mpUseCounter = some m.ref := by
    cases hm : p.mpMember with
    | none => simp [MemberPtr.moveConstruct, hm, MemberPtr.null]
    | some m => simp [MemberPtr.moveConstruct, hm, h.linked p hmem m hm]
  refine h.change h.wellFormed ?_ ?_ h.missed (fun _ hq => hq)
  · have hset := filterMap_set_perm (f := MemberPtr.target) p.moveConstruct.2 hi
    rw [htarget.1] at hset
    apply h.balanced.perm
    calc List.Perm _ (p.target.toList ++ ((s.handles.set i p.moveConstruct.2).filterMap MemberPtr.target ++
          s.lookups.filterMap Lookup.target)) := htarget.2 ▸ owners_append p.moveConstruct.1 _
      List.Perm _ (p.target.toList ++ ((s.handles.eraseIdx i).filterMap MemberPtr.target ++
          s.lookups.filterMap Lookup.target)) := (hset.append_right _).append_left _
      List.Perm _ s.owners := (owners_handle hi).symm
  · intro q hq
    rcases List.mem_append.mp hq with hq | hq
    · rcases List.mem_or_eq_of_mem_set hq with hq | rfl
      · exact h.linked q hq
      · exact hlink.1
    · rw [List.mem_singleton.mp hq]; exact hlink.2

/-- Destroying a handle gives its count back. -/
theorem Counted.destroy {p : MemberPtr} {store : DataStore} (h : s.Counted)
    (hi : s.handles[i]? = some p) (hr : p.destroy DataStore.access s.store = some store) :
    Counted { s with store := store, handles := s.handles.eraseIdx i } := by
  have hmem := List.mem_of_getElem? hi
  have hlinked : ∀ p ∈ s.handles.eraseIdx i, ∀ m, p.mpMember = some m → p.mpUseCounter = some m.ref :=
    fun q hq => h.linked q (List.eraseIdx_subset hq)
  have hsplit := owners_handle hi
  cases hm : p.mpMember with
  | none =>
    simp only [MemberPtr.destroy, hm, Option.some.injEq] at hr
    subst hr
    refine h.change h.wellFormed ?_ hlinked h.missed (fun _ hq => hq)
    refine h.balanced.perm (List.Perm.symm ?_)
    simpa [MemberPtr.target, hm] using hsplit
  | some m =>
    simp only [MemberPtr.destroy, hm, h.linked p hmem m hm, Option.bind_eq_bind, Option.bind_some] at hr
    obtain ⟨⟨c, hc, hcounter⟩, hw⟩ := DataStore.access_spec hr
    simp only [MemberPtr.target, hm, Option.map_some, Option.toList_some, List.singleton_append] at hsplit
    obtain ⟨n, hn⟩ := h.balanced.alive (hsplit.mem_iff.mpr (List.mem_cons_self))
    have hcn : c.mValue = n + 1 := by simpa [DataStore.useCount, hc] using hn
    refine h.change (hw h.wellFormed) ?_ hlinked h.missed
      (zero_kept (by rw [hc]; intro h0; cases h0; simp at hcn) hcounter)
    rw [DataStore.useCount_update hcounter, Option.map_some, AtomicCounter.decrease_mValue, hcn]
    exact (h.balanced.perm hsplit.symm).drop hn

/-- The sweep erases an element only when nothing refers to it. -/
theorem Counted.sweepStep (h : s.Counted) (hs : s.sweepStep = some t) : t.Counted := by
  have hpc : ∀ pc, (∀ r, pc = .erase r → s.store.counter r = some ⟨0⟩) →
      Counted { s with sweep := pc } := fun pc hpc =>
    ⟨h.wellFormed, h.balanced, h.linked, h.missed, hpc⟩
  unfold HandleState.sweepStep at hs
  split at hs
  · cases hs
  · cases hs; exact hpc _ (by simp)
  · cases hs; exact hpc _ (by simp)
  · next isTopic a _ =>
    obtain ⟨c, hc, rfl⟩ := Option.map_eq_some_iff.mp hs
    refine hpc _ (fun r hr => ?_)
    cases hz : c.nonZero with
    | true => simp [hz] at hr
    | false =>
      simp only [hz, Bool.false_eq_true, if_false, Sweep.erase.injEq] at hr
      subst hr
      have : c.mValue = 0 := by simpa [AtomicCounter.nonZero] using hz
      rw [hc, ← this]
  · obtain ⟨n, _, rfl⟩ := Option.map_eq_some_iff.mp hs
    exact hpc _ (by simp)
  · next r hr =>
    obtain ⟨⟨store, n⟩, he, rfl⟩ := Option.map_eq_some_iff.mp hs
    obtain ⟨hheader, hw⟩ := DataStore.erase_spec he
    refine ⟨hw h.wellFormed, ?_, h.linked, h.missed, by simp⟩
    have hzero : s.store.useCount r = some 0 := by rw [DataStore.useCount, h.erases r hr]; rfl
    show Balanced store.useCount s.owners
    rw [DataStore.useCount_update (DataStore.counter_update hheader)]
    exact h.balanced.free hzero

/-- Every step keeps the counts, if no lookup finds its member stored. -/
theorem step_counted (s : HandleState) (a : HandleAction) (t : HandleState) (h : s.Counted)
    (hc : MissesStore s a) (hs : s.step a = some t) : t.Counted := by
  cases a with
  | lookup query =>
    obtain ⟨found, hf, rfl⟩ := Option.map_eq_some_iff.mp hs
    cases found with
    -- here a handle would be made that nothing counts
    | some m => exact absurd hf (hc m)
    | none =>
      refine h.change h.wellFormed ?_ h.linked ?_ (fun _ hq => hq)
      · simpa [Query.missed_target, owners] using h.balanced
      · intro l hl
        rcases List.mem_append.mp hl with hl | hl
        · exact h.missed l hl
        · rw [List.mem_singleton.mp hl]
          exact query.missed_ne_found
  | search i primary =>
    simp only [step] at hs
    split at hs
    · next isTopic name hi =>
      split at hs
      · cases hs
        exact h.returnHandle hi rfl (by simp [MemberPtr.null])
      · cases hs
        exact h.setLookup hi rfl (by simp) h.wellFormed rfl
    · cases hs
  | requestNode i response requestId =>
    simp only [step] at hs
    split at hs
    · next primary hi =>
      obtain ⟨⟨store, m⟩, he, rfl⟩ := Option.map_eq_some_iff.mp hs
      obtain ⟨hnone, hheader, _, hw⟩ := DataStore.emplaceNode_spec he h.wellFormed
      exact h.storeMember hi hnone hheader hw
    · cases hs
  | requestTopic i response requestId =>
    simp only [step] at hs
    split at hs
    · next primary hi =>
      obtain ⟨⟨store, m⟩, he, rfl⟩ := Option.map_eq_some_iff.mp hs
      obtain ⟨hnone, hheader, _, hw⟩ := DataStore.emplaceTopic_spec he h.wellFormed
      exact h.storeMember hi hnone hheader hw
    · cases hs
  | addAttributeSource i attr =>
    simp only [step] at hs
    split at hs
    · next m hi =>
      obtain ⟨store, he, rfl⟩ := Option.map_eq_some_iff.mp hs
      obtain ⟨hheader, hw⟩ := DataStore.addAttributeSource_spec he
      exact h.setLookup hi rfl (by simp) (hw h.wellFormed) (by
        funext r
        rw [DataStore.counter, hheader, DataStore.counter])
    · cases hs
  | returns i =>
    simp only [step] at hs
    split at hs
    · next m hi => exact absurd rfl (h.missed _ (List.mem_of_getElem? hi) m)
    · next m hi =>
      cases hs
      exact h.returnHandle hi rfl (by simp [MemberPtr.make])
    · cases hs
  | copy i =>
    obtain ⟨p, hi, hs⟩ := Option.bind_eq_some_iff.mp hs
    obtain ⟨r, hr, rfl⟩ := Option.map_eq_some_iff.mp hs
    exact h.copy hi hr
  | move i =>
    obtain ⟨p, hi, rfl⟩ := Option.map_eq_some_iff.mp hs
    exact h.move hi
  | destroy i =>
    obtain ⟨p, hi, hs⟩ := Option.bind_eq_some_iff.mp hs
    obtain ⟨store, hr, rfl⟩ := Option.map_eq_some_iff.mp hs
    exact h.destroy hi hr
  | sweepBegin =>
    simp only [step] at hs
    split at hs
    · cases hs
      exact ⟨h.wellFormed, h.balanced, h.linked, h.missed, by simp⟩
    · cases hs
  | sweepStep => exact h.sweepStep hs

/-- Every live valid handle refers to an element that is still in the store. -/
def HandlesStored (s : HandleState) : Prop :=
  ∀ p ∈ s.handles, ∀ m, p.mpMember = some m → s.store.stores m.ref = true

theorem Counted.handlesStored (h : s.Counted) : s.HandlesStored := by
  intro p hp m hm
  have hown : m.ref ∈ s.owners := List.mem_append_left _
    (List.mem_filterMap.mpr ⟨p, hp, by simp [MemberPtr.target, hm]⟩)
  obtain ⟨n, hn⟩ := h.balanced.alive hown
  rw [DataStore.stores_iff]
  intro hnone
  simp [DataStore.useCount, DataStore.counter_eq_none.mpr hnone] at hn

end HandleState

/-- In every run in which no lookup finds its member already stored, every live valid handle
    refers to a stored element, in every state reached. -/
theorem handles_stored_of_missesStore (k k' : PrimaryKey) (acts : List HandleAction) (t : HandleState)
    (along : Along HandleState.step HandleState.MissesStore (.new k k') acts)
    (reached : run HandleState.step (.new k k') acts = some t) : t.HandlesStored :=
  (run_invariant HandleState.step_counted acts _ t (HandleState.counted_new k k') along
    reached).handlesStored

def exampleResponse (primary : PrimaryKey) : NodeResponse := ⟨primary, primary, "", .ACTIVE, 0, 0, 0⟩

/-- A node is looked up and requested. -/
def requestOne : List HandleAction :=
  [.lookup (.getNode "a"), .requestNode 0 (exampleResponse "a") 1,
    .addAttributeSource 0 ⟨"0", 2, 0⟩, .returns 0]

/-- The handle is copied and the original destroyed, then the sweep tests the counter. -/
def copyDestroySweep : List HandleAction :=
  requestOne ++ [.copy 0, .destroy 0, .sweepBegin, .sweepStep]

theorem handles_stored_copyDestroySweep : ∃ t,
    run HandleState.step (.new "p" "r") copyDestroySweep = some t ∧ t.HandlesStored :=
  ⟨_, rfl, handles_stored_of_missesStore "p" "r" copyDestroySweep _
    (.cons (fun m h => absurd (show some none = some (some m) from h) (by simp)) rfl
      (.cons trivial rfl (.cons trivial rfl (.cons trivial rfl (.cons trivial rfl (.cons trivial rfl
        (.cons trivial rfl (.cons trivial rfl trivial)))))))) rfl⟩

/-- Looking the same node up again returns a second handle to a counter of 1. -/
def lookupTwiceDestroySweep : List HandleAction :=
  requestOne ++ [.lookup (.getNode "a"), .returns 0, .destroy 0, .sweepBegin, .sweepStep, .sweepStep]

theorem handles_not_stored_lookupTwice : ∃ t,
    run HandleState.step (.new "p" "r") lookupTwiceDestroySweep = some t ∧ ¬ t.HandlesStored := by
  refine ⟨_, rfl, fun h => ?_⟩
  have hstored := h (.make ⟨⟨false, 0⟩, false, "a"⟩) (by decide) _ rfl
  exact absurd hstored (by decide)

end StreamFdl
