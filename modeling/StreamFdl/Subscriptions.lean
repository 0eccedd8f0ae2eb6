import StreamFdl.Base.Leases
import StreamFdl.Handles
import StreamFdl.Neighbours

/- The subscriptions that the server keeps for the data store. A request for a
   member opens one (its updates), and so does the request for its CPU utilisation
   that follows; the server closes a subscription when it receives an unsubscribe
   request with its id. The data store keeps the first id in the list element and
   the second in the attribute, and the sweep of `DataStore::run` unsubscribes the
   first one only. So the elements hold what is open exactly as long as no element
   is erased whose attribute was requested. -/
namespace StreamFdl
open Runs UseCount Leases

/-! The ids an element keeps. -/

namespace DoubleLinkedList

variable {T : Type} {l l' : DoubleLinkedList T} {a : Nat}

def idsOf (attributes : T → List Attribute) (d : Data T) : List RequestId :=
  d.requestId :: (attributes d.inst).map Attribute.requestId

def ids (attributes : T → List Attribute) (l : DoubleLinkedList T) (it : Nat) : Option (List RequestId) :=
  (l.data it).map (idsOf attributes)

variable {attributes : T → List Attribute}

theorem ids_update {v : Option (Data T)} (h : l'.data = Function.update l.data a v) :
    l'.ids attributes = Function.update (l.ids attributes) a (v.map (idsOf attributes)) := by
  show Option.map (idsOf attributes) ∘ l'.data = _
  rw [h, Function.comp_update]
  rfl

theorem ids_modify (attributes : T → List Attribute) {f : Data T → Data T} (h : l.modify a f = some l') : ∃ d, l.data a = some d ∧
    l'.ids attributes = Function.update (l.ids attributes) a (some (idsOf attributes (f d))) := by
  obtain ⟨⟨d, hd, hdata⟩, _⟩ := modify_spec h
  exact ⟨d, hd, ids_update hdata⟩

end DoubleLinkedList

namespace DataStore

/-- The ids of the subscriptions that the element keeps: its own, and those of its attributes. -/
def subscriptions (s : DataStore) (r : Ref) : Option (List RequestId) :=
  if r.isTopic then s.mTopics.ids Topic.mmAttributes r.addr else s.mNodes.ids Node.mmAttributes r.addr

/-- The id the sweep sends for an element. -/
def requestId (s : DataStore) (r : Ref) : Option RequestId :=
  if r.isTopic then (s.mTopics.data r.addr).map Data.requestId else (s.mNodes.data r.addr).map Data.requestId

variable {s s' : DataStore} {r : Ref}

theorem subscriptions_setNodes {l : DoubleLinkedList Node} {a : Nat} {v : Option (List RequestId)}
    (h : l.ids Node.mmAttributes = Function.update (s.mNodes.ids Node.mmAttributes) a v) :
    subscriptions { s with mNodes := l } = Function.update s.subscriptions ⟨false, a⟩ v := by
  funext r
  obtain ⟨isTopic, b⟩ := r
  cases isTopic with
  | true => simp [subscriptions]
  | false =>
    by_cases hb : b = a
    · subst hb; simp [subscriptions, h]
    · simp [subscriptions, h, hb]

theorem subscriptions_setTopics {l : DoubleLinkedList Topic} {a : Nat} {v : Option (List RequestId)}
    (h : l.ids Topic.mmAttributes = Function.update (s.mTopics.ids Topic.mmAttributes) a v) :
    subscriptions { s with mTopics := l } = Function.update s.subscriptions ⟨true, a⟩ v := by
  funext r
  obtain ⟨isTopic, b⟩ := r
  cases isTopic with
  | false => simp [subscriptions]
  | true =>
    by_cases hb : b = a
    · subst hb; simp [subscriptions, h]
    · simp [subscriptions, h, hb]

theorem subscriptions_eq_none : s.subscriptions r = none ↔ s.header r = none := by
  obtain ⟨isTopic, a⟩ := r
  cases isTopic with
  | false => simp [subscriptions, header, DoubleLinkedList.ids, DoubleLinkedList.header]
  | true => simp [subscriptions, header, DoubleLinkedList.ids, DoubleLinkedList.header]

/-- The first id is the one the sweep sends. -/
theorem subscriptions_cons {ids : List RequestId} (h : s.subscriptions r = some ids) :
    ∃ id rest, ids = id :: rest ∧ s.requestId r = some id := by
  obtain ⟨isTopic, a⟩ := r
  cases isTopic with
  | false =>
    obtain ⟨d, hd, rfl⟩ := Option.map_eq_some_iff.mp h
    exact ⟨_, _, rfl, Option.map_eq_some_iff.mpr ⟨d, hd, rfl⟩⟩
  | true =>
    obtain ⟨d, hd, rfl⟩ := Option.map_eq_some_iff.mp h
    exact ⟨_, _, rfl, Option.map_eq_some_iff.mpr ⟨d, hd, rfl⟩⟩

/-! What the operations do to them. -/

theorem emplaceNode_subscriptions {response : NodeResponse} {requestId : RequestId} {m : Member}
    (h : s.emplaceNode response requestId = some (s', m)) :
    s'.subscriptions = Function.update s.subscriptions m.ref (some [requestId]) ∧
      m.ref.addr = s.fresh m.ref.isTopic ∧ m.ref.addr < s'.fresh m.ref.isTopic := by
  simp only [emplaceNode, Option.bind_eq_bind, Option.bind_eq_some_iff, Option.pure_def,
    Option.some.injEq, Prod.mk.injEq] at h
  obtain ⟨⟨l, a⟩, hl, rfl, rfl⟩ := h
  obtain ⟨ha, hfresh, _, hdata, _⟩ := DoubleLinkedList.emplaceBack_spec hl
  refine ⟨subscriptions_setNodes (DoubleLinkedList.ids_update hdata), ha, ?_⟩
  show a < l.fresh
  omega

theorem emplaceTopic_subscriptions {response : TopicResponse} {requestId : RequestId} {m : Member}
    (h : s.emplaceTopic response requestId = some (s', m)) :
    s'.subscriptions = Function.update s.subscriptions m.ref (some [requestId]) ∧
      m.ref.addr = s.fresh m.ref.isTopic ∧ m.ref.addr < s'.fresh m.ref.isTopic := by
  simp only [emplaceTopic, Option.bind_eq_bind, Option.bind_eq_some_iff, Option.pure_def,
    Option.some.injEq, Prod.mk.injEq] at h
  obtain ⟨⟨l, a⟩, hl, rfl, rfl⟩ := h
  obtain ⟨ha, hfresh, _, hdata, _⟩ := DoubleLinkedList.emplaceBack_spec hl
  refine ⟨subscriptions_setTopics (DoubleLinkedList.ids_update hdata), ha, ?_⟩
  show a < l.fresh
  omega

/-- The attribute's id comes last. -/
theorem addAttributeSource_subscriptions {attr : Attribute} (h : s.addAttributeSource r attr = some s') :
    ∃ ids, s.subscriptions r = some ids ∧
      s'.subscriptions = Function.update s.subscriptions r (some (ids ++ [attr.requestId])) := by
  obtain ⟨isTopic, a⟩ := r
  cases isTopic with
  | false =>
    obtain ⟨l, hl, rfl⟩ := Option.map_eq_some_iff.mp h
    obtain ⟨d, hd, hids⟩ := DoubleLinkedList.ids_modify Node.mmAttributes hl
    refine ⟨DoubleLinkedList.idsOf Node.mmAttributes d, Option.map_eq_some_iff.mpr ⟨d, hd, rfl⟩, ?_⟩
    rw [subscriptions_setNodes hids]
    simp [DoubleLinkedList.idsOf, Stored.addAttribute]
  | true =>
    obtain ⟨l, hl, rfl⟩ := Option.map_eq_some_iff.mp h
    obtain ⟨d, hd, hids⟩ := DoubleLinkedList.ids_modify Topic.mmAttributes hl
    refine ⟨DoubleLinkedList.idsOf Topic.mmAttributes d, Option.map_eq_some_iff.mpr ⟨d, hd, rfl⟩, ?_⟩
    rw [subscriptions_setTopics hids]
    simp [DoubleLinkedList.idsOf, Stored.addAttribute]

theorem access_subscriptions {f : AtomicCounter → AtomicCounter} (h : s.access r f = some s') :
    s'.subscriptions = s.subscriptions := by
  obtain ⟨isTopic, a⟩ := r
  cases isTopic with
  | false =>
    obtain ⟨l, hl, rfl⟩ := Option.map_eq_some_iff.mp h
    obtain ⟨d, hd, hids⟩ := DoubleLinkedList.ids_modify Node.mmAttributes hl
    have hself : s.subscriptions ⟨false, a⟩ = some (DoubleLinkedList.idsOf Node.mmAttributes d) :=
      Option.map_eq_some_iff.mpr ⟨d, hd, rfl⟩
    rw [subscriptions_setNodes hids, Function.update_eq_self_iff]
    exact hself.symm
  | true =>
    obtain ⟨l, hl, rfl⟩ := Option.map_eq_some_iff.mp h
    obtain ⟨d, hd, hids⟩ := DoubleLinkedList.ids_modify Topic.mmAttributes hl
    have hself : s.subscriptions ⟨true, a⟩ = some (DoubleLinkedList.idsOf Topic.mmAttributes d) :=
      Option.map_eq_some_iff.mpr ⟨d, hd, rfl⟩
    rw [subscriptions_setTopics hids, Function.update_eq_self_iff]
    exact hself.symm

theorem erase_subscriptions {n : Option Nat} (h : s.erase r = some (s', n)) :
    (∃ ids, s.subscriptions r = some ids) ∧ s'.subscriptions = Function.update s.subscriptions r none := by
  obtain ⟨isTopic, a⟩ := r
  cases isTopic with
  | false =>
    obtain ⟨⟨l, n'⟩, hl, hs⟩ := Option.map_eq_some_iff.mp h
    cases hs
    obtain ⟨⟨c, hc, _⟩, _, hdata, _⟩ := DoubleLinkedList.erase_spec hl
    refine ⟨?_, subscriptions_setNodes (DoubleLinkedList.ids_update hdata)⟩
    obtain ⟨x, hx, _⟩ := Option.map_eq_some_iff.mp hc
    exact ⟨_, Option.map_eq_some_iff.mpr ⟨x.mData, Option.map_eq_some_iff.mpr ⟨x, hx, rfl⟩, rfl⟩⟩
  | true =>
    obtain ⟨⟨l, n'⟩, hl, hs⟩ := Option.map_eq_some_iff.mp h
    cases hs
    obtain ⟨⟨c, hc, _⟩, _, hdata, _⟩ := DoubleLinkedList.erase_spec hl
    refine ⟨?_, subscriptions_setTopics (DoubleLinkedList.ids_update hdata)⟩
    obtain ⟨x, hx, _⟩ := Option.map_eq_some_iff.mp hc
    exact ⟨_, Option.map_eq_some_iff.mpr ⟨x.mData, Option.map_eq_some_iff.mpr ⟨x, hx, rfl⟩, rfl⟩⟩

end DataStore

/-! Runs. -/

/-- The store with its handles, lookups and sweep, and the logs of the server. -/
structure SubscriptionState where
  handles : HandleState
  opened : List RequestId
  closed : List RequestId

/-- The subscriptions an action asks the server for. -/
def HandleAction.opens : HandleAction → List RequestId
  | .requestNode _ _ requestId | .requestTopic _ _ requestId => [requestId]
  | .addAttributeSource _ attr => [attr.requestId]
  | _ => []

/-- The ids an action unsubscribes: the sweep's `UnsubscribeRequest` comes with the erasure. -/
def HandleState.closes (s : HandleState) : HandleAction → List RequestId
  | .sweepStep =>
    match s.sweep with
    | .erase it => (s.store.requestId it).toList
    | _ => []
  | _ => []

/-- What a lookup has appended and not requested the attribute of. -/
def Lookup.pending : Lookup → Option Ref
  | .stored m => some m.ref
  | _ => none

namespace SubscriptionState

def new (parameterEventsKey rosoutKey : PrimaryKey) : SubscriptionState :=
  ⟨.new parameterEventsKey rosoutKey, [], []⟩

def step (s : SubscriptionState) (act : HandleAction) : Option SubscriptionState :=
  (s.handles.step act).map fun handles => ⟨handles, s.opened ++ act.opens, s.closed ++ s.handles.closes act⟩

/-- Request ids are not used twice. -/
def Fresh (s : SubscriptionState) (act : HandleAction) : Prop := ∀ id ∈ act.opens, id ∉ s.opened

def subscriptions (s : SubscriptionState) : Ref → Option (List RequestId) := s.handles.store.subscriptions

def pending (s : SubscriptionState) : List Ref := s.handles.lookups.filterMap Lookup.pending

/-- Exactly the subscriptions of the stored elements are open, two for an element whose lookup has
    gone through, and each that is not was closed once. -/
structure NoLeak (s : SubscriptionState) : Prop where
  exact : ∀ id, (id ∈ s.opened ∧ id ∉ s.closed) ↔ ∃ r ids, s.subscriptions r = some ids ∧ id ∈ ids
  two : ∀ r ids, s.subscriptions r = some ids → r ∉ s.pending → ids.length = 2 ∧ ids.Nodup
  once : s.closed.Nodup ∧ ∀ id ∈ s.closed, id ∈ s.opened

/-- The action erases no element whose attribute was requested. -/
def ErasesBare (s : SubscriptionState) (act : HandleAction) : Prop :=
  act = .sweepStep → ∀ r ids, s.handles.sweep = .erase r → s.subscriptions r = some ids → ids.length = 1

/-- What a run keeps. -/
structure Accounted (s : SubscriptionState) : Prop where
  wellFormed : s.handles.store.WellFormed
  settled : Settled s.subscriptions s.opened s.closed
  pendingOnce : s.pending.Nodup
  pendingOne : ∀ r ∈ s.pending, ∀ ids, s.subscriptions r = some ids → ids.length = 1
  doneTwo : ∀ r ids, s.subscriptions r = some ids → r ∉ s.pending → ids.length = 2
  below : ∀ r ∈ s.pending, r.addr < s.handles.store.fresh r.isTopic

theorem Accounted.noLeak {s : SubscriptionState} (h : s.Accounted) : s.NoLeak :=
  ⟨h.settled.owns, fun r ids hr hp => ⟨h.doneTwo r ids hr hp, h.settled.ownedOnce r ids hr⟩,
    h.settled.closedOnce, h.settled.closedOpened⟩

theorem accounted_new (k k' : PrimaryKey) : (new k k').Accounted := by
  have hnone : (new k k').subscriptions = fun _ => none := by
    funext r
    show (DataStore.new k k').subscriptions r = none
    rw [DataStore.subscriptions_eq_none, DataStore.header_new]
  refine ⟨DataStore.wellFormed_new k k', ?_, List.nodup_nil, fun r hr => (by cases hr), fun r ids hr => ?_,
    fun r hr => (by cases hr)⟩
  · rw [hnone]
    exact settled_nil
  · rw [hnone] at hr
    cases hr

/-- A step of the sweep moves its iterator, or erases an element. -/
theorem sweepStep_cases {h h' : HandleState} (hs : h.sweepStep = some h') :
    (∃ sweep, h' = { h with sweep := sweep } ∧ h.closes .sweepStep = []) ∨
    ∃ r store next, h.sweep = .erase r ∧ h.store.erase r = some (store, next) ∧
      h' = { h with store := store, sweep := .test r.isTopic next } ∧
      h.closes .sweepStep = (h.store.requestId r).toList := by
  unfold HandleState.sweepStep at hs
  unfold HandleState.closes
  split at hs
  · cases hs
  · next hsweep =>
    cases hs
    exact Or.inl ⟨_, rfl, by rw [hsweep]⟩
  · next hsweep =>
    cases hs
    exact Or.inl ⟨_, rfl, by rw [hsweep]⟩
  · next hsweep =>
    obtain ⟨c, _, rfl⟩ := Option.map_eq_some_iff.mp hs
    exact Or.inl ⟨_, rfl, by rw [hsweep]⟩
  · next hsweep =>
    obtain ⟨n, _, rfl⟩ := Option.map_eq_some_iff.mp hs
    exact Or.inl ⟨_, rfl, by rw [hsweep]⟩
  · next r hsweep =>
    obtain ⟨⟨store, n⟩, he, rfl⟩ := Option.map_eq_some_iff.mp hs
    exact Or.inr ⟨r, store, n, hsweep, he, rfl, by rw [hsweep]⟩

/-- Copying and destroying a handle uses a counter and nothing else of the store. -/
theorem copyConstruct_frame {p : MemberPtr} {q : MemberPtr} {store store' : DataStore}
    (h : p.copyConstruct DataStore.access store = some (q, store')) (hw : store.WellFormed) :
    store'.WellFormed ∧ store'.subscriptions = store.subscriptions ∧
      ∀ isTopic, store.fresh isTopic ≤ store'.fresh isTopic := by
  unfold MemberPtr.copyConstruct at h
  split at h
  · cases h
    exact ⟨hw, rfl, fun _ => Nat.le_refl _⟩
  · simp only [Option.bind_eq_bind, Option.bind_eq_some_iff, Option.pure_def, Option.some.injEq,
      Prod.mk.injEq] at h
    obtain ⟨counter, _, store₁, ha, _, rfl⟩ := h
    exact ⟨(DataStore.access_spec ha).2 hw, DataStore.access_subscriptions ha, (DataStore.access_evolves ha).fresh⟩

theorem destroy_frame {p : MemberPtr} {store store' : DataStore}
    (h : p.destroy DataStore.access store = some store') (hw : store.WellFormed) :
    store'.WellFormed ∧ store'.subscriptions = store.subscriptions ∧
      ∀ isTopic, store.fresh isTopic ≤ store'.fresh isTopic := by
  unfold MemberPtr.destroy at h
  split at h
  · cases h
    exact ⟨hw, rfl, fun _ => Nat.le_refl _⟩
  · obtain ⟨counter, _, ha⟩ := Option.bind_eq_some_iff.mp h
    exact ⟨(DataStore.access_spec ha).2 hw, DataStore.access_subscriptions ha, (DataStore.access_evolves ha).fresh⟩

section Steps
variable {s : SubscriptionState} {t : HandleState} {i : Nat} {l l' : Lookup}

theorem pending_set (l' : Lookup) (hi : s.handles.lookups[i]? = some l) :
    (l.pending.toList ++ (s.handles.lookups.set i l').filterMap Lookup.pending).Perm
      (l'.pending.toList ++ s.pending) := filterMap_set_swap l' hi

theorem pending_eraseIdx (hi : s.handles.lookups[i]? = some l) :
    s.pending.Perm (l.pending.toList ++ (s.handles.lookups.eraseIdx i).filterMap Lookup.pending) :=
  filterMap_eraseIdx_perm hi

theorem pending_append (hl : l.pending = none) :
    ((s.handles.lookups ++ [l]).filterMap Lookup.pending).Perm s.pending := by
  rw [List.filterMap_append, List.filterMap_cons_none hl]
  exact .of_eq (List.append_nil _)

/-- A step that neither requests nor erases. -/
theorem Accounted.quiet (h : s.Accounted) (hw : t.store.WellFormed) (hsub : t.store.subscriptions = s.subscriptions)
    (hpending : (t.lookups.filterMap Lookup.pending).Perm s.pending)
    (hfresh : ∀ isTopic, s.handles.store.fresh isTopic ≤ t.store.fresh isTopic) :
    Accounted ⟨t, s.opened, s.closed⟩ := by
  have hmem : ∀ r, r ∈ t.lookups.filterMap Lookup.pending ↔ r ∈ s.pending := fun r => hpending.mem_iff
  have hsub' : ∀ r, SubscriptionState.subscriptions ⟨t, s.opened, s.closed⟩ r = s.subscriptions r :=
    fun r => congrFun hsub r
  refine ⟨hw, ?_, hpending.nodup_iff.mpr h.pendingOnce, fun r hr ids hids => ?_, fun r ids hids hr => ?_,
    fun r hr => ?_⟩
  · show Settled t.store.subscriptions s.opened s.closed
    rw [hsub]
    exact h.settled
  · exact h.pendingOne r ((hmem r).mp hr) ids ((hsub' r).symm.trans hids)
  · exact h.doneTwo r ids ((hsub' r).symm.trans hids) fun hp => hr ((hmem r).mpr hp)
  · exact Nat.lt_of_lt_of_le (h.below r ((hmem r).mp hr)) (hfresh _)

/-- A request opens the first subscription of a new element. -/
theorem Accounted.request {store : DataStore} {m : Member} {isTopic : Bool} {primary : PrimaryKey} {id : RequestId}
    (h : s.Accounted) (hw : store.WellFormed) (hi : s.handles.lookups[i]? = some (.request isTopic primary)) (hid : id ∉ s.opened)
    (hnone : s.subscriptions m.ref = none)
    (hsub : store.subscriptions = Function.update s.subscriptions m.ref (some [id]))
    (haddr : m.ref.addr = s.handles.store.fresh m.ref.isTopic) (hlt : m.ref.addr < store.fresh m.ref.isTopic)
    (hfresh : ∀ isTopic, s.handles.store.fresh isTopic ≤ store.fresh isTopic) :
    Accounted ⟨s.handles.storeMember i (store, m), s.opened ++ [id], s.closed⟩ := by
  have hpending := pending_set (.stored m) hi
  have hmem : ∀ r, r ∈ (s.handles.lookups.set i (.stored m)).filterMap Lookup.pending ↔ r = m.ref ∨ r ∈ s.pending := by
    intro r
    exact hpending.mem_iff.trans List.mem_cons
  have hnot : m.ref ∉ s.pending := fun hp => absurd (h.below _ hp) (by rw [haddr]; exact Nat.lt_irrefl _)
  have hsettled := h.settled.open (Or.inr ⟨hnone, rfl⟩) hid
  rw [List.nil_append, ← hsub] at hsettled
  refine ⟨hw, hsettled, hpending.nodup_iff.mpr (List.nodup_cons.mpr ⟨hnot, h.pendingOnce⟩), ?_, ?_, ?_⟩
  · intro r hr ids hids
    replace hids : store.subscriptions r = some ids := hids
    rw [hsub] at hids
    by_cases hrm : r = m.ref
    · rw [hrm, Function.update_self] at hids
      cases hids
      rfl
    · rw [Function.update_of_ne hrm] at hids
      exact h.pendingOne r (((hmem r).mp hr).resolve_left hrm) ids hids
  · intro r ids hids hr
    replace hids : store.subscriptions r = some ids := hids
    have hrm : r ≠ m.ref := fun heq => hr ((hmem r).mpr (Or.inl heq))
    rw [hsub, Function.update_of_ne hrm] at hids
    exact h.doneTwo r ids hids fun hp => hr ((hmem r).mpr (Or.inr hp))
  · intro r hr
    obtain rfl | hr := (hmem r).mp hr
    · exact hlt
    · exact Nat.lt_of_lt_of_le (h.below r hr) (hfresh _)

/-- The attribute request opens the second one. -/
theorem Accounted.attribute {store : DataStore} {m : Member} {ids : List RequestId} {id : RequestId}
    (h : s.Accounted) (hw : store.WellFormed) (hi : s.handles.lookups[i]? = some (.stored m)) (hid : id ∉ s.opened)
    (hids : s.subscriptions m.ref = some ids)
    (hsub : store.subscriptions = Function.update s.subscriptions m.ref (some (ids ++ [id])))
    (hfresh : ∀ isTopic, s.handles.store.fresh isTopic ≤ store.fresh isTopic) :
    Accounted ⟨{ s.handles with store := store, lookups := s.handles.lookups.set i (.ready m) },
      s.opened ++ [id], s.closed⟩ := by
  have hpending : (m.ref :: (s.handles.lookups.set i (.ready m)).filterMap Lookup.pending).Perm s.pending :=
    pending_set (.ready m) hi
  have hnodup := List.nodup_cons.mp (hpending.nodup_iff.mpr h.pendingOnce)
  have hmem : ∀ r, r ∈ s.pending ↔
      r = m.ref ∨ r ∈ (s.handles.lookups.set i (.ready m)).filterMap Lookup.pending := by
    intro r
    exact hpending.symm.mem_iff.trans List.mem_cons
  have hone := h.pendingOne m.ref ((hmem _).mpr (Or.inl rfl)) ids hids
  have hsettled := h.settled.open (Or.inl hids) hid
  rw [← hsub] at hsettled
  refine ⟨hw, hsettled, hnodup.2, ?_, ?_, fun r hr => ?_⟩
  · intro r hr js hjs
    replace hjs : store.subscriptions r = some js := hjs
    have hrm : r ≠ m.ref := fun heq => hnodup.1 (heq ▸ hr)
    rw [hsub, Function.update_of_ne hrm] at hjs
    exact h.pendingOne r ((hmem r).mpr (Or.inr hr)) js hjs
  · intro r js hjs hr
    replace hjs : store.subscriptions r = some js := hjs
    rw [hsub] at hjs
    by_cases hrm : r = m.ref
    · rw [hrm, Function.update_self] at hjs
      cases hjs
      rw [List.length_append, hone]
      rfl
    · rw [Function.update_of_ne hrm] at hjs
      exact h.doneTwo r js hjs fun hp => ((hmem r).mp hp).elim hrm hr
  · exact Nat.lt_of_lt_of_le (h.below r ((hmem r).mpr (Or.inr hr))) (hfresh _)

/-- The sweep closes the one subscription of an element without attribute. -/
theorem Accounted.erase {store : DataStore} {r : Ref} {id : RequestId} {sweep : Sweep} (h : s.Accounted)
    (hw : store.WellFormed)
    (hids : s.subscriptions r = some [id])
    (hsub : store.subscriptions = Function.update s.subscriptions r none)
    (hfresh : ∀ isTopic, s.handles.store.fresh isTopic ≤ store.fresh isTopic) :
    Accounted ⟨{ s.handles with store := store, sweep := sweep }, s.opened, s.closed ++ [id]⟩ := by
  have hsettled := h.settled.release hids
  rw [← hsub] at hsettled
  have hold : ∀ q ids, store.subscriptions q = some ids → s.subscriptions q = some ids := by
    intro q ids hq
    rw [hsub] at hq
    by_cases hqr : q = r
    · rw [hqr, Function.update_self] at hq
      cases hq
    · rwa [Function.update_of_ne hqr] at hq
  exact ⟨hw, hsettled, h.pendingOnce, fun q hq ids hids => h.pendingOne q hq ids (hold q ids hids),
    fun q ids hids hq => h.doneTwo q ids (hold q ids hids) hq,
    fun q hq => Nat.lt_of_lt_of_le (h.below q hq) (hfresh _)⟩

end Steps

/-- Every step that erases no element with an attribute keeps the accounts. -/
theorem step_accounted {s t : SubscriptionState} {act : HandleAction} (h : s.Accounted) (fresh : s.Fresh act)
    (bare : s.ErasesBare act) (hs : s.step act = some t) : t.Accounted := by
  obtain ⟨handles, hstep, rfl⟩ := Option.map_eq_some_iff.mp hs
  cases act with
  | lookup query =>
    obtain ⟨found, hf, rfl⟩ := Option.map_eq_some_iff.mp hstep
    simp only [HandleAction.opens, HandleState.closes, List.append_nil]
    cases found with
    | some m => exact h.quiet h.wellFormed rfl (pending_append rfl) fun _ => Nat.le_refl _
    | none =>
      exact h.quiet h.wellFormed rfl (pending_append (by cases query <;> rfl)) fun _ => Nat.le_refl _
  | search i primary =>
    simp only [HandleAction.opens, HandleState.closes, List.append_nil]
    simp only [HandleState.step] at hstep
    split at hstep
    · next isTopic name hi =>
      split at hstep
      · cases hstep
        exact h.quiet h.wellFormed rfl (pending_eraseIdx hi).symm fun _ => Nat.le_refl _
      · cases hstep
        exact h.quiet h.wellFormed rfl (pending_set (.request isTopic primary) hi) fun _ => Nat.le_refl _
    · cases hstep
  | requestNode i response requestId =>
    simp only [HandleAction.opens, HandleState.closes, List.append_nil]
    simp only [HandleState.step] at hstep
    split at hstep
    · next primary hi =>
      obtain ⟨⟨store, m⟩, he, rfl⟩ := Option.map_eq_some_iff.mp hstep
      obtain ⟨hnone, _, _, hw⟩ := DataStore.emplaceNode_spec he h.wellFormed
      obtain ⟨hsub, haddr, hlt⟩ := DataStore.emplaceNode_subscriptions he
      exact h.request hw hi (fresh _ (List.mem_singleton_self _)) (DataStore.subscriptions_eq_none.mpr hnone) hsub
        haddr hlt (DataStore.emplaceNode_evolves he).fresh
    · cases hstep
  | requestTopic i response requestId =>
    simp only [HandleAction.opens, HandleState.closes, List.append_nil]
    simp only [HandleState.step] at hstep
    split at hstep
    · next primary hi =>
      obtain ⟨⟨store, m⟩, he, rfl⟩ := Option.map_eq_some_iff.mp hstep
      obtain ⟨hnone, _, _, hw⟩ := DataStore.emplaceTopic_spec he h.wellFormed
      obtain ⟨hsub, haddr, hlt⟩ := DataStore.emplaceTopic_subscriptions he
      exact h.request hw hi (fresh _ (List.mem_singleton_self _)) (DataStore.subscriptions_eq_none.mpr hnone) hsub
        haddr hlt (DataStore.emplaceTopic_evolves he).fresh
    · cases hstep
  | addAttributeSource i attr =>
    simp only [HandleAction.opens, HandleState.closes, List.append_nil]
    simp only [HandleState.step] at hstep
    split at hstep
    · next m hi =>
      obtain ⟨store, he, rfl⟩ := Option.map_eq_some_iff.mp hstep
      obtain ⟨ids, hids, hsub⟩ := DataStore.addAttributeSource_subscriptions he
      exact h.attribute ((DataStore.addAttributeSource_spec he).2 h.wellFormed) hi
        (fresh _ (List.mem_singleton_self _)) hids hsub (DataStore.addAttributeSource_evolves he).fresh
    · cases hstep
  | returns i =>
    simp only [HandleAction.opens, HandleState.closes, List.append_nil]
    simp only [HandleState.step] at hstep
    split at hstep
    · next m hi =>
      cases hstep
      exact h.quiet h.wellFormed rfl (pending_eraseIdx hi).symm fun _ => Nat.le_refl _
    · next m hi =>
      cases hstep
      exact h.quiet h.wellFormed rfl (pending_eraseIdx hi).symm fun _ => Nat.le_refl _
    · cases hstep
  | copy i =>
    simp only [HandleAction.opens, HandleState.closes, List.append_nil]
    obtain ⟨p, hi, hstep⟩ := Option.bind_eq_some_iff.mp hstep
    obtain ⟨⟨q, store⟩, hr, rfl⟩ := Option.map_eq_some_iff.mp hstep
    obtain ⟨hw, hsub, hfresh⟩ := copyConstruct_frame hr h.wellFormed
    exact h.quiet hw hsub (.refl _) hfresh
  | move i =>
    simp only [HandleAction.opens, HandleState.closes, List.append_nil]
    obtain ⟨p, hi, rfl⟩ := Option.map_eq_some_iff.mp hstep
    exact h.quiet h.wellFormed rfl (.refl _) fun _ => Nat.le_refl _
  | destroy i =>
    simp only [HandleAction.opens, HandleState.closes, List.append_nil]
    obtain ⟨p, hi, hstep⟩ := Option.bind_eq_some_iff.mp hstep
    obtain ⟨store, hr, rfl⟩ := Option.map_eq_some_iff.mp hstep
    obtain ⟨hw, hsub, hfresh⟩ := destroy_frame hr h.wellFormed
    exact h.quiet hw hsub (.refl _) hfresh
  | sweepBegin =>
    simp only [HandleAction.opens, HandleState.closes, List.append_nil]
    simp only [HandleState.step] at hstep
    split at hstep
    · cases hstep
      exact h.quiet h.wellFormed rfl (.refl _) fun _ => Nat.le_refl _
    · cases hstep
  | sweepStep =>
    obtain ⟨sweep, rfl, hcloses⟩ | ⟨r, store, next, hsweep, he, rfl, hcloses⟩ := sweepStep_cases hstep
    · rw [hcloses]
      simp only [HandleAction.opens, List.append_nil]
      exact h.quiet h.wellFormed rfl (.refl _) fun _ => Nat.le_refl _
    · obtain ⟨⟨ids, hids⟩, hsub⟩ := DataStore.erase_subscriptions he
      obtain ⟨id, rest, rfl, hid⟩ := DataStore.subscriptions_cons hids
      have hrest : rest = [] := List.length_eq_zero_iff.mp (Nat.succ.inj (bare rfl r _ hsweep hids))
      subst hrest
      rw [hcloses, hid]
      simp only [HandleAction.opens, List.append_nil]
      exact h.erase ((DataStore.erase_spec he).2 h.wellFormed) hids hsub (DataStore.erase_evolves he).fresh

/-- The attribute's subscription of an element that is erased stays open. -/
theorem step_leaks {s t : SubscriptionState} {act : HandleAction} (h : s.Accounted)
    (attributed : ¬ s.ErasesBare act) (hs : s.step act = some t) : ¬ t.NoLeak := by
  obtain ⟨handles, hstep, rfl⟩ := Option.map_eq_some_iff.mp hs
  unfold ErasesBare at attributed
  push Not at attributed
  obtain ⟨rfl, r, ids, hsweep, hids, hlength⟩ := attributed
  obtain ⟨sweep, rfl, hcloses⟩ | ⟨r', store, next, hsweep', he, rfl, hcloses⟩ := sweepStep_cases hstep
  · -- a sweep that stands at an erasure does not only move
    simp only [HandleState.step, HandleState.sweepStep, hsweep] at hstep
    obtain ⟨⟨store, n⟩, he, hsame⟩ := Option.map_eq_some_iff.mp hstep
    have hstore : store = s.handles.store := congrArg HandleState.store hsame
    obtain ⟨_, hsub⟩ := DataStore.erase_subscriptions he
    have hgone := congrFun hsub r
    rw [Function.update_self, hstore] at hgone
    exact absurd (hids.symm.trans hgone) (by simp)
  · rw [hsweep] at hsweep'
    cases hsweep'
    obtain ⟨_, hsub⟩ := DataStore.erase_subscriptions he
    obtain ⟨id, rest, rfl, hid⟩ := DataStore.subscriptions_cons hids
    cases rest with
    | nil => exact absurd rfl hlength
    | cons attr rest =>
      intro hleak
      have hne : attr ∉ [id] := by
        have hnodup := h.settled.ownedOnce r _ hids
        rw [List.mem_singleton]
        intro heq
        exact (List.nodup_cons.mp hnodup).1 (heq ▸ List.mem_cons_self)
      obtain ⟨⟨hopen, hclosed⟩, hnone⟩ :=
        h.settled.leaks hids (List.mem_cons_of_mem _ List.mem_cons_self) hne
      apply hnone
      have hex := (hleak.exact attr).mp ⟨List.mem_append_left _ hopen, by
        show attr ∉ s.closed ++ s.handles.closes .sweepStep
        rw [hcloses, hid]
        exact hclosed⟩
      obtain ⟨q, js, hq, hjs⟩ := hex
      exact ⟨q, js, by rw [← hq]; exact (congrFun hsub q).symm, hjs⟩

end SubscriptionState

/-- In every run of lookups, handle operations and sweeps with request ids of their own: exactly the
    subscriptions of the stored elements are open in every state, and every other one was closed once,
    exactly when no sweep erases an element whose attribute was requested. -/
theorem subscriptions_noLeak_iff (parameterEventsKey rosoutKey : PrimaryKey) (acts : List HandleAction)
    (fresh : Along SubscriptionState.step SubscriptionState.Fresh (.new parameterEventsKey rosoutKey) acts)
    {t : SubscriptionState} (reached : run SubscriptionState.step (.new parameterEventsKey rosoutKey) acts = some t) :
    Holds SubscriptionState.step SubscriptionState.NoLeak (.new parameterEventsKey rosoutKey) acts ↔
      Along SubscriptionState.step SubscriptionState.ErasesBare (.new parameterEventsKey rosoutKey) acts := by
  have hgood : ∀ (s : SubscriptionState) (act : HandleAction), s.Accounted →
      (s.Fresh act ∧ ∃ t, s.step act = some t) → s.ErasesBare act → ∃ t, s.step act = some t ∧ t.Accounted := by
    intro s act h hvalid hbare
    obtain ⟨hfresh, t, ht⟩ := hvalid
    exact ⟨t, ht, SubscriptionState.step_accounted h hfresh hbare ht⟩
  have hbad : ∀ (s : SubscriptionState) (act : HandleAction) (t : SubscriptionState), s.Accounted →
      (s.Fresh act ∧ ∃ t, s.step act = some t) → ¬ s.ErasesBare act → s.step act = some t → ¬ t.NoLeak :=
    fun s act t h _ hbare ht => SubscriptionState.step_leaks h hbare ht
  exact holds_iff_along (fun s hs => hs.noLeak) hgood hbad acts _
    (SubscriptionState.accounted_new parameterEventsKey rosoutKey) (fresh.defined reached)

/-- While a node is requested, another thread looks it up, and drops its handle; the sweep erases the
    node before its attribute is requested. -/
def sweepBeforeAttribute : List HandleAction :=
  [.lookup (.getNode "a"), .requestNode 0 (exampleResponse "a") 1, .lookup (.getNode "a"), .returns 1, .destroy 0,
    .sweepBegin, .sweepStep, .sweepStep]

theorem subscriptions_noLeak_sweep :
    Holds SubscriptionState.step SubscriptionState.NoLeak (.new "e" "r") sweepBeforeAttribute ∧
    ∃ t, run SubscriptionState.step (.new "e" "r") sweepBeforeAttribute = some t ∧ t.opened = [1] ∧ t.closed = [1] := by
  refine ⟨(subscriptions_noLeak_iff "e" "r" sweepBeforeAttribute
    (.cons (fun id h => by cases h) rfl (.cons (by unfold SubscriptionState.Fresh; decide) rfl
      (.cons (fun id h => by cases h) rfl (.cons (fun id h => by cases h) rfl (.cons (fun id h => by cases h) rfl
      (.cons (fun id h => by cases h) rfl (.cons (fun id h => by cases h) rfl
      (.cons (fun id h => by cases h) rfl trivial)))))))) rfl).mpr ?_, _, rfl, rfl, rfl⟩
  refine .cons (fun h => by cases h) rfl (.cons (fun h => by cases h) rfl (.cons (fun h => by cases h) rfl
    (.cons (fun h => by cases h) rfl (.cons (fun h => by cases h) rfl (.cons (fun h => by cases h) rfl
    (.cons (fun _ r ids hsweep _ => by cases hsweep) rfl (.cons (fun _ r ids hsweep hids => ?_) rfl trivial)))))))
  -- the only subscription of the node is its own
  cases hsweep
  cases hids
  rfl

/-- A node is requested, with its attribute, and its handle returned. -/
def requestExample : List HandleAction :=
  [.lookup (.getNode "a"), .requestNode 0 (exampleResponse "a") 1, .addAttributeSource 0 ⟨"cpu", 2, 0⟩, .returns 0]

/-- The handle is destroyed, and the next sweep erases the node. -/
def watchAndUnwatch : List HandleAction := requestExample ++ [.destroy 0, .sweepBegin, .sweepStep, .sweepStep]

/-- The subscription of the attribute is still open when the node is gone. -/
theorem subscriptions_leak_unwatch :
    Along SubscriptionState.step SubscriptionState.Fresh (.new "e" "r") watchAndUnwatch ∧
    (∃ t, run SubscriptionState.step (.new "e" "r") watchAndUnwatch = some t ∧
      t.opened = [1, 2] ∧ t.closed = [1] ∧ t.subscriptions ⟨false, 0⟩ = none) ∧
    ¬ Holds SubscriptionState.step SubscriptionState.NoLeak (.new "e" "r") watchAndUnwatch := by
  refine ⟨?_, ⟨_, rfl, rfl, rfl, rfl⟩, fun h => ?_⟩
  · exact .cons (fun id h => by cases h) rfl (.cons (by unfold SubscriptionState.Fresh; decide) rfl
      (.cons (by unfold SubscriptionState.Fresh; decide) rfl (.cons (fun id h => by cases h) rfl
      (.cons (fun id h => by cases h) rfl (.cons (fun id h => by cases h) rfl
      (.cons (fun id h => by cases h) rfl (.cons (fun id h => by cases h) rfl trivial)))))))
  · obtain ⟨t, ht, hleak⟩ := h.final
    cases ht
    obtain ⟨⟨isTopic, a⟩, ids, hids, _⟩ := (hleak.exact 2).mp ⟨by decide, by decide⟩
    cases isTopic with
    | true => cases hids
    | false =>
      cases a with
      | zero => cases hids
      | succ a => cases hids

end StreamFdl
