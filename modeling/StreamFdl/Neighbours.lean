import StreamFdl.DataStore

/- The communication graph as the data store records it. `vertex s r` is a stored
   element as a vertex of that graph: its key and the incoming neighbours in its
   relations. An operation of the store that handles no message `Evolves` it: the
   elements that were there keep their vertices or are deleted, and a new one has
   no neighbours. Only an update message records a neighbour, and it is queued
   with that very neighbour: `Pending` says that a queue holds it. -/
namespace StreamFdl

/-! The relations that lead to a member. -/

def Node.incoming (node : Node) : MemberProxies :=
  node.mSubscribesTo ++ node.mServers.entries.map Prod.snd ++ node.mActionServers.entries.map Prod.snd

def Topic.incoming (topic : Topic) : MemberProxies :=
  topic.mPublishers.map CommunicationEdge.associatedNode

/-- The incoming neighbour a message tells the queue of updates about. -/
def Update.connection : Update → Option MemberProxy
  | .node (.subscribersTo _ subscribesTo) => some ⟨subscribesTo, true⟩
  | .node (.isClientOf _ _ serverNodeId) => some ⟨serverNodeId, false⟩
  | .node (.isActionClientOf _ _ actionserverNodeId) => some ⟨actionserverNodeId, false⟩
  | .topic (.publishers _ _ publisher) => some ⟨publisher, false⟩
  | _ => none

/-- An update records at most the neighbour it is queued with. -/
theorem Node.incoming_update {node : Node} {u : NodeUpdate} {x : MemberProxy}
    (h : x ∈ (node.update u).incoming) :
    x ∈ node.incoming ∨ (Update.node u).connection = some x := by
  simp only [incoming, List.mem_append, List.mem_map] at h ⊢
  cases u with
  | subscribersTo _ t =>
    obtain (hx | hx) | hx := h
    · obtain hx | hx := List.mem_append.mp hx
      · exact Or.inl (Or.inl (Or.inl hx))
      · exact Or.inr (by rw [List.mem_singleton.mp hx]; rfl)
    · exact Or.inl (Or.inl (Or.inr hx))
    · exact Or.inl (Or.inr hx)
  | isClientOf _ srvName server =>
    obtain (hx | ⟨e, he, rfl⟩) | hx := h
    · exact Or.inl (Or.inl (Or.inl hx))
    · obtain rfl | he := OrderedMap.mem_emplace he
      · exact Or.inr rfl
      · exact Or.inl (Or.inl (Or.inr ⟨e, he, rfl⟩))
    · exact Or.inl (Or.inr hx)
  | isActionClientOf _ srvName server =>
    obtain (hx | hx) | ⟨e, he, rfl⟩ := h
    · exact Or.inl (Or.inl (Or.inl hx))
    · exact Or.inl (Or.inl (Or.inr hx))
    · obtain rfl | he := OrderedMap.mem_emplace he
      · exact Or.inr rfl
      · exact Or.inl (Or.inr ⟨e, he, rfl⟩)
  | state _ _ _ =>
    refine Or.inl ?_
    simp only [update] at h
    split at h
    · exact h
    · exact h
  | publishersTo _ _ => exact Or.inl h
  | isServerFor _ _ _ => exact Or.inl h
  | isActionServerFor _ _ _ => exact Or.inl h

theorem Topic.incoming_update {topic : Topic} {u : TopicUpdate} {x : MemberProxy}
    (h : x ∈ (topic.update u).incoming) :
    x ∈ topic.incoming ∨ (Update.topic u).connection = some x := by
  cases u with
  | publishers _ edge publisher =>
    simp only [incoming, update, List.map_append, List.mem_append] at h
    obtain h | h := h
    · exact Or.inl h
    · exact Or.inr (by rw [List.mem_singleton.mp h]; rfl)
  | subscribers _ _ _ => exact Or.inl h

/-! Stored elements as vertices. -/

namespace DoubleLinkedList

variable {T : Type} [Stored T] {l l' : DoubleLinkedList T} {a : Nat}

def vertexOf (incoming : T → MemberProxies) (d : Data T) : MemberConnections :=
  ⟨⟨Stored.mPrimaryKey d.inst, Stored.mIsTopic T⟩, incoming d.inst⟩

def vertex (incoming : T → MemberProxies) (l : DoubleLinkedList T) (it : Nat) : Option MemberConnections :=
  (l.data it).map (vertexOf incoming)

variable {incoming : T → MemberProxies}

theorem vertex_update {v : Option (Data T)} (h : l'.data = Function.update l.data a v) :
    l'.vertex incoming = Function.update (l.vertex incoming) a (v.map (vertexOf incoming)) := by
  show Option.map (vertexOf incoming) ∘ l'.data = _
  rw [h, Function.comp_update]
  rfl

/-- A write that changes nothing of the vertex. -/
theorem vertex_modify {f : Data T → Data T} (h : l.modify a f = some l')
    (hf : ∀ d, vertexOf incoming (f d) = vertexOf incoming d) : l'.vertex incoming = l.vertex incoming := by
  obtain ⟨⟨d, hd, hdata⟩, _⟩ := modify_spec h
  have hself : some (vertexOf incoming (f d)) = l.vertex incoming a := by
    rw [hf, vertex, hd, Option.map_some]
  rw [vertex_update hdata, Option.map_some, hself, Function.update_eq_self]

theorem Rep.vertex_lt {xs : List Nat} {v : MemberConnections} (h : l.Rep xs)
    (hv : l.vertex incoming a = some v) : a < l.fresh := by
  apply h.below
  rw [← h.live]
  intro hnone
  rw [vertex, data_eq_none.mpr hnone] at hv
  cases hv

end DoubleLinkedList

namespace DataStore

def vertex (s : DataStore) (r : Ref) : Option MemberConnections :=
  if r.isTopic then s.mTopics.vertex Topic.incoming r.addr else s.mNodes.vertex Node.incoming r.addr

/-- Where the next element of the kind will be stored. -/
def fresh (s : DataStore) (isTopic : Bool) : Nat :=
  if isTopic then s.mTopics.fresh else s.mNodes.fresh

/-- The member is the one stored where the pointer leads. -/
def Leads (s : DataStore) (m : Member) : Prop :=
  m.mIsTopic = m.ref.isTopic ∧ ∃ v, s.vertex m.ref = some v ∧ v.member.mPrimaryKey = m.mPrimaryKey

/-- `x` is recorded as an incoming neighbour of the stored member. -/
def Recorded (s : DataStore) (m : Member) (x : MemberProxy) : Prop :=
  m.mIsTopic = m.ref.isTopic ∧
    ∃ v, s.vertex m.ref = some v ∧ v.member.mPrimaryKey = m.mPrimaryKey ∧ x ∈ v.connections

instance (s : DataStore) (m : Member) : Decidable (s.Leads m) :=
  inferInstanceAs (Decidable (_ ∧ ∃ v, v ∈ s.vertex m.ref ∧ _))

instance (s : DataStore) (m : Member) (x : MemberProxy) : Decidable (s.Recorded m x) :=
  inferInstanceAs (Decidable (_ ∧ ∃ v, v ∈ s.vertex m.ref ∧ _))

variable {s s' : DataStore} {m : Member} {r : Ref}

/-- Two pointers to one address that lead to their members lead to one member. -/
theorem Leads.unique {m' : Member} (h : s.Leads m) (h' : s.Leads m') (href : m.ref = m'.ref) :
    m = m' := by
  obtain ⟨ref, isTopic, primary⟩ := m
  obtain ⟨ref', isTopic', primary'⟩ := m'
  obtain ⟨hk, v, hv, hkey⟩ := h
  obtain ⟨hk', v', hv', hkey'⟩ := h'
  simp only at href hk hk' hkey hkey' hv hv'
  subst href
  rw [hv] at hv'
  cases hv'
  rw [hk, hk', ← hkey, ← hkey']

theorem WellFormed.vertex_lt {v : MemberConnections} (h : s.WellFormed) (hv : s.vertex r = some v) :
    r.addr < s.fresh r.isTopic := by
  obtain ⟨isTopic, a⟩ := r
  cases isTopic with
  | false =>
    obtain ⟨xs, hx⟩ := h.nodes
    exact hx.vertex_lt hv
  | true =>
    obtain ⟨xs, hx⟩ := h.topics
    exact hx.vertex_lt hv

theorem vertex_new (k k' : PrimaryKey) (r : Ref) : (new k k').vertex r = none := by
  obtain ⟨isTopic, a⟩ := r
  cases isTopic <;> rfl

/-- The header and the vertex of an element agree on its key. -/
theorem vertex_header {v : MemberConnections} {e : Header} (hv : s.vertex r = some v)
    (he : s.header r = some e) : e.mPrimaryKey = v.member.mPrimaryKey := by
  obtain ⟨isTopic, a⟩ := r
  cases isTopic with
  | false =>
    obtain ⟨d, hd, rfl⟩ := Option.map_eq_some_iff.mp hv
    obtain ⟨d', hd', rfl⟩ := Option.map_eq_some_iff.mp he
    rw [hd] at hd'
    cases hd'
    rfl
  | true =>
    obtain ⟨d, hd, rfl⟩ := Option.map_eq_some_iff.mp hv
    obtain ⟨d', hd', rfl⟩ := Option.map_eq_some_iff.mp he
    rw [hd] at hd'
    cases hd'
    rfl

/-! What the operations do to the vertices. -/

structure Evolves (s s' : DataStore) : Prop where
  vertex : ∀ r v, s'.vertex r = some v →
    s.vertex r = some v ∨ s.fresh r.isTopic ≤ r.addr ∧ v.connections = []
  fresh : ∀ isTopic, s.fresh isTopic ≤ s'.fresh isTopic
  mUpdates : s'.mUpdates = s.mUpdates

theorem Evolves.setNodes {l : DoubleLinkedList Node}
    (hv : ∀ a v, l.vertex Node.incoming a = some v →
      s.mNodes.vertex Node.incoming a = some v ∨ s.mNodes.fresh ≤ a ∧ v.connections = [])
    (hf : s.mNodes.fresh ≤ l.fresh) : s.Evolves { s with mNodes := l } := by
  refine ⟨fun r v h => ?_, fun isTopic => ?_, rfl⟩
  · obtain ⟨isTopic, a⟩ := r
    cases isTopic with
    | false => exact hv a v h
    | true => exact Or.inl h
  · cases isTopic with
    | false => exact hf
    | true => exact Nat.le_refl _

theorem Evolves.setTopics {l : DoubleLinkedList Topic}
    (hv : ∀ a v, l.vertex Topic.incoming a = some v →
      s.mTopics.vertex Topic.incoming a = some v ∨ s.mTopics.fresh ≤ a ∧ v.connections = [])
    (hf : s.mTopics.fresh ≤ l.fresh) : s.Evolves { s with mTopics := l } := by
  refine ⟨fun r v h => ?_, fun isTopic => ?_, rfl⟩
  · obtain ⟨isTopic, a⟩ := r
    cases isTopic with
    | false => exact Or.inl h
    | true => exact hv a v h
  · cases isTopic with
    | false => exact Nat.le_refl _
    | true => exact hf

end DataStore

namespace DoubleLinkedList

variable {T : Type} [Stored T] {incoming : T → MemberProxies} {l l' : DoubleLinkedList T} {a : Nat}

/-- A new element without relations is a new vertex without neighbours. -/
theorem vertex_emplaceBack {inst : T} {requestId : RequestId} (hinst : incoming inst = [])
    (h : l.emplaceBack inst requestId = some (l', a)) (b : Nat) (v : MemberConnections)
    (hv : l'.vertex incoming b = some v) :
    l.vertex incoming b = some v ∨ l.fresh ≤ b ∧ v.connections = [] := by
  obtain ⟨rfl, _, _, hdata, _⟩ := emplaceBack_spec h
  rw [vertex_update hdata] at hv
  by_cases hb : b = l.fresh
  · subst hb
    rw [Function.update_self] at hv
    cases hv
    exact Or.inr ⟨Nat.le_refl _, hinst⟩
  · rw [Function.update_of_ne hb] at hv
    exact Or.inl hv

theorem vertex_erase {next : Option Nat} (h : l.erase a = some (l', next)) (b : Nat)
    (v : MemberConnections) (hv : l'.vertex incoming b = some v) : l.vertex incoming b = some v := by
  obtain ⟨_, _, hdata, _⟩ := erase_spec h
  rw [vertex_update hdata] at hv
  by_cases hb : b = a
  · subst hb
    rw [Function.update_self] at hv
    cases hv
  · rwa [Function.update_of_ne hb] at hv

/-- What a write to the object of an element can record there. -/
theorem vertex_modify_inst {g : T → T} {P : MemberProxy → Prop}
    (hkey : ∀ t, Stored.mPrimaryKey (g t) = Stored.mPrimaryKey t)
    (hg : ∀ t x, x ∈ incoming (g t) → x ∈ incoming t ∨ P x)
    (h : l.modify a (fun d => { d with inst := g d.inst }) = some l') (b : Nat) (v : MemberConnections)
    (hv : l'.vertex incoming b = some v) : l.vertex incoming b = some v ∨ b = a ∧
      ∃ w, l.vertex incoming a = some w ∧ v.member = w.member ∧ ∀ x ∈ v.connections, x ∈ w.connections ∨ P x := by
  obtain ⟨⟨d, hd, hdata⟩, _⟩ := modify_spec h
  rw [vertex_update hdata] at hv
  by_cases hb : b = a
  · subst hb
    rw [Function.update_self] at hv
    cases hv
    refine Or.inr ⟨rfl, vertexOf incoming d, by rw [vertex, hd, Option.map_some], ?_, hg d.inst⟩
    simp only [vertexOf, hkey]
  · rw [Function.update_of_ne hb] at hv
    exact Or.inl hv

end DoubleLinkedList

namespace DataStore

variable {s s' : DataStore} {r : Ref}

theorem emplaceNode_evolves {response : NodeResponse} {requestId : RequestId} {m : Member}
    (h : s.emplaceNode response requestId = some (s', m)) : s.Evolves s' := by
  simp only [emplaceNode, Option.bind_eq_bind, Option.bind_eq_some_iff, Option.pure_def,
    Option.some.injEq, Prod.mk.injEq] at h
  obtain ⟨⟨l, a⟩, hl, rfl, _⟩ := h
  obtain ⟨_, hfresh, _⟩ := DoubleLinkedList.emplaceBack_spec hl
  apply Evolves.setNodes (DoubleLinkedList.vertex_emplaceBack rfl hl)
  rw [hfresh]
  exact Nat.le_succ _

theorem emplaceTopic_evolves {response : TopicResponse} {requestId : RequestId} {m : Member}
    (h : s.emplaceTopic response requestId = some (s', m)) : s.Evolves s' := by
  simp only [emplaceTopic, Option.bind_eq_bind, Option.bind_eq_some_iff, Option.pure_def,
    Option.some.injEq, Prod.mk.injEq] at h
  obtain ⟨⟨l, a⟩, hl, rfl, _⟩ := h
  obtain ⟨_, hfresh, _⟩ := DoubleLinkedList.emplaceBack_spec hl
  apply Evolves.setTopics (DoubleLinkedList.vertex_emplaceBack rfl hl)
  rw [hfresh]
  exact Nat.le_succ _

theorem Evolves.modifyNodes {f : Data Node → Data Node} {l : DoubleLinkedList Node} {a : Nat}
    (h : s.mNodes.modify a f = some l) (hf : ∀ d, DoubleLinkedList.vertexOf Node.incoming (f d) =
      DoubleLinkedList.vertexOf Node.incoming d) : s.Evolves { s with mNodes := l } := by
  obtain ⟨_, _, hfresh, _⟩ := DoubleLinkedList.modify_spec h
  apply Evolves.setNodes
  · intro b v hv
    rw [DoubleLinkedList.vertex_modify h hf] at hv
    exact Or.inl hv
  · exact Nat.le_of_eq hfresh.symm

theorem Evolves.modifyTopics {f : Data Topic → Data Topic} {l : DoubleLinkedList Topic} {a : Nat}
    (h : s.mTopics.modify a f = some l) (hf : ∀ d, DoubleLinkedList.vertexOf Topic.incoming (f d) =
      DoubleLinkedList.vertexOf Topic.incoming d) : s.Evolves { s with mTopics := l } := by
  obtain ⟨_, _, hfresh, _⟩ := DoubleLinkedList.modify_spec h
  apply Evolves.setTopics
  · intro b v hv
    rw [DoubleLinkedList.vertex_modify h hf] at hv
    exact Or.inl hv
  · exact Nat.le_of_eq hfresh.symm

/-- Neither a counter nor an attribute is part of the graph. -/
theorem access_evolves {f : AtomicCounter → AtomicCounter} (h : s.access r f = some s') :
    s.Evolves s' := by
  obtain ⟨isTopic, a⟩ := r
  cases isTopic with
  | false =>
    obtain ⟨l, hl, rfl⟩ := Option.map_eq_some_iff.mp h
    exact Evolves.modifyNodes hl fun _ => rfl
  | true =>
    obtain ⟨l, hl, rfl⟩ := Option.map_eq_some_iff.mp h
    exact Evolves.modifyTopics hl fun _ => rfl

theorem addAttributeSource_evolves {attr : Attribute} (h : s.addAttributeSource r attr = some s') :
    s.Evolves s' := by
  obtain ⟨isTopic, a⟩ := r
  cases isTopic with
  | false =>
    obtain ⟨l, hl, rfl⟩ := Option.map_eq_some_iff.mp h
    exact Evolves.modifyNodes hl fun _ => rfl
  | true =>
    obtain ⟨l, hl, rfl⟩ := Option.map_eq_some_iff.mp h
    exact Evolves.modifyTopics hl fun _ => rfl

theorem erase_evolves {n : Option Nat} (h : s.erase r = some (s', n)) : s.Evolves s' := by
  obtain ⟨isTopic, a⟩ := r
  cases isTopic with
  | false =>
    obtain ⟨⟨l, n'⟩, hl, hs⟩ := Option.map_eq_some_iff.mp h
    cases hs
    obtain ⟨_, _, _, hfresh, _⟩ := DoubleLinkedList.erase_spec hl
    apply Evolves.setNodes
    · intro b v hv
      exact Or.inl (DoubleLinkedList.vertex_erase hl b v hv)
    · exact Nat.le_of_eq hfresh.symm
  | true =>
    obtain ⟨⟨l, n'⟩, hl, hs⟩ := Option.map_eq_some_iff.mp h
    cases hs
    obtain ⟨_, _, _, hfresh, _⟩ := DoubleLinkedList.erase_spec hl
    apply Evolves.setTopics
    · intro b v hv
      exact Or.inl (DoubleLinkedList.vertex_erase hl b v hv)
    · exact Nat.le_of_eq hfresh.symm

/-- A message records at most the neighbour it is queued with, and at its own member only. -/
theorem update_vertex {u : Update} {it : Nat} (h : s.update it u = some s') (r : Ref)
    (v : MemberConnections) (hv : s'.vertex r = some v) :
    s.vertex r = some v ∨ r = ⟨u.isTopic, it⟩ ∧
      ∃ w, s.vertex r = some w ∧ v.member = w.member ∧
        ∀ x ∈ v.connections, x ∈ w.connections ∨ u.connection = some x := by
  obtain ⟨isTopic, a⟩ := r
  cases u with
  | node u =>
    obtain ⟨l, hl, rfl⟩ := Option.map_eq_some_iff.mp h
    cases isTopic with
    | true => exact Or.inl hv
    | false =>
      have hmod := DoubleLinkedList.vertex_modify_inst (g := fun t : Node => t.update u)
        (fun t => t.update_mPrimaryKey u) (fun t x hx => Node.incoming_update hx) hl a v hv
      obtain h | ⟨rfl, h⟩ := hmod
      · exact Or.inl h
      · exact Or.inr ⟨rfl, h⟩
  | topic u =>
    obtain ⟨l, hl, rfl⟩ := Option.map_eq_some_iff.mp h
    cases isTopic with
    | false => exact Or.inl hv
    | true =>
      have hmod := DoubleLinkedList.vertex_modify_inst (g := fun t : Topic => t.update u)
        (fun t => t.update_mPrimaryKey u) (fun t x hx => Topic.incoming_update hx) hl a v hv
      obtain h | ⟨rfl, h⟩ := hmod
      · exact Or.inl h
      · exact Or.inr ⟨rfl, h⟩

theorem update_fresh {u : Update} {it : Nat} (h : s.update it u = some s') : s'.fresh = s.fresh := by
  funext isTopic
  cases u with
  | node u =>
    obtain ⟨l, hl, rfl⟩ := Option.map_eq_some_iff.mp h
    obtain ⟨_, _, hfresh, _⟩ := DoubleLinkedList.modify_spec hl
    simp [fresh, hfresh]
  | topic u =>
    obtain ⟨l, hl, rfl⟩ := Option.map_eq_some_iff.mp h
    obtain ⟨_, _, hfresh, _⟩ := DoubleLinkedList.modify_spec hl
    simp [fresh, hfresh]

theorem update_mUpdates {u : Update} {it : Nat} (h : s.update it u = some s') :
    s'.mUpdates = s.mUpdates := by
  cases u with
  | node u =>
    obtain ⟨l, _, rfl⟩ := Option.map_eq_some_iff.mp h
    rfl
  | topic u =>
    obtain ⟨l, _, rfl⟩ := Option.map_eq_some_iff.mp h
    rfl

/-! Members that were stored once. -/

/-- The member was stored where its pointer leads, and nothing else ever will be. -/
def Placed (s : DataStore) (m : Member) : Prop :=
  m.ref.addr < s.fresh m.ref.isTopic ∧ ∀ m', s.Leads m' → m'.ref = m.ref → m' = m

variable {m : Member}

theorem Leads.placed (h : s.Leads m) (hw : s.WellFormed) : s.Placed m := by
  refine ⟨?_, fun m' h' href => h'.unique h href⟩
  obtain ⟨_, v, hv, _⟩ := h
  exact hw.vertex_lt hv

/-- Elements whose addresses had been handed out are the ones they were. -/
theorem Placed.mono (h : s.Placed m) (hfresh : ∀ isTopic, s.fresh isTopic ≤ s'.fresh isTopic)
    (hleads : ∀ m', m'.ref.addr < s.fresh m'.ref.isTopic → s'.Leads m' → s.Leads m') : s'.Placed m := by
  obtain ⟨hlt, honly⟩ := h
  refine ⟨Nat.lt_of_lt_of_le hlt (hfresh _), fun m' h' href => ?_⟩
  apply honly m' _ href
  apply hleads m' _ h'
  rwa [href]

theorem Evolves.placed (h : s.Evolves s') (hm : s.Placed m) : s'.Placed m := by
  apply hm.mono h.fresh
  intro m' hlt hl
  obtain ⟨hk, v, hv, hkey⟩ := hl
  obtain hv | ⟨hle, _⟩ := h.vertex _ _ hv
  · exact ⟨hk, v, hv, hkey⟩
  · exact absurd hlt (Nat.not_lt.mpr hle)

theorem update_placed {u : Update} {it : Nat} (h : s.update it u = some s') (hm : s.Placed m) :
    s'.Placed m := by
  apply hm.mono
  · intro isTopic
    rw [update_fresh h]
  · intro m' _ hl
    obtain ⟨hk, v, hv, hkey⟩ := hl
    obtain hv | ⟨_, w, hw, hmember, _⟩ := update_vertex h _ _ hv
    · exact ⟨hk, v, hv, hkey⟩
    · exact ⟨hk, w, hw, hmember ▸ hkey⟩

/-! Updates that wait in a queue. -/

/-- The queue holds `x` as a connection of the member with this key. -/
def Pending (g : GraphView) (primary : PrimaryKey) (x : MemberProxy) : Prop :=
  ∃ e ∈ g, e.member.mPrimaryKey = primary ∧ x ∈ e.connections

variable {g : GraphView} {affected other x : MemberProxy} {primary : PrimaryKey}

theorem addUpdate_self : Pending (addUpdate g affected other) affected.mPrimaryKey other := by
  induction g with
  | nil => exact ⟨_, List.mem_singleton_self _, rfl, List.mem_singleton_self _⟩
  | cons element rest ih =>
    unfold addUpdate
    split
    · next hkey =>
      exact ⟨_, List.mem_cons_self, beq_iff_eq.mp hkey, List.mem_append_right _ (List.mem_singleton_self _)⟩
    · obtain ⟨e, he, h⟩ := ih
      exact ⟨e, List.mem_cons_of_mem _ he, h⟩

theorem addUpdate_keeps (h : Pending g primary x) : Pending (addUpdate g affected other) primary x := by
  induction g with
  | nil =>
    obtain ⟨e, he, _⟩ := h
    cases he
  | cons element rest ih =>
    obtain ⟨e, he, hkey, hx⟩ := h
    unfold addUpdate
    obtain rfl | he := List.mem_cons.mp he
    · split
      · exact ⟨_, List.mem_cons_self, hkey, List.mem_append_left _ hx⟩
      · exact ⟨_, List.mem_cons_self, hkey, hx⟩
    · split
      · exact ⟨e, List.mem_cons_of_mem _ he, hkey, hx⟩
      · obtain ⟨e', he', h'⟩ := ih ⟨e, he, hkey, hx⟩
        exact ⟨e', List.mem_cons_of_mem _ he', h'⟩

/-- Queueing a message keeps what was pending and adds its own connection. -/
theorem queue_keeps (u : Update) (h : Pending s.mUpdates primary x) :
    Pending (s.queue u).mUpdates primary x := by
  cases u with
  | node u => cases u <;> first | exact h | exact addUpdate_keeps h
  | topic u => cases u <;> first | exact h | exact addUpdate_keeps h

theorem queue_self {u : Update} (h : u.connection = some x) :
    Pending (s.queue u).mUpdates u.primaryKey x := by
  cases u with
  | node u => cases u <;> first | (cases h; done) | (cases h; exact addUpdate_self)
  | topic u => cases u <;> first | (cases h; done) | (cases h; exact addUpdate_self)

theorem queue_fresh (s : DataStore) (u : Update) : (s.queue u).fresh = s.fresh := by
  cases u with
  | node u => cases u <;> rfl
  | topic u => cases u <;> rfl

theorem queue_vertex (s : DataStore) (u : Update) : (s.queue u).vertex = s.vertex := by
  cases u with
  | node u => cases u <;> rfl
  | topic u => cases u <;> rfl

theorem queue_placed (u : Update) (h : s.Placed m) : (s.queue u).Placed m := by
  apply h.mono
  · intro isTopic
    rw [queue_fresh]
  · intro m' _ hl
    simpa only [Leads, queue_vertex] using hl

end DataStore

end StreamFdl
