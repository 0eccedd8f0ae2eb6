import StreamFdl.ListShape

/- The data store: the two member lists, the pending graph updates, and the
   operations on them that other threads see as one step each. A lookup is a
   search of a list, and when that finds nothing a request to the server whose
   answer is appended; `DataStore::run` erases elements and applies updates.

   `counter s` gives the use counter of every stored element. It is what the
   handles of the members depend on, and each operation below is summarised by
   what it does to it. -/
namespace StreamFdl

structure MemberConnections where
  member : MemberProxy
  connections : MemberProxies
  deriving DecidableEq, Repr

abbrev GraphView := List MemberConnections

structure DataStore where
  mNodes : DoubleLinkedList Node
  mTopics : DoubleLinkedList Topic
  mUpdates : GraphView
  mTopicParameterEventsKey : PrimaryKey
  mTopicRosoutKey : PrimaryKey

/-- What other threads see of a stored element: whose it is, and its use counter. -/
structure Header where
  mPrimaryKey : PrimaryKey
  useCounter : AtomicCounter
  deriving DecidableEq, Repr

namespace DoubleLinkedList

variable {T : Type} [Stored T] {l l' : DoubleLinkedList T} {a : Nat}

def Data.header (d : Data T) : Header := ⟨Stored.mPrimaryKey d.inst, d.useCounter⟩

def header (l : DoubleLinkedList T) (it : Nat) : Option Header := (l.data it).map Data.header

theorem header_update {v : Option (Data T)} (h : l'.data = Function.update l.data a v) :
    l'.header = Function.update l.header a (v.map Data.header) := by
  show Option.map Data.header ∘ l'.data = _
  rw [h, Function.comp_update]
  rfl

theorem header_eq_none : l.header a = none ↔ l.heap a = none := by
  rw [header, Option.map_eq_none_iff, data_eq_none]

theorem header_modify_counter {f : AtomicCounter → AtomicCounter}
    (h : l.modify a (fun d => { d with useCounter := f d.useCounter }) = some l') :
    ∃ e, l.header a = some e ∧
      l'.header = Function.update l.header a (some { e with useCounter := f e.useCounter }) := by
  obtain ⟨⟨d, hd, hdata⟩, _⟩ := modify_spec h
  exact ⟨Data.header d, by simp [header, hd], by rw [header_update hdata]; rfl⟩

/-- A write to the object of an element that leaves its key alone shows no one anything new. -/
theorem header_modify_inst {g : T → T} (hg : ∀ t, Stored.mPrimaryKey (g t) = Stored.mPrimaryKey t)
    (h : l.modify a (fun d => { d with inst := g d.inst }) = some l') : l'.header = l.header := by
  obtain ⟨⟨d, hd, hdata⟩, _⟩ := modify_spec h
  have hself : some (Data.header { d with inst := g d.inst }) = l.header a := by
    simp [header, hd, Data.header, hg]
  rw [header_update hdata, Option.map_some, hself, Function.update_eq_self]

/-- What a defined search by key says about the headers. -/
theorem find_header {primary : PrimaryKey} {it : Option Nat} (hr : ∃ xs, l.Rep xs)
    (h : l.find primary = some it) :
    (∀ a, it = some a → ∃ e, l.header a = some e ∧ e.mPrimaryKey = primary) ∧
      (it = none → ∀ a e, l.header a = some e → e.mPrimaryKey ≠ primary) := by
  obtain ⟨xs, hx⟩ := hr
  have hfind := hx.findFrom h
  refine ⟨fun a ha => ?_, fun hnone a e he hk => ?_⟩
  · have hp := List.find?_some (hfind.symm.trans ha)
    simp only [holds, Option.any_eq_true] at hp
    obtain ⟨d, hd, hk⟩ := hp
    exact ⟨Data.header d, by simp [header, hd], by simpa [Data.header] using hk⟩
  · obtain ⟨d, hd, rfl⟩ := Option.map_eq_some_iff.mp he
    have hmem : a ∈ xs := (hx.live a).mp (fun h0 => by
      rw [data_eq_none.mpr h0] at hd; cases hd)
    have := List.find?_eq_none.mp (hfind.symm.trans hnone) a hmem
    simp only [holds, hd, Option.any_some, beq_iff_eq] at this
    exact this hk

/-- The object an iterator leads to, as a pointer to a `Member`. -/
def member (l : DoubleLinkedList T) (it : Nat) : Option Member :=
  (l.data it).map fun d => ⟨⟨Stored.mIsTopic T, it⟩, Stored.mIsTopic T, Stored.mPrimaryKey d.inst⟩

/-- The object a search stopped at, if it did not reach `end()`. -/
def found (l : DoubleLinkedList T) (it : Option (Option Nat)) : Option (Option Member) :=
  it.bind fun
    | none => some none
    | some a => (l.member a).map some

end DoubleLinkedList

/-- The public lookups. -/
inductive Query where
  | getNode (primary : PrimaryKey)
  | getNodeByName (name : String)
  | getTopic (primary : PrimaryKey)
  | getTopicByName (name : String)
  deriving DecidableEq, Repr

def Query.get (proxy : MemberProxy) : Query :=
  if proxy.mIsTopic then .getTopic proxy.mPrimaryKey else .getNode proxy.mPrimaryKey

namespace DataStore

/-- The state after the constructor, which asks for the keys of the two ignored topics. -/
def new (parameterEventsKey rosoutKey : PrimaryKey) : DataStore :=
  ⟨.new, .new, [], parameterEventsKey, rosoutKey⟩

def checkTopicPrimaryIgnored (s : DataStore) (member : PrimaryKey) : Bool :=
  member == s.mTopicParameterEventsKey || member == s.mTopicRosoutKey

/-! Elements and their counters. -/

def header (s : DataStore) (r : Ref) : Option Header :=
  if r.isTopic then s.mTopics.header r.addr else s.mNodes.header r.addr

def counter (s : DataStore) (r : Ref) : Option AtomicCounter := (s.header r).map Header.useCounter

/-- The element is in `mNodes` or `mTopics`. -/
def stores (s : DataStore) (r : Ref) : Bool :=
  if r.isTopic then (s.mTopics.heap r.addr).isSome else (s.mNodes.heap r.addr).isSome

/-- A method call on the counter of an element. -/
def access (r : Ref) (f : AtomicCounter → AtomicCounter) (s : DataStore) : Option DataStore :=
  if r.isTopic then
    (s.mTopics.modify r.addr (fun d => { d with useCounter := f d.useCounter })).map
      fun l => { s with mTopics := l }
  else
    (s.mNodes.modify r.addr (fun d => { d with useCounter := f d.useCounter })).map
      fun l => { s with mNodes := l }

/-! Lookups and requests. -/

/-- The search a lookup starts with. -/
def find (s : DataStore) : Query → Option (Option Member)
  | .getNode primary => s.mNodes.found (s.mNodes.find primary)
  | .getNodeByName name => s.mNodes.found (s.mNodes.findName name)
  | .getTopic primary => s.mTopics.found (s.mTopics.find primary)
  | .getTopicByName name => s.mTopics.found (s.mTopics.findName name)

/-- The part of `requestNode` inside the lock. -/
def emplaceNode (s : DataStore) (response : NodeResponse) (requestId : RequestId) :
    Option (DataStore × Member) := do
  let (l, node) ← s.mNodes.emplaceBack (.ofResponse response) requestId
  pure ({ s with mNodes := l }, ⟨⟨false, node⟩, false, response.primaryKey⟩)

/-- The part of `requestTopic` inside the lock. -/
def emplaceTopic (s : DataStore) (response : TopicResponse) (requestId : RequestId) :
    Option (DataStore × Member) := do
  let (l, topic) ← s.mTopics.emplaceBack (.ofResponse response) requestId
  pure ({ s with mTopics := l }, ⟨⟨true, topic⟩, true, response.primaryKey⟩)

/-- `Member::addAttributeSource`, on the element a request appended. -/
def addAttributeSource (s : DataStore) (r : Ref) (attr : Attribute) : Option DataStore :=
  if r.isTopic then
    (s.mTopics.modify r.addr (fun d => { d with inst := Stored.addAttribute d.inst attr })).map
      fun l => { s with mTopics := l }
  else
    (s.mNodes.modify r.addr (fun d => { d with inst := Stored.addAttribute d.inst attr })).map
      fun l => { s with mNodes := l }

/-! `DataStore::run`. -/

/-- `mNodes.begin()` or `mTopics.begin()`. -/
def begin (s : DataStore) (isTopic : Bool) : Option Nat :=
  if isTopic then s.mTopics.mBegin else s.mNodes.mBegin

/-- Where `++it` leads. -/
def next (s : DataStore) (r : Ref) : Option (Option Nat) :=
  if r.isTopic then (s.mTopics.heap r.addr).map Element.mNext
  else (s.mNodes.heap r.addr).map Element.mNext

def erase (s : DataStore) (r : Ref) : Option (DataStore × Option Nat) :=
  if r.isTopic then (s.mTopics.erase r.addr).map fun p => ({ s with mTopics := p.1 }, p.2)
  else (s.mNodes.erase r.addr).map fun p => ({ s with mNodes := p.1 }, p.2)

/-- `find(primaryKey)`, in the list of the members the update is for. -/
def findUpdated (s : DataStore) : Update → Option (Option Nat)
  | .node u => s.mNodes.find u.primaryKey
  | .topic u => s.mTopics.find u.primaryKey

/-- `it->instance.update(…)` -/
def update (s : DataStore) (it : Nat) : Update → Option DataStore
  | .node u => (s.mNodes.modify it (fun d => { d with inst := d.inst.update u })).map
    fun l => { s with mNodes := l }
  | .topic u => (s.mTopics.modify it (fun d => { d with inst := d.inst.update u })).map
    fun l => { s with mTopics := l }

/-- What the three functions below share: extend the entry of the affected member, or append one. -/
def addUpdate : GraphView → MemberProxy → MemberProxy → GraphView
  | [], affected, other => [⟨affected, [other]⟩]
  | element :: rest, affected, other =>
    if element.member.mPrimaryKey == affected.mPrimaryKey then
      { element with connections := element.connections ++ [other] } :: rest
    else element :: addUpdate rest affected other

def addSubUpdate (s : DataStore) (affected other : PrimaryKey) : DataStore :=
  { s with mUpdates := addUpdate s.mUpdates ⟨affected, false⟩ ⟨other, true⟩ }

def addSendUpdate (s : DataStore) (affected other : PrimaryKey) : DataStore :=
  { s with mUpdates := addUpdate s.mUpdates ⟨affected, false⟩ ⟨other, false⟩ }

def addPubUpdate (s : DataStore) (affected other : PrimaryKey) : DataStore :=
  { s with mUpdates := addUpdate s.mUpdates ⟨affected, true⟩ ⟨other, false⟩ }

/-- The update is queued for the graph, if it tells of an incoming connection. -/
def queue (s : DataStore) : Update → DataStore
  | .node (.subscribersTo primaryKey subscribesTo) => s.addSubUpdate primaryKey subscribesTo
  | .node (.isClientOf primaryKey _ serverNodeId) => s.addSendUpdate primaryKey serverNodeId
  | .node (.isActionClientOf primaryKey _ actionserverNodeId) =>
    s.addSendUpdate primaryKey actionserverNodeId
  | .topic (.publishers primaryKey _ publisher) => s.addPubUpdate primaryKey publisher
  | _ => s

def getUpdates (s : DataStore) : DataStore × GraphView := ({ s with mUpdates := [] }, s.mUpdates)

/-- The value of an element's counter. -/
def useCount (s : DataStore) (r : Ref) : Option Nat := (s.counter r).map AtomicCounter.mValue

/-! What the operations do to the counters. -/

variable {s s' : DataStore} {r : Ref}

/-- Both lists are well shaped. -/
structure WellFormed (s : DataStore) : Prop where
  nodes : ∃ xs, s.mNodes.Rep xs
  topics : ∃ xs, s.mTopics.Rep xs

theorem wellFormed_new (k k' : PrimaryKey) : (new k k').WellFormed :=
  ⟨⟨[], DoubleLinkedList.intact_new.rep⟩, ⟨[], DoubleLinkedList.intact_new.rep⟩⟩

@[simp] theorem header_new (k k' : PrimaryKey) : (new k k').header = fun _ => none := by
  funext r
  simp [header, new, DoubleLinkedList.header, DoubleLinkedList.data, DoubleLinkedList.dataOf,
    DoubleLinkedList.new]

theorem stores_iff : s.stores r = true ↔ s.header r ≠ none := by
  obtain ⟨isTopic, a⟩ := r
  cases isTopic with
  | false => simp [stores, header, DoubleLinkedList.header_eq_none, Option.isSome_iff_ne_none]
  | true => simp [stores, header, DoubleLinkedList.header_eq_none, Option.isSome_iff_ne_none]

theorem counter_eq_none : s.counter r = none ↔ s.header r = none := by
  rw [counter, Option.map_eq_none_iff]

theorem counter_update {v : Option Header} (h : s'.header = Function.update s.header r v) :
    s'.counter = Function.update s.counter r (v.map Header.useCounter) := by
  show Option.map Header.useCounter ∘ s'.header = _
  rw [h, Function.comp_update]
  rfl

theorem useCount_update {v : Option AtomicCounter} (h : s'.counter = Function.update s.counter r v) :
    s'.useCount = Function.update s.useCount r (v.map AtomicCounter.mValue) := by
  show Option.map AtomicCounter.mValue ∘ s'.counter = _
  rw [h, Function.comp_update]
  rfl

theorem header_setNodes {l : DoubleLinkedList Node} {a : Nat} {v : Option Header}
    (h : l.header = Function.update s.mNodes.header a v) :
    header { s with mNodes := l } = Function.update s.header ⟨false, a⟩ v := by
  funext r
  obtain ⟨isTopic, b⟩ := r
  cases isTopic with
  | true => simp [header]
  | false =>
    by_cases hb : b = a
    · subst hb; simp [header, h]
    · simp [header, h, hb]

theorem header_setTopics {l : DoubleLinkedList Topic} {a : Nat} {v : Option Header}
    (h : l.header = Function.update s.mTopics.header a v) :
    header { s with mTopics := l } = Function.update s.header ⟨true, a⟩ v := by
  funext r
  obtain ⟨isTopic, b⟩ := r
  cases isTopic with
  | false => simp [header]
  | true =>
    by_cases hb : b = a
    · subst hb; simp [header, h]
    · simp [header, h, hb]

theorem header_congr_nodes {l : DoubleLinkedList Node} (h : l.header = s.mNodes.header) :
    header { s with mNodes := l } = s.header := by
  funext r
  simp [header, h]

theorem header_congr_topics {l : DoubleLinkedList Topic} (h : l.header = s.mTopics.header) :
    header { s with mTopics := l } = s.header := by
  funext r
  simp [header, h]

theorem WellFormed.setNodes {l : DoubleLinkedList Node} {xs : List Nat} (h : s.WellFormed)
    (hl : l.Rep xs) : WellFormed { s with mNodes := l } := ⟨⟨xs, hl⟩, h.topics⟩

theorem WellFormed.setTopics {l : DoubleLinkedList Topic} {xs : List Nat} (h : s.WellFormed)
    (hl : l.Rep xs) : WellFormed { s with mTopics := l } := ⟨h.nodes, ⟨xs, hl⟩⟩

theorem access_spec {f : AtomicCounter → AtomicCounter} (h : s.access r f = some s') :
    (∃ c, s.counter r = some c ∧ s'.counter = Function.update s.counter r (some (f c))) ∧
      (s.WellFormed → s'.WellFormed) := by
  obtain ⟨isTopic, a⟩ := r
  cases isTopic with
  | false =>
    obtain ⟨l, hl, rfl⟩ := Option.map_eq_some_iff.mp h
    obtain ⟨e, he, hl'⟩ := DoubleLinkedList.header_modify_counter hl
    exact ⟨⟨e.useCounter, by simp [counter, header, he], counter_update (header_setNodes hl')⟩,
      fun hw => hw.nodes.elim fun _ hx => hw.setNodes (hx.modify hl)⟩
  | true =>
    obtain ⟨l, hl, rfl⟩ := Option.map_eq_some_iff.mp h
    obtain ⟨e, he, hl'⟩ := DoubleLinkedList.header_modify_counter hl
    exact ⟨⟨e.useCounter, by simp [counter, header, he], counter_update (header_setTopics hl')⟩,
      fun hw => hw.topics.elim fun _ hx => hw.setTopics (hx.modify hl)⟩

theorem addAttributeSource_spec {attr : Attribute} (h : s.addAttributeSource r attr = some s') :
    s'.header = s.header ∧ (s.WellFormed → s'.WellFormed) := by
  obtain ⟨isTopic, a⟩ := r
  cases isTopic with
  | false =>
    obtain ⟨l, hl, rfl⟩ := Option.map_eq_some_iff.mp h
    exact ⟨header_congr_nodes (DoubleLinkedList.header_modify_inst
      (g := fun t => Stored.addAttribute t attr) (fun _ => rfl) hl),
      fun hw => hw.nodes.elim fun _ hx => hw.setNodes (hx.modify hl)⟩
  | true =>
    obtain ⟨l, hl, rfl⟩ := Option.map_eq_some_iff.mp h
    exact ⟨header_congr_topics (DoubleLinkedList.header_modify_inst
      (g := fun t => Stored.addAttribute t attr) (fun _ => rfl) hl),
      fun hw => hw.topics.elim fun _ hx => hw.setTopics (hx.modify hl)⟩

/-- An update changes an object, and neither whose it is nor how it is used. -/
theorem update_spec {u : Update} {it : Nat} (h : s.update it u = some s') :
    s'.header = s.header ∧ (s.WellFormed → s'.WellFormed) := by
  cases u with
  | node u =>
    obtain ⟨l, hl, rfl⟩ := Option.map_eq_some_iff.mp h
    exact ⟨header_congr_nodes (DoubleLinkedList.header_modify_inst
      (g := fun t : Node => t.update u) (fun t => t.update_mPrimaryKey u) hl),
      fun hw => hw.nodes.elim fun _ hx => hw.setNodes (hx.modify hl)⟩
  | topic u =>
    obtain ⟨l, hl, rfl⟩ := Option.map_eq_some_iff.mp h
    exact ⟨header_congr_topics (DoubleLinkedList.header_modify_inst
      (g := fun t : Topic => t.update u) (fun t => t.update_mPrimaryKey u) hl),
      fun hw => hw.topics.elim fun _ hx => hw.setTopics (hx.modify hl)⟩

/-- Queueing an update touches no element. -/
theorem queue_spec (s : DataStore) (u : Update) :
    (s.queue u).header = s.header ∧ (s.WellFormed → (s.queue u).WellFormed) := by
  cases u with
  | node u => cases u <;> exact ⟨rfl, fun h => ⟨h.nodes, h.topics⟩⟩
  | topic u => cases u <;> exact ⟨rfl, fun h => ⟨h.nodes, h.topics⟩⟩

/-- A request appends an element that was not there, with its counter at 1. -/
theorem emplaceNode_spec {response : NodeResponse} {requestId : RequestId} {m : Member}
    (h : s.emplaceNode response requestId = some (s', m)) (hw : s.WellFormed) :
    s.header m.ref = none ∧
      s'.header = Function.update s.header m.ref (some ⟨response.primaryKey, ⟨1⟩⟩) ∧
      m.ref.isTopic = false ∧ s'.WellFormed := by
  simp only [emplaceNode, Option.bind_eq_bind, Option.bind_eq_some_iff, Option.pure_def,
    Option.some.injEq, Prod.mk.injEq] at h
  obtain ⟨⟨l, a⟩, hl, rfl, rfl⟩ := h
  obtain ⟨xs, hx⟩ := hw.nodes
  obtain ⟨ha, _, _, hdata, _⟩ := DoubleLinkedList.emplaceBack_spec hl
  refine ⟨?_, header_setNodes (DoubleLinkedList.header_update hdata), rfl,
    hw.setNodes (hx.emplaceBack hl)⟩
  exact DoubleLinkedList.header_eq_none.mpr (ha ▸ hx.heap_fresh)

theorem emplaceTopic_spec {response : TopicResponse} {requestId : RequestId} {m : Member}
    (h : s.emplaceTopic response requestId = some (s', m)) (hw : s.WellFormed) :
    s.header m.ref = none ∧
      s'.header = Function.update s.header m.ref (some ⟨response.primaryKey, ⟨1⟩⟩) ∧
      m.ref.isTopic = true ∧ s'.WellFormed := by
  simp only [emplaceTopic, Option.bind_eq_bind, Option.bind_eq_some_iff, Option.pure_def,
    Option.some.injEq, Prod.mk.injEq] at h
  obtain ⟨⟨l, a⟩, hl, rfl, rfl⟩ := h
  obtain ⟨xs, hx⟩ := hw.topics
  obtain ⟨ha, _, _, hdata, _⟩ := DoubleLinkedList.emplaceBack_spec hl
  refine ⟨?_, header_setTopics (DoubleLinkedList.header_update hdata), rfl,
    hw.setTopics (hx.emplaceBack hl)⟩
  exact DoubleLinkedList.header_eq_none.mpr (ha ▸ hx.heap_fresh)

theorem erase_spec {n : Option Nat} (h : s.erase r = some (s', n)) :
    s'.header = Function.update s.header r none ∧ (s.WellFormed → s'.WellFormed) := by
  obtain ⟨isTopic, a⟩ := r
  cases isTopic with
  | false =>
    obtain ⟨⟨l, n'⟩, hl, hs⟩ := Option.map_eq_some_iff.mp h
    cases hs
    obtain ⟨_, _, hdata, _⟩ := DoubleLinkedList.erase_spec hl
    exact ⟨header_setNodes (DoubleLinkedList.header_update hdata),
      fun hw => hw.nodes.elim fun _ hx => hw.setNodes (hx.erase hl)⟩
  | true =>
    obtain ⟨⟨l, n'⟩, hl, hs⟩ := Option.map_eq_some_iff.mp h
    cases hs
    obtain ⟨_, _, hdata, _⟩ := DoubleLinkedList.erase_spec hl
    exact ⟨header_setTopics (DoubleLinkedList.header_update hdata),
      fun hw => hw.topics.elim fun _ hx => hw.setTopics (hx.erase hl)⟩

/-- A search for an update that is defined finds an element with its key if there is one. -/
theorem findUpdated_spec {u : Update} {it : Option Nat} (hw : s.WellFormed)
    (h : s.findUpdated u = some it) :
    (∀ a, it = some a → ∃ e, s.header ⟨u.isTopic, a⟩ = some e ∧ e.mPrimaryKey = u.primaryKey) ∧
      (it = none → ∀ a e, s.header ⟨u.isTopic, a⟩ = some e → e.mPrimaryKey ≠ u.primaryKey) := by
  cases u with
  | node u => exact DoubleLinkedList.find_header hw.nodes h
  | topic u => exact DoubleLinkedList.find_header hw.topics h

/-! Stores of which no first or last element was erased. -/

/-- Both lists lead from their first element to their last. -/
structure Intact (s : DataStore) : Prop where
  nodes : ∃ xs, s.mNodes.Intact xs
  topics : ∃ xs, s.mTopics.Intact xs

theorem intact_new (k k' : PrimaryKey) : (new k k').Intact :=
  ⟨⟨[], DoubleLinkedList.intact_new⟩, ⟨[], DoubleLinkedList.intact_new⟩⟩

theorem Intact.wellFormed (h : s.Intact) : s.WellFormed :=
  ⟨h.nodes.imp fun _ hx => hx.rep, h.topics.imp fun _ hx => hx.rep⟩

theorem Intact.of_emplaceNode {response : NodeResponse} {requestId : RequestId} {m : Member}
    (h : s.Intact) (hs : s.emplaceNode response requestId = some (s', m)) : s'.Intact := by
  simp only [emplaceNode, Option.bind_eq_bind, Option.bind_eq_some_iff, Option.pure_def,
    Option.some.injEq, Prod.mk.injEq] at hs
  obtain ⟨⟨l, a⟩, hl, rfl, _⟩ := hs
  exact ⟨h.nodes.elim fun xs hx => ⟨_, hx.emplaceBack hl⟩, h.topics⟩

theorem Intact.of_emplaceTopic {response : TopicResponse} {requestId : RequestId} {m : Member}
    (h : s.Intact) (hs : s.emplaceTopic response requestId = some (s', m)) : s'.Intact := by
  simp only [emplaceTopic, Option.bind_eq_bind, Option.bind_eq_some_iff, Option.pure_def,
    Option.some.injEq, Prod.mk.injEq] at hs
  obtain ⟨⟨l, a⟩, hl, rfl, _⟩ := hs
  exact ⟨h.nodes, h.topics.elim fun xs hx => ⟨_, hx.emplaceBack hl⟩⟩

/-- Then the element of a response can be appended. -/
theorem Intact.emplaceNode_defined (h : s.Intact) (response : NodeResponse) (requestId : RequestId) :
    ∃ s', s.emplaceNode response requestId =
      some (s', ⟨⟨false, s.mNodes.fresh⟩, false, response.primaryKey⟩) := by
  obtain ⟨xs, hx⟩ := h.nodes
  obtain ⟨l, hl⟩ := DoubleLinkedList.emplaceBack_defined hx.rep hx.end_eq (.ofResponse response) requestId
  refine ⟨{ s with mNodes := l }, ?_⟩
  rw [emplaceNode, hl]
  rfl

theorem Intact.emplaceTopic_defined (h : s.Intact) (response : TopicResponse) (requestId : RequestId) :
    ∃ s', s.emplaceTopic response requestId =
      some (s', ⟨⟨true, s.mTopics.fresh⟩, true, response.primaryKey⟩) := by
  obtain ⟨xs, hx⟩ := h.topics
  obtain ⟨l, hl⟩ := DoubleLinkedList.emplaceBack_defined hx.rep hx.end_eq (.ofResponse response) requestId
  refine ⟨{ s with mTopics := l }, ?_⟩
  rw [emplaceTopic, hl]
  rfl

end DataStore

end StreamFdl
