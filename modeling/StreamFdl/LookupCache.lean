import StreamFdl.MessageFolds

/- The public lookups as a cache of the members, issued one after another. A
   lookup by key searches by key and requests what it does not find. A lookup by
   name searches by the names the server reported, asks the server for the key
   of a name it does not find, and requests that key without another search. So
   a member whose key was already stored is stored again when a name that is not
   its own resolves to it. The keys stay distinct, and all handles with one key
   lead to one element, exactly when no answer to a search names a stored member. -/
namespace StreamFdl
open Runs

/-- What the server answers during one lookup. A member response echoes the key that was asked for; a
    search response holds any key, or the empty one. -/
structure Server where
  search : (isTopic : Bool) → String → PrimaryKey
  node : PrimaryKey → NodeResponse × RequestId
  topic : PrimaryKey → TopicResponse × RequestId
  attributes : PrimaryKey → Attribute
  nodeEcho : ∀ primary, (node primary).1.primaryKey = primary
  topicEcho : ∀ primary, (topic primary).1.primaryKey = primary

namespace DataStore

def requestNode (s : DataStore) (server : Server) (primary : PrimaryKey) : Option (DataStore × MemberPtr) := do
  let (response, requestId) := server.node primary
  let (s, node) ← s.emplaceNode response requestId
  let s ← s.addAttributeSource node.ref (server.attributes node.mPrimaryKey)
  pure (s, .make node)

def requestTopic (s : DataStore) (server : Server) (primary : PrimaryKey) : Option (DataStore × MemberPtr) := do
  let (response, requestId) := server.topic primary
  let (s, topic) ← s.emplaceTopic response requestId
  let s ← s.addAttributeSource topic.ref (server.attributes topic.mPrimaryKey)
  pure (s, .make topic)

def getNode (s : DataStore) (server : Server) (primary : PrimaryKey) : Option (DataStore × MemberPtr) := do
  match ← s.find (.getNode primary) with
  | some it => pure (s, .make it)
  | none => s.requestNode server primary

def getNodeByName (s : DataStore) (server : Server) (name : String) : Option (DataStore × MemberPtr) := do
  match ← s.find (.getNodeByName name) with
  | some it => pure (s, .make it)
  | none =>
    let primaryKey := server.search false name
    if primaryKey.isEmpty then pure (s, .null) else s.requestNode server primaryKey

def getTopic (s : DataStore) (server : Server) (primary : PrimaryKey) : Option (DataStore × MemberPtr) := do
  match ← s.find (.getTopic primary) with
  | some it => pure (s, .make it)
  | none => s.requestTopic server primary

def getTopicByName (s : DataStore) (server : Server) (name : String) : Option (DataStore × MemberPtr) := do
  match ← s.find (.getTopicByName name) with
  | some it => pure (s, .make it)
  | none =>
    let primaryKey := server.search true name
    if primaryKey.isEmpty then pure (s, .null) else s.requestTopic server primaryKey

def lookup (s : DataStore) (server : Server) : Query → Option (DataStore × MemberPtr)
  | .getNode primary => s.getNode server primary
  | .getNodeByName name => s.getNodeByName server name
  | .getTopic primary => s.getTopic server primary
  | .getTopicByName name => s.getTopicByName server name

end DataStore

/-- A run of lookups: the store, and the handles returned so far. -/
structure LookupState where
  store : DataStore
  returned : List MemberPtr

/-- A call, and how the server answers during it. -/
structure Call where
  query : Query
  server : Server

namespace LookupState

def new (parameterEventsKey rosoutKey : PrimaryKey) : LookupState := ⟨.new parameterEventsKey rosoutKey, []⟩

def step (s : LookupState) (call : Call) : Option LookupState :=
  (s.store.lookup call.server call.query).map fun r => ⟨r.1, s.returned ++ [r.2]⟩

/-- Each member is stored once, and the handles of one member lead to one element. -/
structure CachedOnce (s : LookupState) : Prop where
  unique : s.store.KeysUnique
  same : ∀ p ∈ s.returned, ∀ q ∈ s.returned, ∀ m m', p.mpMember = some m → q.mpMember = some m' →
    m.mIsTopic = m'.mIsTopic → m.mPrimaryKey = m'.mPrimaryKey → m.ref = m'.ref

end LookupState

namespace Query

def isTopic : Query → Bool
  | getNode _ | getNodeByName _ => false
  | getTopic _ | getTopicByName _ => true

/-- The key that is requested when the search finds nothing; empty if nothing is. -/
def requested (server : Server) : Query → PrimaryKey
  | getNode primary | getTopic primary => primary
  | getNodeByName name => server.search false name
  | getTopicByName name => server.search true name

def byName : Query → Bool
  | getNodeByName _ | getTopicByName _ => true
  | getNode _ | getTopic _ => false

end Query

namespace LookupState

/-- A lookup by name that is not answered from the store is not resolved to a stored member. -/
def ResolvesNew (s : LookupState) (call : Call) : Prop :=
  call.query.byName = true → s.store.find call.query = some none →
    (call.query.requested call.server).isEmpty = false →
    ∀ a e, s.store.header ⟨call.query.isTopic, a⟩ = some e →
      e.mPrimaryKey ≠ call.query.requested call.server

end LookupState

/-! Searches. -/

namespace DoubleLinkedList

variable {T : Type} [Stored T] {l : DoubleLinkedList T} {xs : List Nat}

/-- A search of a list that is intact stops at an element it is looking for, if there is one. -/
theorem Intact.found (h : l.Intact xs) (p : T → Bool) :
    ∃ r, l.found (l.findFrom p l.fresh l.mBegin) = some r ∧
      (∀ m, r = some m → m.ref.isTopic = Stored.mIsTopic T ∧ m.mIsTopic = Stored.mIsTopic T ∧
        ∃ e, l.header m.ref.addr = some e ∧ e.mPrimaryKey = m.mPrimaryKey) ∧
      (r = none → ∀ a d, l.data a = some d → p d.inst = false) := by
  rw [h.findFrom p]
  cases hfind : xs.find? (l.holds p) with
  | none =>
    refine ⟨none, rfl, fun m hm => (by cases hm), fun _ a d hd => ?_⟩
    have hlive : a ∈ xs := by
      rw [← h.rep.live, ← data_eq_none.ne, hd]
      exact Option.some_ne_none d
    have hholds := List.find?_eq_none.mp hfind a hlive
    rw [holds, hd, Option.any_some, Bool.not_eq_true] at hholds
    exact hholds
  | some a =>
    have hholds := List.find?_some hfind
    rw [holds, Option.any_eq_true] at hholds
    obtain ⟨d, hd, _⟩ := hholds
    have hmember : l.member a =
        some ⟨⟨Stored.mIsTopic T, a⟩, Stored.mIsTopic T, Stored.mPrimaryKey d.inst⟩ := by
      rw [member, hd, Option.map_some]
    refine ⟨_, congrArg (Option.map some) hmember, fun m hm => ?_, fun hnone => by cases hnone⟩
    cases hm
    exact ⟨rfl, rfl, Data.header d, by rw [header, hd, Option.map_some], rfl⟩

end DoubleLinkedList

namespace DataStore

variable {s s' : DataStore} {server : Server} {primary : PrimaryKey} {query : Query} {m : Member}

/-- The member is stored where the pointer leads. -/
structure Has (s : DataStore) (m : Member) : Prop where
  kind : m.mIsTopic = m.ref.isTopic
  here : ∃ e, s.header m.ref = some e ∧ e.mPrimaryKey = m.mPrimaryKey

theorem has_node (h : m.ref.isTopic = false ∧ m.mIsTopic = false ∧
    ∃ e, s.mNodes.header m.ref.addr = some e ∧ e.mPrimaryKey = m.mPrimaryKey) : s.Has m := by
  obtain ⟨href, hkind, e, he, hkey⟩ := h
  refine ⟨hkind.trans href.symm, e, ?_, hkey⟩
  rw [header, href]
  exact he

theorem has_topic (h : m.ref.isTopic = true ∧ m.mIsTopic = true ∧
    ∃ e, s.mTopics.header m.ref.addr = some e ∧ e.mPrimaryKey = m.mPrimaryKey) : s.Has m := by
  obtain ⟨href, hkind, e, he, hkey⟩ := h
  refine ⟨hkind.trans href.symm, e, ?_, hkey⟩
  rw [header, href]
  exact he

/-- The search of a lookup: what it finds is stored, and a search by key misses no member with it. -/
theorem Intact.find_spec (h : s.Intact) (server : Server) (query : Query) : ∃ r, s.find query = some r ∧
    (∀ m, r = some m → s.Has m) ∧
    (r = none → query.byName = false → ∀ a e, s.header ⟨query.isTopic, a⟩ = some e →
      e.mPrimaryKey ≠ query.requested server) := by
  obtain ⟨⟨xs, hx⟩, ⟨ys, hy⟩⟩ := h
  cases query with
  | getNode primary =>
    obtain ⟨r, hr, hsome, hnone⟩ := hx.found fun t => Stored.mPrimaryKey t == primary
    refine ⟨r, hr, fun m hm => has_node (hsome m hm), fun hmiss _ a e he => ?_⟩
    obtain ⟨d, hd, rfl⟩ := Option.map_eq_some_iff.mp he
    exact beq_eq_false_iff_ne.mp (hnone hmiss a d hd)
  | getNodeByName name =>
    obtain ⟨r, hr, hsome, _⟩ := hx.found fun t => Stored.mName t == name
    exact ⟨r, hr, fun m hm => has_node (hsome m hm), fun _ hname => (by cases hname)⟩
  | getTopic primary =>
    obtain ⟨r, hr, hsome, hnone⟩ := hy.found fun t => Stored.mPrimaryKey t == primary
    refine ⟨r, hr, fun m hm => has_topic (hsome m hm), fun hmiss _ a e he => ?_⟩
    obtain ⟨d, hd, rfl⟩ := Option.map_eq_some_iff.mp he
    exact beq_eq_false_iff_ne.mp (hnone hmiss a d hd)
  | getTopicByName name =>
    obtain ⟨r, hr, hsome, _⟩ := hy.found fun t => Stored.mName t == name
    exact ⟨r, hr, fun m hm => has_topic (hsome m hm), fun _ hname => (by cases hname)⟩

/-! Requests. -/

/-- What a request leaves: a new element with the key that was asked for. -/
structure Requested (s s' : DataStore) (isTopic : Bool) (primary : PrimaryKey) (m : Member) : Prop where
  intact : s'.Intact
  missing : s.header m.ref = none
  header : s'.header = Function.update s.header m.ref (some ⟨primary, ⟨1⟩⟩)
  kind : m.ref.isTopic = isTopic
  has : s'.Has m
  key : m.mPrimaryKey = primary

/-- An attribute can be added to an element that is stored. -/
theorem Intact.addAttributeSource (h : s.Intact) {r : Ref} (hr : s.header r ≠ none) (attr : Attribute) :
    ∃ s', s.addAttributeSource r attr = some s' ∧ s'.Intact ∧ s'.header = s.header := by
  obtain ⟨⟨xs, hx⟩, ⟨ys, hy⟩⟩ := h
  obtain ⟨isTopic, a⟩ := r
  cases isTopic with
  | false =>
    have hlive : a ∈ xs := (hx.rep.live a).mp (DoubleLinkedList.header_eq_none.ne.mp hr)
    obtain ⟨l, hl⟩ := DoubleLinkedList.modify_defined hx.rep hlive fun d =>
      { d with inst := Stored.addAttribute d.inst attr }
    have hs : s.addAttributeSource ⟨false, a⟩ attr = some { s with mNodes := l } :=
      Option.map_eq_some_iff.mpr ⟨l, hl, rfl⟩
    exact ⟨_, hs, ⟨⟨xs, hx.modify hl⟩, ⟨ys, hy⟩⟩, (addAttributeSource_spec hs).1⟩
  | true =>
    have hlive : a ∈ ys := (hy.rep.live a).mp (DoubleLinkedList.header_eq_none.ne.mp hr)
    obtain ⟨l, hl⟩ := DoubleLinkedList.modify_defined hy.rep hlive fun d =>
      { d with inst := Stored.addAttribute d.inst attr }
    have hs : s.addAttributeSource ⟨true, a⟩ attr = some { s with mTopics := l } :=
      Option.map_eq_some_iff.mpr ⟨l, hl, rfl⟩
    exact ⟨_, hs, ⟨⟨xs, hx⟩, ⟨ys, hy.modify hl⟩⟩, (addAttributeSource_spec hs).1⟩

theorem Intact.requestNode (h : s.Intact) (server : Server) (primary : PrimaryKey) :
    ∃ s' m, s.requestNode server primary = some (s', .make m) ∧ Requested s s' false primary m := by
  obtain ⟨s₁, hs₁⟩ := h.emplaceNode_defined (server.node primary).1 (server.node primary).2
  obtain ⟨hnone, hheader, _, _⟩ := emplaceNode_spec hs₁ h.wellFormed
  rw [server.nodeEcho] at hheader
  have hhere : s₁.header ⟨false, s.mNodes.fresh⟩ = some ⟨primary, ⟨1⟩⟩ := by
    rw [hheader, Function.update_self]
  obtain ⟨s₂, hs₂, hintact, hsame⟩ := (h.of_emplaceNode hs₁).addAttributeSource
    (hhere ▸ Option.some_ne_none _) (server.attributes (server.node primary).1.primaryKey)
  refine ⟨s₂, _, ?_, hintact, hnone, hsame.trans hheader, rfl, ⟨rfl, _, hsame ▸ hhere, ?_⟩, server.nodeEcho primary⟩
  · simp only [DataStore.requestNode, hs₁, Option.bind_eq_bind, Option.bind_some, hs₂, Option.pure_def]
  · exact (server.nodeEcho primary).symm

theorem Intact.requestTopic (h : s.Intact) (server : Server) (primary : PrimaryKey) :
    ∃ s' m, s.requestTopic server primary = some (s', .make m) ∧ Requested s s' true primary m := by
  obtain ⟨s₁, hs₁⟩ := h.emplaceTopic_defined (server.topic primary).1 (server.topic primary).2
  obtain ⟨hnone, hheader, _, _⟩ := emplaceTopic_spec hs₁ h.wellFormed
  rw [server.topicEcho] at hheader
  have hhere : s₁.header ⟨true, s.mTopics.fresh⟩ = some ⟨primary, ⟨1⟩⟩ := by
    rw [hheader, Function.update_self]
  obtain ⟨s₂, hs₂, hintact, hsame⟩ := (h.of_emplaceTopic hs₁).addAttributeSource
    (hhere ▸ Option.some_ne_none _) (server.attributes (server.topic primary).1.primaryKey)
  refine ⟨s₂, _, ?_, hintact, hnone, hsame.trans hheader, rfl, ⟨rfl, _, hsame ▸ hhere, ?_⟩, server.topicEcho primary⟩
  · simp only [DataStore.requestTopic, hs₁, Option.bind_eq_bind, Option.bind_some, hs₂, Option.pure_def]
  · exact (server.topicEcho primary).symm

/-- The three ways a lookup can go. -/
inductive Outcome (s : DataStore) (server : Server) (query : Query) : DataStore → MemberPtr → Prop where
  | hit (m : Member) (has : s.Has m) (found : s.find query = some (some m)) : Outcome s server query s (.make m)
  | unresolved (missed : s.find query = some none) (byName : query.byName = true)
      (empty : (query.requested server).isEmpty = true) : Outcome s server query s .null
  | requests (s' : DataStore) (m : Member) (missed : s.find query = some none)
      (resolved : query.byName = true → (query.requested server).isEmpty = false)
      (requested : Requested s s' query.isTopic (query.requested server) m) :
      Outcome s server query s' (.make m)

theorem Intact.lookup (h : s.Intact) (server : Server) (query : Query) :
    ∃ s' p, s.lookup server query = some (s', p) ∧ Outcome s server query s' p := by
  obtain ⟨r, hr, hsome, _⟩ := h.find_spec server query
  cases r with
  | some m =>
    refine ⟨s, .make m, ?_, .hit m (hsome m rfl) hr⟩
    cases query with
    | getNode _ => simp [DataStore.lookup, getNode, hr]
    | getNodeByName _ => simp [DataStore.lookup, getNodeByName, hr]
    | getTopic _ => simp [DataStore.lookup, getTopic, hr]
    | getTopicByName _ => simp [DataStore.lookup, getTopicByName, hr]
  | none =>
    cases query with
    | getNode primary =>
      obtain ⟨s', m, hs', hrequested⟩ := h.requestNode server primary
      refine ⟨s', .make m, ?_, .requests s' m hr (fun hname => by cases hname) hrequested⟩
      simp [DataStore.lookup, getNode, hr, hs']
    | getNodeByName name =>
      cases hempty : (server.search false name).isEmpty with
      | true => exact ⟨s, .null, by simp [DataStore.lookup, getNodeByName, hr, hempty], .unresolved hr rfl hempty⟩
      | false =>
        obtain ⟨s', m, hs', hrequested⟩ := h.requestNode server (server.search false name)
        refine ⟨s', .make m, ?_, .requests s' m hr (fun _ => hempty) hrequested⟩
        simp [DataStore.lookup, getNodeByName, hr, hempty, hs']
    | getTopic primary =>
      obtain ⟨s', m, hs', hrequested⟩ := h.requestTopic server primary
      refine ⟨s', .make m, ?_, .requests s' m hr (fun hname => by cases hname) hrequested⟩
      simp [DataStore.lookup, getTopic, hr, hs']
    | getTopicByName name =>
      cases hempty : (server.search true name).isEmpty with
      | true => exact ⟨s, .null, by simp [DataStore.lookup, getTopicByName, hr, hempty], .unresolved hr rfl hempty⟩
      | false =>
        obtain ⟨s', m, hs', hrequested⟩ := h.requestTopic server (server.search true name)
        refine ⟨s', .make m, ?_, .requests s' m hr (fun _ => hempty) hrequested⟩
        simp [DataStore.lookup, getTopicByName, hr, hempty, hs']

end DataStore

namespace LookupState

variable {s : LookupState} {call : Call}

/-- What a run keeps: every handle that was returned leads to its member. -/
structure Known (s : LookupState) : Prop where
  intact : s.store.Intact
  unique : s.store.KeysUnique
  has : ∀ p ∈ s.returned, ∀ m, p.mpMember = some m → s.store.Has m

theorem known_new (k k' : PrimaryKey) : (new k k').Known :=
  ⟨DataStore.intact_new k k', DataStore.keysUnique_new k k', fun p hp => (by cases hp)⟩

theorem Known.cachedOnce (h : s.Known) : s.CachedOnce := by
  refine ⟨h.unique, fun p hp q hq m m' hm hm' hkind hkey => ?_⟩
  obtain ⟨hmk, e, he, hek⟩ := h.has p hp m hm
  obtain ⟨hmk', e', he', hek'⟩ := h.has q hq m' hm'
  exact h.unique m.ref m'.ref e e' he he' (hmk.symm.trans (hkind.trans hmk')) (hek.trans (hkey.trans hek'.symm))

/-- Elements that were stored stay what they are. -/
theorem has_mono {store store' : DataStore} {m m' : Member} {e : Header} (h : store.Has m)
    (hnone : store.header m'.ref = none) (hs : store'.header = Function.update store.header m'.ref (some e)) :
    store'.Has m := by
  obtain ⟨hkind, e', he', hkey⟩ := h
  have hne : m.ref ≠ m'.ref := by
    intro heq
    rw [heq, hnone] at he'
    cases he'
  exact ⟨hkind, e', by rw [hs, Function.update_of_ne hne, he'], hkey⟩

theorem Known.step (h : s.Known) (hnew : s.ResolvesNew call) : ∃ t, s.step call = some t ∧ t.Known := by
  obtain ⟨store, p, hlookup, houtcome⟩ := h.intact.lookup call.server call.query
  refine ⟨⟨store, s.returned ++ [p]⟩, by rw [LookupState.step, hlookup]; rfl, ?_⟩
  have hreturned : ∀ (store : DataStore) (p : MemberPtr), (∀ q ∈ s.returned, ∀ m, q.mpMember = some m → store.Has m) →
      (∀ m, p.mpMember = some m → store.Has m) →
      ∀ q ∈ s.returned ++ [p], ∀ m, q.mpMember = some m → store.Has m := by
    intro store p hold hp q hq
    obtain hq | hq := List.mem_append.mp hq
    · exact hold q hq
    · rw [List.mem_singleton.mp hq]
      exact hp
  cases houtcome with
  | hit m has found =>
    refine ⟨h.intact, h.unique, hreturned _ _ h.has fun m' hm' => ?_⟩
    cases hm'
    exact has
  | unresolved missed byName empty =>
    exact ⟨h.intact, h.unique, hreturned _ _ h.has fun m' hm' => (by cases hm')⟩
  | requests s' m missed resolved requested =>
    refine ⟨requested.intact, ?_, hreturned _ _ (fun q hq m' hm' => ?_) fun m' hm' => ?_⟩
    · apply h.unique.insert requested.header
      intro r e hr he
      -- a search by key would have found it; a search by name is not resolved to it
      have hkey : e.mPrimaryKey ≠ call.query.requested call.server := by
        have hr' : r = ⟨call.query.isTopic, r.addr⟩ := by rw [← hr.trans requested.kind]
        rw [hr'] at he
        cases hname : call.query.byName with
        | true => exact hnew hname missed (resolved hname) r.addr e he
        | false =>
          obtain ⟨r', hfind, _, hmiss⟩ := h.intact.find_spec call.server call.query
          rw [missed] at hfind
          cases hfind
          exact hmiss rfl hname r.addr e he
      exact hkey
    · exact has_mono (h.has q hq m' hm') requested.missing requested.header
    · cases hm'
      exact requested.has

/-- A name that is resolved to a stored member stores it again. -/
theorem Known.not_unique (h : s.Known) (hold : ¬ s.ResolvesNew call) {t : LookupState}
    (ht : s.step call = some t) : ¬ t.store.KeysUnique := by
  unfold ResolvesNew at hold
  push Not at hold
  obtain ⟨hname, hmiss, hsome, a, e, he, hkey⟩ := hold
  obtain ⟨store, p, hlookup, houtcome⟩ := h.intact.lookup call.server call.query
  rw [LookupState.step, hlookup] at ht
  cases ht
  cases houtcome with
  | hit m has found =>
    rw [hmiss] at found
    cases found
  | unresolved missed byName empty =>
    rw [empty] at hsome
    cases hsome
  | requests s' m missed resolved requested =>
    intro hunique
    have hne : (⟨call.query.isTopic, a⟩ : Ref) ≠ m.ref := by
      intro heq
      rw [heq, requested.missing] at he
      cases he
    have hfirst : store.header ⟨call.query.isTopic, a⟩ = some e := by
      rw [requested.header, Function.update_of_ne hne, he]
    have hsecond : store.header m.ref = some ⟨call.query.requested call.server, ⟨1⟩⟩ := by
      rw [requested.header, Function.update_self]
    exact hne (hunique _ _ e _ hfirst hsecond requested.kind.symm hkey)

end LookupState

/-- For every sequence of lookups and all answers of the server: each member is stored once and its
    handles lead to one element, in every state, exactly when no lookup by a name that is not stored
    resolves it to the key of a stored member. -/
theorem lookups_cachedOnce_iff (parameterEventsKey rosoutKey : PrimaryKey) (calls : List Call) :
    Holds LookupState.step LookupState.CachedOnce (.new parameterEventsKey rosoutKey) calls ↔
      Along LookupState.step LookupState.ResolvesNew (.new parameterEventsKey rosoutKey) calls := by
  have hgood : ∀ (s : LookupState) (call : Call), s.Known → True → s.ResolvesNew call →
      ∃ t, s.step call = some t ∧ t.Known := fun s call h _ hnew => h.step hnew
  have hbad : ∀ (s : LookupState) (call : Call) (t : LookupState), s.Known → True → ¬ s.ResolvesNew call →
      s.step call = some t → ¬ t.CachedOnce := fun s call t h _ hold ht hcached =>
    h.not_unique hold ht hcached.unique
  exact holds_iff_along (fun s hs => hs.cachedOnce) hgood hbad calls _
    (LookupState.known_new parameterEventsKey rosoutKey) (along_true calls _)

/-- A server that knows one node, under its name and under another one. -/
def exampleServer : Server where
  search := fun _ _ => "k"
  node := fun primary => (⟨primary, "/n", "p", .ACTIVE, 0, 1, 7⟩, 0)
  topic := fun primary => (⟨primary, "/t", "T"⟩, 0)
  attributes := fun _ => ⟨"cpu", 1, 0⟩
  nodeEcho := fun _ => rfl
  topicEcho := fun _ => rfl

/-- The node is looked up by its key and then by the other name: there are two elements for it. -/
theorem lookups_cachedTwice_otherName :
    (∃ t, run LookupState.step (.new "e" "r") [⟨.getNode "k", exampleServer⟩, ⟨.getNodeByName "n", exampleServer⟩] =
        some t ∧
      t.returned.map MemberPtr.mpMember = [some ⟨⟨false, 0⟩, false, "k"⟩, some ⟨⟨false, 1⟩, false, "k"⟩]) ∧
    ¬ Holds LookupState.step LookupState.CachedOnce (.new "e" "r")
      [⟨.getNode "k", exampleServer⟩, ⟨.getNodeByName "n", exampleServer⟩] := by
  refine ⟨⟨_, rfl, rfl⟩, fun h => ?_⟩
  have hunique := ((h.cons rfl).cons rfl).here.unique
  have heq := hunique ⟨false, 0⟩ ⟨false, 1⟩ _ _ rfl rfl rfl rfl
  exact absurd heq (by decide)

end StreamFdl
