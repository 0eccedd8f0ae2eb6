import StreamFdl.Graph
import StreamFdl.MessageFolds

/- `Graph::getOutgoing` and `Graph::getIncoming` over the relations that the
   update messages record. A communication edge is told to both of its ends, each
   by a message of its own, and `Linked` is the relation of the edges themselves.
   What `getOutgoing` goes through at a stored member is `Linked` from it. What
   `getIncoming` goes through is `Linked` to it, but at a node it takes the topics
   from the wrong field: those the node publishes to. So the two are converse
   except between a topic and a node, where they are when the node subscribes to
   the topic exactly if it publishes to it. -/
namespace StreamFdl
open Runs FoldView

/-- A communication edge, with the primary keys of its ends. -/
inductive CommEdge where
  | publish (node topic edge : PrimaryKey)
  | subscribe (topic node edge : PrimaryKey)
  | service (server client : PrimaryKey) (srvName : String)
  | action (server client : PrimaryKey) (srvName : String)
  deriving DecidableEq

namespace CommEdge

def source : CommEdge → MemberProxy
  | publish node _ _ => ⟨node, false⟩
  | subscribe topic _ _ => ⟨topic, true⟩
  | service server _ _ | action server _ _ => ⟨server, false⟩

def target : CommEdge → MemberProxy
  | publish _ topic _ => ⟨topic, true⟩
  | subscribe _ node _ => ⟨node, false⟩
  | service _ client _ | action _ client _ => ⟨client, false⟩

/-- The two messages that tell the ends of the edge. -/
def mirrored : CommEdge → List Update
  | publish node topic edge => [.node (.publishersTo node topic), .topic (.publishers topic edge node)]
  | subscribe topic node edge => [.topic (.subscribers topic edge node), .node (.subscribersTo node topic)]
  | service server client srvName =>
    [.node (.isServerFor server srvName client), .node (.isClientOf client srvName server)]
  | action server client srvName =>
    [.node (.isActionServerFor server srvName client), .node (.isActionClientOf client srvName server)]

end CommEdge

/-- There is an edge from one member to the other. -/
def Linked (edges : List CommEdge) (a b : MemberProxy) : Prop := ∃ e ∈ edges, e.source = a ∧ e.target = b

/-- A client has one server for a service, and one for an action service. -/
structure OneServer (edges : List CommEdge) : Prop where
  service : ∀ s s' c srvName, .service s c srvName ∈ edges → .service s' c srvName ∈ edges → s = s'
  action : ∀ s s' c srvName, .action s c srvName ∈ edges → .action s' c srvName ∈ edges → s = s'

/-- The messages tell both ends of every edge, in any order, and nothing else. -/
def Delivered (edges : List CommEdge) (us : List Update) : Prop :=
  us.Perm (edges.flatMap CommEdge.mirrored)

def Member.proxy (m : Member) : MemberProxy := ⟨m.mPrimaryKey, m.mIsTopic⟩

/-- No relation was recorded yet. -/
structure Node.Blank (node : Node) : Prop where
  mClients : node.mClients = .empty
  mActionClients : node.mActionClients = .empty
  mServers : node.mServers = .empty
  mActionServers : node.mActionServers = .empty
  mPublishesTo : node.mPublishesTo = []
  mSubscribesTo : node.mSubscribesTo = []

structure Topic.Blank (topic : Topic) : Prop where
  mPublishers : topic.mPublishers = []
  mSubscribers : topic.mSubscribers = []

structure DataStore.Blank (s : DataStore) : Prop where
  nodes : ∀ a d, s.mNodes.data a = some d → d.inst.Blank
  topics : ∀ a d, s.mTopics.data a = some d → d.inst.Blank

/-- `v` is among what leaves `u` exactly if `u` is among what comes into `v`. -/
def Graph.Converse (g : Graph) (s : DataStore) : Prop :=
  ∀ p ∈ g.mVertices, ∀ q ∈ g.mVertices, ∃ u v outgoing incoming,
    p.mpMember = some u ∧ q.mpMember = some v ∧
    g.getOutgoing s p = some outgoing ∧ g.getIncoming s q = some incoming ∧
    (v.proxy ∈ outgoing ↔ u.proxy ∈ incoming)

/-! The messages of the edges. -/

/-- The member a message is for. -/
def Update.addressee (u : Update) : MemberProxy := ⟨u.primaryKey, u.isTopic⟩

/-- The outgoing neighbour a message tells its member of, as `Update.connection` is the incoming one. -/
def Update.outgoing : Update → Option MemberProxy
  | .node (.publishersTo _ publishesTo) => some ⟨publishesTo, true⟩
  | .node (.isServerFor _ _ clientNodeId) => some ⟨clientNodeId, false⟩
  | .node (.isActionServerFor _ _ actionclientNodeId) => some ⟨actionclientNodeId, false⟩
  | .topic (.subscribers _ _ subscriber) => some ⟨subscriber, false⟩
  | _ => none

section Messages
variable {edges : List CommEdge} {us : List Update} (delivered : Delivered edges us)

include delivered

theorem mem_delivered {u : Update} : u ∈ us ↔ ∃ e ∈ edges, u ∈ e.mirrored := by
  rw [delivered.mem_iff, List.mem_flatMap]

/-- The source of every edge is told of its target, and of no other. -/
theorem outgoing_delivered {a b : MemberProxy} :
    (∃ u ∈ us, u.addressee = a ∧ u.outgoing = some b) ↔ Linked edges a b := by
  constructor
  · intro h
    obtain ⟨u, hu, rfl, hb⟩ := h
    obtain ⟨e, he, hu⟩ := (mem_delivered delivered).mp hu
    refine ⟨e, he, ?_⟩
    cases e
    all_goals
      -- the first of the two messages goes to the source
      obtain rfl | hu := List.mem_cons.mp hu
      · exact ⟨rfl, Option.some.inj hb⟩
      · obtain rfl := List.mem_singleton.mp hu
        cases hb
  · intro h
    obtain ⟨e, he, rfl, rfl⟩ := h
    have hmem : ∀ u ∈ e.mirrored, u ∈ us := fun u hu => (mem_delivered delivered).mpr ⟨e, he, hu⟩
    cases e with
    | publish n t edge => exact ⟨_, hmem _ List.mem_cons_self, rfl, rfl⟩
    | subscribe t n edge => exact ⟨_, hmem _ List.mem_cons_self, rfl, rfl⟩
    | service s c srvName => exact ⟨_, hmem _ List.mem_cons_self, rfl, rfl⟩
    | action s c srvName => exact ⟨_, hmem _ List.mem_cons_self, rfl, rfl⟩

/-- The target of every edge is told of its source. -/
theorem incoming_delivered {a b : MemberProxy} :
    (∃ u ∈ us, u.addressee = b ∧ u.connection = some a) ↔ Linked edges a b := by
  constructor
  · intro h
    obtain ⟨u, hu, rfl, hb⟩ := h
    obtain ⟨e, he, hu⟩ := (mem_delivered delivered).mp hu
    refine ⟨e, he, ?_⟩
    cases e
    all_goals
      obtain rfl | hu := List.mem_cons.mp hu
      · cases hb
      · obtain rfl := List.mem_singleton.mp hu
        exact ⟨Option.some.inj hb, rfl⟩
  · intro h
    obtain ⟨e, he, rfl, rfl⟩ := h
    have hmem : ∀ u ∈ e.mirrored, u ∈ us := fun u hu => (mem_delivered delivered).mpr ⟨e, he, hu⟩
    cases e with
    | publish n t edge => exact ⟨_, hmem _ (List.mem_cons_of_mem _ List.mem_cons_self), rfl, rfl⟩
    | subscribe t n edge => exact ⟨_, hmem _ (List.mem_cons_of_mem _ List.mem_cons_self), rfl, rfl⟩
    | service s c srvName => exact ⟨_, hmem _ (List.mem_cons_of_mem _ List.mem_cons_self), rfl, rfl⟩
    | action s c srvName => exact ⟨_, hmem _ (List.mem_cons_of_mem _ List.mem_cons_self), rfl, rfl⟩

/-- Where one edge at most has a message that carries something to a node, all that is carried is the same. -/
theorem carried_unique {c : PrimaryKey} {carried : NodeUpdate → List MemberProxy} (edge : PrimaryKey → CommEdge)
    (hread : ∀ (e : CommEdge) (v : NodeUpdate), .node v ∈ e.mirrored → v.primaryKey = c →
      ∀ z ∈ carried v, ∃ s, z = ⟨s, false⟩ ∧ e = edge s)
    (hone : ∀ s s', edge s ∈ edges → edge s' ∈ edges → s = s') {x y : MemberProxy}
    (hx : x ∈ (nodeUpdates us c).flatMap carried) (hy : y ∈ (nodeUpdates us c).flatMap carried) : x = y := by
  have hedge : ∀ z ∈ (nodeUpdates us c).flatMap carried, ∃ s, z = ⟨s, false⟩ ∧ edge s ∈ edges := by
    intro z hflat
    obtain ⟨v, hv, hz⟩ := List.mem_flatMap.mp hflat
    obtain ⟨hv, hkey⟩ := mem_nodeUpdates.mp hv
    obtain ⟨e, he, hu⟩ := (mem_delivered delivered).mp hv
    obtain ⟨s, hzs, rfl⟩ := hread e v hu hkey z hz
    exact ⟨s, hzs, he⟩
  obtain ⟨s, rfl, hs⟩ := hedge x hx
  obtain ⟨s', rfl, hs'⟩ := hedge y hy
  rw [hone s s' hs hs']

variable (one : OneServer edges)

include one

/-- All messages that tell a client of the server for a service name the same one. -/
theorem servers_unique {c : PrimaryKey} {service : String} {x y : MemberProxy}
    (hx : x ∈ (nodeUpdates us c).flatMap (NodeUpdate.servers service))
    (hy : y ∈ (nodeUpdates us c).flatMap (NodeUpdate.servers service)) : x = y := by
  refine carried_unique delivered (fun s => .service s c service) (fun e v hu hkey z hz => ?_)
    (fun s s' => one.service s s' c service) hx hy
  cases v with
  | isClientOf k srvName s =>
    by_cases hsrv : srvName = service
    · simp only [NodeUpdate.servers, if_pos hsrv, List.mem_singleton] at hz
      subst hsrv
      cases hkey
      refine ⟨s, hz, ?_⟩
      cases e <;> simp [CommEdge.mirrored] at hu
      obtain ⟨rfl, rfl, rfl⟩ := hu
      rfl
    · simp [NodeUpdate.servers, hsrv] at hz
  | _ => cases hz

theorem actionServers_unique {c : PrimaryKey} {service : String} {x y : MemberProxy}
    (hx : x ∈ (nodeUpdates us c).flatMap (NodeUpdate.actionServers service))
    (hy : y ∈ (nodeUpdates us c).flatMap (NodeUpdate.actionServers service)) : x = y := by
  refine carried_unique delivered (fun s => .action s c service) (fun e v hu hkey z hz => ?_)
    (fun s s' => one.action s s' c service) hx hy
  cases v with
  | isActionClientOf k srvName s =>
    by_cases hsrv : srvName = service
    · simp only [NodeUpdate.actionServers, if_pos hsrv, List.mem_singleton] at hz
      subst hsrv
      cases hkey
      refine ⟨s, hz, ?_⟩
      cases e <;> simp [CommEdge.mirrored] at hu
      obtain ⟨rfl, rfl, rfl⟩ := hu
      rfl
    · simp [NodeUpdate.actionServers, hsrv] at hz
  | _ => cases hz

end Messages

/-! What the messages leave in the fields that are gone through. -/

/-- The clients of all services are the clients that were recorded for some service. -/
theorem ClientMapping.mem_values {m : ClientMapping} {carried : String → MemberProxies} {x : MemberProxy}
    (h : ∀ service, m.lookup service = extend none (carried service)) :
    x ∈ m.entries.flatMap Prod.snd ↔ ∃ service, x ∈ carried service := by
  have apart : ∀ a b : String, OrderedMap.Equiv (· < ·) a b ↔ a = b := fun a b => OrderedMap.equiv_iff_eq
  rw [List.mem_flatMap]
  constructor
  · intro hx
    obtain ⟨⟨service, clients⟩, he, hx⟩ := hx
    have hlookup := (OrderedMap.lookup_eq_some apart).mpr he
    rw [h] at hlookup
    refine ⟨service, ?_⟩
    cases hc : carried service with
    | nil =>
      rw [hc] at hlookup
      cases hlookup
    | cons y ys =>
      rw [hc] at hlookup
      cases hlookup
      exact hx
  · intro hx
    obtain ⟨service, hx⟩ := hx
    have hlookup := h service
    rw [extend_of_ne_nil (List.ne_nil_of_mem hx)] at hlookup
    exact ⟨_, (OrderedMap.lookup_eq_some apart).mp hlookup, hx⟩

/-- The servers are those that were recorded, where no service has two. -/
theorem ServiceMapping.mem_values {m : ServiceMapping} {carried : String → MemberProxies} {x : MemberProxy}
    (h : ∀ service, m.lookup service = first none (carried service))
    (hone : ∀ service, ∀ y ∈ carried service, ∀ z ∈ carried service, y = z) :
    x ∈ m.entries.map Prod.snd ↔ ∃ service, x ∈ carried service := by
  have apart : ∀ a b : String, OrderedMap.Equiv (· < ·) a b ↔ a = b := fun a b => OrderedMap.equiv_iff_eq
  have hhead : ∀ service, m.lookup service = (carried service).head? := fun service => h service
  rw [List.mem_map]
  constructor
  · intro hx
    obtain ⟨⟨service, server⟩, he, rfl⟩ := hx
    have hlookup := (OrderedMap.lookup_eq_some apart).mpr he
    rw [hhead] at hlookup
    exact ⟨service, List.mem_of_head? hlookup⟩
  · intro hx
    obtain ⟨service, hx⟩ := hx
    have hlookup := hhead service
    cases hc : carried service with
    | nil =>
      rw [hc] at hx
      cases hx
    | cons y ys =>
      obtain rfl := hone service x hx y (by rw [hc]; exact List.mem_cons_self)
      rw [hc] at hlookup
      exact ⟨(service, x), (OrderedMap.lookup_eq_some apart).mp hlookup, rfl⟩

section Fields
variable {vs : List NodeUpdate} {before after : Node} (blank : before.Blank) (fold : NodeFold vs before after)
variable {x : MemberProxy}

include blank fold

theorem NodeFold.mem_clients : x ∈ after.mClients.entries.flatMap Prod.snd ↔
    ∃ v ∈ vs, (Update.node v).outgoing = some x ∧ x.mIsTopic = false := by
  have hlookup : ∀ service, after.mClients.lookup service =
      extend none (vs.flatMap (NodeUpdate.recorded service)) := by
    intro service
    rw [fold.mClients, blank.mClients]
    rfl
  rw [ClientMapping.mem_values hlookup]
  constructor
  · intro h
    obtain ⟨service, hx⟩ := h
    obtain ⟨v, hv, hx⟩ := List.mem_flatMap.mp hx
    refine ⟨v, hv, ?_⟩
    cases v <;> simp [NodeUpdate.recorded, NodeUpdate.clients, NodeUpdate.actionClients] at hx
    · obtain ⟨_, rfl⟩ := hx
      exact ⟨rfl, rfl⟩
    · obtain ⟨_, rfl⟩ := hx
      exact ⟨rfl, rfl⟩
  · intro h
    obtain ⟨v, hv, hout, hkind⟩ := h
    cases v <;> simp [Update.outgoing] at hout
    · rw [← hout] at hkind
      cases hkind
    · next srvName client =>
      refine ⟨srvName, List.mem_flatMap.mpr ⟨_, hv, ?_⟩⟩
      simp [NodeUpdate.recorded, NodeUpdate.clients, hout]
    · next srvName client =>
      refine ⟨srvName, List.mem_flatMap.mpr ⟨_, hv, ?_⟩⟩
      simp [NodeUpdate.recorded, NodeUpdate.actionClients, hout]

theorem NodeFold.mem_publishesTo : x ∈ after.mPublishesTo ↔
    ∃ v ∈ vs, (Update.node v).outgoing = some x ∧ x.mIsTopic = true := by
  rw [fold.mPublishesTo, blank.mPublishesTo, List.nil_append, List.mem_flatMap]
  constructor
  · intro h
    obtain ⟨v, hv, hx⟩ := h
    cases v <;> simp [NodeUpdate.publishesTo] at hx
    subst hx
    exact ⟨_, hv, rfl, rfl⟩
  · intro h
    obtain ⟨v, hv, hout, hkind⟩ := h
    refine ⟨v, hv, ?_⟩
    cases v <;> simp [Update.outgoing] at hout
    · simp [NodeUpdate.publishesTo, hout]
    · rw [← hout] at hkind
      cases hkind
    · rw [← hout] at hkind
      cases hkind

theorem NodeFold.mem_servers
    (one : ∀ service, ∀ y ∈ vs.flatMap (NodeUpdate.servers service),
      ∀ z ∈ vs.flatMap (NodeUpdate.servers service), y = z)
    (oneAction : ∀ service, ∀ y ∈ vs.flatMap (NodeUpdate.actionServers service),
      ∀ z ∈ vs.flatMap (NodeUpdate.actionServers service), y = z) :
    x ∈ after.mServers.entries.map Prod.snd ++ after.mActionServers.entries.map Prod.snd ↔
      ∃ v ∈ vs, (Update.node v).connection = some x ∧ x.mIsTopic = false := by
  have hservers : ∀ service, after.mServers.lookup service =
      first none (vs.flatMap (NodeUpdate.servers service)) := by
    intro service
    rw [fold.mServers, blank.mServers]
    rfl
  have hactions : ∀ service, after.mActionServers.lookup service =
      first none (vs.flatMap (NodeUpdate.actionServers service)) := by
    intro service
    rw [fold.mActionServers, blank.mActionServers]
    rfl
  rw [List.mem_append, ServiceMapping.mem_values hservers one, ServiceMapping.mem_values hactions oneAction]
  constructor
  · intro h
    obtain ⟨service, hx⟩ | ⟨service, hx⟩ := h
    · obtain ⟨v, hv, hx⟩ := List.mem_flatMap.mp hx
      cases v <;> simp [NodeUpdate.servers] at hx
      obtain ⟨_, rfl⟩ := hx
      exact ⟨_, hv, rfl, rfl⟩
    · obtain ⟨v, hv, hx⟩ := List.mem_flatMap.mp hx
      cases v <;> simp [NodeUpdate.actionServers] at hx
      obtain ⟨_, rfl⟩ := hx
      exact ⟨_, hv, rfl, rfl⟩
  · intro h
    obtain ⟨v, hv, hin, hkind⟩ := h
    cases v <;> simp [Update.connection] at hin
    · rw [← hin] at hkind
      cases hkind
    · next srvName server =>
      refine Or.inl ⟨srvName, List.mem_flatMap.mpr ⟨_, hv, ?_⟩⟩
      simp [NodeUpdate.servers, hin]
    · next srvName server =>
      refine Or.inr ⟨srvName, List.mem_flatMap.mpr ⟨_, hv, ?_⟩⟩
      simp [NodeUpdate.actionServers, hin]

end Fields

theorem TopicLaw.mem_subscribers {vs : List TopicUpdate} {before after : Topic} {x : MemberProxy}
    (blank : before.Blank) (law : TopicLaw vs before after) :
    x ∈ after.mSubscribers.map CommunicationEdge.associatedNode ↔
      ∃ v ∈ vs, (Update.topic v).outgoing = some x := by
  rw [law.mSubscribers, blank.mSubscribers, List.nil_append, List.mem_map]
  constructor
  · intro h
    obtain ⟨e, he, rfl⟩ := h
    obtain ⟨v, hv, he⟩ := List.mem_flatMap.mp he
    cases v <;> simp [TopicUpdate.subscriberEdges] at he
    subst he
    exact ⟨_, hv, rfl⟩
  · intro h
    obtain ⟨v, hv, hout⟩ := h
    cases v <;> simp [Update.outgoing] at hout
    exact ⟨_, List.mem_flatMap.mpr ⟨_, hv, List.mem_singleton_self _⟩, hout⟩

theorem TopicLaw.mem_publishers {vs : List TopicUpdate} {before after : Topic} {x : MemberProxy}
    (blank : before.Blank) (law : TopicLaw vs before after) :
    x ∈ after.mPublishers.map CommunicationEdge.associatedNode ↔
      ∃ v ∈ vs, (Update.topic v).connection = some x := by
  rw [law.mPublishers, blank.mPublishers, List.nil_append, List.mem_map]
  constructor
  · intro h
    obtain ⟨e, he, rfl⟩ := h
    obtain ⟨v, hv, he⟩ := List.mem_flatMap.mp he
    cases v <;> simp [TopicUpdate.publisherEdges] at he
    subst he
    exact ⟨_, hv, rfl⟩
  · intro h
    obtain ⟨v, hv, hin⟩ := h
    cases v <;> simp [Update.connection] at hin
    exact ⟨_, List.mem_flatMap.mpr ⟨_, hv, List.mem_singleton_self _⟩, hin⟩

/-! What the graph finds at a stored member. -/

theorem exists_nodeUpdates {us : List Update} {k : PrimaryKey} {P : Update → Prop} :
    (∃ v ∈ nodeUpdates us k, P (.node v)) ↔ ∃ u ∈ us, u.addressee = ⟨k, false⟩ ∧ P u := by
  constructor
  · intro h
    obtain ⟨v, hv, hP⟩ := h
    obtain ⟨hmem, rfl⟩ := mem_nodeUpdates.mp hv
    exact ⟨_, hmem, rfl, hP⟩
  · intro h
    obtain ⟨u, hu, hkey, hP⟩ := h
    cases u with
    | node v => exact ⟨v, mem_nodeUpdates.mpr ⟨hu, congrArg MemberProxy.mPrimaryKey hkey⟩, hP⟩
    | topic v => cases hkey

theorem exists_topicUpdates {us : List Update} {k : PrimaryKey} {P : Update → Prop} :
    (∃ v ∈ topicUpdates us k, P (.topic v)) ↔ ∃ u ∈ us, u.addressee = ⟨k, true⟩ ∧ P u := by
  constructor
  · intro h
    obtain ⟨v, hv, hP⟩ := h
    obtain ⟨hmem, rfl⟩ := mem_topicUpdates.mp hv
    exact ⟨_, hmem, rfl, hP⟩
  · intro h
    obtain ⟨u, hu, hkey, hP⟩ := h
    cases u with
    | node v => cases hkey
    | topic v => exact ⟨v, mem_topicUpdates.mpr ⟨hu, congrArg MemberProxy.mPrimaryKey hkey⟩, hP⟩

section Scans
variable {s s' : DataStore} {edges : List CommEdge} {us : List Update} {m : Member}

/-- The object of a stored node, before and after the messages. -/
theorem leads_node (handled : s.Handled us s') (leads : s.Leads m) (hkind : m.mIsTopic = false) :
    ∃ d, s.mNodes.data m.ref.addr = some d ∧ d.inst.mPrimaryKey = m.mPrimaryKey ∧
      s'.asNode m.ref = some (d.inst.receive us) := by
  obtain ⟨href, v, hv, hkey⟩ := leads
  rw [hkind] at href
  unfold DataStore.vertex at hv
  rw [← href, if_neg Bool.false_ne_true] at hv
  obtain ⟨d, hd, rfl⟩ := Option.map_eq_some_iff.mp hv
  refine ⟨d, hd, hkey, ?_⟩
  unfold DataStore.asNode
  rw [← href, if_neg Bool.false_ne_true, handled.nodes, hd]
  rfl

theorem leads_topic (handled : s.Handled us s') (leads : s.Leads m) (hkind : m.mIsTopic = true) :
    ∃ d, s.mTopics.data m.ref.addr = some d ∧ d.inst.mPrimaryKey = m.mPrimaryKey ∧
      s'.asTopic m.ref = some (d.inst.receive us) := by
  obtain ⟨href, v, hv, hkey⟩ := leads
  rw [hkind] at href
  unfold DataStore.vertex at hv
  rw [← href, if_pos rfl] at hv
  obtain ⟨d, hd, rfl⟩ := Option.map_eq_some_iff.mp hv
  refine ⟨d, hd, hkey, ?_⟩
  unfold DataStore.asTopic
  rw [← href, if_pos rfl, handled.topics, hd]
  rfl

theorem Member.proxy_of_kind {b : Bool} (hkind : m.mIsTopic = b) : m.proxy = ⟨m.mPrimaryKey, b⟩ := by
  unfold proxy
  rw [hkind]

variable (blank : s.Blank) (delivered : Delivered edges us) (handled : s.Handled us s') (leads : s.Leads m)

include blank delivered handled leads

/-- What `getOutgoing` goes through is what the member has an edge to. -/
theorem scannedOutgoing_linked : ∃ xs, Graph.scannedOutgoing s' m = some xs ∧
    ∀ x, x ∈ xs ↔ Linked edges m.proxy x := by
  cases hkind : m.mIsTopic with
  | false =>
    obtain ⟨d, hd, hkey, hnode⟩ := leads_node handled leads hkind
    refine ⟨_, by rw [Graph.scannedOutgoing, hkind, if_neg Bool.false_ne_true, hnode]; rfl, fun x => ?_⟩
    have hfold : NodeFold (nodeUpdates us m.mPrimaryKey) d.inst (d.inst.receive us) :=
      hkey ▸ Node.foldl_update _ d.inst
    have hblank := blank.nodes _ d hd
    rw [List.mem_append, List.mem_append, hfold.mem_clients hblank, hfold.mem_publishesTo hblank, hfold.mActionClients,
      hblank.mActionClients, ← outgoing_delivered delivered, Member.proxy_of_kind hkind, ← exists_nodeUpdates]
    constructor
    · intro h
      obtain (⟨v, hv, hout, _⟩ | h) | ⟨v, hv, hout, _⟩ := h
      · exact ⟨v, hv, hout⟩
      · cases h
      · exact ⟨v, hv, hout⟩
    · intro h
      obtain ⟨v, hv, hout⟩ := h
      cases hx : x.mIsTopic with
      | false => exact Or.inl (Or.inl ⟨v, hv, hout, rfl⟩)
      | true => exact Or.inr ⟨v, hv, hout, rfl⟩
  | true =>
    obtain ⟨d, hd, hkey, htopic⟩ := leads_topic handled leads hkind
    refine ⟨_, by rw [Graph.scannedOutgoing, hkind, if_pos rfl, htopic]; rfl, fun x => ?_⟩
    have hlaw : TopicLaw (topicUpdates us m.mPrimaryKey) d.inst (d.inst.receive us) :=
      hkey ▸ Topic.foldl_update _ d.inst
    rw [hlaw.mem_subscribers (blank.topics _ d hd), ← outgoing_delivered delivered,
      Member.proxy_of_kind hkind, ← exists_topicUpdates]

/-- What `getIncoming` goes through is what has an edge to the member, but for the topics it goes
    through at a node: there it is what the node has an edge to. -/
theorem scanned_linked (one : OneServer edges) : ∃ xs, Graph.scanned s' m = some xs ∧
    ∀ x, x ∈ xs ↔ if x.mIsTopic = true ∧ m.mIsTopic = false then Linked edges m.proxy x
      else Linked edges x m.proxy := by
  cases hkind : m.mIsTopic with
  | false =>
    obtain ⟨d, hd, hkey, hnode⟩ := leads_node handled leads hkind
    refine ⟨_, by rw [Graph.scanned, hkind, if_neg Bool.false_ne_true, hnode]; rfl, fun x => ?_⟩
    have hfold : NodeFold (nodeUpdates us m.mPrimaryKey) d.inst (d.inst.receive us) :=
      hkey ▸ Node.foldl_update _ d.inst
    have hblank := blank.nodes _ d hd
    rw [List.mem_append, hfold.mem_publishesTo hblank,
      hfold.mem_servers hblank (fun service y hy z hz => servers_unique delivered one hy hz)
        (fun service y hy z hz => actionServers_unique delivered one hy hz),
      Member.proxy_of_kind hkind]
    cases hx : x.mIsTopic with
    | false =>
      rw [if_neg (by simp), ← incoming_delivered delivered, ← exists_nodeUpdates]
      simp
    | true =>
      rw [if_pos ⟨rfl, rfl⟩, ← outgoing_delivered delivered, ← exists_nodeUpdates]
      simp
  | true =>
    obtain ⟨d, hd, hkey, htopic⟩ := leads_topic handled leads hkind
    refine ⟨_, by rw [Graph.scanned, hkind, if_pos rfl, htopic]; rfl, fun x => ?_⟩
    have hlaw : TopicLaw (topicUpdates us m.mPrimaryKey) d.inst (d.inst.receive us) :=
      hkey ▸ Topic.foldl_update _ d.inst
    rw [hlaw.mem_publishers (blank.topics _ d hd), if_neg (by simp), ← incoming_delivered delivered,
      Member.proxy_of_kind hkind, ← exists_topicUpdates]

end Scans

/-- The vertices of the graph are handles of stored members. -/
def Graph.OfStored (g : Graph) (s : DataStore) : Prop :=
  ∀ p ∈ g.mVertices, ∃ m, p.mpMember = some m ∧ s.Leads m

/-- In the graph, a node subscribes to a topic exactly if it publishes to it. -/
def Graph.Symmetric (g : Graph) (edges : List CommEdge) : Prop :=
  ∀ p ∈ g.mVertices, ∀ q ∈ g.mVertices, ∀ t n, p.mpMember = some t → q.mpMember = some n →
    t.mIsTopic = true → n.mIsTopic = false →
    (Linked edges t.proxy n.proxy ↔ Linked edges n.proxy t.proxy)

theorem Graph.converse_iff {g : Graph} {s s' : DataStore} {edges : List CommEdge} {us : List Update}
    (blank : s.Blank) (delivered : Delivered edges us) (one : OneServer edges) (handled : s.Handled us s')
    (stored : g.OfStored s) : g.Converse s' ↔ g.Symmetric edges := by
  -- what the two functions return, for handles of the graph
  have hpair : ∀ p ∈ g.mVertices, ∀ q ∈ g.mVertices, ∀ u v, p.mpMember = some u → q.mpMember = some v →
      ∃ outgoing incoming, g.getOutgoing s' p = some outgoing ∧ g.getIncoming s' q = some incoming ∧
        (v.proxy ∈ outgoing ↔ Linked edges u.proxy v.proxy) ∧
        (u.proxy ∈ incoming ↔ if u.mIsTopic = true ∧ v.mIsTopic = false then Linked edges v.proxy u.proxy
          else Linked edges u.proxy v.proxy) := by
    intro p hp q hq u v hu hv
    obtain ⟨u', hu', hleads⟩ := stored p hp
    obtain rfl : u' = u := Option.some.inj (hu'.symm.trans hu)
    obtain ⟨v', hv', hleads'⟩ := stored q hq
    obtain rfl : v' = v := Option.some.inj (hv'.symm.trans hv)
    obtain ⟨xs, hxs, hout⟩ := scannedOutgoing_linked blank delivered handled hleads
    obtain ⟨ys, hys, hin⟩ := scanned_linked blank delivered handled hleads' one
    have hcu : g.contains u'.proxy = true := contains_iff.mpr ⟨p, hp, u', hu, rfl⟩
    have hcv : g.contains v'.proxy = true := contains_iff.mpr ⟨q, hq, v', hv, rfl⟩
    refine ⟨xs.filter g.contains, ys.filter g.contains, ?_, ?_, ?_, ?_⟩
    · simp [getOutgoing, hu, hxs]
    · simp [getIncoming, hv, hys]
    · rw [List.mem_filter, hout, and_iff_left hcv]
    · rw [List.mem_filter, hin, and_iff_left hcu]
      rfl
  constructor
  · intro hconv p hp q hq t n ht hn htopic hnode
    obtain ⟨outgoing, incoming, hout, hin, hmem, hmem'⟩ := hpair p hp q hq t n ht hn
    obtain ⟨u, v, outgoing', incoming', hu, hv, hout', hin', hiff⟩ := hconv p hp q hq
    rw [ht] at hu
    rw [hn] at hv
    rw [hout] at hout'
    rw [hin] at hin'
    cases hu
    cases hv
    cases hout'
    cases hin'
    rw [hmem, hmem', if_pos ⟨htopic, hnode⟩] at hiff
    exact hiff
  · intro hsym p hp q hq
    obtain ⟨u, hu, _⟩ := stored p hp
    obtain ⟨v, hv, _⟩ := stored q hq
    obtain ⟨outgoing, incoming, hout, hin, hmem, hmem'⟩ := hpair p hp q hq u v hu hv
    refine ⟨u, v, outgoing, incoming, hu, hv, hout, hin, ?_⟩
    rw [hmem, hmem']
    by_cases hkinds : u.mIsTopic = true ∧ v.mIsTopic = false
    · rw [if_pos hkinds]
      exact hsym p hp q hq u v hu hv hkinds.1 hkinds.2
    · rw [if_neg hkinds]

open DataStore

/-- For any edges, told to their ends in any order, and any vertices: `getOutgoing` and `getIncoming`
    are converse exactly when every node of the graph that subscribes to a topic of it also publishes
    to it, and the other way around. -/
theorem edges_converse_iff {s : DataStore} (searchable : s.Searchable) (unique : s.KeysUnique)
    (blank : s.Blank) {edges : List CommEdge} (one : OneServer edges) {us : List Update}
    (delivered : Delivered edges us) {g : Graph} (stored : g.OfStored s) :
    ∃ s', run handle s us = some s' ∧ (g.Converse s' ↔ g.Symmetric edges) := by
  obtain ⟨s', hrun, handled, _⟩ := handled_run searchable unique us
  exact ⟨s', hrun, Graph.converse_iff blank delivered one handled stored⟩

theorem blank_new (k k' : PrimaryKey) : (new k k').Blank := 
  ⟨fun _ _ h => (by cases h), fun _ _ h => (by cases h)⟩

theorem DataStore.Blank.emplaceNode {s s' : DataStore} {response : NodeResponse} {requestId : RequestId}
    {m : Member} (h : s.Blank) (hs : s.emplaceNode response requestId = some (s', m)) : s'.Blank := by
  simp only [DataStore.emplaceNode, Option.bind_eq_bind, Option.bind_eq_some_iff, Option.pure_def,
    Option.some.injEq, Prod.mk.injEq] at hs
  obtain ⟨⟨l, a⟩, hl, rfl, _⟩ := hs
  obtain ⟨_, _, _, hdata, _⟩ := DoubleLinkedList.emplaceBack_spec hl
  refine ⟨fun b d hd => ?_, h.topics⟩
  rw [hdata] at hd
  by_cases hb : b = a
  · rw [hb, Function.update_self] at hd
    cases hd
    exact ⟨rfl, rfl, rfl, rfl, rfl, rfl⟩
  · rw [Function.update_of_ne hb] at hd
    exact h.nodes b d hd

theorem DataStore.Blank.emplaceTopic {s s' : DataStore} {response : TopicResponse} {requestId : RequestId}
    {m : Member} (h : s.Blank) (hs : s.emplaceTopic response requestId = some (s', m)) : s'.Blank := by
  simp only [DataStore.emplaceTopic, Option.bind_eq_bind, Option.bind_eq_some_iff, Option.pure_def,
    Option.some.injEq, Prod.mk.injEq] at hs
  obtain ⟨⟨l, a⟩, hl, rfl, _⟩ := hs
  obtain ⟨_, _, _, hdata, _⟩ := DoubleLinkedList.emplaceBack_spec hl
  refine ⟨h.nodes, fun b d hd => ?_⟩
  rw [hdata] at hd
  by_cases hb : b = a
  · rw [hb, Function.update_self] at hd
    cases hd
    exact ⟨rfl, rfl⟩
  · rw [Function.update_of_ne hb] at hd
    exact h.topics b d hd

/-- A node and a topic, and the graph of both. -/
def exampleEnds : DataStore := ((exampleReceiver.emplaceTopic ⟨"t", "/t", "T"⟩ 1).get rfl).1

def exampleEndsGraph : Graph := ⟨[.make ⟨⟨false, 0⟩, false, "n"⟩, .make ⟨⟨true, 0⟩, true, "t"⟩]⟩

theorem exampleEnds_stored : exampleReceiver.emplaceTopic ⟨"t", "/t", "T"⟩ 1 =
    some (exampleEnds, ⟨⟨true, 0⟩, true, "t"⟩) := rfl

theorem exampleEnds_ready : exampleEnds.Searchable ∧ exampleEnds.KeysUnique ∧ exampleEnds.Blank ∧
    exampleEndsGraph.OfStored exampleEnds := by
  obtain ⟨hintact, hkeys⟩ := exampleReceiver_ready
  refine ⟨(hintact.of_emplaceTopic exampleEnds_stored).searchable,
    hkeys.emplaceTopic hintact.wellFormed exampleEnds_stored fun a e he => ?_,
    ((blank_new "e" "r").emplaceNode exampleReceiver_stored).emplaceTopic exampleEnds_stored, fun p hp => ?_⟩
  · obtain ⟨_, hheader, _⟩ := emplaceNode_spec exampleReceiver_stored (wellFormed_new "e" "r")
    rw [hheader, Function.update_of_ne (by simp), header_new] at he
    cases he
  · obtain rfl | hp := List.mem_cons.mp hp
    · exact ⟨_, rfl, rfl, _, rfl, rfl⟩
    · rw [List.mem_singleton.mp hp]
      exact ⟨_, rfl, rfl, _, rfl, rfl⟩

/-- A node that publishes to a topic and subscribes to it. -/
theorem edges_converse_bothWays : ∃ s', run handle exampleEnds
    [.node (.subscribersTo "n" "t"), .node (.publishersTo "n" "t"), .topic (.publishers "t" "e" "n"),
      .topic (.subscribers "t" "f" "n")] = some s' ∧
    (exampleEndsGraph.Converse s' ↔
      exampleEndsGraph.Symmetric [.publish "n" "t" "e", .subscribe "t" "n" "f"]) := by
  obtain ⟨hsearch, hkeys, hblank, hstored⟩ := exampleEnds_ready
  refine edges_converse_iff hsearch hkeys hblank ⟨?_, ?_⟩ ?_ hstored
  · intro s s' c srvName h
    simp at h
  · intro s s' c srvName h
    simp at h
  · exact (List.perm_append_singleton _ _).symm

/-- A node that subscribes to a topic: the topic has it as outgoing, and it has nothing incoming. -/
theorem edges_converse_subscriber : exampleEnds.Searchable ∧ exampleEnds.KeysUnique ∧ exampleEnds.Blank ∧
    OneServer [.subscribe "t" "n" "e"] ∧
    Delivered [.subscribe "t" "n" "e"] [.topic (.subscribers "t" "e" "n"), .node (.subscribersTo "n" "t")] ∧
    exampleEndsGraph.OfStored exampleEnds ∧
    ∃ s', run handle exampleEnds [.topic (.subscribers "t" "e" "n"), .node (.subscribersTo "n" "t")] = some s' ∧
      exampleEndsGraph.getOutgoing s' (.make ⟨⟨true, 0⟩, true, "t"⟩) = some [⟨"n", false⟩] ∧
      exampleEndsGraph.getIncoming s' (.make ⟨⟨false, 0⟩, false, "n"⟩) = some [] ∧
      ¬ exampleEndsGraph.Converse s' := by
  obtain ⟨hsearch, hkeys, hblank, hstored⟩ := exampleEnds_ready
  refine ⟨hsearch, hkeys, hblank, ⟨?_, ?_⟩, List.Perm.refl _, hstored, _, rfl, by decide, by decide, ?_⟩
  · intro s s' c srvName h
    simp at h
  · intro s s' c srvName h
    simp at h
  · intro hconv
    obtain ⟨u, v, outgoing, incoming, hu, hv, hout, hin, hiff⟩ :=
      hconv _ (List.mem_cons_of_mem _ List.mem_cons_self) _ List.mem_cons_self
    cases hu
    cases hv
    obtain rfl : [⟨"n", false⟩] = outgoing := Option.some.inj (Eq.trans (by decide) hout)
    obtain rfl : [] = incoming := Option.some.inj (Eq.trans (by decide) hin)
    exact absurd (hiff.mp List.mem_cons_self) List.not_mem_nil

end StreamFdl
