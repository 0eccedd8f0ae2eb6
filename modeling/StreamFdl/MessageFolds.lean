import StreamFdl.Base.Runs
import StreamFdl.Base.FoldView
import StreamFdl.DataStore

/- What the update messages make of the stored members. `DataStore::run` handles
   a message by a search for the member with its key, `update` on the member
   found, and the queue for the graph. Over a store whose keys are distinct, a
   run of messages leaves each member with `update` folded over the messages with
   its key, and nothing else changed (`Handled`).

   `NodeLaw` and `TopicLaw` say field by field what that fold should be: every
   field is a function of the messages of its own kind. Of the nine overloads of
   `update` one breaks the law: the clients of an action service are recorded
   among the clients of the services. -/
namespace StreamFdl
open Runs FoldView

/-! What a message carries for each field. -/

namespace NodeUpdate

def publishesTo : NodeUpdate → MemberProxies
  | publishersTo _ publishesTo => [⟨publishesTo, true⟩]
  | _ => []

def subscribesTo : NodeUpdate → MemberProxies
  | subscribersTo _ subscribesTo => [⟨subscribesTo, true⟩]
  | _ => []

def clients (service : String) : NodeUpdate → MemberProxies
  | isServerFor _ srvName clientNodeId => if srvName = service then [⟨clientNodeId, false⟩] else []
  | _ => []

def actionClients (service : String) : NodeUpdate → MemberProxies
  | isActionServerFor _ srvName actionclientNodeId =>
    if srvName = service then [⟨actionclientNodeId, false⟩] else []
  | _ => []

def servers (service : String) : NodeUpdate → MemberProxies
  | isClientOf _ srvName serverNodeId => if srvName = service then [⟨serverNodeId, false⟩] else []
  | _ => []

def actionServers (service : String) : NodeUpdate → MemberProxies
  | isActionClientOf _ srvName actionserverNodeId =>
    if srvName = service then [⟨actionserverNodeId, false⟩] else []
  | _ => []

/-- Whether the node is alive, and since when. -/
def states : NodeUpdate → List (Bool × Timestamp)
  | state _ newState stateChangeTime => [(decide (newState = .ACTIVE), stateChangeTime)]
  | _ => []

def isForAction : NodeUpdate → Bool
  | isActionServerFor _ _ _ => true
  | _ => false

end NodeUpdate

/-- The message names the client of an action service. -/
def Update.isForAction : Update → Bool
  | .node u => u.isForAction
  | .topic _ => false

namespace TopicUpdate

def publisherEdges : TopicUpdate → List CommunicationEdge
  | publishers _ edge publisher => [⟨edge, ⟨publisher, false⟩⟩]
  | _ => []

def subscriberEdges : TopicUpdate → List CommunicationEdge
  | subscribers _ edge subscriber => [⟨edge, ⟨subscriber, false⟩⟩]
  | _ => []

end TopicUpdate

/-- The messages about one node. -/
def nodeUpdates (us : List Update) (primary : PrimaryKey) : List NodeUpdate :=
  us.flatMap fun
    | .node u => if u.primaryKey = primary then [u] else []
    | .topic _ => []

/-- The messages about one topic. -/
def topicUpdates (us : List Update) (primary : PrimaryKey) : List TopicUpdate :=
  us.flatMap fun
    | .node _ => []
    | .topic u => if u.primaryKey = primary then [u] else []

@[simp] theorem mem_nodeUpdates {us : List Update} {primary : PrimaryKey} {v : NodeUpdate} :
    v ∈ nodeUpdates us primary ↔ .node v ∈ us ∧ v.primaryKey = primary := by
  unfold nodeUpdates
  rw [List.mem_flatMap]
  constructor
  · intro h
    obtain ⟨u, hu, hv⟩ := h
    cases u with
    | topic w => cases hv
    | node w =>
      by_cases hkey : w.primaryKey = primary
      · simp only [hkey, ↓reduceIte, List.mem_singleton] at hv
        subst hv
        exact ⟨hu, hkey⟩
      · simp [hkey] at hv
  · intro h
    exact ⟨_, h.1, by simp [h.2]⟩

@[simp] theorem mem_topicUpdates {us : List Update} {primary : PrimaryKey} {v : TopicUpdate} :
    v ∈ topicUpdates us primary ↔ .topic v ∈ us ∧ v.primaryKey = primary := by
  unfold topicUpdates
  rw [List.mem_flatMap]
  constructor
  · intro h
    obtain ⟨u, hu, hv⟩ := h
    cases u with
    | node w => cases hv
    | topic w =>
      by_cases hkey : w.primaryKey = primary
      · simp only [hkey, ↓reduceIte, List.mem_singleton] at hv
        subst hv
        exact ⟨hu, hkey⟩
      · simp [hkey] at hv
  · intro h
    exact ⟨_, h.1, by simp [h.2]⟩

/-! The law. -/

/-- Liveness after a sequence of state changes. -/
def aliveAfter (alive : Bool) (states : List (Bool × Timestamp)) : Bool :=
  (states.getLast?.map Prod.fst).getD alive

/-- The time at which liveness last changed. -/
structure LastChange (alive : Bool) (since : Timestamp) (states : List (Bool × Timestamp)) (time : Timestamp) :
    Prop where
  never : (∀ m ∈ states, m.1 = alive) → time = since
  last : ∀ pre m post, states = pre ++ m :: post → m.1 ≠ aliveAfter alive pre →
    (∀ m' ∈ post, m'.1 = m.1) → time = m.2

/-- Each field of a node tells of the messages of its kind. -/
structure NodeLaw (us : List NodeUpdate) (before after : Node) : Prop where
  mClients : ∀ service, after.mClients.lookup service =
    extend (before.mClients.lookup service) (us.flatMap (NodeUpdate.clients service))
  mActionClients : ∀ service, after.mActionClients.lookup service =
    extend (before.mActionClients.lookup service) (us.flatMap (NodeUpdate.actionClients service))
  mServers : ∀ service, after.mServers.lookup service =
    first (before.mServers.lookup service) (us.flatMap (NodeUpdate.servers service))
  mActionServers : ∀ service, after.mActionServers.lookup service =
    first (before.mActionServers.lookup service) (us.flatMap (NodeUpdate.actionServers service))
  mPublishesTo : after.mPublishesTo = before.mPublishesTo ++ us.flatMap NodeUpdate.publishesTo
  mSubscribesTo : after.mSubscribesTo = before.mSubscribesTo ++ us.flatMap NodeUpdate.subscribesTo
  mAlive : after.mAlive = aliveAfter before.mAlive (us.flatMap NodeUpdate.states)
  mAliveChangeTime : LastChange before.mAlive before.mAliveChangeTime (us.flatMap NodeUpdate.states)
    after.mAliveChangeTime
  rest : after.mPrimaryKey = before.mPrimaryKey ∧ after.mmAttributes = before.mmAttributes ∧
    after.mName = before.mName ∧ after.mPkgName = before.mPkgName ∧
    after.mBootCount = before.mBootCount ∧ after.mProcessId = before.mProcessId

structure TopicLaw (us : List TopicUpdate) (before after : Topic) : Prop where
  mPublishers : after.mPublishers = before.mPublishers ++ us.flatMap TopicUpdate.publisherEdges
  mSubscribers : after.mSubscribers = before.mSubscribers ++ us.flatMap TopicUpdate.subscriberEdges
  rest : after.mPrimaryKey = before.mPrimaryKey ∧ after.mmAttributes = before.mmAttributes ∧
    after.mName = before.mName ∧ after.mType = before.mType

/-! The fields of a node after any messages. -/

theorem ClientMapping.lookup_addClient (m : ClientMapping) (srvName service : String) (client : MemberProxy) :
    (m.addClient srvName client).lookup service =
      extend (m.lookup service) (if srvName = service then [client] else []) := by
  have apart : ∀ a b : String, OrderedMap.Equiv (· < ·) a b ↔ a = b := fun a b => OrderedMap.equiv_iff_eq
  have hnone : (m.find? srvName).isNone = (m.lookup srvName).isNone := by
    unfold OrderedMap.lookup
    rw [Option.isNone_map]
  unfold addClient
  rw [OrderedMap.lookup_mapValues apart, hnone]
  by_cases hsrv : srvName = service
  · subst hsrv
    rw [if_pos rfl]
    cases hm : m.lookup srvName with
    | some clients =>
      rw [if_neg (by simp), hm]
      simp [extend]
    | none =>
      rw [if_pos Option.isNone_none, OrderedMap.lookup_emplace_self apart, hm]
      simp [extend]
  · rw [if_neg hsrv]
    have hsame : (if (m.lookup srvName).isNone then (m.emplace srvName []).1 else m).lookup service =
        m.lookup service := by
      split
      · exact OrderedMap.lookup_emplace_of_ne apart (Ne.symm hsrv)
      · rfl
    rw [hsame]
    simp [extend, Ne.symm hsrv]

theorem ServiceMapping.lookup_emplace (m : ServiceMapping) (srvName service : String) (server : MemberProxy) :
    (m.emplace srvName server).1.lookup service =
      first (m.lookup service) (if srvName = service then [server] else []) := by
  have apart : ∀ a b : String, OrderedMap.Equiv (· < ·) a b ↔ a = b := fun a b => OrderedMap.equiv_iff_eq
  unfold first
  by_cases hsrv : srvName = service
  · subst hsrv
    rw [OrderedMap.lookup_emplace_self apart, if_pos rfl]
    cases m.lookup srvName <;> rfl
  · rw [OrderedMap.lookup_emplace_of_ne apart (Ne.symm hsrv), if_neg hsrv]
    simp

/-- Liveness and the time of its last change, after one more message. -/
def live (s : Bool × Timestamp) (m : Bool × Timestamp) : Bool × Timestamp := if m.1 ≠ s.1 then m else s

theorem live_fst (alive : Bool) (since : Timestamp) (states : List (Bool × Timestamp)) :
    (states.foldl live (alive, since)).1 = aliveAfter alive states := by
  induction states using List.reverseRecOn with
  | nil => rfl
  | append_singleton states m ih =>
    rw [List.foldl_append, List.foldl_cons, List.foldl_nil]
    unfold aliveAfter live
    rw [List.getLast?_append_of_ne_nil _ (List.cons_ne_nil m []), List.getLast?_singleton, Option.map_some,
      Option.getD_some]
    split
    · rfl
    · next h => exact (not_ne_iff.mp h).symm

theorem aliveAfter_eq {alive b : Bool} {states : List (Bool × Timestamp)}
    (h : ∀ m ∈ states, m.1 = b) (hstart : states = [] → alive = b) : aliveAfter alive states = b := by
  unfold aliveAfter
  cases hlast : states.getLast? with
  | none => exact hstart (List.getLast?_eq_none_iff.mp hlast)
  | some m => exact h m (List.mem_of_getLast? hlast)

theorem aliveAfter_cons {alive : Bool} {m : Bool × Timestamp} {pre post : List (Bool × Timestamp)}
    (h : ∀ m' ∈ post, m'.1 = m.1) : aliveAfter alive (pre ++ m :: post) = m.1 := by
  have hall : ∀ m' ∈ m :: post, m'.1 = m.1 := by
    intro m' hm'
    obtain rfl | hm' := List.mem_cons.mp hm'
    · rfl
    · exact h m' hm'
  unfold aliveAfter
  rw [List.getLast?_append_of_ne_nil _ (List.cons_ne_nil m post)]
  exact aliveAfter_eq hall fun hnil => absurd hnil (List.cons_ne_nil m post)

theorem lastChange_live (alive : Bool) (since : Timestamp) (states : List (Bool × Timestamp)) :
    LastChange alive since states (states.foldl live (alive, since)).2 := by
  induction states using List.reverseRecOn with
  | nil => exact ⟨fun _ => rfl, fun pre m post h => absurd h.symm (by simp)⟩
  | append_singleton states m ih =>
    rw [List.foldl_append, List.foldl_cons, List.foldl_nil]
    have hfst := live_fst alive since states
    by_cases hm : m.1 = aliveAfter alive states
    · -- the message changes nothing, so it is not the last change
      rw [live, if_neg (by rw [hfst]; exact not_ne_iff.mpr hm)]
      refine ⟨fun hall => ih.never fun m' hm' => hall m' (List.mem_append_left _ hm'), ?_⟩
      intro pre m' post hsplit hne hpost
      obtain rfl | ⟨post', z, rfl⟩ := List.eq_nil_or_concat' post
      · obtain ⟨rfl, heq⟩ := List.append_inj' hsplit rfl
        cases heq
        exact absurd hm hne
      · rw [← List.cons_append, ← List.append_assoc] at hsplit
        obtain ⟨rfl, _⟩ := List.append_inj' hsplit rfl
        exact ih.last pre m' post' rfl hne fun m'' hm'' => hpost m'' (List.mem_append_left _ hm'')
    · rw [live, if_pos (by rw [hfst]; exact hm)]
      refine ⟨fun hall => absurd ?_ hm, ?_⟩
      · rw [hall m (by simp)]
        exact (aliveAfter_eq (fun m' hm' => hall m' (List.mem_append_left _ hm')) fun _ => rfl).symm
      · intro pre m' post hsplit _ hpost
        obtain rfl | ⟨post', z, rfl⟩ := List.eq_nil_or_concat' post
        · obtain ⟨_, heq⟩ := List.append_inj' hsplit rfl
          cases heq
          rfl
        · -- an earlier change would have been to what this message says
          rw [← List.cons_append, ← List.append_assoc] at hsplit
          obtain ⟨rfl, heq⟩ := List.append_inj' hsplit rfl
          cases heq
          refine absurd ?_ hm
          rw [aliveAfter_cons fun m'' hm'' => hpost m'' (List.mem_append_left _ hm'')]
          exact hpost m (List.mem_append_right _ (List.mem_singleton_self m))

/-- What the code records as clients: an action server's message is read like a server's. -/
def NodeUpdate.recorded (service : String) (u : NodeUpdate) : MemberProxies :=
  u.clients service ++ u.actionClients service

/-- The fields of a node as `update` leaves them. -/
structure NodeFold (us : List NodeUpdate) (before after : Node) : Prop where
  mClients : ∀ service, after.mClients.lookup service =
    extend (before.mClients.lookup service) (us.flatMap (NodeUpdate.recorded service))
  mActionClients : after.mActionClients = before.mActionClients
  mServers : ∀ service, after.mServers.lookup service =
    first (before.mServers.lookup service) (us.flatMap (NodeUpdate.servers service))
  mActionServers : ∀ service, after.mActionServers.lookup service =
    first (before.mActionServers.lookup service) (us.flatMap (NodeUpdate.actionServers service))
  mPublishesTo : after.mPublishesTo = before.mPublishesTo ++ us.flatMap NodeUpdate.publishesTo
  mSubscribesTo : after.mSubscribesTo = before.mSubscribesTo ++ us.flatMap NodeUpdate.subscribesTo
  live : (after.mAlive, after.mAliveChangeTime) =
    (us.flatMap NodeUpdate.states).foldl live (before.mAlive, before.mAliveChangeTime)
  rest : after.mPrimaryKey = before.mPrimaryKey ∧ after.mmAttributes = before.mmAttributes ∧
    after.mName = before.mName ∧ after.mPkgName = before.mPkgName ∧
    after.mBootCount = before.mBootCount ∧ after.mProcessId = before.mProcessId

theorem Node.update_state (node : Node) (key : PrimaryKey) (state : State) (time : Timestamp) :
    node.update (.state key state time) =
      { node with
        mAlive := (StreamFdl.live (node.mAlive, node.mAliveChangeTime) (decide (state = .ACTIVE), time)).1
        mAliveChangeTime :=
          (StreamFdl.live (node.mAlive, node.mAliveChangeTime) (decide (state = .ACTIVE), time)).2 } := by
  simp only [Node.update, StreamFdl.live]
  split <;> rfl

theorem Node.foldl_update (us : List NodeUpdate) (node : Node) :
    NodeFold us node (us.foldl Node.update node) where
  mClients service := by
    apply acts_extend.foldl (g := fun n : Node => n.mClients.lookup service)
    intro n u
    cases u with
    | isServerFor _ srvName client =>
      show (n.mClients.addClient srvName ⟨client, false⟩).lookup service = _
      rw [ClientMapping.lookup_addClient]
      simp [NodeUpdate.recorded, NodeUpdate.clients, NodeUpdate.actionClients]
    | isActionServerFor _ srvName client =>
      show (n.mClients.addClient srvName ⟨client, false⟩).lookup service = _
      rw [ClientMapping.lookup_addClient]
      simp [NodeUpdate.recorded, NodeUpdate.clients, NodeUpdate.actionClients]
    | state key state time => rw [Node.update_state]; rfl
    | _ => rfl
  mActionClients := by
    apply foldl_frame
    intro n u
    cases u with
    | state key state time => rw [Node.update_state]
    | _ => rfl
  mServers service := by
    apply acts_first.foldl (g := fun n : Node => n.mServers.lookup service)
    intro n u
    cases u with
    | isClientOf _ srvName server => exact ServiceMapping.lookup_emplace n.mServers srvName service ⟨server, false⟩
    | state key state time => rw [Node.update_state]; exact (acts_first.nil _).symm
    | _ => exact (acts_first.nil _).symm
  mActionServers service := by
    apply acts_first.foldl (g := fun n : Node => n.mActionServers.lookup service)
    intro n u
    cases u with
    | isActionClientOf _ srvName server =>
      exact ServiceMapping.lookup_emplace n.mActionServers srvName service ⟨server, false⟩
    | state key state time => rw [Node.update_state]; exact (acts_first.nil _).symm
    | _ => exact (acts_first.nil _).symm
  mPublishesTo := by
    apply acts_append.foldl
    intro n u
    cases u with
    | publishersTo _ _ => rfl
    | state key state time => rw [Node.update_state]; exact (List.append_nil _).symm
    | _ => exact (List.append_nil _).symm
  mSubscribesTo := by
    apply acts_append.foldl
    intro n u
    cases u with
    | subscribersTo _ _ => rfl
    | state key state time => rw [Node.update_state]; exact (List.append_nil _).symm
    | _ => exact (List.append_nil _).symm
  live := by
    apply (acts_foldl StreamFdl.live).foldl (g := fun n : Node => (n.mAlive, n.mAliveChangeTime))
    intro n u
    cases u with
    | state key state time => rw [Node.update_state]; rfl
    | _ => rfl
  rest := by
    refine ⟨?_, ?_, ?_, ?_, ?_, ?_⟩
    all_goals
      apply foldl_frame
      intro n u
      cases u with
      | state key state time => rw [Node.update_state]
      | _ => rfl

/-- The law holds of a node unless one of its messages is an action server's. -/
theorem NodeFold.law_iff {us : List NodeUpdate} {before after : Node} (h : NodeFold us before after) :
    NodeLaw us before after ↔ ∀ u ∈ us, u.isForAction = false := by
  constructor
  · intro hlaw u hu
    cases u with
    | isActionServerFor key srvName client =>
      -- its client belongs in a field that no message changes
      have hcarried : us.flatMap (NodeUpdate.actionClients srvName) ≠ [] := by
        rw [Ne, List.flatMap_eq_nil_iff]
        intro hnil
        have := hnil _ hu
        simp [NodeUpdate.actionClients] at this
      have hlookup := hlaw.mActionClients srvName
      rw [h.mActionClients] at hlookup
      exact absurd hlookup.symm (extend_ne hcarried)
    | _ => rfl
  · intro hnone
    have hcarried : ∀ service, ∀ u ∈ us, u.actionClients service = [] := by
      intro service u hu
      have := hnone u hu
      cases u with
      | isActionServerFor _ _ _ => cases this
      | _ => rfl
    refine ⟨fun service => ?_, fun service => ?_, h.mServers, h.mActionServers, h.mPublishesTo, h.mSubscribesTo,
      ?_, ?_, h.rest⟩
    · have hsame : us.flatMap (NodeUpdate.recorded service) = us.flatMap (NodeUpdate.clients service) := by
        apply List.flatMap_congr
        intro u hu
        rw [NodeUpdate.recorded, hcarried service u hu, List.append_nil]
      rw [h.mClients, hsame]
    · rw [h.mActionClients, List.flatMap_eq_nil_iff.mpr (hcarried service)]
      rfl
    · rw [← live_fst before.mAlive before.mAliveChangeTime, ← h.live]
    · have hlast := lastChange_live before.mAlive before.mAliveChangeTime (us.flatMap NodeUpdate.states)
      rwa [← h.live] at hlast

theorem Topic.foldl_update (us : List TopicUpdate) (topic : Topic) :
    TopicLaw us topic (us.foldl Topic.update topic) where
  mPublishers := by
    apply acts_append.foldl
    intro t u
    cases u with
    | publishers _ _ _ => rfl
    | subscribers _ _ _ => exact (List.append_nil _).symm
  mSubscribers := by
    apply acts_append.foldl
    intro t u
    cases u with
    | publishers _ _ _ => exact (List.append_nil _).symm
    | subscribers _ _ _ => rfl
  rest := by
    refine ⟨?_, ?_, ?_, ?_⟩
    all_goals
      apply foldl_frame
      intro t u
      cases u <;> rfl

/-! Messages over the stored members. -/

/-- All messages, as the member that is stored receives them. -/
def Node.receive (us : List Update) (node : Node) : Node :=
  (nodeUpdates us node.mPrimaryKey).foldl Node.update node

def Topic.receive (us : List Update) (topic : Topic) : Topic :=
  (topicUpdates us topic.mPrimaryKey).foldl Topic.update topic

@[simp] theorem Node.receive_mPrimaryKey (us : List Update) (node : Node) :
    (node.receive us).mPrimaryKey = node.mPrimaryKey := (foldl_update _ node).rest.1

@[simp] theorem Topic.receive_mPrimaryKey (us : List Update) (topic : Topic) :
    (topic.receive us).mPrimaryKey = topic.mPrimaryKey := (foldl_update _ topic).rest.1

theorem Node.receive_cons (u : Update) (us : List Update) (node : Node) :
    node.receive (u :: us) = (node.receive [u]).receive us := by
  unfold receive nodeUpdates
  rw [show u :: us = [u] ++ us from rfl, List.flatMap_append, List.foldl_append]
  show _ = (nodeUpdates us (node.receive [u]).mPrimaryKey).foldl Node.update (node.receive [u])
  rw [receive_mPrimaryKey]
  rfl

theorem Topic.receive_cons (u : Update) (us : List Update) (topic : Topic) :
    topic.receive (u :: us) = (topic.receive [u]).receive us := by
  unfold receive topicUpdates
  rw [show u :: us = [u] ++ us from rfl, List.flatMap_append, List.foldl_append]
  show _ = (topicUpdates us (topic.receive [u]).mPrimaryKey).foldl Topic.update (topic.receive [u])
  rw [receive_mPrimaryKey]
  rfl

def Data.mapInst {T : Type} (f : T → T) (d : Data T) : Data T := { d with inst := f d.inst }

namespace DoubleLinkedList

variable {T : Type} [Stored T] {l l' : DoubleLinkedList T} {a : Nat}

/-- The searches of the list start at its first element. -/
def Searchable (l : DoubleLinkedList T) : Prop := ∃ xs, l.Rep xs ∧ l.mBegin = xs.head?

omit [Stored T] in
theorem Searchable.modify {f : Data T → Data T} (h : l.Searchable) (hl : l.modify a f = some l') :
    l'.Searchable := by
  obtain ⟨xs, hx, hbegin⟩ := h
  obtain ⟨_, _, _, hbegin', _⟩ := modify_spec hl
  exact ⟨xs, hx.modify hl, hbegin'.trans hbegin⟩

theorem Searchable.find_defined (h : l.Searchable) (primary : PrimaryKey) : ∃ it, l.find primary = some it := by
  obtain ⟨xs, hx, hbegin⟩ := h
  unfold find
  rw [hbegin]
  exact ⟨_, findFrom_seg _ none hx.length_le hx.seg⟩

end DoubleLinkedList

namespace DataStore

/-- `DataStore::run`, for one message: the member is searched for, updated, and queued for the graph;
    a message for a member that is not stored is ignored. -/
def handle (s : DataStore) (u : Update) : Option DataStore := do
  match ← s.findUpdated u with
  | none => some s
  | some it =>
    let s ← s.update it u
    some (s.queue u)

/-- No two nodes and no two topics share a primary key. -/
def KeysUnique (s : DataStore) : Prop :=
  ∀ r r' e e', s.header r = some e → s.header r' = some e' → r.isTopic = r'.isTopic →
    e.mPrimaryKey = e'.mPrimaryKey → r = r'

/-- The searches of both lists are defined. -/
structure Searchable (s : DataStore) : Prop where
  nodes : s.mNodes.Searchable
  topics : s.mTopics.Searchable

/-- No stored member has the key of the message. -/
def Unknown (s : DataStore) (u : Update) : Prop :=
  ∀ a e, s.header ⟨u.isTopic, a⟩ = some e → e.mPrimaryKey ≠ u.primaryKey

/-- What messages do to the store: its members receive them. -/
structure Handled (us : List Update) (s s' : DataStore) : Prop where
  header : s'.header = s.header
  nodes : ∀ a, s'.mNodes.data a = (s.mNodes.data a).map (Data.mapInst (Node.receive us))
  topics : ∀ a, s'.mTopics.data a = (s.mTopics.data a).map (Data.mapInst (Topic.receive us))

variable {s s' : DataStore} {us : List Update}

theorem Searchable.wellFormed (h : s.Searchable) : s.WellFormed := by
  obtain ⟨⟨xs, hxs, _⟩, ⟨ys, hys, _⟩⟩ := h
  exact ⟨⟨xs, hxs⟩, ⟨ys, hys⟩⟩

theorem Intact.searchable (h : s.Intact) : s.Searchable :=
  ⟨h.nodes.imp fun _ hx => ⟨hx.rep, hx.begin_eq⟩, h.topics.imp fun _ hx => ⟨hx.rep, hx.begin_eq⟩⟩

theorem queue_lists (s : DataStore) (u : Update) :
    (s.queue u).mNodes = s.mNodes ∧ (s.queue u).mTopics = s.mTopics := by
  cases u with
  | node u => cases u <;> exact ⟨rfl, rfl⟩
  | topic u => cases u <;> exact ⟨rfl, rfl⟩

end DataStore

theorem Node.receive_node (v : NodeUpdate) :
    Node.receive [.node v] = fun node => if node.mPrimaryKey = v.primaryKey then node.update v else node := by
  funext node
  unfold receive nodeUpdates
  by_cases hkey : v.primaryKey = node.mPrimaryKey
  · simp [hkey]
  · simp [hkey, Ne.symm hkey]

theorem Topic.receive_topic (v : TopicUpdate) :
    Topic.receive [.topic v] = fun topic => if topic.mPrimaryKey = v.primaryKey then topic.update v else topic := by
  funext topic
  unfold receive topicUpdates
  by_cases hkey : v.primaryKey = topic.mPrimaryKey
  · simp [hkey]
  · simp [hkey, Ne.symm hkey]

namespace DoubleLinkedList

variable {T : Type} [Stored T] {l : DoubleLinkedList T}

/-- A write to the elements with a key that no element has. -/
theorem map_keyed_of_missing {primary : PrimaryKey} {f : T → T}
    (h : ∀ a e, l.header a = some e → e.mPrimaryKey ≠ primary) (b : Nat) :
    l.data b = (l.data b).map (Data.mapInst fun t => if Stored.mPrimaryKey t = primary then f t else t) := by
  cases hd : l.data b with
  | none => rfl
  | some d =>
    have hne : Stored.mPrimaryKey d.inst ≠ primary := h b (Data.header d) (by rw [header, hd]; rfl)
    rw [Option.map_some, Data.mapInst, if_neg hne]

/-- A write to the only element with a key is a write to all elements with it. -/
theorem modify_keyed {primary : PrimaryKey} {f : T → T} {e : Header}
    (he : l.header a = some e) (hkey : e.mPrimaryKey = primary)
    (honly : ∀ b e', l.header b = some e' → e'.mPrimaryKey = primary → b = a)
    (hl : l.modify a (Data.mapInst f) = some l') (b : Nat) :
    l'.data b = (l.data b).map (Data.mapInst fun t => if Stored.mPrimaryKey t = primary then f t else t) := by
  obtain ⟨⟨d, hd, hdata⟩, _⟩ := modify_spec hl
  rw [hdata]
  by_cases hb : b = a
  · subst hb
    have hd' : Stored.mPrimaryKey d.inst = primary := by
      unfold header at he
      rw [hd] at he
      cases he
      exact hkey
    rw [Function.update_self, hd, Option.map_some, Data.mapInst, Data.mapInst, if_pos hd']
  · rw [Function.update_of_ne hb]
    cases hd' : l.data b with
    | none => rfl
    | some d' =>
      have hne : Stored.mPrimaryKey d'.inst ≠ primary := by
        intro heq
        exact hb (honly b (Data.header d') (by rw [header, hd']; rfl) heq)
      rw [Option.map_some, Data.mapInst, if_neg hne]

/-- No two elements share a primary key. -/
def KeysUnique (l : DoubleLinkedList T) : Prop :=
  ∀ a b e e', l.header a = some e → l.header b = some e' → e.mPrimaryKey = e'.mPrimaryKey → a = b

/-- A write to the element that the search for a key finds is a write to all elements with the key. -/
theorem find_modify (h : l.Searchable) (hkeys : l.KeysUnique) (primary : PrimaryKey) {f : T → T}
    (hf : ∀ t, Stored.mPrimaryKey (f t) = Stored.mPrimaryKey t) :
    (l.find primary = some none ∧ ∀ a e, l.header a = some e → e.mPrimaryKey ≠ primary) ∨
    ∃ a e l', l.find primary = some (some a) ∧ l.header a = some e ∧ e.mPrimaryKey = primary ∧
      l.modify a (Data.mapInst f) = some l' ∧ l'.header = l.header ∧ l'.Searchable ∧
      ∀ b, l'.data b =
        (l.data b).map (Data.mapInst fun t => if Stored.mPrimaryKey t = primary then f t else t) := by
  obtain ⟨it, hit⟩ := h.find_defined primary
  obtain ⟨xs, hx, _⟩ := id h
  obtain ⟨hfound, hmissing⟩ := find_header ⟨xs, hx⟩ hit
  cases it with
  | none => exact Or.inl ⟨hit, hmissing rfl⟩
  | some a =>
    obtain ⟨e, he, hkey⟩ := hfound a rfl
    have hlive : a ∈ xs := by
      rw [← hx.live, ← header_eq_none.ne]
      exact Option.ne_none_iff_exists'.mpr ⟨e, he⟩
    obtain ⟨l', hl⟩ := modify_defined hx hlive (Data.mapInst f)
    exact Or.inr ⟨a, e, l', hit, he, hkey, hl, header_modify_inst hf hl, h.modify hl,
      modify_keyed he hkey (fun b e' he' hkey' => hkeys b a e' e he' he (hkey'.trans hkey.symm)) hl⟩

omit [Stored T] in
/-- Messages of the other kind leave the elements as they are. -/
theorem map_mapInst_id (a : Nat) : l.data a = (l.data a).map (Data.mapInst fun t => t) := by
  cases l.data a <;> rfl

end DoubleLinkedList

namespace DataStore

variable {s s' : DataStore} {us : List Update}

theorem KeysUnique.nodes (h : s.KeysUnique) : s.mNodes.KeysUnique :=
  fun a b e e' he he' hkey => congrArg Ref.addr (h ⟨false, a⟩ ⟨false, b⟩ e e' he he' rfl hkey)

theorem KeysUnique.topics (h : s.KeysUnique) : s.mTopics.KeysUnique :=
  fun a b e e' he he' hkey => congrArg Ref.addr (h ⟨true, a⟩ ⟨true, b⟩ e e' he he' rfl hkey)

/-- One message, to any member or to none. -/
theorem handle_spec (h : s.Searchable) (hkeys : s.KeysUnique) (u : Update) :
    ∃ s', s.handle u = some s' ∧ Handled [u] s s' ∧ s'.Searchable ∧ (s.Unknown u → s' = s) := by
  cases u with
  | node v =>
    have htopics : ∀ a, s.mTopics.data a = (s.mTopics.data a).map (Data.mapInst (Topic.receive [.node v])) :=
      DoubleLinkedList.map_mapInst_id
    obtain ⟨hfind, hmissing⟩ | ⟨a, e, l, hfind, he, hkey, hl, hheader, hsearch, hdata⟩ :=
      DoubleLinkedList.find_modify h.nodes hkeys.nodes v.primaryKey (f := fun n => n.update v)
        fun n => n.update_mPrimaryKey v
    · refine ⟨s, ?_, ⟨rfl, fun b => ?_, htopics⟩, h, fun _ => rfl⟩
      · simp [handle, findUpdated, hfind]
      · rw [Node.receive_node]
        exact DoubleLinkedList.map_keyed_of_missing hmissing b
    · obtain ⟨hnodes', htopics'⟩ := queue_lists { s with mNodes := l } (.node v)
      refine ⟨queue { s with mNodes := l } (.node v), ?_, ⟨?_, fun b => ?_, fun b => ?_⟩, ⟨?_, ?_⟩,
        fun hunknown => absurd hkey (hunknown a e he)⟩
      · have hupdate : s.update a (.node v) = some { s with mNodes := l } :=
          Option.map_eq_some_iff.mpr ⟨l, hl, rfl⟩
        simp [handle, findUpdated, hfind, hupdate]
      · rw [(queue_spec _ _).1, header_congr_nodes hheader]
      · rw [hnodes', Node.receive_node]
        exact hdata b
      · rw [htopics']
        exact htopics b
      · rw [hnodes']
        exact hsearch
      · rw [htopics']
        exact h.topics
  | topic v =>
    have hnodes : ∀ a, s.mNodes.data a = (s.mNodes.data a).map (Data.mapInst (Node.receive [.topic v])) :=
      DoubleLinkedList.map_mapInst_id
    obtain ⟨hfind, hmissing⟩ | ⟨a, e, l, hfind, he, hkey, hl, hheader, hsearch, hdata⟩ :=
      DoubleLinkedList.find_modify h.topics hkeys.topics v.primaryKey (f := fun t => t.update v)
        fun t => t.update_mPrimaryKey v
    · refine ⟨s, ?_, ⟨rfl, hnodes, fun b => ?_⟩, h, fun _ => rfl⟩
      · simp [handle, findUpdated, hfind]
      · rw [Topic.receive_topic]
        exact DoubleLinkedList.map_keyed_of_missing hmissing b
    · obtain ⟨hnodes', htopics'⟩ := queue_lists { s with mTopics := l } (.topic v)
      refine ⟨queue { s with mTopics := l } (.topic v), ?_, ⟨?_, fun b => ?_, fun b => ?_⟩, ⟨?_, ?_⟩,
        fun hunknown => absurd hkey (hunknown a e he)⟩
      · have hupdate : s.update a (.topic v) = some { s with mTopics := l } :=
          Option.map_eq_some_iff.mpr ⟨l, hl, rfl⟩
        simp [handle, findUpdated, hfind, hupdate]
      · rw [(queue_spec _ _).1, header_congr_topics hheader]
      · rw [hnodes']
        exact hnodes b
      · rw [htopics', Topic.receive_topic]
        exact hdata b
      · rw [hnodes']
        exact h.nodes
      · rw [htopics']
        exact hsearch

theorem Handled.trans {s₁ : DataStore} {u : Update} (h : Handled [u] s s₁) (h' : Handled us s₁ s') :
    Handled (u :: us) s s' := by
  refine ⟨h'.header.trans h.header, fun a => ?_, fun a => ?_⟩
  · rw [h'.nodes, h.nodes, Option.map_map]
    apply congrArg (fun f => (s.mNodes.data a).map f)
    funext d
    show Data.mapInst _ (Data.mapInst _ d) = Data.mapInst _ d
    simp only [Data.mapInst, Node.receive_cons u us]
  · rw [h'.topics, h.topics, Option.map_map]
    apply congrArg (fun f => (s.mTopics.data a).map f)
    funext d
    show Data.mapInst _ (Data.mapInst _ d) = Data.mapInst _ d
    simp only [Data.mapInst, Topic.receive_cons u us]

theorem handled_nil (s : DataStore) : Handled [] s s :=
  ⟨rfl, DoubleLinkedList.map_mapInst_id, DoubleLinkedList.map_mapInst_id⟩

theorem KeysUnique.of_header (h : s.KeysUnique) (heq : s'.header = s.header) : s'.KeysUnique := by
  unfold KeysUnique
  rw [heq]
  exact h

/-- A new element whose key no element of its kind has keeps the keys distinct. -/
theorem KeysUnique.insert {r : Ref} {e : Header} (h : s.KeysUnique)
    (hs : s'.header = Function.update s.header r (some e))
    (hnew : ∀ r' e', r'.isTopic = r.isTopic → s.header r' = some e' → e'.mPrimaryKey ≠ e.mPrimaryKey) :
    s'.KeysUnique := by
  intro r₁ r₂ e₁ e₂ h₁ h₂ hkind hkey
  rw [hs] at h₁ h₂
  by_cases hr₁ : r₁ = r
  · by_cases hr₂ : r₂ = r
    · rw [hr₁, hr₂]
    · rw [hr₁, Function.update_self] at h₁
      rw [Function.update_of_ne hr₂] at h₂
      cases h₁
      exact absurd hkey.symm (hnew r₂ e₂ (hkind ▸ congrArg Ref.isTopic hr₁) h₂)
  · rw [Function.update_of_ne hr₁] at h₁
    by_cases hr₂ : r₂ = r
    · rw [hr₂, Function.update_self] at h₂
      cases h₂
      exact absurd hkey (hnew r₁ e₁ (hkind.trans (congrArg Ref.isTopic hr₂)) h₁)
    · rw [Function.update_of_ne hr₂] at h₂
      exact h r₁ r₂ e₁ e₂ h₁ h₂ hkind hkey

theorem keysUnique_new (k k' : PrimaryKey) : (new k k').KeysUnique := by
  intro r r' e e' he
  rw [header_new] at he
  cases he

theorem KeysUnique.emplaceNode {response : NodeResponse} {requestId : RequestId} {m : Member}
    (h : s.KeysUnique) (hw : s.WellFormed) (hs : s.emplaceNode response requestId = some (s', m))
    (hnew : ∀ a e, s.header ⟨false, a⟩ = some e → e.mPrimaryKey ≠ response.primaryKey) : s'.KeysUnique := by
  obtain ⟨_, hheader, hkind, _⟩ := emplaceNode_spec hs hw
  apply h.insert hheader
  intro r e hr he
  obtain ⟨isTopic, a⟩ := r
  obtain rfl : isTopic = false := hr.trans hkind
  exact hnew a e he

theorem KeysUnique.emplaceTopic {response : TopicResponse} {requestId : RequestId} {m : Member}
    (h : s.KeysUnique) (hw : s.WellFormed) (hs : s.emplaceTopic response requestId = some (s', m))
    (hnew : ∀ a e, s.header ⟨true, a⟩ = some e → e.mPrimaryKey ≠ response.primaryKey) : s'.KeysUnique := by
  obtain ⟨_, hheader, hkind, _⟩ := emplaceTopic_spec hs hw
  apply h.insert hheader
  intro r e hr he
  obtain ⟨isTopic, a⟩ := r
  obtain rfl : isTopic = true := hr.trans hkind
  exact hnew a e he

/-- Any sequence of messages is handled, and each member is left with its own folded over it. -/
theorem handled_run (h : s.Searchable) (hkeys : s.KeysUnique) (us : List Update) :
    ∃ s', run handle s us = some s' ∧ Handled us s s' ∧ s'.Searchable := by
  induction us generalizing s with
  | nil => exact ⟨s, rfl, handled_nil s, h⟩
  | cons u us ih =>
    obtain ⟨s₁, hu, hhandled, hsearch, _⟩ := handle_spec h hkeys u
    obtain ⟨s', hus, hrest, hsearch'⟩ := ih hsearch (hkeys.of_header hhandled.header)
    refine ⟨s', ?_, hhandled.trans hrest, hsearch'⟩
    rw [run_cons, hu]
    exact hus

/-- A message that no member has the key of can be left out. -/
theorem run_unknown (h : s.Searchable) (hkeys : s.KeysUnique) {pre post : List Update} {u : Update}
    (hu : s.Unknown u) : run handle s (pre ++ post) = run handle s (pre ++ u :: post) := by
  obtain ⟨s₁, hpre, hhandled, hsearch⟩ := handled_run h hkeys pre
  obtain ⟨s₂, hs₂, _, _, hsame⟩ := handle_spec hsearch (hkeys.of_header hhandled.header) u
  have hunknown : s₁.Unknown u := by
    unfold Unknown
    rw [hhandled.header]
    exact hu
  rw [run_append, run_append, hpre, Option.bind_some, Option.bind_some, run_cons, hs₂, hsame hunknown]
  rfl

/-- What the store should be after the messages: each member as its own messages tell, and nothing
    of a message for a member that is not stored. -/
structure MessageLaw (us : List Update) (s s' : DataStore) : Prop where
  header : s'.header = s.header
  nodes : ∀ a d, s.mNodes.data a = some d → ∃ d', s'.mNodes.data a = some d' ∧
    d'.requestId = d.requestId ∧ NodeLaw (nodeUpdates us d.inst.mPrimaryKey) d.inst d'.inst
  topics : ∀ a d, s.mTopics.data a = some d → ∃ d', s'.mTopics.data a = some d' ∧
    d'.requestId = d.requestId ∧ TopicLaw (topicUpdates us d.inst.mPrimaryKey) d.inst d'.inst
  unknown : ∀ pre u post, us = pre ++ u :: post → s.Unknown u → run handle s (pre ++ post) = some s'

theorem Handled.law_iff (h : Handled us s s') (hs : s.Searchable) (hkeys : s.KeysUnique)
    (hrun : run handle s us = some s') :
    MessageLaw us s s' ↔ ∀ u ∈ us, u.isForAction = true → s.Unknown u := by
  have hnode : ∀ a d, s.mNodes.data a = some d →
      s'.mNodes.data a = some (Data.mapInst (Node.receive us) d) := by
    intro a d hd
    rw [h.nodes, hd, Option.map_some]
  constructor
  · intro hlaw u hu haction a e he hkey
    cases u with
    | topic v => cases haction
    | node v =>
      obtain ⟨d, hd, rfl⟩ := Option.map_eq_some_iff.mp he
      obtain ⟨d', hd', _, hlaw⟩ := hlaw.nodes a d hd
      rw [hnode a d hd] at hd'
      cases hd'
      have hmem : v ∈ nodeUpdates us d.inst.mPrimaryKey := mem_nodeUpdates.mpr ⟨hu, hkey.symm⟩
      have hnot := (Node.foldl_update _ d.inst).law_iff.mp hlaw v hmem
      exact absurd haction (by rw [Update.isForAction, hnot]; exact Bool.false_ne_true)
  · intro hcond
    refine ⟨h.header, fun a d hd => ⟨_, hnode a d hd, rfl, ?_⟩, fun a d hd => ?_, ?_⟩
    · apply (Node.foldl_update _ d.inst).law_iff.mpr
      intro v hv
      obtain ⟨hu, hkey⟩ := mem_nodeUpdates.mp hv
      rw [← Bool.not_eq_true]
      intro haction
      exact hcond _ hu haction a (DoubleLinkedList.Data.header d)
        (Option.map_eq_some_iff.mpr ⟨d, hd, rfl⟩) hkey.symm
    · refine ⟨Data.mapInst (Topic.receive us) d, ?_, rfl, Topic.foldl_update _ d.inst⟩
      rw [h.topics, hd, Option.map_some]
    · intro pre u post hsplit hunknown
      rw [run_unknown hs hkeys hunknown, ← hsplit, hrun]

end DataStore

open DataStore

/-- Over any stored members with distinct keys, any sequence of messages is handled, and it leaves
    what the law says exactly when no message about an action service's clients has the key of a
    stored node. -/
theorem messages_law_iff {s : DataStore} (searchable : s.Searchable) (unique : s.KeysUnique) (us : List Update) :
    ∃ s', run handle s us = some s' ∧
      (MessageLaw us s s' ↔ ∀ u ∈ us, u.isForAction = true → s.Unknown u) := by
  obtain ⟨s', hrun, hhandled, _⟩ := handled_run searchable unique us
  exact ⟨s', hrun, hhandled.law_iff searchable unique hrun⟩

/-- A store that holds one node. -/
def exampleReceiver : DataStore :=
  (((new "e" "r").emplaceNode ⟨"n", "/n", "p", .ACTIVE, 0, 1, 7⟩ 0).get rfl).1

theorem exampleReceiver_stored : (new "e" "r").emplaceNode ⟨"n", "/n", "p", .ACTIVE, 0, 1, 7⟩ 0 =
    some (exampleReceiver, ⟨⟨false, 0⟩, false, "n"⟩) := rfl

theorem exampleReceiver_ready : exampleReceiver.Intact ∧ exampleReceiver.KeysUnique := by
  refine ⟨(intact_new "e" "r").of_emplaceNode exampleReceiver_stored, (keysUnique_new "e" "r").emplaceNode
    (wellFormed_new "e" "r") exampleReceiver_stored fun a e he => ?_⟩
  rw [header_new] at he
  cases he

/-- A client of a service, and a client of an action service of a node that is not stored. -/
theorem messages_law_service : ∃ s', run handle exampleReceiver
    [.node (.isServerFor "n" "srv" "c"), .node (.isActionServerFor "m" "act" "c")] = some s' ∧
      (MessageLaw [.node (.isServerFor "n" "srv" "c"), .node (.isActionServerFor "m" "act" "c")]
          exampleReceiver s' ↔
        ∀ u ∈ [Update.node (.isServerFor "n" "srv" "c"), .node (.isActionServerFor "m" "act" "c")],
          u.isForAction = true → exampleReceiver.Unknown u) :=
  messages_law_iff exampleReceiver_ready.1.searchable exampleReceiver_ready.2
    [.node (.isServerFor "n" "srv" "c"), .node (.isActionServerFor "m" "act" "c")]

/-- The client of an action service of the stored node is recorded as the client of a service. -/
theorem messages_law_action : exampleReceiver.Searchable ∧ exampleReceiver.KeysUnique ∧
    ∃ s', run handle exampleReceiver [.node (.isActionServerFor "n" "act" "c")] = some s' ∧
      (∃ d, s'.mNodes.data 0 = some d ∧ d.inst.mActionClients.lookup "act" = none ∧
        d.inst.mClients.lookup "act" = some [⟨"c", false⟩]) ∧
      ¬ MessageLaw [.node (.isActionServerFor "n" "act" "c")] exampleReceiver s' := by
  refine ⟨exampleReceiver_ready.1.searchable, exampleReceiver_ready.2, _, rfl, ⟨_, rfl, rfl, by decide⟩, fun h => ?_⟩
  obtain ⟨d', hd', _, hlaw⟩ := h.nodes 0 _ rfl
  cases hd'
  exact absurd (hlaw.mActionClients "act") (by decide)

end StreamFdl
