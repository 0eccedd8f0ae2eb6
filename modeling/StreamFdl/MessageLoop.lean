import StreamFdl.Base.PolledQueues
import StreamFdl.MessageFolds
import StreamFdl.SubgraphBuilder

/- The message loop of `DataStore::run`. Every round asks the IPC client for at most
   one message of each of nine types, in the order of the source, without waiting.
   Between any two steps of the loop the server may send messages of any type, and
   the other threads (and the sweep at the beginning of the round) may work on the
   store.

   The client is not part of the repository. What is done to its queues is a
   parameter, and `Mailbox.InOrder` is relied on: asked for a type, the client
   gives the message of that type that was sent first, if one waits.

   Two questions are answered. Whether every message is handled, that is, whether
   the store is what `DataStore.handle` makes of it with each of them, and when:
   the messages of a type are handled in the order they were sent, one a round.
   And what becomes of messages of different types, which may well overtake each
   other: as long as nobody else works on the store the members do not depend on
   it, except for the order in which the clients of one service are listed. -/
namespace StreamFdl
open Runs PolledQueues FoldView

/-- The types of the messages that the loop receives. -/
inductive MessageKind where
  | NodePublishersToUpdate
  | NodeSubscribersToUpdate
  | NodeIsServerForUpdate
  | NodeIsClientOfUpdate
  | NodeIsActionServerForUpdate
  | NodeIsActionClientOfUpdate
  | NodeStateUpdate
  | TopicPublishersUpdate
  | TopicSubscribersUpdate
  deriving DecidableEq, Repr

namespace MessageKind

/-- The order of the `receive` calls in a round. -/
def order : List MessageKind :=
  [NodePublishersToUpdate, NodeSubscribersToUpdate, NodeIsServerForUpdate, NodeIsClientOfUpdate,
    NodeIsActionServerForUpdate, NodeIsActionClientOfUpdate, NodeStateUpdate, TopicPublishersUpdate,
    TopicSubscribersUpdate]

theorem mem_order (kind : MessageKind) : kind ∈ order := by cases kind <;> decide

end MessageKind

def NodeUpdate.kind : NodeUpdate → MessageKind
  | publishersTo _ _ => .NodePublishersToUpdate
  | subscribersTo _ _ => .NodeSubscribersToUpdate
  | isServerFor _ _ _ => .NodeIsServerForUpdate
  | isClientOf _ _ _ => .NodeIsClientOfUpdate
  | isActionServerFor _ _ _ => .NodeIsActionServerForUpdate
  | isActionClientOf _ _ _ => .NodeIsActionClientOfUpdate
  | state _ _ _ => .NodeStateUpdate

def TopicUpdate.kind : TopicUpdate → MessageKind
  | publishers _ _ _ => .TopicPublishersUpdate
  | subscribers _ _ _ => .TopicSubscribersUpdate

def Update.kind : Update → MessageKind
  | node u => u.kind
  | topic u => u.kind

/-- What is done to the store: the loop handles a message, or the sweep or another thread does something. -/
inductive StoreEffect where
  | handled (u : Update)
  | operation (op : StoreOp)

namespace StoreEffect

def message : StoreEffect → Option Update
  | handled u => some u
  | operation _ => none

def operation? : StoreEffect → Option StoreOp
  | handled _ => none
  | operation op => some op

end StoreEffect

def DataStore.effect (s : DataStore) : StoreEffect → Option DataStore
  | .handled u => s.handle u
  | .operation op => s.apply op

structure MessageLoop (Q : Type) where
  store : DataStore
  /-- The queues of the client, and the types that the round has still to ask for. -/
  poller : Poller Q MessageKind Update
  /-- What has been done to the store so far. -/
  effects : List StoreEffect

inductive LoopAction where
  | send (u : Update)
  /-- The next step of the loop: the sweep, after which a round begins to receive, or the next of the
      nine calls with the handling of what it received. -/
  | loop
  /-- An operation of the sweep or of another thread. -/
  | store (op : StoreOp)

namespace LoopAction

def event : LoopAction → Option (Event Update)
  | send u => some (.post u)
  | loop => some .poll
  | store _ => none

def operation? : LoopAction → Option StoreOp
  | store op => some op
  | _ => none

end LoopAction

namespace MessageLoop

variable {Q : Type}

def new (store : DataStore) (client : Q) : MessageLoop Q := ⟨store, .new client, []⟩

section Client
variable (ipc : Mailbox Q MessageKind Update)

/-- One step of `DataStore::run`. -/
def loop (s : MessageLoop Q) : Option (MessageLoop Q) :=
  match s.poller.next ipc with
  | none => some { s with poller := s.poller.poll ipc MessageKind.order }
  | some u => (s.store.handle u).map fun store =>
    ⟨store, s.poller.poll ipc MessageKind.order, s.effects ++ [.handled u]⟩

def step (s : MessageLoop Q) : LoopAction → Option (MessageLoop Q)
  | .send u => some { s with poller := s.poller.post ipc u }
  | .loop => s.loop ipc
  | .store op => (s.store.apply op).map fun store =>
    { s with store := store, effects := s.effects ++ [.operation op] }

end Client

/-- The messages of a type that were handled, in order. -/
def handled (s : MessageLoop Q) (kind : MessageKind) : List Update :=
  (s.effects.filterMap StoreEffect.message).filter fun u => u.kind = kind

end MessageLoop

/-- The messages of a type that were sent, in order. -/
def sent (acts : List LoopAction) (kind : MessageKind) : List Update :=
  (Poller.posted (acts.filterMap LoopAction.event)).filter fun u => u.kind = kind

/-- The steps of the loop. -/
def loops (acts : List LoopAction) : Nat := Poller.polls (acts.filterMap LoopAction.event)

/-! The queues, and what is done to the store. -/

namespace MessageLoop

variable {Q : Type} {ipc : Mailbox Q MessageKind Update} {s t : MessageLoop Q} {acts : List LoopAction}

theorem step_poller {a : LoopAction} (h : s.step ipc a = some t) :
    t.poller = a.event.elim s.poller (Poller.step ipc MessageKind.order s.poller) := by
  cases a with
  | send u => cases h; rfl
  | loop =>
    change s.loop ipc = some t at h
    unfold loop at h
    split at h
    · cases h; rfl
    · obtain ⟨store, _, rfl⟩ := Option.map_eq_some_iff.mp h
      rfl
  | store op =>
    obtain ⟨store, _, rfl⟩ := Option.map_eq_some_iff.mp h
    rfl

/-- To the queues, a run is the events of the server and of the loop. -/
theorem run_poller (h : run (step ipc) s acts = some t) :
    t.poller = s.poller.run ipc MessageKind.order (acts.filterMap LoopAction.event) := by
  induction acts generalizing s with
  | nil => cases h; rfl
  | cons a acts ih =>
    rw [run_cons] at h
    obtain ⟨u, hu, h⟩ := Option.bind_eq_some_iff.mp h
    rw [ih h, step_poller hu, List.filterMap_cons]
    cases a.event <;> rfl

/-- What a step does to the store: the message it takes is handled, or the operation is made. -/
theorem step_effects {a : LoopAction} (h : s.step ipc a = some t) :
    ∃ effects, t.effects = s.effects ++ effects ∧ run DataStore.effect s.store effects = some t.store ∧
      effects.filterMap StoreEffect.operation? = a.operation?.toList ∧
      t.poller.taken = s.poller.taken ++ effects.filterMap StoreEffect.message := by
  cases a with
  | send u =>
    cases h
    exact ⟨[], (List.append_nil _).symm, rfl, rfl, (List.append_nil _).symm⟩
  | loop =>
    change s.loop ipc = some t at h
    unfold loop at h
    split at h
    · next hnext =>
      cases h
      exact ⟨[], (List.append_nil _).symm, rfl, rfl, (Poller.poll_taken s.poller).trans (by rw [hnext]; rfl)⟩
    · next u hnext =>
      obtain ⟨store, hstore, rfl⟩ := Option.map_eq_some_iff.mp h
      refine ⟨[.handled u], rfl, ?_, rfl, (Poller.poll_taken s.poller).trans (by rw [hnext]; rfl)⟩
      show (s.store.handle u).bind some = some store
      rw [hstore]
      rfl
  | store op =>
    obtain ⟨store, hstore, rfl⟩ := Option.map_eq_some_iff.mp h
    refine ⟨[.operation op], rfl, ?_, rfl, (List.append_nil _).symm⟩
    show (s.store.apply op).bind some = some store
    rw [hstore]
    rfl

/-- The store is what the effects make of it; of these, the operations are those of the run, and the
    messages those that were taken. -/
theorem run_effects (h : run (step ipc) s acts = some t) :
    ∃ effects, t.effects = s.effects ++ effects ∧ run DataStore.effect s.store effects = some t.store ∧
      effects.filterMap StoreEffect.operation? = acts.filterMap LoopAction.operation? ∧
      t.poller.taken = s.poller.taken ++ effects.filterMap StoreEffect.message := by
  induction acts generalizing s with
  | nil =>
    cases h
    exact ⟨[], (List.append_nil _).symm, rfl, rfl, (List.append_nil _).symm⟩
  | cons a acts ih =>
    rw [run_cons] at h
    obtain ⟨u, hu, h⟩ := Option.bind_eq_some_iff.mp h
    obtain ⟨first, hfirst, hstore, hops, htaken⟩ := step_effects hu
    obtain ⟨rest, hrest, hstore', hops', htaken'⟩ := ih h
    refine ⟨first ++ rest, by rw [hrest, hfirst, List.append_assoc], ?_, ?_, ?_⟩
    · rw [run_append, hstore, Option.bind_some, hstore']
    · rw [List.filterMap_append, hops, hops', List.filterMap_cons]
      cases a.operation? <;> rfl
    · rw [htaken', htaken, List.filterMap_append, List.append_assoc]

end MessageLoop

/-- Over any client that gives the messages of a type in order: the store is what the messages handled and
    the operations of the others, in some order, make of it. Of each type, nothing that was sent is lost,
    doubled or overtaken. And a message is handled at the latest when the loop has made a whole round for
    it and for each one of its type before it, whatever else is sent in the meantime. -/
theorem messages_delivered {Q : Type} (ipc : Mailbox Q MessageKind Update) (waiting : Q → MessageKind → List Update)
    (inOrder : ipc.InOrder Update.kind waiting) (client : Q) (store : DataStore) (acts acts' : List LoopAction)
    {s t : MessageLoop Q} (reached : run (MessageLoop.step ipc) (.new store client) acts = some s)
    (further : run (MessageLoop.step ipc) s acts' = some t) :
    (run DataStore.effect store s.effects = some s.store ∧
      s.effects.filterMap StoreEffect.operation? = acts.filterMap LoopAction.operation?) ∧
    (∀ kind, s.handled kind ++ waiting s.poller.queues kind = waiting client kind ++ sent acts kind) ∧
    ∀ kind before u rest, waiting s.poller.queues kind = before ++ u :: rest →
      10 * (before.length + 1) ≤ loops acts' → s.handled kind ++ before ++ [u] <+: t.handled kind := by
  obtain ⟨effects, heffects, hstore, hops, htaken⟩ := MessageLoop.run_effects reached
  obtain ⟨effects', heffects', _, _, htaken'⟩ := MessageLoop.run_effects further
  have heffects : s.effects = effects := heffects
  have htaken : s.poller.taken = effects.filterMap StoreEffect.message := htaken
  subst heffects
  have hpoller := MessageLoop.run_poller reached
  refine ⟨⟨hstore, hops⟩, fun kind => ?_, fun kind before u rest hwaiting hloops => ?_⟩
  · have hkept : s.poller.Kept Update.kind waiting (waiting client)
        (Poller.posted (acts.filterMap LoopAction.event)) := by
      rw [hpoller]
      exact (Poller.kept_new client).run inOrder _
    rw [MessageLoop.handled, ← htaken]
    exact hkept.order kind
  · have hpass : s.poller.InPass MessageKind.order := by
      rw [hpoller]
      exact Poller.InPass.run (s := .new client) List.nil_suffix _
    have hwait := Poller.wait_le hpass (MessageKind.mem_order kind) before
    have hlen : MessageKind.order.length + 1 = 10 := rfl
    rw [hlen, Nat.mul_comm] at hwait
    obtain ⟨more, hmore, hprefix⟩ :=
      Poller.served inOrder hwaiting hpass (MessageKind.mem_order kind) (hwait.trans hloops)
    rw [← MessageLoop.run_poller further, htaken'] at hmore
    have hmessages : effects'.filterMap StoreEffect.message = more := List.append_cancel_left hmore
    rw [MessageLoop.handled, MessageLoop.handled, heffects', List.filterMap_append, List.filter_append, hmessages,
      List.append_assoc]
    exact (List.prefix_append_right_inj _).mpr hprefix

/-- Two messages of different types and an operation on the store: a round of the loop handles both. -/
theorem messages_delivered_one : ∃ s t,
    run (MessageLoop.step (.list Update.kind)) (.new exampleReceiver [])
      [.send (.node (.publishersTo "n" "x")), .send (.topic (.publishers "t" "x" "n")), .store (.increase ⟨false, 0⟩)] =
        some s ∧
    run (MessageLoop.step (.list Update.kind)) s (List.replicate 10 .loop) = some t ∧
    [Update.node (.publishersTo "n" "x")] <+: t.handled .NodePublishersToUpdate ∧
    (run DataStore.effect exampleReceiver t.effects).isSome = true := by
  have hlist := Mailbox.list_inOrder Update.kind
  refine ⟨_, _, rfl, rfl, ?_, rfl⟩
  exact (messages_delivered (.list Update.kind) _ hlist [] exampleReceiver
    [.send (.node (.publishersTo "n" "x")), .send (.topic (.publishers "t" "x" "n")), .store (.increase ⟨false, 0⟩)]
    (List.replicate 10 .loop) rfl rfl).2.2 .NodePublishersToUpdate [] _ [] rfl (by decide)

/-! Messages of different types. -/

attribute [ext] Topic

/-- Two lists of a service's clients, in whatever order. -/
structure SameClients (x y : Option MemberProxies) : Prop where
  listed : x = none ↔ y = none
  perm : (x.getD []).Perm (y.getD [])

/-- The same node, up to the order of the clients of a service. -/
structure Node.Agrees (n m : Node) : Prop where
  mClients : ∀ service, SameClients (n.mClients.lookup service) (m.mClients.lookup service)
  mActionClients : n.mActionClients = m.mActionClients
  mServers : ∀ service, n.mServers.lookup service = m.mServers.lookup service
  mActionServers : ∀ service, n.mActionServers.lookup service = m.mActionServers.lookup service
  mPublishesTo : n.mPublishesTo = m.mPublishesTo
  mSubscribesTo : n.mSubscribesTo = m.mSubscribesTo
  live : (n.mAlive, n.mAliveChangeTime) = (m.mAlive, m.mAliveChangeTime)
  rest : n.mPrimaryKey = m.mPrimaryKey ∧ n.mmAttributes = m.mmAttributes ∧ n.mName = m.mName ∧
    n.mPkgName = m.mPkgName ∧ n.mBootCount = m.mBootCount ∧ n.mProcessId = m.mProcessId

/-- The same members at the same places. -/
structure DataStore.Agrees (s t : DataStore) : Prop where
  header : s.header = t.header
  nodes : ∀ a d d', s.mNodes.data a = some d → t.mNodes.data a = some d' →
    d.requestId = d'.requestId ∧ d.inst.Agrees d'.inst
  topics : s.mTopics.data = t.mTopics.data

/-- The same messages of every type, in the same order within it. -/
def SameMessages (us vs : List Update) : Prop :=
  ∀ kind : MessageKind, (us.filter fun u => u.kind = kind) = vs.filter fun u => u.kind = kind

theorem sameClients_extend {a : Option MemberProxies} {xs ys : MemberProxies} (h : xs.Perm ys) :
    SameClients (extend a xs) (extend a ys) := by
  by_cases hxs : xs = []
  · have hys : ys = [] := by rw [hxs] at h; exact h.nil_eq.symm
    rw [hxs, hys]
    exact ⟨Iff.rfl, List.Perm.refl _⟩
  · have hys : ys ≠ [] := fun hys => hxs (by rw [hys] at h; exact h.eq_nil)
    rw [extend_of_ne_nil hxs, extend_of_ne_nil hys]
    exact ⟨iff_of_false (by simp) (by simp), h.append_left _⟩

namespace SameMessages

variable {us vs : List Update} (h : SameMessages us vs)
include h

/-- What only the messages of one type carry depends on these messages only. -/
theorem flatMap_eq {B : Type} (kind : MessageKind) {f : Update → List B}
    (hf : ∀ u, u.kind ≠ kind → f u = []) : us.flatMap f = vs.flatMap f := by
  have hnil : ∀ u, decide (u.kind = kind) = false → f u = [] := fun u hu => hf u (of_decide_eq_false hu)
  rw [← flatMap_filter hnil us, ← flatMap_filter hnil vs, h kind]

theorem node_eq {B : Type} (kind : MessageKind) (key : PrimaryKey) {f : NodeUpdate → List B}
    (hf : ∀ u, u.kind ≠ kind → f u = []) :
    (nodeUpdates us key).flatMap f = (nodeUpdates vs key).flatMap f := by
  unfold nodeUpdates
  rw [List.flatMap_assoc, List.flatMap_assoc]
  apply h.flatMap_eq kind
  intro u hu
  cases u with
  | topic u => rfl
  | node u =>
    by_cases hkey : u.primaryKey = key
    · simp [hkey, hf u hu]
    · simp [hkey]

theorem topic_eq {B : Type} (kind : MessageKind) (key : PrimaryKey) {f : TopicUpdate → List B}
    (hf : ∀ u, u.kind ≠ kind → f u = []) :
    (topicUpdates us key).flatMap f = (topicUpdates vs key).flatMap f := by
  unfold topicUpdates
  rw [List.flatMap_assoc, List.flatMap_assoc]
  apply h.flatMap_eq kind
  intro u hu
  cases u with
  | node u => rfl
  | topic u =>
    by_cases hkey : u.primaryKey = key
    · simp [hkey, hf u hu]
    · simp [hkey]

/-- Servers' and action servers' messages fill the same list, in the order they come. -/
theorem recorded_perm (key : PrimaryKey) (service : String) :
    ((nodeUpdates us key).flatMap (NodeUpdate.recorded service)).Perm
      ((nodeUpdates vs key).flatMap (NodeUpdate.recorded service)) := by
  have hclients : (nodeUpdates us key).flatMap (NodeUpdate.clients service) =
      (nodeUpdates vs key).flatMap (NodeUpdate.clients service) := by
    apply h.node_eq .NodeIsServerForUpdate
    intro u hu
    cases u <;> first | rfl | exact absurd rfl hu
  have haction : (nodeUpdates us key).flatMap (NodeUpdate.actionClients service) =
      (nodeUpdates vs key).flatMap (NodeUpdate.actionClients service) := by
    apply h.node_eq .NodeIsActionServerForUpdate
    intro u hu
    cases u <;> first | rfl | exact absurd rfl hu
  have hsplit : ∀ ws : List NodeUpdate, (ws.flatMap (NodeUpdate.recorded service)).Perm
      (ws.flatMap (NodeUpdate.clients service) ++ ws.flatMap (NodeUpdate.actionClients service)) :=
    fun ws => (List.flatMap_append_perm ws _ _).symm
  refine (hsplit _).trans ?_
  rw [hclients, haction]
  exact (hsplit _).symm

/-- A node receives the same from messages that are the same type by type. -/
theorem node_agrees (node : Node) : (node.receive us).Agrees (node.receive vs) := by
  have hu := Node.foldl_update (nodeUpdates us node.mPrimaryKey) node
  have hv := Node.foldl_update (nodeUpdates vs node.mPrimaryKey) node
  -- every field is filled by the messages of one type, but for `mClients`, which two types fill
  refine ⟨fun service => ?_, ?_, fun service => ?_, fun service => ?_, ?_, ?_, ?_, ?_⟩
  · unfold Node.receive
    rw [hu.mClients, hv.mClients]
    exact sameClients_extend (h.recorded_perm node.mPrimaryKey service)
  · exact hu.mActionClients.trans hv.mActionClients.symm
  · unfold Node.receive
    rw [hu.mServers, hv.mServers, h.node_eq .NodeIsClientOfUpdate]
    intro u hu
    cases u <;> first | rfl | exact absurd rfl hu
  · unfold Node.receive
    rw [hu.mActionServers, hv.mActionServers, h.node_eq .NodeIsActionClientOfUpdate]
    intro u hu
    cases u <;> first | rfl | exact absurd rfl hu
  · unfold Node.receive
    rw [hu.mPublishesTo, hv.mPublishesTo, h.node_eq .NodePublishersToUpdate]
    intro u hu
    cases u <;> first | rfl | exact absurd rfl hu
  · unfold Node.receive
    rw [hu.mSubscribesTo, hv.mSubscribesTo, h.node_eq .NodeSubscribersToUpdate]
    intro u hu
    cases u <;> first | rfl | exact absurd rfl hu
  · unfold Node.receive
    rw [hu.live, hv.live, h.node_eq .NodeStateUpdate]
    intro u hu
    cases u <;> first | rfl | exact absurd rfl hu
  · obtain ⟨hkey, hattr, hname, hpkg, hboot, hpid⟩ := hu.rest
    obtain ⟨hkey', hattr', hname', hpkg', hboot', hpid'⟩ := hv.rest
    exact ⟨hkey.trans hkey'.symm, hattr.trans hattr'.symm, hname.trans hname'.symm,
      hpkg.trans hpkg'.symm, hboot.trans hboot'.symm, hpid.trans hpid'.symm⟩

theorem topic_agrees (topic : Topic) : topic.receive us = topic.receive vs := by
  have hu := Topic.foldl_update (topicUpdates us topic.mPrimaryKey) topic
  have hv := Topic.foldl_update (topicUpdates vs topic.mPrimaryKey) topic
  have hpublishers : (topic.receive us).mPublishers = (topic.receive vs).mPublishers := by
    unfold Topic.receive
    rw [hu.mPublishers, hv.mPublishers, h.topic_eq .TopicPublishersUpdate]
    intro u hu
    cases u <;> first | rfl | exact absurd rfl hu
  have hsubscribers : (topic.receive us).mSubscribers = (topic.receive vs).mSubscribers := by
    unfold Topic.receive
    rw [hu.mSubscribers, hv.mSubscribers, h.topic_eq .TopicSubscribersUpdate]
    intro u hu
    cases u <;> first | rfl | exact absurd rfl hu
  obtain ⟨hkey, hattr, hname, htype⟩ := hu.rest
  obtain ⟨hkey', hattr', hname', htype'⟩ := hv.rest
  exact Topic.ext (hkey.trans hkey'.symm) (hattr.trans hattr'.symm) (hname.trans hname'.symm)
    (htype.trans htype'.symm) hpublishers hsubscribers

/-- Whatever is done to a store by messages that are the same type by type. -/
theorem store_agrees {s t t' : DataStore} (hu : DataStore.Handled us s t) (hv : DataStore.Handled vs s t') :
    t.Agrees t' := by
  refine ⟨hu.header.trans hv.header.symm, fun a d d' hd hd' => ?_, ?_⟩
  · rw [hu.nodes] at hd
    rw [hv.nodes] at hd'
    obtain ⟨e, he, rfl⟩ := Option.map_eq_some_iff.mp hd
    rw [he, Option.map_some, Option.some.injEq] at hd'
    subst hd'
    exact ⟨rfl, h.node_agrees e.inst⟩
  · funext a
    rw [hu.topics, hv.topics]
    apply congrArg (fun f => (s.mTopics.data a).map f)
    funext d
    simp only [Data.mapInst, h.topic_agrees d.inst]

end SameMessages

/-! Runs of the server and the loop alone. -/

/-- No other thread works on the store, and the sweep finds nothing to remove. -/
def Undisturbed (acts : List LoopAction) : Prop := ∀ op, LoopAction.store op ∉ acts

namespace MessageLoop

variable {Q : Type} {ipc : Mailbox Q MessageKind Update} {s : MessageLoop Q} {acts : List LoopAction}

/-- Every step is defined, and the store is what the handled messages make of it. -/
theorem run_undisturbed (hs : s.store.Searchable) (hkeys : s.store.KeysUnique) (h : Undisturbed acts) :
    ∃ t us, run (step ipc) s acts = some t ∧ t.poller.taken = s.poller.taken ++ us ∧
      DataStore.Handled us s.store t.store ∧ t.store.Searchable := by
  induction acts generalizing s with
  | nil => exact ⟨s, [], rfl, (List.append_nil _).symm, DataStore.handled_nil _, hs⟩
  | cons a acts ih =>
    have hrest : Undisturbed acts := fun op hop => h op (List.mem_cons_of_mem a hop)
    cases a with
    | send u =>
      obtain ⟨t, us, ht, htaken, hhandled, hsearch⟩ := ih (s := { s with poller := s.poller.post ipc u })
        hs hkeys hrest
      exact ⟨t, us, ht, htaken, hhandled, hsearch⟩
    | loop =>
      have htaken : (s.poller.poll ipc MessageKind.order).taken = s.poller.taken ++ (s.poller.next ipc).toList :=
        s.poller.poll_taken
      cases hnext : s.poller.next ipc with
      -- a poll that finds nothing leaves the store as it is
      | none =>
        obtain ⟨t, us, ht, htaken', hhandled, hsearch⟩ :=
          ih (s := { s with poller := s.poller.poll ipc MessageKind.order }) hs hkeys hrest
        refine ⟨t, us, ?_, ?_, hhandled, hsearch⟩
        · rw [run_cons]
          show (s.loop ipc).bind _ = _
          rw [loop, hnext]
          exact ht
        · rw [htaken', htaken, hnext]
          simp
      | some u =>
        obtain ⟨store, hstore, hone, hsearch₁, _⟩ := DataStore.handle_spec hs hkeys u
        obtain ⟨t, us, ht, htaken', hhandled, hsearch⟩ :=
          ih (s := ⟨store, s.poller.poll ipc MessageKind.order, s.effects ++ [.handled u]⟩) hsearch₁
            (hkeys.of_header hone.header) hrest
        refine ⟨t, u :: us, ?_, ?_, hone.trans hhandled, hsearch⟩
        · rw [run_cons]
          show (s.loop ipc).bind _ = _
          rw [loop, hnext]
          show (Option.map _ (s.store.handle u)).bind _ = _
          rw [hstore]
          exact ht
        · rw [htaken', htaken, hnext]
          simp
    | store op => exact absurd List.mem_cons_self (h op)

/-- Once nothing waits, what was taken is what waited at first and what was sent. -/
theorem taken_eq_sent {waiting : Q → MessageKind → List Update} (inOrder : ipc.InOrder Update.kind waiting)
    {store : DataStore} {client : Q} {t : MessageLoop Q} (h : run (step ipc) (.new store client) acts = some t)
    (hdone : ∀ kind, waiting t.poller.queues kind = []) (kind : MessageKind) :
    (t.poller.taken.filter fun u => u.kind = kind) = waiting client kind ++ sent acts kind := by
  have hkept : t.poller.Kept Update.kind waiting (waiting client)
      (Poller.posted (acts.filterMap LoopAction.event)) := by
    rw [run_poller h]
    exact (Poller.kept_new client).run inOrder _
  have horder := hkept.order kind
  rwa [hdone kind, List.append_nil] at horder

end MessageLoop

/-- Over any client that gives the messages of a type in order, and any stored members with distinct keys,
    while nobody else works on the store: however the same messages are interleaved across the types, and
    whenever the loop takes its steps, once nothing waits the members are the same, except for the order
    in which the clients of a service are listed. -/
theorem members_independent_of_interleaving {Q : Type} (ipc : Mailbox Q MessageKind Update)
    (waiting : Q → MessageKind → List Update) (inOrder : ipc.InOrder Update.kind waiting) (client : Q)
    {store : DataStore} (searchable : store.Searchable) (unique : store.KeysUnique) {acts acts' : List LoopAction}
    (alone : Undisturbed acts) (alone' : Undisturbed acts') (same : ∀ kind, sent acts kind = sent acts' kind) :
    ∃ t t', run (MessageLoop.step ipc) (.new store client) acts = some t ∧
      run (MessageLoop.step ipc) (.new store client) acts' = some t' ∧
      ((∀ kind, waiting t.poller.queues kind = []) → (∀ kind, waiting t'.poller.queues kind = []) →
        t.store.Agrees t'.store) := by
  obtain ⟨t, us, ht, htaken, hhandled, _⟩ :=
    MessageLoop.run_undisturbed (s := .new store client) searchable unique alone
  obtain ⟨t', us', ht', htaken', hhandled', _⟩ :=
    MessageLoop.run_undisturbed (s := .new store client) searchable unique alone'
  refine ⟨t, t', ht, ht', fun hdone hdone' => ?_⟩
  have hmessages : SameMessages us us' := by
    intro kind
    have hsent := MessageLoop.taken_eq_sent inOrder ht hdone kind
    have hsent' := MessageLoop.taken_eq_sent inOrder ht' hdone' kind
    rw [same kind, ← hsent', htaken, htaken'] at hsent
    exact hsent
  exact hmessages.store_agrees hhandled hhandled'

/-- Two messages of a node, handled in either order. -/
def publishersFirst : List LoopAction :=
  .send (.node (.publishersTo "n" "t")) :: .send (.node (.isServerFor "n" "srv" "c")) :: List.replicate 10 .loop

def serverFirst : List LoopAction :=
  .send (.node (.isServerFor "n" "srv" "c")) :: List.replicate 5 .loop ++
    .send (.node (.publishersTo "n" "t")) :: List.replicate 10 .loop

theorem members_independent_of_two : ∃ t t',
    run (MessageLoop.step (.list Update.kind)) (.new exampleReceiver []) publishersFirst = some t ∧
    run (MessageLoop.step (.list Update.kind)) (.new exampleReceiver []) serverFirst = some t' ∧
    t.store.Agrees t'.store := by
  have halone : Undisturbed publishersFirst := fun op hop => by simp [publishersFirst] at hop
  have halone' : Undisturbed serverFirst := fun op hop => by simp [serverFirst] at hop
  obtain ⟨t, t', ht, ht', hagrees⟩ := members_independent_of_interleaving (.list Update.kind) _
    (Mailbox.list_inOrder Update.kind) [] exampleReceiver_ready.1.searchable exampleReceiver_ready.2 halone halone'
    fun kind => by cases kind <;> rfl
  refine ⟨t, t', ht, ht', hagrees (fun kind => ?_) fun kind => ?_⟩
  · cases ht
    rfl
  · cases ht'
    rfl

end StreamFdl
