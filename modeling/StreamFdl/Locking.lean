import StreamFdl.Base.LockOrder
import StreamFdl.MessageLoop

/- What the program locks: its mutexes, and the four threads that lock them, the
   builder, fault detection, the data store and the visualisation. Of a function
   only the order is kept in which it locks, unlocks, accesses what threads share
   and talks to the server; its arguments say what it finds (a member that is
   stored, a counter that is not zero, a window that is full), and all of that is
   left open. A failed assertion ends the program, so what would follow one is in
   none of the functions.

   Every function fits where it is called (`Fits`): `mMembersMutex` is the first to
   be locked, a counter or the list of updates the last, and each access is made
   with the mutexes that `Access.locks` gives. Not all accesses to one list have a
   mutex in common: `requestNode` appends to `mNodes` with `mTopicsMutex`, while
   the data store deletes from it with `mNodesMutex`. Nor do a read of a member and
   its update: `getIncoming`, `getOutgoing` and `detectFaults` read without any of
   the mutexes that the data store updates members with.

   Left out of the accesses are atomics (`gIsRunning`, `mUpdateVisualisation`), what
   never changes once it is constructed (the keys and names of members, the
   configuration), shared memory, what a thread keeps to itself, and the attribute
   sources that a new member gets before anyone has a handle to it. -/
namespace StreamFdl
open Runs LockOrder

namespace Locking

inductive Mutex where
  | mMembersMutex
  | mAlertMutex
  | mVerticesMutex
  | mNodesMutex
  | mTopicsMutex
  | mUpdatesMutex
  /-- Every element of the data store has a counter, and every counter a mutex. -/
  | mValueMutex (counter : Ref)
  deriving DecidableEq, Repr

/-- A mutex is locked before those of a higher rank. -/
def Mutex.rank : Mutex → Nat
  | mMembersMutex => 0
  | mAlertMutex | mVerticesMutex | mNodesMutex | mTopicsMutex => 1
  | mUpdatesMutex | mValueMutex _ => 2

inductive Thread where
  | builder
  | faultDetection
  | dataStore
  | visualisation
  deriving DecidableEq, Repr

instance : Fintype Thread :=
  ⟨{.builder, .faultDetection, .dataStore, .visualisation}, fun t => by cases t <;> decide⟩

/-- The requests that are answered. -/
inductive Request where
  | search
  | node
  | topic
  | singleAttributes
  | customMember
  deriving DecidableEq, Repr

/-- What the threads access of what they share. -/
inductive Access where
  /-- `Watchlist::mMembers` and `Watchlist::mInitialMemberNames` -/
  | members
  | alerts
  | updates
  | value (counter : Ref)
  | findNode
  | appendNode
  /-- The loop of the sweep over `mNodes`. -/
  | walkNodes
  | eraseNode
  | updateNode
  | findTopic
  | appendTopic
  | walkTopics
  | eraseTopic
  | updateTopic
  | findVertex
  | addVertex
  | resetVertices
  | drawVertices
  /-- `FaultDetection::mMovingWindow` -/
  | movingWindow
  /-- What messages update of a member, read through a handle. -/
  | readMember
  /-- What `getAttributes` keeps of the last values of a member. -/
  | attributes
  | send (request : Request)
  | receive (request : Request)
  deriving DecidableEq, Repr

namespace Access

/-- The mutexes that every access of the kind is made with. -/
@[simp] def locks : Access → List Mutex
  | members | findNode | findTopic => [.mMembersMutex]
  | alerts => [.mAlertMutex]
  | updates => [.mUpdatesMutex]
  | value counter => [.mValueMutex counter]
  | appendNode | appendTopic => [.mTopicsMutex, .mMembersMutex]
  | eraseNode | updateNode => [.mNodesMutex]
  | eraseTopic | updateTopic => [.mTopicsMutex]
  | addVertex | drawVertices => [.mVerticesMutex]
  | walkNodes | walkTopics | findVertex | resetVertices | movingWindow | readMember | attributes => []
  | send .customMember | receive .customMember => []
  | send .node | receive .node | send .topic | receive .topic => [.mTopicsMutex, .mMembersMutex]
  | send _ | receive _ => [.mMembersMutex]

/-- The thread that alone makes accesses of the kind, if it is only one. -/
@[simp] def owner : Access → Option Thread
  | send .customMember | receive .customMember => some .builder
  | eraseNode | updateNode | eraseTopic | updateTopic | walkNodes | walkTopics => some .dataStore
  | findVertex | addVertex | resetVertices => some .builder
  | drawVertices => some .visualisation
  | attributes => some .faultDetection
  | _ => none

/-- A message to or from the server. -/
def isMessage : Access → Bool
  | send _ | receive _ => true
  | _ => false

end Access

abbrev Op := LockOp Mutex Access

/-- A request is sent and its answer received. -/
def ask (request : Request) : List Op := [.work (.send request), .work (.receive request)]

/-! The functions. -/

namespace AtomicCounter

/-- What all operations do. -/
def operate (counter : Ref) : List Op := locked (.mValueMutex counter) [.work (.value counter)]

def increase (counter : Ref) : List Op := operate counter

def decrease (counter : Ref) : List Op := operate counter

def nonZero (counter : Ref) : List Op := operate counter

end AtomicCounter

namespace MemberPtr

/-- An operation on the counter, if the handle is not null. -/
def count (operation : Ref → List Op) (p : MemberPtr) : List Op :=
  match p.mpMember, p.mpUseCounter with
  | some _, some counter => operation counter
  | _, _ => []

/-- The copy constructor and the copy assignment; a handle that is moved locks nothing. -/
def copy (p : MemberPtr) : List Op := count AtomicCounter.increase p

def destroy (p : MemberPtr) : List Op := count AtomicCounter.decrease p

/-- A vector that grows copies its handles and destroys the old ones: moving one may throw. -/
def regrow (ps : List MemberPtr) : List Op := ps.flatMap copy ++ ps.flatMap destroy

end MemberPtr

namespace DataStore

/-- Both kinds of members are requested with `mTopicsMutex`. -/
def requestMember (request : Request) (append : Access) : List Op :=
  locked .mTopicsMutex (ask request ++ [.work append]) ++ ask .singleAttributes

def requestNode : List Op := requestMember .node .appendNode

def requestTopic : List Op := requestMember .topic .appendTopic

def getNode (stored : Bool) : List Op := .work .findNode :: if stored then [] else requestNode

def getTopic (stored : Bool) : List Op := .work .findTopic :: if stored then [] else requestTopic

/-- `known`: the server has a node of the name. -/
def getNodeByName (stored known : Bool) : List Op :=
  .work .findNode :: if stored then [] else ask .search ++ if known then requestNode else []

def get (member : MemberProxy) (stored : Bool) : List Op :=
  if member.mIsTopic then getTopic stored else getNode stored

def getFullGraphView : List Op := ask .customMember

/-- What all functions do that use `mUpdates`. -/
def useUpdates : List Op := locked .mUpdatesMutex [.work .updates]

def addSubUpdate : List Op := useUpdates

def addSendUpdate : List Op := useUpdates

def addPubUpdate : List Op := useUpdates

def getUpdates : List Op := useUpdates

/-- An iteration of a loop of the sweep. -/
def sweepElement (walk erase : Access) (mutex : Mutex) (e : Ref × Bool) : List Op :=
  .work walk :: (AtomicCounter.nonZero e.1 ++ if e.2 then [] else locked mutex [.work erase])

def sweepNode : Ref × Bool → List Op := sweepElement .walkNodes .eraseNode .mNodesMutex

def sweepTopic : Ref × Bool → List Op := sweepElement .walkTopics .eraseTopic .mTopicsMutex

/-- What a message about a stored member adds to `mUpdates`. -/
def addUpdate : MessageKind → List Op
  | .NodeSubscribersToUpdate => addSubUpdate
  | .NodeIsClientOfUpdate | .NodeIsActionClientOfUpdate => addSendUpdate
  | .TopicPublishersUpdate => addPubUpdate
  | _ => []

def handle (kind : MessageKind) (stored : Bool) : List Op :=
  match kind with
  | .TopicPublishersUpdate | .TopicSubscribersUpdate =>
    locked .mTopicsMutex (.work .updateTopic :: if stored then addUpdate kind else [])
  | _ => locked .mNodesMutex (.work .updateNode :: if stored then addUpdate kind else [])

/-- An iteration of `DataStore::run`: the elements of the lists, with whether the counter is not
    zero, and the messages that are there, with whether their member is stored. -/
structure Round where
  nodes : List (Ref × Bool)
  topics : List (Ref × Bool)
  received : MessageKind → Option Bool

def run (round : Round) : List Op :=
  round.nodes.flatMap sweepNode ++ round.topics.flatMap sweepTopic ++
  MessageKind.order.flatMap fun kind => (round.received kind).elim [] (handle kind)

end DataStore

namespace Watchlist

/-- An iteration of the loop of `tryInitialise`: what `getNodeByName` finds, and the handle that
    `emplace` destroys if it has no place for it. -/
structure Try where
  stored : Bool
  known : Bool
  rejected : MemberPtr

def tryName (t : Try) : List Op :=
  DataStore.getNodeByName t.stored t.known ++ .work .members :: MemberPtr.destroy t.rejected

def tryInitialise (tries : List Try) : List Op := .work .members :: tries.flatMap tryName

def getMembers (tries : List Try) (members : List MemberPtr) : List Op :=
  locked .mMembersMutex (tryInitialise tries ++ .work .members :: members.flatMap MemberPtr.copy)

/-- What `addMember` meets: whether the topic is ignored, the search passes and the member is stored. -/
structure Adding where
  member : MemberProxy
  ignored : Bool
  found : Bool
  stored : Bool

def addMember (a : Adding) : List Op :=
  if a.member.mIsTopic && a.ignored then []
  else locked .mMembersMutex (.work .members ::
    if a.found then DataStore.get a.member a.stored ++ [.work .members] else [])

def contains : List Op := locked .mMembersMutex [.work .members]

def reset (members : List MemberPtr) : List Op :=
  locked .mMembersMutex (.work .members :: members.flatMap MemberPtr.destroy)

/-- `erased` is the handle of a blindspot, and null for another member. -/
def notifyUsed (erased : MemberPtr) : List Op :=
  locked .mMembersMutex (.work .members :: MemberPtr.destroy erased)

end Watchlist

namespace FaultDetection

/-- Whether the node is alive; nothing is read of a topic. -/
def readAlive (member : MemberPtr) : List Op :=
  if member.mpMember.any fun m => !m.ref.isTopic then [.work .readMember] else []

/-- The parameter is a copy, and is assigned to the member of the alert. -/
def detectFaults (member : MemberPtr) : List Op :=
  MemberPtr.copy member ++ MemberPtr.copy member ++ readAlive member ++ MemberPtr.destroy member

/-- An iteration of the loop over the windows. -/
structure Check where
  memberPtr : MemberPtr
  full : Bool
  fault : Bool
  /-- The alerts that were emitted before, if their vector grows. -/
  regrown : List MemberPtr
  /-- The handle of the watchlist, if it is a blindspot, and that of its window. -/
  erased : MemberPtr
  window : MemberPtr

def emit (regrown : List MemberPtr) : List Op :=
  locked .mAlertMutex (.work .alerts :: MemberPtr.regrow regrown)

def check (c : Check) : List Op :=
  .work .movingWindow :: if c.full then
    detectFaults c.memberPtr ++ (if c.fault then emit c.regrown else []) ++
    Watchlist.notifyUsed c.erased ++ .work .movingWindow :: MemberPtr.destroy c.window ++
    (if c.fault then [] else MemberPtr.destroy c.memberPtr)
  else []

/-- An iteration of `FaultDetection::run`; `kept` are the handles that did not go to new windows. -/
structure Round where
  tries : List Watchlist.Try
  members : List MemberPtr
  checks : List Check
  kept : List MemberPtr

def run (round : Round) : List Op :=
  Watchlist.getMembers round.tries round.members ++
  round.members.flatMap (fun _ => [.work .attributes, .work .movingWindow]) ++
  round.checks.flatMap check ++
  round.kept.flatMap MemberPtr.destroy

def getEmittedAlerts (alerts : List MemberPtr) : List Op :=
  locked .mAlertMutex
    (.work .alerts :: alerts.flatMap MemberPtr.copy ++ alerts.flatMap MemberPtr.destroy)

def reset (windows : List MemberPtr) : List Op := .work .movingWindow :: windows.flatMap MemberPtr.destroy

end FaultDetection

namespace Graph

/-- `vertices` are those before, if their vector grows. -/
def add (member : MemberPtr) (new : Bool) (vertices : List MemberPtr) : List Op :=
  locked .mVerticesMutex (.work .addVertex ::
    if new then MemberPtr.copy member ++ MemberPtr.regrow vertices else [])

def contains : List Op := [.work .findVertex]

/-- Reads the connections of the member, and searches for each of them. -/
def getIncoming : List Op := [.work .readMember, .work .findVertex]

def reset (vertices : List MemberPtr) : List Op := .work .resetVertices :: vertices.flatMap MemberPtr.destroy

/-- `getOutgoing` is called with the mutex of the vertices, which it searches. -/
def drawVertex : List Op := [.work .drawVertices, .work .readMember]

/-- An iteration of `visualise`; the number of vertices, if the flag of `updateVisualisation` is set. -/
def visualise (drawn : Option Nat) : List Op :=
  drawn.elim [] fun vertices =>
    locked .mVerticesMutex (.work .drawVertices :: (List.range vertices).flatMap fun _ => drawVertex)

end Graph

namespace DynamicSubgraphBuilder

def blindSpotCheck (blindspots : List Watchlist.Adding) : List Op :=
  DataStore.getFullGraphView ++ blindspots.flatMap Watchlist.addMember

/-- A connection of an update: whether the watchlist contains it already. -/
def watchUpdate (c : Bool × Watchlist.Adding) : List Op :=
  Watchlist.contains ++ if c.1 then [] else Watchlist.addMember c.2

/-- An update: whether the subgraph contains the member, and its connections. -/
def applyUpdate (update : Bool × List (Bool × Watchlist.Adding)) : List Op :=
  Graph.contains ++ if update.1 then update.2.flatMap watchUpdate else []

structure Expansion where
  member : MemberPtr
  new : Bool
  vertices : List MemberPtr
  incoming : List Watchlist.Adding

def expandAlert (e : Expansion) : List Op :=
  Graph.add e.member e.new e.vertices ++
    if e.new then Graph.getIncoming ++ e.incoming.flatMap Watchlist.addMember else []

def expandSubgraph (alerts : List Expansion) : List Op := alerts.flatMap expandAlert

/-- What is reset, the alerts since, and those before each time their vector grows. -/
structure Abort where
  members : List MemberPtr
  windows : List MemberPtr
  vertices : List MemberPtr
  lastAlerts : List MemberPtr
  regrown : List (List MemberPtr)

def abort (a : Abort) : List Op :=
  Watchlist.reset a.members ++ FaultDetection.reset a.windows ++ Graph.reset a.vertices ++
  FaultDetection.getEmittedAlerts a.lastAlerts ++ a.regrown.flatMap MemberPtr.regrow

/-- An iteration of `DynamicSubgraphBuilder::run`; `alerts` are those it has at its end. -/
structure Round where
  blindspots : Option (List Watchlist.Adding)
  updates : List (Bool × List (Bool × Watchlist.Adding))
  emittedAlerts : List MemberPtr
  expansions : List Expansion
  aborted : Option Abort
  alerts : List MemberPtr

def run (round : Round) : List Op :=
  round.blindspots.elim [] blindSpotCheck ++
  DataStore.getUpdates ++ round.updates.flatMap applyUpdate ++
  FaultDetection.getEmittedAlerts round.emittedAlerts ++ expandSubgraph round.expansions ++
  round.aborted.elim [] abort ++
  round.alerts.flatMap MemberPtr.destroy

end DynamicSubgraphBuilder

/-- The iterations of the loop of each thread. -/
def Iteration : Thread → List Op → Prop
  | .builder, code => ∃ round, code = DynamicSubgraphBuilder.run round
  | .faultDetection, code => ∃ round, code = FaultDetection.run round
  | .dataStore, code => ∃ round, code = DataStore.run round
  | .visualisation, code => ∃ drawn, code = Graph.visualise drawn

/-! What every function keeps to. -/

/-- The mutexes and the thread an access asks for. -/
def Allowed (t : Thread) (held : List Mutex) (w : Access) : Prop :=
  (∀ m ∈ w.locks, m ∈ held) ∧ ∀ u ∈ w.owner, u = t

/-- The answer to a request is received at once. -/
inductive Paired : List Op → Prop where
  | nil : Paired []
  | lock {m : Mutex} {rest : List Op} (h : Paired rest) : Paired (.lock m :: rest)
  | unlock {m : Mutex} {rest : List Op} (h : Paired rest) : Paired (.unlock m :: rest)
  | work {w : Access} {rest : List Op} (hw : w.isMessage = false) (h : Paired rest) : Paired (.work w :: rest)
  | ask {request : Request} {rest : List Op} (h : Paired rest) :
    Paired (.work (.send request) :: .work (.receive request) :: rest)

theorem Paired.append {a b : List Op} (ha : Paired a) (hb : Paired b) : Paired (a ++ b) := by
  induction ha with
  | nil => exact hb
  | lock _ ih => exact .lock ih
  | unlock _ ih => exact .unlock ih
  | work hw _ ih => exact .work hw ih
  | ask _ ih => exact .ask ih

/-- Code that thread `t` may run where the mutexes `inside` are held, and none of rank `k` or above. -/
structure Fits (t : Thread) (inside : List Mutex) (k : Nat) (code : List Op) : Prop where
  nested : Nested Mutex.rank (Allowed t) inside k code
  paired : Paired code

namespace Fits

variable {t : Thread} {inside : List Mutex} {k : Nat} {a b : List Op}

theorem nil : Fits t inside k [] := ⟨.nil, .nil⟩

theorem append (ha : Fits t inside k a) (hb : Fits t inside k b) : Fits t inside k (a ++ b) :=
  ⟨ha.nested.append hb.nested, ha.paired.append hb.paired⟩

theorem flatMap {α : Type} {f : α → List Op} (h : ∀ x, Fits t inside k (f x)) (xs : List α) :
    Fits t inside k (xs.flatMap f) := by
  induction xs with
  | nil => exact nil
  | cons x xs ih =>
    rw [List.flatMap_cons]
    exact (h x).append ih

theorem ite {c : Bool} (ha : Fits t inside k a) (hb : Fits t inside k b) :
    Fits t inside k (if c then a else b) := by
  cases c
  · exact hb
  · exact ha

theorem elim {α : Type} {f : α → List Op} (h : ∀ x, Fits t inside k (f x)) (o : Option α) :
    Fits t inside k (o.elim [] f) := by
  cases o
  · exact nil
  · exact h _

theorem locked {m : Mutex} (hm : k ≤ m.rank) (ha : Fits t (m :: inside) (m.rank + 1) a) :
    Fits t inside k (locked m a) :=
  ⟨ha.nested.locked hm, .lock (ha.paired.append (.unlock .nil))⟩

theorem allowed {w : Access} (hlocks : ∀ m ∈ w.locks, m ∈ inside) (howner : ∀ u ∈ w.owner, u = t) :
    Nested Mutex.rank (Allowed t) inside k [.work w] :=
  .work fun _ hin => ⟨fun m hm => hin m (hlocks m hm), howner⟩

theorem work {w : Access} (hw : w.isMessage = false) (hlocks : ∀ m ∈ w.locks, m ∈ inside)
    (howner : ∀ u ∈ w.owner, u = t) : Fits t inside k [.work w] :=
  ⟨allowed hlocks howner, .work hw .nil⟩

theorem ask {request : Request} (hlocks : ∀ m ∈ (Access.send request).locks, m ∈ inside)
    (howner : ∀ u ∈ (Access.send request).owner, u = t) : Fits t inside k (ask request) :=
  have hreceive : Nested Mutex.rank (Allowed t) inside k [.work (.receive request)] := by
    cases request <;> exact allowed hlocks howner
  ⟨(allowed hlocks howner).append hreceive, .ask .nil⟩

end Fits

section Functions
variable {t : Thread} {inside : List Mutex} {k : Nat}

theorem AtomicCounter.operate_fits (hk : k ≤ 2) (counter : Ref) : Fits t inside k (operate counter) :=
  .locked hk (.work rfl (by simp) (by simp))

namespace MemberPtr

theorem count_fits {operation : Ref → List Op} (h : ∀ counter, Fits t inside k (operation counter))
    (p : MemberPtr) : Fits t inside k (count operation p) := by
  unfold count
  split
  · exact h _
  · exact .nil

theorem copy_fits (hk : k ≤ 2) (p : MemberPtr) : Fits t inside k (copy p) :=
  count_fits (AtomicCounter.operate_fits hk) p

theorem destroy_fits (hk : k ≤ 2) (p : MemberPtr) : Fits t inside k (destroy p) :=
  count_fits (AtomicCounter.operate_fits hk) p

theorem readMember_fits : Fits t inside k [.work .readMember] :=
  .work rfl (by simp) (by simp)

theorem regrow_fits (hk : k ≤ 2) (ps : List MemberPtr) : Fits t inside k (regrow ps) :=
  .append (.flatMap (copy_fits hk) ps) (.flatMap (destroy_fits hk) ps)

end MemberPtr

namespace DataStore

theorem requestMember_fits {request : Request} {append : Access}
    (hrequest : Fits t (.mTopicsMutex :: inside) 2 (ask request))
    (happend : Fits t (.mTopicsMutex :: inside) 2 [.work append]) (hin : .mMembersMutex ∈ inside)
    (hk : k ≤ 1) : Fits t inside k (requestMember request append) :=
  .append (.locked hk (.append hrequest happend)) (.ask (by simp [hin]) (by simp))

theorem requestNode_fits (hin : .mMembersMutex ∈ inside) (hk : k ≤ 1) : Fits t inside k requestNode :=
  requestMember_fits (.ask (by simp [hin]) (by simp))
    (.work rfl (by simp [hin]) (by simp)) hin hk

theorem requestTopic_fits (hin : .mMembersMutex ∈ inside) (hk : k ≤ 1) : Fits t inside k requestTopic :=
  requestMember_fits (.ask (by simp [hin]) (by simp))
    (.work rfl (by simp [hin]) (by simp)) hin hk

theorem getNodeByName_fits (hin : .mMembersMutex ∈ inside) (hk : k ≤ 1) (stored known : Bool) :
    Fits t inside k (getNodeByName stored known) := by
  have hask : Fits t inside k (ask .search) := .ask (by simp [hin]) (by simp)
  exact .append (.work (w := .findNode) rfl (by simp [hin]) (by simp))
    (.ite .nil (hask.append (.ite (requestNode_fits hin hk) .nil)))

theorem get_fits (hin : .mMembersMutex ∈ inside) (hk : k ≤ 1) (member : MemberProxy) (stored : Bool) :
    Fits t inside k (get member stored) := by
  unfold get
  apply Fits.ite
  · exact .append (.work (w := .findTopic) rfl (by simp [hin]) (by simp))
      (.ite .nil (requestTopic_fits hin hk))
  · exact .append (.work (w := .findNode) rfl (by simp [hin]) (by simp))
      (.ite .nil (requestNode_fits hin hk))

theorem useUpdates_fits (hk : k ≤ 2) : Fits t inside k useUpdates :=
  .locked hk (.work rfl (by simp) (by simp))

theorem sweepElement_fits {walk erase : Access} {mutex : Mutex} (hwalk : Fits t inside k [.work walk])
    (herase : Fits t inside k (locked mutex [.work erase])) (hk : k ≤ 2) (e : Ref × Bool) :
    Fits t inside k (sweepElement walk erase mutex e) :=
  hwalk.append (.append (AtomicCounter.operate_fits hk e.1) (.ite .nil herase))

theorem addUpdate_fits (hk : k ≤ 2) (kind : MessageKind) : Fits t inside k (addUpdate kind) := by
  cases kind <;> first | exact useUpdates_fits hk | exact .nil

theorem handle_fits (hk : k ≤ 1) (kind : MessageKind) (stored : Bool) :
    Fits .dataStore inside k (handle kind stored) := by
  -- the list of updates is locked inside of the list of members
  have hupdate : ∀ mutex : Mutex, mutex.rank = 1 →
      Fits .dataStore (mutex :: inside) (mutex.rank + 1) (if stored then addUpdate kind else []) :=
    fun mutex hrank => .ite (addUpdate_fits (by simp [hrank]) kind) .nil
  have hnode : Fits .dataStore inside k
      (locked .mNodesMutex (.work .updateNode :: if stored then addUpdate kind else [])) :=
    .locked hk (.append (.work rfl (by simp) (by simp)) (hupdate _ rfl))
  have htopic : Fits .dataStore inside k
      (locked .mTopicsMutex (.work .updateTopic :: if stored then addUpdate kind else [])) :=
    .locked hk (.append (.work rfl (by simp) (by simp)) (hupdate _ rfl))
  cases kind <;> first | exact hnode | exact htopic

theorem run_fits (round : Round) : Fits .dataStore [] 0 (run round) := by
  have hnodes : ∀ e, Fits .dataStore [] 0 (sweepNode e) :=
    sweepElement_fits (.work rfl (by simp) (by simp))
      (.locked (by decide) (.work rfl (by simp) (by simp))) (by decide)
  have htopics : ∀ e, Fits .dataStore [] 0 (sweepTopic e) :=
    sweepElement_fits (.work rfl (by simp) (by simp))
      (.locked (by decide) (.work rfl (by simp) (by simp))) (by decide)
  exact .append (.append (.flatMap hnodes _) (.flatMap htopics _))
    (.flatMap (fun kind => .elim (handle_fits (by decide) kind) _) _)

end DataStore

namespace Watchlist

/-- An access to the watchlist, with its mutex. -/
theorem members_fits (hin : .mMembersMutex ∈ inside) : Fits t inside k [.work .members] :=
  .work rfl (by simp [hin]) (by simp)

theorem tryName_fits (hin : .mMembersMutex ∈ inside) (hk : k ≤ 1) (entry : Try) : Fits t inside k (tryName entry) :=
  .append (DataStore.getNodeByName_fits hin hk _ _)
    (.append (members_fits hin) (MemberPtr.destroy_fits (by omega) _))

theorem getMembers_fits (tries : List Try) (members : List MemberPtr) : Fits t inside 0 (getMembers tries members) := by
  have hin : Mutex.mMembersMutex ∈ .mMembersMutex :: inside := List.mem_cons_self
  exact .locked (Nat.le_refl 0) (.append (.append (members_fits hin) (.flatMap (tryName_fits hin (by decide)) _))
    (.append (members_fits hin) (.flatMap (MemberPtr.copy_fits (by decide)) _)))

theorem addMember_fits (a : Adding) : Fits t inside 0 (addMember a) := by
  have hin : Mutex.mMembersMutex ∈ .mMembersMutex :: inside := List.mem_cons_self
  exact .ite .nil (.locked (Nat.le_refl 0) (.append (members_fits hin)
    (.ite (.append (DataStore.get_fits hin (by decide) _ _) (members_fits hin)) .nil)))

theorem contains_fits : Fits t inside 0 contains :=
  .locked (Nat.le_refl 0) (members_fits List.mem_cons_self)

theorem reset_fits (members : List MemberPtr) : Fits t inside 0 (reset members) :=
  .locked (Nat.le_refl 0)
    (.append (members_fits List.mem_cons_self) (.flatMap (MemberPtr.destroy_fits (by decide)) _))

theorem notifyUsed_fits (erased : MemberPtr) : Fits t inside 0 (notifyUsed erased) :=
  .locked (Nat.le_refl 0) (.append (members_fits List.mem_cons_self) (MemberPtr.destroy_fits (by decide) _))

end Watchlist

namespace FaultDetection

theorem movingWindow_fits : Fits t inside k [.work .movingWindow] :=
  .work rfl (by simp) (by simp)

theorem detectFaults_fits (hk : k ≤ 2) (member : MemberPtr) : Fits t inside k (detectFaults member) :=
  .append (.append (.append (MemberPtr.copy_fits hk _) (MemberPtr.copy_fits hk _)) (.ite MemberPtr.readMember_fits .nil))
    (MemberPtr.destroy_fits hk _)

/-- An access to the emitted alerts, with the copies and destructions that come with it. -/
theorem alerts_fits {code : List Op} (hk : k ≤ 1) (hcode : Fits t (.mAlertMutex :: inside) 2 code) :
    Fits t inside k (locked .mAlertMutex (.work .alerts :: code)) :=
  .locked hk (.append (.work rfl (by simp) (by simp)) hcode)

theorem check_fits (c : Check) : Fits t inside 0 (check c) := by
  have hfound : Fits t inside 0 (detectFaults c.memberPtr) := detectFaults_fits (by decide) _
  have hemit : Fits t inside 0 (emit c.regrown) := alerts_fits (by decide) (MemberPtr.regrow_fits (by decide) _)
  have hafter : Fits t inside 0 (Watchlist.notifyUsed c.erased) := Watchlist.notifyUsed_fits _
  exact .append movingWindow_fits (.ite (.append (.append (.append (.append hfound (.ite hemit .nil)) hafter)
    (.append movingWindow_fits (MemberPtr.destroy_fits (by decide) _)))
    (.ite .nil (MemberPtr.destroy_fits (by decide) _))) .nil)

theorem run_fits (round : Round) : Fits .faultDetection inside 0 (run round) := by
  have hupdate : Fits .faultDetection inside 0 [.work .attributes, .work .movingWindow] :=
    .append (.work (w := .attributes) rfl (by simp) (by simp)) movingWindow_fits
  exact .append (.append (.append (Watchlist.getMembers_fits _ _) (.flatMap (fun _ => hupdate) _))
    (.flatMap check_fits _)) (.flatMap (MemberPtr.destroy_fits (by decide)) _)

theorem getEmittedAlerts_fits (alerts : List MemberPtr) : Fits t inside 0 (getEmittedAlerts alerts) :=
  alerts_fits (by decide) (MemberPtr.regrow_fits (by decide) _)

theorem reset_fits (windows : List MemberPtr) : Fits t inside 0 (reset windows) :=
  .append movingWindow_fits (.flatMap (MemberPtr.destroy_fits (by decide)) _)

end FaultDetection

namespace Graph

/-- An access of the builder to the subgraph, without a mutex. -/
theorem vertices_fits {w : Access} (hw : w = .findVertex ∨ w = .resetVertices) : Fits .builder inside k [.work w] := by
  obtain rfl | rfl := hw
  all_goals exact .work rfl (by simp) (by simp)

theorem add_fits (member : MemberPtr) (new : Bool) (vertices : List MemberPtr) :
    Fits .builder inside 0 (add member new vertices) :=
  .locked (by decide) (.append (.work rfl (by simp) (by simp))
    (.ite (.append (MemberPtr.copy_fits (by decide) _) (MemberPtr.regrow_fits (by decide) _)) .nil))

theorem getIncoming_fits : Fits .builder inside k getIncoming :=
  .append MemberPtr.readMember_fits (vertices_fits (.inl rfl))

theorem visualise_fits (drawn : Option Nat) : Fits .visualisation inside 0 (visualise drawn) := by
  have hdraw : Fits .visualisation (.mVerticesMutex :: inside) 2 [.work .drawVertices] := .work rfl (by simp) (by simp)
  exact .elim (fun _ => .locked (by decide)
    (.append hdraw (.flatMap (fun _ => .append hdraw MemberPtr.readMember_fits) _))) _

end Graph

namespace DynamicSubgraphBuilder

theorem blindSpotCheck_fits (blindspots : List Watchlist.Adding) :
    Fits .builder inside 0 (blindSpotCheck blindspots) :=
  .append (.ask (by simp) (by simp)) (.flatMap Watchlist.addMember_fits _)

theorem applyUpdate_fits (update : Bool × List (Bool × Watchlist.Adding)) :
    Fits .builder inside 0 (applyUpdate update) := by
  have hwatch : ∀ c, Fits .builder inside 0 (watchUpdate c) :=
    fun c => .append Watchlist.contains_fits (.ite .nil (Watchlist.addMember_fits _))
  exact .append (Graph.vertices_fits (.inl rfl)) (.ite (.flatMap hwatch _) .nil)

theorem expandAlert_fits (e : Expansion) : Fits .builder inside 0 (expandAlert e) :=
  .append (Graph.add_fits _ _ _)
    (.ite (.append Graph.getIncoming_fits (.flatMap Watchlist.addMember_fits _)) .nil)

theorem abort_fits (a : Abort) : Fits .builder inside 0 (abort a) := by
  have hgraph : Fits .builder inside 0 (Graph.reset a.vertices) :=
    .append (Graph.vertices_fits (.inr rfl)) (.flatMap (MemberPtr.destroy_fits (by decide)) _)
  exact .append (.append (.append (.append (Watchlist.reset_fits _) (FaultDetection.reset_fits _)) hgraph)
    (FaultDetection.getEmittedAlerts_fits _)) (.flatMap (MemberPtr.regrow_fits (by decide)) _)

theorem run_fits (round : Round) : Fits .builder [] 0 (run round) := by
  have hcheck : Fits .builder [] 0 (round.blindspots.elim [] blindSpotCheck) := .elim blindSpotCheck_fits _
  have hupdates : Fits .builder [] 0 DataStore.getUpdates := DataStore.useUpdates_fits (by decide)
  have halerts : Fits .builder [] 0 (FaultDetection.getEmittedAlerts round.emittedAlerts) :=
    FaultDetection.getEmittedAlerts_fits _
  have hexpand : Fits .builder [] 0 (expandSubgraph round.expansions) := .flatMap expandAlert_fits _
  exact (((((hcheck.append hupdates).append (.flatMap applyUpdate_fits _)).append halerts).append hexpand).append
    (.elim abort_fits _)).append (.flatMap (MemberPtr.destroy_fits (by decide)) _)

end DynamicSubgraphBuilder

theorem Iteration.fits {t : Thread} {code : List Op} (h : Iteration t code) : Fits t [] 0 code := by
  cases t with
  | builder =>
    obtain ⟨round, rfl⟩ := h
    exact DynamicSubgraphBuilder.run_fits round
  | faultDetection =>
    obtain ⟨round, rfl⟩ := h
    exact FaultDetection.run_fits round
  | dataStore =>
    obtain ⟨round, rfl⟩ := h
    exact DataStore.run_fits round
  | visualisation =>
    obtain ⟨drawn, rfl⟩ := h
    exact Graph.visualise_fits drawn

end Functions

end Locking

end StreamFdl
