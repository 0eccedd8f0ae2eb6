import StreamFdl.AbortCriteria
import StreamFdl.Graph

/- `DynamicSubgraphBuilder::run` beside `DataStore::run` and the detection. A run
   interleaves the steps of three threads:

   * the data store handles a message in two steps: it updates the relation of
     the member the message is for, and then queues the connection for the graph;
   * fault detection emits alerts;
   * a round of the builder drains the queued updates and passes the connections
     of members in the subgraph to the watchlist, takes the emitted alerts and
     expands the subgraph by each of them, and checks the abort criterion.

   Between any two of these steps every thread may work on the store and on the
   watchlist. A round starts here when it drains the updates: what it does before
   that is one of these other operations on the watchlist (the blind spot check).

   The last four fields of the state are its history: no step reads them. -/
namespace StreamFdl
open Runs

namespace FaultDetection

def getEmittedAlerts (fd : FaultDetection) : FaultDetection × List Alert :=
  ({ fd with mAlerts := [] }, fd.mAlerts)

/-- The alerts stay. -/
def reset (fd : FaultDetection) : FaultDetection := { fd with mMovingWindow := .empty }

end FaultDetection

/-- The other operations of the threads on the data store. -/
inductive StoreOp where
  | emplaceNode (response : NodeResponse) (requestId : RequestId)
  | emplaceTopic (response : TopicResponse) (requestId : RequestId)
  | addAttributeSource (r : Ref) (attr : Attribute)
  | increase (r : Ref)
  | decrease (r : Ref)
  | erase (r : Ref)

def DataStore.apply (s : DataStore) : StoreOp → Option DataStore
  | .emplaceNode response requestId => (s.emplaceNode response requestId).map Prod.fst
  | .emplaceTopic response requestId => (s.emplaceTopic response requestId).map Prod.fst
  | .addAttributeSource r attr => s.addAttributeSource r attr
  | .increase r => s.access r AtomicCounter.increase
  | .decrease r => s.access r AtomicCounter.decrease
  | .erase r => (s.erase r).map Prod.fst

theorem DataStore.apply_spec {s s' : DataStore} {op : StoreOp} (h : s.apply op = some s') (hw : s.WellFormed) :
    s.Evolves s' ∧ s'.WellFormed := by
  cases op with
  | emplaceNode response requestId =>
    obtain ⟨⟨t, m⟩, ht, rfl⟩ := Option.map_eq_some_iff.mp h
    obtain ⟨_, _, _, hw'⟩ := emplaceNode_spec ht hw
    exact ⟨emplaceNode_evolves ht, hw'⟩
  | emplaceTopic response requestId =>
    obtain ⟨⟨t, m⟩, ht, rfl⟩ := Option.map_eq_some_iff.mp h
    obtain ⟨_, _, _, hw'⟩ := emplaceTopic_spec ht hw
    exact ⟨emplaceTopic_evolves ht, hw'⟩
  | addAttributeSource r attr => exact ⟨addAttributeSource_evolves h, (addAttributeSource_spec h).2 hw⟩
  | increase r => exact ⟨access_evolves h, (access_spec h).2 hw⟩
  | decrease r => exact ⟨access_evolves h, (access_spec h).2 hw⟩
  | erase r =>
    obtain ⟨⟨t, n⟩, ht, rfl⟩ := Option.map_eq_some_iff.mp h
    exact ⟨erase_evolves ht, (erase_spec ht).2 hw⟩

/-- Where the builder stands in its round. -/
inductive Phase where
  | idle
  /-- The loop over the drained updates. -/
  | updates (updates : GraphView)
  /-- The loop over the connections of one of them. -/
  | connections (connections : MemberProxies) (updates : GraphView)
  /-- The watchlist does not contain this member. -/
  | adding (member : MemberProxy) (connections : MemberProxies) (updates : GraphView)
  /-- The loop of `expandSubgraph`; all alerts of the round, and those left. -/
  | alerts (emittedAlerts newAlerts : List Alert)
  /-- The loop over the incoming members of one of them. -/
  | incoming (incoming : MemberProxies) (emittedAlerts newAlerts : List Alert)

def Phase.isIdle : Phase → Bool
  | idle => true
  | _ => false

structure BuilderState where
  mpDataStore : DataStore
  /-- The message whose relation has been updated, and the element it is for. -/
  updating : Option (Update × Nat)
  mWatchlist : Watchlist
  mFD : FaultDetection
  mSAG : Graph
  criteria : AbortCriteria
  phase : Phase
  /-- How many rounds have started. -/
  rounds : Nat
  /-- The incoming connections that were recorded in the store when they were queued. -/
  known : List (Member × MemberProxy)
  /-- The ones among them that a round has drained. -/
  drained : List (Member × MemberProxy)
  /-- The keys that have been passed to `addMember`, or that have been on the watchlist. -/
  monitored : List PrimaryKey

inductive BuilderAction where
  /-- The first step of handling a message. -/
  | update (u : Update)
  /-- The second one. -/
  | queue
  | store (op : StoreOp)
  | watchlist (op : Watchlist.Op)
  | emit (alert : Alert)
  /-- The next step of the builder; `store` is what the data store answers to the watchlist in it. -/
  | builder (store : StoreView)

/-- The member an operation of the watchlist is told to add. -/
def Watchlist.Op.passed : Watchlist.Op → List PrimaryKey
  | .addMember _ member _ => [member.mPrimaryKey]
  | .addMemberPtr member _ => (member.mpMember.map Member.mPrimaryKey).toList
  | _ => []

/-- The keys on the watchlist. -/
def Watchlist.keys (w : Watchlist) : List PrimaryKey :=
  w.mMembers.entries.filterMap fun e => e.1.mpMember.map Member.mPrimaryKey

/-- The element a message is for, as a member. -/
def Update.member (u : Update) (it : Nat) : Member := ⟨⟨u.isTopic, it⟩, u.isTopic, u.primaryKey⟩

namespace BuilderState

def new (parameterEventsKey rosoutKey : PrimaryKey) (initialMemberNames : List String)
    (movingWindowSize : Nat) (criteria : AbortCriteria) : BuilderState where
  mpDataStore := .new parameterEventsKey rosoutKey
  updating := none
  mWatchlist := .new initialMemberNames
  mFD := .new movingWindowSize
  mSAG := .new
  criteria := criteria
  phase := .idle
  rounds := 0
  known := []
  drained := []
  monitored := []

/-- The watchlist after an operation that was passed these members. -/
def watch (s : BuilderState) (passed : List PrimaryKey) (w : Watchlist) : BuilderState :=
  { s with mWatchlist := w, monitored := s.monitored ++ passed ++ w.keys }

/-- `mWatchlist.addMember`, on the way to the next phase. -/
def addMember (s : BuilderState) (store : StoreView) (member : MemberProxy) (next : Phase) :
    Option BuilderState :=
  (s.mWatchlist.addMember store member .TYPE_NORMAL).map fun w =>
    { s.watch [member.mPrimaryKey] w with phase := next }

/-- One pass of the loop of `expandSubgraph`. -/
def expand (s : BuilderState) (alert : Alert) (emittedAlerts newAlerts : List Alert) : Option BuilderState :=
  let r := s.mSAG.add alert.member
  if r.2 then
    (r.1.getIncoming s.mpDataStore alert.member).map fun incoming =>
      { s with mSAG := r.1, phase := .incoming incoming emittedAlerts newAlerts }
  else some { s with phase := .alerts emittedAlerts newAlerts }

/-- The end of a round; an abort is one step here. -/
def finish (s : BuilderState) (emittedAlerts : List Alert) : Option BuilderState :=
  (s.criteria.checkAbortCirteria emittedAlerts).map fun r =>
    if r.2 then
      { s with
        criteria := { r.1 with mSomethingIsGoingOn := false }
        mWatchlist := s.mWatchlist.reset
        mFD := s.mFD.reset.getEmittedAlerts.1
        mSAG := s.mSAG.reset
        phase := .idle }
    else { s with criteria := r.1, phase := .idle }

/-- A round of `run`, step by step. -/
def builderStep (s : BuilderState) (store : StoreView) : Option BuilderState :=
  match s.phase with
  | .idle =>
    let r := s.mpDataStore.getUpdates
    some { s with mpDataStore := r.1, phase := .updates r.2, rounds := s.rounds + 1, drained := s.known }
  | .updates [] =>
    let r := s.mFD.getEmittedAlerts
    some { s with mFD := r.1, phase := .alerts r.2 r.2 }
  | .updates (update :: updates) =>
    if s.mSAG.contains update.member then
      some { s with phase := .connections update.connections updates }
    else some { s with phase := .updates updates }
  | .connections [] updates => some { s with phase := .updates updates }
  | .connections (member :: connections) updates =>
    if s.mWatchlist.contains member.mPrimaryKey then
      some { s with phase := .connections connections updates }
    else some { s with phase := .adding member connections updates }
  | .adding member connections updates => s.addMember store member (.connections connections updates)
  | .alerts emittedAlerts (alert :: newAlerts) => s.expand alert emittedAlerts newAlerts
  | .incoming [] emittedAlerts newAlerts => some { s with phase := .alerts emittedAlerts newAlerts }
  | .incoming (member :: incoming) emittedAlerts newAlerts =>
    s.addMember store member (.incoming incoming emittedAlerts newAlerts)
  | .alerts emittedAlerts [] => s.finish emittedAlerts

def step (s : BuilderState) : BuilderAction → Option BuilderState
  | .update u =>
    if s.updating.isSome then none
    else do
      match ← s.mpDataStore.findUpdated u with
      | none => pure s
      | some it =>
        let store ← s.mpDataStore.update it u
        pure { s with mpDataStore := store, updating := some (u, it) }
  | .queue => s.updating.map fun r =>
    { s with
      mpDataStore := s.mpDataStore.queue r.1
      updating := none
      known := s.known ++ (r.1.connection.toList.filter fun x =>
        s.mpDataStore.Recorded (r.1.member r.2) x).map fun x => (r.1.member r.2, x) }
  | .store op => (s.mpDataStore.apply op).map fun store => { s with mpDataStore := store }
  | .watchlist op => (s.mWatchlist.step op).map fun w => s.watch op.passed w
  -- the detection has read the attributes of the object the handle leads to
  | .emit alert => alert.member.mpMember.bind fun m =>
    if s.mpDataStore.Leads m then
      some { s with mFD := { s.mFD with mAlerts := s.mFD.mAlerts ++ [alert] } }
    else none
  | .builder store => s.builderStep store

/-! What a step of the builder can do. -/

/-- The next step of the builder would abort. -/
def aborts (s : BuilderState) : Bool :=
  match s.phase with
  | .alerts emittedAlerts [] => (s.criteria.checkAbortCirteria emittedAlerts).any Prod.snd
  | _ => false

inductive Move (s : BuilderState) : BuilderState → Prop where
  | drain (h : s.phase = .idle) : Move s { s with
      mpDataStore := { s.mpDataStore with mUpdates := [] }
      phase := .updates s.mpDataStore.mUpdates
      rounds := s.rounds + 1
      drained := s.known }
  | take (h : s.phase = .updates []) : Move s { s with
      mFD := { s.mFD with mAlerts := [] }
      phase := .alerts s.mFD.mAlerts s.mFD.mAlerts }
  | enter {update : MemberConnections} {updates : GraphView} (h : s.phase = .updates (update :: updates)) :
      Move s { s with phase := .connections update.connections updates }
  | skip {update : MemberConnections} {updates : GraphView} (h : s.phase = .updates (update :: updates))
      (hout : s.mSAG.contains update.member = false) : Move s { s with phase := .updates updates }
  | leave {updates : GraphView} (h : s.phase = .connections [] updates) :
      Move s { s with phase := .updates updates }
  | seen {member : MemberProxy} {connections : MemberProxies} {updates : GraphView}
      (h : s.phase = .connections (member :: connections) updates)
      (hin : s.mWatchlist.contains member.mPrimaryKey = true) :
      Move s { s with phase := .connections connections updates }
  | unseen {member : MemberProxy} {connections : MemberProxies} {updates : GraphView}
      (h : s.phase = .connections (member :: connections) updates) :
      Move s { s with phase := .adding member connections updates }
  | add {member : MemberProxy} {w : Watchlist} {connections : MemberProxies} {updates : GraphView}
      (h : s.phase = .adding member connections updates) :
      Move s { s.watch [member.mPrimaryKey] w with phase := .connections connections updates }
  | present {alert : Alert} {emittedAlerts newAlerts : List Alert}
      (h : s.phase = .alerts emittedAlerts (alert :: newAlerts)) (hin : (s.mSAG.add alert.member).2 = false) :
      Move s { s with phase := .alerts emittedAlerts newAlerts }
  | expand {alert : Alert} {emittedAlerts newAlerts : List Alert} {m : Member} {targets : MemberProxies}
      (h : s.phase = .alerts emittedAlerts (alert :: newAlerts)) (hnew : (s.mSAG.add alert.member).2 = true)
      (hm : alert.member.mpMember = some m) (hscan : Graph.scanned s.mpDataStore m = some targets) :
      Move s { s with
        mSAG := (s.mSAG.add alert.member).1
        phase := .incoming (targets.filter (s.mSAG.add alert.member).1.contains) emittedAlerts newAlerts }
  | expanded {emittedAlerts newAlerts : List Alert} (h : s.phase = .incoming [] emittedAlerts newAlerts) :
      Move s { s with phase := .alerts emittedAlerts newAlerts }
  | addIncoming {member : MemberProxy} {w : Watchlist} {incoming : MemberProxies}
      {emittedAlerts newAlerts : List Alert}
      (h : s.phase = .incoming (member :: incoming) emittedAlerts newAlerts) :
      Move s { s.watch [member.mPrimaryKey] w with phase := .incoming incoming emittedAlerts newAlerts }
  | finish {emittedAlerts : List Alert} {criteria : AbortCriteria} (h : s.phase = .alerts emittedAlerts []) :
      Move s { s with criteria := criteria, phase := .idle }

variable {s s' : BuilderState}

theorem addMember_eq {store : StoreView} {member : MemberProxy} {next : Phase}
    (h : s.addMember store member next = some s') :
    ∃ w, s' = { s.watch [member.mPrimaryKey] w with phase := next } := by
  obtain ⟨w, _, rfl⟩ := Option.map_eq_some_iff.mp h
  exact ⟨w, rfl⟩

/-- Every step of a builder that does not abort is one of these. -/
theorem builderStep_move {store : StoreView} (h : s.builderStep store = some s')
    (hgo : s.aborts = false) : s.Move s' := by
  unfold builderStep at h
  split at h
  · next hp => cases h; exact .drain hp
  · next hp => cases h; exact .take hp
  · next hp =>
    split at h
    · cases h; exact .enter hp
    · next hout => cases h; exact .skip hp (Bool.not_eq_true _ ▸ hout)
  · next hp => cases h; exact .leave hp
  · next hp =>
    split at h
    · next hin => cases h; exact .seen hp hin
    · cases h; exact .unseen hp
  · next hp =>
    obtain ⟨w, rfl⟩ := addMember_eq h
    exact .add hp
  · next hp =>
    simp only [BuilderState.expand] at h
    split at h
    · next hnew =>
      obtain ⟨targets', ht, rfl⟩ := Option.map_eq_some_iff.mp h
      simp only [Graph.getIncoming, Option.bind_eq_bind, Option.bind_eq_some_iff, Option.pure_def,
        Option.some.injEq] at ht
      obtain ⟨m, hm, targets, hscan, rfl⟩ := ht
      exact .expand hp hnew hm hscan
    · next hin => cases h; exact .present hp (Bool.not_eq_true _ ▸ hin)
  · next hp => cases h; exact .expanded hp
  · next hp =>
    obtain ⟨w, rfl⟩ := addMember_eq h
    exact .addIncoming hp
  · next hp =>
    obtain ⟨r, hr, rfl⟩ := Option.map_eq_some_iff.mp h
    simp only [aborts, hp, hr, Option.any_some] at hgo
    simp only [hgo]
    exact .finish hp

/-- To the data store, the builder does nothing but take its updates; this holds of an abort too. -/
theorem builderStep_store {store : StoreView} (h : s.builderStep store = some s') :
    (s'.mpDataStore = s.mpDataStore ∨ s'.mpDataStore = { s.mpDataStore with mUpdates := [] }) ∧
      s'.known = s.known ∧ s'.updating = s.updating := by
  cases hgo : s.aborts with
  | false =>
    have hmove := builderStep_move h hgo
    cases hmove with
    | drain _ => exact ⟨Or.inr rfl, rfl, rfl⟩
    | _ => exact ⟨Or.inl rfl, rfl, rfl⟩
  | true =>
    unfold aborts at hgo
    split at hgo
    · next hp =>
      simp only [builderStep, hp] at h
      obtain ⟨r, _, rfl⟩ := Option.map_eq_some_iff.mp h
      split
      · exact ⟨Or.inl rfl, rfl, rfl⟩
      · exact ⟨Or.inl rfl, rfl, rfl⟩
    · cases hgo

end BuilderState

end StreamFdl
