import StreamFdl.Base.Runs
import StreamFdl.Neighbours
import Mathlib.Data.List.Basic

/- Updates that arrive while their member is being requested. The parties are
   any number of threads in `requestNode` or `requestTopic`, the thread of
   `DataStore::run`, and a server that may send updates for a request from the
   moment it has accepted it. The server answers a request with the member that
   was asked for; messages may overtake each other.

   Both request functions hold `mTopicsMutex` from before the request is sent
   until the element is in its list. For a topic update `DataStore::run` takes
   the same mutex, so it cannot look in between. For a node update it takes
   `mNodesMutex`, which no requester ever holds.

   No update is lost when every message received is either handled or still at
   hand, what was handled went to an element that was requested for its member,
   and the objects of the elements are what the responses and these updates
   make them. Two threads may request a member at the same time; then it has two
   elements, and the updates for both requests go to the first. A request ends
   here with its lock: the attribute source it adds afterwards is a field that
   no update writes. -/
namespace StreamFdl
open Runs

inductive MemberResponse where
  | node (response : NodeResponse)
  | topic (response : TopicResponse)

def MemberResponse.isTopic : MemberResponse → Bool
  | node _ => false
  | topic _ => true

def MemberResponse.primaryKey : MemberResponse → PrimaryKey
  | node response => response.primaryKey
  | topic response => response.primaryKey

/-- The object of a list element. -/
inductive MemberObject where
  | node (node : Node)
  | topic (topic : Topic)

/-- `update`, on an object of the kind that the update is for. -/
def MemberObject.update : MemberObject → Update → MemberObject
  | node n, .node u => node (n.update u)
  | topic t, .topic u => topic (t.update u)
  | object, _ => object

/-- The object `emplace_back` makes of a response. -/
def MemberResponse.object : MemberResponse → MemberObject
  | node response => .node (.ofResponse response)
  | topic response => .topic (.ofResponse response)

def DataStore.object (s : DataStore) (r : Ref) : Option MemberObject :=
  if r.isTopic then (s.mTopics.data r.addr).map fun d => .topic d.inst
  else (s.mNodes.data r.addr).map fun d => .node d.inst

/-- What a thread in `requestNode` or `requestTopic` has done last. -/
inductive RequestPc where
  | called
  | locked
  | sent
  /-- The server has accepted the request, and sends updates from now on. -/
  | accepted
  | received (response : MemberResponse)
  | emplaced (response : MemberResponse) (it : Ref)
  | unlocked (response : MemberResponse) (it : Ref)

namespace RequestPc

/-- The thread is inside the scope of its lock. -/
def holds : RequestPc → Bool
  | called | unlocked _ _ => false
  | _ => true

/-- The server sends updates. -/
def subscribed : RequestPc → Bool
  | called | locked | sent => false
  | _ => true

/-- The element the request appended. -/
def element : RequestPc → Option Ref
  | emplaced _ it | unlocked _ it => some it
  | _ => none

/-- What the server answered. -/
def response : RequestPc → Option MemberResponse
  | received response | emplaced response _ | unlocked response _ => some response
  | _ => none

/-- A request the server sends updates for has its element, once it is outside its lock. -/
theorem element_of_subscribed {pc : RequestPc} (hs : pc.subscribed = true) (hh : pc.holds = false) :
    pc.element.isSome = true := by
  cases pc with
  | unlocked response it => rfl
  | called | locked | sent => cases hs
  | accepted | received _ | emplaced _ _ => cases hh

end RequestPc

structure MemberRequest where
  isTopic : Bool
  primary : PrimaryKey
  requestId : RequestId
  pc : RequestPc

inductive Owner where
  | requester (i : Nat)
  | run
  deriving DecidableEq, Repr

/-- An update message, with the request it was sent for. -/
structure UpdateMessage where
  request : Nat
  update : Update

/-- What the thread of `DataStore::run` has done last. -/
inductive RunPc where
  | idle
  | received (m : UpdateMessage)
  | locked (m : UpdateMessage)
  | found (m : UpdateMessage) (it : Nat)
  | notFound (m : UpdateMessage)
  | handled (m : UpdateMessage)

namespace RunPc

def message : RunPc → Option UpdateMessage
  | idle => none
  | received m | locked m | found m _ | notFound m | handled m => some m

/-- The message that was received and is not handled yet. -/
def atHand : RunPc → Option UpdateMessage
  | idle | handled _ => none
  | received m | locked m | found m _ | notFound m => some m

/-- The message whose lock the thread holds. -/
def holds : RunPc → Option UpdateMessage
  | idle | received _ => none
  | locked m | found m _ | notFound m | handled m => some m

/-- Whether the search reached the end. -/
def afterFind (m : UpdateMessage) : Option Nat → RunPc
  | some it => found m it
  | none => notFound m

@[simp] theorem afterFind_message (m : UpdateMessage) (it : Option Nat) :
    (afterFind m it).message = some m := by cases it <;> rfl

@[simp] theorem afterFind_atHand (m : UpdateMessage) (it : Option Nat) :
    (afterFind m it).atHand = some m := by cases it <;> rfl

@[simp] theorem afterFind_holds (m : UpdateMessage) (it : Option Nat) :
    (afterFind m it).holds = some m := by cases it <;> rfl

end RunPc

structure RequestState where
  store : DataStore
  mNodesMutex : Option Owner
  mTopicsMutex : Option Owner
  requests : List MemberRequest
  inFlight : List UpdateMessage
  run : RunPc
  /-- The messages `DataStore::run` has received so far. -/
  received : List UpdateMessage
  /-- The messages it has handled so far, each with the element it was applied to; none where the
      message was ignored, because its member was not in the store. -/
  handled : List (UpdateMessage × Option Ref)
  /-- The elements erased so far. -/
  erased : List Ref

inductive RequestAction where
  | call (isTopic : Bool) (primary : PrimaryKey) (requestId : RequestId)
  | lock (i : Nat)
  | send (i : Nat)
  | accept (i : Nat)
  | receive (i : Nat) (response : MemberResponse)
  | emplaceBack (i : Nat)
  | unlock (i : Nat)
  /-- The server sends an update for a request. -/
  | serve (m : UpdateMessage)
  | runReceive (j : Nat)
  | runLock
  | runFind
  | runHandle
  | runUnlock
  | runErase (r : Ref)

def DataStore.emplaceBack (s : DataStore) (requestId : RequestId) : MemberResponse →
    Option (DataStore × Member)
  | .node response => s.emplaceNode response requestId
  | .topic response => s.emplaceTopic response requestId

namespace RequestState

def new (parameterEventsKey rosoutKey : PrimaryKey) : RequestState :=
  ⟨.new parameterEventsKey rosoutKey, none, none, [], [], .idle, [], [], []⟩

/-- The mutex `DataStore::run` takes for the members of one kind. -/
def mutex (s : RequestState) (isTopic : Bool) : Option Owner :=
  if isTopic then s.mTopicsMutex else s.mNodesMutex

def setMutex (s : RequestState) (isTopic : Bool) (owner : Option Owner) : RequestState :=
  if isTopic then { s with mTopicsMutex := owner } else { s with mNodesMutex := owner }

def setPc (s : RequestState) (i : Nat) (q : MemberRequest) (pc : RequestPc) : RequestState :=
  { s with requests := s.requests.set i { q with pc := pc } }

/-- A step of `requestNode` or `requestTopic`. The lock is `mTopicsMutex` in both. -/
def requesterStep (s : RequestState) (i : Nat) (q : MemberRequest) : RequestAction → Option RequestState
  | .lock _ =>
    match q.pc, s.mTopicsMutex with
    | .called, none => some { s.setPc i q .locked with mTopicsMutex := some (.requester i) }
    | _, _ => none
  | .send _ =>
    match q.pc with
    | .locked => some (s.setPc i q .sent)
    | _ => none
  | .accept _ =>
    match q.pc with
    | .sent => some (s.setPc i q .accepted)
    | _ => none
  | .receive _ response =>
    match q.pc with
    | .accepted =>
      if response.isTopic = q.isTopic ∧ response.primaryKey = q.primary then
        some (s.setPc i q (.received response))
      else none
    | _ => none
  | .emplaceBack _ =>
    match q.pc with
    | .received response => (s.store.emplaceBack q.requestId response).map fun r =>
      { s.setPc i q (.emplaced response r.2.ref) with store := r.1 }
    | _ => none
  | .unlock _ =>
    match q.pc with
    | .emplaced response it => some { s.setPc i q (.unlocked response it) with mTopicsMutex := none }
    | _ => none
  | _ => none

/-- A step of `DataStore::run`. -/
def runStep (s : RequestState) : RequestAction → Option RequestState
  | .runReceive j =>
    match s.run, s.inFlight[j]? with
    | .idle, some m =>
      some { s with run := .received m, inFlight := s.inFlight.eraseIdx j, received := s.received ++ [m] }
    | _, _ => none
  | .runLock =>
    match s.run with
    | .received m =>
      if s.mutex m.update.isTopic = none then
        some { s.setMutex m.update.isTopic (some .run) with run := .locked m }
      else none
    | _ => none
  | .runFind =>
    match s.run with
    | .locked m => (s.store.findUpdated m.update).map fun it => { s with run := .afterFind m it }
    | _ => none
  | .runHandle =>
    match s.run with
    | .found m it => (s.store.update it m.update).map fun store =>
      { s with store := store.queue m.update, run := .handled m,
               handled := s.handled ++ [(m, some ⟨m.update.isTopic, it⟩)] }
    | .notFound m => some { s with run := .handled m, handled := s.handled ++ [(m, none)] }
    | _ => none
  | .runUnlock =>
    match s.run with
    | .handled m => some { s.setMutex m.update.isTopic none with run := .idle }
    | _ => none
  -- the sweep erases an element under the lock of its list
  | .runErase r =>
    match s.run with
    | .idle =>
      if s.mutex r.isTopic = none then
        (s.store.erase r).map fun p => { s with store := p.1, erased := r :: s.erased }
      else none
    | _ => none
  | _ => none

def step (s : RequestState) : RequestAction → Option RequestState
  | .call isTopic primary requestId =>
    some { s with requests := s.requests ++ [⟨isTopic, primary, requestId, .called⟩] }
  | .lock i => s.requests[i]?.bind fun q => s.requesterStep i q (.lock i)
  | .send i => s.requests[i]?.bind fun q => s.requesterStep i q (.send i)
  | .accept i => s.requests[i]?.bind fun q => s.requesterStep i q (.accept i)
  | .receive i response => s.requests[i]?.bind fun q => s.requesterStep i q (.receive i response)
  | .emplaceBack i => s.requests[i]?.bind fun q => s.requesterStep i q (.emplaceBack i)
  | .unlock i => s.requests[i]?.bind fun q => s.requesterStep i q (.unlock i)
  | .serve m => s.requests[m.request]?.bind fun q =>
    if q.pc.subscribed ∧ q.isTopic = m.update.isTopic ∧ q.primary = m.update.primaryKey then
      some { s with inFlight := s.inFlight ++ [m] }
    else none
  | a => s.runStep a

/-! What the store owes the server. -/

/-- The element of the request the update was sent for has been erased. -/
def ErasedSince (s : RequestState) (m : UpdateMessage) : Prop :=
  ∃ q r, s.requests[m.request]? = some q ∧ q.pc.element = some r ∧ r ∈ s.erased

/-- The element at `r` was appended by a request for this member. -/
def ElementFor (s : RequestState) (isTopic : Bool) (primary : PrimaryKey) (r : Ref) : Prop :=
  ∃ (i : Nat) (q : MemberRequest), s.requests[i]? = some q ∧ q.pc.element = some r ∧
    q.isTopic = isTopic ∧ q.primary = primary

/-- The updates that were applied to an element, in order. -/
def updatesOf (s : RequestState) (r : Ref) : List Update :=
  s.handled.filterMap fun p => if p.2 = some r then some p.1.update else none

/-- The object of each element is what the response and the updates applied to it make of it. -/
def Contents (s : RequestState) : Prop :=
  ∀ q ∈ s.requests, ∀ response r, q.pc.response = some response → q.pc.element = some r → r ∉ s.erased →
    s.store.object r = some ((s.updatesOf r).foldl MemberObject.update response.object)

/-- Every update received was applied to an element of its member, unless the element of its request
    was erased. The element is that of its request if the member was requested once. -/
structure NoneLost (s : RequestState) : Prop where
  received : s.received = s.handled.map Prod.fst ++ s.run.atHand.toList
  dropped : ∀ m, (m, none) ∈ s.handled → s.ErasedSince m
  applied : ∀ m r, (m, some r) ∈ s.handled → s.ElementFor m.update.isTopic m.update.primaryKey r
  contents : s.Contents

/-- A node update is not looked up between the acceptance of its request and the append of
    the element. -/
def LooksUpSettled (s : RequestState) : RequestAction → Prop
  | .runFind => ∀ m q, s.run = .locked m → m.update.isTopic = false →
    s.requests[m.request]? = some q → q.pc.element.isSome = true
  | _ => True

/-! The invariant. -/

/-- The server is sending updates for this message's request, and the request is for its member. -/
def Subscribed (s : RequestState) (m : UpdateMessage) : Prop :=
  ∃ q, s.requests[m.request]? = some q ∧ q.pc.subscribed = true ∧
    q.isTopic = m.update.isTopic ∧ q.primary = m.update.primaryKey

/-- The element at `r` is in its list and belongs to the member with this key. -/
def StoredAs (store : DataStore) (r : Ref) (primary : PrimaryKey) : Prop :=
  ∃ e, store.header r = some e ∧ e.mPrimaryKey = primary

structure Served (s : RequestState) : Prop where
  wellFormed : s.store.WellFormed
  holder : ∀ i q, s.requests[i]? = some q → q.pc.holds = true → s.mTopicsMutex = some (.requester i)
  runHolder : ∀ m, s.run.holds = some m → m.update.isTopic = true → s.mTopicsMutex = some .run
  inFlight : ∀ m ∈ s.inFlight, s.Subscribed m
  message : ∀ m, s.run.message = some m → s.Subscribed m
  response : ∀ q ∈ s.requests, ∀ response, q.pc = .received response →
    response.isTopic = q.isTopic ∧ response.primaryKey = q.primary
  element : ∀ q ∈ s.requests, ∀ r, q.pc.element = some r →
    r.isTopic = q.isTopic ∧ (r ∈ s.erased ∨ StoredAs s.store r q.primary)
  stored : ∀ r e, s.store.header r = some e → s.ElementFor r.isTopic e.mPrimaryKey r
  past : ∀ r ∈ s.erased, r.addr < s.store.fresh r.isTopic
  found : ∀ m it, s.run = .found m it → StoredAs s.store ⟨m.update.isTopic, it⟩ m.update.primaryKey
  notFound : ∀ m, s.run = .notFound m → s.ErasedSince m
  noneLost : s.NoneLost

theorem served_new (k k' : PrimaryKey) : (new k k').Served where
  wellFormed := DataStore.wellFormed_new k k'
  holder := by simp [new]
  runHolder := by simp [new, RunPc.holds]
  inFlight := by simp [new]
  message := by simp [new, RunPc.message]
  response := by simp [new]
  element := by simp [new]
  stored := by simp [new]
  past := by simp [new]
  found := by simp [new]
  notFound := by simp [new]
  noneLost := ⟨rfl, by simp [new], by simp [new], by simp [Contents, new]⟩

variable {s t : RequestState} {i : Nat} {q : MemberRequest}

/-- The requests of `s` are those of `t`, at the same step or further on, and no element
    comes back. -/
structure Extends (s t : RequestState) : Prop where
  requests : ∀ (j : Nat) (q : MemberRequest), s.requests[j]? = some q →
    ∃ q' : MemberRequest, t.requests[j]? = some q' ∧
    q'.isTopic = q.isTopic ∧ q'.primary = q.primary ∧
    (q.pc.subscribed = true → q'.pc.subscribed = true) ∧
    ∀ r, q.pc.element = some r → q'.pc.element = some r
  erased : ∀ r ∈ s.erased, r ∈ t.erased

theorem Extends.of_requests (hr : t.requests = s.requests) (he : ∀ r ∈ s.erased, r ∈ t.erased) :
    Extends s t :=
  ⟨fun _ q hj => ⟨q, hr ▸ hj, rfl, rfl, id, fun _ h => h⟩, he⟩

theorem Subscribed.mono {m : UpdateMessage} (h : s.Subscribed m) (he : Extends s t) : t.Subscribed m := by
  obtain ⟨q, hq, hs, hk, hp⟩ := h
  obtain ⟨q', hq', hk', hp', hs', _⟩ := he.requests _ q hq
  exact ⟨q', hq', hs' hs, hk'.trans hk, hp'.trans hp⟩

theorem ErasedSince.mono {m : UpdateMessage} (h : s.ErasedSince m) (he : Extends s t) :
    t.ErasedSince m := by
  obtain ⟨q, r, hq, hr, hm⟩ := h
  obtain ⟨q', hq', _, _, _, hr'⟩ := he.requests _ q hq
  exact ⟨q', r, hq', hr' r hr, he.erased r hm⟩

theorem ElementFor.mono {isTopic : Bool} {primary : PrimaryKey} {r : Ref}
    (h : s.ElementFor isTopic primary r) (he : Extends s t) : t.ElementFor isTopic primary r := by
  obtain ⟨j, q, hq, hr, hk, hp⟩ := h
  obtain ⟨q', hq', hk', hp', _, hr'⟩ := he.requests j q hq
  exact ⟨j, q', hq', hr' r hr, hk'.trans hk, hp'.trans hp⟩

/-- Nothing is received or handled, and the objects are what they should be. -/
theorem NoneLost.mono (h : s.NoneLost) (he : Extends s t) (hreceived : t.received = s.received)
    (hhandled : t.handled = s.handled) (hrun : t.run.atHand = s.run.atHand) (hcontents : t.Contents) :
    t.NoneLost := by
  refine ⟨?_, fun m hm => ?_, fun m r hm => ?_, hcontents⟩
  · rw [hreceived, hhandled, hrun]
    exact h.received
  · exact (h.dropped m (hhandled ▸ hm)).mono he
  · exact (h.applied m r (hhandled ▸ hm)).mono he

/-! Steps of the requesters. -/

theorem getElem?_set_cases {α : Type} {xs : List α} {i j : Nat} {x y : α}
    (h : (xs.set i x)[j]? = some y) : (j = i ∧ y = x) ∨ (j ≠ i ∧ xs[j]? = some y) := by
  by_cases hj : i = j
  · subst hj
    obtain ⟨hlt, hx⟩ := List.getElem?_eq_some_iff.mp h
    left
    exact ⟨rfl, by rw [← hx, List.getElem_set_self]⟩
  · right
    rw [List.getElem?_set_ne hj] at h
    exact ⟨fun h' => hj h'.symm, h⟩

theorem extends_set {pc : RequestPc} {u : RequestState} (hi : s.requests[i]? = some q)
    (hu : u.requests = s.requests.set i { q with pc := pc }) (hue : u.erased = s.erased)
    (hsub : q.pc.subscribed = true → pc.subscribed = true)
    (hel : ∀ r, q.pc.element = some r → pc.element = some r) : Extends s u := by
  refine ⟨fun j q' hj => ?_, fun r hr => hue ▸ hr⟩
  by_cases hji : j = i
  · subst hji
    rw [hi] at hj
    cases hj
    obtain ⟨hlt, _⟩ := List.getElem?_eq_some_iff.mp hi
    exact ⟨{ q with pc := pc }, by rw [hu, List.getElem?_set_self hlt], rfl, rfl, hsub, hel⟩
  · refine ⟨q', ?_, rfl, rfl, id, fun _ h => h⟩
    rw [hu, List.getElem?_set_ne (fun h => hji h.symm), hj]

/-- A requester takes a step and leaves the store as it is, with what the step does to its mutex. -/
theorem Served.setPc {pc : RequestPc} {owner : Option Owner} (h : s.Served)
    (hi : s.requests[i]? = some q)
    (hsub : q.pc.subscribed = true → pc.subscribed = true)
    (hel : pc.element = q.pc.element) (hkept : pc.element = none ∨ pc.response = q.pc.response)
    (hresp : ∀ response, pc = .received response →
      response.isTopic = q.isTopic ∧ response.primaryKey = q.primary)
    (hown : pc.holds = true → owner = some (.requester i))
    (hothers : ∀ o, o ≠ .requester i → s.mTopicsMutex = some o → owner = some o) :
    Served { s.setPc i q pc with mTopicsMutex := owner } := by
  have hext : Extends s { s.setPc i q pc with mTopicsMutex := owner } :=
    extends_set hi rfl rfl hsub (fun r hr => hel.trans hr)
  have hq : q ∈ s.requests := List.mem_of_getElem? hi
  refine ⟨h.wellFormed, ?_, ?_, fun m hm => (h.inFlight m hm).mono hext,
    fun m hm => (h.message m hm).mono hext, ?_, ?_, fun r e he => (h.stored r e he).mono hext, h.past,
    h.found, fun m hr => (h.notFound m hr).mono hext, h.noneLost.mono hext rfl rfl rfl ?_⟩
  · intro j q' hj hh
    rcases getElem?_set_cases hj with ⟨rfl, rfl⟩ | ⟨hne, hj⟩
    · exact hown hh
    · exact hothers _ (fun he => hne (Owner.requester.inj he)) (h.holder j q' hj hh)
  · intro m hm ht
    exact hothers _ (by simp) (h.runHolder m hm ht)
  · intro q' hq'
    rcases List.mem_or_eq_of_mem_set hq' with hq' | rfl
    · exact h.response q' hq'
    · exact hresp
  · intro q' hq' r hr
    rcases List.mem_or_eq_of_mem_set hq' with hq' | rfl
    · exact h.element q' hq' r hr
    · exact h.element q hq r (hel.symm.trans hr)
  · intro q' hq' response r hr hr'
    rcases List.mem_or_eq_of_mem_set hq' with hq' | rfl
    · exact h.noneLost.contents q' hq' response r hr hr'
    · rcases hkept with hnone | hkept
      · cases hnone.symm.trans hr'
      · exact h.noneLost.contents q hq response r (hkept.symm.trans hr) (hel.symm.trans hr')

/-- A requester takes a step inside its lock, before it has an element. -/
theorem Served.setPc_locked {pc : RequestPc} (h : s.Served) (hi : s.requests[i]? = some q)
    (hsub : q.pc.subscribed = true → pc.subscribed = true) (hh : q.pc.holds = true)
    (hel : q.pc.element = none) (hnew : pc.element = none)
    (hresp : ∀ response, pc = .received response →
      response.isTopic = q.isTopic ∧ response.primaryKey = q.primary) : (s.setPc i q pc).Served :=
  h.setPc hi hsub (hnew.trans hel.symm) (Or.inl hnew) hresp (fun _ => h.holder i q hi hh) (fun _ _ ho => ho)

end RequestState

/-! What the operations do to the objects. -/

namespace DataStore

variable {s s' : DataStore} {r : Ref}

theorem object_setNodes {l : DoubleLinkedList Node} {a : Nat} {v : Option (Data Node)}
    (h : l.data = Function.update s.mNodes.data a v) :
    object { s with mNodes := l } = Function.update s.object ⟨false, a⟩ (v.map fun d => .node d.inst) := by
  funext r
  obtain ⟨isTopic, b⟩ := r
  cases isTopic with
  | true => simp [object]
  | false =>
    by_cases hb : b = a
    · subst hb; simp [object, h]
    · simp [object, h, hb]

theorem object_setTopics {l : DoubleLinkedList Topic} {a : Nat} {v : Option (Data Topic)}
    (h : l.data = Function.update s.mTopics.data a v) :
    object { s with mTopics := l } = Function.update s.object ⟨true, a⟩ (v.map fun d => .topic d.inst) := by
  funext r
  obtain ⟨isTopic, b⟩ := r
  cases isTopic with
  | false => simp [object]
  | true =>
    by_cases hb : b = a
    · subst hb; simp [object, h]
    · simp [object, h, hb]

/-- What a request does to the store: a new element, with the object its response makes. -/
structure Appended (s s' : DataStore) (response : MemberResponse) (r : Ref) : Prop where
  kind : r.isTopic = response.isTopic
  place : r.addr = s.fresh r.isTopic
  free : s.header r = none
  header : s'.header = Function.update s.header r (some ⟨response.primaryKey, ⟨1⟩⟩)
  object : s'.object = Function.update s.object r (some response.object)
  fresh : ∀ isTopic, s.fresh isTopic ≤ s'.fresh isTopic
  wellFormed : s'.WellFormed

theorem emplaceBack_spec {requestId : RequestId} {response : MemberResponse} {m : Member}
    (h : s.emplaceBack requestId response = some (s', m)) (hw : s.WellFormed) :
    s.Appended s' response m.ref := by
  cases response with
  | node response =>
    obtain ⟨hfree, hheader, htopic, hw'⟩ := emplaceNode_spec h hw
    have hevolves := emplaceNode_evolves h
    simp only [emplaceBack, emplaceNode, Option.bind_eq_bind, Option.bind_eq_some_iff, Option.pure_def,
      Option.some.injEq, Prod.mk.injEq] at h
    obtain ⟨⟨l, a⟩, hl, rfl, rfl⟩ := h
    obtain ⟨ha, _, _, hdata, _⟩ := DoubleLinkedList.emplaceBack_spec hl
    exact ⟨htopic, ha, hfree, hheader, object_setNodes hdata, hevolves.fresh, hw'⟩
  | topic response =>
    obtain ⟨hfree, hheader, htopic, hw'⟩ := emplaceTopic_spec h hw
    have hevolves := emplaceTopic_evolves h
    simp only [emplaceBack, emplaceTopic, Option.bind_eq_bind, Option.bind_eq_some_iff, Option.pure_def,
      Option.some.injEq, Prod.mk.injEq] at h
    obtain ⟨⟨l, a⟩, hl, rfl, rfl⟩ := h
    obtain ⟨ha, _, _, hdata, _⟩ := DoubleLinkedList.emplaceBack_spec hl
    exact ⟨htopic, ha, hfree, hheader, object_setTopics hdata, hevolves.fresh, hw'⟩

theorem update_object {u : Update} {it : Nat} (h : s.update it u = some s') :
    s'.fresh = s.fresh ∧ ∃ object, s.object ⟨u.isTopic, it⟩ = some object ∧
      s'.object = Function.update s.object ⟨u.isTopic, it⟩ (some (object.update u)) := by
  cases u with
  | node u =>
    obtain ⟨l, hl, rfl⟩ := Option.map_eq_some_iff.mp h
    obtain ⟨⟨d, hd, hdata⟩, _, hfresh, _⟩ := DoubleLinkedList.modify_spec hl
    refine ⟨?_, .node d.inst, by simp [object, Update.isTopic, hd], object_setNodes hdata⟩
    funext isTopic
    simp [fresh, hfresh]
  | topic u =>
    obtain ⟨l, hl, rfl⟩ := Option.map_eq_some_iff.mp h
    obtain ⟨⟨d, hd, hdata⟩, _, hfresh, _⟩ := DoubleLinkedList.modify_spec hl
    refine ⟨?_, .topic d.inst, by simp [object, Update.isTopic, hd], object_setTopics hdata⟩
    funext isTopic
    simp [fresh, hfresh]

theorem queue_object (s : DataStore) (u : Update) :
    (s.queue u).object = s.object ∧ (s.queue u).fresh = s.fresh := by
  cases u with
  | node u => cases u <;> exact ⟨rfl, rfl⟩
  | topic u => cases u <;> exact ⟨rfl, rfl⟩

theorem erase_object {n : Option Nat} (h : s.erase r = some (s', n)) :
    s'.object = Function.update s.object r none := by
  obtain ⟨isTopic, a⟩ := r
  cases isTopic with
  | false =>
    obtain ⟨⟨l, n'⟩, hl, hs⟩ := Option.map_eq_some_iff.mp h
    cases hs
    obtain ⟨_, _, hdata, _⟩ := DoubleLinkedList.erase_spec hl
    exact object_setNodes hdata
  | true =>
    obtain ⟨⟨l, n'⟩, hl, hs⟩ := Option.map_eq_some_iff.mp h
    cases hs
    obtain ⟨_, _, hdata, _⟩ := DoubleLinkedList.erase_spec hl
    exact object_setTopics hdata

/-- An element that is erased was not where the next one goes. -/
theorem lt_fresh_of_erase {n : Option Nat} (h : s.erase r = some (s', n)) (hw : s.WellFormed) :
    r.addr < s.fresh r.isTopic := by
  obtain ⟨isTopic, a⟩ := r
  cases isTopic with
  | false =>
    obtain ⟨⟨l, n'⟩, hl, _⟩ := Option.map_eq_some_iff.mp h
    obtain ⟨xs, hx⟩ := hw.nodes
    obtain ⟨⟨c, hc, _⟩, _⟩ := DoubleLinkedList.erase_spec hl
    refine hx.below a ((hx.live a).mp fun hnone => ?_)
    rw [DoubleLinkedList.links_eq_none.mpr hnone] at hc
    cases hc
  | true =>
    obtain ⟨⟨l, n'⟩, hl, _⟩ := Option.map_eq_some_iff.mp h
    obtain ⟨xs, hx⟩ := hw.topics
    obtain ⟨⟨c, hc, _⟩, _⟩ := DoubleLinkedList.erase_spec hl
    refine hx.below a ((hx.live a).mp fun hnone => ?_)
    rw [DoubleLinkedList.links_eq_none.mpr hnone] at hc
    cases hc

end DataStore

namespace RequestState

variable {s t : RequestState} {i : Nat} {q : MemberRequest}

/-- Nothing has been applied where the next element goes. -/
theorem Served.updatesOf_fresh {r : Ref} (h : s.Served) (hfree : s.store.header r = none)
    (hplace : r.addr = s.store.fresh r.isTopic) : s.updatesOf r = [] := by
  apply List.filterMap_eq_nil_iff.mpr
  intro p hp
  by_cases hr : p.2 = some r
  · obtain ⟨m, target⟩ := p
    cases hr
    obtain ⟨j, q, hq, hel, _⟩ := h.noneLost.applied m r hp
    obtain ⟨_, herased | ⟨e, he, _⟩⟩ := h.element q (List.mem_of_getElem? hq) r hel
    · have hpast := h.past r herased
      omega
    · rw [hfree] at he
      cases he
  · simp [hr]

/-- A requester appends its element. -/
theorem Served.emplaceBack {response : MemberResponse} {store : DataStore} {it : Ref} (h : s.Served)
    (hi : s.requests[i]? = some q) (hpc : q.pc = .received response)
    (happ : s.store.Appended store response it) :
    Served { s.setPc i q (.emplaced response it) with store := store } := by
  obtain ⟨hkind, hkey⟩ := h.response q (List.mem_of_getElem? hi) response hpc
  have hext : Extends s { s.setPc i q (.emplaced response it) with store := store } :=
    extends_set hi rfl rfl (by simp [RequestPc.subscribed]) (by simp [hpc, RequestPc.element])
  have hother : ∀ r, s.store.header r ≠ none → r ≠ it := fun r hr hrit => hr (hrit ▸ happ.free)
  have hkeep : ∀ r e, s.store.header r = some e → store.header r = some e := by
    intro r e he
    rw [happ.header, Function.update_of_ne (hother r (by simp [he])), he]
  have hstored : ∀ r primary, StoredAs s.store r primary → StoredAs store r primary :=
    fun r primary ⟨e, he, hk⟩ => ⟨e, hkeep r e he, hk⟩
  have hnew : StoredAs store it q.primary := ⟨_, by rw [happ.header, Function.update_self], hkey⟩
  refine ⟨happ.wellFormed, ?_, h.runHolder, fun m hm => (h.inFlight m hm).mono hext,
    fun m hm => (h.message m hm).mono hext, ?_, ?_, ?_, fun r hr => (h.past r hr).trans_le (happ.fresh _),
    fun m it hr => hstored _ _ (h.found m it hr), fun m hr => (h.notFound m hr).mono hext,
    h.noneLost.mono hext rfl rfl rfl ?_⟩
  · intro j q' hj hh
    rcases getElem?_set_cases hj with ⟨rfl, rfl⟩ | ⟨_, hj⟩
    · exact h.holder j q hi (by rw [hpc]; rfl)
    · exact h.holder j q' hj hh
  · intro q' hq'
    rcases List.mem_or_eq_of_mem_set hq' with hq' | rfl
    · exact h.response q' hq'
    · simp
  · intro q' hq' r hr
    rcases List.mem_or_eq_of_mem_set hq' with hq' | rfl
    · obtain ⟨ht, he⟩ := h.element q' hq' r hr
      exact ⟨ht, he.imp_right (hstored r _)⟩
    · cases hr
      exact ⟨happ.kind.trans hkind, Or.inr hnew⟩
  · intro r e he
    by_cases hr : r = it
    · subst hr
      rw [happ.header, Function.update_self] at he
      cases he
      obtain ⟨hlt, _⟩ := List.getElem?_eq_some_iff.mp hi
      exact ⟨i, _, List.getElem?_set_self hlt, rfl, (happ.kind.trans hkind).symm, hkey.symm⟩
    · rw [happ.header, Function.update_of_ne hr] at he
      exact (h.stored r e he).mono hext
  -- the objects: the new one is the response's, and the others stay
  · intro q' hq' response' r hr hr' herased
    rcases List.mem_or_eq_of_mem_set hq' with hq' | rfl
    · obtain ⟨_, herased' | ⟨e, he, _⟩⟩ := h.element q' hq' r hr'
      · exact absurd herased' herased
      · show store.object r = _
        rw [happ.object, Function.update_of_ne (hother r (by simp [he]))]
        exact h.noneLost.contents q' hq' response' r hr hr' herased
    · cases hr
      cases hr'
      show store.object it = some ((s.updatesOf it).foldl MemberObject.update response.object)
      rw [happ.object, Function.update_self, h.updatesOf_fresh happ.free happ.place]
      rfl

/-- A requester's step. Only `emplaceBack` changes the store, and only `lock` and `unlock` the owner of
    the mutex. -/
theorem Served.requesterStep (a : RequestAction) (h : s.Served) (hi : s.requests[i]? = some q)
    (hs : s.requesterStep i q a = some t) : t.Served := by
  cases a with
  | lock _ =>
    simp only [RequestState.requesterStep] at hs
    split at hs
    · next hpc hnone =>
      cases hs
      exact h.setPc hi (by simp [hpc, RequestPc.subscribed]) (by simp [hpc, RequestPc.element])
        (Or.inl rfl) (by simp) (fun _ => rfl) (by simp [hnone])
    · cases hs
  | send _ =>
    simp only [RequestState.requesterStep] at hs
    split at hs
    · next hpc =>
      cases hs
      exact h.setPc_locked hi (by simp [hpc, RequestPc.subscribed]) (by simp [hpc, RequestPc.holds])
        (by simp [hpc, RequestPc.element]) rfl (by simp)
    · cases hs
  | accept _ =>
    simp only [RequestState.requesterStep] at hs
    split at hs
    · next hpc =>
      cases hs
      exact h.setPc_locked hi (by simp [RequestPc.subscribed]) (by simp [hpc, RequestPc.holds])
        (by simp [hpc, RequestPc.element]) rfl (by simp)
    · cases hs
  | receive _ response =>
    simp only [RequestState.requesterStep] at hs
    split at hs
    · next hpc =>
      split at hs
      · next hmatch =>
        cases hs
        exact h.setPc_locked hi (by simp [RequestPc.subscribed]) (by simp [hpc, RequestPc.holds])
          (by simp [hpc, RequestPc.element]) rfl (by simpa using hmatch)
      · cases hs
    · cases hs
  | emplaceBack _ =>
    simp only [RequestState.requesterStep] at hs
    split at hs
    · next response hpc =>
      obtain ⟨⟨store, m⟩, he, rfl⟩ := Option.map_eq_some_iff.mp hs
      exact h.emplaceBack hi hpc (DataStore.emplaceBack_spec he h.wellFormed)
    · cases hs
  | unlock _ =>
    simp only [RequestState.requesterStep] at hs
    split at hs
    · next response it hpc =>
      cases hs
      have hheld := h.holder i q hi (by simp [hpc, RequestPc.holds])
      refine h.setPc hi (by simp [RequestPc.subscribed]) (by simp [hpc, RequestPc.element])
        (Or.inr (by simp [hpc, RequestPc.response])) (by simp) (by simp [RequestPc.holds]) ?_
      intro o ho hmo
      rw [hheld] at hmo
      cases hmo
      exact absurd rfl ho
    · cases hs
  | _ => cases hs

/-! Steps of `DataStore::run`. -/

/-- No requester is inside its lock while `mTopicsMutex` is free or held by `DataStore::run`. -/
theorem Served.not_holds (h : s.Served) (hi : s.requests[i]? = some q)
    (hm : s.mTopicsMutex = none ∨ s.mTopicsMutex = some .run) : q.pc.holds = false := by
  cases hh : q.pc.holds with
  | false => rfl
  | true =>
    have howner := h.holder i q hi hh
    rcases hm with hm | hm <;> rw [hm] at howner <;> cases howner

/-- `DataStore::run` takes or releases a lock. -/
theorem Served.setMutex {run : RunPc} {isTopic : Bool} {owner : Option Owner} (h : s.Served)
    (hfree : isTopic = true → s.mTopicsMutex = none ∨ s.mTopicsMutex = some .run)
    (hhand : run.atHand = s.run.atHand)
    (hmsg : ∀ m, run.message = some m → s.Subscribed m)
    (hown : ∀ m, run.holds = some m → m.update.isTopic = true → isTopic = true ∧ owner = some .run)
    (hfound : ∀ m it, run ≠ .found m it) (hnotFound : ∀ m, run ≠ .notFound m) :
    Served { s.setMutex isTopic owner with run := run } := by
  have hnone : NoneLost { s with run := run } :=
    h.noneLost.mono (Extends.of_requests rfl fun _ hr => hr) rfl rfl hhand h.noneLost.contents
  cases isTopic with
  | false =>
    refine ⟨h.wellFormed, h.holder, fun m hm ht => ?_, h.inFlight, hmsg, h.response, h.element, h.stored,
      h.past, fun m it hr => absurd hr (hfound m it), fun m hr => absurd hr (hnotFound m),
      ⟨hnone.received, hnone.dropped, hnone.applied, hnone.contents⟩⟩
    cases (hown m hm ht).1
  | true =>
    refine ⟨h.wellFormed, fun j q hj hh => ?_, fun m hm ht => (hown m hm ht).2, h.inFlight, hmsg,
      h.response, h.element, h.stored, h.past, fun m it hr => absurd hr (hfound m it),
      fun m hr => absurd hr (hnotFound m),
      ⟨hnone.received, hnone.dropped, hnone.applied, hnone.contents⟩⟩
    rw [h.not_holds hj (hfree rfl)] at hh
    cases hh

theorem Served.runLock {m : UpdateMessage} (h : s.Served) (hr : s.run = .received m)
    (hfree : s.mutex m.update.isTopic = none) :
    Served { s.setMutex m.update.isTopic (some .run) with run := .locked m } := by
  refine h.setMutex (fun ht => Or.inl (by simpa [mutex, ht] using hfree)) (by rw [hr]; rfl)
    (fun m' hm' => ?_) (fun m' hm' ht => ?_) (by simp) (by simp)
  · simp only [RunPc.message, Option.some.injEq] at hm'
    exact hm' ▸ h.message m (by simp [hr, RunPc.message])
  · simp only [RunPc.holds, Option.some.injEq] at hm'
    exact ⟨hm' ▸ ht, rfl⟩

/-- The element of a settled request is found, or has been erased. -/
theorem Served.erasedSince_of_notFound {m : UpdateMessage} (h : s.Served) (hm : s.Subscribed m)
    (hset : ∀ q, s.requests[m.request]? = some q → q.pc.subscribed = true → q.pc.element.isSome = true)
    (hfind : s.store.findUpdated m.update = some none) : s.ErasedSince m := by
  obtain ⟨q, hq, hsub, htopic, hprimary⟩ := hm
  obtain ⟨r, hr⟩ := Option.isSome_iff_exists.mp (hset q hq hsub)
  obtain ⟨hrt, herased | ⟨e, he, hk⟩⟩ := h.element q (List.mem_of_getElem? hq) r hr
  · exact ⟨q, r, hq, hr, herased⟩
  · have hnone := (DataStore.findUpdated_spec h.wellFormed hfind).2 rfl r.addr e (by
      rw [← htopic, ← hrt]; exact he)
    exact absurd (hk.trans hprimary) hnone

/-- `DataStore::run` goes on with its message and leaves the store, the requests and the locks as they
    are. -/
theorem Served.setRun {run : RunPc} (h : s.Served) (hhand : run.atHand = s.run.atHand)
    (hmsg : ∀ m, run.message = some m → s.Subscribed m)
    (hholds : ∀ m, run.holds = some m → m.update.isTopic = true → s.mTopicsMutex = some .run)
    (hfound : ∀ m it, run = .found m it → StoredAs s.store ⟨m.update.isTopic, it⟩ m.update.primaryKey)
    (hnotFound : ∀ m, run = .notFound m → s.ErasedSince m) : Served { s with run := run } :=
  ⟨h.wellFormed, h.holder, hholds, h.inFlight, hmsg, h.response, h.element, h.stored, h.past, hfound,
    hnotFound, h.noneLost.mono (Extends.of_requests rfl fun _ hr => hr) rfl rfl hhand h.noneLost.contents⟩

theorem Served.runFind {m : UpdateMessage} (h : s.Served) (hr : s.run = .locked m)
    (hc : s.LooksUpSettled .runFind) {it : Option Nat} (hf : s.store.findUpdated m.update = some it) :
    Served { s with run := .afterFind m it } := by
  have hmsg : s.Subscribed m := h.message m (by rw [hr]; rfl)
  have hholds : m.update.isTopic = true → s.mTopicsMutex = some .run := h.runHolder m (by rw [hr]; rfl)
  apply h.setRun (by rw [hr, RunPc.afterFind_atHand]; rfl)
  · intro m' hm'
    rw [RunPc.afterFind_message] at hm'
    cases hm'
    exact hmsg
  · intro m' hm'
    rw [RunPc.afterFind_holds] at hm'
    cases hm'
    exact hholds
  · intro m' it' hfound
    cases it with
    | none => cases hfound
    | some a =>
      cases hfound
      exact (DataStore.findUpdated_spec h.wellFormed hf).1 _ rfl
  · intro m' hnotFound
    cases it with
    | some a => cases hnotFound
    | none =>
      cases hnotFound
      apply h.erasedSince_of_notFound hmsg _ hf
      intro q hq hsub
      -- a topic's requester is outside the lock `DataStore::run` holds; a node's is settled by `hc`
      cases ht : m.update.isTopic with
      | false => exact hc m q hr ht hq
      | true => exact RequestPc.element_of_subscribed hsub (h.not_holds hq (Or.inr (hholds ht)))

/-- What was applied where, after another message has been handled. -/
theorem updatesOf_handled (m : UpdateMessage) (target : Option Ref) (r : Ref)
    (ht : t.handled = s.handled ++ [(m, target)]) :
    t.updatesOf r = s.updatesOf r ++ if target = some r then [m.update] else [] := by
  unfold updatesOf
  rw [ht, List.filterMap_append]
  by_cases hr : target = some r
  · simp [hr]
  · simp [hr]

/-- The message found is written to its element, and queued for the graph if it has to be. -/
theorem Served.runHandle {m : UpdateMessage} {store : DataStore} {it : Nat} (h : s.Served)
    (hr : s.run = .found m it) (hs : s.store.update it m.update = some store) :
    Served { s with
      store := store.queue m.update, run := .handled m,
      handled := s.handled ++ [(m, some ⟨m.update.isTopic, it⟩)] } := by
  obtain ⟨hu, huw⟩ := DataStore.update_spec hs
  obtain ⟨hq, hqw⟩ := DataStore.queue_spec store m.update
  have hheader : (store.queue m.update).header = s.store.header := hq.trans hu
  obtain ⟨hufresh, object, hobject, huobject⟩ := DataStore.update_object hs
  obtain ⟨hqobject, hqfresh⟩ := DataStore.queue_object store m.update
  obtain ⟨e, he, hk⟩ := h.found m it hr
  refine ⟨hqw (huw h.wellFormed), h.holder, fun m' hm' ht' => ?_, h.inFlight, fun m' hm' => ?_,
    h.response, ?_, ?_, ?_, by simp, by simp, ?_, ?_, ?_, ?_⟩
  · exact h.runHolder m' (by simpa [hr, RunPc.holds] using hm') ht'
  · exact h.message m' (by simpa [hr, RunPc.message] using hm')
  · simpa only [StoredAs, hheader] using h.element
  · intro r e he
    rw [hheader] at he
    exact h.stored r e he
  · intro r hr
    rw [hqfresh, hufresh]
    exact h.past r hr
  · have hreceived := h.noneLost.received
    simp only [hr, RunPc.atHand, Option.toList_some] at hreceived
    simp [hreceived, RunPc.atHand]
  · intro m' hm'
    have hm' : (m', none) ∈ s.handled := by simpa using hm'
    exact h.noneLost.dropped m' hm'
  · intro m' r hm'
    rcases List.mem_append.mp hm' with hm' | hm'
    · exact h.noneLost.applied m' r hm'
    · cases List.mem_singleton.mp hm'
      have hfor := h.stored _ e he
      rw [hk] at hfor
      exact hfor
  -- only the object of the element found changes, by the message
  · intro q hq response r hres hel herased
    have hold := h.noneLost.contents q hq response r hres hel herased
    have hsplit := updatesOf_handled (s := s) (t := { s with
        store := store.queue m.update, run := .handled m,
        handled := s.handled ++ [(m, some ⟨m.update.isTopic, it⟩)] }) m (some ⟨m.update.isTopic, it⟩) r rfl
    rw [hsplit]
    show (store.queue m.update).object r = _
    rw [hqobject, huobject]
    by_cases htarget : r = ⟨m.update.isTopic, it⟩
    · subst htarget
      rw [hobject] at hold
      rw [Function.update_self, if_pos rfl, List.foldl_append, ← Option.some.inj hold]
      rfl
    · rw [Function.update_of_ne htarget, if_neg (fun h => htarget (Option.some.inj h).symm), List.append_nil]
      exact hold

theorem Served.runDrop {m : UpdateMessage} (h : s.Served) (hr : s.run = .notFound m) :
    Served { s with run := .handled m, handled := s.handled ++ [(m, none)] } := by
  refine ⟨h.wellFormed, h.holder, fun m' hm' ht' => ?_, h.inFlight, fun m' hm' => ?_, h.response,
    h.element, h.stored, h.past, by simp, by simp, ?_, ?_, ?_, ?_⟩
  · exact h.runHolder m' (by simpa [hr, RunPc.holds] using hm') ht'
  · exact h.message m' (by simpa [hr, RunPc.message] using hm')
  · have hreceived := h.noneLost.received
    simp only [hr, RunPc.atHand, Option.toList_some] at hreceived
    simp [hreceived, RunPc.atHand]
  · intro m' hm'
    rcases List.mem_append.mp hm' with hm' | hm'
    · exact h.noneLost.dropped m' hm'
    · cases List.mem_singleton.mp hm'
      exact h.notFound m hr
  · intro m' r hm'
    have hm' : (m', some r) ∈ s.handled := by simpa using hm'
    exact h.noneLost.applied m' r hm'
  · intro q hq response r hres hel herased
    have hsplit := updatesOf_handled (s := s)
      (t := { s with run := .handled m, handled := s.handled ++ [(m, none)] }) m none r rfl
    rw [hsplit, if_neg (by simp), List.append_nil]
    exact h.noneLost.contents q hq response r hres hel herased

theorem Served.runUnlock {m : UpdateMessage} (h : s.Served) (hr : s.run = .handled m) :
    Served { s.setMutex m.update.isTopic none with run := .idle } :=
  h.setMutex (fun ht => Or.inr (h.runHolder m (by simp [hr, RunPc.holds]) ht)) (by rw [hr]; rfl)
    (by simp [RunPc.message]) (by simp [RunPc.holds]) (by simp) (by simp)

theorem Served.runErase {r : Ref} {store : DataStore} {n : Option Nat} (h : s.Served)
    (hr : s.run = .idle) (he : s.store.erase r = some (store, n)) :
    Served { s with store := store, erased := r :: s.erased } := by
  obtain ⟨hheader, hw⟩ := DataStore.erase_spec he
  have hobject := DataStore.erase_object he
  have hfresh := (DataStore.erase_evolves he).fresh
  have hext : Extends s { s with store := store, erased := r :: s.erased } :=
    Extends.of_requests rfl (fun _ hr => List.mem_cons_of_mem r hr)
  refine ⟨hw h.wellFormed, h.holder, h.runHolder, h.inFlight, h.message, h.response,
    fun q hq r' hr' => ?_, fun r' e he' => ?_, fun r' hr' => ?_, by simp [hr], by simp [hr],
    h.noneLost.mono hext rfl rfl rfl ?_⟩
  · obtain ⟨ht, herased | ⟨e, he', hk⟩⟩ := h.element q hq r' hr'
    · exact ⟨ht, Or.inl (List.mem_cons_of_mem r herased)⟩
    · by_cases hrr : r' = r
      · exact ⟨ht, Or.inl (by rw [hrr]; exact List.mem_cons_self)⟩
      · exact ⟨ht, Or.inr ⟨e, by rw [hheader, Function.update_of_ne hrr, he'], hk⟩⟩
  · by_cases hrr : r' = r
    · rw [hheader, hrr, Function.update_self] at he'
      cases he'
    · rw [hheader, Function.update_of_ne hrr] at he'
      exact h.stored r' e he'
  · rcases List.mem_cons.mp hr' with rfl | hr'
    · exact (DataStore.lt_fresh_of_erase he h.wellFormed).trans_le (hfresh _)
    · exact (h.past r' hr').trans_le (hfresh _)
  · intro q hq response r' hres hel herased
    obtain ⟨hrr, herased⟩ := not_or.mp (List.mem_cons.not.mp herased)
    show store.object r' = _
    rw [hobject, Function.update_of_ne hrr]
    exact h.noneLost.contents q hq response r' hres hel herased

/-- A message in flight is received; any of them may be the next. -/
theorem Served.runReceive {m : UpdateMessage} {j : Nat} (h : s.Served) (hr : s.run = .idle)
    (hj : s.inFlight[j]? = some m) :
    Served { s with
      run := .received m, inFlight := s.inFlight.eraseIdx j, received := s.received ++ [m] } := by
  refine ⟨h.wellFormed, h.holder, by simp [RunPc.holds], fun m' hm' => h.inFlight m' (List.eraseIdx_subset hm'),
    fun m' hm' => ?_, h.response, h.element, h.stored, h.past, by simp, by simp, ?_, h.noneLost.dropped,
    h.noneLost.applied, h.noneLost.contents⟩
  · cases hm'
    exact h.inFlight m (List.mem_of_getElem? hj)
  · have hreceived := h.noneLost.received
    simp only [hr, RunPc.atHand, Option.toList_none, List.append_nil] at hreceived
    simp [hreceived, RunPc.atHand]

theorem Served.runStep (a : RequestAction) (h : s.Served) (hc : s.LooksUpSettled a)
    (hs : s.runStep a = some t) : t.Served := by
  cases a with
  | runReceive j =>
    simp only [RequestState.runStep] at hs
    split at hs
    · next m hr hj =>
      cases hs
      exact h.runReceive hr hj
    · cases hs
  | runLock =>
    simp only [RequestState.runStep] at hs
    split at hs
    · next m hr =>
      split at hs
      · next hfree =>
        cases hs
        exact h.runLock hr hfree
      · cases hs
    · cases hs
  | runFind =>
    simp only [RequestState.runStep] at hs
    split at hs
    · next m hr =>
      obtain ⟨it, hf, rfl⟩ := Option.map_eq_some_iff.mp hs
      exact h.runFind hr hc hf
    · cases hs
  | runHandle =>
    simp only [RequestState.runStep] at hs
    split at hs
    · next m it hr =>
      obtain ⟨store, hu, rfl⟩ := Option.map_eq_some_iff.mp hs
      exact h.runHandle hr hu
    · next m hr =>
      cases hs
      exact h.runDrop hr
    · cases hs
  | runUnlock =>
    simp only [RequestState.runStep] at hs
    split at hs
    · next m hr =>
      cases hs
      exact h.runUnlock hr
    · cases hs
  | runErase r =>
    simp only [RequestState.runStep] at hs
    split at hs
    · next hr =>
      split at hs
      · obtain ⟨⟨store, n⟩, he, rfl⟩ := Option.map_eq_some_iff.mp hs
        exact h.runErase hr he
      · cases hs
    · cases hs
  | _ => cases hs

/-- Another thread calls `requestNode` or `requestTopic`. -/
theorem Served.call (h : s.Served) (isTopic : Bool) (primary : PrimaryKey) (requestId : RequestId) :
    Served { s with requests := s.requests ++ [⟨isTopic, primary, requestId, .called⟩] } := by
  have hext : Extends s { s with requests := s.requests ++ [⟨isTopic, primary, requestId, .called⟩] } :=
    ⟨fun j q hj => ⟨q, by
      rw [List.getElem?_append_left (List.getElem?_eq_some_iff.mp hj).1, hj], rfl, rfl, id,
        fun _ h => h⟩, fun _ h => h⟩
  refine ⟨h.wellFormed, ?_, h.runHolder, fun m hm => (h.inFlight m hm).mono hext,
    fun m hm => (h.message m hm).mono hext, ?_, ?_, fun r e he => (h.stored r e he).mono hext, h.past,
    h.found, fun m hm => (h.notFound m hm).mono hext, h.noneLost.mono hext rfl rfl rfl ?_⟩
  · intro j q hj hh
    by_cases hlt : j < s.requests.length
    · rw [List.getElem?_append_left hlt] at hj
      exact h.holder j q hj hh
    · rw [List.getElem?_append_right (Nat.le_of_not_lt hlt)] at hj
      rw [List.mem_singleton.mp (List.mem_of_getElem? hj)] at hh
      cases hh
  · intro q hq
    rcases List.mem_append.mp hq with hq | hq
    · exact h.response q hq
    · rw [List.mem_singleton.mp hq]; simp
  · intro q hq
    rcases List.mem_append.mp hq with hq | hq
    · exact h.element q hq
    · rw [List.mem_singleton.mp hq]; simp [RequestPc.element]
  · intro q hq response r hres hel
    rcases List.mem_append.mp hq with hq | hq
    · exact h.noneLost.contents q hq response r hres hel
    · rw [List.mem_singleton.mp hq] at hel
      cases hel

theorem step_served (s : RequestState) (a : RequestAction) (t : RequestState) (h : s.Served)
    (hc : s.LooksUpSettled a) (hs : s.step a = some t) : t.Served := by
  have hreq : ∀ i a, (s.requests[i]?.bind fun q => s.requesterStep i q a) = some t → t.Served := by
    intro i a hs
    obtain ⟨q, hi, hs⟩ := Option.bind_eq_some_iff.mp hs
    exact h.requesterStep a hi hs
  cases a with
  | call isTopic primary requestId =>
    cases hs
    exact h.call isTopic primary requestId
  | lock i => exact hreq i _ hs
  | send i => exact hreq i _ hs
  | accept i => exact hreq i _ hs
  | receive i response => exact hreq i _ hs
  | emplaceBack i => exact hreq i _ hs
  | unlock i => exact hreq i _ hs
  | serve m =>
    obtain ⟨q, hq, hs⟩ := Option.bind_eq_some_iff.mp hs
    split at hs
    · next hok =>
      cases hs
      refine ⟨h.wellFormed, h.holder, h.runHolder, fun m' hm' => ?_, h.message, h.response, h.element,
        h.stored, h.past, h.found, h.notFound,
        ⟨h.noneLost.received, h.noneLost.dropped, h.noneLost.applied, h.noneLost.contents⟩⟩
      rcases List.mem_append.mp hm' with hm' | hm'
      · exact h.inFlight m' hm'
      · rw [List.mem_singleton.mp hm']
        exact ⟨q, hq, hok⟩
    · cases hs
  | runReceive j => exact h.runStep _ hc hs
  | runLock => exact h.runStep _ hc hs
  | runFind => exact h.runStep _ hc hs
  | runHandle => exact h.runStep _ hc hs
  | runUnlock => exact h.runStep _ hc hs
  | runErase r => exact h.runStep _ hc hs

end RequestState

/-- In every run in which no node update is looked up while its request is between acceptance and
    append, every update received is applied to its member unless the element was erased. For
    topic updates nothing is asked: their lock keeps them out. -/
theorem updates_noneLost_of_looksUpSettled (k k' : PrimaryKey) (acts : List RequestAction)
    (t : RequestState) (along : Along RequestState.step RequestState.LooksUpSettled (.new k k') acts)
    (reached : run RequestState.step (.new k k') acts = some t) : t.NoneLost :=
  (run_invariant RequestState.step_served acts _ t (RequestState.served_new k k') along
    reached).noneLost

def publishesUpdate : UpdateMessage := ⟨0, .node (.publishersTo "a" "t")⟩

def answerA : MemberResponse := .node ⟨"a", "/a", "", .ACTIVE, 0, 0, 0⟩

/-- The update arrives during the request and is looked up after it. -/
def updateAfterRequest : List RequestAction :=
  [.call false "a" 1, .lock 0, .send 0, .accept 0, .serve publishesUpdate, .runReceive 0,
    .receive 0 answerA, .emplaceBack 0, .runLock, .runFind, .runHandle, .runUnlock, .unlock 0]

theorem updates_noneLost_updateAfterRequest : ∃ t,
    run RequestState.step (.new "p" "r") updateAfterRequest = some t ∧ t.NoneLost :=
  ⟨_, rfl, updates_noneLost_of_looksUpSettled "p" "r" updateAfterRequest _
    (.cons trivial rfl (.cons trivial rfl (.cons trivial rfl (.cons trivial rfl (.cons trivial rfl
      (.cons trivial rfl (.cons trivial rfl (.cons trivial rfl (.cons trivial rfl
        (.cons (fun m q hm _ hq => by cases hm; cases hq; rfl) rfl (.cons trivial rfl
          (.cons trivial rfl (.cons trivial rfl trivial))))))))))))) rfl⟩

/-- The same steps in another order: the update is looked up before the element is appended. -/
def updateDuringRequest : List RequestAction :=
  [.call false "a" 1, .lock 0, .send 0, .accept 0, .serve publishesUpdate, .runReceive 0, .runLock,
    .runFind, .runHandle, .runUnlock, .receive 0 answerA, .emplaceBack 0, .unlock 0]

theorem updates_lost_updateDuringRequest : ∃ t,
    run RequestState.step (.new "p" "r") updateDuringRequest = some t ∧ ¬ t.NoneLost := by
  refine ⟨_, rfl, fun h => ?_⟩
  obtain ⟨q, r, _, _, herased⟩ := h.dropped publishesUpdate List.mem_cons_self
  cases herased

end StreamFdl
