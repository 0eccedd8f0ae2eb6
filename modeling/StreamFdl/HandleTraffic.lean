import StreamFdl.AbortRace
import StreamFdl.Handles
import StreamFdl.MessageFolds

/- Every handle of the program. The watchlist, the snapshot of a round of fault
   detection, its windows, the alert it works on, the emitted alerts, those the
   builder has taken and the vertices of the subgraph all hold handles, and pass
   them on by copies, moves and destructions; `DataStore::run` sweeps the elements
   whose counter stands at zero. A step here is one operation of one thread on
   one of these containers, and of a container only what its handles need is kept.

   The counters are right along every run without a lookup that finds its member
   stored. In the program such lookups do not come up: `addMember` passes its
   search only for a member that is on the list, and then fails its assertion,
   and `tryInitialise` drops a name once it is resolved. So with distinct names
   in the configuration no container ever holds a dangling handle.

   The windows have no mutex. The builder may clear them (`mFD.reset`) while fault
   detection stands at one of them in its loop; fault detection then goes on with a
   destroyed iterator and a destroyed handle, and nothing is said of such a run
   (`window_lost`). `Spares` leaves these runs out, and in all others the iterator
   leads to a window whenever fault detection stands at one. -/
namespace StreamFdl
open Runs UseCount OrderedMap

namespace MemberPtr

/-- Copies of all handles of a container. -/
def copyAll : List MemberPtr → DataStore → Option (List MemberPtr × DataStore)
  | [], store => some ([], store)
  | p :: ps, store => do
    let (q, store) ← p.copyConstruct DataStore.access store
    let (qs, store) ← copyAll ps store
    pure (q :: qs, store)

/-- The handles of a container that is cleared, or goes out of scope. -/
def destroyAll : List MemberPtr → DataStore → Option DataStore
  | [], store => some store
  | p :: ps, store => (p.destroy DataStore.access store).bind (destroyAll ps)

end MemberPtr

/-- Where fault detection stands. -/
inductive DetectionPhase where
  | idle
  /-- The loop of `tryInitialise`: the names that stay, and those left to try. -/
  | trying (kept left : List String)
  /-- The search request for the name was answered with a key. -/
  | requesting (name : String) (kept left : List String)
  /-- `requestNode` has appended the node. -/
  | stored (node : Member) (kept left : List String)
  /-- `getNodeByName` returns. -/
  | returning (node : Member) (kept left : List String)
  /-- The loop over the snapshot. -/
  | updating (i : Nat)
  /-- The loop over the windows. -/
  | checking (it : Option MemberPtr)
  /-- `detectFaults` has returned; `alert` is the member of the alert. -/
  | alerting (it alert : MemberPtr)
  | notifying (it alert : MemberPtr)
  | erasing (it alert : MemberPtr)
  /-- The end of an iteration, and where the next one stands. -/
  | leaving (it : Option MemberPtr) (alert : MemberPtr)

/-- Where the builder stands: before `getEmittedAlerts`, in `expandSubgraph`, or in what follows it. -/
inductive ExpansionPhase where
  | idle
  | expanding (i : Nat)
  | deciding
  | resetDetection
  | resetGraph
  | lastAlerts
  | ending
  deriving DecidableEq

/-- What a step of fault detection meets. -/
structure DetectionInput where
  primaryKey : PrimaryKey
  response : NodeResponse
  requestId : RequestId
  attr : Attribute
  window : AttributeWindow
  full : Bool
  fault : Bool

structure Traffic where
  store : DataStore
  mWatchlist : Watchlist
  detection : DetectionPhase
  currentWatchlistMembers : List MemberPtr
  mMovingWindow : MemberWindow
  /-- The members of the alerts. -/
  mAlerts : List MemberPtr
  builder : ExpansionPhase
  emittedAlerts : List MemberPtr
  mSAG : Graph
  sweep : Sweep

inductive TrafficAction where
  | detection (input : DetectionInput)
  /-- The next step of the builder; `abort` is what `checkAbortCirteria` returns. -/
  | builder (abort : Bool)
  | addMember (view : StoreView) (member : MemberProxy) (type : WatchlistMemberType)
  | message (u : Update)
  | sweepBegin
  | sweepStep

namespace Traffic

def new (parameterEventsKey rosoutKey : PrimaryKey) (names : List String) : Traffic :=
  ⟨.new parameterEventsKey rosoutKey, .new names, .idle, [], .empty, [], .idle, [], .new, .idle⟩

/-- `getNodeByName`, up to its search request. -/
def lookup (s : Traffic) (input : DetectionInput) (name : String) (kept left : List String) : Option Traffic :=
  (s.store.find (.getNodeByName name)).map fun
    | some m => { s with detection := .returning m kept left }
    | none =>
      if input.primaryKey.isEmpty then { s with detection := .trying (kept ++ [name]) left }
      else { s with detection := .requesting name kept left }

/-- `mMembers.emplace(std::move(node), TYPE_INITIAL)` -/
def initialise (s : Traffic) (node : Member) (kept left : List String) : Option Traffic :=
  let r := s.mWatchlist.mMembers.emplace (.make node) .TYPE_INITIAL
  if r.2 then
    some { s with mWatchlist := { s.mWatchlist with mMembers := r.1 }, detection := .trying kept left }
  else ((MemberPtr.make node).destroy DataStore.access s.store).map fun store =>
    { s with store := store, detection := .trying kept left }

/-- The end of `getMembers`. -/
def snapshot (s : Traffic) (kept : List String) : Option Traffic :=
  (MemberPtr.copyAll (s.mWatchlist.mMembers.entries.map Prod.fst) s.store).map fun r =>
    { s with
      store := r.2
      mWatchlist := { s.mWatchlist with mInitialMemberNames := kept }
      currentWatchlistMembers := r.1
      detection := .updating 0 }

/-- An iteration of the first loop: the handle goes to a new window, or stays. -/
def updateWindow (s : Traffic) (input : DetectionInput) (i : Nat) (member : MemberPtr) : Traffic :=
  if (s.mMovingWindow.find? member).isSome then { s with detection := .updating (i + 1) }
  else { s with
    currentWatchlistMembers := s.currentWatchlistMembers.set i member.moveConstruct.2
    mMovingWindow := (s.mMovingWindow.emplace member.moveConstruct.1 input.window).1
    detection := .updating (i + 1) }

/-- `detectFaults`: its parameter is a copy of the window's handle, and is assigned to the alert. -/
def detectFaults (s : Traffic) (it : MemberPtr) (memberPtr : MemberPtr) : Option Traffic := do
  let (member, store) ← memberPtr.copyConstruct DataStore.access s.store
  let (alert, store) ← MemberPtr.null.copyAssign DataStore.access member store
  let store ← member.destroy DataStore.access store
  pure { s with store := store, detection := .alerting it alert }

/-- `notifyUsed`; a member that was used is erased from the list. -/
def notifyUsed (s : Traffic) (it alert : MemberPtr) (member : PrimaryKey) : Option Traffic :=
  match s.mWatchlist.get member with
  | some (p, .TYPE_BLINDSPOT) => (p.destroy DataStore.access s.store).map fun store =>
    { s with
      store := store, mWatchlist := (s.mWatchlist.notifyUsed member).1, detection := .erasing it alert }
  | _ => some { s with detection := .leaving (s.mMovingWindow.next it) alert }

def detectionStep (s : Traffic) (input : DetectionInput) : Option Traffic :=
  match s.detection with
  | .idle => some { s with detection := .trying [] s.mWatchlist.mInitialMemberNames }
  | .trying kept [] => s.snapshot kept
  | .trying kept (name :: left) => s.lookup input name kept left
  | .requesting _ kept left => (s.store.emplaceNode input.response input.requestId).map fun r =>
    { s with store := r.1, detection := .stored r.2 kept left }
  | .stored node kept left => (s.store.addAttributeSource node.ref input.attr).map fun store =>
    { s with store := store, detection := .returning node kept left }
  | .returning node kept left => s.initialise node kept left
  | .updating i =>
    match s.currentWatchlistMembers[i]? with
    | some member => some (s.updateWindow input i member)
    | none => some { s with detection := .checking (s.mMovingWindow.entries.head?.map Prod.fst) }
  | .checking none => (MemberPtr.destroyAll s.currentWatchlistMembers s.store).map fun store =>
    { s with store := store, currentWatchlistMembers := [], detection := .idle }
  | .checking (some it) => do
    let e ← s.mMovingWindow.at? it
    if input.full then s.detectFaults it e.1
    else pure { s with detection := .checking (s.mMovingWindow.next it) }
  | .alerting it alert =>
    if input.fault then
      some { s with
        mAlerts := s.mAlerts ++ [alert.moveConstruct.1]
        detection := .notifying it alert.moveConstruct.2 }
    else some { s with detection := .notifying it alert }
  | .notifying it alert => do
    let e ← s.mMovingWindow.at? it
    let m ← e.1.mpMember
    s.notifyUsed it alert m.mPrimaryKey
  | .erasing it alert => do
    let e ← s.mMovingWindow.at? it
    let store ← e.1.destroy DataStore.access s.store
    pure { s with
      store := store
      mMovingWindow := s.mMovingWindow.eraseFirst fun e' => decide (e'.1 = e.1)
      detection := .leaving (s.mMovingWindow.next it) alert }
  | .leaving it alert => (alert.destroy DataStore.access s.store).map fun store =>
    { s with store := store, detection := .checking it }

/-- `mFD.getEmittedAlerts`: the alerts are copied, and then cleared. -/
def takeAlerts (s : Traffic) (next : ExpansionPhase) : Option Traffic := do
  let (output, store) ← MemberPtr.copyAll s.mAlerts s.store
  let store ← MemberPtr.destroyAll s.mAlerts store
  pure { s with
    store := store, mAlerts := [], emittedAlerts := s.emittedAlerts ++ output, builder := next }

/-- `mSAG.add`: a new vertex is a copy. -/
def addVertex (s : Traffic) (i : Nat) (member : MemberPtr) : Option Traffic :=
  if (s.mSAG.add member).2 then (member.copyConstruct DataStore.access s.store).map fun r =>
    { s with store := r.2, mSAG := ⟨s.mSAG.mVertices ++ [r.1]⟩, builder := .expanding (i + 1) }
  else some { s with builder := .expanding (i + 1) }

def builderStep (s : Traffic) (abort : Bool) : Option Traffic :=
  match s.builder with
  | .idle => s.takeAlerts (.expanding 0)
  | .expanding i =>
    match s.emittedAlerts[i]? with
    | some member => s.addVertex i member
    | none => some { s with builder := .deciding }
  | .deciding =>
    if abort then (MemberPtr.destroyAll (s.mWatchlist.mMembers.entries.map Prod.fst) s.store).map fun store =>
      { s with store := store, mWatchlist := s.mWatchlist.reset, builder := .resetDetection }
    else some { s with builder := .ending }
  | .resetDetection =>
    (MemberPtr.destroyAll (s.mMovingWindow.entries.map Prod.fst) s.store).map fun store =>
      { s with store := store, mMovingWindow := .empty, builder := .resetGraph }
  | .resetGraph => (MemberPtr.destroyAll s.mSAG.mVertices s.store).map fun store =>
    { s with store := store, mSAG := s.mSAG.reset, builder := .lastAlerts }
  -- the last alerts are moved to the end of the others
  | .lastAlerts => s.takeAlerts .ending
  | .ending => (MemberPtr.destroyAll s.emittedAlerts s.store).map fun store =>
    { s with store := store, emittedAlerts := [], builder := .idle }

/-- A step of the sweep, as in `HandleState`. -/
def sweepStep (s : Traffic) : Option Traffic :=
  (HandleState.sweepStep ⟨s.store, [], [], s.sweep⟩).map fun h => { s with store := h.store, sweep := h.sweep }

def step (s : Traffic) : TrafficAction → Option Traffic
  | .detection input => s.detectionStep input
  | .builder abort => s.builderStep abort
  | .addMember view member type => (s.mWatchlist.addMember view member type).map fun w => { s with mWatchlist := w }
  | .message u => (s.store.handle u).map fun store => { s with store := store }
  | .sweepBegin =>
    if s.sweep = .idle then some { s with sweep := .test false (s.store.begin false) } else none
  | .sweepStep => s.sweepStep

end Traffic

/-! What the operations leave as it is. -/

theorem Node.update_mName (node : Node) (u : NodeUpdate) : (node.update u).mName = node.mName := by
  cases u with
  | state _ _ _ => simp only [Node.update]; split <;> rfl
  | _ => rfl

namespace DataStore

theorem queue_mNodes (s : DataStore) (u : Update) : (s.queue u).mNodes = s.mNodes := by
  cases u with
  | node u => cases u <;> rfl
  | topic u => cases u <;> rfl

/-- An erasure adds no node. -/
theorem data_of_erase {s s' : DataStore} {r : Ref} {n : Option Nat} (h : s.erase r = some (s', n)) {a : Nat}
    {d : Data Node} (hd : s'.mNodes.data a = some d) : s.mNodes.data a = some d := by
  obtain ⟨isTopic, b⟩ := r
  cases isTopic with
  | true =>
    obtain ⟨_, _, hs⟩ := Option.map_eq_some_iff.mp h
    cases hs
    exact hd
  | false =>
    obtain ⟨⟨l, _⟩, hl, hs⟩ := Option.map_eq_some_iff.mp h
    cases hs
    obtain ⟨_, _, hdata, _⟩ := DoubleLinkedList.erase_spec hl
    change l.data a = some d at hd
    rw [hdata] at hd
    by_cases ha : a = b
    · subst ha
      rw [Function.update_self] at hd
      cases hd
    · rwa [Function.update_of_ne ha] at hd

end DataStore

/-! Handles and counters. -/

/-- A valid handle counts with the element of its member. -/
def MemberPtr.CountsMember (p : MemberPtr) : Prop := ∀ m, p.mpMember = some m → p.mpUseCounter = some m.ref

/-- What handles refer to. -/
def refs (ps : List MemberPtr) : List Ref := ps.filterMap MemberPtr.target

@[simp] theorem refs_nil : refs [] = [] := rfl

theorem refs_append (ps qs : List MemberPtr) : refs (ps ++ qs) = refs ps ++ refs qs := List.filterMap_append

theorem refs_cons (p : MemberPtr) (ps : List MemberPtr) : refs (p :: ps) = refs [p] ++ refs ps :=
  refs_append [p] ps

/-- What work on the counters leaves of the store: an element that nothing counts stays one, and the
    nodes keep their names. -/
structure Touched (s t : DataStore) : Prop where
  wellFormed : s.WellFormed → t.WellFormed
  zero : ∀ r, s.counter r = some ⟨0⟩ → t.counter r = some ⟨0⟩
  named : ∀ a d, t.mNodes.data a = some d → ∃ d', s.mNodes.data a = some d' ∧ d'.inst.mName = d.inst.mName

namespace Touched

variable {s t u : DataStore}

theorem refl (s : DataStore) : Touched s s := ⟨id, fun _ h => h, fun _ d h => ⟨d, h, rfl⟩⟩

theorem trans (h : Touched s t) (h' : Touched t u) : Touched s u := by
  refine ⟨fun hw => h'.wellFormed (h.wellFormed hw), fun r hr => h'.zero r (h.zero r hr), fun a d hd => ?_⟩
  obtain ⟨d', hd', hname⟩ := h'.named a d hd
  obtain ⟨d'', hd'', hname'⟩ := h.named a d' hd'
  exact ⟨d'', hd'', hname'.trans hname⟩

/-- A write to an element that keeps the name of a node. -/
theorem modify_named {l l' : DoubleLinkedList Node} {b : Nat} {f : Data Node → Data Node}
    (hf : ∀ d, (f d).inst.mName = d.inst.mName) (h : l.modify b f = some l') (a : Nat) (d : Data Node)
    (hd : l'.data a = some d) : ∃ d', l.data a = some d' ∧ d'.inst.mName = d.inst.mName := by
  obtain ⟨⟨d₀, hd₀, hdata⟩, _⟩ := DoubleLinkedList.modify_spec h
  rw [hdata] at hd
  by_cases ha : a = b
  · subst ha
    rw [Function.update_self] at hd
    cases hd
    exact ⟨d₀, hd₀, (hf d₀).symm⟩
  · rw [Function.update_of_ne ha] at hd
    exact ⟨d, hd, rfl⟩

/-- A counter that is not zero changes. -/
theorem access {r : Ref} {f : AtomicCounter → AtomicCounter} (h : s.access r f = some t)
    (hr : s.counter r ≠ some ⟨0⟩) : Touched s t := by
  obtain ⟨⟨c, hc, hcounter⟩, hw⟩ := DataStore.access_spec h
  refine ⟨hw, HandleState.zero_kept hr hcounter, fun a d hd => ?_⟩
  obtain ⟨isTopic, b⟩ := r
  cases isTopic with
  | true =>
    obtain ⟨l, _, rfl⟩ := Option.map_eq_some_iff.mp h
    exact ⟨d, hd, rfl⟩
  | false =>
    obtain ⟨l, hl, rfl⟩ := Option.map_eq_some_iff.mp h
    exact modify_named (f := fun d => { d with useCounter := f d.useCounter }) (fun _ => rfl) hl a d hd

/-- No counter changes. -/
theorem frame {owners : List Ref} (h : t.header = s.header ∧ (s.WellFormed → t.WellFormed))
    (hnamed : ∀ a d, t.mNodes.data a = some d → ∃ d', s.mNodes.data a = some d' ∧ d'.inst.mName = d.inst.mName)
    (hb : Balanced s.useCount owners) : Balanced t.useCount owners ∧ Touched s t := by
  have hcounter : t.counter = s.counter := by
    funext r
    rw [DataStore.counter, h.1, DataStore.counter]
  refine ⟨?_, h.2, fun r hr => by rw [hcounter, hr], hnamed⟩
  have hcount : t.useCount = s.useCount := by
    funext r
    rw [DataStore.useCount, hcounter, DataStore.useCount]
  rw [hcount]
  exact hb

end Touched

/-- To a null handle, an assignment is a construction. -/
theorem MemberPtr.null_copyAssign (p : MemberPtr) (s : DataStore) :
    MemberPtr.null.copyAssign DataStore.access p s = p.copyConstruct DataStore.access s := by
  cases hm : p.mpMember <;> simp [copyAssign, copyConstruct, hm, null]

section
variable {s t : DataStore} {owners : List Ref} {p q : MemberPtr}

theorem counter_of_owned (h : Balanced s.useCount owners) {r : Ref} (hr : r ∈ owners) :
    ∃ n, s.counter r = some ⟨n + 1⟩ := by
  obtain ⟨n, hn⟩ := h.alive hr
  obtain ⟨c, hc, hcn⟩ := Option.map_eq_some_iff.mp hn
  exact ⟨n, by rw [hc, ← hcn]⟩

/-- One more handle to something that is owned. -/
theorem increased (h : Balanced s.useCount owners) {r : Ref} (hr : r ∈ owners)
    (hs : s.access r AtomicCounter.increase = some t) : Balanced t.useCount (r :: owners) ∧ Touched s t := by
  obtain ⟨n, hn⟩ := counter_of_owned h hr
  obtain ⟨⟨c, hc, hcounter⟩, _⟩ := DataStore.access_spec hs
  rw [hn] at hc
  cases hc
  refine ⟨?_, .access hs (by rw [hn]; simp)⟩
  rw [DataStore.useCount_update hcounter]
  exact h.dup (n := n + 1) (by rw [DataStore.useCount, hn]; rfl)

/-- One handle fewer. -/
theorem decreased {r : Ref} (h : Balanced s.useCount (r :: owners))
    (hs : s.access r AtomicCounter.decrease = some t) : Balanced t.useCount owners ∧ Touched s t := by
  obtain ⟨n, hn⟩ := counter_of_owned h List.mem_cons_self
  obtain ⟨⟨c, hc, hcounter⟩, _⟩ := DataStore.access_spec hs
  rw [hn] at hc
  cases hc
  refine ⟨?_, .access hs (by rw [hn]; simp)⟩
  rw [DataStore.useCount_update hcounter, Option.map_some, AtomicCounter.decrease_mValue]
  exact h.drop (n := n + 1) (by rw [DataStore.useCount, hn]; rfl)

/-- A copy, and what it does to the counters. -/
theorem copied (h : Balanced s.useCount owners) (hlink : p.CountsMember) (hown : ∀ r ∈ refs [p], r ∈ owners)
    (hs : p.copyConstruct DataStore.access s = some (q, t)) :
    q.target = p.target ∧ q.CountsMember ∧ Balanced t.useCount (refs [q] ++ owners) ∧ Touched s t := by
  cases hm : p.mpMember with
  | none =>
    simp only [MemberPtr.copyConstruct, hm, Option.some.injEq, Prod.mk.injEq] at hs
    obtain ⟨rfl, rfl⟩ := hs
    exact ⟨by simp [MemberPtr.target, MemberPtr.null, hm], (fun m hm => by cases hm), h, .refl s⟩
  | some m =>
    simp only [MemberPtr.copyConstruct, hm, hlink m hm, Option.bind_eq_bind, Option.bind_some,
      Option.pure_def, Option.bind_eq_some_iff, Option.some.injEq, Prod.mk.injEq] at hs
    obtain ⟨t', ht', rfl, rfl⟩ := hs
    obtain ⟨hbalanced, htouched⟩ := increased h (hown m.ref (by simp [refs, MemberPtr.target, hm])) ht'
    refine ⟨by simp [MemberPtr.target, hm], ?_, hbalanced, htouched⟩
    intro m' hm'
    cases hm'
    rfl

theorem destroyed (h : Balanced s.useCount (refs [p] ++ owners)) (hlink : p.CountsMember)
    (hs : p.destroy DataStore.access s = some t) : Balanced t.useCount owners ∧ Touched s t := by
  cases hm : p.mpMember with
  | none =>
    simp only [MemberPtr.destroy, hm, Option.some.injEq] at hs
    subst hs
    refine ⟨?_, .refl s⟩
    simpa [refs, MemberPtr.target, hm] using h
  | some m =>
    simp only [MemberPtr.destroy, hm, hlink m hm, Option.bind_eq_bind, Option.bind_some] at hs
    exact decreased (by simpa [refs, MemberPtr.target, hm] using h) hs

theorem copiedAll {ps qs : List MemberPtr} (h : Balanced s.useCount owners) (hlink : ∀ p ∈ ps, p.CountsMember)
    (hown : ∀ r ∈ refs ps, r ∈ owners) (hs : MemberPtr.copyAll ps s = some (qs, t)) :
    refs qs = refs ps ∧ (∀ q ∈ qs, q.CountsMember) ∧ Balanced t.useCount (refs qs ++ owners) ∧ Touched s t := by
  induction ps generalizing s t qs owners with
  | nil =>
    cases hs
    exact ⟨rfl, (fun q hq => by cases hq), h, .refl _⟩
  | cons p ps ih =>
    simp only [MemberPtr.copyAll, Option.bind_eq_bind, Option.bind_eq_some_iff, Option.pure_def,
      Option.some.injEq, Prod.mk.injEq] at hs
    obtain ⟨⟨q, s₁⟩, hq, ⟨qs', s₂⟩, hqs, rfl, rfl⟩ := hs
    have hsplit := refs_cons p ps
    obtain ⟨htarget, hlinked, hbalanced, htouched⟩ := copied h (hlink p List.mem_cons_self)
      (fun r hr => hown r (by rw [hsplit]; exact List.mem_append_left _ hr)) hq
    obtain ⟨hrefs, hlinked', hbalanced', htouched'⟩ := ih hbalanced
      (fun p' hp' => hlink p' (List.mem_cons_of_mem p hp'))
      (fun r hr => List.mem_append_right _ (hown r (by rw [hsplit]; exact List.mem_append_right _ hr))) hqs
    refine ⟨?_, ?_, ?_, htouched.trans htouched'⟩
    · unfold refs at hrefs ⊢
      rw [List.filterMap_cons, List.filterMap_cons, htarget, hrefs]
    · intro q' hq'
      obtain rfl | hq' := List.mem_cons.mp hq'
      · exact hlinked
      · exact hlinked' q' hq'
    · apply hbalanced'.perm
      rw [refs_cons, List.append_assoc]
      exact List.perm_append_comm_assoc _ _ _

theorem destroyedAll {ps : List MemberPtr} (h : Balanced s.useCount (refs ps ++ owners))
    (hlink : ∀ p ∈ ps, p.CountsMember) (hs : MemberPtr.destroyAll ps s = some t) :
    Balanced t.useCount owners ∧ Touched s t := by
  induction ps generalizing s with
  | nil =>
    cases hs
    exact ⟨h, .refl _⟩
  | cons p ps ih =>
    obtain ⟨s₁, hp, hs⟩ := Option.bind_eq_some_iff.mp hs
    have hsplit := refs_cons p ps
    rw [hsplit, List.append_assoc] at h
    obtain ⟨hbalanced, htouched⟩ := destroyed h (hlink p List.mem_cons_self) hp
    obtain ⟨hbalanced', htouched'⟩ := ih hbalanced (fun p' hp' => hlink p' (List.mem_cons_of_mem p hp')) hs
    exact ⟨hbalanced', htouched.trans htouched'⟩

end

/-! The census. -/

namespace DetectionPhase

/-- The handle of the alert that fault detection works on. -/
def alert : DetectionPhase → List MemberPtr
  | alerting _ alert | notifying _ alert | erasing _ alert | leaving _ alert => [alert]
  | _ => []

/-- The window that the iterator of the second loop leads to, until the loop is over. -/
def window : DetectionPhase → Option MemberPtr
  | checking it | leaving it _ => it
  | alerting it _ | notifying it _ | erasing it _ => some it
  | _ => none

/-- The member that a lookup is going to return. -/
def made : DetectionPhase → List Ref
  | stored node _ _ | returning node _ _ => [node.ref]
  | _ => []

/-- The name that a search request is open for. -/
def asked : DetectionPhase → Option String
  | requesting name _ _ => some name
  | _ => none

/-- The names that may still be looked up, when `names` are those on the list. -/
def toTry (names : List String) : DetectionPhase → List String
  | trying kept left | stored _ kept left | returning _ kept left => kept ++ left
  | requesting name kept left => kept ++ name :: left
  | _ => names

/-- Before the snapshot. -/
def gathering : DetectionPhase → Bool
  | idle | trying _ _ | requesting _ _ _ | stored _ _ _ | returning _ _ _ => true
  | _ => false

end DetectionPhase

namespace Traffic

/-- The handles in all containers. -/
def handles (s : Traffic) : List MemberPtr :=
  s.mWatchlist.mMembers.entries.map Prod.fst ++ s.currentWatchlistMembers ++
    s.mMovingWindow.entries.map Prod.fst ++ s.detection.alert ++ s.mAlerts ++ s.emittedAlerts ++ s.mSAG.mVertices

/-- What they refer to, with the member that a lookup is going to return. -/
def owners (s : Traffic) : List Ref := refs s.handles ++ s.detection.made

def toTry (s : Traffic) : List String := s.detection.toTry s.mWatchlist.mInitialMemberNames

/-- Every counter stands at the number of handles of its element; what the sweep is about to erase has
    none; and no node is stored whose name may still be looked up. -/
structure Census (s : Traffic) : Prop where
  wellFormed : s.store.WellFormed
  balanced : Balanced s.store.useCount s.owners
  linked : ∀ p ∈ s.handles, p.CountsMember
  watched : s.mWatchlist.AllValid
  erases : ∀ r, s.sweep = .erase r → s.store.counter r = some ⟨0⟩
  fresh : s.detection.gathering = true → s.currentWatchlistMembers = []
  distinct : s.toTry.Nodup
  unresolved : ∀ a d, s.store.mNodes.data a = some d → d.inst.mName ∉ s.toTry

/-- The node that a name was resolved to has that name. -/
def Answers (s : Traffic) : TrafficAction → Prop
  | .detection input => ∀ name ∈ s.detection.asked, input.response.name = name
  | _ => True

/-- The builder does not clear the windows while fault detection stands at one of them. -/
def Spares (s : Traffic) : TrafficAction → Prop
  | .builder _ => s.builder = .resetDetection → s.detection.window = none
  | _ => True

instance (s : Traffic) : ∀ a, Decidable (s.Answers a)
  | .detection input => inferInstanceAs (Decidable (∀ name ∈ s.detection.asked, input.response.name = name))
  | .builder _ => isTrue trivial
  | .addMember _ _ _ => isTrue trivial
  | .message _ => isTrue trivial
  | .sweepBegin => isTrue trivial
  | .sweepStep => isTrue trivial

instance (s : Traffic) : ∀ a, Decidable (s.Spares a)
  | .builder _ => inferInstanceAs (Decidable (s.builder = .resetDetection → s.detection.window = none))
  | .detection _ => isTrue trivial
  | .addMember _ _ _ => isTrue trivial
  | .message _ => isTrue trivial
  | .sweepBegin => isTrue trivial
  | .sweepStep => isTrue trivial

variable {s t : Traffic}

theorem refs_perm {ps qs : List MemberPtr} (h : ps.Perm qs) (r : Ref) : (refs ps).count r = (refs qs).count r :=
  (h.filterMap MemberPtr.target).count_eq r

theorem refs_move {p : MemberPtr} : refs [p.moveConstruct.1] = refs [p] ∧ refs [p.moveConstruct.2] = [] := by
  cases hm : p.mpMember <;> simp [refs, MemberPtr.moveConstruct, MemberPtr.target, MemberPtr.null, hm]

theorem linked_move {p : MemberPtr} (h : p.CountsMember) : p.moveConstruct.1.CountsMember ∧ p.moveConstruct.2.CountsMember := by
  cases hm : p.mpMember with
  | none => simp [MemberPtr.CountsMember, MemberPtr.moveConstruct, hm, MemberPtr.null]
  | some m => simp [MemberPtr.CountsMember, MemberPtr.moveConstruct, hm, h m hm]

theorem refs_make (m : Member) : refs [.make m] = [m.ref] := rfl

theorem linked_make (m : Member) : (MemberPtr.make m).CountsMember := fun m' hm' => by cases hm'; rfl

/-- The handle at a place of a container is replaced. -/
theorem refs_set {ps : List MemberPtr} {i : Nat} {p : MemberPtr} (q : MemberPtr) (hi : ps[i]? = some p) (r : Ref) :
    (refs [p]).count r + (refs (ps.set i q)).count r = (refs [q]).count r + (refs ps).count r := by
  have hone : ∀ p : MemberPtr, refs [p] = p.target.toList := by
    intro p
    cases hp : p.target <;> simp [refs, hp]
  have hswap := (filterMap_set_swap (f := MemberPtr.target) q hi).count_eq r
  rw [List.count_append, List.count_append] at hswap
  rw [hone, hone]
  exact hswap

/-- The references, container by container. -/
theorem count_owners (s : Traffic) (r : Ref) : s.owners.count r =
    (refs (s.mWatchlist.mMembers.entries.map Prod.fst)).count r + (refs s.currentWatchlistMembers).count r +
      (refs (s.mMovingWindow.entries.map Prod.fst)).count r + (refs s.detection.alert).count r +
      (refs s.mAlerts).count r + (refs s.emittedAlerts).count r + (refs s.mSAG.mVertices).count r +
      s.detection.made.count r := by
  simp only [owners, handles, refs_append, List.count_append]

theorem forall_handles {P : MemberPtr → Prop} : (∀ p ∈ s.handles, P p) ↔
    (∀ p ∈ s.mWatchlist.mMembers.entries.map Prod.fst, P p) ∧ (∀ p ∈ s.currentWatchlistMembers, P p) ∧
      (∀ p ∈ s.mMovingWindow.entries.map Prod.fst, P p) ∧ (∀ p ∈ s.detection.alert, P p) ∧
      (∀ p ∈ s.mAlerts, P p) ∧ (∀ p ∈ s.emittedAlerts, P p) ∧ ∀ p ∈ s.mSAG.mVertices, P p := by
  simp only [handles, List.forall_mem_append, and_assoc]

theorem owned {p : MemberPtr} (hp : p ∈ s.handles) : ∀ r ∈ refs [p], r ∈ s.owners := fun _ hr =>
  List.mem_append_left _ (((List.singleton_sublist.mpr hp).filterMap MemberPtr.target).subset hr)

theorem mem_owners (s : Traffic) (ps : List MemberPtr) (h : ∀ r, (refs ps).count r ≤ s.owners.count r) :
    ∀ r ∈ refs ps, r ∈ s.owners := fun r hr =>
  List.count_pos_iff.mp (Nat.lt_of_lt_of_le (List.count_pos_iff.mpr hr) (h r))

theorem recount {count : Ref → Option Nat} {owners owners' : List Ref} (h : Balanced count owners)
    (hsame : ∀ r, owners'.count r = owners.count r) : Balanced count owners' :=
  h.perm (List.perm_iff_count.mpr hsame)

/-- A step that stores no node. -/
theorem Census.change (h : s.Census) (htouched : Touched s.store t.store)
    (hbalanced : Balanced t.store.useCount t.owners) (hlinked : ∀ p ∈ t.handles, p.CountsMember)
    (hwatched : t.mWatchlist.AllValid) (hsweep : t.sweep = s.sweep) (htry : t.toTry.Sublist s.toTry)
    (hfresh : t.detection.gathering = true → t.currentWatchlistMembers = []) : t.Census where
  wellFormed := htouched.wellFormed h.wellFormed
  balanced := hbalanced
  linked := hlinked
  watched := hwatched
  erases := fun r hr => htouched.zero r (h.erases r (hsweep ▸ hr))
  fresh := hfresh
  distinct := h.distinct.sublist htry
  unresolved := fun a d hd hmem => by
    obtain ⟨d', hd', hname⟩ := htouched.named a d hd
    exact h.unresolved a d' hd' (hname ▸ htry.subset hmem)

/-- A step that moves on in a loop. -/
theorem Census.goTo (h : s.Census) {phase : DetectionPhase} (halert : phase.alert = s.detection.alert)
    (hmade : phase.made = s.detection.made)
    (htry : (phase.toTry s.mWatchlist.mInitialMemberNames).Sublist s.toTry)
    (hfresh : phase.gathering = true → s.currentWatchlistMembers = []) :
    Census { s with detection := phase } := by
  refine h.change (.refl s.store) (recount h.balanced fun r => ?_) ?_ h.watched rfl htry hfresh
  · simp only [count_owners, halert, hmade]
  · intro p hp
    simp only [handles, halert] at hp
    exact h.linked p hp

theorem Census.goOn (h : s.Census) (phase : ExpansionPhase) : Census { s with builder := phase } :=
  h.change (.refl s.store) h.balanced h.linked h.watched rfl (List.Sublist.refl _) h.fresh

/-- No name that is looked up is the name of a stored node. -/
theorem Census.misses (h : s.Census) {name : String} (hname : name ∈ s.toTry) {m : Option Member}
    (hfind : s.store.find (.getNodeByName name) = some m) : m = none := by
  cases m with
  | none => rfl
  | some m =>
    obtain ⟨xs, hx⟩ := h.wellFormed.nodes
    obtain ⟨it, hit, hfound⟩ := Option.bind_eq_some_iff.mp hfind
    cases it with
    | none => cases hfound
    | some a =>
      have hp := List.find?_some (hx.findFrom hit).symm
      simp only [DoubleLinkedList.holds, Option.any_eq_true] at hp
      obtain ⟨d, hd, hk⟩ := hp
      have hkey : Stored.mName d.inst = name := by simpa using hk
      have htried : d.inst.mName ∈ s.toTry := by
        show Stored.mName d.inst ∈ s.toTry
        rw [hkey]
        exact hname
      exact absurd htried (h.unresolved a d hd)

/-! What each step of fault detection keeps. Handles change their container, and the counters follow;
that the references are the ones counted is shown for one element at a time. -/

theorem Census.lookup {input : DetectionInput} {name : String} {kept left : List String} (h : s.Census)
    (hphase : s.detection = .trying kept (name :: left)) (hs : s.lookup input name kept left = some t) :
    t.Census := by
  have htry : s.toTry = kept ++ name :: left := by rw [toTry, hphase]; rfl
  have hfresh := h.fresh (by rw [hphase]; rfl)
  obtain ⟨found, hfind, rfl⟩ := Option.map_eq_some_iff.mp hs
  obtain rfl := h.misses (by rw [htry]; simp) hfind
  show Census (if input.primaryKey.isEmpty then _ else _)
  split
  · refine h.goTo (by rw [hphase]; rfl) (by rw [hphase]; rfl) ?_ (fun _ => hfresh)
    rw [htry]
    simp [DetectionPhase.toTry]
  · refine h.goTo (by rw [hphase]; rfl) (by rw [hphase]; rfl) ?_ (fun _ => hfresh)
    rw [htry]
    exact List.Sublist.refl _

theorem Census.requested {input : DetectionInput} {name : String} {kept left : List String} (h : s.Census)
    (hphase : s.detection = .requesting name kept left) (hname : input.response.name = name)
    {r : DataStore × Member} (hr : s.store.emplaceNode input.response input.requestId = some r) :
    Census { s with store := r.1, detection := .stored r.2 kept left } := by
  obtain ⟨store, m⟩ := r
  obtain ⟨hnone, hheader, hkind, hw⟩ := DataStore.emplaceNode_spec hr h.wellFormed
  -- the counter of the new element starts at one, which stands for the handle still to be made
  have hcounter := DataStore.counter_update hheader
  have htry : s.toTry = kept ++ name :: left := by rw [toTry, hphase]; rfl
  have hnot : name ∉ kept ++ left := by
    have := h.distinct
    rw [htry, List.nodup_middle] at this
    exact (List.nodup_cons.mp this).1
  refine ⟨hw, ?_, ?_, h.watched, ?_, ?_, ?_, ?_⟩
  · have hb := h.balanced.alloc (r := m.ref) (by
      rw [DataStore.useCount, DataStore.counter_eq_none.mpr hnone]; rfl)
    show Balanced store.useCount _
    rw [DataStore.useCount_update hcounter]
    refine recount hb fun r => ?_
    simp only [List.count_cons, count_owners, hphase, DetectionPhase.alert, DetectionPhase.made, List.count_nil]
    omega
  · intro p hp
    apply h.linked p
    simpa only [handles, hphase, DetectionPhase.alert] using hp
  · intro r hr'
    refine HandleState.zero_kept ?_ hcounter r (h.erases r hr')
    rw [DataStore.counter_eq_none.mpr hnone]
    simp
  · exact fun _ => h.fresh (by rw [hphase]; rfl)
  · exact h.distinct.sublist (by rw [htry]; exact (List.sublist_cons_self name left).append_left kept)
  · intro a d hd hmem
    -- the new node has the name that was just looked up
    simp only [DataStore.emplaceNode, Option.bind_eq_bind, Option.bind_eq_some_iff, Option.pure_def,
      Option.some.injEq, Prod.mk.injEq] at hr
    obtain ⟨⟨l, b⟩, hl, rfl, rfl⟩ := hr
    obtain ⟨_, _, _, hdata, _⟩ := DoubleLinkedList.emplaceBack_spec hl
    change l.data a = some d at hd
    rw [hdata] at hd
    by_cases ha : a = b
    · subst ha
      rw [Function.update_self] at hd
      cases hd
      exact hnot (hname ▸ hmem)
    · rw [Function.update_of_ne ha] at hd
      refine h.unresolved a d hd ?_
      rw [htry]
      exact ((List.sublist_cons_self name left).append_left kept).subset hmem

theorem Census.sourced {node : Member} {attr : Attribute} {kept left : List String} {store : DataStore}
    (h : s.Census) (hphase : s.detection = .stored node kept left)
    (hs : s.store.addAttributeSource node.ref attr = some store) :
    Census { s with store := store, detection := .returning node kept left } := by
  obtain ⟨hbalanced, htouched⟩ := Touched.frame (DataStore.addAttributeSource_spec hs) (fun a d hd => by
    obtain ⟨⟨isTopic, b⟩, _, _⟩ := node
    cases isTopic with
    | true =>
      obtain ⟨l, _, rfl⟩ := Option.map_eq_some_iff.mp hs
      exact ⟨d, hd, rfl⟩
    | false =>
      obtain ⟨l, hl, rfl⟩ := Option.map_eq_some_iff.mp hs
      exact Touched.modify_named (f := fun d => { d with inst := Stored.addAttribute d.inst attr })
        (fun _ => rfl) hl a d hd) h.balanced
  refine h.change htouched (recount hbalanced fun r => ?_) ?_ h.watched rfl ?_
    (fun _ => h.fresh (by rw [hphase]; rfl))
  · simp only [count_owners, hphase, DetectionPhase.alert, DetectionPhase.made]
  · intro p hp
    apply h.linked p
    simpa only [handles, hphase, DetectionPhase.alert] using hp
  · rw [toTry, toTry, hphase]
    exact List.Sublist.refl _

/-- The handle that a lookup returns goes to the watchlist, or is destroyed. -/
theorem Census.initialise {node : Member} {kept left : List String} (h : s.Census)
    (hphase : s.detection = .returning node kept left) (hs : s.initialise node kept left = some t) :
    t.Census := by
  have htry : s.toTry = kept ++ left := by rw [toTry, hphase]; rfl
  have hfresh := h.fresh (by rw [hphase]; rfl)
  obtain ⟨hw, hc, hm, _, hA, he, hg⟩ := forall_handles.mp h.linked
  simp only [Traffic.initialise] at hs
  split at hs
  · next hadded =>
    cases hs
    -- the entry takes over the handle, and no counter changes
    have hperm := (emplace_perm hadded).map Prod.fst
    refine h.change (.refl s.store) (recount h.balanced fun r => ?_) (forall_handles.mpr
      ⟨fun p hp => ?_, hc, hm, by simp [DetectionPhase.alert], hA, he, hg⟩) ?_ rfl
      (by rw [htry]; exact List.Sublist.refl _) (fun _ => hfresh)
    · have hcount := refs_perm hperm r
      rw [List.map_cons, refs_cons, List.count_append, refs_make] at hcount
      simp only [count_owners, hphase, DetectionPhase.alert, DetectionPhase.made, List.count_nil]
      omega
    · obtain rfl | hp := List.mem_cons.mp (hperm.mem_iff.mp hp)
      · exact linked_make node
      · exact hw p hp
    · intro e he
      obtain rfl | he := mem_emplace he
      · rfl
      · exact h.watched e he
  · obtain ⟨store, hstore, rfl⟩ := Option.map_eq_some_iff.mp hs
    have hb : Balanced s.store.useCount (refs [.make node] ++ refs s.handles) := by
      refine recount h.balanced fun r => ?_
      simp only [owners, hphase, DetectionPhase.made, List.count_append, refs_make]
      omega
    obtain ⟨hbalanced, htouched⟩ := destroyed hb (linked_make node) hstore
    refine h.change htouched (recount hbalanced fun r => ?_) (forall_handles.mpr
      ⟨hw, hc, hm, by simp [DetectionPhase.alert], hA, he, hg⟩) h.watched rfl
      (by rw [htry]; exact List.Sublist.refl _) (fun _ => hfresh)
    simp only [owners, handles, hphase, DetectionPhase.alert, DetectionPhase.made, List.append_nil]

theorem Census.snapshot {kept : List String} (h : s.Census) (hphase : s.detection = .trying kept [])
    (hs : s.snapshot kept = some t) : t.Census := by
  have hnil := h.fresh (by rw [hphase]; rfl)
  obtain ⟨⟨ps, store⟩, hcopy, rfl⟩ := Option.map_eq_some_iff.mp hs
  obtain ⟨hw, hc, hm, _, hA, he, hg⟩ := forall_handles.mp h.linked
  have hown := mem_owners s (s.mWatchlist.mMembers.entries.map Prod.fst) fun r => by
    rw [count_owners]
    omega
  obtain ⟨_, hlinked, hbalanced, htouched⟩ := copiedAll h.balanced hw hown hcopy
  refine h.change htouched (recount hbalanced fun r => ?_) (forall_handles.mpr
    ⟨hw, hlinked, hm, by simp [DetectionPhase.alert], hA, he, hg⟩) h.watched rfl ?_
    (fun hgathering => by cases hgathering)
  · simp only [List.count_append, count_owners, hphase, hnil, DetectionPhase.alert, DetectionPhase.made,
      refs_nil, List.count_nil]
    omega
  · rw [toTry, toTry, hphase]
    show kept.Sublist (kept ++ [])
    rw [List.append_nil]

/-- The handle of the snapshot moves to the new window. -/
theorem Census.updateWindow {input : DetectionInput} {i : Nat} {member : MemberPtr} (h : s.Census)
    (hphase : s.detection = .updating i) (hi : s.currentWatchlistMembers[i]? = some member) :
    (s.updateWindow input i member).Census := by
  have htry : s.toTry = s.mWatchlist.mInitialMemberNames := by rw [toTry, hphase]; rfl
  unfold Traffic.updateWindow
  split
  · exact h.goTo (by rw [hphase]; rfl) (by rw [hphase]; rfl) (by rw [htry]; exact List.Sublist.refl _)
      (fun hgathering => by cases hgathering)
  · next hfind =>
    obtain ⟨hw, hc, hm, _, hA, he, hg⟩ := forall_handles.mp h.linked
    obtain ⟨hmoved, hleft⟩ := linked_move (hc member (List.mem_of_getElem? hi))
    have hvalid : member.moveConstruct.1.valid = member.valid := by
      cases hp : member.mpMember <;> simp [MemberPtr.valid, MemberPtr.moveConstruct, MemberPtr.null, hp]
    -- handles are ordered by being null or not, so `emplace` adds what `find` has not found
    have hadded : (s.mMovingWindow.emplace member.moveConstruct.1 input.window).2 = true := by
      rw [emplace_added_iff]
      intro e he' hequiv
      apply hfind
      rw [OrderedMap.find?, List.find?_isSome]
      refine ⟨e, he', decide_eq_true ?_⟩
      simpa only [OrderedMap.Equiv, MemberPtr.lt, hvalid] using hequiv
    have hperm := (emplace_perm hadded).map Prod.fst
    refine h.change (.refl s.store) (recount h.balanced fun r => ?_) (forall_handles.mpr
      ⟨hw, fun p hp => ?_, fun p hp => ?_, by simp [DetectionPhase.alert], hA, he, hg⟩) h.watched rfl
      (by rw [htry]; exact List.Sublist.refl _) (fun hgathering => by cases hgathering)
    · have hcount := refs_perm hperm r
      have hset := refs_set member.moveConstruct.2 hi r
      rw [List.map_cons, refs_cons, List.count_append, refs_move.1] at hcount
      rw [refs_move.2, List.count_nil] at hset
      simp only [count_owners, hphase, DetectionPhase.alert, DetectionPhase.made]
      omega
    · obtain hp | rfl := List.mem_or_eq_of_mem_set hp
      · exact hc p hp
      · exact hleft
    · obtain rfl | hp := List.mem_cons.mp (hperm.mem_iff.mp hp)
      · exact hmoved
      · exact hm p hp

/-- The snapshot goes out of scope. -/
theorem Census.endRound {store : DataStore} (h : s.Census) (hphase : s.detection = .checking none)
    (hs : MemberPtr.destroyAll s.currentWatchlistMembers s.store = some store) :
    Census { s with store := store, currentWatchlistMembers := [], detection := .idle } := by
  obtain ⟨hw, hc, hm, _, hA, he, hg⟩ := forall_handles.mp h.linked
  have hb : Balanced s.store.useCount (refs s.currentWatchlistMembers ++
      owners { s with currentWatchlistMembers := [], detection := .idle }) := by
    refine recount h.balanced fun r => ?_
    simp only [List.count_append, count_owners, hphase, DetectionPhase.alert, DetectionPhase.made, refs_nil,
      List.count_nil]
    omega
  obtain ⟨hbalanced, htouched⟩ := destroyedAll hb hc hs
  refine h.change htouched hbalanced (forall_handles.mpr
    ⟨hw, by simp, hm, by simp [DetectionPhase.alert], hA, he, hg⟩) h.watched rfl ?_ (fun _ => rfl)
  rw [toTry, toTry, hphase]
  exact List.Sublist.refl _

/-- The parameter of `detectFaults` and the alert are both counted; the parameter is destroyed. -/
theorem Census.detectFaults {it : MemberPtr} {e : MemberPtr × AttributeWindow} (h : s.Census)
    (hphase : s.detection = .checking (some it)) (hat : s.mMovingWindow.at? it = some e)
    (hs : s.detectFaults it e.1 = some t) : t.Census := by
  obtain ⟨hw, hc, hm, _, hA, he, hg⟩ := forall_handles.mp h.linked
  simp only [Traffic.detectFaults, MemberPtr.null_copyAssign, Option.bind_eq_bind, Option.bind_eq_some_iff,
    Option.pure_def, Option.some.injEq] at hs
  obtain ⟨⟨member, store₁⟩, hmember, ⟨alert, store₂⟩, halert, store₃, hdestroy, rfl⟩ := hs
  have hmem : e.1 ∈ s.mMovingWindow.entries.map Prod.fst := List.mem_map_of_mem (List.mem_of_find?_eq_some hat)
  have hown := owned (s := s) (p := e.1) (by
    simp only [handles, List.mem_append]
    tauto)
  obtain ⟨_, hlinked, hbalanced, htouched⟩ := copied h.balanced (hm e.1 hmem) hown hmember
  obtain ⟨_, hlinked', hbalanced', htouched'⟩ :=
    copied hbalanced hlinked (fun r hr => List.mem_append_left _ hr) halert
  -- two copies were made, and one of them is destroyed
  have hb : Balanced store₂.useCount (refs [member] ++ (refs [alert] ++ s.owners)) := by
    refine recount hbalanced' fun r => ?_
    simp only [List.count_append]
    omega
  obtain ⟨hbalanced'', htouched''⟩ := destroyed hb hlinked hdestroy
  refine h.change ((htouched.trans htouched').trans htouched'') (recount hbalanced'' fun r => ?_)
    (forall_handles.mpr ⟨hw, hc, hm, ?_, hA, he, hg⟩) h.watched rfl ?_ (fun hgathering => by cases hgathering)
  · simp only [List.count_append, count_owners, hphase, DetectionPhase.alert, DetectionPhase.made, refs_nil,
      List.count_nil]
    omega
  · intro p hp
    rw [List.mem_singleton.mp hp]
    exact hlinked'
  · rw [toTry, toTry, hphase]
    exact List.Sublist.refl _

/-- The alert is emitted; what is left of it holds nothing. -/
theorem Census.emit {it alert : MemberPtr} (h : s.Census) (hphase : s.detection = .alerting it alert) :
    Census { s with
      mAlerts := s.mAlerts ++ [alert.moveConstruct.1]
      detection := .notifying it alert.moveConstruct.2 } := by
  obtain ⟨hw, hc, hm, ha, hA, he, hg⟩ := forall_handles.mp h.linked
  rw [hphase] at ha
  obtain ⟨hmoved, hleft⟩ := linked_move (ha alert (List.mem_singleton_self alert))
  refine h.change (.refl s.store) (recount h.balanced fun r => ?_) (forall_handles.mpr
    ⟨hw, hc, hm, fun p hp => ?_, fun p hp => ?_, he, hg⟩) h.watched rfl ?_ (fun hgathering => by cases hgathering)
  · simp only [count_owners, hphase, DetectionPhase.alert, DetectionPhase.made, refs_append, List.count_append,
      refs_move.1, refs_move.2, List.count_nil]
    omega
  · rw [List.mem_singleton.mp hp]
    exact hleft
  · obtain hp | hp := List.mem_append.mp hp
    · exact hA p hp
    · rw [List.mem_singleton.mp hp]
      exact hmoved
  · rw [toTry, toTry, hphase]
    exact List.Sublist.refl _

/-- A blind spot that was used leaves the watchlist. -/
theorem Census.notifyUsed {it alert : MemberPtr} {member : PrimaryKey} (h : s.Census)
    (hphase : s.detection = .notifying it alert) (hs : s.notifyUsed it alert member = some t) : t.Census := by
  have htry : s.toTry = s.mWatchlist.mInitialMemberNames := by rw [toTry, hphase]; rfl
  unfold Traffic.notifyUsed at hs
  split at hs
  · next p hget =>
    obtain ⟨store, hstore, rfl⟩ := Option.map_eq_some_iff.mp hs
    obtain ⟨hw, hc, hm, ha, hA, he, hg⟩ := forall_handles.mp h.linked
    have hused : (s.mWatchlist.notifyUsed member).1 = { s.mWatchlist with
        mMembers := s.mWatchlist.mMembers.eraseFirst fun element => element.1.hasKey member } := by
      simp only [Watchlist.notifyUsed, hget]
    rw [hused]
    have hperm : (s.mWatchlist.mMembers.entries.map Prod.fst).Perm (p :: (s.mWatchlist.mMembers.eraseFirst
        fun element => element.1.hasKey member).entries.map Prod.fst) := (eraseFirst_perm hget).map Prod.fst
    have hmem : p ∈ s.mWatchlist.mMembers.entries.map Prod.fst :=
      hperm.mem_iff.mpr List.mem_cons_self
    -- apart from the other handles, the one that leaves the list can be destroyed
    have hb : Balanced s.store.useCount (refs [p] ++ owners { s with
        mWatchlist := { s.mWatchlist with
          mMembers := s.mWatchlist.mMembers.eraseFirst fun element => element.1.hasKey member }
        detection := .erasing it alert }) := by
      refine recount h.balanced fun r => ?_
      have hcount := refs_perm hperm r
      rw [refs_cons, List.count_append] at hcount
      simp only [List.count_append, count_owners, hphase, DetectionPhase.alert, DetectionPhase.made]
      omega
    obtain ⟨hbalanced, htouched⟩ := destroyed hb (hw p hmem) hstore
    refine h.change htouched hbalanced (forall_handles.mpr ⟨fun q hq => ?_, hc, hm, ?_, hA, he, hg⟩) ?_ rfl
      (by rw [htry]; exact List.Sublist.refl _) (fun hgathering => by cases hgathering)
    · exact hw q (hperm.mem_iff.mpr (List.mem_cons_of_mem p hq))
    · rw [hphase] at ha
      exact ha
    · exact fun e he => h.watched e (List.eraseP_subset he)
  · cases hs
    exact h.goTo (by rw [hphase]; rfl) (by rw [hphase]; rfl) (by rw [htry]; exact List.Sublist.refl _)
      (fun hgathering => by cases hgathering)

/-- Its window goes with it. -/
theorem Census.eraseWindow {it alert : MemberPtr} {e : MemberPtr × AttributeWindow} {store : DataStore}
    (h : s.Census) (hphase : s.detection = .erasing it alert) (hat : s.mMovingWindow.at? it = some e)
    (hs : e.1.destroy DataStore.access s.store = some store) : Census { s with
      store := store
      mMovingWindow := s.mMovingWindow.eraseFirst fun e' => decide (e'.1 = e.1)
      detection := .leaving (s.mMovingWindow.next it) alert } := by
  obtain ⟨hw, hc, hm, ha, hA, he, hg⟩ := forall_handles.mp h.linked
  have hmem := List.mem_of_find?_eq_some hat
  -- `erase` removes the entry that the iterator stands at, which has the same handle
  obtain ⟨e', hfind⟩ := Option.isSome_iff_exists.mp
    (List.find?_isSome.mpr ⟨e, hmem, decide_eq_true rfl⟩ :
      (s.mMovingWindow.entries.find? fun e' => decide (e'.1 = e.1)).isSome)
  have hsame : e'.1 = e.1 := by simpa using List.find?_some hfind
  have hperm := (eraseFirst_perm hfind).map Prod.fst
  rw [List.map_cons, hsame] at hperm
  have hb : Balanced s.store.useCount (refs [e.1] ++ owners { s with
      mMovingWindow := s.mMovingWindow.eraseFirst fun e' => decide (e'.1 = e.1)
      detection := .leaving (s.mMovingWindow.next it) alert }) := by
    refine recount h.balanced fun r => ?_
    have hcount := refs_perm hperm r
    rw [refs_cons, List.count_append] at hcount
    simp only [List.count_append, count_owners, hphase, DetectionPhase.alert, DetectionPhase.made]
    omega
  obtain ⟨hbalanced, htouched⟩ := destroyed hb (hm e.1 (List.mem_map_of_mem hmem)) hs
  refine h.change htouched hbalanced (forall_handles.mpr ⟨hw, hc, fun q hq => ?_, ?_, hA, he, hg⟩) h.watched rfl
    ?_ (fun hgathering => by cases hgathering)
  · exact hm q (hperm.mem_iff.mpr (List.mem_cons_of_mem _ hq))
  · rw [hphase] at ha
    exact ha
  · rw [toTry, toTry, hphase]
    exact List.Sublist.refl _

/-- The alert goes out of scope. -/
theorem Census.leave {it : Option MemberPtr} {alert : MemberPtr} {store : DataStore} (h : s.Census)
    (hphase : s.detection = .leaving it alert) (hs : alert.destroy DataStore.access s.store = some store) :
    Census { s with store := store, detection := .checking it } := by
  obtain ⟨hw, hc, hm, ha, hA, he, hg⟩ := forall_handles.mp h.linked
  rw [hphase] at ha
  have hb : Balanced s.store.useCount (refs [alert] ++ owners { s with detection := .checking it }) := by
    refine recount h.balanced fun r => ?_
    simp only [List.count_append, count_owners, hphase, DetectionPhase.alert, DetectionPhase.made, refs_nil,
      List.count_nil]
    omega
  obtain ⟨hbalanced, htouched⟩ := destroyed hb (ha alert (List.mem_singleton_self alert)) hs
  refine h.change htouched hbalanced (forall_handles.mpr
    ⟨hw, hc, hm, by simp [DetectionPhase.alert], hA, he, hg⟩) h.watched rfl ?_ (fun hgathering => by cases hgathering)
  rw [toTry, toTry, hphase]
  exact List.Sublist.refl _

theorem Census.detectionStep {input : DetectionInput} (h : s.Census) (hanswers : s.Answers (.detection input))
    (hs : s.detectionStep input = some t) : t.Census := by
  unfold Traffic.detectionStep at hs
  split at hs
  · next hphase =>
    cases hs
    refine h.goTo (by rw [hphase]; rfl) (by rw [hphase]; rfl) ?_ (fun _ => h.fresh (by rw [hphase]; rfl))
    rw [toTry, hphase]
    exact List.Sublist.refl _
  · next hphase => exact h.snapshot hphase hs
  · next hphase => exact h.lookup hphase hs
  · next hphase =>
    obtain ⟨r, hr, rfl⟩ := Option.map_eq_some_iff.mp hs
    exact h.requested hphase (hanswers _ (by rw [hphase]; rfl)) hr
  · next hphase =>
    obtain ⟨store, hstore, rfl⟩ := Option.map_eq_some_iff.mp hs
    exact h.sourced hphase hstore
  · next hphase => exact h.initialise hphase hs
  · next i hphase =>
    split at hs
    · next hi =>
      cases hs
      exact h.updateWindow hphase hi
    · cases hs
      refine h.goTo (by rw [hphase]; rfl) (by rw [hphase]; rfl) ?_ (fun hgathering => by cases hgathering)
      rw [toTry, hphase]
      exact List.Sublist.refl _
  · next hphase =>
    obtain ⟨store, hstore, rfl⟩ := Option.map_eq_some_iff.mp hs
    exact h.endRound hphase hstore
  · next hphase =>
    obtain ⟨e, hat, hs⟩ := Option.bind_eq_some_iff.mp hs
    split at hs
    · exact h.detectFaults hphase hat hs
    · cases hs
      refine h.goTo (by rw [hphase]; rfl) (by rw [hphase]; rfl) ?_ (fun hgathering => by cases hgathering)
      rw [toTry, hphase]
      exact List.Sublist.refl _
  · next hphase =>
    split at hs
    · cases hs
      exact h.emit hphase
    · cases hs
      refine h.goTo (by rw [hphase]; rfl) (by rw [hphase]; rfl) ?_ (fun hgathering => by cases hgathering)
      rw [toTry, hphase]
      exact List.Sublist.refl _
  · next hphase =>
    obtain ⟨e, _, hs⟩ := Option.bind_eq_some_iff.mp hs
    obtain ⟨m, _, hs⟩ := Option.bind_eq_some_iff.mp hs
    exact h.notifyUsed hphase hs
  · next hphase =>
    obtain ⟨e, hat, hs⟩ := Option.bind_eq_some_iff.mp hs
    obtain ⟨store, hstore, hs⟩ := Option.bind_eq_some_iff.mp hs
    cases hs
    exact h.eraseWindow hphase hat hstore
  · next hphase =>
    obtain ⟨store, hstore, rfl⟩ := Option.map_eq_some_iff.mp hs
    exact h.leave hphase hstore

/-! What the steps of the builder keep. -/

theorem Census.takeAlerts {next : ExpansionPhase} (h : s.Census) (hs : s.takeAlerts next = some t) : t.Census := by
  obtain ⟨hw, hc, hm, ha, hA, he, hg⟩ := forall_handles.mp h.linked
  simp only [Traffic.takeAlerts, Option.bind_eq_bind, Option.bind_eq_some_iff, Option.pure_def,
    Option.some.injEq] at hs
  obtain ⟨⟨output, store₁⟩, hcopy, store₂, hdestroy, rfl⟩ := hs
  have hown := mem_owners s s.mAlerts fun r => by
    rw [count_owners]
    omega
  obtain ⟨_, hlinked, hbalanced, htouched⟩ := copiedAll h.balanced hA hown hcopy
  -- every alert was copied, so the handles of the old ones are counted twice
  have hb : Balanced store₁.useCount (refs s.mAlerts ++
      owners { s with mAlerts := [], emittedAlerts := s.emittedAlerts ++ output, builder := next }) := by
    refine recount hbalanced fun r => ?_
    simp only [List.count_append, count_owners, refs_append, refs_nil, List.count_nil]
    omega
  obtain ⟨hbalanced', htouched'⟩ := destroyedAll hb hA hdestroy
  refine h.change (htouched.trans htouched') hbalanced' (forall_handles.mpr
    ⟨hw, hc, hm, ha, by simp, fun p hp => ?_, hg⟩) h.watched rfl (List.Sublist.refl _) h.fresh
  obtain hp | hp := List.mem_append.mp hp
  · exact he p hp
  · exact hlinked p hp

theorem Census.addVertex {i : Nat} {member : MemberPtr} (h : s.Census) (hi : s.emittedAlerts[i]? = some member)
    (hs : s.addVertex i member = some t) : t.Census := by
  unfold Traffic.addVertex at hs
  split at hs
  · obtain ⟨hw, hc, hm, ha, hA, he, hg⟩ := forall_handles.mp h.linked
    obtain ⟨⟨q, store⟩, hcopy, rfl⟩ := Option.map_eq_some_iff.mp hs
    have hmem := List.mem_of_getElem? hi
    have hown := owned (s := s) (p := member) (by
      simp only [handles, List.mem_append]
      exact Or.inl (Or.inr hmem))
    obtain ⟨_, hlinked, hbalanced, htouched⟩ := copied h.balanced (he member hmem) hown hcopy
    refine h.change htouched (recount hbalanced fun r => ?_) (forall_handles.mpr
      ⟨hw, hc, hm, ha, hA, he, fun p hp => ?_⟩) h.watched rfl (List.Sublist.refl _) h.fresh
    · simp only [List.count_append, count_owners, refs_append]
      omega
    · obtain hp | hp := List.mem_append.mp hp
      · exact hg p hp
      · rw [List.mem_singleton.mp hp]
        exact hlinked
  · cases hs
    exact h.goOn _

/-- One of the containers is cleared. -/
theorem Census.cleared {ps : List MemberPtr} {store : DataStore} (h : s.Census) (hlinked : ∀ p ∈ ps, p.CountsMember)
    (hs : MemberPtr.destroyAll ps s.store = some store) (hstore : t.store = store)
    (hcount : ∀ r, (refs ps).count r + t.owners.count r = s.owners.count r)
    (hhandles : ∀ p ∈ t.handles, p ∈ s.handles) (hwatched : t.mWatchlist.AllValid) (hsweep : t.sweep = s.sweep)
    (htry : t.toTry = s.toTry) (hfresh : t.detection.gathering = true → t.currentWatchlistMembers = []) :
    t.Census := by
  subst hstore
  have hb : Balanced s.store.useCount (refs ps ++ t.owners) := by
    refine recount h.balanced fun r => ?_
    rw [List.count_append]
    exact hcount r
  obtain ⟨hbalanced, htouched⟩ := destroyedAll hb hlinked hs
  exact h.change htouched hbalanced (fun p hp => h.linked p (hhandles p hp)) hwatched hsweep
    (htry ▸ List.Sublist.refl _) hfresh

theorem Census.builderStep {abort : Bool} (h : s.Census) (hs : s.builderStep abort = some t) : t.Census := by
  obtain ⟨hw, hc, hm, ha, hA, he, hg⟩ := forall_handles.mp h.linked
  unfold Traffic.builderStep at hs
  split at hs
  · exact h.takeAlerts hs
  · split at hs
    · next hi => exact h.addVertex hi hs
    · cases hs
      exact h.goOn _
  · split at hs
    · obtain ⟨store, hstore, rfl⟩ := Option.map_eq_some_iff.mp hs
      refine h.cleared hw hstore rfl (fun r => ?_) (fun p hp => ?_) (by simp [Watchlist.AllValid, Watchlist.reset])
        rfl rfl h.fresh
      · simp only [count_owners, Watchlist.reset, empty_entries, List.map_nil, refs_nil, List.count_nil]
        omega
      · simp only [handles, Watchlist.reset, empty_entries, List.map_nil, List.mem_append, List.not_mem_nil] at hp ⊢
        tauto
    · cases hs
      exact h.goOn _
  · obtain ⟨store, hstore, rfl⟩ := Option.map_eq_some_iff.mp hs
    refine h.cleared hm hstore rfl (fun r => ?_) (fun p hp => ?_) h.watched rfl rfl h.fresh
    · simp only [count_owners, empty_entries, List.map_nil, refs_nil, List.count_nil]
      omega
    · simp only [handles, empty_entries, List.map_nil, List.mem_append, List.not_mem_nil] at hp ⊢
      tauto
  · obtain ⟨store, hstore, rfl⟩ := Option.map_eq_some_iff.mp hs
    refine h.cleared hg hstore rfl (fun r => ?_) (fun p hp => ?_) h.watched rfl rfl h.fresh
    · simp only [count_owners, Graph.reset, refs_nil, List.count_nil]
      omega
    · simp only [handles, Graph.reset, List.mem_append, List.not_mem_nil] at hp ⊢
      tauto
  · exact h.takeAlerts hs
  · obtain ⟨store, hstore, rfl⟩ := Option.map_eq_some_iff.mp hs
    refine h.cleared he hstore rfl (fun r => ?_) (fun p hp => ?_) h.watched rfl rfl h.fresh
    · simp only [count_owners, refs_nil, List.count_nil]
      omega
    · simp only [handles, List.mem_append, List.not_mem_nil] at hp ⊢
      tauto

/-! The other steps. -/

/-- A message keeps the counters, and the name of its node. -/
theorem Census.message {u : Update} {store : DataStore} (h : s.Census) (hs : s.store.handle u = some store) :
    Census { s with store := store } := by
  obtain ⟨it, _, hs⟩ := Option.bind_eq_some_iff.mp hs
  cases it with
  | none =>
    cases hs
    exact h
  | some a =>
    obtain ⟨store', hupdate, hs⟩ := Option.bind_eq_some_iff.mp hs
    cases hs
    obtain ⟨hheader, hw⟩ := DataStore.update_spec hupdate
    obtain ⟨hheader', hw'⟩ := store'.queue_spec u
    have hnamed : ∀ b d, (store'.queue u).mNodes.data b = some d →
        ∃ d', s.store.mNodes.data b = some d' ∧ d'.inst.mName = d.inst.mName := by
      intro b d hd
      rw [DataStore.queue_mNodes] at hd
      cases u with
      | node u =>
        obtain ⟨l, hl, rfl⟩ := Option.map_eq_some_iff.mp hupdate
        exact Touched.modify_named (f := fun d => { d with inst := d.inst.update u })
          (fun d => d.inst.update_mName u) hl b d hd
      | topic u =>
        obtain ⟨l, _, rfl⟩ := Option.map_eq_some_iff.mp hupdate
        exact ⟨d, hd, rfl⟩
    obtain ⟨hbalanced, htouched⟩ :=
      Touched.frame ⟨hheader'.trans hheader, fun h => hw' (hw h)⟩ hnamed h.balanced
    exact h.change htouched hbalanced h.linked h.watched rfl (List.Sublist.refl _) h.fresh

/-- What the sweep erases is referred to by no handle. -/
theorem Census.sweepStep (h : s.Census) (hs : s.sweepStep = some t) : t.Census := by
  obtain ⟨state, hstate, rfl⟩ := Option.map_eq_some_iff.mp hs
  have hgo : ∀ pc, (∀ r, pc = .erase r → s.store.counter r = some ⟨0⟩) → Census { s with sweep := pc } :=
    fun pc hpc => ⟨h.wellFormed, h.balanced, h.linked, h.watched, hpc, h.fresh, h.distinct, h.unresolved⟩
  unfold HandleState.sweepStep at hstate
  split at hstate
  · cases hstate
  · cases hstate
    exact hgo _ (by simp)
  · cases hstate
    exact hgo _ (by simp)
  -- only an element whose counter stands at zero is erased
  · next isTopic a _ =>
    obtain ⟨c, hc, rfl⟩ := Option.map_eq_some_iff.mp hstate
    refine hgo _ (fun r hr => ?_)
    cases hz : c.nonZero with
    | true => simp [hz] at hr
    | false =>
      simp only [hz, Bool.false_eq_true, if_false, Sweep.erase.injEq] at hr
      subst hr
      have hzero : c.mValue = 0 := by simpa [AtomicCounter.nonZero] using hz
      rw [show s.store.counter ⟨isTopic, a⟩ = some c from hc, ← hzero]
  · obtain ⟨n, _, rfl⟩ := Option.map_eq_some_iff.mp hstate
    exact hgo _ (by simp)
  · next r hr =>
    obtain ⟨⟨store, n⟩, herase, rfl⟩ := Option.map_eq_some_iff.mp hstate
    obtain ⟨hheader, hw⟩ := DataStore.erase_spec herase
    refine ⟨hw h.wellFormed, ?_, h.linked, h.watched, by simp, h.fresh, h.distinct, fun a d hd => ?_⟩
    · have hzero : s.store.useCount r = some 0 := by rw [DataStore.useCount, h.erases r hr]; rfl
      show Balanced store.useCount s.owners
      rw [DataStore.useCount_update (DataStore.counter_update hheader)]
      exact h.balanced.free hzero
    · exact h.unresolved a d (DataStore.data_of_erase herase hd)

/-- A handle that is counted leads to a stored element. -/
theorem Census.stored (h : s.Census) {p : MemberPtr} (hp : p ∈ s.handles) {m : Member} (hm : p.mpMember = some m) :
    s.store.stores m.ref = true := by
  have hown : m.ref ∈ s.owners := owned hp m.ref (by simp [refs, MemberPtr.target, hm])
  obtain ⟨n, hn⟩ := h.balanced.alive hown
  rw [DataStore.stores_iff]
  intro hnone
  simp [DataStore.useCount, DataStore.counter_eq_none.mpr hnone] at hn

end Traffic

/-! The iterator of fault detection. -/

namespace MemberWindow

variable {windows : MemberWindow} {it q : MemberPtr}

/-- The next window is there, and is another one. -/
theorem next_mem (h : windows.next it = some q) : q ∈ windows.entries.map Prod.fst ∧ q ≠ it := by
  obtain ⟨e, he, rfl⟩ := Option.map_eq_some_iff.mp h
  have hsplit := List.takeWhile_append_dropWhile (p := fun e : MemberPtr × AttributeWindow => decide (e.1 ≠ it))
    (l := windows.entries)
  have hsorted := windows.sorted
  rw [← hsplit] at hsorted
  have hrest := (List.pairwise_append.mp hsorted).2.1
  cases hdrop : windows.entries.dropWhile fun e => decide (e.1 ≠ it) with
  | nil =>
    rw [hdrop] at he
    cases he
  | cons d rest =>
    have hd : d.1 = it := by
      have hfirst := List.head?_dropWhile_not (fun e : MemberPtr × AttributeWindow => decide (e.1 ≠ it)) windows.entries
      rw [hdrop] at hfirst
      simpa using hfirst
    rw [hdrop] at he hrest
    have hrest' : e ∈ rest := List.mem_of_head? he
    have hmem : e ∈ windows.entries := by
      rw [← hsplit, hdrop]
      exact List.mem_append_right _ (List.mem_cons_of_mem d hrest')
    refine ⟨List.mem_map_of_mem hmem, fun hsame => ?_⟩
    -- the windows after `it` have larger handles
    have hlt := (List.pairwise_cons.mp hrest).1 e hrest'
    rw [hd, hsame] at hlt
    exact absurd hlt (by simp [MemberPtr.lt])

end MemberWindow

namespace Traffic

variable {s t : Traffic}

/-- The window that fault detection stands at is there. -/
def Standing (s : Traffic) : Prop :=
  ∀ it, s.detection.window = some it → it ∈ s.mMovingWindow.entries.map Prod.fst

theorem standing_of_none (hnone : s.detection.window = none) : s.Standing := fun it hit => by
  rw [hnone] at hit
  cases hit

/-- A step that moves neither the iterator nor the windows. -/
theorem Standing.keep (h : s.Standing) (hwindow : t.detection.window = s.detection.window)
    (hwindows : t.mMovingWindow = s.mMovingWindow) : t.Standing := fun it hit => by
  rw [hwindows]
  exact h it (hwindow ▸ hit)

/-- `++it` -/
theorem standing_next {it : MemberPtr} (hwindow : s.detection.window = s.mMovingWindow.next it) : s.Standing :=
  fun _ hq => (MemberWindow.next_mem (hwindow.symm.trans hq)).1

/-- Nothing but the window that the iterator has left is erased. -/
theorem standing_erase {it : MemberPtr} {windows : MemberWindow} (hwindow : s.detection.window = windows.next it)
    (hwindows : s.mMovingWindow = windows.eraseFirst fun e => decide (e.1 = it)) : s.Standing := by
  intro q hq
  obtain ⟨hmem, hother⟩ := MemberWindow.next_mem (hwindow.symm.trans hq)
  obtain ⟨e, he, rfl⟩ := List.mem_map.mp hmem
  have hkept : e ∈ (windows.eraseFirst fun e => decide (e.1 = it)).entries :=
    (List.mem_eraseP_of_neg (by simpa using hother)).mpr he
  rw [hwindows]
  exact List.mem_map_of_mem hkept

/-- Fault detection is before the loop over the windows. -/
theorem standing_of_gathering (hgathering : s.detection.gathering = true) : s.Standing := by
  apply standing_of_none
  cases hphase : s.detection <;> simp_all [DetectionPhase.gathering, DetectionPhase.window]

theorem Standing.notifyUsed {it alert : MemberPtr} {member : PrimaryKey} (h : s.Standing)
    (hphase : s.detection = .notifying it alert) (hs : s.notifyUsed it alert member = some t) : t.Standing := by
  unfold Traffic.notifyUsed at hs
  split at hs
  · obtain ⟨store, -, rfl⟩ := Option.map_eq_some_iff.mp hs
    exact h.keep (by rw [hphase]; rfl) rfl
  · cases hs
    exact standing_next rfl

/-- Fault detection goes on in its loop, or to the next window. -/
theorem Standing.detectionStep {input : DetectionInput} (h : s.Standing) (hs : s.detectionStep input = some t) :
    t.Standing := by
  unfold Traffic.detectionStep at hs
  split at hs
  · cases hs
    exact standing_of_gathering rfl
  · obtain ⟨r, -, rfl⟩ := Option.map_eq_some_iff.mp hs
    exact standing_of_none rfl
  · obtain ⟨found, -, rfl⟩ := Option.map_eq_some_iff.mp hs
    apply standing_of_gathering
    cases found with
    | some m => rfl
    | none =>
      show DetectionPhase.gathering (Traffic.detection (if input.primaryKey.isEmpty then _ else _)) = true
      split <;> rfl
  · obtain ⟨r, -, rfl⟩ := Option.map_eq_some_iff.mp hs
    exact standing_of_gathering rfl
  · obtain ⟨store, -, rfl⟩ := Option.map_eq_some_iff.mp hs
    exact standing_of_gathering rfl
  · simp only [Traffic.initialise] at hs
    split at hs
    · cases hs
      exact standing_of_gathering rfl
    · obtain ⟨store, -, rfl⟩ := Option.map_eq_some_iff.mp hs
      exact standing_of_gathering rfl
  · split at hs
    · cases hs
      apply standing_of_none
      unfold Traffic.updateWindow
      split <;> rfl
    -- the loop begins with the first window
    · cases hs
      intro it hit
      obtain ⟨e, he, rfl⟩ := Option.map_eq_some_iff.mp hit
      exact List.mem_map_of_mem (List.mem_of_head? he)
  · obtain ⟨store, -, rfl⟩ := Option.map_eq_some_iff.mp hs
    exact standing_of_gathering rfl
  · next it hphase =>
    obtain ⟨e, -, hs⟩ := Option.bind_eq_some_iff.mp hs
    split at hs
    · simp only [Traffic.detectFaults, Option.bind_eq_bind, Option.bind_eq_some_iff, Option.pure_def,
        Option.some.injEq] at hs
      obtain ⟨_, -, _, -, _, -, rfl⟩ := hs
      exact h.keep (by rw [hphase]; rfl) rfl
    · cases hs
      exact standing_next rfl
  · next it alert hphase =>
    split at hs <;>
      · cases hs
        exact h.keep (by rw [hphase]; rfl) rfl
  · next it alert hphase =>
    obtain ⟨e, -, hs⟩ := Option.bind_eq_some_iff.mp hs
    obtain ⟨m, -, hs⟩ := Option.bind_eq_some_iff.mp hs
    exact h.notifyUsed hphase hs
  · next it alert hphase =>
    obtain ⟨e, hat, hs⟩ := Option.bind_eq_some_iff.mp hs
    obtain ⟨store, -, hs⟩ := Option.bind_eq_some_iff.mp hs
    cases hs
    have hkey : e.1 = it := by simpa using List.find?_some hat
    exact standing_erase rfl (by rw [← hkey])
  · next it alert hphase =>
    obtain ⟨store, -, rfl⟩ := Option.map_eq_some_iff.mp hs
    exact h.keep (by rw [hphase]; rfl) rfl

/-- The builder clears the windows only where `Spares` lets it. -/
theorem Standing.builderStep {abort : Bool} (h : s.Standing) (hspares : s.Spares (.builder abort))
    (hs : s.builderStep abort = some t) : t.Standing := by
  have htake : ∀ {next u}, s.takeAlerts next = some u → u.Standing := by
    intro next u hu
    simp only [Traffic.takeAlerts, Option.bind_eq_bind, Option.bind_eq_some_iff, Option.pure_def,
      Option.some.injEq] at hu
    obtain ⟨_, -, _, -, rfl⟩ := hu
    exact h.keep rfl rfl
  unfold Traffic.builderStep at hs
  split at hs
  · exact htake hs
  · split at hs
    · unfold Traffic.addVertex at hs
      split at hs
      · obtain ⟨r, -, rfl⟩ := Option.map_eq_some_iff.mp hs
        exact h.keep rfl rfl
      · cases hs
        exact h.keep rfl rfl
    · cases hs
      exact h.keep rfl rfl
  · split at hs
    · obtain ⟨store, -, rfl⟩ := Option.map_eq_some_iff.mp hs
      exact h.keep rfl rfl
    · cases hs
      exact h.keep rfl rfl
  · next hphase =>
    obtain ⟨store, -, rfl⟩ := Option.map_eq_some_iff.mp hs
    exact standing_of_none (hspares hphase)
  · obtain ⟨store, -, rfl⟩ := Option.map_eq_some_iff.mp hs
    exact h.keep rfl rfl
  · exact htake hs
  · obtain ⟨store, -, rfl⟩ := Option.map_eq_some_iff.mp hs
    exact h.keep rfl rfl

end Traffic

def exampleInput : DetectionInput := ⟨"n", exampleResponse "a", 1, ⟨"0", 2, 0⟩, .empty, true, true⟩

/-- The windows are cleared while fault detection stands at one, which `Spares` leaves out. -/
theorem window_lost : ∃ t it,
    run Traffic.step (.new "p" "r" ["a"]) (List.replicate 8 (.detection exampleInput) ++
      [.builder false, .builder false, .builder true, .builder true]) = some t ∧
    t.detection.window = some it ∧ t.mMovingWindow.at? it = none :=
  ⟨_, _, rfl, rfl, rfl⟩

end StreamFdl
