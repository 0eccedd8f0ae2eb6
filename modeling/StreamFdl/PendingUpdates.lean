import StreamFdl.Base.GroupedQueue
import StreamFdl.Base.Runs
import StreamFdl.DataStore

/- The updates that wait for the subgraph builder (`mUpdates`). `DataStore::run`
   queues them with three operations that search for the affected member's entry
   and append to it, and `getUpdates` takes all entries; each of the four holds
   `mUpdatesMutex` from its first to its last line, so a run is any sequence of
   them. The entries are searched by primary key, so the queue is the grouped one
   of the library as long as a key belongs to one member only. -/
namespace StreamFdl
open Runs GroupedQueue

/-- The operations under `mUpdatesMutex`; `affected` is the key of the element the iterator leads to. -/
inductive UpdateAction where
  | addSubUpdate (affected other : PrimaryKey)
  | addSendUpdate (affected other : PrimaryKey)
  | addPubUpdate (affected other : PrimaryKey)
  | getUpdates
  deriving DecidableEq

/-- What an operation queues, and for whom: a node hears of a topic it subscribes to and of a node
    that serves it, a topic of a node that publishes to it. -/
def UpdateAction.queued : UpdateAction → Option (MemberProxy × MemberProxy)
  | addSubUpdate affected other => some (⟨affected, false⟩, ⟨other, true⟩)
  | addSendUpdate affected other => some (⟨affected, false⟩, ⟨other, false⟩)
  | addPubUpdate affected other => some (⟨affected, true⟩, ⟨other, false⟩)
  | getUpdates => none

def queuedBy (acts : List UpdateAction) : List (MemberProxy × MemberProxy) :=
  acts.filterMap UpdateAction.queued

structure UpdateQueue where
  store : DataStore
  /-- What `getUpdates` has returned so far. -/
  batches : List GraphView

/-- The entries of a view as groups. -/
def GraphView.groups (view : GraphView) : List (MemberProxy × MemberProxies) :=
  view.map fun element => (element.member, element.connections)

namespace UpdateQueue

def new (parameterEventsKey rosoutKey : PrimaryKey) : UpdateQueue :=
  ⟨.new parameterEventsKey rosoutKey, []⟩

def step (q : UpdateQueue) : UpdateAction → Option UpdateQueue
  | .addSubUpdate affected other => some { q with store := q.store.addSubUpdate affected other }
  | .addSendUpdate affected other => some { q with store := q.store.addSendUpdate affected other }
  | .addPubUpdate affected other => some { q with store := q.store.addPubUpdate affected other }
  | .getUpdates => some ⟨q.store.getUpdates.1, q.batches ++ [q.store.getUpdates.2]⟩

/-- No update is lost, doubled or attributed to another member; those of one member stay in order;
    and no batch holds a member twice. -/
structure InOrder (acts : List UpdateAction) (q : UpdateQueue) : Prop where
  kept : Kept (queuedBy acts) (q.batches.map GraphView.groups) q.store.mUpdates.groups
  once : ∀ view ∈ q.store.mUpdates :: q.batches, (view.map fun e => e.member.mPrimaryKey).Nodup

end UpdateQueue

/-! The searches go by primary key. -/

/-- No two of these members share a primary key. -/
def KeysDistinct (members : List MemberProxy) : Prop :=
  ∀ m ∈ members, ∀ m' ∈ members, m.mPrimaryKey = m'.mPrimaryKey → m = m'

/-- Extending the entry with the member's key is extending the entry of the member. -/
theorem DataStore.addUpdate_groups {view : GraphView} {affected : MemberProxy} (other : MemberProxy)
    (h : ∀ e ∈ view, e.member.mPrimaryKey = affected.mPrimaryKey → e.member = affected) :
    GraphView.groups (addUpdate view affected other) = push (GraphView.groups view) affected other := by
  induction view with
  | nil => rfl
  | cons element view ih =>
    have hhead := h element List.mem_cons_self
    have hrest := ih fun e he => h e (List.mem_cons_of_mem _ he)
    show GraphView.groups (if _ then _ else _) =
      if element.member = affected then _ else _ :: push (GraphView.groups view) affected other
    by_cases hkey : element.member.mPrimaryKey = affected.mPrimaryKey
    · rw [if_pos (beq_iff_eq.mpr hkey), if_pos (hhead hkey)]
      rfl
    · rw [if_neg (fun heq => hkey (beq_iff_eq.mp heq)), if_neg (fun heq => hkey (congrArg _ heq)),
        ← hrest]
      rfl

theorem keys_groups (view : GraphView) : keys view.groups = view.map MemberConnections.member := by
  unfold keys GraphView.groups
  rw [List.map_map]
  rfl

/-- Members that are queued once are so by key too. -/
theorem nodup_keys {view : GraphView} {members : List MemberProxy} (hdistinct : KeysDistinct members)
    (hmem : ∀ e ∈ view, e.member ∈ members) (h : (keys view.groups).Nodup) :
    (view.map fun e => e.member.mPrimaryKey).Nodup := by
  rw [keys_groups] at h
  have hmap : view.map (fun e => e.member.mPrimaryKey) =
      (view.map MemberConnections.member).map MemberProxy.mPrimaryKey := by
    rw [List.map_map]
    rfl
  rw [hmap]
  apply h.map_on
  intro m hm m' hm' hkey
  obtain ⟨e, he, rfl⟩ := List.mem_map.mp hm
  obtain ⟨e', he', rfl⟩ := List.mem_map.mp hm'
  exact hdistinct _ (hmem e he) _ (hmem e' he') hkey

namespace UpdateQueue

/-- What the run keeps: the queue is a grouped one, of these members. -/
structure Grouped (members : List MemberProxy) (acts : List UpdateAction) (q : UpdateQueue) : Prop where
  kept : Kept (queuedBy acts) (q.batches.map GraphView.groups) q.store.mUpdates.groups
  among : ∀ view ∈ q.store.mUpdates :: q.batches, ∀ e ∈ view, e.member ∈ members

variable {members : List MemberProxy} {acts : List UpdateAction} {q : UpdateQueue}

theorem Grouped.inOrder (h : q.Grouped members acts) (hdistinct : KeysDistinct members) :
    q.InOrder acts := by
  refine ⟨h.kept, fun view hview => nodup_keys hdistinct (h.among view hview) ?_⟩
  obtain rfl | hview := List.mem_cons.mp hview
  · exact h.kept.pendingOnce
  · exact h.kept.batchesOnce _ (List.mem_map_of_mem hview)

/-- The three operations that queue an update differ in what they queue only. -/
theorem Grouped.add (h : q.Grouped members acts) (hdistinct : KeysDistinct members) {act : UpdateAction}
    {affected other : MemberProxy} (hqueued : act.queued = some (affected, other))
    (hmem : affected ∈ members) {store : DataStore}
    (hstore : store.mUpdates = DataStore.addUpdate q.store.mUpdates affected other) :
    Grouped members (acts ++ [act]) { q with store := store } := by
  have hpending := h.among _ List.mem_cons_self
  have hgroups : store.mUpdates.groups = push q.store.mUpdates.groups affected other := by
    rw [hstore]
    apply DataStore.addUpdate_groups
    intro e he hkey
    exact hdistinct _ (hpending e he) _ hmem hkey
  have hsent : queuedBy (acts ++ [act]) = queuedBy acts ++ [(affected, other)] := by
    unfold queuedBy
    rw [List.filterMap_append, List.filterMap_cons_some hqueued]
    rfl
  refine ⟨?_, fun view hview e he => ?_⟩
  · show Kept _ _ store.mUpdates.groups
    rw [hsent, hgroups]
    exact h.kept.push affected other
  · obtain rfl | hview := List.mem_cons.mp hview
    · have hkey : e.member ∈ keys store.mUpdates.groups := by
        rw [keys_groups]
        exact List.mem_map_of_mem he
      rw [hgroups, mem_keys_push, keys_groups] at hkey
      obtain hkey | hkey := hkey
      · obtain ⟨e', he', heq⟩ := List.mem_map.mp hkey
        exact heq ▸ hpending e' he'
      · exact hkey ▸ hmem
    · exact h.among view (List.mem_cons_of_mem _ hview) e he

theorem Grouped.step (h : q.Grouped members acts) (hdistinct : KeysDistinct members) (act : UpdateAction)
    (hmem : ∀ p, act.queued = some p → p.1 ∈ members) :
    ∃ q', q.step act = some q' ∧ q'.Grouped members (acts ++ [act]) := by
  cases act with
  | addSubUpdate affected other => exact ⟨_, rfl, h.add hdistinct rfl (hmem _ rfl) rfl⟩
  | addSendUpdate affected other => exact ⟨_, rfl, h.add hdistinct rfl (hmem _ rfl) rfl⟩
  | addPubUpdate affected other => exact ⟨_, rfl, h.add hdistinct rfl (hmem _ rfl) rfl⟩
  | getUpdates =>
    have hsent : queuedBy (acts ++ [.getUpdates]) = queuedBy acts := by
      unfold queuedBy
      rw [List.filterMap_append]
      exact List.append_nil _
    refine ⟨_, rfl, ?_, fun view hview e he => ?_⟩
    · show Kept _ ((q.batches ++ [q.store.mUpdates]).map GraphView.groups) []
      rw [hsent, List.map_append]
      exact h.kept.drain
    · obtain rfl | hview := List.mem_cons.mp hview
      · cases he
      · obtain hview | hview := List.mem_append.mp hview
        · exact h.among view (List.mem_cons_of_mem _ hview) e he
        · rw [List.mem_singleton.mp hview] at he
          exact h.among _ List.mem_cons_self e he

theorem grouped_run (k k' : PrimaryKey) (hdistinct : KeysDistinct members) (acts : List UpdateAction)
    (hmem : ∀ p ∈ queuedBy acts, p.1 ∈ members) :
    ∃ q, run step (new k k') acts = some q ∧ q.Grouped members acts := by
  induction acts using List.reverseRecOn with
  | nil =>
    refine ⟨new k k', rfl, kept_nil, fun view hview e he => ?_⟩
    rw [List.mem_singleton.mp hview] at he
    cases he
  | append_singleton acts act ih =>
    unfold queuedBy at hmem
    rw [List.filterMap_append] at hmem
    obtain ⟨q, hq, hgrouped⟩ := ih fun p hp => hmem p (List.mem_append_left _ hp)
    obtain ⟨q', hq', hgrouped'⟩ := hgrouped.step hdistinct act fun p hp =>
      hmem p (List.mem_append_right _ (List.mem_filterMap.mpr ⟨act, List.mem_singleton_self _, hp⟩))
    refine ⟨q', ?_, hgrouped'⟩
    rw [run_append, hq, Option.bind_some, run_cons, hq']
    rfl

end UpdateQueue

/-- In every interleaving of the operations on `mUpdates`, the batches returned and what is pending
    hold each member's updates once and in the order they were queued in, and nothing is pending
    after `getUpdates`. -/
theorem updates_inOrder (parameterEventsKey rosoutKey : PrimaryKey) (acts : List UpdateAction)
    (distinct : KeysDistinct ((queuedBy acts).map Prod.fst)) :
    ∃ q, run UpdateQueue.step (.new parameterEventsKey rosoutKey) acts = some q ∧ q.InOrder acts ∧
      (acts.getLast? = some .getUpdates → q.store.mUpdates = []) := by
  obtain ⟨q, hq, hgrouped⟩ := UpdateQueue.grouped_run parameterEventsKey rosoutKey distinct acts
    fun p hp => List.mem_map_of_mem hp
  refine ⟨q, hq, hgrouped.inOrder distinct, fun hlast => ?_⟩
  obtain ⟨before, rfl⟩ := List.getLast?_eq_some_iff.mp hlast
  rw [run_append] at hq
  obtain ⟨q₀, _, hq⟩ := Option.bind_eq_some_iff.mp hq
  cases hq
  rfl

/-- Two producers, a batch, and two more updates. -/
theorem updates_inOrder_twoBatches : ∃ q,
    run UpdateQueue.step (.new "e" "r") [.addSubUpdate "n" "t", .addPubUpdate "t" "m", .getUpdates,
      .addSendUpdate "n" "m", .addSubUpdate "n" "u"] = some q ∧
    q.InOrder [.addSubUpdate "n" "t", .addPubUpdate "t" "m", .getUpdates, .addSendUpdate "n" "m",
      .addSubUpdate "n" "u"] ∧
    ((([.addSubUpdate "n" "t", .addPubUpdate "t" "m", .getUpdates, .addSendUpdate "n" "m",
      .addSubUpdate "n" "u"] : List UpdateAction).getLast? = some .getUpdates) →
      q.store.mUpdates = []) :=
  updates_inOrder "e" "r" [.addSubUpdate "n" "t", .addPubUpdate "t" "m", .getUpdates,
    .addSendUpdate "n" "m", .addSubUpdate "n" "u"] (by unfold KeysDistinct; decide)

end StreamFdl
