import StreamFdl.Blindspots

/- The second part of `DataStore::getFullGraphView`: the vertices and connections
   of the communication graph, from the lists of the parsed query response.

   A loop over edges only ever adds to connections (`extend`), and what it adds to
   a vertex depends on the vertex's key alone. Each loop tests the end that is a
   topic for the two ignored ones, and these are the topics without a vertex. -/
namespace StreamFdl

/-- The ends of an entry of "sub", "pub" or "send". -/
structure QueryEdge where
  fromPrimaryKey : PrimaryKey
  toPrimaryKey : PrimaryKey
  deriving DecidableEq, Repr

/-- The lists of the response: primary keys, and edges, with `none` for an entry whose "rel" is null. -/
structure QueryResponseData where
  active : List PrimaryKey
  passive : List PrimaryKey
  sub : List (Option QueryEdge)
  pub : List (Option QueryEdge)
  send : List (Option QueryEdge)
  deriving DecidableEq, Repr

/-- Add a connection to the vertex with this key. The assertion that there is one fails with `none`. -/
def GraphView.connect (output : GraphView) (fromPrimaryKey : PrimaryKey) (connection : MemberProxy) :
    Option GraphView :=
  match output.findIdx? fun element => element.member.mPrimaryKey == fromPrimaryKey with
  | none => none
  | some it => some (output.modify it fun element =>
      { element with connections := element.connections ++ [connection] })

/-- One pass of a loop over edges. -/
def GraphView.addEdge (ignored : QueryEdge → Bool) (isTopic : Bool) (output : GraphView) :
    Option QueryEdge → Option GraphView
  | none => some output
  | some edge =>
    if ignored edge then some output
    else output.connect edge.fromPrimaryKey ⟨edge.toPrimaryKey, isTopic⟩

/-- Where the edges of a list lead from a vertex, leaving out the ignored ones. -/
def GraphView.targets (ignored : QueryEdge → Bool) (isTopic : Bool) (entries : List (Option QueryEdge))
    (primaryKey : PrimaryKey) : MemberProxies :=
  ((entries.filterMap id).filter fun edge => !ignored edge && edge.fromPrimaryKey == primaryKey).map
    fun edge => ⟨edge.toPrimaryKey, isTopic⟩

namespace DataStore

/-- The loops over "active" and "passive". -/
def vertices (s : DataStore) (data : QueryResponseData) : GraphView :=
  data.active.map (fun primaryKey => ⟨⟨primaryKey, false⟩, []⟩) ++
    (data.passive.filter fun primaryKey => !s.checkTopicPrimaryIgnored primaryKey).map
      fun primaryKey => ⟨⟨primaryKey, true⟩, []⟩

def addSub (s : DataStore) : GraphView → Option QueryEdge → Option GraphView :=
  GraphView.addEdge (fun sub => s.checkTopicPrimaryIgnored sub.fromPrimaryKey) false

def addPub (s : DataStore) : GraphView → Option QueryEdge → Option GraphView :=
  GraphView.addEdge (fun pub => s.checkTopicPrimaryIgnored pub.toPrimaryKey) true

def addSend : GraphView → Option QueryEdge → Option GraphView :=
  GraphView.addEdge (fun _ => false) false

def getFullGraphView (s : DataStore) (data : QueryResponseData) : Option GraphView :=
  (data.sub.foldlM s.addSub (s.vertices data)).bind fun output =>
    (data.pub.foldlM s.addPub output).bind fun output => data.send.foldlM addSend output

/-- An end of the edge is an ignored topic. -/
def ignores (s : DataStore) (data : QueryResponseData) (edge : QueryEdge) : Bool :=
  (decide (edge.fromPrimaryKey ∈ data.passive) && s.checkTopicPrimaryIgnored edge.fromPrimaryKey) ||
    (decide (edge.toPrimaryKey ∈ data.passive) && s.checkTopicPrimaryIgnored edge.toPrimaryKey)

end DataStore

/-- The keys are distinct, and the ends of every edge are members of the kinds that it joins. -/
structure QueryResponseData.WellFormed (data : QueryResponseData) : Prop where
  distinct : (data.active ++ data.passive).Nodup
  sub : ∀ edge, some edge ∈ data.sub → edge.fromPrimaryKey ∈ data.passive ∧ edge.toPrimaryKey ∈ data.active
  pub : ∀ edge, some edge ∈ data.pub → edge.fromPrimaryKey ∈ data.active ∧ edge.toPrimaryKey ∈ data.passive
  send : ∀ edge, some edge ∈ data.send → edge.fromPrimaryKey ∈ data.active ∧ edge.toPrimaryKey ∈ data.active

/-! What a loop over edges adds. -/

namespace GraphView

/-- Add connections to every vertex. -/
def extend (output : GraphView) (added : PrimaryKey → MemberProxies) : GraphView :=
  output.map fun element =>
    { element with connections := element.connections ++ added element.member.mPrimaryKey }

variable {output : GraphView} {added : PrimaryKey → MemberProxies}

theorem extend_cons (element : MemberConnections) : (extend (element :: output) added) =
    { element with connections := element.connections ++ added element.member.mPrimaryKey } ::
      output.extend added := rfl

theorem keys_extend : (output.extend added).keys = output.keys := by
  unfold extend keys
  rw [List.map_map]
  rfl

theorem extend_extend (added' : PrimaryKey → MemberProxies) :
    (output.extend added).extend added' = output.extend fun k => added k ++ added' k := by
  unfold extend
  rw [List.map_map]
  apply List.map_congr_left
  intro element _
  show MemberConnections.mk _ _ = _
  rw [List.append_assoc]

theorem extend_nil : (output.extend fun _ => []) = output := by
  unfold extend
  rw [List.map_congr_left, List.map_id]
  intro element _
  simp

theorem extend_of_not_mem {k : PrimaryKey} {c : MemberProxy} (h : k ∉ output.keys) :
    (output.extend fun k' => if k' = k then [c] else []) = output := by
  unfold extend
  rw [List.map_congr_left, List.map_id]
  intro element helement
  have hne : element.member.mPrimaryKey ≠ k := fun heq => h (heq ▸ mem_keys helement)
  simp [hne]

/-- The vertex is found, and no other one has its key. -/
theorem connect_eq (hnd : output.keys.Nodup) {k : PrimaryKey} (hk : k ∈ output.keys) (c : MemberProxy) :
    output.connect k c = some (output.extend fun k' => if k' = k then [c] else []) := by
  induction output with
  | nil => cases hk
  | cons element output ih =>
    obtain ⟨hout, hnd⟩ := List.nodup_cons.mp hnd
    unfold connect at ih ⊢
    rw [List.findIdx?_cons, extend_cons]
    by_cases heq : element.member.mPrimaryKey = k
    · subst heq
      rw [if_pos (beq_self_eq_true _), if_pos rfl, extend_of_not_mem hout]
      rfl
    · obtain hhere | hk := List.mem_cons.mp hk
      · exact absurd hhere.symm heq
      · have hrest := ih hnd hk
        rw [if_neg (by simpa using heq), if_neg heq, List.append_nil]
        cases hidx : output.findIdx? fun element => element.member.mPrimaryKey == k with
        | none =>
          rw [hidx] at hrest
          cases hrest
        | some it =>
          rw [hidx] at hrest
          rw [← Option.some.inj hrest]
          rfl

theorem targets_cons_ignored {ignored : QueryEdge → Bool} {isTopic : Bool} {edge : QueryEdge}
    (h : ignored edge = true) (entries : List (Option QueryEdge)) :
    targets ignored isTopic (some edge :: entries) = targets ignored isTopic entries := by
  funext k
  simp [targets, h]

theorem targets_cons {ignored : QueryEdge → Bool} {isTopic : Bool} {edge : QueryEdge}
    (h : ignored edge = false) (entries : List (Option QueryEdge)) :
    targets ignored isTopic (some edge :: entries) = fun k =>
      (if k = edge.fromPrimaryKey then [⟨edge.toPrimaryKey, isTopic⟩] else []) ++
        targets ignored isTopic entries k := by
  funext k
  by_cases hk : k = edge.fromPrimaryKey
  · simp [targets, h, hk]
  · simp [targets, h, hk, Ne.symm hk]

/-- A loop over edges whose starts have a vertex fails no assertion. -/
theorem foldlM_addEdge {ignored : QueryEdge → Bool} {isTopic : Bool} (entries : List (Option QueryEdge))
    (hnd : output.keys.Nodup)
    (hfrom : ∀ edge, some edge ∈ entries → ignored edge = false → edge.fromPrimaryKey ∈ output.keys) :
    entries.foldlM (addEdge ignored isTopic) output = some (output.extend (targets ignored isTopic entries)) := by
  induction entries generalizing output with
  | nil =>
    show some output = some (output.extend fun _ => [])
    rw [extend_nil]
  | cons entry entries ih =>
    rw [List.foldlM_cons]
    have hrest : ∀ edge, some edge ∈ entries → ignored edge = false → edge.fromPrimaryKey ∈ output.keys :=
      fun edge hedge => hfrom edge (List.mem_cons_of_mem _ hedge)
    cases entry with
    | none => exact ih hnd hrest
    | some edge =>
      cases hignored : ignored edge with
      | true =>
        rw [addEdge, if_pos hignored, targets_cons_ignored hignored]
        exact ih hnd hrest
      | false =>
        have hstart := hfrom edge List.mem_cons_self hignored
        rw [addEdge, if_neg (by simp [hignored]), connect_eq hnd hstart, targets_cons hignored, ← extend_extend]
        apply ih
        · rw [keys_extend]
          exact hnd
        · rw [keys_extend]
          exact hrest

theorem foldlM_extend {ignored : QueryEdge → Bool} {isTopic : Bool} (entries : List (Option QueryEdge))
    (hnd : output.keys.Nodup)
    (hfrom : ∀ edge, some edge ∈ entries → ignored edge = false → edge.fromPrimaryKey ∈ output.keys) :
    entries.foldlM (addEdge ignored isTopic) (output.extend added) =
      some (output.extend fun k => added k ++ targets ignored isTopic entries k) := by
  rw [← extend_extend]
  apply foldlM_addEdge
  · rw [keys_extend]
    exact hnd
  · rw [keys_extend]
    exact hfrom

theorem members_extend :
    (output.extend added).map MemberConnections.member = output.map MemberConnections.member := by
  unfold extend
  rw [List.map_map]
  rfl

/-- Vertices without connections have those that are added. -/
theorem connections_extend (h : ∀ element ∈ output, element.connections = []) {v : MemberConnections}
    (hv : v ∈ output.extend added) : v.connections = added v.member.mPrimaryKey := by
  obtain ⟨element, helement, rfl⟩ := List.mem_map.mp hv
  show element.connections ++ _ = _
  rw [h element helement]
  rfl

theorem mem_targets {ignored : QueryEdge → Bool} {isTopic : Bool} {entries : List (Option QueryEdge)}
    {k : PrimaryKey} {c : MemberProxy} : c ∈ targets ignored isTopic entries k ↔
      ∃ edge, some edge ∈ entries ∧ ignored edge = false ∧ edge.fromPrimaryKey = k ∧
        ⟨edge.toPrimaryKey, isTopic⟩ = c := by
  simp [targets, and_assoc]

theorem targets_congr {ignored ignored' : QueryEdge → Bool} {isTopic : Bool} {entries : List (Option QueryEdge)}
    (h : ∀ edge, some edge ∈ entries → ignored edge = ignored' edge) :
    targets ignored isTopic entries = targets ignored' isTopic entries := by
  funext k
  unfold targets
  congr 1
  apply List.filter_congr
  intro edge hedge
  rw [h edge (by simpa using hedge)]

end GraphView

/-! The vertices. -/

namespace DataStore
open GraphView

variable {s : DataStore} {data : QueryResponseData}

theorem keys_vertices (s : DataStore) (data : QueryResponseData) : (s.vertices data).keys =
    data.active ++ data.passive.filter fun primaryKey => !s.checkTopicPrimaryIgnored primaryKey := by
  simp [vertices, keys, Function.comp_def]

theorem members_vertices (s : DataStore) (data : QueryResponseData) :
    (s.vertices data).map MemberConnections.member = data.active.map (⟨·, false⟩) ++
      (data.passive.filter fun primaryKey => !s.checkTopicPrimaryIgnored primaryKey).map (⟨·, true⟩) := by
  simp [vertices, Function.comp_def]

theorem connections_vertices : ∀ element ∈ s.vertices data, element.connections = [] := by
  intro element h
  obtain h | h := List.mem_append.mp h
  · obtain ⟨k, _, rfl⟩ := List.mem_map.mp h
    rfl
  · obtain ⟨k, _, rfl⟩ := List.mem_map.mp h
    rfl

end DataStore

/-! The tests of the loops are the ones for an ignored topic at either end. -/

namespace QueryResponseData.WellFormed
open GraphView

variable {s : DataStore} {data : QueryResponseData}

theorem not_passive (h : data.WellFormed) {k : PrimaryKey} (hk : k ∈ data.active) : k ∉ data.passive :=
  fun hp => (List.nodup_append.mp h.distinct).2.2 k hk k hp rfl

theorem sub_ignored (h : data.WellFormed) {edge : QueryEdge} (hedge : some edge ∈ data.sub) :
    s.checkTopicPrimaryIgnored edge.fromPrimaryKey = s.ignores data edge := by
  obtain ⟨hfrom, hto⟩ := h.sub edge hedge
  simp [DataStore.ignores, hfrom, h.not_passive hto]

theorem pub_ignored (h : data.WellFormed) {edge : QueryEdge} (hedge : some edge ∈ data.pub) :
    s.checkTopicPrimaryIgnored edge.toPrimaryKey = s.ignores data edge := by
  obtain ⟨hfrom, hto⟩ := h.pub edge hedge
  simp [DataStore.ignores, hto, h.not_passive hfrom]

theorem send_ignored (h : data.WellFormed) {edge : QueryEdge} (hedge : some edge ∈ data.send) :
    false = s.ignores data edge := by
  obtain ⟨hfrom, hto⟩ := h.send edge hedge
  simp [DataStore.ignores, h.not_passive hfrom, h.not_passive hto]

theorem nodup_vertices (h : data.WellFormed) (s : DataStore) : (s.vertices data).keys.Nodup := by
  rw [DataStore.keys_vertices]
  exact h.distinct.sublist (List.filter_sublist.append_left _)

/-- The loops add the edges that are not ignored. -/
theorem getFullGraphView_eq (h : data.WellFormed) (s : DataStore) : s.getFullGraphView data =
    some ((s.vertices data).extend fun k => targets (s.ignores data) false data.sub k ++
      targets (s.ignores data) true data.pub k ++ targets (s.ignores data) false data.send k) := by
  have hnd := h.nodup_vertices s
  have hactive : ∀ k ∈ data.active, k ∈ (s.vertices data).keys := by
    intro k hk
    rw [DataStore.keys_vertices]
    exact List.mem_append_left _ hk
  have hpassive : ∀ k ∈ data.passive, s.checkTopicPrimaryIgnored k = false → k ∈ (s.vertices data).keys := by
    intro k hk hkept
    rw [DataStore.keys_vertices]
    exact List.mem_append_right _ (List.mem_filter.mpr ⟨hk, by simp [hkept]⟩)
  have hsub : data.sub.foldlM s.addSub (s.vertices data) =
      some ((s.vertices data).extend (targets (s.ignores data) false data.sub)) := by
    rw [← targets_congr fun edge hedge => h.sub_ignored hedge]
    apply foldlM_addEdge data.sub hnd
    intro edge hedge hkept
    exact hpassive _ (h.sub edge hedge).1 hkept
  have hpub : ∀ added, data.pub.foldlM s.addPub ((s.vertices data).extend added) =
      some ((s.vertices data).extend fun k => added k ++ targets (s.ignores data) true data.pub k) := by
    intro added
    rw [← targets_congr fun edge hedge => h.pub_ignored hedge]
    apply foldlM_extend data.pub hnd
    intro edge hedge _
    exact hactive _ (h.pub edge hedge).1
  have hsend : ∀ added, data.send.foldlM DataStore.addSend ((s.vertices data).extend added) =
      some ((s.vertices data).extend fun k => added k ++ targets (s.ignores data) false data.send k) := by
    intro added
    rw [← targets_congr fun edge hedge => h.send_ignored hedge]
    apply foldlM_extend data.send hnd
    intro edge hedge _
    exact hactive _ (h.send edge hedge).1
  unfold DataStore.getFullGraphView
  rw [hsub, Option.bind_some, hpub, Option.bind_some, hsend]

/-- The target of an edge to a node has a vertex. -/
theorem node_target (h : data.WellFormed) {k : PrimaryKey} (hk : k ∈ data.active) :
    (false = true ↔ k ∈ data.passive) ∧ ⟨k, false⟩ ∈ (s.vertices data).map MemberConnections.member := by
  rw [DataStore.members_vertices]
  exact ⟨by simp [h.not_passive hk], List.mem_append_left _ (List.mem_map_of_mem hk)⟩

/-- The target of an edge to a topic has a vertex, unless the edge is ignored. -/
theorem topic_target {edge : QueryEdge} (hto : edge.toPrimaryKey ∈ data.passive)
    (hkept : s.ignores data edge = false) : (true = true ↔ edge.toPrimaryKey ∈ data.passive) ∧
      ⟨edge.toPrimaryKey, true⟩ ∈ (s.vertices data).map MemberConnections.member := by
  have htest : s.checkTopicPrimaryIgnored edge.toPrimaryKey = false := by
    simp only [DataStore.ignores, Bool.or_eq_false_iff] at hkept
    simpa [hto] using hkept.2
  rw [DataStore.members_vertices]
  refine ⟨by simp [hto], List.mem_append_right _ ?_⟩
  exact List.mem_map_of_mem (List.mem_filter.mpr ⟨hto, by simp [htest]⟩)

/-- The target of an edge that is added has a vertex, and the flag of a topic if it is one. -/
theorem added_target (h : data.WellFormed) {k : PrimaryKey} {c : MemberProxy}
    (hc : c ∈ targets (s.ignores data) false data.sub k ++ targets (s.ignores data) true data.pub k ++
      targets (s.ignores data) false data.send k) :
    (c.mIsTopic = true ↔ c.mPrimaryKey ∈ data.passive) ∧
      c ∈ (s.vertices data).map MemberConnections.member := by
  obtain hc | hc := List.mem_append.mp hc
  · obtain hc | hc := List.mem_append.mp hc
    · obtain ⟨edge, hedge, _, _, rfl⟩ := mem_targets.mp hc
      exact h.node_target (h.sub edge hedge).2
    · obtain ⟨edge, hedge, hkept, _, rfl⟩ := mem_targets.mp hc
      exact topic_target (h.pub edge hedge).2 hkept
  · obtain ⟨edge, hedge, _, _, rfl⟩ := mem_targets.mp hc
    exact h.node_target (h.send edge hedge).2

/-- The keys of the view are distinct and no connection leaves it, as the results about `getBlindspots`
    ask for. -/
theorem closed (h : data.WellFormed) {view : GraphView} (hview : s.getFullGraphView data = some view) :
    view.keys.Nodup ∧ ∀ v ∈ view, ∀ c ∈ v.connections, c.mPrimaryKey ∈ view.keys := by
  rw [h.getFullGraphView_eq s, Option.some.injEq] at hview
  subst hview
  refine ⟨?_, fun v hv c hc => ?_⟩
  · rw [keys_extend]
    exact h.nodup_vertices s
  · rw [connections_extend DataStore.connections_vertices hv] at hc
    obtain ⟨element, helement, rfl⟩ := List.mem_map.mp (h.added_target hc).2
    rw [keys_extend]
    exact mem_keys helement

end QueryResponseData.WellFormed

open GraphView in
/-- The view has a vertex for every node and every topic that is not ignored, with the edges that start
    there and touch no ignored topic, in the order of the lists; each of them leads to a vertex. -/
theorem getFullGraphView_spec (s : DataStore) (data : QueryResponseData) (wellFormed : data.WellFormed) :
    ∃ view, s.getFullGraphView data = some view ∧
      view.map MemberConnections.member = data.active.map (⟨·, false⟩) ++
        (data.passive.filter fun primaryKey => !s.checkTopicPrimaryIgnored primaryKey).map (⟨·, true⟩) ∧
      (∀ v ∈ view, v.connections = targets (s.ignores data) false data.sub v.member.mPrimaryKey ++
        targets (s.ignores data) true data.pub v.member.mPrimaryKey ++
        targets (s.ignores data) false data.send v.member.mPrimaryKey) ∧
      ∀ v ∈ view, ∀ c ∈ v.connections, (c.mIsTopic = true ↔ c.mPrimaryKey ∈ data.passive) ∧
        ∃ w ∈ view, w.member = c := by
  refine ⟨_, wellFormed.getFullGraphView_eq s, ?_, fun v hv => ?_, fun v hv c hc => ?_⟩
  · rw [members_extend, DataStore.members_vertices]
  · exact connections_extend DataStore.connections_vertices hv
  · rw [connections_extend DataStore.connections_vertices hv] at hc
    obtain ⟨hflag, hin⟩ := wellFormed.added_target hc
    rw [← members_extend] at hin
    exact ⟨hflag, List.mem_map.mp hin⟩

/-- A node that publishes to a topic and to an ignored one, and another that the topic leads to. -/
def exampleQuery : QueryResponseData where
  active := ["publisher", "subscriber"]
  passive := ["rosout", "topic"]
  sub := [none, some ⟨"topic", "subscriber"⟩]
  pub := [some ⟨"publisher", "rosout"⟩, some ⟨"publisher", "topic"⟩]
  send := [none]

theorem wellFormed_query : exampleQuery.WellFormed := by
  refine ⟨by decide, ?_, ?_, ?_⟩
  · intro edge hedge
    have hin : edge = ⟨"topic", "subscriber"⟩ := by simpa [exampleQuery] using hedge
    subst hin
    decide
  · intro edge hedge
    have hin : edge = ⟨"publisher", "rosout"⟩ ∨ edge = ⟨"publisher", "topic"⟩ := by
      simpa [exampleQuery] using hedge
    obtain rfl | rfl := hin
    · decide
    · decide
  · intro edge hedge
    simp [exampleQuery] at hedge

theorem getFullGraphView_query : ∃ view,
    (DataStore.new "parameter_events" "rosout").getFullGraphView exampleQuery = some view ∧
      ∀ v ∈ view, ∀ c ∈ v.connections, ∃ w ∈ view, w.member = c := by
  obtain ⟨view, heq, _, _, hclosed⟩ := getFullGraphView_spec (DataStore.new "parameter_events" "rosout")
    exampleQuery wellFormed_query
  exact ⟨view, heq, fun v hv c hc => (hclosed v hv c hc).2⟩

end StreamFdl
