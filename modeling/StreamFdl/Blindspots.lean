import StreamFdl.Base.DepthFirst
import StreamFdl.DataStore

/- `getBlindspots`: the members to monitor so that no part of the communication
   graph is left without one downstream. It is a depth-first search that takes the
   vertices it visits out of the view, and it reports a vertex without
   connections, or with a single one that closes the current path.

   The search visits every vertex, on the first simple path to it (`DepthFirst`),
   so what is reported is known without running it. A part of the graph that
   nothing leaves and that goes in circles is reported only if one of its vertices
   has a single connection and that leads back to the vertex's own path. -/
namespace StreamFdl
open DepthFirst

/-- A potential blind spot. -/
def isBlindspot (currentMember : MemberConnections) (currentPath : MemberProxies) : Bool :=
  let nrOutgoingEdges := currentMember.connections.length
  nrOutgoingEdges == 0 || (nrOutgoingEdges == 1 &&
    currentMember.connections.head?.any fun front => currentPath.any fun member => member.eq front)

/-- One pass of the loop over the connections: search the vertex, unless it was visited already. -/
def investigate (search : GraphView → MemberConnections → MemberProxies → Option (GraphView × MemberProxies))
    (s : GraphView × MemberProxies) (outgoingEdgeTo : MemberProxy) : Option (GraphView × MemberProxies) :=
  match s.1.find? fun member => member.member.eq outgoingEdgeTo with
  | none => some s
  | some vertex => search (s.1.eraseP fun member => member.member.eq outgoingEdgeTo) vertex s.2

/-- With fuel for the depth of the search; returns what is left of the graph, and the blind spots. -/
def getBlindspotsInternal : Nat → GraphView → MemberConnections → MemberProxies → MemberProxies →
    Option (GraphView × MemberProxies)
  | 0, _, _, _, _ => none
  | n+1, graph, currentMember, currentPath, oBlindSpots =>
    if isBlindspot currentMember currentPath then some (graph, oBlindSpots ++ [currentMember.member])
    else
      let currentPath := currentPath ++ [currentMember.member]
      currentMember.connections.foldlM
        (investigate fun graph vertex => getBlindspotsInternal n graph vertex currentPath) (graph, oBlindSpots)

/-- The loop of `getBlindspots`, with fuel for its iterations. -/
def getBlindspotsFrom : Nat → GraphView → MemberProxies → Option MemberProxies
  | 0, _, _ => none
  | n+1, graph, blindspots =>
    match graph.getLast? with
    | none => some blindspots
    | some vertex => (getBlindspotsInternal graph.length graph.dropLast vertex [] blindspots).bind
      fun s => getBlindspotsFrom n s.1 s.2

def getBlindspots (graph : GraphView) : Option MemberProxies :=
  getBlindspotsFrom (graph.length + 1) graph []

/-! The graph of a view. -/

namespace GraphView

def keys (view : GraphView) : List PrimaryKey := view.map fun v => v.member.mPrimaryKey

def vertex? (view : GraphView) (k : PrimaryKey) : Option MemberConnections :=
  view.find? fun v => v.member.mPrimaryKey == k

/-- Where the connections of a vertex lead. -/
def next (view : GraphView) (k : PrimaryKey) : List PrimaryKey :=
  ((view.vertex? k).map fun v => v.connections.map MemberProxy.mPrimaryKey).getD []

/-- The first simple path to a vertex, from the last vertex of the view on. -/
def searchPath (view : GraphView) (k : PrimaryKey) : Option (List PrimaryKey) :=
  firstPath view.next view.length view.keys.reverse k

/-- The vertex has a single connection, and that leads to a vertex before it on its search path. -/
def ClosesPath (view : GraphView) (v : MemberConnections) : Prop :=
  ∃ front path, v.connections = [front] ∧ view.searchPath v.member.mPrimaryKey = some path ∧
    front.mPrimaryKey ∈ path.dropLast

/-- Every vertex has a path to one that is reported. -/
def Covered (view : GraphView) : Prop :=
  ∃ blindspots, getBlindspots view = some blindspots ∧
    ∀ v ∈ view, ∃ b ∈ blindspots, Reaches view.next v.member.mPrimaryKey b.mPrimaryKey

variable {view : GraphView} {v : MemberConnections} {k : PrimaryKey}

theorem mem_keys (h : v ∈ view) : v.member.mPrimaryKey ∈ view.keys := List.mem_map_of_mem h

theorem vertex?_of_mem (hnd : view.keys.Nodup) (h : v ∈ view) :
    view.vertex? v.member.mPrimaryKey = some v := by
  induction view with
  | nil => cases h
  | cons w view ih =>
    obtain ⟨hw, hnd⟩ := List.nodup_cons.mp hnd
    unfold vertex?
    obtain rfl | h := List.mem_cons.mp h
    · rw [List.find?_cons_of_pos]
      exact beq_self_eq_true _
    · rw [List.find?_cons_of_neg]
      · exact ih hnd h
      · intro heq
        apply hw
        show w.member.mPrimaryKey ∈ keys view
        rw [beq_iff_eq.mp heq]
        exact mem_keys h

theorem next_of_mem (hnd : view.keys.Nodup) (h : v ∈ view) :
    view.next v.member.mPrimaryKey = v.connections.map MemberProxy.mPrimaryKey := by
  unfold next
  rw [vertex?_of_mem hnd h]
  rfl

theorem next_of_not_mem (h : k ∉ view.keys) : view.next k = [] := by
  have hnone : view.vertex? k = none := by
    unfold vertex?
    rw [List.find?_eq_none]
    intro v hv heq
    exact h (beq_iff_eq.mp heq ▸ mem_keys hv)
  unfold next
  rw [hnone]
  rfl

theorem keys_eraseP (graph : GraphView) (c : MemberProxy) :
    keys (graph.eraseP fun member => member.member.eq c) = (keys graph).erase c.mPrimaryKey := by
  induction graph with
  | nil => rfl
  | cons w graph ih =>
    by_cases hw : w.member.mPrimaryKey = c.mPrimaryKey
    · simp [keys, MemberProxy.eq, hw]
    · rw [List.eraseP_cons_of_neg (by simpa using hw)]
      show w.member.mPrimaryKey :: keys _ = (w.member.mPrimaryKey :: keys graph).erase c.mPrimaryKey
      rw [List.erase_cons_tail (by simpa using hw), ih]

theorem find_none {graph : GraphView} {c : MemberProxy}
    (h : graph.find? (fun member => member.member.eq c) = none) : c.mPrimaryKey ∉ keys graph := by
  intro hin
  obtain ⟨w, hw, hkey⟩ := List.mem_map.mp hin
  exact List.find?_eq_none.mp h w hw ((MemberProxy.eq_iff _ _).mpr hkey)

/-! The search of the code is the one of the library. -/

/-- `isBlindspot`, by keys. -/
def blind (v : MemberConnections) (path : List PrimaryKey) : Bool :=
  v.connections.length == 0 ||
    (v.connections.length == 1 && v.connections.head?.any fun front => path.any (· == front.mPrimaryKey))

/-- What is reported of the logged visits. -/
def reports (view : GraphView) (log : List (PrimaryKey × List PrimaryKey)) : MemberProxies :=
  log.filterMap fun e => (view.vertex? e.1).bind fun v => if blind v e.2 then some v.member else none

abbrev proxyKeys (path : MemberProxies) : List PrimaryKey := path.map MemberProxy.mPrimaryKey

theorem isBlindspot_eq (v : MemberConnections) (path : MemberProxies) :
    isBlindspot v path = blind v (proxyKeys path) := by
  simp only [isBlindspot, blind, MemberProxy.eq, List.any_map, Function.comp_def]

/-- A search below a vertex that is given `n` fuel. -/
def Searches (view : GraphView) (n : Nat) : Prop :=
  ∀ (graph : GraphView) (v : MemberConnections) (path out : MemberProxies), graph.Sublist view → v ∈ view →
    graph.length < n → (∀ k ∈ keys graph, k ∉ proxyKeys (path ++ [v.member])) →
    ∃ graph' log, graph'.Sublist graph ∧
      getBlindspotsInternal n graph v path out =
        some (graph', out ++ reports view ((v.member.mPrimaryKey, proxyKeys path) :: log)) ∧
      Explore view.next (keys graph) (proxyKeys (path ++ [v.member])) (view.next v.member.mPrimaryKey)
        (keys graph') log

theorem reports_cons_append (e : PrimaryKey × List PrimaryKey) (log₁ log₂ : List (PrimaryKey × List PrimaryKey)) :
    reports view (e :: (log₁ ++ log₂)) = reports view (e :: log₁) ++ reports view log₂ := by
  unfold reports
  rw [← List.cons_append, List.filterMap_append]

theorem reports_visit (hnd : view.keys.Nodup) (hv : v ∈ view) (path : MemberProxies) :
    reports view [(v.member.mPrimaryKey, proxyKeys path)] =
      if isBlindspot v path = true then [v.member] else [] := by
  rw [isBlindspot_eq]
  cases hb : blind v (proxyKeys path) with
  | true => simp [reports, vertex?_of_mem hnd hv, hb]
  | false => simp [reports, vertex?_of_mem hnd hv, hb]

theorem explore_visited {next : PrimaryKey → List PrimaryKey} {white path ys : List PrimaryKey}
    (h : ∀ y ∈ ys, y ∉ white) : Explore next white path ys white [] := by
  induction ys with
  | nil => exact .done
  | cons y ys ih => exact .seen (h y List.mem_cons_self) (ih fun z hz => h z (List.mem_cons_of_mem _ hz))

/-- The connection that closes a path leads to a visited vertex. -/
theorem blind_next (hnd : view.keys.Nodup) {path : MemberProxies} {white : List PrimaryKey} (hv : v ∈ view)
    (hblind : isBlindspot v path = true) (hdis : ∀ k ∈ white, k ∉ proxyKeys (path ++ [v.member])) :
    ∀ y ∈ view.next v.member.mPrimaryKey, y ∉ white := by
  rw [next_of_mem hnd hv]
  intro y hy hin
  obtain ⟨c, hc, rfl⟩ := List.mem_map.mp hy
  unfold isBlindspot at hblind
  cases hconn : v.connections with
  | nil =>
    rw [hconn] at hc
    cases hc
  | cons front rest =>
    rw [hconn] at hc hblind
    cases rest with
    | nil =>
      simp only [List.length_cons, List.length_nil, List.head?_cons, Option.any_some] at hblind
      obtain ⟨m, hm, heq⟩ := List.any_eq_true.mp hblind
      rw [List.mem_singleton.mp hc] at hin
      apply hdis _ hin
      rw [← (MemberProxy.eq_iff _ _).mp heq]
      exact List.mem_map_of_mem (List.mem_append_left _ hm)
    | cons second rest => simp at hblind

/-- The loop over the connections of a vertex, given the searches below it. -/
theorem Searches.loop {n : Nat} (hnd : view.keys.Nodup) (h : view.Searches n) {path : MemberProxies}
    (connections : MemberProxies) (graph : GraphView) (out : MemberProxies) (hsub : graph.Sublist view)
    (hn : graph.length ≤ n) (hdis : ∀ k ∈ keys graph, k ∉ proxyKeys path) :
    ∃ graph' log, graph'.Sublist graph ∧
      connections.foldlM (investigate fun graph vertex => getBlindspotsInternal n graph vertex path)
        (graph, out) = some (graph', out ++ reports view log) ∧
      Explore view.next (keys graph) (proxyKeys path) (proxyKeys connections) (keys graph') log := by
  induction connections generalizing graph out with
  | nil => exact ⟨graph, [], List.Sublist.refl _, by simp [reports], .done⟩
  | cons c connections ih =>
    rw [List.foldlM_cons]
    cases hfind : graph.find? fun member => member.member.eq c with
    | none =>
      obtain ⟨graph', log, hsub', heq, hexplore⟩ := ih graph out hsub hn hdis
      refine ⟨graph', log, hsub', ?_, .seen (find_none hfind) hexplore⟩
      simp only [investigate, hfind]
      exact heq
    | some vertex =>
      have hfound := List.find?_some hfind
      have hkey : vertex.member.mPrimaryKey = c.mPrimaryKey := (MemberProxy.eq_iff _ _).mp hfound
      have hin : vertex ∈ graph := List.mem_of_find?_eq_some hfind
      have hgnd : (keys graph).Nodup := hnd.sublist (hsub.map _)
      have hlen : (graph.eraseP fun member => member.member.eq c).length < n := by
        rw [List.length_eraseP_of_mem hin hfound]
        have := List.length_pos_of_mem hin
        omega
      -- the vertex leaves the view as it joins the path
      have hdis' : ∀ k ∈ keys (graph.eraseP fun member => member.member.eq c),
          k ∉ proxyKeys (path ++ [vertex.member]) := by
        intro k hk hp
        rw [keys_eraseP] at hk
        rw [proxyKeys, List.map_append] at hp
        obtain hp | hp := List.mem_append.mp hp
        · exact hdis k (List.mem_of_mem_erase hk) hp
        · rw [List.mem_singleton.mp hp, hkey] at hk
          exact hgnd.not_mem_erase hk
      obtain ⟨graph₁, log₁, hsub₁, heq₁, hbelow⟩ := h _ vertex path out
        (List.eraseP_sublist.trans hsub) (hsub.subset hin) hlen hdis'
      have hsub₁' : graph₁.Sublist graph := hsub₁.trans List.eraseP_sublist
      obtain ⟨graph₂, log₂, hsub₂, heq₂, hrest⟩ := ih graph₁
        (out ++ reports view ((vertex.member.mPrimaryKey, proxyKeys path) :: log₁)) (hsub₁'.trans hsub)
        (Nat.le_trans hsub₁'.length_le hn) (fun k hk => hdis k ((hsub₁'.map _).subset hk))
      have hvisit : Explore view.next (keys graph) (proxyKeys path) (proxyKeys (c :: connections))
          (keys graph₂) ((vertex.member.mPrimaryKey, proxyKeys path) :: (log₁ ++ log₂)) := by
        rw [keys_eraseP, proxyKeys, List.map_append, ← hkey] at hbelow
        show Explore _ _ _ (c.mPrimaryKey :: proxyKeys connections) _ _
        rw [← hkey]
        exact .visit (mem_keys hin) hbelow hrest
      refine ⟨graph₂, _, hsub₂.trans hsub₁', ?_, hvisit⟩
      simp only [investigate, hfind]
      rw [heq₁, reports_cons_append, ← List.append_assoc]
      exact heq₂

theorem searches (hnd : view.keys.Nodup) (n : Nat) : view.Searches n := by
  induction n with
  | zero =>
    intro graph v path out _ _ hn
    exact absurd hn (Nat.not_lt_zero _)
  | succ n ih =>
    intro graph v path out hsub hv hn hdis
    unfold getBlindspotsInternal
    have hreport := reports_visit hnd hv path
    by_cases hblind : isBlindspot v path = true
    -- a reported vertex is not searched below, where there is nothing unvisited anyway
    · refine ⟨graph, [], List.Sublist.refl _, ?_, explore_visited (blind_next hnd hv hblind hdis)⟩
      rw [if_pos hblind, hreport, if_pos hblind]
    · obtain ⟨graph', log, hsub', heq, hexplore⟩ := ih.loop hnd v.connections graph out hsub
        (Nat.le_of_lt_succ hn) hdis
      refine ⟨graph', log, hsub', ?_, ?_⟩
      · rw [if_neg hblind, heq]
        have hcons : reports view ((v.member.mPrimaryKey, proxyKeys path) :: log) = reports view log := by
          have happ : reports view ((v.member.mPrimaryKey, proxyKeys path) :: ([] ++ log)) = _ :=
            reports_cons_append _ [] log
          rw [hreport, if_neg hblind] at happ
          exact happ
        rw [hcons]
      · rw [next_of_mem hnd hv]
        exact hexplore

/-- `getBlindspots` visits what is left of the view, from the back. -/
theorem getBlindspotsFrom_eq (hnd : view.keys.Nodup) (n : Nat) (graph : GraphView) (out : MemberProxies)
    (hsub : graph.Sublist view) (hn : graph.length < n) :
    ∃ white' log, getBlindspotsFrom n graph out = some (out ++ reports view log) ∧
      Explore view.next (keys graph) [] (keys graph).reverse white' log := by
  induction n generalizing graph out with
  | zero => exact absurd hn (Nat.not_lt_zero _)
  | succ n ih =>
    unfold getBlindspotsFrom
    obtain rfl | ⟨front, vertex, rfl⟩ := List.eq_nil_or_concat' graph
    · exact ⟨[], [], by simp [reports], .done⟩
    · have hgnd : (keys (front ++ [vertex])).Nodup := hnd.sublist (hsub.map _)
      have hkeys : keys (front ++ [vertex]) = keys front ++ [vertex.member.mPrimaryKey] := List.map_append
      have hfront : front.Sublist view := (List.sublist_append_left _ _).trans hsub
      have hv : vertex ∈ view := hsub.subset (List.mem_append_right _ (List.mem_singleton_self _))
      rw [hkeys] at hgnd
      obtain ⟨hfnd, _, hdis⟩ := List.nodup_append.mp hgnd
      have hout : vertex.member.mPrimaryKey ∉ keys front :=
        fun hin => hdis _ hin _ (List.mem_singleton_self _) rfl
      have hlen : (front ++ [vertex]).length = front.length + 1 := List.length_append
      obtain ⟨graph₁, log₁, hsub₁, heq₁, hbelow⟩ := searches hnd (front ++ [vertex]).length front vertex [] out
        hfront hv (hlen ▸ Nat.lt_succ_self _)
        (fun k hk hp => hout (List.mem_singleton.mp hp ▸ hk))
      have hn₁ : graph₁.length < n := by
        have := hsub₁.length_le
        omega
      obtain ⟨white', log₂, heq₂, hrest⟩ := ih graph₁
        (out ++ reports view ((vertex.member.mPrimaryKey, []) :: log₁)) (hsub₁.trans hfront) hn₁
      refine ⟨white', (vertex.member.mPrimaryKey, []) :: (log₁ ++ log₂), ?_, ?_⟩
      · rw [List.getLast?_concat, List.dropLast_concat]
        simp only
        rw [heq₁, Option.bind_some, reports_cons_append, ← List.append_assoc]
        exact heq₂
      · have herase : (keys (front ++ [vertex])).erase vertex.member.mPrimaryKey = keys front := by
          rw [hkeys, List.erase_append_right _ hout, List.erase_cons_head, List.append_nil]
        -- the vertices visited below are still among the starts
        have hstarts : Explore view.next (keys graph₁) [] (keys front).reverse white' log₂ := by
          refine hrest.extend (List.reverse_sublist.mpr (hsub₁.map _)) (List.nodup_reverse.mpr hfnd) ?_
          intro z _ hz
          exact List.mem_reverse.mpr hz
        rw [← herase] at hbelow
        rw [hkeys, List.reverse_append] at *
        exact .visit (List.mem_append_right _ (List.mem_singleton_self _)) hbelow hstarts

/-- The blind spots of a view: what is to be reported of the visits that a search from its last
    vertex on makes. -/
theorem getBlindspots_eq (hnd : view.keys.Nodup) : ∃ white' log,
    getBlindspots view = some (reports view log) ∧
      Explore view.next view.keys [] view.keys.reverse white' log := by
  obtain ⟨white', log, heq, hexplore⟩ := getBlindspotsFrom_eq hnd (view.length + 1) view []
    (List.Sublist.refl _) (Nat.lt_succ_self _)
  exact ⟨white', log, heq, hexplore⟩

/-! What is reported. -/

theorem blind_iff {path : List PrimaryKey} : blind v path = true ↔
    v.connections = [] ∨ ∃ front, v.connections = [front] ∧ front.mPrimaryKey ∈ path := by
  unfold blind
  cases v.connections with
  | nil => simp
  | cons front rest =>
    cases rest with
    | nil => simp
    | cons second rest => simp

/-- A vertex is reported when it has no connection, or a single one that closes its search path. -/
theorem mem_reports_iff {white' : List PrimaryKey} {log : List (PrimaryKey × List PrimaryKey)}
    (hnd : view.keys.Nodup) (h : Explore view.next view.keys [] view.keys.reverse white' log)
    (b : MemberProxy) : b ∈ reports view log ↔
      ∃ v ∈ view, v.member = b ∧ (v.connections = [] ∨ view.ClosesPath v) := by
  have hlength : view.length = view.keys.length := (List.length_map _).symm
  -- the logged path of a vertex is its search path, without the vertex
  have hlog : ∀ v ∈ view, ∀ q, (v.member.mPrimaryKey, q) ∈ log ↔
      view.searchPath v.member.mPrimaryKey = some (q ++ [v.member.mPrimaryKey]) := by
    intro v hv q
    unfold searchPath
    rw [hlength]
    exact h.mem_log_iff hnd (fun k hk => List.mem_reverse.mpr hk) (fun k hk => next_of_not_mem hk)
      (mem_keys hv)
  unfold reports
  rw [List.mem_filterMap]
  constructor
  · intro ⟨⟨k, q⟩, hin, hb⟩
    obtain ⟨v, hfind, hb⟩ := Option.bind_eq_some_iff.mp hb
    have hv : v ∈ view := List.mem_of_find?_eq_some hfind
    have hkey := List.find?_some hfind
    rw [beq_iff_eq] at hkey
    subst hkey
    split at hb
    · next hblind =>
      cases hb
      refine ⟨v, hv, rfl, ?_⟩
      obtain hnil | ⟨front, hfront, hpath⟩ := blind_iff.mp hblind
      · exact Or.inl hnil
      · exact Or.inr ⟨front, _, hfront, (hlog v hv q).mp hin, by rwa [List.dropLast_concat]⟩
    · cases hb
  · intro ⟨v, hv, hb, hspot⟩
    have hlogged : ∃ q, (v.member.mPrimaryKey, q) ∈ log :=
      h.logged (mem_keys hv) (h.starts hnd _ (List.mem_reverse.mpr (mem_keys hv)))
    obtain ⟨q, hq⟩ := hlogged
    refine ⟨_, hq, ?_⟩
    have hblind : blind v q = true := by
      rw [blind_iff]
      obtain hnil | ⟨front, path, hfront, hpath, hmem⟩ := hspot
      · exact Or.inl hnil
      · rw [(hlog v hv q).mp hq] at hpath
        cases hpath
        rw [List.dropLast_concat] at hmem
        exact Or.inr ⟨front, hfront, hmem⟩
    rw [vertex?_of_mem hnd hv, Option.bind_some, if_pos hblind, hb]

end GraphView

/-- Every vertex of a closed view has a path to a reported one exactly when each vertex with
    connections that all it reaches leads back to reaches a vertex whose single connection closes the
    search path of that vertex. -/
theorem covered_iff (view : GraphView) (distinct : view.keys.Nodup)
    (closed : ∀ v ∈ view, ∀ c ∈ v.connections, c.mPrimaryKey ∈ view.keys) :
    view.Covered ↔ ∀ v ∈ view, v.connections ≠ [] → Terminal view.next v.member.mPrimaryKey →
      ∃ w ∈ view, Reaches view.next v.member.mPrimaryKey w.member.mPrimaryKey ∧ view.ClosesPath w := by
  obtain ⟨white', log, heq, hexplore⟩ := GraphView.getBlindspots_eq distinct
  have hreports := GraphView.mem_reports_iff distinct hexplore
  have hclosed : ∀ a ∈ view.keys, ∀ b ∈ view.next a, b ∈ view.keys := by
    intro a ha b hb
    obtain ⟨v, hv, rfl⟩ := List.mem_map.mp ha
    rw [GraphView.next_of_mem distinct hv] at hb
    obtain ⟨c, hc, rfl⟩ := List.mem_map.mp hb
    exact closed v hv c hc
  constructor
  · intro ⟨blindspots, hspots, hcovered⟩ v hv hne hterminal
    rw [heq] at hspots
    cases hspots
    obtain ⟨b, hb, hreach⟩ := hcovered v hv
    obtain ⟨w, hw, rfl, hnil | hcloses⟩ := (hreports b).mp hb
    -- a vertex without connections only leads back to itself
    · obtain hsame | ⟨c, hstep, _⟩ := Relation.ReflTransGen.cases_head (hterminal _ hreach)
      · have hvw : v = w := by
          have hv' := GraphView.vertex?_of_mem distinct hv
          rw [← hsame, GraphView.vertex?_of_mem distinct hw] at hv'
          exact (Option.some.inj hv').symm
        exact absurd (hvw ▸ hnil) hne
      · rw [GraphView.next_of_mem distinct hw, hnil] at hstep
        cases hstep
    · exact ⟨w, hw, hreach, hcloses⟩
  · intro h
    refine ⟨_, heq, fun v hv => ?_⟩
    obtain ⟨t, ht, hreach, hterminal⟩ := exists_terminal hclosed (GraphView.mem_keys hv)
    obtain ⟨w, hw, rfl⟩ := List.mem_map.mp ht
    by_cases hnil : w.connections = []
    · exact ⟨w.member, (hreports _).mpr ⟨w, hw, rfl, Or.inl hnil⟩, hreach⟩
    · obtain ⟨u, hu, hwu, hcloses⟩ := h w hw hnil hterminal
      exact ⟨u.member, (hreports _).mpr ⟨u, hu, rfl, Or.inr hcloses⟩, hreach.trans hwu⟩

/-- Two nodes that send to each other; the search starts at "b". -/
def exampleRing : GraphView := [⟨⟨"a", false⟩, [⟨"b", false⟩]⟩, ⟨⟨"b", false⟩, [⟨"a", false⟩]⟩]

theorem covered_ring : exampleRing.Covered := by
  have hcloses : exampleRing.ClosesPath ⟨⟨"a", false⟩, [⟨"b", false⟩]⟩ :=
    ⟨⟨"b", false⟩, ["b", "a"], rfl, by decide, by decide⟩
  refine (covered_iff exampleRing (by decide) (by decide)).mpr fun v hv _ _ => ?_
  refine ⟨_, List.mem_cons_self, ?_, hcloses⟩
  obtain rfl | hv := List.mem_cons.mp hv
  · exact Relation.ReflTransGen.refl
  · rw [List.mem_singleton.mp hv]
    exact Relation.ReflTransGen.single (by decide)

/-- A node that sends to itself. -/
def exampleSelfLoop : GraphView := [⟨⟨"a", false⟩, [⟨"a", false⟩]⟩]

/-- Its only connection leads to itself, and it is not on its own path yet. -/
theorem not_covered_selfLoop : exampleSelfLoop.keys.Nodup ∧
    (∀ v ∈ exampleSelfLoop, ∀ c ∈ v.connections, c.mPrimaryKey ∈ exampleSelfLoop.keys) ∧
    ¬ exampleSelfLoop.Covered := by
  refine ⟨by decide, by decide, ?_⟩
  intro ⟨blindspots, hspots, hcovered⟩
  have hnil : getBlindspots exampleSelfLoop = some [] := by decide
  rw [hnil] at hspots
  cases hspots
  obtain ⟨b, hb, _⟩ := hcovered _ List.mem_cons_self
  cases hb

end StreamFdl
