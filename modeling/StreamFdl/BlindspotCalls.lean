import StreamFdl.Blindspots
import Mathlib.Data.List.Perm.Subperm

/- The calls of `getBlindspotsInternal`: the search with a log of the vertices and
   paths it is entered with.

   A vertex leaves the graph when it is called, so whatever the connections of a
   view are, each of its vertices is called once and the search comes to an end.
   The path of a call is a path of the graph, which is why a vertex whose only
   connection closes it lies on a cycle. -/
namespace StreamFdl
open DepthFirst

/-- The vertex has a connection to the other one. -/
def MemberConnections.LeadsTo (v w : MemberConnections) : Prop := ∃ c ∈ v.connections, w.member.eq c = true

/-- The vertex lies on a cycle of the view of at least two vertices. -/
def GraphView.OnCycle (view : GraphView) (v : MemberConnections) : Prop :=
  ∃ cycle, Cycle MemberConnections.LeadsTo cycle ∧ cycle ⊆ view ∧ v ∈ cycle ∧ 2 ≤ cycle.length

/-- What `getBlindspotsInternal` is entered with. -/
structure SearchCall where
  currentMember : MemberConnections
  currentPath : MemberProxies
  deriving DecidableEq, Repr

/-- `investigate`, with the log of calls. -/
def investigateLogged (search : GraphView → MemberConnections → MemberProxies → List SearchCall →
      Option (GraphView × MemberProxies × List SearchCall))
    (s : GraphView × MemberProxies × List SearchCall) (outgoingEdgeTo : MemberProxy) :
    Option (GraphView × MemberProxies × List SearchCall) :=
  match s.1.find? fun member => member.member.eq outgoingEdgeTo with
  | none => some s
  | some vertex => search (s.1.eraseP fun member => member.member.eq outgoingEdgeTo) vertex s.2.1 s.2.2

/-- `getBlindspotsInternal`, with the log of calls. -/
def getBlindspotsInternalLogged : Nat → GraphView → MemberConnections → MemberProxies → MemberProxies →
    List SearchCall → Option (GraphView × MemberProxies × List SearchCall)
  | 0, _, _, _, _, _ => none
  | n+1, graph, currentMember, currentPath, oBlindSpots, calls =>
    let calls := calls ++ [⟨currentMember, currentPath⟩]
    if isBlindspot currentMember currentPath then
      some (graph, oBlindSpots ++ [currentMember.member], calls)
    else
      let currentPath := currentPath ++ [currentMember.member]
      currentMember.connections.foldlM (investigateLogged fun graph vertex =>
        getBlindspotsInternalLogged n graph vertex currentPath) (graph, oBlindSpots, calls)

/-- The loop of `getBlindspots`, with the log of calls. -/
def getBlindspotsFromLogged : Nat → GraphView → MemberProxies → List SearchCall → Option (MemberProxies × List SearchCall)
  | 0, _, _, _ => none
  | n+1, graph, blindspots, calls =>
    match graph.getLast? with
    | none => some (blindspots, calls)
    | some vertex => (getBlindspotsInternalLogged graph.length graph.dropLast vertex [] blindspots calls).bind
      fun s => getBlindspotsFromLogged n s.1 s.2.1 s.2.2

/-- `getBlindspots`, and the calls it makes. -/
def getBlindspotsLogged (graph : GraphView) : Option (MemberProxies × List SearchCall) :=
  getBlindspotsFromLogged (graph.length + 1) graph [] []

/-! Without its log it is the search of the code. -/

/-- Drop the log. -/
def unlogged (s : GraphView × MemberProxies × List SearchCall) : GraphView × MemberProxies := (s.1, s.2.1)

theorem foldlM_unlogged
    {logged : GraphView → MemberConnections → MemberProxies → List SearchCall →
      Option (GraphView × MemberProxies × List SearchCall)}
    {search : GraphView → MemberConnections → MemberProxies → Option (GraphView × MemberProxies)}
    (h : ∀ graph v out calls, (logged graph v out calls).map unlogged = search graph v out)
    (connections : MemberProxies) (s : GraphView × MemberProxies × List SearchCall) :
    (connections.foldlM (investigateLogged logged) s).map unlogged =
      connections.foldlM (investigate search) (unlogged s) := by
  induction connections generalizing s with
  | nil => rfl
  | cons c connections ih =>
    have hstep : (investigateLogged logged s c).map unlogged = investigate search (unlogged s) c := by
      unfold investigateLogged investigate unlogged
      cases s.1.find? fun member => member.member.eq c with
      | none => rfl
      | some vertex => exact h _ vertex s.2.1 s.2.2
    rw [List.foldlM_cons, List.foldlM_cons, ← hstep]
    cases investigateLogged logged s c with
    | none => rfl
    | some s' => exact ih s'

theorem internal_unlogged (n : Nat) (graph : GraphView) (v : MemberConnections) (path out : MemberProxies)
    (calls : List SearchCall) : (getBlindspotsInternalLogged n graph v path out calls).map unlogged =
      getBlindspotsInternal n graph v path out := by
  induction n generalizing graph v path out calls with
  | zero => rfl
  | succ n ih =>
    unfold getBlindspotsInternalLogged getBlindspotsInternal
    split
    · rfl
    · exact foldlM_unlogged (fun graph v out calls => ih graph v _ out calls) _ _

theorem from_unlogged (n : Nat) (graph : GraphView) (out : MemberProxies) (calls : List SearchCall) :
    (getBlindspotsFromLogged n graph out calls).map Prod.fst = getBlindspotsFrom n graph out := by
  induction n generalizing graph out calls with
  | zero => rfl
  | succ n ih =>
    unfold getBlindspotsFromLogged getBlindspotsFrom
    cases graph.getLast? with
    | none => rfl
    | some vertex =>
      simp only
      rw [← internal_unlogged _ _ _ _ _ calls]
      cases getBlindspotsInternalLogged graph.length graph.dropLast vertex [] out calls with
      | none => rfl
      | some s => exact ih _ _ _

theorem getBlindspots_unlogged (view : GraphView) :
    (getBlindspotsLogged view).map Prod.fst = getBlindspots view :=
  from_unlogged _ _ _ _

/-! Every vertex is called, on a path of the view. -/

namespace SearchCall

/-- The path consists of other vertices of the view, each of which leads to the next. -/
def OnPath (view : GraphView) (call : SearchCall) : Prop :=
  ∃ ancestors : List MemberConnections, call.currentPath = ancestors.map MemberConnections.member ∧
    (ancestors ++ [call.currentMember]).Subperm view ∧
    (ancestors ++ [call.currentMember]).IsChain MemberConnections.LeadsTo

/-- What the calls report. -/
def reported (calls : List SearchCall) : MemberProxies :=
  (calls.filter fun call => isBlindspot call.currentMember call.currentPath).map fun call =>
    call.currentMember.member

theorem reported_append (calls calls' : List SearchCall) :
    reported (calls ++ calls') = reported calls ++ reported calls' := by
  simp [reported]

theorem reported_cons (call : SearchCall) (calls : List SearchCall) : reported (call :: calls) =
    (if isBlindspot call.currentMember call.currentPath then [call.currentMember.member] else []) ++
      reported calls := by
  unfold reported
  rw [List.filter_cons]
  split <;> rfl

end SearchCall
open SearchCall

variable {view : GraphView}

theorem perm_eraseP {V : Type} {p : V → Bool} {graph : List V} {vertex : V}
    (h : graph.find? p = some vertex) : (vertex :: graph.eraseP p).Perm graph := by
  obtain ⟨hp, before, after, rfl, hbefore⟩ := List.find?_eq_some_iff_append.mp h
  rw [List.eraseP_append_right _ (by simpa using hbefore), List.eraseP_cons_of_pos hp]
  exact List.perm_middle.symm

/-- A call with this fuel comes to an end. It takes vertices out of the graph with one call for each,
    and adds to the blind spots what it and these calls report. -/
def Calls (view : GraphView) (n : Nat) : Prop :=
  ∀ (graph : GraphView) (v : MemberConnections) (ancestors : List MemberConnections) (out : MemberProxies)
    (calls : List SearchCall), graph.length < n → (ancestors ++ v :: graph).Subperm view →
    (ancestors ++ [v]).IsChain MemberConnections.LeadsTo →
    let call : SearchCall := ⟨v, ancestors.map MemberConnections.member⟩
    ∃ graph' below, getBlindspotsInternalLogged n graph v call.currentPath out calls =
        some (graph', out ++ reported (call :: below), calls ++ call :: below) ∧
      (below.map currentMember ++ graph').Perm graph ∧ ∀ c ∈ call :: below, c.OnPath view

theorem left_subperm {below : List SearchCall} {graph graph' : GraphView}
    (h : (below.map currentMember ++ graph').Perm graph) : graph'.Subperm graph :=
  (List.sublist_append_right _ _).subperm.trans h.subperm

/-- The loop over the connections of a vertex, given the calls below it. -/
theorem Calls.loop {n : Nat} (h : Calls view n) {v : MemberConnections} {ancestors : List MemberConnections}
    (hchain : (ancestors ++ [v]).IsChain MemberConnections.LeadsTo) (connections : MemberProxies)
    (hconn : connections ⊆ v.connections) (graph : GraphView) (out : MemberProxies) (calls : List SearchCall)
    (hn : graph.length ≤ n) (hsub : (ancestors ++ v :: graph).Subperm view) :
    ∃ graph' log, connections.foldlM (investigateLogged fun graph vertex =>
          getBlindspotsInternalLogged n graph vertex ((ancestors ++ [v]).map MemberConnections.member))
        (graph, out, calls) = some (graph', out ++ reported log, calls ++ log) ∧
      (log.map currentMember ++ graph').Perm graph ∧ ∀ c ∈ log, c.OnPath view := by
  induction connections generalizing graph out calls with
  | nil => exact ⟨graph, [], by simp [reported], List.Perm.refl _, fun _ h => nomatch h⟩
  | cons c connections ih =>
    obtain ⟨hc, hconn⟩ := List.cons_subset.mp hconn
    rw [List.foldlM_cons]
    cases hfind : graph.find? fun member => member.member.eq c with
    | none =>
      simp only [investigateLogged, hfind]
      exact ih hconn graph out calls hn hsub
    | some vertex =>
      have hperm := perm_eraseP hfind
      have hfound := List.find?_some hfind
      have hlen := hperm.length_eq
      rw [List.length_cons] at hlen
      -- the path of the new call is that of `v`, and `v`
      have hstep : (ancestors ++ [v] ++ [vertex]).IsChain MemberConnections.LeadsTo := by
        rw [List.append_assoc]
        exact List.isChain_append_cons_cons.mpr ⟨hchain, ⟨c, hc, hfound⟩, List.isChain_singleton _⟩
      have hsub₁ : (ancestors ++ [v] ++ vertex :: graph.eraseP fun member => member.member.eq c).Subperm view := by
        rw [List.append_assoc]
        exact ((hperm.cons v).append_left ancestors).subperm.trans hsub
      obtain ⟨graph₁, below, heq₁, hperm₁, hpath₁⟩ := h _ vertex (ancestors ++ [v]) out calls (by omega) hsub₁ hstep
      -- what is left after the call
      have hleft := (hperm₁.cons vertex).trans hperm
      have hgraph₁ := (left_subperm hperm₁).trans List.eraseP_sublist.subperm
      have hsub₂ : (ancestors ++ v :: graph₁).Subperm view :=
        ((List.subperm_append_left _).mpr ((List.subperm_cons v).mpr hgraph₁)).trans hsub
      obtain ⟨graph₂, log, heq₂, hperm₂, hpath₂⟩ := ih hconn graph₁ _ _ (hgraph₁.length_le.trans hn) hsub₂
      refine ⟨graph₂, ⟨vertex, (ancestors ++ [v]).map MemberConnections.member⟩ :: below ++ log, ?_, ?_,
        List.forall_mem_append.mpr ⟨hpath₁, hpath₂⟩⟩
      · simp only [investigateLogged, hfind]
        rw [heq₁, reported_append, ← List.append_assoc, ← List.append_assoc]
        exact heq₂
      · rw [List.map_append, List.append_assoc]
        exact (hperm₂.append_left _).trans hleft

theorem calls_internal (view : GraphView) (n : Nat) : Calls view n := by
  induction n with
  | zero =>
    intro graph v ancestors out calls hn
    exact absurd hn (Nat.not_lt_zero _)
  | succ n ih =>
    intro graph v ancestors out calls hn hsub hchain call
    have hcall : call.OnPath view := by
      refine ⟨ancestors, rfl, ?_, hchain⟩
      exact ((List.cons_sublist_cons.mpr (List.nil_sublist _)).append_left _).subperm.trans hsub
    unfold getBlindspotsInternalLogged
    by_cases hblind : isBlindspot v call.currentPath = true
    · refine ⟨graph, [], ?_, List.Perm.refl _, List.forall_mem_singleton.mpr hcall⟩
      rw [reported_cons, if_pos hblind, if_pos hblind]
      rfl
    · obtain ⟨graph', below, heq, hperm, hpath⟩ := ih.loop hchain v.connections (List.Subset.refl _) graph out
        (calls ++ [call]) (Nat.le_of_lt_succ hn) hsub
      refine ⟨graph', below, ?_, hperm, List.forall_mem_cons.mpr ⟨hcall, hpath⟩⟩
      rw [List.map_append, List.append_assoc] at heq
      rw [reported_cons, if_neg hblind, if_neg hblind]
      exact heq

/-- The loop of `getBlindspots`, from any state on. -/
theorem calls_from (view : GraphView) (n : Nat) (graph : GraphView) (out : MemberProxies)
    (calls : List SearchCall) (hn : graph.length < n) (hsub : graph.Subperm view) :
    ∃ log, getBlindspotsFromLogged n graph out calls = some (out ++ reported log, calls ++ log) ∧
      (log.map currentMember).Perm graph ∧ ∀ c ∈ log, c.OnPath view := by
  induction n generalizing graph out calls with
  | zero => exact absurd hn (Nat.not_lt_zero _)
  | succ n ih =>
    unfold getBlindspotsFromLogged
    obtain rfl | ⟨front, vertex, rfl⟩ := List.eq_nil_or_concat' graph
    · exact ⟨[], by simp [reported], List.Perm.refl _, fun _ h => nomatch h⟩
    · have hperm : (vertex :: front).Perm (front ++ [vertex]) := (List.perm_append_singleton _ _).symm
      have hlen : (front ++ [vertex]).length = front.length + 1 := List.length_append
      obtain ⟨graph₁, below, heq₁, hperm₁, hpath₁⟩ := calls_internal view (front ++ [vertex]).length front vertex
        [] out calls (by omega) (hperm.subperm.trans hsub) (List.isChain_singleton _)
      have hfront := (List.sublist_append_left front [vertex]).subperm.trans hsub
      have hlen₁ := (left_subperm hperm₁).length_le
      obtain ⟨log, heq₂, hperm₂, hpath₂⟩ := ih graph₁ _ _ (by omega) ((left_subperm hperm₁).trans hfront)
      refine ⟨⟨vertex, []⟩ :: below ++ log, ?_, ?_, List.forall_mem_append.mpr ⟨hpath₁, hpath₂⟩⟩
      · rw [List.getLast?_concat, List.dropLast_concat, reported_append, ← List.append_assoc, ← List.append_assoc]
        simp only
        rw [← heq₂]
        exact congrArg (Option.bind · _) heq₁
      · rw [List.map_append]
        exact ((hperm₂.append_left _).trans (hperm₁.cons vertex)).trans hperm

/-- The calls of `getBlindspots`: one for every vertex of the view. -/
theorem getBlindspotsLogged_eq (view : GraphView) : ∃ calls,
    getBlindspotsLogged view = some (reported calls, calls) ∧ getBlindspots view = some (reported calls) ∧
      (calls.map currentMember).Perm view ∧ ∀ c ∈ calls, c.OnPath view := by
  obtain ⟨calls, heq, hperm, hpath⟩ := calls_from view (view.length + 1) view [] [] (Nat.lt_succ_self _)
    (List.Subperm.refl _)
  refine ⟨calls, heq, ?_, hperm, hpath⟩
  rw [← getBlindspots_unlogged, show getBlindspotsLogged view = _ from heq]
  rfl

/-! What is reported. -/

theorem mem_reported {calls : List SearchCall} {b : MemberProxy} : b ∈ reported calls ↔
    ∃ c ∈ calls, isBlindspot c.currentMember c.currentPath = true ∧ c.currentMember.member = b := by
  simp [reported, and_assoc]

theorem keys_reported_sublist (calls : List SearchCall) :
    (GraphView.proxyKeys (reported calls)).Sublist (GraphView.keys (calls.map currentMember)) := by
  unfold GraphView.proxyKeys GraphView.keys reported
  rw [List.map_map, List.map_map]
  exact List.filter_sublist.map _

theorem isBlindspot_iff {v : MemberConnections} {path : MemberProxies} : isBlindspot v path = true ↔
    v.connections = [] ∨ ∃ target, v.connections = [target] ∧ ∃ ancestor ∈ path, ancestor.eq target = true := by
  rw [GraphView.isBlindspot_eq, GraphView.blind_iff]
  simp [GraphView.proxyKeys]

/-- A vertex with a connection to its search path lies on a cycle. -/
theorem SearchCall.OnPath.onCycle {call : SearchCall} {target ancestor : MemberProxy} (h : call.OnPath view)
    (distinct : view.keys.Nodup) (htarget : target ∈ call.currentMember.connections)
    (hancestor : ancestor ∈ call.currentPath) (heq : ancestor.eq target = true) :
    view.OnCycle call.currentMember := by
  obtain ⟨ancestors, hpath, hsub, hchain⟩ := h
  rw [hpath] at hancestor
  obtain ⟨u, hu, rfl⟩ := List.mem_map.mp hancestor
  have hnd : (ancestors ++ [call.currentMember]).Nodup := by
    obtain ⟨vertices, hperm, hsublist⟩ := hsub
    exact hperm.nodup_iff.mp (distinct.of_map.sublist hsublist)
  obtain ⟨cycle, hcycle, hin, hv, hlen⟩ := exists_cycle hnd hchain hu ⟨target, htarget, heq⟩
  exact ⟨cycle, hcycle, List.Subset.trans hin hsub.subset, hv, hlen⟩

/-- Whatever the connections of a view, the search comes to an end and calls each of its vertices once. -/
theorem getBlindspots_calls (view : GraphView) : ∃ blindspots calls, getBlindspots view = some blindspots ∧
    getBlindspotsLogged view = some (blindspots, calls) ∧ (calls.map currentMember).Perm view ∧
    (view.keys.Nodup → (GraphView.proxyKeys blindspots).Nodup) := by
  obtain ⟨calls, hlogged, heq, hperm, _⟩ := getBlindspotsLogged_eq view
  refine ⟨reported calls, calls, heq, hlogged, hperm, fun distinct => ?_⟩
  have hkeys : (GraphView.keys (calls.map currentMember)).Nodup := (hperm.map _).nodup_iff.mpr distinct
  exact hkeys.sublist (keys_reported_sublist calls)

/-- A vertex without connections is reported. Any other one that is has a single connection, and that
    leads back to its search path. -/
theorem getBlindspots_exact (view : GraphView) (distinct : view.keys.Nodup) :
    ∃ blindspots calls, getBlindspots view = some blindspots ∧
      getBlindspotsLogged view = some (blindspots, calls) ∧
      (∀ v ∈ view, v.connections = [] → v.member ∈ blindspots) ∧
      ∀ b ∈ blindspots, ∃ v ∈ view, v.member = b ∧ (v.connections = [] ∨
        ∃ target path, v.connections = [target] ∧ ⟨v, path⟩ ∈ calls ∧ OnPath view ⟨v, path⟩ ∧
          (∃ ancestor ∈ path, ancestor.eq target = true) ∧ view.OnCycle v) := by
  obtain ⟨calls, hlogged, heq, hperm, hpath⟩ := getBlindspotsLogged_eq view
  refine ⟨reported calls, calls, heq, hlogged, ?_, ?_⟩
  · intro v hv hnil
    obtain ⟨c, hc, rfl⟩ := List.mem_map.mp (hperm.symm.subset hv)
    exact mem_reported.mpr ⟨c, hc, isBlindspot_iff.mpr (Or.inl hnil), rfl⟩
  · intro b hb
    obtain ⟨c, hc, hblind, rfl⟩ := mem_reported.mp hb
    refine ⟨c.currentMember, hperm.subset (List.mem_map_of_mem hc), rfl, ?_⟩
    obtain hnil | ⟨target, htarget, ancestor, hancestor, heq⟩ := isBlindspot_iff.mp hblind
    · exact Or.inl hnil
    · refine Or.inr ⟨target, c.currentPath, htarget, hc, hpath c hc, ⟨ancestor, hancestor, heq⟩, ?_⟩
      exact (hpath c hc).onCycle distinct (htarget ▸ List.mem_singleton_self target) hancestor heq

/-- The ring is searched from "b" on, and "a" leads back to it. -/
theorem getBlindspots_ring : getBlindspots exampleRing = some [⟨"a", false⟩] ∧
    exampleRing.OnCycle ⟨⟨"a", false⟩, [⟨"b", false⟩]⟩ := by
  have hspots : getBlindspots exampleRing = some [⟨"a", false⟩] := by decide
  obtain ⟨blindspots, calls, heq, _, _, hreported⟩ := getBlindspots_exact exampleRing (by decide)
  rw [hspots, Option.some.injEq] at heq
  obtain ⟨v, hv, hmember, hspot⟩ := hreported ⟨"a", false⟩ (heq ▸ List.mem_cons_self)
  have hfirst : v = ⟨⟨"a", false⟩, [⟨"b", false⟩]⟩ := by
    obtain rfl | hv := List.mem_cons.mp hv
    · rfl
    · rw [List.mem_singleton.mp hv] at hmember
      exact absurd hmember (by decide)
  subst hfirst
  obtain hnil | ⟨_, _, _, _, _, _, hcycle⟩ := hspot
  · cases hnil
  · exact ⟨hspots, hcycle⟩

end StreamFdl
