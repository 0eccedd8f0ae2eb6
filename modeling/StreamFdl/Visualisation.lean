import Mathlib.Data.List.Nodup
import StreamFdl.AlertDelivery

/- `Graph::visualise`: the thread that draws the subgraph whenever an update of the
   drawing was requested.

   A drawing is what Graphviz is told: its nodes, one for each name, and its edges,
   a new one for each call. The names go through a buffer of 37 characters, so a
   drawing only comes about when no key is longer than a UUID.

   The thread tests the flag, draws under the lock of the vertices, clears the flag
   and renders. A request between the drawing and the clearing is cleared with the
   one that was drawn, and the image then misses it; every other one is drawn.

   The drawing is one step here. The mutex of the vertices keeps `add` out of it,
   but not `reset`, which takes no mutex, nor the updates of members: a drawing that
   one of these comes into the middle of is not covered. -/
namespace StreamFdl
open Runs

structure Drawing where
  nodes : List PrimaryKey
  edges : List (PrimaryKey × PrimaryKey)
  deriving DecidableEq, Repr

namespace Drawing

def empty : Drawing := ⟨[], []⟩

/-- `strcpy` to `cPrimaryKey` and `agnode`; no result when the name is too long for the buffer. -/
def agnode (d : Drawing) (primaryKey : PrimaryKey) : Option Drawing :=
  if primaryKey.utf8ByteSize < 37 then
    some (if primaryKey ∈ d.nodes then d else { d with nodes := d.nodes ++ [primaryKey] })
  else none

def agedge (d : Drawing) (fromNode toNode : PrimaryKey) : Drawing :=
  { d with edges := d.edges ++ [(fromNode, toNode)] }

/-- A pass of the inner loop. -/
def drawTarget (fromNode : PrimaryKey) (d : Drawing) (target : MemberProxy) : Option Drawing :=
  (d.agnode target.mPrimaryKey).map fun d => d.agedge fromNode target.mPrimaryKey

end Drawing

namespace Graph

/-- A pass of the loop over the vertices. -/
def drawVertex (g : Graph) (s : DataStore) (d : Drawing) (vertex : MemberPtr) : Option Drawing := do
  let m ← vertex.mpMember
  let d ← d.agnode m.mPrimaryKey
  let outgoing ← g.getOutgoing s vertex
  outgoing.foldlM (Drawing.drawTarget m.mPrimaryKey) d

def draw (g : Graph) (s : DataStore) : Option Drawing := g.mVertices.foldlM (g.drawVertex s) .empty

/-- The edges from a vertex. -/
def edgesFrom (g : Graph) (s : DataStore) (vertex : MemberPtr) : List (PrimaryKey × PrimaryKey) :=
  match vertex.mpMember, g.getOutgoing s vertex with
  | some m, some outgoing => outgoing.map fun target => (m.mPrimaryKey, target.mPrimaryKey)
  | _, _ => []

/-- The name of a vertex fits the buffer, and its relations can be read. -/
def Drawable (g : Graph) (s : DataStore) (vertex : MemberPtr) : Prop :=
  ∃ m outgoing, vertex.mpMember = some m ∧ m.mPrimaryKey.utf8ByteSize < 37 ∧
    g.getOutgoing s vertex = some outgoing

def keys (g : Graph) : List PrimaryKey :=
  g.mVertices.filterMap fun vertex => vertex.mpMember.map Member.mPrimaryKey

variable {g : Graph} {s : DataStore}

theorem mem_keys {k : PrimaryKey} : k ∈ g.keys ↔ ∃ p ∈ g.mVertices, ∃ m, p.mpMember = some m ∧ m.mPrimaryKey = k := by
  simp [keys]

/-- An outgoing edge leads to a vertex. -/
theorem mem_keys_of_outgoing {vertex : MemberPtr} {outgoing : MemberProxies} (h : g.getOutgoing s vertex = some outgoing)
    {target : MemberProxy} (hto : target ∈ outgoing) : target.mPrimaryKey ∈ g.keys := by
  obtain ⟨m, _, h⟩ := Option.bind_eq_some_iff.mp h
  obtain ⟨targets, _, h⟩ := Option.bind_eq_some_iff.mp h
  cases h
  exact mem_keys.mpr (contains_iff.mp (List.mem_filter.mp hto).2)

end Graph

namespace Drawing

/-- The nodes of one drawing are those of another and some more names, and the edges those and some more. -/
structure Extends (d d' : Drawing) (names : List PrimaryKey) (edges : List (PrimaryKey × PrimaryKey)) : Prop where
  nodup : d.nodes.Nodup → d'.nodes.Nodup
  nodes : ∀ k, k ∈ d'.nodes ↔ k ∈ d.nodes ∨ k ∈ names
  edges : d'.edges = d.edges ++ edges

namespace Extends

variable {d d' d'' : Drawing} {names names' : List PrimaryKey} {es es' : List (PrimaryKey × PrimaryKey)}

theorem refl (d : Drawing) : Extends d d [] [] := ⟨id, by simp, by simp⟩

theorem trans (h : Extends d d' names es) (h' : Extends d' d'' names' es') :
    Extends d d'' (names ++ names') (es ++ es') where
  nodup := fun hd => h'.nodup (h.nodup hd)
  nodes := fun k => by rw [h'.nodes, h.nodes, List.mem_append, or_assoc]
  edges := by rw [h'.edges, h.edges, List.append_assoc]

theorem agnode {k : PrimaryKey} (h : d.agnode k = some d') : Extends d d' [k] [] := by
  unfold Drawing.agnode at h
  split at h
  · cases h
    split
    · next hin =>
      refine ⟨id, fun k' => ?_, (List.append_nil _).symm⟩
      rw [List.mem_singleton]
      refine ⟨Or.inl, fun hk => ?_⟩
      obtain hk | rfl := hk
      · exact hk
      · exact hin
    · next hout =>
      refine ⟨fun hd => ?_, fun k' => List.mem_append, (List.append_nil _).symm⟩
      exact List.nodup_append.mpr ⟨hd, List.nodup_singleton k, fun a ha b hb hab => by
        rw [List.mem_singleton.mp hb] at hab
        exact hout (hab ▸ ha)⟩
  · cases h

theorem drawTarget {fromNode : PrimaryKey} {target : MemberProxy} (h : d.drawTarget fromNode target = some d') :
    Extends d d' [target.mPrimaryKey] [(fromNode, target.mPrimaryKey)] := by
  obtain ⟨d₁, hd₁, rfl⟩ := Option.map_eq_some_iff.mp h
  have hnode := agnode hd₁
  refine ⟨hnode.nodup, hnode.nodes, ?_⟩
  show d₁.edges ++ _ = _
  rw [hnode.edges, List.append_nil]

theorem drawTargets {fromNode : PrimaryKey} {outgoing : MemberProxies}
    (h : outgoing.foldlM (Drawing.drawTarget fromNode) d = some d') :
    Extends d d' (outgoing.map MemberProxy.mPrimaryKey) (outgoing.map fun target => (fromNode, target.mPrimaryKey)) := by
  induction outgoing generalizing d with
  | nil =>
    cases h
    exact refl _
  | cons target outgoing ih =>
    rw [List.foldlM_cons] at h
    obtain ⟨d₁, hd₁, h⟩ := Option.bind_eq_some_iff.mp h
    exact (drawTarget hd₁).trans (ih h)

end Extends

/-- A name that fits is drawn. -/
theorem drawTargets_defined (fromNode : PrimaryKey) {outgoing : MemberProxies}
    (h : ∀ target ∈ outgoing, target.mPrimaryKey.utf8ByteSize < 37) (d : Drawing) :
    ∃ d', outgoing.foldlM (drawTarget fromNode) d = some d' := by
  induction outgoing generalizing d with
  | nil => exact ⟨d, rfl⟩
  | cons target outgoing ih =>
    obtain ⟨hto, hrest⟩ := List.forall_mem_cons.mp h
    rw [List.foldlM_cons, drawTarget, agnode, if_pos hto]
    exact ih hrest _

end Drawing

namespace Graph

variable {g : Graph} {s : DataStore}

/-- A vertex is drawn with the edges from it. -/
theorem drawVertex_extends {d d' : Drawing} {vertex : MemberPtr} (h : g.drawVertex s d vertex = some d') :
    g.Drawable s vertex ∧ ∃ m outgoing, vertex.mpMember = some m ∧ g.getOutgoing s vertex = some outgoing ∧
      d.Extends d' (m.mPrimaryKey :: outgoing.map MemberProxy.mPrimaryKey) (g.edgesFrom s vertex) := by
  obtain ⟨m, hm, h⟩ := Option.bind_eq_some_iff.mp h
  obtain ⟨d₁, hd₁, h⟩ := Option.bind_eq_some_iff.mp h
  obtain ⟨outgoing, houtgoing, h⟩ := Option.bind_eq_some_iff.mp h
  have hfits : m.mPrimaryKey.utf8ByteSize < 37 := by
    unfold Drawing.agnode at hd₁
    split at hd₁
    · assumption
    · cases hd₁
  have hedges : g.edgesFrom s vertex = outgoing.map fun target => (m.mPrimaryKey, target.mPrimaryKey) := by
    unfold edgesFrom
    rw [hm, houtgoing]
  refine ⟨⟨m, outgoing, hm, hfits, houtgoing⟩, m, outgoing, hm, houtgoing, ?_⟩
  rw [hedges]
  exact (Drawing.Extends.agnode hd₁).trans (.drawTargets h)

/-- What a drawing of some vertices consists of. -/
theorem drawVertices {vertices : List MemberPtr} {d d' : Drawing} (hin : vertices ⊆ g.mVertices)
    (h : vertices.foldlM (g.drawVertex s) d = some d') :
    (∀ vertex ∈ vertices, g.Drawable s vertex) ∧ (d.nodes.Nodup → d'.nodes.Nodup) ∧
      (∀ k ∈ d'.nodes, k ∈ d.nodes ∨ k ∈ g.keys) ∧
      (∀ k ∈ d.nodes, k ∈ d'.nodes) ∧
      (∀ vertex ∈ vertices, ∀ m, vertex.mpMember = some m → m.mPrimaryKey ∈ d'.nodes) ∧
      d'.edges = d.edges ++ vertices.flatMap (g.edgesFrom s) := by
  induction vertices generalizing d with
  | nil =>
    cases h
    exact ⟨by simp, id, fun k hk => Or.inl hk, fun k hk => hk, by simp, by simp⟩
  | cons vertex vertices ih =>
    rw [List.foldlM_cons] at h
    obtain ⟨d₁, hd₁, h⟩ := Option.bind_eq_some_iff.mp h
    obtain ⟨hdrawable, m, outgoing, hm, houtgoing, hone⟩ := drawVertex_extends hd₁
    obtain ⟨hrest, hnodup, hfrom, hkept, hnames, hedges⟩ := ih (fun p hp => hin (List.mem_cons_of_mem vertex hp)) h
    refine ⟨List.forall_mem_cons.mpr ⟨hdrawable, hrest⟩, fun hd => hnodup (hone.nodup hd), ?_, ?_, ?_, ?_⟩
    · intro k hk
      -- a node is the vertex itself, or one of its targets, which are vertices too
      obtain hk | hk := hfrom k hk
      · obtain hk | hk := (hone.nodes k).mp hk
        · exact Or.inl hk
        · obtain rfl | hk := List.mem_cons.mp hk
          · exact Or.inr (mem_keys.mpr ⟨vertex, hin List.mem_cons_self, m, hm, rfl⟩)
          · obtain ⟨target, htarget, rfl⟩ := List.mem_map.mp hk
            exact Or.inr (mem_keys_of_outgoing houtgoing htarget)
      · exact Or.inr hk
    · exact fun k hk => hkept k ((hone.nodes k).mpr (Or.inl hk))
    · refine List.forall_mem_cons.mpr ⟨fun m' hm' => ?_, hnames⟩
      obtain rfl : m = m' := Option.some.inj (hm.symm.trans hm')
      exact hkept _ ((hone.nodes _).mpr (Or.inr List.mem_cons_self))
    · rw [hedges, hone.edges, List.flatMap_cons, List.append_assoc]

/-- A drawing comes about where every vertex can be drawn. -/
theorem drawVertices_defined {vertices : List MemberPtr} (h : ∀ vertex ∈ vertices, g.Drawable s vertex)
    (hall : ∀ k ∈ g.keys, k.utf8ByteSize < 37) (d : Drawing) : ∃ d', vertices.foldlM (g.drawVertex s) d = some d' := by
  induction vertices generalizing d with
  | nil => exact ⟨d, rfl⟩
  | cons vertex vertices ih =>
    obtain ⟨⟨m, outgoing, hm, hfits, houtgoing⟩, hrest⟩ := List.forall_mem_cons.mp h
    obtain ⟨d₁, hd₁⟩ : ∃ d₁, d.agnode m.mPrimaryKey = some d₁ := by
      unfold Drawing.agnode
      rw [if_pos hfits]
      exact ⟨_, rfl⟩
    obtain ⟨d₂, hd₂⟩ := Drawing.drawTargets_defined m.mPrimaryKey
      (fun target htarget => hall _ (mem_keys_of_outgoing houtgoing htarget)) d₁
    have hone : g.drawVertex s d vertex = some d₂ := by
      simp only [drawVertex, hm, hd₁, houtgoing, Option.bind_eq_bind, Option.bind_some]
      exact hd₂
    rw [List.foldlM_cons, hone]
    exact ih hrest d₂

end Graph

/-- The subgraph is drawn exactly when the key of every vertex fits the buffer and its relations can be
    read. The nodes are then the keys of the vertices, each once, and the edges those from each vertex in
    turn; both ends of each of them are nodes. -/
theorem drawing_exact (g : Graph) (s : DataStore) :
    ((∃ d, g.draw s = some d) ↔ ∀ vertex ∈ g.mVertices, g.Drawable s vertex) ∧
    ∀ d, g.draw s = some d → d.nodes.Nodup ∧ (∀ k, k ∈ d.nodes ↔ k ∈ g.keys) ∧
      d.edges = g.mVertices.flatMap (g.edgesFrom s) ∧ ∀ e ∈ d.edges, e.1 ∈ d.nodes ∧ e.2 ∈ d.nodes := by
  refine ⟨⟨fun ⟨d, h⟩ => (Graph.drawVertices (List.Subset.refl _) h).1, fun h => ?_⟩, fun d h => ?_⟩
  · refine Graph.drawVertices_defined h (fun k hk => ?_) .empty
    obtain ⟨p, hp, m, hm, rfl⟩ := Graph.mem_keys.mp hk
    obtain ⟨m', _, hm', hfits, _⟩ := h p hp
    obtain rfl : m = m' := Option.some.inj (hm.symm.trans hm')
    exact hfits
  · obtain ⟨hdrawable, hnodup, hfrom, _, hnames, hedges⟩ := Graph.drawVertices (List.Subset.refl _) h
    have hnodes : ∀ k, k ∈ d.nodes ↔ k ∈ g.keys := by
      refine fun k => ⟨fun hk => (hfrom k hk).elim (fun hk => by cases hk) id, fun hk => ?_⟩
      obtain ⟨p, hp, m, hm, rfl⟩ := Graph.mem_keys.mp hk
      exact hnames p hp m hm
    have hflat : d.edges = g.mVertices.flatMap (g.edgesFrom s) := hedges
    refine ⟨hnodup List.nodup_nil, hnodes, hflat, fun e he => ?_⟩
    rw [hflat] at he
    obtain ⟨p, hp, he⟩ := List.mem_flatMap.mp he
    obtain ⟨m, outgoing, hm, _, houtgoing⟩ := hdrawable p hp
    unfold Graph.edgesFrom at he
    rw [hm, houtgoing] at he
    obtain ⟨target, htarget, rfl⟩ := List.mem_map.mp he
    exact ⟨(hnodes _).mpr (Graph.mem_keys.mpr ⟨p, hp, m, hm, rfl⟩),
      (hnodes _).mpr (Graph.mem_keys_of_outgoing houtgoing htarget)⟩

/-! The thread beside the builder. -/

inductive DrawPhase where
  /-- At the head of the loop. -/
  | idle
  /-- The flag was set. -/
  | drawing
  /-- These vertices have been drawn; the lock is released. -/
  | drawn (vertices : List MemberPtr) (graph : Drawing)
  /-- The flag has been cleared. -/
  | rendering (vertices : List MemberPtr) (graph : Drawing)

def DrawPhase.isIdle : DrawPhase → Bool
  | idle => true
  | _ => false

/-- Between the drawing and the clearing of the flag. -/
def DrawPhase.isDrawn : DrawPhase → Bool
  | drawn _ _ => true
  | _ => false

/-- The builder, which has or has not requested a drawing at the end of its expansion, and the thread that
    draws; the last two fields are the history, and no step reads them. -/
structure VisualState where
  builder : BuilderState
  requested : Bool
  mUpdateVisualisation : Bool
  phase : DrawPhase
  image : Drawing
  /-- The vertices of the image. -/
  shown : List MemberPtr
  /-- The vertices there were at the last request, as long as they are not reset. -/
  published : List MemberPtr

inductive VisualAction where
  | test
  | draw
  | clear
  /-- The image is replaced if the file could be read. -/
  | render (loaded : Bool)
  /-- `updateVisualisation`, at the end of `expandSubgraph`. -/
  | request
  | threads (a : BuilderAction)

namespace BuilderState

/-- The expansion by the alerts of the round is over, if there were any. -/
def expanded (s : BuilderState) : Bool :=
  match s.phase with
  | .alerts (_ :: _) [] => true
  | _ => false

/-- The action is the builder's. -/
def turn : BuilderAction → Bool
  | .builder _ => true
  | _ => false

end BuilderState

namespace VisualState

def new (builder : BuilderState) : VisualState := ⟨builder, false, false, .idle, .empty, [], []⟩

/-- A step; no result when the action is not the next one of its thread, or when it is not defined. -/
def step (s : VisualState) : VisualAction → Option VisualState
  | .test =>
    match s.phase with
    | .idle => some { s with phase := if s.mUpdateVisualisation then .drawing else .idle }
    | _ => none
  | .draw =>
    match s.phase with
    | .drawing => (s.builder.mSAG.draw s.builder.mpDataStore).map fun graph =>
      { s with phase := .drawn s.builder.mSAG.mVertices graph }
    | _ => none
  | .clear =>
    match s.phase with
    | .drawn vertices graph => some { s with mUpdateVisualisation := false, phase := .rendering vertices graph }
    | _ => none
  | .render loaded =>
    match s.phase with
    | .rendering vertices graph =>
      some (if loaded then { s with image := graph, shown := vertices, phase := .idle } else { s with phase := .idle })
    | _ => none
  | .request =>
    if s.builder.expanded && !s.requested then
      some { s with requested := true, mUpdateVisualisation := true, published := s.builder.mSAG.mVertices }
    else none
  | .threads a =>
    if BuilderState.turn a && s.builder.expanded && !s.requested then none
    else (s.builder.step a).map fun builder =>
      { s with
        builder := builder
        requested := if BuilderState.turn a then false else s.requested
        published := if BuilderState.turn a && s.builder.aborts then [] else s.published }

/-- No request comes between the drawing and the clearing of the flag, and what was rendered can be read. -/
def InTime (s : VisualState) : VisualAction → Prop
  | .request => s.phase.isDrawn = false
  | .render loaded => loaded = true
  | _ => True

instance (s : VisualState) : DecidablePred s.InTime
  | .request => inferInstanceAs (Decidable (s.phase.isDrawn = false))
  | .render loaded => inferInstanceAs (Decidable (loaded = true))
  | .test | .draw | .clear | .threads _ => isTrue trivial

/-- A drawing of these vertices, at some time. -/
def Pictures (graph : Drawing) (vertices : List MemberPtr) : Prop := ∃ store, (Graph.mk vertices).draw store = some graph

/-- What was published has been drawn, unless the flag or the next step of the thread is for it. -/
def Covers (s : VisualState) : Prop :=
  match s.phase with
  | .idle => s.mUpdateVisualisation = false → s.published <+: s.shown
  | .drawing => True
  | .drawn vertices graph => Pictures graph vertices ∧ s.published <+: vertices
  | .rendering vertices graph =>
    Pictures graph vertices ∧ (s.mUpdateVisualisation = false → s.published <+: vertices)

structure Visualised (s : VisualState) : Prop where
  published : s.published <+: s.builder.mSAG.mVertices
  image : Pictures s.image s.shown
  covers : s.Covers

end VisualState

namespace BuilderState

variable {s s' : BuilderState}

/-- Vertices are only added, except by an abort. -/
theorem step_vertices {a : BuilderAction} (h : s.step a = some s') (hgo : (turn a && s.aborts) = false) :
    s.mSAG.mVertices <+: s'.mSAG.mVertices := by
  by_cases hturn : turn a = true
  · cases a with
    | builder store =>
      rw [hturn, Bool.true_and] at hgo
      have hmove := builderStep_move h hgo
      cases hmove with
      | expand _ hnew _ _ =>
        unfold Graph.add at hnew ⊢
        split at hnew
        · cases hnew
        · next hany =>
          rw [if_neg hany]
          exact List.prefix_append _ _
      | _ => exact List.prefix_rfl
    | _ => cases hturn
  · have hbeside := step_beside h (fun store ha => hturn (ha ▸ rfl))
    rw [hbeside.mSAG]

end BuilderState

namespace VisualState

variable {s t : VisualState}

theorem visualised_new {builder : BuilderState} : (new builder).Visualised where
  published := List.nil_prefix
  image := ⟨builder.mpDataStore, rfl⟩
  covers := fun _ => List.nil_prefix

/-- The vertices that were published may become fewer. -/
theorem Covers.forget (h : s.Covers) {builder : BuilderState} {requested : Bool} {published : List MemberPtr}
    (hfewer : published <+: s.published) :
    Covers { s with builder := builder, requested := requested, published := published } := by
  unfold Covers at h ⊢
  cases hphase : s.phase with
  | idle =>
    rw [hphase] at h
    exact fun hflag => hfewer.trans (h hflag)
  | drawing => trivial
  | drawn vertices graph =>
    rw [hphase] at h
    exact ⟨h.1, hfewer.trans h.2⟩
  | rendering vertices graph =>
    rw [hphase] at h
    exact ⟨h.1, fun hflag => hfewer.trans (h.2 hflag)⟩

theorem Visualised.threads (h : s.Visualised) {a : BuilderAction} (hs : s.step (.threads a) = some t) :
    t.Visualised := by
  simp only [step] at hs
  split at hs
  · cases hs
  · obtain ⟨builder, hbuilder, rfl⟩ := Option.map_eq_some_iff.mp hs
    cases habort : BuilderState.turn a && s.builder.aborts with
    | true => exact ⟨List.nil_prefix, h.image, h.covers.forget List.nil_prefix⟩
    | false =>
      have hvertices := BuilderState.step_vertices hbuilder habort
      exact ⟨h.published.trans hvertices, h.image, h.covers.forget List.prefix_rfl⟩

/-- A request while the thread is not between the drawing and the clearing sets the flag for itself. -/
theorem Visualised.request (h : s.Visualised) (hin : s.InTime .request) (hs : s.step .request = some t) :
    t.Visualised := by
  simp only [step] at hs
  split at hs
  · cases hs
    refine ⟨List.prefix_rfl, h.image, ?_⟩
    have hcovers := h.covers
    unfold Covers at hcovers ⊢
    cases hphase : s.phase with
    | idle => exact fun hflag => by cases hflag
    | drawing => trivial
    -- a request here would be cleared without being drawn
    | drawn vertices graph =>
      have hout : s.phase.isDrawn = false := hin
      rw [hphase] at hout
      cases hout
    | rendering vertices graph =>
      rw [hphase] at hcovers
      exact ⟨hcovers.1, fun hflag => by cases hflag⟩
  · cases hs

theorem step_visualised (s : VisualState) (a : VisualAction) (t : VisualState) (h : s.Visualised)
    (hin : s.InTime a) (hs : s.step a = some t) : t.Visualised := by
  have hcovers := h.covers
  cases a with
  | threads a => exact h.threads hs
  | request => exact h.request hin hs
  | test =>
    simp only [step] at hs
    split at hs
    · next hphase =>
      cases hs
      refine ⟨h.published, h.image, ?_⟩
      unfold Covers at hcovers ⊢
      rw [hphase] at hcovers
      cases hflag : s.mUpdateVisualisation with
      | true => trivial
      | false => exact fun _ => hcovers hflag
    · cases hs
  | draw =>
    simp only [step] at hs
    split at hs
    · obtain ⟨graph, hgraph, rfl⟩ := Option.map_eq_some_iff.mp hs
      exact ⟨h.published, h.image, ⟨s.builder.mpDataStore, hgraph⟩, h.published⟩
    · cases hs
  | clear =>
    simp only [step] at hs
    split at hs
    · next hphase =>
      cases hs
      unfold Covers at hcovers
      rw [hphase] at hcovers
      exact ⟨h.published, h.image, hcovers.1, fun _ => hcovers.2⟩
    · cases hs
  | render loaded =>
    obtain rfl : loaded = true := hin
    simp only [step] at hs
    split at hs
    · next hphase =>
      cases hs
      unfold Covers at hcovers
      rw [hphase] at hcovers
      exact ⟨h.published, hcovers.1, hcovers.2⟩
    · cases hs

end VisualState

/-- In every run without a request between a drawing and the clearing of the flag, whenever the flag is
    clear and the thread at the head of its loop, the image shows every vertex that was there at the last
    request, unless the subgraph was reset since. -/
theorem requests_drawn (k k' : PrimaryKey) (names : List String) (size : Nat) (criteria : AbortCriteria)
    (acts : List VisualAction) (s : VisualState)
    (inTime : Along VisualState.step VisualState.InTime (.new (.new k k' names size criteria)) acts)
    (reached : run VisualState.step (.new (.new k k' names size criteria)) acts = some s)
    (idle : s.phase.isIdle = true) (clear : s.mUpdateVisualisation = false) :
    ∀ p ∈ s.published, ∀ m, p.mpMember = some m → m.mPrimaryKey ∈ s.image.nodes := by
  have h : s.Visualised :=
    run_invariant VisualState.step_visualised acts _ s VisualState.visualised_new inTime reached
  have hcovers : s.published <+: s.shown := by
    have hcovers := h.covers
    unfold VisualState.Covers at hcovers
    cases hphase : s.phase with
    | idle =>
      rw [hphase] at hcovers
      exact hcovers clear
    | _ =>
      rw [hphase] at idle
      cases idle
  obtain ⟨store, hdrawn⟩ := h.image
  obtain ⟨_, _, _, _, hnames, _⟩ := Graph.drawVertices (List.Subset.refl _) hdrawn
  intro p hp m hm
  exact hnames p (hcovers.subset hp) m hm

/-- The expansion by the alerts of a round, and its request. -/
def expandAndRequest : List VisualAction :=
  .threads (.emit quietAlert) :: List.replicate 4 (.threads (.builder exampleStore)) ++ [.request]

/-- A suspect, and a round of the thread that draws it. -/
def drawSuspect : List VisualAction :=
  .threads (.store (.emplaceNode quietNode 0)) :: expandAndRequest ++ [.test, .draw, .clear, .render true]

theorem requests_drawn_suspect : ∃ s,
    run VisualState.step (.new (.new "e" "r" [] 2 ⟨false, ⟨2, [], some 0⟩, 10⟩)) drawSuspect = some s ∧
    s.published = [quietAlert.member] ∧ "n" ∈ s.image.nodes := by
  have hrun : ∃ s, s ∈ run VisualState.step (.new (.new "e" "r" [] 2 ⟨false, ⟨2, [], some 0⟩, 10⟩)) drawSuspect ∧
      s.published = [quietAlert.member] ∧ s.phase.isIdle = true ∧ s.mUpdateVisualisation = false := by
    decide +kernel
  obtain ⟨s, reached, hpublished, hidle, hclear⟩ := hrun
  have h := requests_drawn "e" "r" [] 2 ⟨false, ⟨2, [], some 0⟩, 10⟩ drawSuspect s (by decide +kernel) reached
    hidle hclear
  exact ⟨s, reached, hpublished, h quietAlert.member (by rw [hpublished]; exact List.mem_cons_self) _ rfl⟩

/-- A second suspect comes between the drawing and the clearing: its request is cleared, and the image
    stays without it. -/
theorem request_missed : ∃ s,
    s ∈ run VisualState.step (.new (.new "e" "r" [] 2 ⟨false, ⟨2, [], some 0⟩, 10⟩))
      (.threads (.store (.emplaceNode quietNode 0)) ::
        .threads (.store (.emplaceNode ⟨"m", "m", "p", .ACTIVE, 0, 0, 0⟩ 1)) :: expandAndRequest ++
        [.test, .draw, .threads (.builder exampleStore),
          .threads (.emit ⟨.make ⟨⟨false, 1⟩, false, "m"⟩, [], 0, .SEVERITY_NORMAL⟩)] ++
        List.replicate 4 (.threads (.builder exampleStore)) ++ [.request, .clear, .render true]) ∧
    s.phase.isIdle = true ∧ s.mUpdateVisualisation = false ∧ "m" ∈ (Graph.mk s.published).keys ∧
    "m" ∉ s.image.nodes := by decide +kernel

end StreamFdl
