import StreamFdl.EdgeCoverage
import StreamFdl.Handles

/- The way of an alert from fault detection to the subgraph. Fault detection
   pushes it to `mAlerts`; a round of the builder takes all that are there with
   `getEmittedAlerts` and expands the subgraph by one after the other; an abort
   takes those that are there once more, and expands by none of them.

   `AlertLog` is kept beside a run of the three threads and is read by none of
   them. It shows that no alert gets lost or is handed out twice, whenever fault
   detection pushes it; that the subgraph is what adding the member of each alert
   since the last abort, once, makes of the empty one; and so that its vertices
   are the members of these alerts, each once and in the order of its first one. -/
namespace StreamFdl
open Runs

/-- What has become of the alerts so far. -/
structure AlertLog where
  /-- What fault detection has pushed. -/
  emitted : List Alert
  /-- What `getEmittedAlerts` has returned, and whether to an abort. -/
  taken : List (Bool × Alert)
  /-- What `expandSubgraph` has come to. -/
  expanded : List Alert
  /-- What was pushed since the last abort. -/
  recent : List Alert
  /-- What `expandSubgraph` has come to since then. -/
  suspects : List Alert

namespace AlertLog

def empty : AlertLog := ⟨[], [], [], [], []⟩

/-- The alerts that rounds have taken to expand the subgraph by them. -/
def toExpand (log : AlertLog) : List Alert := (log.taken.filter fun e => !e.1).map Prod.snd

/-- What the next step of the builder does. -/
def builder (log : AlertLog) (s : BuilderState) : AlertLog :=
  match s.phase with
  | .updates [] => { log with taken := log.taken ++ s.mFD.mAlerts.map (Prod.mk false) }
  | .alerts _ (alert :: _) =>
    { log with expanded := log.expanded ++ [alert], suspects := log.suspects ++ [alert] }
  | .alerts _ [] =>
    if s.aborts then
      { log with taken := log.taken ++ s.mFD.mAlerts.map (Prod.mk true), recent := [], suspects := [] }
    else log
  | _ => log

def record (log : AlertLog) (s : BuilderState) : BuilderAction → AlertLog
  | .emit alert => { log with emitted := log.emitted ++ [alert], recent := log.recent ++ [alert] }
  | .builder _ => log.builder s
  | _ => log

end AlertLog

/-- A step of the threads, with the log beside it. -/
def alertStep (s : BuilderState × AlertLog) (a : BuilderAction) : Option (BuilderState × AlertLog) :=
  (s.1.step a).map fun t => (t, s.2.record s.1 a)

/-- A graph to which the members of these alerts are added, one after the other. -/
def Graph.addAll (g : Graph) (alerts : List Alert) : Graph := alerts.foldl (fun g alert => (g.add alert.member).1) g

/-- Every alert is handed out once, in order: to a round, which adds its member to the subgraph once, or
    to an abort. -/
structure AlertsDelivered (s : BuilderState) (log : AlertLog) : Prop where
  emitted : log.emitted = log.taken.map Prod.snd ++ s.mFD.mAlerts
  expanded : log.toExpand = log.expanded ++ s.phase.newAlerts
  sinceAbort : log.suspects <:+ log.expanded
  subgraph : s.mSAG = Graph.new.addAll log.suspects

/-- The vertices are the members of the alerts since the last abort, but for those still on the way. -/
structure SubgraphOfAlerts (s : BuilderState) (log : AlertLog) : Prop where
  recent : log.recent = log.suspects ++ s.phase.newAlerts ++ s.mFD.mAlerts
  vertices : s.mSAG.mVertices.map MemberPtr.target =
    (log.suspects.map fun alert => alert.member.target).eraseDups

/-! One more alert. -/

section
variable {A : Type} [BEq A] [LawfulBEq A] {as : List A} {b : A}

theorem eraseDups_concat_of_mem (h : b ∈ as) : (as ++ [b]).eraseDups = as.eraseDups := by
  simp [List.eraseDups_append, List.removeAll, h]

theorem eraseDups_concat_of_not_mem (h : b ∉ as) : (as ++ [b]).eraseDups = as.eraseDups ++ [b] := by
  simp [List.eraseDups_append, List.removeAll, h, List.eraseDups_cons]

end

/-- Adding a vertex is one more alert of which the first of each member counts. -/
theorem Graph.add_eraseDups {g : Graph} {alerts : List Alert} {alert : Alert}
    (h : g.mVertices.map MemberPtr.target = (alerts.map fun a => a.member.target).eraseDups) :
    (g.add alert.member).1.mVertices.map MemberPtr.target =
      ((alerts ++ [alert]).map fun a => a.member.target).eraseDups := by
  have hany : (g.mVertices.any fun q => q.eq alert.member) = true ↔
      alert.member.target ∈ alerts.map fun a => a.member.target := by
    rw [← List.mem_eraseDups, ← h]
    simp [MemberPtr.eq, MemberPtr.target]
  rw [List.map_append, List.map_singleton]
  unfold add
  by_cases hmem : alert.member.target ∈ alerts.map fun a => a.member.target
  · rw [if_pos (hany.mpr hmem), eraseDups_concat_of_mem hmem]
    exact h
  · rw [if_neg (mt hany.mp hmem), eraseDups_concat_of_not_mem hmem, ← h, List.map_append, List.map_singleton]

/-! What a step keeps. -/

namespace BuilderState

variable {s s' : BuilderState} {log : AlertLog}

/-- An abort takes the alerts that are left and forgets the subgraph. -/
theorem builderStep_abort {store : StoreView} (h : s.builderStep store = some s') (habort : s.aborts = true) :
    (∃ emittedAlerts, s.phase = .alerts emittedAlerts []) ∧ s'.mFD.mAlerts = [] ∧
      s'.mSAG.mVertices = [] ∧ s'.phase = .idle := by
  unfold aborts at habort
  split at habort
  · next emittedAlerts hp =>
    simp only [builderStep, hp] at h
    obtain ⟨r, hr, rfl⟩ := Option.map_eq_some_iff.mp h
    rw [hr, Option.any_some] at habort
    rw [if_pos habort]
    exact ⟨⟨emittedAlerts, hp⟩, rfl, rfl, rfl⟩
  · cases habort

/-- What a step that is not the builder's leaves to the alerts. -/
theorem step_alerts {a : BuilderAction} (h : s.step a = some s') (ha : ∀ store, a ≠ .builder store) :
    s'.mFD.mAlerts = s.mFD.mAlerts ++ match a with | .emit alert => [alert] | _ => [] := by
  cases a with
  | update u =>
    obtain rfl | ⟨_, _, _, _, _, rfl⟩ := step_update h
    · exact (List.append_nil _).symm
    · exact (List.append_nil _).symm
  | queue =>
    obtain ⟨r, _, rfl⟩ := Option.map_eq_some_iff.mp h
    exact (List.append_nil _).symm
  | store op =>
    obtain ⟨store, _, rfl⟩ := Option.map_eq_some_iff.mp h
    exact (List.append_nil _).symm
  | watchlist op =>
    obtain ⟨w, _, rfl⟩ := Option.map_eq_some_iff.mp h
    exact (List.append_nil _).symm
  | emit alert =>
    obtain ⟨m, _, _, rfl⟩ := step_emit h
    rfl
  | builder store => exact absurd rfl (ha store)

/-- The three things a step of the builder can do to the alerts, and the rest. -/
inductive AlertMove (s s' : BuilderState) (log log' : AlertLog) : Prop where
  | take (before : s.phase.newAlerts = []) (alerts : s'.mFD.mAlerts = [])
      (after : s'.phase.newAlerts = s.mFD.mAlerts) (vertices : s'.mSAG = s.mSAG)
      (logged : log' = { log with taken := log.taken ++ s.mFD.mAlerts.map (Prod.mk false) })
  | expand (alert : Alert) (before : s.phase.newAlerts = alert :: s'.phase.newAlerts)
      (alerts : s'.mFD.mAlerts = s.mFD.mAlerts) (vertices : s'.mSAG = (s.mSAG.add alert.member).1)
      (logged : log' = { log with
        expanded := log.expanded ++ [alert], suspects := log.suspects ++ [alert] })
  | abort (before : s.phase.newAlerts = []) (alerts : s'.mFD.mAlerts = []) (after : s'.phase.newAlerts = [])
      (vertices : s'.mSAG.mVertices = [])
      (logged : log' = { log with
        taken := log.taken ++ s.mFD.mAlerts.map (Prod.mk true), recent := [], suspects := [] })
  | other (alerts : s'.mFD.mAlerts = s.mFD.mAlerts) (after : s'.phase.newAlerts = s.phase.newAlerts)
      (vertices : s'.mSAG = s.mSAG) (logged : log' = log)

theorem alertMove {store : StoreView} (h : s.builderStep store = some s') :
    AlertMove s s' log (log.builder s) := by
  cases hgo : s.aborts with
  | true =>
    obtain ⟨⟨emittedAlerts, hp⟩, halerts, hvertices, hphase⟩ := builderStep_abort h hgo
    refine .abort (by rw [hp]; rfl) halerts (by rw [hphase]; rfl) hvertices ?_
    simp only [AlertLog.builder, hp, hgo, if_true]
  | false =>
    have hmove := builderStep_move h hgo
    -- only `take` and `expand` move alerts
    cases hmove with
    | take hp => exact .take (by rw [hp]; rfl) rfl rfl rfl (by simp only [AlertLog.builder, hp])
    | present hp hin =>
      refine .expand _ (by rw [hp]; rfl) rfl (Graph.add_eq_of_not_added hin).symm ?_
      simp only [AlertLog.builder, hp]
    | expand hp hnew hm hscan =>
      refine .expand _ (by rw [hp]; rfl) rfl rfl ?_
      simp only [AlertLog.builder, hp]
    | finish hp =>
      refine .other rfl (by rw [hp]; rfl) rfl ?_
      simp only [AlertLog.builder, hp, hgo, Bool.false_eq_true, if_false]
    | enter hp | leave hp | seen hp _ | unseen hp | add hp | expanded hp | addIncoming hp | drain hp =>
      refine .other rfl (by rw [hp]; rfl) rfl ?_
      simp only [AlertLog.builder, hp]
    | skip hp hout =>
      refine .other rfl (by rw [hp]; rfl) rfl ?_
      simp only [AlertLog.builder, hp]

end BuilderState

theorem toExpand_append (log : AlertLog) (abort : Bool) (alerts : List Alert) :
    { log with taken := log.taken ++ alerts.map (Prod.mk abort) }.toExpand =
      log.toExpand ++ if abort then [] else alerts := by
  have hfilter : ∀ alerts : List Alert,
      ((alerts.map (Prod.mk abort)).filter fun e => !e.1).map Prod.snd = if abort then [] else alerts := by
    intro alerts
    cases abort with
    | true => simp
    | false => simp [List.filter_map, Function.comp_def]
  simp only [AlertLog.toExpand, List.filter_append, List.map_append, hfilter]

section
variable {s s' : BuilderState} {log log' : AlertLog}

theorem AlertsDelivered.move (h : AlertsDelivered s log) (hmove : BuilderState.AlertMove s s' log log') :
    AlertsDelivered s' log' := by
  obtain ⟨hemitted, hexpanded, hsince, hsubgraph⟩ := h
  cases hmove with
  | take before alerts after vertices logged =>
    subst logged
    refine ⟨?_, ?_, hsince, vertices.trans hsubgraph⟩
    · simp [hemitted, alerts, Function.comp_def]
    · rw [toExpand_append, hexpanded, before, after]
      simp
  | expand alert before alerts vertices logged =>
    subst logged
    refine ⟨by rw [alerts]; exact hemitted, ?_, ?_, ?_⟩
    · show log.toExpand = (log.expanded ++ [alert]) ++ s'.phase.newAlerts
      rw [hexpanded, before, List.append_assoc]
      rfl
    · obtain ⟨before, hbefore⟩ := hsince
      exact ⟨before, by rw [← hbefore, List.append_assoc]⟩
    · rw [vertices, hsubgraph]
      show _ = List.foldl _ Graph.new (log.suspects ++ [alert])
      rw [List.foldl_append]
      rfl
  | abort before alerts after vertices logged =>
    subst logged
    refine ⟨?_, ?_, List.nil_suffix, ?_⟩
    · simp [hemitted, alerts, Function.comp_def]
    · show { log with taken := log.taken ++ s.mFD.mAlerts.map (Prod.mk true) }.toExpand = _
      rw [toExpand_append, hexpanded, before, after]
      simp
    · show s'.mSAG = ⟨[]⟩
      rw [← vertices]
  | other alerts after vertices logged =>
    subst logged
    exact ⟨by rw [alerts]; exact hemitted, by rw [after]; exact hexpanded, hsince, vertices.trans hsubgraph⟩

theorem SubgraphOfAlerts.move (h : SubgraphOfAlerts s log) (hmove : BuilderState.AlertMove s s' log log') :
    SubgraphOfAlerts s' log' := by
  obtain ⟨hrecent, hvertices⟩ := h
  cases hmove with
  | take before alerts after vertices logged =>
    subst logged
    refine ⟨?_, by rw [vertices]; exact hvertices⟩
    rw [alerts, after, List.append_nil]
    simpa [before] using hrecent
  | expand alert before alerts vertices logged =>
    subst logged
    refine ⟨?_, by rw [vertices]; exact Graph.add_eraseDups hvertices⟩
    show log.recent = (log.suspects ++ [alert]) ++ s'.phase.newAlerts ++ s'.mFD.mAlerts
    rw [hrecent, before, alerts]
    simp
  | abort before alerts after vertices logged =>
    subst logged
    exact ⟨by simp [alerts, after], by simp [vertices]⟩
  | other alerts after vertices logged =>
    subst logged
    exact ⟨by rw [alerts, after]; exact hrecent, by rw [vertices]; exact hvertices⟩

/-- A step that is not the builder's can do no more than add an alert. -/
theorem delivered_step {a : BuilderAction} (h : AlertsDelivered s log ∧ SubgraphOfAlerts s log)
    (hs : s.step a = some s') : AlertsDelivered s' (log.record s a) ∧ SubgraphOfAlerts s' (log.record s a) := by
  by_cases ha : ∃ store, a = .builder store
  · obtain ⟨store, rfl⟩ := ha
    have hmove : BuilderState.AlertMove s s' log (log.builder s) := BuilderState.alertMove hs
    exact ⟨h.1.move hmove, h.2.move hmove⟩
  · have hne : ∀ store, a ≠ .builder store := fun store heq => ha ⟨store, heq⟩
    have hbeside := BuilderState.step_beside hs hne
    have halerts := BuilderState.step_alerts hs hne
    obtain ⟨⟨hemitted, hexpanded, hsince, hsubgraph⟩, ⟨hrecent, hvertices⟩⟩ := h
    have hsubgraph' := hbeside.mSAG.trans hsubgraph
    -- of the other threads' steps only `emit` is about alerts
    cases a with
    | emit alert =>
      refine ⟨⟨?_, by rw [hbeside.phase]; exact hexpanded, hsince, hsubgraph'⟩,
        ⟨?_, by rw [hbeside.mSAG]; exact hvertices⟩⟩
      · show log.emitted ++ [alert] = _
        rw [hemitted, halerts, List.append_assoc]
        rfl
      · show log.recent ++ [alert] = _
        rw [hrecent, halerts, hbeside.phase]
        simp only [List.append_assoc, AlertLog.record]
    | builder store => exact absurd rfl (hne store)
    | update _ | queue | store _ | watchlist _ =>
      rw [List.append_nil] at halerts
      exact ⟨⟨by rw [halerts]; exact hemitted, by rw [hbeside.phase]; exact hexpanded, hsince, hsubgraph'⟩,
        ⟨by rw [halerts, hbeside.phase]; exact hrecent, by rw [hbeside.mSAG]; exact hvertices⟩⟩

end

theorem delivered_run {k k' : PrimaryKey} {names : List String} {size : Nat} {criteria : AbortCriteria}
    {acts : List BuilderAction} {r : BuilderState × AlertLog}
    (reached : run alertStep (.new k k' names size criteria, .empty) acts = some r) :
    AlertsDelivered r.1 r.2 ∧ SubgraphOfAlerts r.1 r.2 := by
  refine run_preserves (I := fun r => AlertsDelivered r.1 r.2 ∧ SubgraphOfAlerts r.1 r.2) ?_
    ⟨⟨rfl, rfl, List.nil_suffix, rfl⟩, ⟨rfl, rfl⟩⟩ reached
  intro s a t h hs
  obtain ⟨t, ht, rfl⟩ := Option.map_eq_some_iff.mp hs
  exact delivered_step h ht

/-- In every reachable state of the three threads, whenever fault detection pushes its alerts: they have
    been handed out in order and once each, and those handed to rounds have been expanded in order and
    once each, but for the ones that the running round has still to come to; and the subgraph is the empty
    one, expanded by those since the last abort. -/
theorem alerts_delivered_once (parameterEventsKey rosoutKey : PrimaryKey) (names : List String) (size : Nat)
    (criteria : AbortCriteria) (acts : List BuilderAction) (s : BuilderState) (log : AlertLog)
    (reached : run alertStep (.new parameterEventsKey rosoutKey names size criteria, .empty) acts =
      some (s, log)) : AlertsDelivered s log := (delivered_run reached).1

/-- A node is stored, an alert on it is pushed, and a round takes it and expands the subgraph by it. -/
def quietAlerts : List BuilderAction :=
  .store (.emplaceNode quietNode 0) :: .emit quietAlert :: builderSteps 3

theorem alerts_delivered_quiet : ∃ s log, run alertStep (quietBuilder, .empty) quietAlerts = some (s, log) ∧
    log.expanded = [quietAlert] ∧ s.mSAG.mVertices = [quietAlert.member] ∧ AlertsDelivered s log :=
  ⟨_, _, rfl, rfl, rfl, alerts_delivered_once "e" "r" [] 2 ⟨false, ⟨2, [], some 0⟩, 10⟩ quietAlerts _ _ rfl⟩

/-- In every reachable state, the vertices of the subgraph are the members of the alerts since the last
    abort, each once, in the order of its first alert; only alerts that the running round has still to
    come to, or that wait for the next one, are not among them. -/
theorem subgraph_of_alerts (parameterEventsKey rosoutKey : PrimaryKey) (names : List String) (size : Nat)
    (criteria : AbortCriteria) (acts : List BuilderAction) (s : BuilderState) (log : AlertLog)
    (reached : run alertStep (.new parameterEventsKey rosoutKey names size criteria, .empty) acts =
      some (s, log)) : SubgraphOfAlerts s log := (delivered_run reached).2

theorem subgraph_of_alerts_quiet : ∃ s log, run alertStep (quietBuilder, .empty) quietAlerts = some (s, log) ∧
    s.mSAG.mVertices = [quietAlert.member] ∧ SubgraphOfAlerts s log :=
  ⟨_, _, rfl, rfl, subgraph_of_alerts "e" "r" [] 2 ⟨false, ⟨2, [], some 0⟩, 10⟩ quietAlerts _ _ rfl⟩

end StreamFdl
