import StreamFdl.BlindspotCalls
import StreamFdl.QueryResponse
import StreamFdl.SubgraphBuilder

/- The blind spot check of `DynamicSubgraphBuilder::run`, in rounds of the builder
   beside the other threads. The head of a round looks at the CPU utilisation and
   at a counter that comes round once in every interval; the check requests the
   full graph, searches it, and passes what is reported to the watchlist one by
   one. The rest of the round, and the other threads, are those of `BuilderState`.

   The watchlist takes none of it. `addMember` goes on only for a member that is on
   the list, and then its assertion fails: so a check that ends has changed
   nothing, nothing on the list is ever a blind spot, and `notifyUsed`, which waits
   for one, never removes anything. -/
namespace StreamFdl
open Runs

namespace Watchlist

/-- Every entry is one of `tryInitialise`. -/
def OnlyInitial (w : Watchlist) : Prop := ∀ e ∈ w.mMembers.entries, e.1.valid = true ∧ e.2 = .TYPE_INITIAL

variable {w w' : Watchlist}

theorem OnlyInitial.allValid (h : w.OnlyInitial) : w.AllValid := fun e he => (h e he).1

theorem onlyInitial_new (names : List String) : (new names).OnlyInitial := by simp [OnlyInitial, new]

theorem onlyInitial_reset (w : Watchlist) : w.reset.OnlyInitial := by simp [OnlyInitial, reset]

theorem initialiseFrom_initial {store : StoreView} {names : List String} {members : InternalMembers}
    (h : ∀ e ∈ members.entries, e.2 = .TYPE_INITIAL) :
    ∀ e ∈ (initialiseFrom store names members).2.entries, e.2 = .TYPE_INITIAL := by
  induction names generalizing members with
  | nil => exact h
  | cons name names ih =>
    simp only [initialiseFrom]
    split
    · refine ih fun e he => ?_
      obtain rfl | he := OrderedMap.mem_emplace he
      · rfl
      · exact h e he
    · exact ih h

/-- No operation puts anything else on the list, whatever type it is told to add. -/
theorem step_onlyInitial (op : Op) (h : w.OnlyInitial) (hs : w.step op = some w') : w'.OnlyInitial := by
  cases op with
  | addMember store member type => exact h.allValid.addMember_same hs ▸ h
  | addMemberPtr member type => exact h.allValid.addMemberPtr_same hs ▸ h
  | getMembers store =>
    cases hs
    intro e he
    exact ⟨initialiseFrom_valid h.allValid e he, initialiseFrom_initial (fun e he => (h e he).2) e he⟩
  | contains member =>
    cases hs
    exact h
  | reset =>
    cases hs
    exact w.onlyInitial_reset
  | notifyUsed member =>
    cases hs
    simp only [notifyUsed]
    split
    · exact fun e he => h e (List.eraseP_subset he)
    · exact h

/-- There is no blind spot on the list that could be used. -/
theorem OnlyInitial.notifyUsed_eq (h : w.OnlyInitial) (member : PrimaryKey) : w.notifyUsed member = (w, false) := by
  unfold notifyUsed
  split
  · next p hget =>
    have hinitial := (h _ (List.mem_of_find?_eq_some hget)).2
    cases hinitial
  · rfl

end Watchlist

namespace BuilderState

variable {s s' : BuilderState}

theorem addMember_watchlist {store : StoreView} {member : MemberProxy} {next : Phase} (h : s.mWatchlist.OnlyInitial)
    (hs : s.addMember store member next = some s') : s'.mWatchlist.OnlyInitial := by
  obtain ⟨w, hw, rfl⟩ := Option.map_eq_some_iff.mp hs
  exact h.allValid.addMember_same hw ▸ h

theorem builderStep_watchlist {store : StoreView} (h : s.mWatchlist.OnlyInitial)
    (hs : s.builderStep store = some s') : s'.mWatchlist.OnlyInitial := by
  unfold builderStep at hs
  split at hs
  · cases hs; exact h
  · cases hs; exact h
  · split at hs
    · cases hs; exact h
    · cases hs; exact h
  · cases hs; exact h
  · split at hs
    · cases hs; exact h
    · cases hs; exact h
  · exact addMember_watchlist h hs
  · unfold expand at hs
    simp only at hs
    split at hs
    · obtain ⟨incoming, _, rfl⟩ := Option.map_eq_some_iff.mp hs
      exact h
    · cases hs; exact h
  · cases hs; exact h
  · exact addMember_watchlist h hs
  · obtain ⟨r, _, rfl⟩ := Option.map_eq_some_iff.mp hs
    split
    · exact s.mWatchlist.onlyInitial_reset
    · exact h

/-- Whatever the threads do, only initial members are on the watchlist. -/
theorem step_watchlist {a : BuilderAction} (h : s.mWatchlist.OnlyInitial) (hs : s.step a = some s') :
    s'.mWatchlist.OnlyInitial := by
  cases a with
  | update u =>
    simp only [step] at hs
    split at hs
    · cases hs
    · obtain ⟨it, _, hs⟩ := Option.bind_eq_some_iff.mp hs
      cases it with
      | none => cases hs; exact h
      | some it =>
        obtain ⟨store, _, hs⟩ := Option.bind_eq_some_iff.mp hs
        cases hs
        exact h
  | queue =>
    obtain ⟨r, _, rfl⟩ := Option.map_eq_some_iff.mp hs
    exact h
  | store op =>
    obtain ⟨store, _, rfl⟩ := Option.map_eq_some_iff.mp hs
    exact h
  | watchlist op =>
    obtain ⟨w, hw, rfl⟩ := Option.map_eq_some_iff.mp hs
    exact Watchlist.step_onlyInitial op h hw
  | emit alert =>
    obtain ⟨m, _, hs⟩ := Option.bind_eq_some_iff.mp hs
    split at hs
    · cases hs; exact h
    · cases hs
  | builder store => exact builderStep_watchlist h hs

end BuilderState

/-! The rounds. -/

/-- Where the builder's thread stands while a round has not drained the updates. -/
inductive CheckStage where
  /-- At the head of the round. -/
  | due
  /-- In the loop over the potential blind spots, or behind it. -/
  | adding (left : MemberProxies)

def CheckStage.left : CheckStage → MemberProxies
  | due => []
  | adding left => left

/-- What the configuration sets. -/
structure CheckConfig where
  cmBlindspotInterval : Nat
  cmMaximumCpuUtilisation : Rat

/-- The builder with the counter of its checks; the last two fields are the history, and no step reads
    them. -/
structure BlindspotState where
  builder : BuilderState
  mBlindSpotCheckCounter : Nat
  stage : CheckStage
  /-- For each round the CPU utilisation at its head, and the graph that was checked. -/
  rounds : List (Rat × Option GraphView)
  /-- What has been passed to `addMember`. -/
  passed : MemberProxies

inductive BlindspotAction (J : Type) where
  /-- The head of a round; `json` and `received` are what its request for the graph meets. -/
  | head (cpuUtilisation : Rat) (json : JsonLibrary J) (received : List Package)
  /-- A pass of the loop of `blindSpotCheck`. -/
  | addBlindspot (store : StoreView)
  /-- A step of the rest of the round, or of another thread. -/
  | threads (a : BuilderAction)

/-- The step begins the rest of a round. -/
def BuilderAction.drains (s : BuilderState) : BuilderAction → Bool
  | .builder _ => s.phase.isIdle
  | _ => false

/-- The first part of `blindSpotCheck`. -/
def BuilderState.potentialBlindSpots {J : Type} (s : BuilderState) (json : JsonLibrary J) (received : List Package) :
    Option (GraphView × MemberProxies) := do
  let fullGraph ← s.mpDataStore.receiveGraphView json received
  let potentialBlindSpots ← getBlindspots fullGraph
  pure (fullGraph, potentialBlindSpots)

namespace BlindspotState

variable {J : Type}

def new (builder : BuilderState) : BlindspotState := ⟨builder, 0, .due, [], []⟩

/-- The counter after this round; without an interval the remainder is not defined. -/
def advance (s : BlindspotState) (config : CheckConfig) : Option Nat :=
  if config.cmBlindspotInterval = 0 then none
  else some ((s.mBlindSpotCheckCounter + 1) % config.cmBlindspotInterval)

def head (s : BlindspotState) (config : CheckConfig) (cpuUtilisation : Rat) (json : JsonLibrary J)
    (received : List Package) : Option BlindspotState := do
  let counter ← s.advance config
  if s.mBlindSpotCheckCounter = 0 ∧ cpuUtilisation < config.cmMaximumCpuUtilisation then
    let (fullGraph, potentialBlindSpots) ← s.builder.potentialBlindSpots json received
    pure { s with
      mBlindSpotCheckCounter := counter
      stage := .adding potentialBlindSpots
      rounds := s.rounds ++ [(cpuUtilisation, some fullGraph)] }
  else
    pure { s with
      mBlindSpotCheckCounter := counter, stage := .adding [], rounds := s.rounds ++ [(cpuUtilisation, none)] }

/-- A step; no result when the action is not the next one of its thread, or when it ends the program. -/
def step (config : CheckConfig) (s : BlindspotState) : BlindspotAction J → Option BlindspotState
  | .head cpuUtilisation json received =>
    match s.stage with
    | .due => if s.builder.phase.isIdle then s.head config cpuUtilisation json received else none
    | .adding _ => none
  | .addBlindspot store =>
    match s.stage with
    | .adding (member :: left) => (s.builder.mWatchlist.addMember store member .TYPE_BLINDSPOT).map fun w =>
      { s with
        builder := s.builder.watch [member.mPrimaryKey] w
        stage := .adding left
        passed := s.passed ++ [member] }
    | _ => none
  | .threads a =>
    if a.drains s.builder then
      match s.stage with
      | .adding [] => (s.builder.step a).map fun builder => { s with builder := builder, stage := .due }
      | _ => none
    else (s.builder.step a).map fun builder => { s with builder := builder }

/-- What the checks of the rounds reported. -/
def reported (s : BlindspotState) : MemberProxies :=
  s.rounds.flatMap fun round => (round.2.bind getBlindspots).getD []

/-- Along the run: a round checks when the counter has come round and the CPU is not busy; what the checks
    report is passed on, in order and once; and none of it is on the watchlist. -/
structure Checked (config : CheckConfig) (s : BlindspotState) : Prop where
  counter : s.mBlindSpotCheckCounter = s.rounds.length % config.cmBlindspotInterval
  scheduled : ∀ k round, s.rounds[k]? = some round → (round.2.isSome = true ↔
    k % config.cmBlindspotInterval = 0 ∧ round.1 < config.cmMaximumCpuUtilisation)
  passed : s.passed ++ s.stage.left = s.reported
  initial : s.builder.mWatchlist.OnlyInitial

variable {config : CheckConfig} {s t : BlindspotState}

theorem checked_new {builder : BuilderState} (h : builder.mWatchlist.OnlyInitial) : (new builder).Checked config where
  counter := (Nat.zero_mod _).symm
  scheduled := fun k round hround => by cases hround
  passed := rfl
  initial := h

/-- One more round, which kept to the schedule. -/
theorem Checked.round (h : s.Checked config) {cpuUtilisation : Rat} {checked : Option GraphView} {counter : Nat}
    {stage : CheckStage} (hcounter : s.advance config = some counter)
    (hchecked : checked.isSome = true ↔
      s.mBlindSpotCheckCounter = 0 ∧ cpuUtilisation < config.cmMaximumCpuUtilisation)
    (hstage : s.stage = .due) (hleft : stage.left = (checked.bind getBlindspots).getD []) :
    Checked config { s with
      mBlindSpotCheckCounter := counter, stage := stage, rounds := s.rounds ++ [(cpuUtilisation, checked)] } where
  counter := by
    unfold advance at hcounter
    split at hcounter
    · cases hcounter
    · cases hcounter
      show (s.mBlindSpotCheckCounter + 1) % _ = (s.rounds ++ _).length % _
      rw [h.counter, Nat.mod_add_mod, List.length_append]
      rfl
  scheduled := fun k round hround => by
    -- the round is an earlier one, or the one that was just made
    obtain hlt | hge := Nat.lt_or_ge k s.rounds.length
    · rw [List.getElem?_append_left hlt] at hround
      exact h.scheduled k round hround
    · rw [List.getElem?_append_right hge] at hround
      obtain ⟨hk, hround⟩ := List.getElem?_eq_some_iff.mp hround
      have hlast : k = s.rounds.length := by
        rw [List.length_singleton] at hk
        omega
      subst hlast
      obtain rfl : (cpuUtilisation, checked) = round := by simpa using hround
      rw [hchecked, h.counter]
  passed := by
    have hreported := h.passed
    rw [hstage, show CheckStage.left .due = [] from rfl, List.append_nil] at hreported
    show s.passed ++ stage.left = List.flatMap _ (s.rounds ++ _)
    rw [List.flatMap_append, hleft, hreported, reported]
    simp
  initial := h.initial

theorem Checked.head (h : s.Checked config) {cpuUtilisation : Rat} {json : JsonLibrary J}
    {received : List Package} (hstage : s.stage = .due) (hs : s.head config cpuUtilisation json received = some t) :
    t.Checked config := by
  obtain ⟨counter, hcounter, hs⟩ := Option.bind_eq_some_iff.mp hs
  split at hs
  · next hdue =>
    obtain ⟨⟨fullGraph, potentialBlindSpots⟩, hspots, hs⟩ := Option.bind_eq_some_iff.mp hs
    cases hs
    obtain ⟨fullGraph', _, hspots⟩ := Option.bind_eq_some_iff.mp hspots
    obtain ⟨potentialBlindSpots', hsearch, hspots⟩ := Option.bind_eq_some_iff.mp hspots
    cases hspots
    refine h.round hcounter (iff_of_true rfl hdue) hstage ?_
    show potentialBlindSpots = (getBlindspots fullGraph).getD []
    rw [hsearch]
    rfl
  · next hdue =>
    cases hs
    exact h.round hcounter (iff_of_false (by simp) hdue) hstage rfl

/-- A pass of the check that returns leaves the watchlist as it was. -/
theorem Checked.addBlindspot (h : s.Checked config) {store : StoreView} (hs : s.step config (.addBlindspot (J := J) store) = some t) :
    t.Checked config ∧ t.builder.mWatchlist = s.builder.mWatchlist := by
  simp only [step] at hs
  split at hs
  · next member left hstage =>
    obtain ⟨w, hw, rfl⟩ := Option.map_eq_some_iff.mp hs
    have hsame := h.initial.allValid.addMember_same hw
    subst hsame
    refine ⟨⟨h.counter, h.scheduled, ?_, h.initial⟩, rfl⟩
    have hpassed := h.passed
    rw [hstage] at hpassed
    show s.passed ++ [member] ++ left = s.reported
    rw [List.append_assoc]
    exact hpassed
  · cases hs

theorem Checked.threads (h : s.Checked config) {a : BuilderAction} (hs : s.step config (.threads (J := J) a) = some t) :
    t.Checked config := by
  simp only [step] at hs
  split at hs
  · split at hs
    · next hstage =>
      obtain ⟨builder, hbuilder, rfl⟩ := Option.map_eq_some_iff.mp hs
      have hpassed := h.passed
      rw [hstage] at hpassed
      exact ⟨h.counter, h.scheduled, hpassed, BuilderState.step_watchlist h.initial hbuilder⟩
    · cases hs
  · obtain ⟨builder, hbuilder, rfl⟩ := Option.map_eq_some_iff.mp hs
    exact ⟨h.counter, h.scheduled, h.passed, BuilderState.step_watchlist h.initial hbuilder⟩

theorem step_checked (s : BlindspotState) (a : BlindspotAction J) (t : BlindspotState) (h : s.Checked config)
    (hs : s.step config a = some t) : t.Checked config := by
  cases a with
  | head cpuUtilisation json received =>
    simp only [step] at hs
    split at hs
    · next hstage =>
      split at hs
      · exact h.head hstage hs
      · cases hs
    · cases hs
  | addBlindspot store => exact (h.addBlindspot hs).1
  | threads a => exact h.threads hs

theorem checked_run {k k' : PrimaryKey} {names : List String} {size : Nat} {criteria : AbortCriteria}
    {acts : List (BlindspotAction J)} (reached : run (step config) (.new (.new k k' names size criteria)) acts = some s) :
    s.Checked config :=
  run_preserves step_checked (checked_new (Watchlist.onlyInitial_new names)) reached

end BlindspotState

/-- In every run, a round checks for blind spots exactly when its number is a multiple of the interval and
    its CPU utilisation below the maximum; and what its search reports is passed to the watchlist once and
    in order, as far as the loop has come. -/
theorem blindspot_checks_scheduled {J : Type} (k k' : PrimaryKey) (names : List String) (size : Nat)
    (criteria : AbortCriteria) (config : CheckConfig) (acts : List (BlindspotAction J)) (s : BlindspotState)
    (reached : run (BlindspotState.step config) (.new (.new k k' names size criteria)) acts = some s) :
    (∀ i round, s.rounds[i]? = some round → (round.2.isSome = true ↔
      i % config.cmBlindspotInterval = 0 ∧ round.1 < config.cmMaximumCpuUtilisation)) ∧
    s.passed ++ s.stage.left = s.reported :=
  have h := BlindspotState.checked_run reached
  ⟨h.scheduled, h.passed⟩

/-- A check every second round, while less than half of the CPU is used. -/
def everySecond : CheckConfig := ⟨2, 50⟩

/-- The second node of the example response is reported in the first round, and the second round does not
    check. -/
def checkedRound : List (BlindspotAction Json) :=
  [.head 10 exampleJson exampleLines, .addBlindspot exampleStore, .threads (.builder exampleStore),
    .threads (.builder exampleStore), .threads (.builder exampleStore), .head 10 exampleJson exampleLines]

theorem blindspot_checks_scheduled_second : ∃ s,
    run (BlindspotState.step everySecond) (.new (.new "e" "r" [] 2 ⟨false, ⟨2, [], some 0⟩, 10⟩)) checkedRound =
      some s ∧ s.rounds.map (fun round => round.2.isSome) = [true, false] ∧
    s.passed ++ s.stage.left = s.reported := by
  have hrun : ∃ s, s ∈ run (BlindspotState.step everySecond)
      (.new (.new "e" "r" [] 2 ⟨false, ⟨2, [], some 0⟩, 10⟩)) checkedRound ∧
      s.rounds.map (fun round => round.2.isSome) = [true, false] := by decide +kernel
  obtain ⟨s, reached, hrounds⟩ := hrun
  exact ⟨s, reached, hrounds, (blindspot_checks_scheduled "e" "r" [] 2 _ everySecond _ s reached).2⟩

/-- In every run, a pass of the check fails its assertion when the reported member is watched and not an
    ignored topic, and changes nothing on the watchlist otherwise; so no blind spot is ever on the list, and
    no member is ever found to be a used one. -/
theorem blindspots_never_watched {J : Type} (k k' : PrimaryKey) (names : List String) (size : Nat)
    (criteria : AbortCriteria) (config : CheckConfig) (acts : List (BlindspotAction J)) (s : BlindspotState)
    (reached : run (BlindspotState.step config) (.new (.new k k' names size criteria)) acts = some s) :
    (∀ store member left, s.stage = .adding (member :: left) →
      (s.step config (.addBlindspot (J := J) store) = none ↔
        Watchlist.ignores store member.mIsTopic member.mPrimaryKey = false ∧
          s.builder.mWatchlist.contains member.mPrimaryKey = true) ∧
      ∀ t, s.step config (.addBlindspot (J := J) store) = some t → t.builder.mWatchlist = s.builder.mWatchlist) ∧
    (∀ e ∈ s.builder.mWatchlist.mMembers.entries, e.2 ≠ .TYPE_BLINDSPOT) ∧
    ∀ member, s.builder.mWatchlist.notifyUsed member = (s.builder.mWatchlist, false) := by
  have h := BlindspotState.checked_run reached
  refine ⟨fun store member left hstage => ⟨?_, fun t ht => (h.addBlindspot ht).2⟩, fun e he => ?_,
    h.initial.notifyUsed_eq⟩
  · simp only [BlindspotState.step, hstage, Option.map_eq_none_iff]
    rw [h.initial.allValid.addMember_eq]
    unfold Watchlist.ignores
    cases hignored : member.mIsTopic && store.checkTopicPrimaryIgnored member.mPrimaryKey with
    | true => simp
    | false =>
      cases hwatched : s.builder.mWatchlist.contains member.mPrimaryKey <;> simp
  · rw [(h.initial e he).2]
    simp

/-- The node is reported, and not watched. -/
theorem blindspots_never_watched_node : ∃ s left,
    run (BlindspotState.step everySecond) (.new (.new "e" "r" [] 2 ⟨false, ⟨2, [], some 0⟩, 10⟩))
      (checkedRound.take 1) = some s ∧ s.stage = .adding (⟨"b", false⟩ :: left) ∧
    s.step everySecond (.addBlindspot (J := Json) exampleStore) ≠ none := by
  have hrun : ∃ s, s ∈ run (BlindspotState.step everySecond)
      (.new (.new "e" "r" [] 2 ⟨false, ⟨2, [], some 0⟩, 10⟩)) (checkedRound.take 1) ∧
      s.stage.left = [⟨"b", false⟩] ∧ s.builder.mWatchlist.contains "b" = false := by decide +kernel
  obtain ⟨s, reached, hleft, hout⟩ := hrun
  have hstage : s.stage = .adding [⟨"b", false⟩] := by
    cases hstage : s.stage with
    | due =>
      rw [hstage] at hleft
      cases hleft
    | adding left =>
      rw [hstage] at hleft
      exact congrArg CheckStage.adding hleft
  refine ⟨s, [], reached, hstage, fun hnone => ?_⟩
  have h := (blindspots_never_watched "e" "r" [] 2 _ everySecond _ s reached).1 exampleStore _ _ hstage
  rw [(h.1.mp hnone).2] at hout
  cases hout

end StreamFdl
