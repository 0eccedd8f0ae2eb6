import StreamFdl.DetectionRounds

/- The windows of fault detection when a snapshot of the watchlist may hold any
   number of members. `mMovingWindow` is a `std::map` keyed by handles, and its
   comparison does not tell two valid handles apart: the first member to get a
   window has the only one, and the samples of every other go there too. So the
   windows belong to their members exactly as long as there is no other member.

   `readings m` are the values read from `m` since its window was created, and
   `snapshot` is the last one while its loop is the last thing that ran. The
   alerts play no part here and are left out. -/
namespace StreamFdl
open Runs OrderedMap

/-- One iteration of `run`: the snapshot, the values read, and the watchlist at the notification. -/
structure SnapshotRound where
  snapshot : List MemberPtr
  lastValue : Member → String → Rat
  watchlist : Watchlist
  valid : ∀ p ∈ snapshot, p.valid = true
  distinct : (snapshot.map MemberPtr.mpMember).Nodup

/-- The two loops of a round. -/
inductive WindowPhase where
  | update (snapshot : List MemberPtr) (lastValue : Member → String → Rat)
  | detect (watchlist : Watchlist)

def SnapshotRound.phases (round : SnapshotRound) : List WindowPhase :=
  [.update round.snapshot round.lastValue, .detect round.watchlist]

structure WindowState where
  fd : FaultDetection
  snapshot : List MemberPtr
  readings : Member → List (String → Rat)

/-- There is a window under a handle to this member. -/
def MemberWindow.has (windows : MemberWindow) (m : Member) : Bool :=
  windows.entries.any fun e => decide (e.1.mpMember = some m)

namespace WindowState

def new (size : Nat) : WindowState := ⟨.new size, [], fun _ => []⟩

/-- The state with these windows. What was read of a member without a window is forgotten. -/
def withWindows (s : WindowState) (windows : MemberWindow) (snapshot : List MemberPtr)
    (readings : Member → List (String → Rat)) : WindowState :=
  ⟨{ s.fd with mMovingWindow := windows }, snapshot, fun m => if windows.has m then readings m else []⟩

def step (names : Member → List String) (s : WindowState) : WindowPhase → Option WindowState
  | .update snapshot lastValue => do
    let windows ← s.fd.updateMembers (fun m => Member.getAttributes (names m) (lastValue m)) snapshot
      s.fd.mMovingWindow
    pure (s.withWindows windows snapshot fun m =>
      if snapshot.any fun p => decide (p.mpMember = some m) then s.readings m ++ [lastValue m] else s.readings m)
  | .detect watchlist => do
    let r ← FaultDetection.detectFrom s.fd.mMovingWindow.entries s.fd.mMovingWindow watchlist
    pure (s.withWindows r.1 [] s.readings)

/-- Every window belongs to one member and holds, for each attribute, the samples of this member
    since the window was created, one for each of its rounds; no member has two windows, and none
    of the snapshot is without one. -/
structure Isolated (s : WindowState) : Prop where
  own : ∀ e ∈ s.fd.mMovingWindow.entries, ∃ m, e.1.mpMember = some m ∧
    ∀ buffer ∈ e.2.entries, buffer.2.Holds ((s.readings m).map fun lastValue => lastValue buffer.1)
  apart : ∀ e ∈ s.fd.mMovingWindow.entries, ∀ e' ∈ s.fd.mMovingWindow.entries,
    e.1.mpMember = e'.1.mpMember → e = e'
  watched : ∀ p ∈ s.snapshot, ∃ e ∈ s.fd.mMovingWindow.entries, e.1.mpMember = p.mpMember

/-- The members of the snapshot and those with a window are one and the same. -/
def SameMember (s : WindowState) : WindowPhase → Prop
  | .update snapshot _ => ∀ p ∈ s.fd.mMovingWindow.entries.map Prod.fst ++ snapshot,
      ∀ q ∈ snapshot, p.mpMember = q.mpMember
  | .detect _ => True

instance (s : WindowState) : DecidablePred s.SameMember
  | .update _ _ => inferInstanceAs (Decidable (∀ p ∈ _, ∀ q ∈ _, _ = _))
  | .detect _ => isTrue trivial

/-- A snapshot holds distinct valid members. -/
def ValidSnapshot (_ : WindowState) : WindowPhase → Prop
  | .update snapshot _ => (∀ p ∈ snapshot, p.valid = true) ∧ (snapshot.map MemberPtr.mpMember).Nodup
  | .detect _ => True

end WindowState

/-! What is read of a member. -/

namespace Member

/-- The values have no influence on which attributes there are. -/
theorem getAttributes_eq (names : List String) (lastValue : String → Rat) :
    getAttributes names lastValue = (getAttributes names fun _ => 0).mapValues fun d _ => lastValue d := by
  unfold getAttributes
  have hempty : (.empty : AttributeMapping) = OrderedMap.empty.mapValues fun d _ => lastValue d := rfl
  conv => lhs; rw [hempty]
  generalize (OrderedMap.empty : AttributeMapping) = output
  induction names generalizing output with
  | nil => rfl
  | cons name names ih =>
    rw [List.foldl_cons, List.foldl_cons, emplace_mapValues output name 0 fun d _ => lastValue d, ih]

/-- The attributes of the member, in the order of the map. -/
def descriptors (names : List String) : List String :=
  (getAttributes names fun _ => 0).entries.map Prod.fst

theorem keys_getAttributes (names : List String) (lastValue : String → Rat) :
    (getAttributes names lastValue).entries.map Prod.fst = descriptors names := by
  rw [getAttributes_eq, mapValues_keys]
  rfl

theorem descriptors_ne_nil {names : List String} (h : names ≠ []) : descriptors names ≠ [] := by
  obtain ⟨name, names, rfl⟩ := List.exists_cons_of_ne_nil h
  unfold descriptors getAttributes
  rw [List.foldl_cons]
  -- an entry stays when the others come
  have hkeeps : ∀ (names : List String) (output : AttributeMapping), output.entries ≠ [] →
      (names.foldl (fun output name => (output.emplace name 0).1) output).entries ≠ [] := by
    intro names
    induction names with
    | nil => exact fun output h => h
    | cons name names ih =>
      intro output houtput
      obtain ⟨e, he⟩ := List.exists_mem_of_ne_nil _ houtput
      exact ih _ (List.ne_nil_of_mem (emplace_keeps output name 0 he))
  have hfirst : ((OrderedMap.empty : AttributeMapping).emplace name 0).1.entries ≠ [] :=
    List.cons_ne_nil _ _
  exact fun hnil => hkeeps names _ hfirst (List.map_eq_nil_iff.mp hnil)

/-- One reading has one value of each attribute. -/
theorem valuesOf_getAttributes {names : List String} {d : String} (lastValue : String → Rat)
    (h : d ∈ descriptors names) : valuesOf d (getAttributes names lastValue).entries = [lastValue d] := by
  have hlength : (valuesOf d (getAttributes names lastValue).entries).length = 1 :=
    length_valuesOf _ (keys_getAttributes names lastValue ▸ h)
  obtain ⟨v, hv⟩ := List.length_eq_one_iff.mp hlength
  have hmem : v ∈ valuesOf d (getAttributes names lastValue).entries := hv ▸ List.mem_singleton_self v
  obtain ⟨e, he, rfl⟩ := List.mem_map.mp hmem
  obtain ⟨he, hd⟩ := List.mem_filter.mp he
  rw [getAttributes_eq] at he
  obtain ⟨e₀, _, rfl⟩ := List.mem_map.mp he
  have hd : e₀.1 = d := by simpa using hd
  rw [hv, ← hd]

/-- The samples of an attribute are its values in the readings. -/
theorem samplesOf_getAttributes {names : List String} {d : String} (readings : List (String → Rat))
    (h : d ∈ descriptors names) :
    samplesOf d (readings.map (getAttributes names)) = readings.map fun lastValue => lastValue d := by
  induction readings with
  | nil => rfl
  | cons lastValue readings ih =>
    rw [List.map_cons, samplesOf, List.flatMap_cons, valuesOf_getAttributes lastValue h, List.map_cons,
      List.singleton_append]
    exact congrArg _ ih

end Member

namespace WindowState

variable {names : Member → List String} {size : Nat} {s t : WindowState} {m : Member}

/-- There is no window, or the only one belongs to the member that all was read of. -/
inductive Recorded (names : Member → List String) (size : Nat) (s : WindowState) : Prop where
  | none (windowSize : s.fd.cmMovingWindowSize = size) (noWindow : s.fd.mMovingWindow.entries = [])
      (unread : ∀ m, s.readings m = []) (nobody : s.snapshot = [])
  | one (m : Member) (read : s.readings m ≠ [])
      (tracks : s.fd.Tracks size m (Member.descriptors (names m))
        ((s.readings m).map (Member.getAttributes (names m))))
      (only : ∀ p ∈ s.snapshot, p.mpMember = some m)

/-- The two phases are what a round of `FaultDetection` does to the windows. -/
theorem phases_of_round (s : WindowState) (input : RoundInput) (lastValue : Member → String → Rat)
    (hread : input.getAttributes = fun m => Member.getAttributes (names m) (lastValue m)) :
    (s.fd.round input).map (fun r => r.1.mMovingWindow) =
      (run (step names) s [.update (input.watchlist.getMembers input.store).2 lastValue,
        .detect (input.watchlist.getMembers input.store).1]).map fun t => t.fd.mMovingWindow := by
  simp only [FaultDetection.round, hread, run_cons, run_nil, step, Option.bind_eq_bind]
  cases s.fd.updateMembers (fun m => Member.getAttributes (names m) (lastValue m))
      (input.watchlist.getMembers input.store).2 s.fd.mMovingWindow with
  | none => rfl
  | some windows =>
    simp only [Option.bind_some, withWindows, Option.pure_def]
    cases FaultDetection.detectFrom windows.entries windows (input.watchlist.getMembers input.store).1 with
    | none => rfl
    | some r => rfl

theorem recorded_new (names : Member → List String) (size : Nat) : (new size).Recorded names size :=
  .none rfl rfl (fun _ => rfl) rfl

theorem MemberWindow.has_iff {windows : MemberWindow} :
    windows.has m = true ↔ ∃ e ∈ windows.entries, e.1.mpMember = some m := by
  simp [MemberWindow.has]

/-- Without a window, nothing was read. -/
theorem withWindows_none {windows : MemberWindow} {readings : Member → List (String → Rat)}
    (hsize : s.fd.cmMovingWindowSize = size) (hw : windows.entries = []) :
    (s.withWindows windows [] readings).Recorded names size := by
  refine .none hsize hw (fun m => if_neg ?_) rfl
  rw [MemberWindow.has_iff, hw]
  exact fun h => by obtain ⟨e, he, _⟩ := h; cases he

/-- The member of the only window is tracked by the windows that hold its readings. -/
theorem withWindows_one {windows : MemberWindow} {snapshot : List MemberPtr}
    {readings : Member → List (String → Rat)} {p : MemberPtr} {w : AttributeWindow}
    (hsize : s.fd.cmMovingWindowSize = size) (hp : p.mpMember = some m) (hw : windows.entries = [(p, w)])
    (hread : readings m ≠ [])
    (hrecords : WindowRecords size (Member.descriptors (names m))
      (fun d => samplesOf d ((readings m).map (Member.getAttributes (names m)))) w)
    (honly : ∀ q ∈ snapshot, q.mpMember = some m) :
    (s.withWindows windows snapshot readings).Recorded names size := by
  have hsame : (s.withWindows windows snapshot readings).readings m = readings m := by
    refine if_pos (MemberWindow.has_iff.mpr ⟨(p, w), ?_, hp⟩)
    rw [hw]
    exact List.mem_singleton_self _
  refine .one m (hsame ▸ hread) ⟨hsize, fun hnil => ?_, fun _ => ⟨p, w, hp, hw, ?_⟩⟩ honly
  · rw [hsame] at hnil
    exact absurd (List.map_eq_nil_iff.mp hnil) hread
  · rw [hsame]
    exact hrecords

/-- A member that all windows belong to is tracked with what was read of it. -/
theorem Recorded.tracks (h : s.Recorded names size)
    (hm : ∀ e ∈ s.fd.mMovingWindow.entries, e.1.mpMember = some m) :
    s.fd.Tracks size m (Member.descriptors (names m)) ((s.readings m).map (Member.getAttributes (names m))) := by
  cases h with
  | none windowSize noWindow unread nobody =>
    rw [unread m]
    exact ⟨windowSize, fun _ => noWindow, fun hne => absurd rfl hne⟩
  | one m' read tracks only =>
    obtain ⟨p, w, hp, hentries, _⟩ := tracks.window fun hnil => read (List.map_eq_nil_iff.mp hnil)
    have hsame := hm (p, w) (hentries ▸ List.mem_singleton_self _)
    rw [hp] at hsame
    cases hsame
    exact tracks

theorem Recorded.isolated (h : s.Recorded names size) : s.Isolated := by
  cases h with
  | none windowSize noWindow unread nobody =>
    refine ⟨fun e he => ?_, fun e he => ?_, fun p hp => ?_⟩
    · rw [noWindow] at he
      cases he
    · rw [noWindow] at he
      cases he
    · rw [nobody] at hp
      cases hp
  | one m read tracks only =>
    obtain ⟨p, w, hp, hentries, hrecords⟩ := tracks.window fun hnil => read (List.map_eq_nil_iff.mp hnil)
    have hentry : ∀ e ∈ s.fd.mMovingWindow.entries, e = (p, w) := by
      rw [hentries]
      exact fun e he => List.mem_singleton.mp he
    refine ⟨fun e he => ⟨m, hentry e he ▸ hp, fun buffer hbuffer => ?_⟩, fun e he e' he' _ => ?_, fun q hq => ?_⟩
    · rw [hentry e he] at hbuffer
      have hd : buffer.1 ∈ Member.descriptors (names m) := hrecords.keys ▸ List.mem_map_of_mem hbuffer
      rw [← Member.samplesOf_getAttributes _ hd]
      exact (hrecords.records buffer hbuffer).2
    · rw [hentry e he, hentry e' he']
    · exact ⟨(p, w), hentries ▸ List.mem_singleton_self _, hp.trans (only q hq).symm⟩

/-- A snapshot of distinct members that are all the same holds at most one. -/
theorem snapshot_cases {snapshot : List MemberPtr} (hvalid : ∀ p ∈ snapshot, p.valid = true)
    (hdistinct : (snapshot.map MemberPtr.mpMember).Nodup)
    (hsame : ∀ p ∈ snapshot, ∀ q ∈ snapshot, p.mpMember = q.mpMember) :
    snapshot = [] ∨ ∃ p m, snapshot = [p] ∧ p.mpMember = some m := by
  match snapshot with
  | [] => exact Or.inl rfl
  | [p] =>
    obtain ⟨m, hm⟩ := Option.isSome_iff_exists.mp (hvalid p List.mem_cons_self)
    exact Or.inr ⟨p, m, rfl, hm⟩
  | p :: q :: rest =>
    have heq := hsame p List.mem_cons_self q (List.mem_cons_of_mem p List.mem_cons_self)
    rw [List.map_cons, List.map_cons, heq] at hdistinct
    exact absurd List.mem_cons_self (List.nodup_cons.mp hdistinct).1

theorem Recorded.update (hsize : 2 ≤ size) (h : s.Recorded names size) {snapshot : List MemberPtr}
    {lastValue : Member → String → Rat} (hvalid : s.ValidSnapshot (.update snapshot lastValue))
    (hsame : s.SameMember (.update snapshot lastValue)) :
    ∃ t, s.step names (.update snapshot lastValue) = some t ∧ t.Recorded names size := by
  rcases snapshot_cases hvalid.1 hvalid.2 fun p hp => hsame p (List.mem_append_right _ hp) with
    rfl | ⟨p, m, rfl, hp⟩
  · refine ⟨_, rfl, ?_⟩
    cases h with
    | none windowSize noWindow unread nobody => exact withWindows_none windowSize noWindow
    | one m read tracks only =>
      obtain ⟨p, w, hp, hentries, hrecords⟩ := tracks.window fun hnil => read (List.map_eq_nil_iff.mp hnil)
      exact withWindows_one tracks.windowSize hp hentries read hrecords fun q hq => by cases hq
  · have hm : ∀ e ∈ s.fd.mMovingWindow.entries, e.1.mpMember = some m := fun e he =>
      (hsame e.1 (List.mem_append_left _ (List.mem_map_of_mem he)) p List.mem_cons_self).trans hp
    have htracks := h.tracks hm
    have hread : (Member.getAttributes (names m) (lastValue m)).entries.map Prod.fst = Member.descriptors (names m) :=
      Member.keys_getAttributes _ _
    obtain ⟨windows, q, w, hu, hq, hentries, hrecords⟩ :=
      htracks.updateMembers hsize hp (fun m => Member.getAttributes (names m) (lastValue m)) hread
    refine ⟨_, by simp only [step, hu, Option.bind_eq_bind, Option.bind_some]; rfl, ?_⟩
    have honSnapshot : [p].any (fun p => decide (p.mpMember = some m)) = true := by simp [hp]
    refine withWindows_one htracks.windowSize hq hentries ?_ ?_ fun q hq => ?_
    · rw [if_pos honSnapshot]
      exact List.append_ne_nil_of_right_ne_nil _ (List.cons_ne_nil _ _)
    · rw [if_pos honSnapshot, List.map_append]
      exact hrecords
    · rw [List.mem_singleton.mp hq]
      exact hp

/-- The detection phase keeps the only window, or erases it. -/
theorem detectFrom_one {p : MemberPtr} {w : AttributeWindow} (hp : p.mpMember = some m) (hw : w.entries ≠ [])
    (windows : MemberWindow) (watchlist : Watchlist) : ∃ r,
    FaultDetection.detectFrom [(p, w)] windows watchlist = some r ∧
      (r.1 = windows ∨ r.1 = windows.eraseFirst fun e => decide (Equiv MemberPtr.lt e.1 p)) := by
  obtain ⟨first, rest, hfirst⟩ := List.exists_cons_of_ne_nil hw
  cases hfull : first.2.full with
  | false => exact ⟨_, by simp [FaultDetection.detectFrom, hfirst, hfull]; rfl, Or.inl rfl⟩
  | true =>
    cases hused : (watchlist.notifyUsed m.mPrimaryKey).2 with
    | false => exact ⟨_, by simp [FaultDetection.detectFrom, hfirst, hfull, hp, hused]; rfl, Or.inl rfl⟩
    | true => exact ⟨_, by simp [FaultDetection.detectFrom, hfirst, hfull, hp, hused]; rfl, Or.inr rfl⟩

theorem Recorded.detect (attributes : ∀ m, names m ≠ []) (h : s.Recorded names size) (watchlist : Watchlist) :
    ∃ t, s.step names (.detect watchlist) = some t ∧ t.Recorded names size := by
  cases h with
  | none windowSize noWindow unread nobody =>
    refine ⟨s.withWindows s.fd.mMovingWindow [] s.readings, ?_, withWindows_none windowSize noWindow⟩
    simp only [step, noWindow, FaultDetection.detectFrom, Option.bind_eq_bind, Option.bind_some]
    rfl
  | one m read tracks only =>
    obtain ⟨p, w, hp, hentries, hrecords⟩ := tracks.window fun hnil => read (List.map_eq_nil_iff.mp hnil)
    have hw : w.entries ≠ [] := fun hnil => by
      apply Member.descriptors_ne_nil (attributes m)
      rw [← hrecords.keys, hnil]
      rfl
    obtain ⟨r, hr, hwindows⟩ := detectFrom_one hp hw s.fd.mMovingWindow watchlist
    refine ⟨s.withWindows r.1 [] s.readings, ?_, ?_⟩
    · simp only [step, hentries, hr, Option.bind_eq_bind, Option.bind_some]
      rfl
    · rcases hwindows with hkept | herased
      · rw [hkept]
        exact withWindows_one tracks.windowSize hp hentries read hrecords fun q hq => by cases hq
      · apply withWindows_none tracks.windowSize
        have hvalid : p.valid = true := by simp [MemberPtr.valid, hp]
        rw [herased]
        simp [OrderedMap.eraseFirst, hentries, Watchlist.equiv_of_valid hvalid hvalid]

/-- The update phase loses no window, and makes none but for members of the snapshot. -/
theorem updateMembers_keys {fd : FaultDetection} {getAttributes : Member → AttributeMapping}
    {snapshot : List MemberPtr} {windows windows' : MemberWindow}
    (h : fd.updateMembers getAttributes snapshot windows = some windows') :
    (∀ p ∈ windows.entries.map Prod.fst, p ∈ windows'.entries.map Prod.fst) ∧
      ∀ p ∈ windows'.entries.map Prod.fst, p ∈ windows.entries.map Prod.fst ∨ p ∈ snapshot := by
  refine FaultDetection.updateMembers_invariant
    (I := fun u => (∀ p ∈ windows.entries.map Prod.fst, p ∈ u.entries.map Prod.fst) ∧
      ∀ p ∈ u.entries.map Prod.fst, p ∈ windows.entries.map Prod.fst ∨ p ∈ snapshot)
    (fun member hmember m u w hu _ => ⟨fun p hp => ?_, fun p hp => ?_⟩)
    (fun member hmember m u it w hu _ _ => ?_) ⟨fun p hp => hp, fun p hp => Or.inl hp⟩ h
  · obtain ⟨e, he, rfl⟩ := List.mem_map.mp (hu.1 p hp)
    exact List.mem_map_of_mem (emplace_keeps u member w he)
  · obtain ⟨e, he, rfl⟩ := List.mem_map.mp hp
    rcases mem_emplace he with rfl | he
    · exact Or.inr hmember
    · exact hu.2 e.1 (List.mem_map_of_mem he)
  · rw [mapValues_keys]
    exact hu

theorem Recorded.keys_valid (h : s.Recorded names size) :
    ∀ p ∈ s.fd.mMovingWindow.entries.map Prod.fst, p.valid = true := by
  intro p hp
  obtain ⟨e, he, rfl⟩ := List.mem_map.mp hp
  obtain ⟨m, hm, _⟩ := h.isolated.own e he
  simp [MemberPtr.valid, hm]

/-- There is one window at most, so members that all have one are the same. -/
theorem Recorded.sameMember (h : s.Recorded names size) {phase : WindowPhase} (hvalid : s.ValidSnapshot phase)
    (ht : s.step names phase = some t) (hisolated : t.Isolated) : s.SameMember phase := by
  cases phase with
  | detect watchlist => trivial
  | update snapshot lastValue =>
    obtain ⟨windows, hu, ht⟩ := Option.bind_eq_some_iff.mp ht
    cases ht
    obtain ⟨hkept, hmade⟩ := updateMembers_keys hu
    have hkeys : ∀ e ∈ windows.entries, e.1.valid = true := by
      intro e he
      rcases hmade e.1 (List.mem_map_of_mem he) with hold | hnew
      · exact h.keys_valid e.1 hold
      · exact hvalid.1 e.1 hnew
    have hone : ∀ e ∈ windows.entries, ∀ e' ∈ windows.entries, e = e' := fun e he e' he' =>
      windows.eq_of_equiv he he' (Watchlist.equiv_of_valid (hkeys e he) (hkeys e' he'))
    -- every member concerned has a window now
    have hhas : ∀ p ∈ s.fd.mMovingWindow.entries.map Prod.fst ++ snapshot,
        ∃ e ∈ windows.entries, e.1.mpMember = p.mpMember := by
      intro p hp
      rcases List.mem_append.mp hp with hold | hnew
      · obtain ⟨e, he, heq⟩ := List.mem_map.mp (hkept p hold)
        exact ⟨e, he, heq ▸ rfl⟩
      · exact hisolated.watched p hnew
    intro p hp q hq
    obtain ⟨e, he, hep⟩ := hhas p hp
    obtain ⟨e', he', heq⟩ := hhas q (List.mem_append_right _ hq)
    rw [← hep, ← heq, hone e he e' he']

end WindowState

/-- For every sequence of rounds and snapshots: no round fails, and after each of its loops the
    windows belong to their members, exactly when in each round the members of the snapshot and
    those with a window are one and the same. -/
theorem windows_isolated_iff (names : Member → List String) (size : Nat) (rounds : List SnapshotRound)
    (sizeable : 2 ≤ size) (attributes : ∀ m, names m ≠ []) :
    Holds (WindowState.step names) WindowState.Isolated (.new size) (rounds.flatMap SnapshotRound.phases) ↔
      Along (WindowState.step names) WindowState.SameMember (.new size)
        (rounds.flatMap SnapshotRound.phases) := by
  have hgood : ∀ (s : WindowState) (phase : WindowPhase), s.Recorded names size → s.ValidSnapshot phase →
      s.SameMember phase → ∃ t, s.step names phase = some t ∧ t.Recorded names size := by
    intro s phase h hvalid hsame
    cases phase with
    | update snapshot lastValue => exact h.update sizeable hvalid hsame
    | detect watchlist => exact h.detect attributes watchlist
  have hbad : ∀ (s : WindowState) (phase : WindowPhase) (t : WindowState), s.Recorded names size →
      s.ValidSnapshot phase → ¬ s.SameMember phase → s.step names phase = some t → ¬ t.Isolated :=
    fun s phase t h hvalid hother ht hisolated => hother (h.sameMember hvalid ht hisolated)
  refine holds_iff_along (fun s h => h.isolated) hgood hbad _ _ (WindowState.recorded_new names size) ?_
  apply along_of_mem
  intro phase hphase s
  obtain ⟨round, _, hphase⟩ := List.mem_flatMap.mp hphase
  rcases List.mem_cons.mp hphase with rfl | hphase
  · exact ⟨round.valid, round.distinct⟩
  · rw [List.mem_singleton.mp hphase]
    trivial

/-- A round in which these members are watched and every attribute has one value. -/
def snapshotRound (members : List Member) (value : Rat) (distinct : members.Nodup) : SnapshotRound where
  snapshot := members.map .make
  lastValue := fun _ _ => value
  watchlist := .new []
  valid := fun p hp => by
    obtain ⟨m, _, rfl⟩ := List.mem_map.mp hp
    rfl
  distinct := by
    rw [List.map_map]
    exact distinct.map fun a b h => Option.some.inj h

def exampleSecond : Member := ⟨⟨false, 1⟩, false, "b"⟩

/-- One member is watched in two rounds. -/
theorem windows_isolated_single :
    Holds (WindowState.step fun _ => ["cpu"]) WindowState.Isolated (.new 2)
      ([snapshotRound [exampleWatched] 1 (by decide), snapshotRound [exampleWatched] 2 (by decide)].flatMap
        SnapshotRound.phases) :=
  (windows_isolated_iff (fun _ => ["cpu"]) 2 _ (by decide) fun _ => List.cons_ne_nil _ _).mpr (by decide)

/-- Two members are watched in one round: both samples are in the window of the first, and the
    second has none. -/
theorem windows_shared_pair :
    (∃ t, run (WindowState.step fun _ => ["cpu"]) (.new 2)
        (snapshotRound [exampleWatched, exampleSecond] 1 (by decide)).phases = some t ∧
      t.fd.mMovingWindow.entries.map (fun e => (e.1, e.2.entries)) =
        [(.make exampleWatched, [("cpu", ⟨2, [1, 1], some 0⟩)])]) ∧
    ¬ Holds (WindowState.step fun _ => ["cpu"]) WindowState.Isolated (.new 2)
      (snapshotRound [exampleWatched, exampleSecond] 1 (by decide)).phases := by
  refine ⟨⟨_, rfl, rfl⟩, fun h => ?_⟩
  obtain ⟨e, he, hown⟩ := (h.cons rfl).here.watched (.make exampleSecond)
    (List.mem_cons_of_mem _ List.mem_cons_self)
  rw [List.mem_singleton.mp he] at hown
  exact absurd hown (by decide)

end StreamFdl
