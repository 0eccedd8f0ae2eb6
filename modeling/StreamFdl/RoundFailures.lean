import StreamFdl.WindowIsolation

/- The rounds of fault detection that fail. A round has no defined result when it
   reads through an empty handle, when `at` has no buffer for an attribute, or when
   the window it looks at has no first attribute. No handler catches what `run`
   throws, so such a round is the end of the program.

   Since all members share the window of the first one, `at` throws as soon as a
   member with an attribute that the first one lacks comes on the watchlist. The
   data store requests the same attribute for every member, and that alone is why
   the rounds go through (`rounds_go_through`). -/
namespace StreamFdl
open Runs OrderedMap

/-- The attributes that are read of a handle's member. -/
def MemberPtr.attributes (names : Member → List String) (p : MemberPtr) : List String :=
  match p.mpMember with
  | none => []
  | some m => Member.descriptors (names m)

namespace WindowState

variable {names : Member → List String}

/-- The first member to get a window, once the members of the snapshot have theirs. -/
def owner (windows : MemberWindow) (snapshot : List MemberPtr) : Option MemberPtr :=
  (windows.entries.map Prod.fst ++ snapshot).head?

/-- The handles lead to members, and these have no attribute that the owner of the window lacks. -/
structure SharesAttributes (names : Member → List String) (windows : MemberWindow) (snapshot : List MemberPtr) :
    Prop where
  valid : ∀ p ∈ snapshot, p.valid = true
  shared : ∀ first ∈ owner windows snapshot, ∀ p ∈ snapshot, p.attributes names ⊆ first.attributes names

/-- What a loop of the round needs of the windows it meets. -/
def Fits (names : Member → List String) (s : WindowState) : WindowPhase → Prop
  | .update snapshot _ => SharesAttributes names s.fd.mMovingWindow snapshot
  | .detect _ => ∀ e ∈ s.fd.mMovingWindow.entries, e.1.attributes names ≠ []

instance (s : WindowState) : DecidablePred (s.Fits names)
  | .update snapshot _ =>
    decidable_of_iff ((∀ p ∈ snapshot, p.valid = true) ∧ ∀ first ∈ owner s.fd.mMovingWindow snapshot,
      ∀ p ∈ snapshot, ∀ d ∈ p.attributes names, d ∈ first.attributes names)
      ⟨fun ⟨hvalid, hshared⟩ => ⟨hvalid, hshared⟩, fun ⟨hvalid, hshared⟩ => ⟨hvalid, hshared⟩⟩
  | .detect _ => inferInstanceAs (Decidable (∀ e ∈ _, _ ≠ []))

/-- A window has a buffer for each attribute of the member it was created for. -/
def OwnAttributes (names : Member → List String) (size : Nat) (windows : MemberWindow) : Prop :=
  ∀ e ∈ windows.entries, ∃ m values, e.1.mpMember = some m ∧
    WindowRecords size (Member.descriptors (names m)) values e.2

variable {size : Nat} {windows : MemberWindow} {snapshot rest : List MemberPtr} {p q : MemberPtr} {m : Member}

theorem attributes_eq (hp : p.mpMember = some m) : p.attributes names = Member.descriptors (names m) := by
  simp [MemberPtr.attributes, hp]

theorem OwnAttributes.valid (h : OwnAttributes names size windows) {e : MemberPtr × AttributeWindow}
    (he : e ∈ windows.entries) : e.1.valid = true := by
  obtain ⟨m, _, hm, _⟩ := h e he
  simp [MemberPtr.valid, hm]

/-- There is one window at most. -/
theorem OwnAttributes.cases (h : OwnAttributes names size windows) :
    windows.entries = [] ∨ ∃ q w, windows.entries = [(q, w)] := by
  match hentries : windows.entries with
  | [] => exact .inl rfl
  | [(q, w)] => exact .inr ⟨q, w, rfl⟩
  | e :: e' :: es =>
    have he : e ∈ windows.entries := hentries ▸ List.mem_cons_self
    have he' : e' ∈ windows.entries := hentries ▸ List.mem_cons_of_mem e List.mem_cons_self
    have hlt := (List.pairwise_cons.mp (hentries ▸ windows.sorted)).1 e' List.mem_cons_self
    have hequiv := Watchlist.equiv_of_valid (h.valid he) (h.valid he')
    exact absurd hlt hequiv.1

/-! ### The first loop -/

/-- `at` finds a buffer for each attribute it was called with. -/
theorem updateFrom_found {es : List (String × Rat)} {w w' : AttributeWindow}
    (h : FaultDetection.updateFrom es w = some w') : ∀ e ∈ es, e.1 ∈ w.entries.map Prod.fst := by
  induction es generalizing w with
  | nil => exact fun e he => by cases he
  | cons e es ih =>
    obtain ⟨d, v⟩ := e
    simp only [FaultDetection.updateFrom, Option.bind_eq_bind, Option.bind_eq_some_iff] at h
    obtain ⟨found, hfind, buffer, _, h⟩ := h
    have hrest := ih h
    rw [mapValues_keys] at hrest
    intro e he
    rcases List.mem_cons.mp he with rfl | he
    · have hd : found.1 = d := equiv_iff_eq.mp (by simpa using List.find?_some hfind)
      exact hd ▸ List.mem_map_of_mem (List.mem_of_find?_eq_some hfind)
    · exact hrest e he

theorem updateAttrWindow_defined_iff {ds : List String} {values : String → List Rat} {w : AttributeWindow}
    (hw : WindowRecords size ds values w) (attributeMapping : AttributeMapping) :
    (∃ w', FaultDetection.updateAttrWindow w attributeMapping = some w') ↔
      attributeMapping.entries.map Prod.fst ⊆ ds := by
  constructor
  · rintro ⟨w', h⟩ d hd
    obtain ⟨e, he, rfl⟩ := List.mem_map.mp hd
    exact hw.keys ▸ updateFrom_found h e he
  · intro hsub
    obtain ⟨w', h, -⟩ := FaultDetection.updateFrom_spec attributeMapping.entries values w hw hsub
    exact ⟨w', h⟩

variable {fd : FaultDetection}

/-- The first member of all gets a window with its own attributes. -/
theorem updateMembers_create (names : Member → List String) (lastValue : Member → String → Rat)
    (rest : List MemberPtr) (hsize : 2 ≤ fd.cmMovingWindowSize) (hp : p.mpMember = some m)
    (hnone : windows.entries = []) :
    ∃ u : MemberWindow, OwnAttributes names fd.cmMovingWindowSize u ∧ u.entries.map Prod.fst = [p] ∧
      fd.updateMembers (fun m => Member.getAttributes (names m) (lastValue m)) (p :: rest) windows =
        fd.updateMembers (fun m => Member.getAttributes (names m) (lastValue m)) rest u := by
  obtain rfl : windows = .empty := OrderedMap.ext hnone
  obtain ⟨w, hw, hrecords⟩ := FaultDetection.createAttrWindow_spec hsize (Member.getAttributes (names m) (lastValue m))
  rw [Member.keys_getAttributes] at hrecords
  refine ⟨(OrderedMap.empty.emplace p w).1, fun e he => ?_, rfl, ?_⟩
  · rw [emplace_empty, List.mem_singleton] at he
    exact he ▸ ⟨m, _, hp, hrecords⟩
  · simp [FaultDetection.updateMembers, hp, hw, OrderedMap.find?]

theorem OwnAttributes.of_one {w : AttributeWindow} (h : OwnAttributes names size windows)
    (hone : windows.entries = [(q, w)]) :
    ∃ m values, q.mpMember = some m ∧ WindowRecords size (Member.descriptors (names m)) values w :=
  h (q, w) (hone ▸ List.mem_singleton_self _)

/-- Every other one goes to that window, if its attributes are there. -/
theorem updateMembers_update {w : AttributeWindow} (lastValue : Member → String → Rat) (rest : List MemberPtr)
    (h : OwnAttributes names fd.cmMovingWindowSize windows)
    (hp : p.mpMember = some m) (hone : windows.entries = [(q, w)]) (hsub : p.attributes names ⊆ q.attributes names) :
    ∃ u : MemberWindow, OwnAttributes names fd.cmMovingWindowSize u ∧ u.entries.map Prod.fst = [q] ∧
      fd.updateMembers (fun m => Member.getAttributes (names m) (lastValue m)) (p :: rest) windows =
        fd.updateMembers (fun m => Member.getAttributes (names m) (lastValue m)) rest u := by
  obtain ⟨m', values, hq, hrecords⟩ := h.of_one hone
  have hequiv : Equiv MemberPtr.lt q p :=
    Watchlist.equiv_of_valid (by simp [MemberPtr.valid, hq]) (by simp [MemberPtr.valid, hp])
  have hkeys : (Member.getAttributes (names m) (lastValue m)).entries.map Prod.fst ⊆ Member.descriptors (names m') := by
    rw [Member.keys_getAttributes, ← attributes_eq hp, ← attributes_eq hq]
    exact hsub
  obtain ⟨w', hw', hrecords'⟩ := FaultDetection.updateFrom_spec _ values w hrecords hkeys
  refine ⟨windows.mapValues fun k b => if Equiv MemberPtr.lt k p then w' else b, fun e he => ?_, ?_, ?_⟩
  · simp only [OrderedMap.mapValues, hone, List.map_cons, List.map_nil, if_pos hequiv, List.mem_singleton] at he
    exact he ▸ ⟨m', _, hq, hrecords'⟩
  · rw [mapValues_keys, hone]
    rfl
  · simp [FaultDetection.updateMembers, hp, OrderedMap.find?, hone, hequiv, FaultDetection.updateAttrWindow, hw']

/-- Otherwise `at` throws. -/
theorem updateMembers_throws {w : AttributeWindow} (lastValue : Member → String → Rat) (rest : List MemberPtr)
    (h : OwnAttributes names fd.cmMovingWindowSize windows)
    (hp : p.mpMember = some m) (hone : windows.entries = [(q, w)]) (hsub : ¬ p.attributes names ⊆ q.attributes names) :
    fd.updateMembers (fun m => Member.getAttributes (names m) (lastValue m)) (p :: rest) windows = none := by
  obtain ⟨m', values, hq, hrecords⟩ := h.of_one hone
  have hequiv : Equiv MemberPtr.lt q p :=
    Watchlist.equiv_of_valid (by simp [MemberPtr.valid, hq]) (by simp [MemberPtr.valid, hp])
  have hnone : FaultDetection.updateAttrWindow w (Member.getAttributes (names m) (lastValue m)) = none := by
    cases hw : FaultDetection.updateAttrWindow w (Member.getAttributes (names m) (lastValue m)) with
    | none => rfl
    | some w' =>
      have hkeys := (updateAttrWindow_defined_iff hrecords _).mp ⟨w', hw⟩
      rw [Member.keys_getAttributes, ← attributes_eq hp, ← attributes_eq hq] at hkeys
      exact absurd hkeys hsub
  simp [FaultDetection.updateMembers, hp, OrderedMap.find?, hone, hequiv, hnone]

theorem sharesAttributes_cons (first : MemberPtr) {u : MemberWindow} (hfirst : owner windows (p :: rest) = some first)
    (hu : u.entries.map Prod.fst = [first]) :
    SharesAttributes names windows (p :: rest) ↔
      p.valid = true ∧ p.attributes names ⊆ first.attributes names ∧ SharesAttributes names u rest := by
  have howner : owner u rest = some first := by simp [owner, hu]
  constructor
  · rintro ⟨hvalid, hshared⟩
    have hall := hshared first hfirst
    refine ⟨hvalid p List.mem_cons_self, hall p List.mem_cons_self, ?_⟩
    refine ⟨fun q hq => hvalid q (List.mem_cons_of_mem p hq), fun first' hfirst' q hq => ?_⟩
    rw [howner, Option.mem_some] at hfirst'
    exact hfirst' ▸ hall q (List.mem_cons_of_mem p hq)
  · rintro ⟨hp, hsub, hvalid, hshared⟩
    refine ⟨fun q hq => ?_, fun first' hfirst' q hq => ?_⟩
    · rcases List.mem_cons.mp hq with rfl | hq
      · exact hp
      · exact hvalid q hq
    · rw [hfirst, Option.mem_some] at hfirst'
      subst hfirst'
      rcases List.mem_cons.mp hq with rfl | hq
      · exact hsub
      · exact hshared first howner q hq

/-- The first loop of a round runs through exactly when every handle leads to a member without
    an attribute that the owner of the window lacks. -/
theorem updateMembers_defined_iff (lastValue : Member → String → Rat) (hsize : 2 ≤ fd.cmMovingWindowSize)
    (h : OwnAttributes names fd.cmMovingWindowSize windows) :
    ((∃ windows', fd.updateMembers (fun m => Member.getAttributes (names m) (lastValue m)) snapshot windows =
      some windows') ↔ SharesAttributes names windows snapshot) ∧
    ∀ windows', fd.updateMembers (fun m => Member.getAttributes (names m) (lastValue m)) snapshot windows =
      some windows' → OwnAttributes names fd.cmMovingWindowSize windows' := by
  induction snapshot generalizing windows with
  | nil =>
    refine ⟨⟨fun _ => ⟨fun p hp => (by cases hp), fun _ _ p hp => (by cases hp)⟩, fun _ => ⟨windows, rfl⟩⟩, ?_⟩
    intro windows' hu
    exact Option.some.inj hu ▸ h
  | cons p rest ih =>
    cases hp : p.mpMember with
    | none =>
      refine ⟨⟨fun hu => ?_, fun hshares => ?_⟩, fun _ hu => ?_⟩
      · simp [FaultDetection.updateMembers, hp] at hu
      · have hvalid := hshares.valid p List.mem_cons_self
        simp [MemberPtr.valid, hp] at hvalid
      · simp [FaultDetection.updateMembers, hp] at hu
    | some m =>
      have hvalid : p.valid = true := by simp [MemberPtr.valid, hp]
      -- the first handle makes a window for itself, or is compared with the owner of the only one
      rcases h.cases with hnone | ⟨q, w, hone⟩
      · obtain ⟨u, hown, hkeys, hrest⟩ := updateMembers_create names lastValue rest hsize hp hnone
        have hfirst : owner windows (p :: rest) = some p := by simp [owner, hnone]
        rw [hrest, sharesAttributes_cons p hfirst hkeys]
        refine ⟨?_, (ih hown).2⟩
        rw [(ih hown).1]
        exact ⟨fun hshares => ⟨hvalid, List.Subset.refl _, hshares⟩, fun hshares => hshares.2.2⟩
      · have hfirst : owner windows (p :: rest) = some q := by simp [owner, hone]
        by_cases hsub : p.attributes names ⊆ q.attributes names
        · obtain ⟨u, hown, hkeys, hrest⟩ := updateMembers_update lastValue rest h hp hone hsub
          rw [hrest, sharesAttributes_cons q hfirst hkeys]
          refine ⟨?_, (ih hown).2⟩
          rw [(ih hown).1]
          exact ⟨fun hshares => ⟨hvalid, hsub, hshares⟩, fun hshares => hshares.2.2⟩
        · have hnone := updateMembers_throws lastValue rest h hp hone hsub
          rw [hnone]
          refine ⟨⟨fun hu => (by simp at hu), fun hshares => ?_⟩, fun _ hu => (by simp at hu)⟩
          exact absurd (hshares.shared q hfirst p List.mem_cons_self) hsub

/-! ### The second loop -/

/-- `begin` of a window without attributes is `end`. -/
theorem detectFrom_defined_iff (h : OwnAttributes names size windows) (watchlist : Watchlist) :
    ((∃ r, FaultDetection.detectFrom windows.entries windows watchlist = some r) ↔
      ∀ e ∈ windows.entries, e.1.attributes names ≠ []) ∧
    ∀ r, FaultDetection.detectFrom windows.entries windows watchlist = some r → OwnAttributes names size r.1 := by
  rcases h.cases with hnone | ⟨q, w, hone⟩
  · rw [hnone]
    refine ⟨⟨fun _ e he => (by cases he), fun _ => ⟨_, rfl⟩⟩, fun r hr => ?_⟩
    cases hr
    exact h
  · obtain ⟨m, values, hq, hrecords⟩ := h.of_one hone
    have hattributes : q.attributes names = w.entries.map Prod.fst := by rw [attributes_eq hq, hrecords.keys]
    simp only [hone, List.mem_singleton, forall_eq, hattributes, ne_eq, List.map_eq_nil_iff]
    by_cases hw : w.entries = []
    · have hfails : FaultDetection.detectFrom [(q, w)] windows watchlist = none := by
        simp [FaultDetection.detectFrom, hw]
      rw [hfails]
      exact ⟨⟨fun hr => (by simp at hr), fun hne => absurd hw hne⟩, fun _ hr => (by simp at hr)⟩
    · obtain ⟨r, hr, hkept⟩ := detectFrom_one hq hw windows watchlist
      refine ⟨⟨fun _ => hw, fun _ => ⟨r, hr⟩⟩, fun r' hr' => ?_⟩
      obtain rfl : r = r' := Option.some.inj (hr.symm.trans hr')
      rcases hkept with hsame | herased
      · exact hsame ▸ h
      · intro e he
        rw [herased] at he
        exact h e (List.mem_of_mem_eraseP he)

/-! ### Runs -/

/-- The windows belong to members, and have their attributes. -/
structure Owned (names : Member → List String) (size : Nat) (s : WindowState) : Prop where
  windowSize : s.fd.cmMovingWindowSize = size
  own : OwnAttributes names size s.fd.mMovingWindow

variable {s t : WindowState}

theorem step_defined_iff (sizeable : 2 ≤ size) (h : s.Owned names size) (phase : WindowPhase) :
    (∃ t, s.step names phase = some t) ↔ s.Fits names phase := by
  obtain ⟨rfl, hown⟩ := h
  cases phase with
  | update snapshot lastValue =>
    rw [Fits, ← (updateMembers_defined_iff lastValue sizeable hown).1]
    simp [step, Option.bind_eq_some_iff]
  | detect watchlist =>
    rw [Fits, ← (detectFrom_defined_iff hown watchlist).1]
    simp [step, Option.bind_eq_some_iff]

theorem Owned.step (sizeable : 2 ≤ size) (h : s.Owned names size) {phase : WindowPhase}
    (hs : s.step names phase = some t) : t.Owned names size := by
  obtain ⟨rfl, hown⟩ := h
  cases phase with
  | update snapshot lastValue =>
    obtain ⟨windows, hu, hs⟩ := Option.bind_eq_some_iff.mp hs
    cases hs
    exact ⟨rfl, (updateMembers_defined_iff lastValue sizeable hown).2 windows hu⟩
  | detect watchlist =>
    obtain ⟨r, hr, hs⟩ := Option.bind_eq_some_iff.mp hs
    cases hs
    exact ⟨rfl, (detectFrom_defined_iff hown watchlist).2 r hr⟩

end WindowState

open WindowState

/-- The rounds of a run go through exactly when, in each of them, every handle leads to a member
    without an attribute that the owner of the window lacks, and the owner has an attribute. -/
theorem rounds_defined_iff (names : Member → List String) (size : Nat) (phases : List WindowPhase)
    (sizeable : 2 ≤ size) :
    (∃ t, run (WindowState.step names) (.new size) phases = some t) ↔
      Along (WindowState.step names) (Fits names) (.new size) phases :=
  run_defined_iff (I := Owned names size) (fun _ phase h => step_defined_iff sizeable h phase)
    (fun _ _ _ h hs => h.step sizeable hs) ⟨rfl, fun _ he => by cases he⟩

/-- With one attribute for all members, rounds over handles that lead to members never fail. -/
theorem rounds_go_through (name : String) (size : Nat) (rounds : List SnapshotRound) (sizeable : 2 ≤ size) :
    ∃ t, run (WindowState.step fun _ => [name]) (.new size) (rounds.flatMap SnapshotRound.phases) = some t := by
  have hattributes : ∀ {p : MemberPtr}, p.valid = true → p.attributes (fun _ => [name]) = Member.descriptors [name] := by
    intro p hp
    obtain ⟨m, hm⟩ := Option.isSome_iff_exists.mp hp
    exact attributes_eq hm
  -- the windows belong to members in every state, so each phase finds what it needs
  have hgood : ∀ (s : WindowState) (phase : WindowPhase), s.Owned (fun _ => [name]) size →
      s.ValidSnapshot phase → ∃ t, s.step (fun _ => [name]) phase = some t ∧ t.Owned (fun _ => [name]) size := by
    intro s phase h hvalid
    have hfits : s.Fits (fun _ => [name]) phase := by
      cases phase with
      | update snapshot lastValue =>
        refine ⟨hvalid.1, fun first hfirst p hp => ?_⟩
        have hfirst' : first.valid = true := by
          rcases List.mem_append.mp (List.mem_of_mem_head? hfirst) with howner | hnew
          · obtain ⟨e, he, rfl⟩ := List.mem_map.mp howner
            exact h.own.valid he
          · exact hvalid.1 first hnew
        rw [hattributes (hvalid.1 p hp), hattributes hfirst']
        exact List.Subset.refl _
      | detect watchlist =>
        intro e he
        rw [hattributes (h.own.valid he)]
        exact Member.descriptors_ne_nil (List.cons_ne_nil _ _)
    obtain ⟨t, ht⟩ := (step_defined_iff sizeable h phase).mpr hfits
    exact ⟨t, ht, h.step sizeable ht⟩
  have hphases : ∀ (s : WindowState), ∀ phase ∈ rounds.flatMap SnapshotRound.phases, s.ValidSnapshot phase := by
    intro s phase hphase
    obtain ⟨round, -, hphase⟩ := List.mem_flatMap.mp hphase
    rcases List.mem_cons.mp hphase with rfl | hphase
    · exact ⟨round.valid, round.distinct⟩
    · rw [List.mem_singleton.mp hphase]
      trivial
  have hholds : Holds (WindowState.step fun _ => [name]) (fun _ => True) (.new size)
      (rounds.flatMap SnapshotRound.phases) :=
    holds_of_mem (I := fun s => s.Owned (fun _ => [name]) size) (fun _ _ => trivial)
      (fun s phase hphase h => hgood s phase h (hphases s phase hphase)) ⟨rfl, fun _ he => by cases he⟩
  obtain ⟨t, ht, -⟩ := hholds.final
  exact ⟨t, ht⟩

/-- Two nodes are watched in two rounds. -/
theorem rounds_defined_nodes :
    ∃ t, run (WindowState.step fun m => if m.mIsTopic then ["rate"] else ["cpu", "memory"]) (.new 2)
      ([snapshotRound [exampleWatched, exampleSecond] 1 (by decide),
        snapshotRound [exampleSecond, exampleWatched] 2 (by decide)].flatMap SnapshotRound.phases) = some t :=
  (rounds_defined_iff _ 2 _ (by decide)).mpr (by decide)

/-- A node and a topic are watched in one round. -/
example : (run (WindowState.step fun m => if m.mIsTopic then ["rate"] else ["cpu", "memory"]) (.new 2)
    (snapshotRound [exampleWatched, ⟨⟨true, 0⟩, true, "t"⟩] 1 (by decide)).phases).isNone = true := by decide

end StreamFdl
