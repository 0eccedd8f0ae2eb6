import StreamFdl.SubgraphBuilder

/- Which incoming neighbours of the subgraph the watchlist is told of.

   Two paths have to cover every edge between them: a drained update is passed on
   if its member is in the subgraph by then, and an expansion passes on what
   `getIncoming` returns. The first path is complete for the members it finds in
   the subgraph. An edge that it drained before the alert on its member is left to
   the second, which reads the wrong relation of a node and returns only members
   that are in the subgraph already. So every edge is covered along a run in which
   no expansion has to make up for more than that. -/
namespace StreamFdl
open Runs

/-! What the builder holds. -/

namespace Phase

/-- The alerts left in this round. -/
def newAlerts : Phase → List Alert
  | alerts _ left | incoming _ _ left => left
  | _ => []

/-- The members the builder goes on to pass to the watchlist whatever happens. -/
def inHand : Phase → MemberProxies
  | connections members _ | incoming members _ _ => members
  | adding member members _ => member :: members
  | _ => []

/-- The drained updates it has not come to yet. -/
def rest : Phase → GraphView
  | updates view | connections _ view | adding _ _ view => view
  | _ => []

/-- The updates have been drained, and the alerts not been taken yet. -/
def draining : Phase → Bool
  | updates _ | connections _ _ | adding _ _ _ => true
  | _ => false

/-- The connection will reach the watchlist, if the member with the first key is in the subgraph. -/
def Carries (phase : Phase) (primary other : PrimaryKey) : Prop :=
  (∃ y ∈ phase.inHand, y.mPrimaryKey = other) ∨
    ∃ e ∈ phase.rest, e.member.mPrimaryKey = primary ∧ ∃ y ∈ e.connections, y.mPrimaryKey = other

/-- Without members in hand and without updates there is nothing on its way. -/
theorem not_carries {phase : Phase} {primary other : PrimaryKey} (hhand : phase.inHand = [])
    (hrest : phase.rest = []) : ¬ phase.Carries primary other := by
  intro hcarry
  unfold Carries at hcarry
  rw [hhand, hrest] at hcarry
  obtain ⟨y, hy, _⟩ | ⟨e, he, _⟩ := hcarry
  · cases hy
  · cases he

end Phase

/-! What an expansion can pass on. -/

/-- The store has `x` as a publisher of the topic `m`, or as a server, an action server or a published
    topic of the node `m`. -/
def DataStore.Names (s : DataStore) (m : Member) (x : MemberProxy) : Prop :=
  (m.mIsTopic = true ∧ ∃ topic ∈ s.asTopic m.ref,
    ∃ edge ∈ topic.mPublishers, edge.associatedNode.mPrimaryKey = x.mPrimaryKey) ∨
  (m.mIsTopic = false ∧ ∃ node ∈ s.asNode m.ref,
    (∃ server ∈ node.mServers.entries, server.2.mPrimaryKey = x.mPrimaryKey) ∨
    (∃ server ∈ node.mActionServers.entries, server.2.mPrimaryKey = x.mPrimaryKey) ∨
    ∃ topic ∈ node.mPublishesTo, topic.mPrimaryKey = x.mPrimaryKey)

instance (s : DataStore) (m : Member) (x : MemberProxy) : Decidable (s.Names m x) :=
  inferInstanceAs (Decidable (_ ∨ _))

theorem Graph.mem_scanned {s : DataStore} {m : Member} {x : MemberProxy} {targets : MemberProxies}
    (hscan : Graph.scanned s m = some targets) (h : s.Names m x) :
    ∃ y ∈ targets, y.mPrimaryKey = x.mPrimaryKey := by
  unfold Graph.scanned at hscan
  obtain ⟨htopic, topic, ht, edge, hedge, hkey⟩ | ⟨hnode, node, hn, h⟩ := h
  · rw [if_pos htopic, Option.mem_def.mp ht] at hscan
    cases hscan
    exact ⟨_, List.mem_map_of_mem hedge, hkey⟩
  · rw [if_neg (by simp [hnode]), Option.mem_def.mp hn] at hscan
    cases hscan
    obtain ⟨server, hs, hkey⟩ | ⟨server, hs, hkey⟩ | ⟨topic, ht, hkey⟩ := h
    · exact ⟨_, List.mem_append_left _ (List.mem_append_left _ (List.mem_map_of_mem hs)), hkey⟩
    · exact ⟨_, List.mem_append_left _ (List.mem_append_right _ (List.mem_map_of_mem hs)), hkey⟩
    · exact ⟨_, List.mem_append_right _ ht, hkey⟩

namespace BuilderState

/-- The handles of the subgraph and of the alerts on their way to it. -/
def suspects (s : BuilderState) : List MemberPtr :=
  s.mSAG.mVertices ++ (s.phase.newAlerts ++ s.mFD.mAlerts).map Alert.member

/-- An alert on `m` is known: it has been expanded, or waits to be. -/
def Suspected (s : BuilderState) (m : Member) : Prop := ∃ p ∈ s.suspects, p.mpMember = some m

instance (s : BuilderState) (m : Member) : Decidable (s.Suspected m) :=
  inferInstanceAs (Decidable (∃ p ∈ s.suspects, _))

/-- The alert the next step of the builder expands. -/
def expanding (s : BuilderState) : Option Alert :=
  match s.phase with
  | .alerts _ (alert :: _) => some alert
  | _ => none

/-- When the next step expands an alert on a member that is not in the subgraph yet, each incoming
    neighbour whose connection was drained before has reached the watchlist already, or is in the
    subgraph and one of those that `getIncoming` reads. -/
def MakesUp (s : BuilderState) : Prop :=
  ∀ alert ∈ s.expanding, (s.mSAG.add alert.member).2 = true →
    ∀ e ∈ s.drained, alert.member.mpMember = some e.1 → e.2.mPrimaryKey ∈ s.monitored ∨
      (s.mSAG.contains e.2 = true ∨ e.1.mPrimaryKey = e.2.mPrimaryKey) ∧ s.mpDataStore.Names e.1 e.2

instance (s : BuilderState) : Decidable s.MakesUp :=
  inferInstanceAs (Decidable (∀ alert ∈ s.expanding, _))

/-- No abort. -/
def Goes (s : BuilderState) : BuilderAction → Prop
  | .builder _ => s.aborts = false
  | _ => True

/-- No abort, and no expansion that has to make up for more than it can. -/
def Covers (s : BuilderState) : BuilderAction → Prop
  | .builder _ => s.aborts = false ∧ s.MakesUp
  | _ => True

instance (s : BuilderState) : (a : BuilderAction) → Decidable (s.Goes a)
  | .builder _ => inferInstanceAs (Decidable (s.aborts = false))
  | .update _ | .queue | .store _ | .watchlist _ | .emit _ => isTrue trivial

instance (s : BuilderState) : (a : BuilderAction) → Decidable (s.Covers a)
  | .builder _ => inferInstanceAs (Decidable (s.aborts = false ∧ s.MakesUp))
  | .update _ | .queue | .store _ | .watchlist _ | .emit _ => isTrue trivial

/-- What is owed from `s₀` to `s₁`: when a round that started later has ended, every edge that was
    known, to a member whose alert was known, has reached the watchlist. -/
def Passed (s₀ s₁ : BuilderState) : Prop :=
  s₀.rounds < s₁.rounds → s₁.phase.isIdle = true → ∀ m x, s₀.Suspected m → (m, x) ∈ s₀.known →
    x.mPrimaryKey ∈ s₁.monitored

variable {s s' : BuilderState} {m : Member} {x : MemberProxy}

/-! Suspects. A handle that reaches the subgraph came with an alert, whose member was stored. -/

/-- A suspect is the only member ever stored at its address. -/
structure Identified (s : BuilderState) : Prop where
  store : s.mpDataStore.WellFormed
  placed : ∀ m, s.Suspected m → s.mpDataStore.Placed m
  agree : ∀ m m', s.Suspected m → s.Suspected m' → m.ref = m'.ref → m = m'

theorem Move.suspects (h : s.Move s') : ∀ p ∈ s'.suspects, p ∈ s.suspects := by
  intro p hp
  unfold BuilderState.suspects at hp ⊢
  cases h with
  | expand h hnew hm hscan =>
    simp only [h, Phase.newAlerts, List.map_append, List.map_cons, List.mem_append, List.mem_cons] at hp ⊢
    obtain hp | hp | hp := hp
    · obtain hp | rfl := Graph.mem_add p hp
      · exact Or.inl hp
      · exact Or.inr (Or.inl (Or.inl rfl))
    · exact Or.inr (Or.inl (Or.inr hp))
    · exact Or.inr (Or.inr hp)
  | present h hin =>
    simp only [h, Phase.newAlerts, List.map_append, List.map_cons, List.mem_append, List.mem_cons] at hp ⊢
    obtain hp | hp | hp := hp
    · exact Or.inl hp
    · exact Or.inr (Or.inl (Or.inr hp))
    · exact Or.inr (Or.inr hp)
  | drain h | take h | enter h | skip h _ | leave h | seen h _ | unseen h | expanded h | finish h =>
    simpa [h, Phase.newAlerts] using hp
  | add h | addIncoming h => simpa [h, Phase.newAlerts, watch] using hp

theorem Identified.mono (h : s.Identified) (hstore : s'.mpDataStore.WellFormed)
    (hplaced : ∀ m, s.mpDataStore.Placed m → s'.mpDataStore.Placed m)
    (hsub : ∀ p ∈ s'.suspects, p ∈ s.suspects) : s'.Identified := by
  have hsus : ∀ m, s'.Suspected m → s.Suspected m := fun m ⟨p, hp, hm⟩ => ⟨p, hsub p hp, hm⟩
  exact ⟨hstore, fun m hm => hplaced m (h.placed m (hsus m hm)),
    fun m m' hm hm' => h.agree m m' (hsus m hm) (hsus m' hm')⟩

/-- A new alert is about a member that is stored now. -/
theorem Identified.emit {alert : Alert} (h : s.Identified) (hm : alert.member.mpMember = some m)
    (hl : s.mpDataStore.Leads m) :
    Identified { s with mFD := { s.mFD with mAlerts := s.mFD.mAlerts ++ [alert] } } := by
  have hsus : ∀ m', Suspected { s with mFD := { s.mFD with mAlerts := s.mFD.mAlerts ++ [alert] } } m' →
      s.Suspected m' ∨ m' = m := by
    intro m' ⟨p, hp, hm'⟩
    simp only [suspects, List.map_append, List.map_cons, List.map_nil, List.mem_append,
      List.mem_singleton] at hp
    obtain hp | hp | hp | rfl := hp
    · exact Or.inl ⟨p, by simp [suspects, hp], hm'⟩
    · exact Or.inl ⟨p, by simp only [suspects, List.map_append, List.mem_append]; exact Or.inr (Or.inl hp), hm'⟩
    · exact Or.inl ⟨p, by simp only [suspects, List.map_append, List.mem_append]; exact Or.inr (Or.inr hp), hm'⟩
    · rw [hm] at hm'
      cases hm'
      exact Or.inr rfl
  have hplaced := hl.placed h.store
  refine ⟨h.store, ?_, ?_⟩
  · intro m' hm'
    obtain hm' | rfl := hsus m' hm'
    · exact h.placed m' hm'
    · exact hplaced
  · intro m₁ m₂ h₁ h₂ href
    obtain h₁ | rfl := hsus m₁ h₁
    · obtain h₂ | rfl := hsus m₂ h₂
      · exact h.agree m₁ m₂ h₁ h₂ href
      · exact ((h.placed m₁ h₁).2 m₂ hl href.symm).symm
    · obtain h₂ | rfl := hsus m₂ h₂
      · exact (h.placed m₂ h₂).2 m₁ hl href
      · rfl

/-! What the other threads do. -/

/-- A step that is not the builder's leaves the subgraph and the round where they are, and takes
    nothing away. -/
structure Beside (s s' : BuilderState) : Prop where
  mSAG : s'.mSAG = s.mSAG
  phase : s'.phase = s.phase
  rounds : s'.rounds = s.rounds
  drained : s'.drained = s.drained
  known : ∀ e ∈ s.known, e ∈ s'.known
  monitored : ∀ k ∈ s.monitored, k ∈ s'.monitored
  alerts : ∀ alert ∈ s.mFD.mAlerts, alert ∈ s'.mFD.mAlerts

theorem Beside.refl : s.Beside s :=
  ⟨rfl, rfl, rfl, rfl, fun _ h => h, fun _ h => h, fun _ h => h⟩

theorem step_update {u : Update} (h : s.step (.update u) = some s') :
    s' = s ∨ s.updating = none ∧ ∃ it store, s.mpDataStore.findUpdated u = some (some it) ∧
      s.mpDataStore.update it u = some store ∧
      s' = { s with mpDataStore := store, updating := some (u, it) } := by
  simp only [step] at h
  split at h
  · cases h
  · next hnone =>
    simp only [Option.bind_eq_bind, Option.bind_eq_some_iff] at h
    obtain ⟨found, hfound, h⟩ := h
    cases found with
    | none =>
      cases h
      exact Or.inl rfl
    | some it =>
      simp only [Option.bind_eq_some_iff, Option.pure_def, Option.some.injEq] at h
      obtain ⟨store, hs, rfl⟩ := h
      refine Or.inr ⟨by simpa using hnone, it, store, hfound, hs, rfl⟩

theorem step_emit {alert : Alert} (h : s.step (.emit alert) = some s') :
    ∃ m, alert.member.mpMember = some m ∧ s.mpDataStore.Leads m ∧
      s' = { s with mFD := { s.mFD with mAlerts := s.mFD.mAlerts ++ [alert] } } := by
  obtain ⟨m, hm, h⟩ := Option.bind_eq_some_iff.mp h
  split at h
  · next hl =>
    cases h
    exact ⟨m, hm, hl, rfl⟩
  · cases h

theorem step_beside {a : BuilderAction} (h : s.step a = some s') (ha : ∀ store, a ≠ .builder store) :
    s.Beside s' := by
  cases a with
  | update u =>
    obtain rfl | ⟨_, _, _, _, _, rfl⟩ := step_update h
    · exact .refl
    · exact ⟨rfl, rfl, rfl, rfl, fun _ h => h, fun _ h => h, fun _ h => h⟩
  | queue =>
    obtain ⟨r, _, rfl⟩ := Option.map_eq_some_iff.mp h
    exact ⟨rfl, rfl, rfl, rfl, fun _ h => List.mem_append_left _ h, fun _ h => h, fun _ h => h⟩
  | store op =>
    obtain ⟨store, _, rfl⟩ := Option.map_eq_some_iff.mp h
    exact ⟨rfl, rfl, rfl, rfl, fun _ h => h, fun _ h => h, fun _ h => h⟩
  | watchlist op =>
    obtain ⟨w, _, rfl⟩ := Option.map_eq_some_iff.mp h
    refine ⟨rfl, rfl, rfl, rfl, fun _ h => h, fun k hk => ?_, fun _ h => h⟩
    simp only [watch, List.mem_append]
    exact Or.inl (Or.inl hk)
  | emit alert =>
    obtain ⟨m, _, _, rfl⟩ := step_emit h
    exact ⟨rfl, rfl, rfl, rfl, fun _ h => h, fun _ h => h, fun _ h => List.mem_append_left _ h⟩
  | builder store => exact absurd rfl (ha store)

theorem Identified.step {a : BuilderAction} (h : s.Identified) (hgo : s.Goes a)
    (hs : s.step a = some s') : s'.Identified := by
  cases a with
  | update u =>
    obtain rfl | ⟨_, it, store, _, hu, rfl⟩ := step_update hs
    · exact h
    · exact h.mono ((DataStore.update_spec hu).2 h.store) (fun m hm => DataStore.update_placed hu hm)
        fun _ hp => hp
  | queue =>
    obtain ⟨r, _, rfl⟩ := Option.map_eq_some_iff.mp hs
    exact h.mono ((DataStore.queue_spec _ _).2 h.store) (fun m hm => DataStore.queue_placed _ hm)
      fun _ hp => hp
  | store op =>
    obtain ⟨store, ho, rfl⟩ := Option.map_eq_some_iff.mp hs
    obtain ⟨hevolves, hwell⟩ := DataStore.apply_spec ho h.store
    exact h.mono hwell (fun m hm => hevolves.placed hm) fun _ hp => hp
  | watchlist op =>
    obtain ⟨w, _, rfl⟩ := Option.map_eq_some_iff.mp hs
    exact h.mono h.store (fun _ hm => hm) fun _ hp => hp
  | emit alert =>
    obtain ⟨m, hm, hl, rfl⟩ := step_emit hs
    exact h.emit hm hl
  | builder store =>
    have hmove := builderStep_move hs hgo
    obtain hsame | hsame := (builderStep_store hs).1
    · exact h.mono (hsame ▸ h.store) (fun m hm => hsame ▸ hm) hmove.suspects
    · exact h.mono (hsame ▸ ⟨h.store.nodes, h.store.topics⟩) (fun m hm => hsame ▸ hm) hmove.suspects

/-! Coverage. Every known edge was drained or waits in the queue, and every drained edge of a
member of the subgraph has reached the watchlist or is on its way to it. -/

structure Tracked (s : BuilderState) : Prop where
  listed : ∀ k, s.mWatchlist.contains k = true → k ∈ s.monitored
  queued : ∀ m x, (m, x) ∈ s.known →
    (m, x) ∈ s.drained ∨ DataStore.Pending s.mpDataStore.mUpdates m.mPrimaryKey x
  covered : ∀ p ∈ s.mSAG.mVertices, ∀ m x, p.mpMember = some m → (m, x) ∈ s.drained →
    x.mPrimaryKey ∈ s.monitored ∨ s.phase.Carries m.mPrimaryKey x.mPrimaryKey

theorem contains_keys {w : Watchlist} {k : PrimaryKey} (h : w.contains k = true) : k ∈ w.keys := by
  obtain ⟨e, he⟩ := Option.isSome_iff_exists.mp h
  have hkey := List.find?_some he
  simp only [MemberPtr.hasKey, beq_iff_eq] at hkey
  exact List.mem_filterMap.mpr ⟨e, List.mem_of_find?_eq_some he, hkey⟩

theorem Tracked.watch (h : s.Tracked) (passed : List PrimaryKey) (w : Watchlist) :
    (s.watch passed w).Tracked := by
  refine ⟨fun k hk => ?_, h.queued, fun p hp m x hm hx => ?_⟩
  · exact List.mem_append_right _ (contains_keys hk)
  · obtain hmon | hcarry := h.covered p hp m x hm hx
    · exact Or.inl (List.mem_append_left _ (List.mem_append_left _ hmon))
    · exact Or.inr hcarry

/-- A move that only goes on to the next phase loses nothing, if that carries what the last one did. -/
theorem Tracked.setPhase {next : Phase} (h : s.Tracked)
    (hnext : ∀ p ∈ s.mSAG.mVertices, ∀ m k, p.mpMember = some m → s.phase.Carries m.mPrimaryKey k →
      k ∈ s.monitored ∨ next.Carries m.mPrimaryKey k) : Tracked { s with phase := next } := by
  refine ⟨h.listed, h.queued, fun p hp m x hm hx => ?_⟩
  obtain hmon | hcarry := h.covered p hp m x hm hx
  · exact Or.inl hmon
  · exact hnext p hp m _ hm hcarry

/-- A phase without members in hand and without updates has nothing to lose. -/
theorem Tracked.settle {next : Phase} (h : s.Tracked) (hhand : s.phase.inHand = [])
    (hrest : s.phase.rest = []) : Tracked { s with phase := next } := by
  apply h.setPhase
  intro p _ m k _ hcarry
  exact absurd hcarry (Phase.not_carries hhand hrest)

/-- The member in hand has reached the watchlist, and the next one is taken. -/
theorem Tracked.advance {next : Phase} {member : MemberProxy} (h : s.Tracked)
    (hhand : s.phase.inHand = member :: next.inHand) (hrest : s.phase.rest = next.rest)
    (hmon : member.mPrimaryKey ∈ s.monitored) : Tracked { s with phase := next } := by
  apply h.setPhase
  intro p _ m k _ hcarry
  unfold Phase.Carries at hcarry
  rw [hhand, hrest] at hcarry
  obtain ⟨y, hy, rfl⟩ | hcarry := hcarry
  · obtain rfl | hy := List.mem_cons.mp hy
    · exact Or.inl hmon
    · exact Or.inr (Or.inl ⟨y, hy, rfl⟩)
  · exact Or.inr (Or.inr hcarry)

/-- The member in hand is passed to `addMember`. -/
theorem Tracked.addMember {next : Phase} {member : MemberProxy} (h : s.Tracked) (w : Watchlist)
    (hhand : s.phase.inHand = member :: next.inHand) (hrest : s.phase.rest = next.rest) :
    Tracked { s.watch [member.mPrimaryKey] w with phase := next } := by
  have hmon : member.mPrimaryKey ∈ (s.watch [member.mPrimaryKey] w).monitored := by
    apply List.mem_append_left
    exact List.mem_append_right _ (List.mem_singleton_self _)
  exact (h.watch [member.mPrimaryKey] w).advance hhand hrest hmon

/-- The first update is in hand, or it is dropped and its member is not in the subgraph. -/
theorem Tracked.nextUpdate {next : Phase} {update : MemberConnections} (h : s.Tracked)
    (hhand : s.phase.inHand = []) (hrest : s.phase.rest = update :: next.rest)
    (hnext : next.inHand = update.connections ∨ s.mSAG.contains update.member = false) :
    Tracked { s with phase := next } := by
  apply h.setPhase
  intro p hp m k hm hcarry
  unfold Phase.Carries at hcarry
  rw [hhand, hrest] at hcarry
  obtain ⟨y, hy, _⟩ | ⟨e, he, hkey, hk⟩ := hcarry
  · cases hy
  · obtain rfl | he := List.mem_cons.mp he
    · obtain hnext | hout := hnext
      · exact Or.inr (Or.inl (hnext ▸ hk))
      · rw [Graph.contains_iff.mpr ⟨p, hp, m, hm, hkey.symm⟩] at hout
        cases hout
    · exact Or.inr (Or.inr ⟨e, he, hkey, hk⟩)

theorem Tracked.drain (h : s.Tracked) (hphase : s.phase = .idle) : Tracked { s with
    mpDataStore := { s.mpDataStore with mUpdates := [] }
    phase := .updates s.mpDataStore.mUpdates
    rounds := s.rounds + 1
    drained := s.known } := by
  refine ⟨h.listed, fun m x hx => Or.inl hx, fun p hp m x hm hx => ?_⟩
  obtain hold | ⟨e, he, hkey, hx⟩ := h.queued m x hx
  -- drained before: nothing was on its way between two rounds
  · obtain hmon | hcarry := h.covered p hp m x hm hold
    · exact Or.inl hmon
    · rw [hphase] at hcarry
      exact absurd hcarry (Phase.not_carries rfl rfl)
  · exact Or.inr (Or.inr ⟨e, he, hkey, x, hx, rfl⟩)

theorem Tracked.expand {alert : Alert} {emittedAlerts newAlerts : List Alert} {m : Member}
    {targets : MemberProxies} (h : s.Tracked) (hmakes : s.MakesUp)
    (hphase : s.phase = .alerts emittedAlerts (alert :: newAlerts))
    (hnew : (s.mSAG.add alert.member).2 = true) (hm : alert.member.mpMember = some m)
    (hscan : Graph.scanned s.mpDataStore m = some targets) : Tracked { s with
      mSAG := (s.mSAG.add alert.member).1
      phase := .incoming (targets.filter (s.mSAG.add alert.member).1.contains) emittedAlerts newAlerts } := by
  refine ⟨h.listed, h.queued, fun p hp m' x hm' hx => ?_⟩
  obtain hp | rfl := Graph.mem_add p hp
  -- a member that was there before: nothing is on its way while alerts are expanded
  · obtain hmon | hcarry := h.covered p hp m' x hm' hx
    · exact Or.inl hmon
    · rw [hphase] at hcarry
      exact absurd hcarry (Phase.not_carries rfl rfl)
  · rw [hm] at hm'
    cases hm'
    have hreads := hmakes alert (by simp [expanding, hphase]) hnew (m, x) hx hm
    obtain hmon | ⟨hin, hnames⟩ := hreads
    · exact Or.inl hmon
    · obtain ⟨y, hy, hkey⟩ := Graph.mem_scanned hscan hnames
      refine Or.inr (Or.inl ⟨y, List.mem_filter.mpr ⟨hy, ?_⟩, hkey⟩)
      rw [Graph.contains_iff]
      obtain hin | hself := hin
      · obtain ⟨q, hq, n, hn, hnkey⟩ := Graph.contains_iff.mp hin
        exact ⟨q, Graph.add_of_mem hq, n, hn, hnkey.trans hkey.symm⟩
      · exact ⟨alert.member, Graph.mem_of_added hnew, m, hm, hself.trans hkey.symm⟩

theorem Move.tracked (h : s.Tracked) (hmakes : s.MakesUp) (hmove : s.Move s') : s'.Tracked := by
  cases hmove with
  | drain hphase => exact h.drain hphase
  | take hphase =>
    have hset : Tracked { s with phase := .alerts s.mFD.mAlerts s.mFD.mAlerts } :=
      h.settle (by rw [hphase]; rfl) (by rw [hphase]; rfl)
    exact ⟨hset.listed, hset.queued, hset.covered⟩
  | enter hphase => exact h.nextUpdate (by rw [hphase]; rfl) (by rw [hphase]; rfl) (Or.inl rfl)
  | skip hphase hout => exact h.nextUpdate (by rw [hphase]; rfl) (by rw [hphase]; rfl) (Or.inr hout)
  | leave hphase =>
    apply h.setPhase
    intro p _ m k _ hcarry
    rw [hphase] at hcarry
    exact Or.inr hcarry
  | seen hphase hin =>
    exact h.advance (by rw [hphase]; rfl) (by rw [hphase]; rfl) (h.listed _ hin)
  | unseen hphase =>
    apply h.setPhase
    intro p _ m k _ hcarry
    rw [hphase] at hcarry
    exact Or.inr hcarry
  | @add member w _ _ hphase => exact h.addMember w (by rw [hphase]; rfl) (by rw [hphase]; rfl)
  | present hphase _ => exact h.settle (by rw [hphase]; rfl) (by rw [hphase]; rfl)
  | expand hphase hnew hm hscan => exact h.expand hmakes hphase hnew hm hscan
  | expanded hphase => exact h.settle (by rw [hphase]; rfl) (by rw [hphase]; rfl)
  | @addIncoming member w _ _ _ hphase => exact h.addMember w (by rw [hphase]; rfl) (by rw [hphase]; rfl)
  | finish hphase =>
    have hset : Tracked { s with phase := .idle } := h.settle (by rw [hphase]; rfl) (by rw [hphase]; rfl)
    exact ⟨hset.listed, hset.queued, hset.covered⟩

/-- A step of another thread, given what it does to the watchlist and to the queue. -/
theorem Beside.tracked (h : s.Tracked) (hb : s.Beside s')
    (hlisted : ∀ k, s'.mWatchlist.contains k = true → k ∈ s'.monitored)
    (hqueued : ∀ m x, (m, x) ∈ s'.known →
      (m, x) ∈ s.known ∧ s'.mpDataStore.mUpdates = s.mpDataStore.mUpdates ∨
        DataStore.Pending s'.mpDataStore.mUpdates m.mPrimaryKey x ∨ (m, x) ∈ s.drained) :
    s'.Tracked := by
  refine ⟨hlisted, fun m x hx => ?_, fun p hp m x hm hx => ?_⟩
  · rw [hb.drained]
    obtain ⟨hx, hsame⟩ | hpending | hold := hqueued m x hx
    · rw [hsame]
      exact h.queued m x hx
    · exact Or.inr hpending
    · exact Or.inl hold
  · rw [hb.mSAG] at hp
    rw [hb.drained] at hx
    rw [hb.phase]
    exact (h.covered p hp m x hm hx).imp_left (hb.monitored _)

theorem Tracked.step {a : BuilderAction} (h : s.Tracked) (hstore : s.mpDataStore.WellFormed)
    (hc : s.Covers a) (hs : s.step a = some s') : s'.Tracked := by
  cases a with
  | update u =>
    have hb := step_beside hs (fun _ h => by cases h)
    obtain rfl | ⟨_, it, store, _, hu, rfl⟩ := step_update hs
    · exact h
    · exact hb.tracked h h.listed fun m x hx => Or.inl ⟨hx, DataStore.update_mUpdates hu⟩
  | queue =>
    have hb := step_beside hs (fun _ h => by cases h)
    obtain ⟨⟨u, it⟩, _, rfl⟩ := Option.map_eq_some_iff.mp hs
    refine hb.tracked h h.listed fun m x hx => Or.inr ?_
    obtain hx | hx := List.mem_append.mp hx
    · obtain hold | hpending := h.queued m x hx
      · exact Or.inr hold
      · exact Or.inl (DataStore.queue_keeps u hpending)
    · obtain ⟨y, hy, heq⟩ := List.mem_map.mp hx
      cases heq
      have hconn := (List.mem_filter.mp hy).1
      rw [Option.mem_toList] at hconn
      exact Or.inl (DataStore.queue_self hconn)
  | store op =>
    have hb := step_beside hs (fun _ h => by cases h)
    obtain ⟨store, ho, rfl⟩ := Option.map_eq_some_iff.mp hs
    obtain ⟨hevolves, _⟩ := DataStore.apply_spec ho hstore
    exact hb.tracked h h.listed fun m x hx => Or.inl ⟨hx, hevolves.mUpdates⟩
  | watchlist op =>
    obtain ⟨w, _, rfl⟩ := Option.map_eq_some_iff.mp hs
    exact h.watch _ w
  | emit alert =>
    have hb := step_beside hs (fun _ h => by cases h)
    obtain ⟨m, _, _, rfl⟩ := step_emit hs
    exact hb.tracked h h.listed fun m x hx => Or.inl ⟨hx, rfl⟩
  | builder store => exact (builderStep_move hs hc.1).tracked h hc.2

theorem Covers.goes {a : BuilderAction} (h : s.Covers a) : s.Goes a := by
  cases a with
  | builder store => exact h.1
  | _ => trivial

/-! One edge, from the time it and the alert on its member are known. -/

/-- `n` is the number of rounds that had started by then. -/
structure Awaits (n : Nat) (m : Member) (x : MemberProxy) (s : BuilderState) : Prop where
  known : (m, x) ∈ s.known
  drained : n < s.rounds → (m, x) ∈ s.drained
  suspected : s.Suspected m
  /-- A later round has taken the alert when it is through with the updates. -/
  taken : n < s.rounds → s.phase.draining = false →
    ∃ p, p.mpMember = some m ∧ (p ∈ s.mSAG.mVertices ∨ p ∈ s.phase.newAlerts.map Alert.member)

variable {n : Nat}

theorem suspected_iff : s.Suspected m ↔
    (∃ p, p.mpMember = some m ∧ (p ∈ s.mSAG.mVertices ∨ p ∈ s.phase.newAlerts.map Alert.member)) ∨
      ∃ p, p.mpMember = some m ∧ p ∈ s.mFD.mAlerts.map Alert.member := by
  unfold Suspected suspects
  simp only [List.map_append, List.mem_append]
  constructor
  · intro ⟨p, hp, hm⟩
    obtain hp | hp | hp := hp
    · exact Or.inl ⟨p, hm, Or.inl hp⟩
    · exact Or.inl ⟨p, hm, Or.inr hp⟩
    · exact Or.inr ⟨p, hm, hp⟩
  · intro h
    obtain ⟨p, hm, hp | hp⟩ | ⟨p, hm, hp⟩ := h
    · exact ⟨p, Or.inl hp, hm⟩
    · exact ⟨p, Or.inr (Or.inl hp), hm⟩
    · exact ⟨p, Or.inr (Or.inr hp), hm⟩

theorem Awaits.beside (h : s.Awaits n m x) (hb : s.Beside s') : s'.Awaits n m x := by
  refine ⟨hb.known _ h.known, ?_, ?_, ?_⟩
  · rw [hb.rounds, hb.drained]
    exact h.drained
  · rw [suspected_iff, hb.mSAG, hb.phase]
    obtain hp | ⟨p, hm, hp⟩ := suspected_iff.mp h.suspected
    · exact Or.inl hp
    · obtain ⟨alert, halert, rfl⟩ := List.mem_map.mp hp
      exact Or.inr ⟨_, hm, List.mem_map.mpr ⟨alert, hb.alerts _ halert, rfl⟩⟩
  · rw [hb.rounds, hb.phase, hb.mSAG]
    exact h.taken

/-- `p` is in the subgraph or among the alerts of this round. -/
def Takes (s : BuilderState) (p : MemberPtr) : Prop :=
  p ∈ s.mSAG.mVertices ∨ p ∈ s.phase.newAlerts.map Alert.member

/-- A move that keeps the alerts of the round, or has put them into the subgraph. -/
theorem Awaits.onward (h : s.Awaits n m x) (hknown : s'.known = s.known) (hdrained : s'.drained = s.drained)
    (hrounds : s'.rounds = s.rounds) (halerts : s'.mFD.mAlerts = s.mFD.mAlerts)
    (hdraining : s'.phase.draining = false → s.phase.draining = false)
    (htakes : ∀ p, p.mpMember = some m → s.Takes p → ∃ q, q.mpMember = some m ∧ s'.Takes q) :
    s'.Awaits n m x := by
  refine ⟨hknown ▸ h.known, ?_, ?_, ?_⟩
  · rw [hrounds, hdrained]
    exact h.drained
  · rw [suspected_iff, halerts]
    obtain ⟨p, hm, hp⟩ | hp := suspected_iff.mp h.suspected
    · exact Or.inl (htakes p hm hp)
    · exact Or.inr hp
  · intro hn hphase
    rw [hrounds] at hn
    obtain ⟨p, hm, hp⟩ := h.taken hn (hdraining hphase)
    exact htakes p hm hp

theorem Awaits.move (h : s.Awaits n m x) (hid : s.Identified) (hmove : s.Move s') : s'.Awaits n m x := by
  cases hmove with
  | drain hphase =>
    refine ⟨h.known, fun _ => h.known, ?_, fun _ hdraining => by cases hdraining⟩
    have hsus := h.suspected
    rw [suspected_iff, hphase] at hsus
    exact suspected_iff.mpr hsus
  | take hphase =>
    have htaken : ∃ p, p.mpMember = some m ∧
        (p ∈ s.mSAG.mVertices ∨ p ∈ s.mFD.mAlerts.map Alert.member) := by
      have hsus := suspected_iff.mp h.suspected
      rw [hphase] at hsus
      obtain ⟨p, hm, hp | hp⟩ | ⟨p, hm, hp⟩ := hsus
      · exact ⟨p, hm, Or.inl hp⟩
      · cases hp
      · exact ⟨p, hm, Or.inr hp⟩
    exact ⟨h.known, h.drained, suspected_iff.mpr (Or.inl htaken), fun _ _ => htaken⟩
  | present hphase hin =>
    refine h.onward rfl rfl rfl rfl (fun _ => by rw [hphase]; rfl) ?_
    intro p hm hp
    obtain hp | hp := hp
    · exact ⟨p, hm, Or.inl hp⟩
    · rw [hphase] at hp
      obtain rfl | hp := List.mem_cons.mp hp
      -- the handle to the same object that the subgraph holds is one to the same member
      · obtain ⟨q, hq, heq⟩ := Graph.add_self (g := s.mSAG) (p := Alert.member _)
        rw [Graph.add_eq_of_not_added hin] at hq
        rw [hm, Option.map_some] at heq
        obtain ⟨m', hm', href⟩ := Option.map_eq_some_iff.mp heq
        have hsus : s.Suspected m' := ⟨q, List.mem_append_left _ hq, hm'⟩
        rw [hid.agree m' m hsus h.suspected href] at hm'
        exact ⟨q, hm', Or.inl hq⟩
      · exact ⟨p, hm, Or.inr hp⟩
  | expand hphase hnew hm hscan =>
    refine h.onward rfl rfl rfl rfl (fun _ => by rw [hphase]; rfl) ?_
    intro p hm hp
    obtain hp | hp := hp
    · exact ⟨p, hm, Or.inl (Graph.add_of_mem hp)⟩
    · rw [hphase] at hp
      obtain rfl | hp := List.mem_cons.mp hp
      · exact ⟨_, hm, Or.inl (Graph.mem_of_added hnew)⟩
      · exact ⟨p, hm, Or.inr hp⟩
  | enter hphase | skip hphase _ | leave hphase | seen hphase _ | unseen hphase | add hphase =>
    refine h.onward rfl rfl rfl rfl (fun hdraining => by cases hdraining) ?_
    intro p hm hp
    rw [Takes, hphase] at hp
    exact ⟨p, hm, hp⟩
  | expanded hphase | addIncoming hphase | finish hphase =>
    refine h.onward rfl rfl rfl rfl (fun _ => by rw [hphase]; rfl) ?_
    intro p hm hp
    rw [Takes, hphase] at hp
    exact ⟨p, hm, hp⟩

theorem Awaits.step {a : BuilderAction} (h : s.Awaits n m x) (hid : s.Identified) (hgo : s.Goes a)
    (hs : s.step a = some s') : s'.Awaits n m x := by
  cases a with
  | builder store => exact h.move hid (builderStep_move hs hgo)
  | _ => exact h.beside (step_beside hs fun _ h => by cases h)

/-- Between two rounds, an edge that was known before the last one has reached the watchlist. -/
theorem Awaits.passed (h : s.Awaits n m x) (htracked : s.Tracked) (hn : n < s.rounds)
    (hidle : s.phase.isIdle = true) : x.mPrimaryKey ∈ s.monitored := by
  have hphase : s.phase = .idle := by
    cases hp : s.phase with
    | idle => rfl
    | _ => rw [hp] at hidle; cases hidle
  obtain ⟨p, hm, hp⟩ := h.taken hn (by rw [hphase]; rfl)
  rw [hphase] at hp
  obtain hp | hp := hp
  · obtain hmon | hcarry := htracked.covered p hp m x hm (h.drained hn)
    · exact hmon
    · rw [hphase] at hcarry
      exact absurd hcarry (Phase.not_carries rfl rfl)
  · cases hp

theorem tracked_new {k k' : PrimaryKey} {names : List String} {size : Nat} {criteria : AbortCriteria} :
    (new k k' names size criteria).Identified ∧ (new k k' names size criteria).Tracked := by
  refine ⟨⟨DataStore.wellFormed_new k k', ?_, ?_⟩, ⟨?_, ?_, ?_⟩⟩
  · intro m ⟨p, hp, _⟩
    cases hp
  · intro m _ ⟨p, hp, _⟩
    cases hp
  · intro k hk
    cases contains_keys hk
  · intro m x hx
    cases hx
  · intro p hp
    cases hp

/-! What is recorded is known. -/

structure RecordedKnown (s : BuilderState) : Prop where
  store : s.mpDataStore.WellFormed
  known : ∀ m x, s.mpDataStore.Recorded m x → (m, x) ∈ s.known ∨
    ∃ u it, s.updating = some (u, it) ∧ u.member it = m ∧ u.connection = some x

/-- A message is the only step that records anything, and it stays at hand until it is queued. -/
theorem RecordedKnown.update {u : Update} {it : Nat} {store : DataStore} (h : s.RecordedKnown)
    (hnone : s.updating = none) (hfound : s.mpDataStore.findUpdated u = some (some it))
    (hu : s.mpDataStore.update it u = some store) :
    RecordedKnown { s with mpDataStore := store, updating := some (u, it) } := by
  refine ⟨(DataStore.update_spec hu).2 h.store, fun m x hx => ?_⟩
  have hold : s.mpDataStore.Recorded m x → (m, x) ∈ s.known := by
    intro hx
    obtain hx | ⟨_, _, hsome, _⟩ := h.known m x hx
    · exact hx
    · rw [hnone] at hsome
      cases hsome
  obtain ⟨hk, v, hv, hkey, hx⟩ := hx
  obtain hv | ⟨href, w, hw, hmember, hnew⟩ := DataStore.update_vertex hu _ _ hv
  · exact Or.inl (hold ⟨hk, v, hv, hkey, hx⟩)
  · obtain hx | hconn := hnew x hx
    · exact Or.inl (hold ⟨hk, w, hw, hmember ▸ hkey, hx⟩)
    · refine Or.inr ⟨u, it, rfl, ?_, hconn⟩
      obtain ⟨e, he, hekey⟩ := (DataStore.findUpdated_spec h.store hfound).1 it rfl
      have hheader := DataStore.vertex_header (href ▸ hw) he
      obtain ⟨ref, isTopic, primary⟩ := m
      simp only at href hk hkey
      subst href
      rw [Update.member, hk, ← hekey, hheader, ← hmember, hkey]

theorem RecordedKnown.step {a : BuilderAction} (h : s.RecordedKnown) (hs : s.step a = some s') :
    s'.RecordedKnown := by
  cases a with
  | update u =>
    obtain rfl | ⟨hnone, it, store, hfound, hu, rfl⟩ := step_update hs
    · exact h
    · exact h.update hnone hfound hu
  -- the edge of the message at hand becomes known with its entry in the queue
  | queue =>
    obtain ⟨⟨u, it⟩, hr, rfl⟩ := Option.map_eq_some_iff.mp hs
    refine ⟨(DataStore.queue_spec _ _).2 h.store, fun m x hx => Or.inl ?_⟩
    have hx : s.mpDataStore.Recorded m x := by
      simpa only [DataStore.Recorded, DataStore.queue_vertex] using hx
    obtain hknown | ⟨u', it', hr', rfl, hconn⟩ := h.known m x hx
    · exact List.mem_append_left _ hknown
    · rw [hr] at hr'
      cases hr'
      refine List.mem_append_right _ (List.mem_map.mpr ⟨x, List.mem_filter.mpr ⟨?_, ?_⟩, rfl⟩)
      · exact Option.mem_toList.mpr hconn
      · exact decide_eq_true hx
  -- an element that was there keeps its neighbours, and a new one has none
  | store op =>
    obtain ⟨store, ho, rfl⟩ := Option.map_eq_some_iff.mp hs
    obtain ⟨hevolves, hwell⟩ := DataStore.apply_spec ho h.store
    refine ⟨hwell, fun m x hx => ?_⟩
    obtain ⟨hk, v, hv, hkey, hx⟩ := hx
    obtain hv | ⟨_, hnil⟩ := hevolves.vertex _ _ hv
    · exact h.known m x ⟨hk, v, hv, hkey, hx⟩
    · rw [hnil] at hx
      cases hx
  | watchlist op =>
    obtain ⟨w, _, rfl⟩ := Option.map_eq_some_iff.mp hs
    exact ⟨h.store, h.known⟩
  | emit alert =>
    obtain ⟨m, _, _, rfl⟩ := step_emit hs
    exact ⟨h.store, h.known⟩
  | builder store =>
    obtain ⟨hstore, hknown, hupdating⟩ := builderStep_store hs
    obtain hsame | hsame := hstore
    · refine ⟨hsame ▸ h.store, fun m x hx => ?_⟩
      rw [hknown, hupdating]
      exact h.known m x (hsame ▸ hx)
    · refine ⟨hsame ▸ ⟨h.store.nodes, h.store.topics⟩, fun m x hx => ?_⟩
      rw [hknown, hupdating]
      rw [hsame] at hx
      exact h.known m x hx

/-- Every incoming neighbour that is recorded in the store is known, unless its message has not been
    queued yet. -/
theorem recorded_known {k k' : PrimaryKey} {names : List String} {size : Nat} {criteria : AbortCriteria}
    {as : List BuilderAction} (hr : run step (new k k' names size criteria) as = some s) :
    s.RecordedKnown := by
  refine run_preserves (I := RecordedKnown) (fun s a t h hs => h.step hs) ⟨DataStore.wellFormed_new k k', ?_⟩ hr
  intro m x hx
  obtain ⟨_, v, hv, _⟩ := hx
  have hnone : (DataStore.new k k').vertex m.ref = none := DataStore.vertex_new k k' m.ref
  exact absurd (hnone.symm.trans hv) (by simp)

end BuilderState

/-- Every edge known with the alert on its member has reached the watchlist when a later round has
    ended, in every run without an abort and without an expansion that has to make up for more than
    it can. -/
theorem passed_of_covers (parameterEventsKey rosoutKey : PrimaryKey) (names : List String) (size : Nat)
    (criteria : AbortCriteria) (as bs : List BuilderAction) (s₀ s₁ : BuilderState)
    (covers : Along BuilderState.step BuilderState.Covers
      (.new parameterEventsKey rosoutKey names size criteria) (as ++ bs))
    (before : run BuilderState.step (.new parameterEventsKey rosoutKey names size criteria) as = some s₀)
    (after : run BuilderState.step s₀ bs = some s₁) : BuilderState.Passed s₀ s₁ := by
  obtain ⟨hcas, hcbs⟩ := covers.append before
  have hinv : ∀ s a t, s.Identified ∧ s.Tracked → BuilderState.Covers s a →
      BuilderState.step s a = some t → t.Identified ∧ t.Tracked := by
    intro s a t h hc hs
    exact ⟨h.1.step hc.goes hs, h.2.step h.1.store hc hs⟩
  have h₀ : s₀.Identified ∧ s₀.Tracked :=
    run_invariant hinv as _ s₀ BuilderState.tracked_new hcas before
  intro hn hidle m x hsus hknown
  have hawaits : BuilderState.Awaits s₀.rounds m x s₀ :=
    ⟨hknown, fun h => absurd h (Nat.lt_irrefl _), hsus, fun h => absurd h (Nat.lt_irrefl _)⟩
  have h₁ : (s₁.Identified ∧ s₁.Tracked) ∧ BuilderState.Awaits s₀.rounds m x s₁ := by
    refine run_invariant (I := fun s => (s.Identified ∧ s.Tracked) ∧ BuilderState.Awaits s₀.rounds m x s)
      ?_ bs s₀ s₁ ⟨h₀, hawaits⟩ hcbs after
    intro s a t h hc hs
    exact ⟨hinv s a t h.1 hc hs, h.2.step h.1.1 hc.goes hs⟩
  exact h₁.2.passed h₁.1.2 hn hidle

/-- A builder that aborts when the mean number of alerts has exceeded 10. -/
def quietBuilder : BuilderState := .new "e" "r" [] 2 ⟨false, ⟨2, [], some 0⟩, 10⟩

def quietNode : NodeResponse := ⟨"n", "n", "p", .ACTIVE, 0, 0, 0⟩

def quietSubscription : Update := .node (.subscribersTo "n" "t")

def quietAlert : Alert := ⟨.make ⟨⟨false, 0⟩, false, "n"⟩, [], 0, .SEVERITY_NORMAL⟩

def builderSteps (steps : Nat) : List BuilderAction := List.replicate steps (.builder exampleStore)

/-- The alert before the subscription: the next round drains the update of a suspect. -/
theorem passed_update : ∃ s₀ s₁,
    run BuilderState.step quietBuilder ([.store (.emplaceNode quietNode 0), .emit quietAlert] ++
      builderSteps 5 ++ [.update quietSubscription, .queue]) = some s₀ ∧
    run BuilderState.step s₀ (builderSteps 7) = some s₁ ∧ "t" ∉ s₀.monitored ∧
    BuilderState.Passed s₀ s₁ ∧ "t" ∈ s₁.monitored := by
  have hrun : ∃ s₀, s₀ ∈ run BuilderState.step quietBuilder ([.store (.emplaceNode quietNode 0),
      .emit quietAlert] ++ builderSteps 5 ++ [.update quietSubscription, .queue]) ∧
      ∃ s₁, s₁ ∈ run BuilderState.step s₀ (builderSteps 7) ∧ "t" ∉ s₀.monitored ∧
        s₀.rounds < s₁.rounds ∧ s₁.phase.isIdle = true ∧
        s₀.Suspected ⟨⟨false, 0⟩, false, "n"⟩ ∧
        ((⟨⟨false, 0⟩, false, "n"⟩, ⟨"t", true⟩) : Member × MemberProxy) ∈ s₀.known := by decide +kernel
  obtain ⟨s₀, before, s₁, after, hnot, hn, hidle, hsus, hknown⟩ := hrun
  have h := passed_of_covers "e" "r" [] 2 ⟨false, ⟨2, [], some 0⟩, 10⟩ _ _ s₀ s₁ (by decide +kernel)
    before after
  exact ⟨s₀, s₁, before, after, hnot, h, h hn hidle _ _ hsus hknown⟩

/-- The subscription before the alert: the update is drained and skipped, and the expansion does
    not read what the node subscribes to. -/
theorem not_passed_snapshot : ∃ s₀ s₁,
    run BuilderState.step quietBuilder ([.store (.emplaceNode quietNode 0), .update quietSubscription,
      .queue] ++ builderSteps 4 ++ [.emit quietAlert]) = some s₀ ∧
    run BuilderState.step s₀ (builderSteps 5) = some s₁ ∧
    Along BuilderState.step BuilderState.Goes quietBuilder ([.store (.emplaceNode quietNode 0),
      .update quietSubscription, .queue] ++ builderSteps 4 ++ [.emit quietAlert] ++ builderSteps 5) ∧
    ¬ BuilderState.Passed s₀ s₁ := by
  have hrun : ∃ s₀, s₀ ∈ run BuilderState.step quietBuilder ([.store (.emplaceNode quietNode 0),
      .update quietSubscription, .queue] ++ builderSteps 4 ++ [.emit quietAlert]) ∧
      ∃ s₁, s₁ ∈ run BuilderState.step s₀ (builderSteps 5) ∧ s₀.rounds < s₁.rounds ∧
        s₁.phase.isIdle = true ∧ s₀.Suspected ⟨⟨false, 0⟩, false, "n"⟩ ∧
        ((⟨⟨false, 0⟩, false, "n"⟩, ⟨"t", true⟩) : Member × MemberProxy) ∈ s₀.known ∧
        "t" ∉ s₁.monitored := by decide +kernel
  obtain ⟨s₀, before, s₁, after, hn, hidle, hsus, hknown, hnot⟩ := hrun
  refine ⟨s₀, s₁, before, after, by decide +kernel, ?_⟩
  intro h
  exact hnot (h hn hidle _ _ hsus hknown)

end StreamFdl
