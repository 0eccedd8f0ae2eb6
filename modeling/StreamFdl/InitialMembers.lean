import StreamFdl.Watchlist

/- The initial members of a watchlist. The configuration names nodes; from time
   to time the data store can resolve a name, and the next `getMembers` takes the
   name off the pending ones and puts the node on the list. Since the list holds
   at most one handle, only the first node to resolve gets there: the names of
   the others are taken off all the same, and nothing is left of them.

   `member` gives the node each name stands for. The runs here are of one
   watchlist that nothing else is added to and that is not reset. -/
namespace StreamFdl
open Runs OrderedMap

inductive InitialOp where
  /-- `getMembers`, at a moment when the data store resolves these names. -/
  | getMembers (resolvable : String → Bool)
  | notifyUsed (member : PrimaryKey)
  | contains (member : PrimaryKey)

structure InitialState where
  list : Watchlist
  /-- The configured names that some `getMembers` could resolve. -/
  resolved : List String
  /-- What `getMembers` returned, when that was the last call. -/
  returned : Option (List MemberPtr)

namespace Watchlist

/-- The data store when it resolves these names. -/
def resolving (member : String → Member) (resolvable : String → Bool) : StoreView :=
  .answering (fun _ => false) fun name => if resolvable name then .make (member name) else .null

/-- A handle to this member is on the list. -/
def watches (w : Watchlist) (m : Member) : Bool := w.mMembers.entries.any fun e => e.1.eq (.make m)

end Watchlist

namespace InitialState

def new (names : List String) : InitialState := ⟨.new names, [], none⟩

def step (names : List String) (member : String → Member) (s : InitialState) :
    InitialOp → Option InitialState
  | .getMembers resolvable =>
    let r := s.list.getMembers (Watchlist.resolving member resolvable)
    some ⟨r.1, s.resolved ++ names.filter resolvable, some r.2⟩
  | .notifyUsed key => some ⟨(s.list.notifyUsed key).1, s.resolved, none⟩
  | .contains _ => some { s with returned := none }

/-- No initial member is lost. -/
structure Kept (names : List String) (member : String → Member) (s : InitialState) : Prop where
  pending_or_watched : ∀ name ∈ names,
    name ∈ s.list.mInitialMemberNames ∨ s.list.watches (member name) = true
  returned : ∀ out, s.returned = some out → ∀ name ∈ s.resolved,
    ∃ p ∈ out, p.eq (.make (member name)) = true

/-- Some `getMembers` of the run comes when the name can be resolved. -/
def ResolvedBy (ops : List InitialOp) (name : String) : Prop :=
  ∃ resolvable, .getMembers resolvable ∈ ops ∧ resolvable name = true

end InitialState

/-! The loop of `tryInitialise`. -/

namespace Watchlist

variable {store : StoreView} {names : List String} {members : InternalMembers}

/-- The names that cannot be resolved stay. -/
theorem initialiseFrom_names : (initialiseFrom store names members).1 =
    names.filter fun name => !(store.getNodeByName name).valid := by
  induction names generalizing members with
  | nil => rfl
  | cons name names ih =>
    simp only [initialiseFrom]
    cases hv : (store.getNodeByName name).valid <;> simp [ih, hv]

theorem initialiseFrom_keeps {e : MemberPtr × WatchlistMemberType} (h : e ∈ members.entries) :
    e ∈ (initialiseFrom store names members).2.entries := by
  induction names generalizing members with
  | nil => exact h
  | cons name names ih =>
    simp only [initialiseFrom]
    split
    · exact ih (OrderedMap.emplace_keeps _ _ _ h)
    · exact ih h

theorem mem_initialiseFrom {e : MemberPtr × WatchlistMemberType}
    (h : e ∈ (initialiseFrom store names members).2.entries) : e ∈ members.entries ∨
      ∃ name ∈ names, (store.getNodeByName name).valid = true ∧
        e = (store.getNodeByName name, .TYPE_INITIAL) := by
  induction names generalizing members with
  | nil => exact Or.inl h
  | cons name names ih =>
    simp only [initialiseFrom] at h
    split at h
    · next hv =>
      rcases ih h with h | ⟨n, hn, hnv, he⟩
      · rcases OrderedMap.mem_emplace h with h | h
        · exact Or.inr ⟨name, List.mem_cons_self, hv, h⟩
        · exact Or.inl h
      · exact Or.inr ⟨n, List.mem_cons_of_mem _ hn, hnv, he⟩
    · rcases ih h with h | ⟨n, hn, hnv, he⟩
      · exact Or.inl h
      · exact Or.inr ⟨n, List.mem_cons_of_mem _ hn, hnv, he⟩

/-- The only name that resolves gets its node into an empty list. -/
theorem initialiseFrom_only {name : String} (hm : members.entries = []) (hn : name ∈ names)
    (hv : (store.getNodeByName name).valid = true)
    (honly : ∀ n ∈ names, (store.getNodeByName n).valid = true → n = name) :
    (store.getNodeByName name, .TYPE_INITIAL) ∈ (initialiseFrom store names members).2.entries := by
  induction names with
  | nil => cases hn
  | cons n names ih =>
    simp only [initialiseFrom]
    split
    · next hnv =>
      have hnn : n = name := honly n List.mem_cons_self hnv
      subst hnn
      apply initialiseFrom_keeps
      have hempty : members = .empty := OrderedMap.ext hm
      rw [hempty, OrderedMap.emplace_empty]
      exact List.mem_cons_self
    · next hnv =>
      have hmem : name ∈ names := by
        rcases List.mem_cons.mp hn with rfl | hmem
        · exact absurd hv hnv
        · exact hmem
      exact ih hmem fun n' hn' => honly n' (List.mem_cons_of_mem _ hn')

end Watchlist

namespace InitialState

variable {names : List String} {member : String → Member} {s t : InitialState}

@[simp] theorem resolving_valid (resolvable : String → Bool) (name : String) :
    ((Watchlist.resolving member resolvable).getNodeByName name).valid = resolvable name := by
  simp only [Watchlist.resolving, StoreView.answering]
  cases resolvable name <;> rfl

theorem resolving_eq {resolvable : String → Bool} {name : String} (h : resolvable name = true) :
    (Watchlist.resolving member resolvable).getNodeByName name = .make (member name) := by
  simp [Watchlist.resolving, StoreView.answering, h]

/-- What every run keeps, whatever can be resolved. -/
structure Tracks (names : List String) (s : InitialState) : Prop where
  valid : s.list.AllValid
  initial : ∀ e ∈ s.list.mMembers.entries, e.2 = .TYPE_INITIAL
  configured : ∀ name ∈ s.list.mInitialMemberNames, name ∈ names
  resolved : ∀ name ∈ s.resolved, name ∈ names ∧ name ∉ s.list.mInitialMemberNames

theorem tracks_new (names : List String) : (new names).Tracks names :=
  ⟨Watchlist.allValid_new names, by simp [new, Watchlist.new], fun _ h => h, by simp [new]⟩

/-- Entries of initial members are never used up. -/
theorem Tracks.notifyUsed (h : s.Tracks names) (key : PrimaryKey) :
    s.list.notifyUsed key = (s.list, false) := by
  unfold Watchlist.notifyUsed
  split
  · next p heq =>
    have := h.initial _ (List.mem_of_find?_eq_some heq)
    cases this
  · rfl

theorem mem_pending_getMembers {resolvable : String → Bool} {name : String} :
    name ∈ (s.list.getMembers (Watchlist.resolving member resolvable)).1.mInitialMemberNames ↔
      name ∈ s.list.mInitialMemberNames ∧ resolvable name = false := by
  simp [Watchlist.getMembers, Watchlist.tryInitialise, Watchlist.initialiseFrom_names]

theorem step_tracks (member : String → Member) (s : InitialState) (op : InitialOp) (t : InitialState) (h : s.Tracks names)
    (hs : s.step names member op = some t) : t.Tracks names := by
  cases op with
  | getMembers resolvable =>
    cases hs
    refine ⟨Watchlist.initialiseFrom_valid h.valid, fun e he => ?_, fun name hn => ?_, fun name hn => ?_⟩
    · rcases Watchlist.mem_initialiseFrom he with he | ⟨n, _, _, rfl⟩
      · exact h.initial e he
      · rfl
    · exact h.configured name (mem_pending_getMembers.mp hn).1
    · rw [mem_pending_getMembers]
      rcases List.mem_append.mp hn with hn | hn
      · exact ⟨(h.resolved name hn).1, fun hp => (h.resolved name hn).2 hp.1⟩
      · obtain ⟨hmem, hr⟩ := List.mem_filter.mp hn
        exact ⟨hmem, fun hp => by rw [hr] at hp; cases hp.2⟩
  | notifyUsed key =>
    cases hs
    rw [h.notifyUsed key]
    exact ⟨h.valid, h.initial, h.configured, h.resolved⟩
  | contains key =>
    cases hs
    exact ⟨h.valid, h.initial, h.configured, h.resolved⟩

/-- A configured name that the run can resolve ends up among the resolved ones. -/
theorem mem_resolved {ops : List InitialOp} {name : String} (hn : name ∈ names)
    (h : name ∈ s.resolved ∨ ResolvedBy ops name) (hr : run (step names member) s ops = some t) :
    name ∈ t.resolved := by
  induction ops generalizing s with
  | nil =>
    simp only [run_nil, Option.some.injEq] at hr
    rcases h with h | ⟨r, hmem, _⟩
    · exact hr ▸ h
    · cases hmem
  | cons op ops ih =>
    rw [run_cons] at hr
    obtain ⟨u, hu, hr⟩ := Option.bind_eq_some_iff.mp hr
    have hkeep : name ∈ s.resolved → name ∈ u.resolved := fun hm => by
      cases op <;> cases hu
      · exact List.mem_append_left _ hm
      · exact hm
      · exact hm
    rcases h with h | ⟨r, hmem, hrn⟩
    · exact ih (Or.inl (hkeep h)) hr
    · rcases List.mem_cons.mp hmem with rfl | hmem
      · cases hu
        exact ih (Or.inl (List.mem_append_right _ (List.mem_filter.mpr ⟨hn, hrn⟩))) hr
      · exact ih (Or.inr ⟨r, hmem, hrn⟩) hr

/-- What a run keeps while at most one name can be resolved: of the names `only` picks out. -/
structure KeepsOnly (names : List String) (member : String → Member) (only : String → Prop)
    (s : InitialState) : Prop where
  tracks : s.Tracks names
  kept : s.Kept names member
  entries : s.list.mMembers.entries ≠ [] →
    ∃ a ∈ names, only a ∧ a ∉ s.list.mInitialMemberNames

theorem KeepsOnly.getMembers {only : String → Prop} {resolvable : String → Bool}
    (h : s.KeepsOnly names member only) (hr : ∀ a ∈ names, resolvable a = true → only a)
    (hone : ∀ a ∈ names, ∀ b ∈ names, only a → only b → a = b) (ht : t.Tracks names)
    (hs : s.step names member (.getMembers resolvable) = some t) : t.KeepsOnly names member only := by
  have hkept : ∀ name ∈ names, name ∈ t.list.mInitialMemberNames ∨
      t.list.watches (member name) = true := by
    intro name hn
    cases hs
    rcases h.kept.pending_or_watched name hn with hp | hw
    · cases hrn : resolvable name with
      | false => exact Or.inl (mem_pending_getMembers.mpr ⟨hp, hrn⟩)
      | true =>
        -- the name is pending, so no other name was resolved before, and the list is empty
        have hempty : s.list.mMembers.entries = [] := by
          by_contra hne
          obtain ⟨a, ha, hoa, hap⟩ := h.entries hne
          exact hap (hone name hn a ha (hr name hn hrn) hoa ▸ hp)
        have honly : ∀ n ∈ s.list.mInitialMemberNames,
            ((Watchlist.resolving member resolvable).getNodeByName n).valid = true → n = name := by
          intro n hnp hv
          have hnn := h.tracks.configured n hnp
          rw [resolving_valid] at hv
          exact hone n hnn name hn (hr n hnn hv) (hr name hn hrn)
        have hmem := Watchlist.initialiseFrom_only hempty hp (by simp [hrn]) honly
        rw [resolving_eq hrn] at hmem
        exact Or.inr (List.any_eq_true.mpr ⟨_, hmem, by simp [MemberPtr.eq]⟩)
    · obtain ⟨e, he, hew⟩ := List.any_eq_true.mp hw
      exact Or.inr (List.any_eq_true.mpr ⟨e, Watchlist.initialiseFrom_keeps he, hew⟩)
  refine ⟨ht, ⟨hkept, fun out hout name hn => ?_⟩, fun hne => ?_⟩
  · obtain ⟨hname, hnp⟩ := ht.resolved name hn
    rcases hkept name hname with hp | hw
    · exact absurd hp hnp
    · obtain ⟨e, he, hew⟩ := List.any_eq_true.mp hw
      cases hs
      cases hout
      exact ⟨e.1, List.mem_map_of_mem he, hew⟩
  · cases hs
    obtain ⟨e, he⟩ := List.exists_mem_of_ne_nil _ hne
    rcases Watchlist.mem_initialiseFrom he with he | ⟨n, hn, hv, _⟩
    · obtain ⟨a, ha, hoa, hap⟩ := h.entries (List.ne_nil_of_mem he)
      exact ⟨a, ha, hoa, fun hp => hap (mem_pending_getMembers.mp hp).1⟩
    · rw [resolving_valid] at hv
      have hname := h.tracks.configured n hn
      refine ⟨n, hname, hr n hname hv, fun hp => ?_⟩
      have hunresolved := (mem_pending_getMembers.mp hp).2
      rw [hv] at hunresolved
      cases hunresolved

theorem KeepsOnly.step {only : String → Prop} (op : InitialOp) (h : s.KeepsOnly names member only)
    (hr : ∀ resolvable, op = .getMembers resolvable →
      ∀ a ∈ names, resolvable a = true → only a)
    (hone : ∀ a ∈ names, ∀ b ∈ names, only a → only b → a = b) :
    ∃ t, s.step names member op = some t ∧ t.KeepsOnly names member only := by
  cases op with
  | getMembers resolvable =>
    have ht := step_tracks member s (.getMembers resolvable) _ h.tracks rfl
    exact ⟨_, rfl, h.getMembers (hr resolvable rfl) hone ht rfl⟩
  | notifyUsed key =>
    refine ⟨_, rfl, step_tracks member s (.notifyUsed key) _ h.tracks rfl, ⟨?_, by simp⟩, ?_⟩
    · rw [h.tracks.notifyUsed key]; exact h.kept.pending_or_watched
    · rw [h.tracks.notifyUsed key]; exact h.entries
  | contains key =>
    exact ⟨_, rfl, step_tracks member s (.contains key) _ h.tracks rfl,
      ⟨h.kept.pending_or_watched, by simp⟩, h.entries⟩

/-- Two members on the list are the same object. -/
theorem Tracks.ref_eq_of_watches (h : s.Tracks names) {m m' : Member} (hm : s.list.watches m = true)
    (hm' : s.list.watches m' = true) : m.ref = m'.ref := by
  obtain ⟨e, he, heq⟩ := List.any_eq_true.mp hm
  obtain ⟨e', he', heq'⟩ := List.any_eq_true.mp hm'
  have hsame : e = e' := OrderedMap.eq_of_equiv _ he he'
    (Watchlist.equiv_of_valid (h.valid e he) (h.valid e' he'))
  subst hsame
  simp only [MemberPtr.eq, MemberPtr.make, Option.map_some, beq_iff_eq] at heq heq'
  rw [heq] at heq'
  exact Option.some.inj heq'

end InitialState

/-- No initial member is lost, in any state of a run, exactly when at most one configured name can
    be resolved at the `getMembers` calls of the run. -/
theorem initial_members_kept_iff (names : List String) (member : String → Member)
    (distinct : ∀ a ∈ names, ∀ b ∈ names, (member a).ref = (member b).ref → a = b)
    (ops : List InitialOp) :
    Holds (InitialState.step names member) (InitialState.Kept names member) (.new names) ops ↔
      ∀ a ∈ names, ∀ b ∈ names,
        InitialState.ResolvedBy ops a → InitialState.ResolvedBy ops b → a = b := by
  refine ⟨fun h a ha b hb hra hrb => ?_, fun hone => ?_⟩
  · obtain ⟨t, hrun, hkept⟩ := h.final
    have htracks := run_preserves (I := InitialState.Tracks names)
      (InitialState.step_tracks member)
      (InitialState.tracks_new names) hrun
    have hwatched : ∀ c ∈ names, InitialState.ResolvedBy ops c → t.list.watches (member c) = true := by
      intro c hc hrc
      have hres := InitialState.mem_resolved hc (Or.inr hrc) hrun
      exact (hkept.pending_or_watched c hc).resolve_left (htracks.resolved c hres).2
    exact distinct a ha b hb (htracks.ref_eq_of_watches (hwatched a ha hra) (hwatched b hb hrb))
  · refine holds_of_mem (I := InitialState.KeepsOnly names member (InitialState.ResolvedBy ops))
      (fun s h => h.kept) (fun s op hop h => h.step op (fun resolvable ho a _ hra => ?_) hone) ?_
    · exact ⟨resolvable, ho ▸ hop, hra⟩
    · exact ⟨InitialState.tracks_new names, ⟨fun name hn => Or.inl hn, by simp [InitialState.new]⟩,
        by simp [InitialState.new, Watchlist.new]⟩

def exampleMember (name : String) : Member := ⟨⟨false, name.length⟩, false, name⟩

/-- The second name never resolves. -/
theorem initial_members_kept_oneName :
    Holds (InitialState.step ["a", "bb"] exampleMember) (InitialState.Kept ["a", "bb"] exampleMember)
      (.new ["a", "bb"]) [.getMembers (· == "a"), .notifyUsed "a", .getMembers (· == "a")] := by
  refine (initial_members_kept_iff ["a", "bb"] exampleMember (by decide) _).mpr
    fun a _ b _ ⟨r, hr, hra⟩ ⟨r', hr', hrb⟩ => ?_
  simp only [List.mem_cons, InitialOp.getMembers.injEq, reduceCtorEq, List.not_mem_nil, or_false,
    false_or, or_self] at hr hr'
  subst hr hr'
  rw [beq_iff_eq.mp hra, beq_iff_eq.mp hrb]

/-- Both names resolve in the same call: the second node does not get onto the list. -/
theorem initial_members_lost_twoNames :
    ¬ Holds (InitialState.step ["a", "bb"] exampleMember) (InitialState.Kept ["a", "bb"] exampleMember)
      (.new ["a", "bb"]) [.getMembers fun _ => true] := by
  intro h
  have hkept := (h.cons rfl).here.pending_or_watched "bb" (by decide)
  exact absurd hkept (by decide)

end StreamFdl
