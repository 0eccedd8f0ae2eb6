import StreamFdl.InitialMembers

/- `Watchlist::reset` against a watchlist that was just constructed. What a
   watchlist answers to its users depends on the members on the list and on the
   names that are still pending. `reset` clears the list, and leaves the names as
   they are: one that some `getMembers` has resolved was taken off for good. So
   a watchlist that was reset answers like a new one, whatever is asked and
   whatever the data store can resolve from then on, exactly when nothing was
   resolved before. -/
namespace StreamFdl
open Runs

namespace Watchlist

/-- What an operation returns. -/
inductive Answer where
  | done
  | members (output : List MemberPtr)
  | contained (found : Bool)
  | used (removed : Bool)

def answer (w : Watchlist) : Op → Answer
  | .getMembers store => .members (w.getMembers store).2
  | .contains member => .contained (w.contains member)
  | .notifyUsed member => .used (w.notifyUsed member).2
  | .addMember _ _ _ | .addMemberPtr _ _ | .reset => .done

/-- What a sequence of operations returns, if no assertion fails. -/
def answers : Watchlist → List Op → Option (List Answer)
  | _, [] => some []
  | w, op :: ops => (w.step op).bind fun w' => (answers w' ops).map (w.answer op :: ·)

/-- The operation is a `getMembers` at a moment when the data store resolves the name. -/
def Op.resolves : Op → String → Bool
  | .getMembers store, name => (store.getNodeByName name).valid
  | _, _ => false

variable {w w' : Watchlist}

/-! The names that are pending. Nothing but `getMembers` looks at them. -/

theorem addMember_pending {store : StoreView} {member : MemberProxy} {type : WatchlistMemberType}
    (h : w.addMember store member type = some w') : w'.mInitialMemberNames = w.mInitialMemberNames := by
  simp only [addMember] at h
  split at h
  · cases h
    rfl
  · split at h
    · cases h
      rfl
    · split at h
      · cases h
        rfl
      · cases h

theorem addMemberPtr_pending {member : MemberPtr} {type : WatchlistMemberType}
    (h : w.addMemberPtr member type = some w') : w'.mInitialMemberNames = w.mInitialMemberNames := by
  simp only [addMemberPtr] at h
  split at h
  · cases h
    rfl
  · split at h
    · cases h
      rfl
    · cases h

theorem notifyUsed_pending (w : Watchlist) (member : PrimaryKey) :
    (w.notifyUsed member).1.mInitialMemberNames = w.mInitialMemberNames := by
  unfold notifyUsed
  split <;> rfl

/-- A step takes the names off that it resolves, and no other. -/
theorem step_pending {op : Op} (h : w.step op = some w') :
    w'.mInitialMemberNames = w.mInitialMemberNames.filter fun name => !op.resolves name := by
  have hnone : w.mInitialMemberNames.filter (fun _ => !false) = w.mInitialMemberNames :=
    List.filter_eq_self.mpr fun _ _ => rfl
  cases op with
  | addMember store member type => exact (addMember_pending h).trans hnone.symm
  | addMemberPtr member type => exact (addMemberPtr_pending h).trans hnone.symm
  | getMembers store =>
    cases h
    exact initialiseFrom_names
  | contains member =>
    cases h
    exact hnone.symm
  | reset =>
    cases h
    exact hnone.symm
  | notifyUsed member =>
    cases h
    exact (notifyUsed_pending w member).trans hnone.symm

/-- The names a run leaves pending are those no step of it resolves. -/
theorem mem_pending_run {ops : List Op} (h : run step w ops = some w') (name : String) :
    name ∈ w'.mInitialMemberNames ↔ name ∈ w.mInitialMemberNames ∧ ∀ op ∈ ops, op.resolves name = false := by
  induction ops generalizing w with
  | nil =>
    cases h
    exact ⟨fun hn => ⟨hn, fun op hop => (by cases hop)⟩, And.left⟩
  | cons op ops ih =>
    rw [run_cons] at h
    obtain ⟨u, hu, h⟩ := Option.bind_eq_some_iff.mp h
    rw [ih h, step_pending hu, List.mem_filter, List.forall_mem_cons, Bool.not_eq_true', and_assoc]

/-- A run that resolves no pending name leaves them as they are. -/
theorem pending_run_eq {ops : List Op} (h : run step w ops = some w')
    (hnone : ∀ op ∈ ops, ∀ name ∈ w.mInitialMemberNames, op.resolves name = false) :
    w'.mInitialMemberNames = w.mInitialMemberNames := by
  induction ops generalizing w with
  | nil =>
    cases h
    rfl
  | cons op ops ih =>
    rw [run_cons] at h
    obtain ⟨u, hu, h⟩ := Option.bind_eq_some_iff.mp h
    have hsame : u.mInitialMemberNames = w.mInitialMemberNames := by
      rw [step_pending hu]
      apply List.filter_eq_self.mpr
      intro name hn
      rw [hnone op List.mem_cons_self name hn]
      rfl
    rw [ih h fun op' hop' name hn => hnone op' (List.mem_cons_of_mem _ hop') name (hsame ▸ hn), hsame]

/-- A store that resolves one name. -/
def resolvingOnly (name : String) : StoreView :=
  .answering (fun _ => false) fun n => if n = name then .make ⟨⟨false, 0⟩, false, n⟩ else .null

/-- The next `getMembers` of an empty list returns a member just if a pending name resolves. -/
theorem getMembers_resolvingOnly {name : String} (hempty : w.mMembers = .empty) :
    (w.getMembers (resolvingOnly name)).2 = [] ↔ name ∉ w.mInitialMemberNames := by
  unfold getMembers tryInitialise
  rw [hempty]
  generalize w.mInitialMemberNames = names
  simp only [List.map_eq_nil_iff]
  induction names with
  | nil => exact iff_of_true rfl List.not_mem_nil
  | cons n names ih =>
    unfold initialiseFrom
    by_cases hn : n = name
    · have hvalid : ((resolvingOnly name).getNodeByName n).valid = true := by
        simp [resolvingOnly, StoreView.answering, hn, MemberPtr.make, MemberPtr.valid]
      rw [if_pos hvalid]
      refine iff_of_false ?_ fun hnot => hnot (hn ▸ List.mem_cons_self)
      exact List.ne_nil_of_mem (initialiseFrom_keeps (by rw [OrderedMap.emplace_empty]; exact List.mem_cons_self))
    · have hnull : ((resolvingOnly name).getNodeByName n).valid = false := by
        simp [resolvingOnly, StoreView.answering, hn, MemberPtr.null, MemberPtr.valid]
      rw [if_neg (by rw [hnull]; exact Bool.false_ne_true), List.mem_cons, not_or, ih]
      exact ⟨fun h => ⟨fun heq => hn heq.symm, h⟩, And.right⟩

/-- `Watchlist::reset` gives back a watchlist that answers like a new one, just
    if no configured name was resolved before it. -/
theorem reset_restores_iff (names : List String) (ops : List Op) (w : Watchlist)
    (reached : run step (.new names) ops = some w) :
    (∀ after, answers w.reset after = answers (.new names) after) ↔
      ∀ op ∈ ops, ∀ name ∈ names, op.resolves name = false := by
  constructor
  · intro h op hop name hname
    -- a name that was resolved makes the difference once the store resolves it again
    have hnext : (w.reset.getMembers (resolvingOnly name)).2 =
        ((Watchlist.new names).getMembers (resolvingOnly name)).2 := by
      have := h [.getMembers (resolvingOnly name)]
      simpa [answers, step, answer] using this
    have hnew : ((Watchlist.new names).getMembers (resolvingOnly name)).2 ≠ [] :=
      fun hnil => (getMembers_resolvingOnly rfl).mp hnil hname
    have hpending : name ∈ w.mInitialMemberNames := by
      by_contra hgone
      apply hnew
      rw [← hnext]
      exact (getMembers_resolvingOnly (w := w.reset) rfl).mpr hgone
    exact ((mem_pending_run reached name).mp hpending).2 op hop
  · intro hnone after
    have hpending : w.mInitialMemberNames = names := pending_run_eq reached hnone
    have hsame : w.reset = .new names := by
      rw [← hpending]
      rfl
    rw [hsame]

/-- Looking for the configured node before it runs changes nothing. -/
theorem reset_restores_unresolved :
    run step (.new ["a"]) [.getMembers (resolvingOnly "b"), .contains "a"] = some (.new ["a"]) ∧
      ((∀ after, answers (Watchlist.new ["a"]).reset after = answers (.new ["a"]) after) ↔
        ∀ op ∈ [Op.getMembers (resolvingOnly "b"), .contains "a"],
          ∀ name ∈ ["a"], op.resolves name = false) :=
  ⟨rfl, reset_restores_iff ["a"] [.getMembers (resolvingOnly "b"), .contains "a"] _ rfl⟩

/-- The configured node is found, and the watchlist is reset: from then on the
    watchlist returns nothing, and a new one would return the node. -/
theorem reset_forgets_resolved : ∃ w, run step (.new ["a"]) [.getMembers (resolvingOnly "a")] = some w ∧
    answers w.reset [.getMembers (resolvingOnly "a")] = some [.members []] ∧
    answers (.new ["a"]) [.getMembers (resolvingOnly "a")] =
      some [.members [.make ⟨⟨false, 0⟩, false, "a"⟩]] :=
  ⟨_, rfl, rfl, rfl⟩

end Watchlist

end StreamFdl
