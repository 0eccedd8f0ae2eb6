import StreamFdl.InitialMembers
import StreamFdl.SubgraphBuilder

/- The two resets of an abort beside a round of fault detection. A round works on
   a snapshot of the watchlist, member by member and window by window, and each
   of its operations on the watchlist or on the windows is a step; so are
   `mWatchlist.reset` and `mFD.reset` of the builder. A member that a running
   round still has to write a window for when the windows are cleared gets one
   all the same. If it is on the watchlist nothing is wrong with that; if the
   abort has dropped it, no later round takes the window away again.

   An iterator into the windows is the key it leads to, and has no entry once the
   windows are cleared. When they are cleared while fault detection stands at one
   of them, in its loop over the windows or between the search for a member's
   window and the update, its next step uses a dead iterator. That is undefined
   behaviour, and the step has no result: what is said of a run ends there. The
   alerts play no part here and are left out. -/
namespace StreamFdl
open Runs OrderedMap

/-- Where fault detection stands in its round. -/
inductive RoundPhase where
  | idle
  /-- The loop over the snapshot, with the members that are left. -/
  | updating (left : List MemberPtr)
  /-- The attributes of a member are read, and its window was looked for. -/
  | storing (member : MemberPtr) (attributes : AttributeMapping) (it : Option MemberPtr) (left : List MemberPtr)
  /-- The loop over the windows; `none` is `end()`. -/
  | checking (it : Option MemberPtr)
  /-- The window is full, and was evaluated. -/
  | notifying (it : MemberPtr)
  /-- The member was used. -/
  | erasing (it : MemberPtr)

/-- The members of the snapshot that the round has still to write a window for. -/
def RoundPhase.unwritten : RoundPhase → List MemberPtr
  | .updating left => left
  | .storing member _ _ left => member :: left
  | _ => []

structure RaceState where
  watchlist : Watchlist
  fd : FaultDetection
  phase : RoundPhase
  /-- The builder is between `mWatchlist.reset` and `mFD.reset`. -/
  aborting : Bool
  /-- The last round started while no abort was going on, and none has begun since. -/
  settled : Bool

inductive RaceOp where
  /-- The next step of fault detection, and what it meets. -/
  | detection (store : StoreView) (getAttributes : Member → AttributeMapping)
  | addMember (store : StoreView) (member : MemberProxy) (type : WatchlistMemberType)
  | resetWatchlist
  | resetDetection

namespace MemberWindow

/-- The entry an iterator leads to. -/
def at? (windows : MemberWindow) (it : MemberPtr) : Option (MemberPtr × AttributeWindow) :=
  windows.entries.find? fun e => decide (e.1 = it)

/-- `++it` -/
def next (windows : MemberWindow) (it : MemberPtr) : Option MemberPtr :=
  ((windows.entries.dropWhile fun e => decide (e.1 ≠ it)).tail.head?).map Prod.fst

end MemberWindow

namespace RaceState

def new (names : List String) (size : Nat) : RaceState := ⟨.new names, .new size, .idle, false, false⟩

def withWindows (s : RaceState) (windows : MemberWindow) (phase : RoundPhase) : RaceState :=
  { s with fd := { s.fd with mMovingWindow := windows }, phase := phase }

def windows (s : RaceState) : MemberWindow := s.fd.mMovingWindow

/-- `mcpWatchlist->getMembers`, the first step of a round. -/
def snapshot (s : RaceState) (store : StoreView) : RaceState :=
  let r := s.watchlist.getMembers store
  { s with watchlist := r.1, phase := .updating r.2, settled := !s.aborting }

/-- A step of fault detection. -/
def detection (s : RaceState) (store : StoreView) (getAttributes : Member → AttributeMapping) : Option RaceState :=
  match s.phase with
  | .idle => some (s.snapshot store)
  | .updating [] => some { s with phase := .checking (s.windows.entries.head?.map Prod.fst) }
  | .updating (member :: left) => do
    let m ← member.mpMember
    let it := (s.windows.find? member).map Prod.fst
    pure { s with phase := .storing member (getAttributes m) it left }
  | .storing member attributes none left => do
    let window ← s.fd.createAttrWindow attributes
    pure (s.withWindows (s.windows.emplace member window).1 (.updating left))
  | .storing _ attributes (some it) left => do
    let e ← s.windows.at? it
    let window ← FaultDetection.updateAttrWindow e.2 attributes
    pure (s.withWindows (s.windows.mapValues fun k w => if k = it then window else w) (.updating left))
  | .checking none => some { s with phase := .idle }
  | .checking (some it) => do
    let e ← s.windows.at? it
    let first ← e.2.entries.head?
    pure { s with phase := if first.2.full then .notifying it else .checking (s.windows.next it) }
  | .notifying it => do
    let e ← s.windows.at? it
    let m ← e.1.mpMember
    let r := s.watchlist.notifyUsed m.mPrimaryKey
    pure { s with watchlist := r.1, phase := if r.2 then .erasing it else .checking (s.windows.next it) }
  | .erasing it => do
    let e ← s.windows.at? it
    pure (s.withWindows (s.windows.eraseFirst fun e' => decide (e'.1 = e.1)) (.checking (s.windows.next it)))

/-- The builder does nothing else between the two resets. -/
def step (s : RaceState) : RaceOp → Option RaceState
  | .detection store getAttributes => s.detection store getAttributes
  | .addMember store member type =>
    if s.aborting then none
    else (s.watchlist.addMember store member type).map fun w => { s with watchlist := w }
  | .resetWatchlist =>
    if s.aborting then none
    else some { s with watchlist := s.watchlist.reset, aborting := true, settled := false }
  | .resetDetection => if s.aborting then some { s with fd := s.fd.reset, aborting := false } else none

/-- The member of this handle is on the watchlist. -/
def Watches (s : RaceState) (p : MemberPtr) : Prop :=
  ∃ e ∈ s.watchlist.mMembers.entries, e.1.mpMember = p.mpMember

instance (s : RaceState) (p : MemberPtr) : Decidable (s.Watches p) :=
  inferInstanceAs (Decidable (∃ e ∈ _, _ = _))

/-- At the end of a round that no abort has touched, every window is one of a watched member. -/
def EndsWatched (s : RaceState) : Prop :=
  s.phase = .idle → s.settled = true → ∀ e ∈ s.windows.entries, s.Watches e.1

/-- When the windows are cleared, the members that the running round has still to write a window
    for are on the watchlist. It allows to clear them while fault detection stands at one of them;
    what fault detection does next is then undefined behaviour. -/
def WritesWatched (s : RaceState) : RaceOp → Prop
  | .resetDetection => ∀ p ∈ s.phase.unwritten, s.Watches p
  | _ => True

instance (s : RaceState) : DecidablePred s.WritesWatched
  | .resetDetection => inferInstanceAs (Decidable (∀ p ∈ _, _))
  | .detection _ _ | .addMember _ _ _ | .resetWatchlist => isTrue trivial

variable {s t : RaceState} {p : MemberPtr}

/-- What holds between any two steps; the last two parts while the builder is not aborting. -/
structure Guarded (s : RaceState) : Prop where
  valid : s.watchlist.AllValid
  handles : ∀ p ∈ s.phase.unwritten, p.valid = true
  keys : ∀ e ∈ s.windows.entries, e.1.valid = true
  settled : s.settled = true → s.aborting = false
  unwritten : s.aborting = false → ∀ p ∈ s.phase.unwritten, s.Watches p
  watched : s.aborting = false → ∀ e ∈ s.windows.entries, (∀ it, s.phase ≠ .erasing it) → s.Watches e.1

theorem guarded_new (names : List String) (size : Nat) : (new names size).Guarded where
  valid := Watchlist.allValid_new names
  handles := fun p hp => by cases hp
  keys := fun e he => by cases he
  settled := fun h => by cases h
  unwritten := fun _ p hp => by cases hp
  watched := fun _ e he => by cases he

theorem Guarded.endsWatched (h : s.Guarded) : s.EndsWatched := by
  intro hidle hsettled e he
  apply h.watched (h.settled hsettled) e he
  intro it herasing
  rw [hidle] at herasing
  cases herasing

/-- There is one window at most. -/
theorem Guarded.single (h : s.Guarded) {e : MemberPtr × AttributeWindow} (he : e ∈ s.windows.entries) :
    s.windows.entries = [e] := by
  have hle := s.windows.length_le_one fun a ha _ _ => MemberPtr.not_lt_of_valid (h.keys a ha)
  have hpos := List.length_pos_of_mem he
  obtain ⟨a, ha⟩ := List.length_eq_one_iff.mp (Nat.le_antisymm hle hpos)
  rw [ha] at he ⊢
  rw [List.mem_singleton.mp he]

/-- A step that only moves on within the round, to nothing that was not there to be written before. -/
theorem Guarded.goTo (h : s.Guarded) {phase : RoundPhase} (hleft : ∀ p ∈ phase.unwritten, p ∈ s.phase.unwritten)
    (hfrom : ∀ it, s.phase ≠ .erasing it) : Guarded { s with phase := phase } where
  valid := h.valid
  handles := fun p hp => h.handles p (hleft p hp)
  keys := h.keys
  settled := h.settled
  unwritten := fun ha p hp => h.unwritten ha p (hleft p hp)
  watched := fun ha e he _ => h.watched ha e he hfrom

/-- Whoever is on the snapshot is on the list. -/
theorem Guarded.snapshot (h : s.Guarded) (hfrom : ∀ it, s.phase ≠ .erasing it) (store : StoreView) :
    (s.snapshot store).Guarded := by
  have hvalid : ((s.watchlist.getMembers store).1).AllValid := Watchlist.initialiseFrom_valid h.valid
  refine ⟨hvalid, fun p hp => ?_, h.keys, fun hs => ?_, fun _ p hp => ?_, fun ha e he _ => ?_⟩
  · obtain ⟨e, he, rfl⟩ := List.mem_map.mp hp
    exact hvalid e he
  · simpa [RaceState.snapshot] using hs
  · obtain ⟨e, he, rfl⟩ := List.mem_map.mp hp
    exact ⟨e, he, rfl⟩
  · obtain ⟨w, hw, heq⟩ := h.watched ha e he hfrom
    exact ⟨w, Watchlist.initialiseFrom_keeps hw, heq⟩

/-- A step that changes the windows: every key was there, or is one of a member that was unwritten. -/
theorem Guarded.withWindows (h : s.Guarded) {windows : MemberWindow} {phase : RoundPhase}
    (hleft : ∀ p ∈ phase.unwritten, p ∈ s.phase.unwritten) (hfrom : ∀ it, s.phase ≠ .erasing it)
    (hkeys : ∀ e ∈ windows.entries, e.1 ∈ s.windows.entries.map Prod.fst ∨ e.1 ∈ s.phase.unwritten) :
    (s.withWindows windows phase).Guarded where
  valid := h.valid
  handles := fun p hp => h.handles p (hleft p hp)
  keys := fun e he => by
    rcases hkeys e he with hold | hnew
    · obtain ⟨e', he', heq⟩ := List.mem_map.mp hold
      exact heq ▸ h.keys e' he'
    · exact h.handles e.1 hnew
  settled := h.settled
  unwritten := fun ha p hp => h.unwritten ha p (hleft p hp)
  watched := fun ha e he _ => by
    rcases hkeys e he with hold | hnew
    · obtain ⟨e', he', heq⟩ := List.mem_map.mp hold
      exact heq ▸ h.watched ha e' he' hfrom
    · exact h.unwritten ha e.1 hnew

theorem notifyUsed_unused {w : Watchlist} {member : PrimaryKey} (h : (w.notifyUsed member).2 = false) :
    (w.notifyUsed member).1 = w := by
  unfold Watchlist.notifyUsed at h ⊢
  split at h
  · cases h
  · rfl

theorem at?_some {windows : MemberWindow} {it : MemberPtr} {e : MemberPtr × AttributeWindow}
    (h : windows.at? it = some e) : e ∈ windows.entries := List.mem_of_find?_eq_some h

/-- Fault detection keeps all this, whatever it meets. -/
theorem Guarded.detection (h : s.Guarded) {store : StoreView} {getAttributes : Member → AttributeMapping}
    (ht : s.detection store getAttributes = some t) : t.Guarded := by
  unfold RaceState.detection at ht
  split at ht
  case h_1 hphase =>
    cases ht
    exact h.snapshot (by simp [hphase]) store
  case h_2 hphase =>
    cases ht
    exact h.goTo (fun p hp => by cases hp) (by simp [hphase])
  case h_3 member left hphase =>
    obtain ⟨m, hm, ht⟩ := Option.bind_eq_some_iff.mp ht
    cases ht
    exact h.goTo (fun p hp => by rwa [hphase]) (by simp [hphase])
  case h_4 member attributes left hphase =>
    obtain ⟨window, hw, ht⟩ := Option.bind_eq_some_iff.mp ht
    cases ht
    have hmember : member ∈ s.phase.unwritten := by
      rw [hphase]
      exact List.mem_cons_self
    refine h.withWindows (fun p hp => ?_) (by simp [hphase]) fun e he => ?_
    · rw [hphase]
      exact List.mem_cons_of_mem member hp
    · rcases mem_emplace he with rfl | he
      · exact Or.inr hmember
      · exact Or.inl (List.mem_map_of_mem he)
  case h_5 member attributes it left hphase =>
    obtain ⟨e, he, ht⟩ := Option.bind_eq_some_iff.mp ht
    obtain ⟨window, hw, ht⟩ := Option.bind_eq_some_iff.mp ht
    cases ht
    refine h.withWindows (fun p hp => ?_) (by simp [hphase]) fun e he => ?_
    · rw [hphase]
      exact List.mem_cons_of_mem member hp
    · rw [← mapValues_keys s.windows fun k w => if k = it then window else w]
      exact Or.inl (List.mem_map_of_mem he)
  case h_6 hphase =>
    cases ht
    exact h.goTo (fun p hp => by cases hp) (by simp [hphase])
  case h_7 it hphase =>
    obtain ⟨e, he, ht⟩ := Option.bind_eq_some_iff.mp ht
    obtain ⟨first, hfirst, ht⟩ := Option.bind_eq_some_iff.mp ht
    cases ht
    refine h.goTo (fun p hp => ?_) (by simp [hphase])
    split at hp
    · cases hp
    · cases hp
  case h_8 it hphase =>
    obtain ⟨e, he, ht⟩ := Option.bind_eq_some_iff.mp ht
    obtain ⟨m, hm, ht⟩ := Option.bind_eq_some_iff.mp ht
    cases ht
    have hvalid := Watchlist.step_allValid s.watchlist (.notifyUsed m.mPrimaryKey) _ h.valid rfl
    cases hused : (s.watchlist.notifyUsed m.mPrimaryKey).2 with
    | false =>
      rw [notifyUsed_unused hused]
      exact h.goTo (fun p hp => by cases hp) (by simp [hphase])
    | true =>
      -- the member is off the list, and its window, the only one, is what comes next
      exact ⟨hvalid, fun p hp => (by cases hp), h.keys, h.settled, fun _ p hp => (by cases hp),
        fun _ e he hnone => absurd rfl (hnone it)⟩
  case h_9 it hphase =>
    obtain ⟨e, he, ht⟩ := Option.bind_eq_some_iff.mp ht
    cases ht
    have hempty : (s.windows.eraseFirst fun e' => decide (e'.1 = e.1)).entries = [] := by
      show s.windows.entries.eraseP _ = []
      rw [h.single (at?_some he)]
      simp
    refine ⟨h.valid, fun p hp => (by cases hp), fun e' he' => ?_, h.settled, fun _ p hp => (by cases hp),
      fun _ e' he' => ?_⟩
    · exact absurd (hempty ▸ he') List.not_mem_nil
    · exact absurd (hempty ▸ he') List.not_mem_nil

/-- Every step that meets the condition keeps it. -/
theorem Guarded.step {op : RaceOp} (h : s.Guarded) (hop : s.WritesWatched op) (ht : s.step op = some t) :
    t.Guarded := by
  cases op with
  | detection store getAttributes => exact h.detection ht
  | addMember store member type =>
    simp only [RaceState.step] at ht
    split at ht
    · cases ht
    · obtain ⟨w, hw, rfl⟩ := Option.map_eq_some_iff.mp ht
      have hsame : w = s.watchlist := by
        rw [h.valid.addMember_eq] at hw
        split at hw
        · exact (Option.some.inj hw).symm
        · split at hw
          · cases hw
          · exact (Option.some.inj hw).symm
      rw [hsame]
      exact h
  | resetWatchlist =>
    simp only [RaceState.step] at ht
    split at ht
    · cases ht
    · cases ht
      exact ⟨fun e he => (by cases he), h.handles, h.keys, fun hs => (by cases hs), fun ha => (by cases ha),
        fun ha => (by cases ha)⟩
  | resetDetection =>
    simp only [RaceState.step] at ht
    split at ht
    · cases ht
      exact ⟨h.valid, h.handles, fun e he => (by cases he), fun _ => rfl, fun _ => hop, fun _ e he => (by cases he)⟩
    · cases ht

/-! The steps of a round that nothing comes between are the round of `FaultDetection`. -/

section Undisturbed
variable {store : StoreView} {getAttributes : Member → AttributeMapping}

theorem run_detection_succ (n : Nat) : run RaceState.step s (List.replicate (n + 1) (.detection store getAttributes)) =
    (s.detection store getAttributes).bind fun t =>
      run RaceState.step t (List.replicate n (.detection store getAttributes)) := rfl

/-- Handles are told apart by their validity alone. -/
theorem equiv_iff_valid {p q : MemberPtr} : Equiv MemberPtr.lt p q ↔ p.valid = q.valid :=
  OrderedMap.equiv_iff_eq (a := p.valid) (b := q.valid)

theorem at?_of_mem {windows : MemberWindow} {e : MemberPtr × AttributeWindow} (he : e ∈ windows.entries) :
    windows.at? e.1 = some e := by
  cases hfind : windows.at? e.1 with
  | none => simpa using List.find?_eq_none.mp hfind e he
  | some e' =>
    have hkey : e'.1 = e.1 := by simpa using List.find?_some hfind
    have hsame : Equiv MemberPtr.lt e'.1 e.1 := equiv_iff_valid.mpr (congrArg MemberPtr.valid hkey)
    rw [windows.eq_of_equiv (at?_some hfind) he hsame]

/-- The window an iterator leads to is the one the map found for the member. -/
theorem mapValues_at {windows : MemberWindow} {member : MemberPtr} {it : MemberPtr × AttributeWindow}
    (hfind : windows.find? member = some it) (window : AttributeWindow) :
    windows.mapValues (fun k w => if k = it.1 then window else w) =
      windows.mapValues fun k w => if Equiv MemberPtr.lt k member then window else w := by
  have hit : Equiv MemberPtr.lt it.1 member := by simpa using List.find?_some hfind
  rw [equiv_iff_valid] at hit
  apply OrderedMap.ext
  apply List.map_congr_left
  intro e he
  have hiff : e.1 = it.1 ↔ Equiv MemberPtr.lt e.1 member := by
    rw [equiv_iff_valid, ← hit]
    refine ⟨congrArg MemberPtr.valid, fun hvalid => ?_⟩
    rw [windows.eq_of_equiv he (List.mem_of_find?_eq_some hfind) (equiv_iff_valid.mpr hvalid)]
  simp only [hiff]

section Member
variable {member : MemberPtr} {left : List MemberPtr} {m : Member} {w : AttributeWindow}

theorem detection_read (hphase : s.phase = .updating (member :: left)) (hm : member.mpMember = some m) :
    s.detection store getAttributes = some
      { s with phase := .storing member (getAttributes m) ((s.windows.find? member).map Prod.fst) left } := by
  simp only [RaceState.detection, hphase, hm]
  rfl

variable {attributes : AttributeMapping}

theorem detection_create (hw : s.fd.createAttrWindow attributes = some w) :
    RaceState.detection { s with phase := .storing member attributes none left } store getAttributes =
      some (s.withWindows (s.windows.emplace member w).1 (.updating left)) := by
  simp only [RaceState.detection, hw]
  rfl

theorem detection_update {it : MemberPtr × AttributeWindow} (hfind : s.windows.find? member = some it)
    (hw : FaultDetection.updateAttrWindow it.2 attributes = some w) :
    RaceState.detection { s with phase := .storing member attributes (some it.1) left } store getAttributes =
      some (s.withWindows (s.windows.mapValues fun k w' => if Equiv MemberPtr.lt k member then w else w')
        (.updating left)) := by
  have hat : s.windows.at? it.1 = some it := at?_of_mem (List.mem_of_find?_eq_some hfind)
  rw [← mapValues_at hfind]
  show (s.windows.at? it.1).bind _ = _
  rw [hat]
  simp only [Option.bind_some, hw, Option.bind_eq_bind]
  rfl

end Member

section Iterator
variable {e : MemberPtr × AttributeWindow}

theorem detection_check {first : String × CircularBuffer} (hphase : s.phase = .checking (some e.1))
    (hat : s.windows.at? e.1 = some e) (hfirst : e.2.entries.head? = some first) :
    s.detection store getAttributes =
      some { s with phase := if first.2.full then .notifying e.1 else .checking (s.windows.next e.1) } := by
  simp only [RaceState.detection, hphase, hat, Option.bind_eq_bind, Option.bind_some, hfirst]
  rfl

theorem detection_notify {m : Member} (hphase : s.phase = .notifying e.1) (hat : s.windows.at? e.1 = some e)
    (hm : e.1.mpMember = some m) : s.detection store getAttributes =
      some { s with
        watchlist := (s.watchlist.notifyUsed m.mPrimaryKey).1,
        phase := if (s.watchlist.notifyUsed m.mPrimaryKey).2 then .erasing e.1
          else .checking (s.windows.next e.1) } := by
  simp only [RaceState.detection, hphase, hat, Option.bind_eq_bind, Option.bind_some, hm]
  rfl

theorem detection_erase (hphase : s.phase = .erasing e.1) (hat : s.windows.at? e.1 = some e) :
    s.detection store getAttributes =
      some (s.withWindows (s.windows.eraseFirst fun e' => decide (e'.1 = e.1))
        (.checking (s.windows.next e.1))) := by
  simp only [RaceState.detection, hphase, hat, Option.bind_eq_bind, Option.bind_some]
  rfl

end Iterator

/-- The first loop. -/
theorem run_updating (snapshot : List MemberPtr) (hphase : s.phase = .updating snapshot) {windows : MemberWindow}
    {fd : FaultDetection} (hsize : s.fd.cmMovingWindowSize = fd.cmMovingWindowSize)
    (hu : fd.updateMembers getAttributes snapshot s.windows = some windows) :
    run RaceState.step s (List.replicate (2 * snapshot.length) (.detection store getAttributes)) =
      some (s.withWindows windows (.updating [])) := by
  induction snapshot generalizing s with
  | nil =>
    cases hu
    obtain ⟨watchlist, fd, phase, aborting, settled⟩ := s
    cases hphase
    rfl
  | cons member left ih =>
    simp only [FaultDetection.updateMembers, Option.bind_eq_bind, Option.bind_eq_some_iff] at hu
    obtain ⟨m, hm, hu⟩ := hu
    rw [List.length_cons, Nat.mul_succ, run_detection_succ, detection_read hphase hm, Option.bind_some,
      run_detection_succ]
    cases hfind : s.windows.find? member with
    | none =>
      rw [hfind] at hu
      obtain ⟨w, hw, hu⟩ := Option.bind_eq_some_iff.mp hu
      have hw : s.fd.createAttrWindow (getAttributes m) = some w := by
        rw [FaultDetection.createAttrWindow, hsize]
        exact hw
      rw [Option.map_none, detection_create hw, Option.bind_some]
      exact ih rfl hsize hu
    | some it =>
      rw [hfind] at hu
      obtain ⟨w, hw, hu⟩ := Option.bind_eq_some_iff.mp hu
      rw [Option.map_some, detection_update hfind hw, Option.bind_some]
      exact ih rfl hsize hu

/-- The second loop, over the window there is. -/
theorem run_checking {e : MemberPtr × AttributeWindow} (hphase : s.phase = .checking (some e.1))
    (hentries : s.windows.entries = [e]) {r : MemberWindow × Watchlist × List DetectCall}
    (hd : FaultDetection.detectFrom [e] s.windows s.watchlist = some r) :
    ∃ n, run RaceState.step s (List.replicate n (.detection store getAttributes)) =
      some { s.withWindows r.1 .idle with watchlist := r.2.1 } := by
  have hat : s.windows.at? e.1 = some e := at?_of_mem (hentries ▸ List.mem_singleton_self e)
  have hnext : s.windows.next e.1 = none := by simp [MemberWindow.next, hentries]
  have herase : (s.windows.eraseFirst fun e' => decide (e'.1 = e.1)) =
      s.windows.eraseFirst fun e' => decide (Equiv MemberPtr.lt e'.1 e.1) := by
    apply OrderedMap.ext
    simp [OrderedMap.eraseFirst, hentries, equiv_iff_valid]
  simp only [FaultDetection.detectFrom, Option.bind_eq_bind, Option.bind_eq_some_iff] at hd
  obtain ⟨first, hfirst, hd⟩ := hd
  split at hd
  · next hfull =>
    simp only [Option.bind_eq_some_iff] at hd
    obtain ⟨m, hm, _, hrest, hd⟩ := hd
    cases hrest
    cases hd
    have hcheck : s.detection store getAttributes = some { s with phase := .notifying e.1 } := by
      rw [detection_check hphase hat hfirst, if_pos hfull]
    have hnotify : RaceState.detection { s with phase := .notifying e.1 } store getAttributes =
        some { s with
          watchlist := (s.watchlist.notifyUsed m.mPrimaryKey).1,
          phase := if (s.watchlist.notifyUsed m.mPrimaryKey).2 then .erasing e.1
            else .checking (s.windows.next e.1) } := detection_notify rfl hat hm
    cases hused : (s.watchlist.notifyUsed m.mPrimaryKey).2 with
    | false =>
      refine ⟨3, ?_⟩
      rw [run_detection_succ, hcheck, Option.bind_some, run_detection_succ, hnotify, Option.bind_some, hused, hnext]
      rfl
    | true =>
      refine ⟨4, ?_⟩
      have hdelete : RaceState.detection { s with
            watchlist := (s.watchlist.notifyUsed m.mPrimaryKey).1, phase := .erasing e.1 } store getAttributes =
          some { s.withWindows (s.windows.eraseFirst fun e' => decide (e'.1 = e.1))
              (.checking (s.windows.next e.1)) with
            watchlist := (s.watchlist.notifyUsed m.mPrimaryKey).1 } := detection_erase rfl hat
      rw [run_detection_succ, hcheck, Option.bind_some, run_detection_succ, hnotify, Option.bind_some, hused,
        if_pos rfl, run_detection_succ, hdelete, Option.bind_some, hnext, herase]
      rfl
  · next hfull =>
    cases hd
    refine ⟨2, ?_⟩
    rw [run_detection_succ, detection_check hphase hat hfirst, Option.bind_some, if_neg hfull, hnext]
    rfl

/-- Fault detection on its own keeps the invariant. -/
theorem Guarded.run_detection (h : s.Guarded) (n : Nat)
    (hr : run RaceState.step s (List.replicate n (.detection store getAttributes)) = some t) : t.Guarded := by
  refine run_invariant (I := RaceState.Guarded) (fun s op t h hop ht => h.step hop ht) _ s t h ?_ hr
  apply along_of_mem
  intro op hop s
  rw [List.eq_of_mem_replicate hop]
  trivial

/-- From the end of a round on, the steps of fault detection alone come to the result of the next round. -/
theorem Guarded.undisturbed (h : s.Guarded) (hidle : s.phase = .idle) {input : RoundInput}
    (hwatchlist : input.watchlist = s.watchlist) {r : FaultDetection × Watchlist × List DetectCall}
    (hr : s.fd.round input = some r) : ∃ n t,
    run RaceState.step s (List.replicate n (.detection input.store input.getAttributes)) = some t ∧
      t.phase = .idle ∧ t.windows = r.1.mMovingWindow ∧ t.watchlist = r.2.1 := by
  simp only [FaultDetection.round, Option.bind_eq_bind, Option.bind_eq_some_iff] at hr
  obtain ⟨windows, hu, r', hd, hr⟩ := hr
  cases hr
  rw [hwatchlist] at hu hd
  have hsnapshot : s.detection input.store input.getAttributes = some (s.snapshot input.store) := by
    simp only [RaceState.detection, hidle]
  set n := 2 * (s.watchlist.getMembers input.store).2.length
  set u := (s.snapshot input.store).withWindows windows (.updating [])
  have hupdate : run RaceState.step s (List.replicate (n + 1) (.detection input.store input.getAttributes)) =
      some u := by
    rw [run_detection_succ, hsnapshot, Option.bind_some]
    exact run_updating _ rfl rfl hu
  have hguarded : Guarded u := h.run_detection (n + 1) hupdate
  have hchecking : ∀ k, run RaceState.step s
      (List.replicate (n + 1 + (k + 1)) (.detection input.store input.getAttributes)) =
      run RaceState.step { u with phase := .checking (windows.entries.head?.map Prod.fst) }
        (List.replicate k (.detection input.store input.getAttributes)) := by
    intro k
    rw [List.replicate_add, run_append, hupdate, Option.bind_some, run_detection_succ]
    rfl
  cases hentries : windows.entries with
  | nil =>
    rw [hentries] at hd
    cases hd
    refine ⟨n + 1 + (1 + 1), { u with phase := .idle }, ?_, rfl, rfl, rfl⟩
    rw [hchecking 1, hentries]
    rfl
  | cons e es =>
    have hsingle : windows.entries = [e] := hguarded.single (hentries ▸ List.mem_cons_self)
    rw [hsingle] at hd
    have hfirst : RaceState.windows { u with phase := .checking (some e.1) } = windows := rfl
    obtain ⟨k, hk⟩ : ∃ k, run RaceState.step { u with phase := .checking (some e.1) }
        (List.replicate k (.detection input.store input.getAttributes)) =
        some { u.withWindows r'.1 .idle with watchlist := r'.2.1 } :=
      run_checking rfl (hfirst ▸ hsingle) hd
    refine ⟨n + 1 + (k + 1), { u.withWindows r'.1 .idle with watchlist := r'.2.1 }, ?_, rfl, rfl, rfl⟩
    rw [hchecking k, hsingle]
    exact hk

end Undisturbed

end RaceState

/-- For every interleaving of the steps of fault detection with those of the builder: if, whenever
    the windows are cleared, the members that the running round has still to write a window for are
    on the watchlist, then at the end of a round that no abort has touched all windows are of watched
    members. A round that goes on with an iterator to a window that was cleared comes to no end. -/
theorem windows_watched (names : List String) (size : Nat) (ops : List RaceOp) (s : RaceState)
    (met : Along RaceState.step RaceState.WritesWatched (.new names size) ops)
    (reached : run RaceState.step (.new names size) ops = some s) : s.EndsWatched := by
  have h : s.Guarded := run_invariant (I := RaceState.Guarded) (fun s op t h hop ht => h.step hop ht) ops _ s
    (RaceState.guarded_new names size) met reached
  exact h.endsWatched

def exampleDetection : RaceOp :=
  .detection exampleStore fun _ => ⟨[("cpu", 1)], List.pairwise_singleton _ _⟩

/-- The node "a" is found while an abort is going on, and written to after it. -/
def abortBeforeWindow : List RaceOp :=
  [.resetWatchlist, exampleDetection, .resetDetection] ++ List.replicate 5 exampleDetection ++
    List.replicate 6 exampleDetection

theorem windows_watched_beforeWindow :
    ∃ s, run RaceState.step (.new ["a"] 3) abortBeforeWindow = some s ∧ s.phase = .idle ∧ s.settled = true ∧
      s.windows.entries.map Prod.fst = [.make ⟨⟨false, 0⟩, false, "a"⟩] ∧ s.EndsWatched :=
  ⟨_, rfl, rfl, rfl, rfl, windows_watched ["a"] 3 abortBeforeWindow _ (by decide) rfl⟩

/-- The node "a" is on the snapshot when an abort comes, and gets its window after it. The next round
    finds the watchlist empty, and the window is still there when it ends. -/
def abortAfterSnapshot : List RaceOp :=
  [exampleDetection, .resetWatchlist, .resetDetection] ++ List.replicate 5 exampleDetection ++
    List.replicate 4 exampleDetection

theorem windows_unwatched_afterSnapshot :
    ∃ s, run RaceState.step (.new ["a"] 2) abortAfterSnapshot = some s ∧
      s.windows.entries.map Prod.fst = [.make ⟨⟨false, 0⟩, false, "a"⟩] ∧
      s.watchlist.mMembers.entries = [] ∧ ¬ s.EndsWatched := by
  refine ⟨_, rfl, rfl, rfl, fun h => ?_⟩
  obtain ⟨w, hw, _⟩ := h rfl rfl _ List.mem_cons_self
  cases hw

end StreamFdl
