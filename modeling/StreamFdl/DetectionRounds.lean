import StreamFdl.FaultDetection

/- Rounds of fault detection in which one member is watched. `samplesOf d` are
   the values read for attribute `d`, in the order of the rounds. After every
   round each buffer of the member's window holds the samples of its attribute,
   all of them (`Tracks`); so the window is full in the round that brings their
   number to the window size, and never after it. -/
namespace StreamFdl
open Runs OrderedMap SlidingWindow

/-- The values of one attribute in one reading. -/
def valuesOf (d : String) (es : List (String × Rat)) : List Rat := (es.filter fun e => e.1 = d).map Prod.snd

/-- The values of one attribute in a sequence of readings. -/
def samplesOf (d : String) (samples : List AttributeMapping) : List Rat :=
  samples.flatMap fun s => valuesOf d s.entries

/-- The buffer has this maximum size and holds these values. -/
def CircularBuffer.Records (b : CircularBuffer) (size : Nat) (values : List Rat) : Prop :=
  b.mMaxSize = size ∧ b.Holds values

theorem CircularBuffer.Records.push {b : CircularBuffer} {size : Nat} {values : List Rat}
    (h : b.Records size values) (value : Rat) :
    ∃ b' it, b.push value = some (b', it) ∧ b'.Records size (values ++ [value]) := by
  obtain ⟨hsize, hholds⟩ := h
  obtain ⟨r, hr⟩ : ∃ r, b.push value = some r := by simp [CircularBuffer.push, hholds.current]
  refine ⟨r.1, r.2, hr, ?_, hholds.push hr⟩
  simp only [CircularBuffer.push, hholds.current, Option.map_some, Option.some.injEq] at hr
  rw [← hr, ← hsize]

/-- A buffer with its first value. -/
theorem CircularBuffer.records_first {size : Nat} (hsize : 2 ≤ size) (value : Rat) :
    ∃ b b' it, CircularBuffer.construct size = some b ∧ b.push value = some (b', it) ∧
      b'.move.1.Records size [value] := by
  have hnew : CircularBuffer.construct size = some ⟨size, [], some 0⟩ := if_pos hsize
  have hrec : CircularBuffer.Records ⟨size, [], some 0⟩ size [] := ⟨rfl, CircularBuffer.holds_construct hnew⟩
  obtain ⟨b', it, hpush, hrec'⟩ := hrec.push value
  exact ⟨_, b', it, hnew, hpush, hrec'⟩

/-! One value of each attribute in each reading. -/

theorem valuesOf_eq_nil {d : String} {es : List (String × Rat)} (h : d ∉ es.map Prod.fst) :
    valuesOf d es = [] := by
  rw [valuesOf, List.map_eq_nil_iff, List.filter_eq_nil_iff]
  intro e he hd
  exact h (List.mem_map.mpr ⟨e, he, by simpa using hd⟩)

theorem length_valuesOf {d : String} (m : AttributeMapping) (h : d ∈ m.entries.map Prod.fst) :
    (valuesOf d m.entries).length = 1 := by
  have hs := m.sorted
  revert h hs
  generalize m.entries = es
  intro h hs
  induction es with
  | nil => cases h
  | cons e es ih =>
    have hp := List.pairwise_cons.mp hs
    by_cases hd : e.1 = d
    · have hrest : d ∉ es.map Prod.fst := by
        intro hm
        obtain ⟨e', he', hd'⟩ := List.mem_map.mp hm
        have hlt := hp.1 e' he'
        rw [hd, hd'] at hlt
        exact lt_irrefl d hlt
      have hnil := valuesOf_eq_nil hrest
      rw [valuesOf] at hnil
      simp [valuesOf, hd, hnil]
    · have hmem : d ∈ es.map Prod.fst := by
        rcases List.mem_cons.mp h with h | h
        · exact absurd h.symm hd
        · exact h
      have := ih hmem hp.2
      rw [valuesOf] at this
      simpa [valuesOf, hd] using this

theorem length_samplesOf {d : String} (samples : List AttributeMapping)
    (h : ∀ s ∈ samples, d ∈ s.entries.map Prod.fst) : (samplesOf d samples).length = samples.length := by
  induction samples with
  | nil => rfl
  | cons s samples ih =>
    have hs := length_valuesOf s (h s List.mem_cons_self)
    have := ih fun s' hs' => h s' (List.mem_cons_of_mem s hs')
    rw [samplesOf] at this
    rw [samplesOf, List.flatMap_cons, List.length_append, hs, this, List.length_cons, Nat.add_comm]

theorem samplesOf_append (d : String) (samples : List AttributeMapping) (s : AttributeMapping) :
    samplesOf d (samples ++ [s]) = samplesOf d samples ++ valuesOf d s.entries := by
  simp [samplesOf]

/-! Windows. -/

/-- The window has these attributes, and the buffer of each holds its values. -/
structure WindowRecords (size : Nat) (ds : List String) (values : String → List Rat)
    (w : AttributeWindow) : Prop where
  keys : w.entries.map Prod.fst = ds
  records : ∀ e ∈ w.entries, e.2.Records size (values e.1)

/-- Pushing to one buffer of a window. -/
theorem WindowRecords.push {size : Nat} {ds : List String} {values : String → List Rat}
    {w : AttributeWindow} (hw : WindowRecords size ds values w) {d : String} (hd : d ∈ ds) (v : Rat) :
    ∃ e b it, w.find? d = some e ∧ e.2.push v = some (b, it) ∧
      WindowRecords size ds (fun x => values x ++ valuesOf x [(d, v)])
        (w.mapValues fun x b' => if x = d then b else b') := by
  obtain ⟨e₀, he₀, hd₀⟩ := List.mem_map.mp (hw.keys.symm ▸ hd)
  obtain ⟨e, he, hfind, heq⟩ := OrderedMap.find?_of_mem he₀ (OrderedMap.equiv_iff_eq.mpr hd₀)
  have hed := OrderedMap.equiv_iff_eq.mp heq
  obtain ⟨b, it, hpush, hrec⟩ := (hw.records e he).push v
  refine ⟨e, b, it, hfind, hpush, by rw [OrderedMap.mapValues_keys, hw.keys], fun e' he' => ?_⟩
  obtain ⟨a, ha, rfl⟩ := List.mem_map.mp he'
  by_cases had : a.1 = d
  · simpa [valuesOf, had, hed] using hrec
  · simpa [valuesOf, had, Ne.symm had] using hw.records a ha

namespace FaultDetection

theorem createFrom_cons (size : Nat) (d : String) (v : Rat) (es : List (String × Rat))
    (w : AttributeWindow) : createFrom size ((d, v) :: es) w = (CircularBuffer.construct size).bind
      fun b => (b.push v).bind fun r => createFrom size es (w.emplace d r.1.move.1).1 := rfl

/-- A new window holds one value of each attribute. -/
theorem createFrom_spec {size : Nat} (hsize : 2 ≤ size) (es : List (String × Rat))
    (w : AttributeWindow) (seen : List (String × Rat))
    (hw : WindowRecords size (seen.map Prod.fst) (fun d => valuesOf d seen) w)
    (hs : (seen ++ es).Pairwise fun a b => a.1 < b.1) :
    ∃ w', createFrom size es w = some w' ∧
      WindowRecords size ((seen ++ es).map Prod.fst) (fun d => valuesOf d (seen ++ es)) w' := by
  induction es generalizing w seen with
  | nil => exact ⟨w, rfl, by simpa using hw⟩
  | cons e es ih =>
    obtain ⟨d, v⟩ := e
    obtain ⟨b, b', it, hnew, hpush, hrec⟩ := CircularBuffer.records_first hsize v
    have hbefore : ∀ x ∈ seen.map Prod.fst, x < d := by
      intro x hx
      obtain ⟨a, ha, rfl⟩ := List.mem_map.mp hx
      exact (List.pairwise_append.mp hs).2.2 a ha (d, v) List.mem_cons_self
    -- the attributes come in the order of the map, so each goes to the end of the window
    have hlast := OrderedMap.emplace_last (m := w) (k := d) (v := b'.move.1) fun e he => by
      have hlt := hbefore e.1 (hw.keys ▸ List.mem_map_of_mem he)
      exact ⟨hlt, lt_asymm hlt⟩
    have hnotin : d ∉ seen.map Prod.fst := fun h => lt_irrefl d (hbefore d h)
    have hw' : WindowRecords size ((seen ++ [(d, v)]).map Prod.fst)
        (fun x => valuesOf x (seen ++ [(d, v)])) (w.emplace d b'.move.1).1 := by
      refine ⟨by rw [hlast]; simp [hw.keys], fun e he => ?_⟩
      rw [hlast] at he
      rcases List.mem_append.mp he with he | he
      · have hne : d ≠ e.1 := fun h => hnotin (h ▸ hw.keys ▸ List.mem_map_of_mem he)
        have hrec := hw.records e he
        rw [valuesOf] at hrec
        simpa [valuesOf, hne] using hrec
      · rw [List.mem_singleton.mp he]
        have hnil := valuesOf_eq_nil hnotin
        rw [valuesOf] at hnil
        simpa [valuesOf, hnil] using hrec
    obtain ⟨w', hc, hrecs⟩ := ih _ (seen ++ [(d, v)]) hw' (by simpa using hs)
    refine ⟨w', ?_, by simpa using hrecs⟩
    rw [createFrom_cons, hnew, Option.bind_some, hpush, Option.bind_some]
    exact hc

theorem createAttrWindow_spec {fd : FaultDetection} (hsize : 2 ≤ fd.cmMovingWindowSize)
    (m : AttributeMapping) : ∃ w, fd.createAttrWindow m = some w ∧
      WindowRecords fd.cmMovingWindowSize (m.entries.map Prod.fst) (fun d => valuesOf d m.entries) w :=
  createFrom_spec hsize m.entries .empty [] ⟨rfl, by simp⟩ (by simpa using m.sorted)

theorem updateFrom_spec {size : Nat} {ds : List String} (es : List (String × Rat))
    (values : String → List Rat) (w : AttributeWindow) (hw : WindowRecords size ds values w)
    (hes : ∀ d ∈ es.map Prod.fst, d ∈ ds) :
    ∃ w', updateFrom es w = some w' ∧ WindowRecords size ds (fun d => values d ++ valuesOf d es) w' := by
  induction es generalizing values w with
  | nil => exact ⟨w, rfl, by simpa [valuesOf] using hw⟩
  | cons e es ih =>
    obtain ⟨d, v⟩ := e
    obtain ⟨e', b, it, hfind, hpush, hw'⟩ := hw.push (hes d List.mem_cons_self) v
    obtain ⟨w', hu, hrec⟩ := ih _ _ hw' fun d' hd' => hes d' (List.mem_cons_of_mem _ hd')
    refine ⟨w', ?_, ?_⟩
    · simp only [updateFrom, hfind, hpush, Option.bind_eq_bind, Option.bind_some]
      exact hu
    · refine ⟨hrec.keys, fun e he => ?_⟩
      have hsplit : valuesOf e.1 ((d, v) :: es) = valuesOf e.1 [(d, v)] ++ valuesOf e.1 es := by
        rw [← List.singleton_append, valuesOf, List.filter_append, List.map_append]
        rfl
      rw [hsplit, ← List.append_assoc]
      exact hrec.records e he

/-- What the two ways to write a window keep, the update phase keeps. -/
theorem updateMembers_invariant {fd : FaultDetection} {getAttributes : Member → AttributeMapping}
    {snapshot : List MemberPtr} {windows windows' : MemberWindow} {I : MemberWindow → Prop}
    (hcreate : ∀ member ∈ snapshot, ∀ m windows window, I windows →
      fd.createAttrWindow (getAttributes m) = some window → I (windows.emplace member window).1)
    (hupdate : ∀ member ∈ snapshot, ∀ m (windows : MemberWindow) it window, I windows →
      windows.find? member = some it → updateAttrWindow it.2 (getAttributes m) = some window →
      I (windows.mapValues fun k w => if Equiv MemberPtr.lt k member then window else w))
    (hI : I windows) (h : fd.updateMembers getAttributes snapshot windows = some windows') : I windows' := by
  induction snapshot generalizing windows with
  | nil =>
    cases h
    exact hI
  | cons member rest ih =>
    have hrest : ∀ u : MemberWindow, I u → fd.updateMembers getAttributes rest u = some windows' → I windows' :=
      fun u => ih (fun p hp => hcreate p (List.mem_cons_of_mem member hp))
        fun p hp => hupdate p (List.mem_cons_of_mem member hp)
    simp only [updateMembers, Option.bind_eq_bind, Option.bind_eq_some_iff] at h
    obtain ⟨m, _, h⟩ := h
    split at h
    · obtain ⟨w, hw, h⟩ := Option.bind_eq_some_iff.mp h
      exact hrest _ (hcreate member List.mem_cons_self m windows w hI hw) h
    · next it hfind =>
      obtain ⟨w, hw, h⟩ := Option.bind_eq_some_iff.mp h
      exact hrest _ (hupdate member List.mem_cons_self m windows it w hI hfind hw) h

end FaultDetection

/-! Rounds. -/

namespace RoundInput

/-- What the watchlist holds after `getMembers`. -/
def watched (input : RoundInput) : List (MemberPtr × WatchlistMemberType) :=
  (input.watchlist.getMembers input.store).1.mMembers.entries

def WatchesNone (input : RoundInput) : Prop := input.watched = []

/-- The member is the only one on the watchlist, and not as a blindspot; the attributes read of it
    are these. -/
structure WatchesOnly (m : Member) (ds : List String) (input : RoundInput) : Prop where
  watched : ∃ p type, p.mpMember = some m ∧ type ≠ .TYPE_BLINDSPOT ∧ input.watched = [(p, type)]
  attributes : (input.getAttributes m).entries.map Prod.fst = ds

end RoundInput

namespace FaultDetection

/-- After these readings of the member, its window holds all of them. -/
structure Tracks (size : Nat) (m : Member) (ds : List String) (samples : List AttributeMapping)
    (fd : FaultDetection) : Prop where
  windowSize : fd.cmMovingWindowSize = size
  noWindow : samples = [] → fd.mMovingWindow.entries = []
  window : samples ≠ [] → ∃ p w, p.mpMember = some m ∧ fd.mMovingWindow.entries = [(p, w)] ∧
    WindowRecords size ds (fun d => samplesOf d samples) w

variable {size : Nat} {m : Member} {ds : List String} {samples : List AttributeMapping}
  {fd : FaultDetection} {input : RoundInput}

theorem tracks_new (size : Nat) (m : Member) (ds : List String) : (new size).Tracks size m ds [] :=
  ⟨rfl, fun _ => rfl, fun h => absurd rfl h⟩

/-- A round without watched members changes nothing but the alerts. -/
theorem Tracks.round_none (h : fd.Tracks size m ds []) (hi : input.WatchesNone) :
    ∃ r, fd.round input = some r ∧ r.1.Tracks size m ds [] := by
  have hwin := h.noWindow rfl
  have hmembers : (input.watchlist.getMembers input.store).2 = [] := congrArg (List.map Prod.fst) hi
  refine ⟨_, by simp only [FaultDetection.round, hmembers, FaultDetection.updateMembers, hwin, detectFrom,
    Option.bind_eq_bind, Option.bind_some]; rfl, ?_⟩
  exact ⟨h.windowSize, fun _ => hwin, fun hne => absurd rfl hne⟩

/-- The update phase extends the window by the new reading. -/
theorem Tracks.updateMembers (hsize : 2 ≤ size) (h : fd.Tracks size m ds samples) {p : MemberPtr}
    (hp : p.mpMember = some m) (getAttributes : Member → AttributeMapping)
    (ha : (getAttributes m).entries.map Prod.fst = ds) :
    ∃ mw q w, fd.updateMembers getAttributes [p] fd.mMovingWindow = some mw ∧
      q.mpMember = some m ∧ mw.entries = [(q, w)] ∧
      WindowRecords size ds (fun d => samplesOf d (samples ++ [getAttributes m])) w := by
  have hvalid : ∀ q : MemberPtr, q.mpMember = some m → q.valid = true := fun q hq => by
    simp [MemberPtr.valid, hq]
  by_cases hs : samples = []
  · -- the member has no window yet
    have hempty : fd.mMovingWindow = .empty := OrderedMap.ext (h.noWindow hs)
    obtain ⟨w, hc, hrec⟩ := createAttrWindow_spec (h.windowSize.symm ▸ hsize) (getAttributes m)
    rw [h.windowSize, ha] at hrec
    refine ⟨(OrderedMap.empty.emplace p w).1, p, w, ?_, hp, rfl, ?_⟩
    · have hfind : (OrderedMap.empty : MemberWindow).find? p = none := rfl
      simp [FaultDetection.updateMembers, hp, hempty, hfind, hc]
    · subst hs
      simpa [samplesOf] using hrec
  · obtain ⟨q, w, hq, hentries, hrec⟩ := h.window hs
    have hequiv : Equiv MemberPtr.lt q p := Watchlist.equiv_of_valid (hvalid q hq) (hvalid p hp)
    have hfind : fd.mMovingWindow.find? p = some (q, w) := by
      simp [OrderedMap.find?, hentries, hequiv]
    obtain ⟨w', hu, hrec'⟩ := updateFrom_spec (getAttributes m).entries _ w hrec
      (fun d hd => ha ▸ hd)
    refine ⟨_, q, w', by simp [FaultDetection.updateMembers, hp, hfind, updateAttrWindow, hu]; rfl,
      hq, ?_, ?_⟩
    · simp [OrderedMap.mapValues, hentries, hequiv]
    · simpa only [samplesOf_append] using hrec'

/-- The detection phase, on the window of a member that is not a blindspot. -/
theorem detectFrom_single {mw : MemberWindow} {watchlist : Watchlist} {p q : MemberPtr}
    {w : AttributeWindow} {type : WatchlistMemberType} {first : String × CircularBuffer}
    (hq : q.mpMember = some m) (hp : p.mpMember = some m) (htype : type ≠ .TYPE_BLINDSPOT)
    (hwatched : watchlist.mMembers.entries = [(p, type)]) (hfirst : w.entries.head? = some first) :
    detectFrom [(q, w)] mw watchlist =
      some (mw, watchlist, if first.2.full = true then [(q, w)] else []) := by
  have hused : watchlist.notifyUsed m.mPrimaryKey = (watchlist, false) := by
    have hget : watchlist.get m.mPrimaryKey = some (p, type) := by
      simp [Watchlist.get, hwatched, MemberPtr.hasKey, hp]
    cases type with
    | TYPE_BLINDSPOT => exact absurd rfl htype
    | TYPE_NORMAL => simp [Watchlist.notifyUsed, hget]
    | TYPE_INITIAL => simp [Watchlist.notifyUsed, hget]
  cases hfull : first.2.full <;> simp [detectFrom, hfirst, hfull, hq, hused]

/-- A round in which the member is watched: its window grows by the new reading, and it is checked
    in the round that fills the window. -/
theorem Tracks.round (hsize : 2 ≤ size) (hds : ds ≠ []) (h : fd.Tracks size m ds samples)
    (hsamples : ∀ s ∈ samples, s.entries.map Prod.fst = ds) (hi : input.WatchesOnly m ds) :
    ∃ r, fd.round input = some r ∧ r.1.Tracks size m ds (samples ++ [input.getAttributes m]) ∧
      r.2.2 = if samples.length + 1 = size then r.1.mMovingWindow.entries else [] := by
  obtain ⟨⟨p, type, hp, htype, hwatched⟩, ha⟩ := hi
  have hmembers : (input.watchlist.getMembers input.store).2 = [p] := congrArg (List.map Prod.fst) hwatched
  obtain ⟨mw, q, w, hu, hq, hmw, hrec⟩ := h.updateMembers hsize hp input.getAttributes ha
  obtain ⟨first, hfirst⟩ : ∃ first, w.entries.head? = some first := by
    cases hw : w.entries with
    | nil => exact absurd (by rw [← hrec.keys, hw]; rfl) hds
    | cons e es => exact ⟨e, rfl⟩
  have hmem := List.mem_of_head? hfirst
  obtain ⟨hmax, hholds⟩ := hrec.records first hmem
  -- the first buffer holds one value for each reading so far
  have hfull : first.2.full = true ↔ samples.length + 1 = size := by
    have hlen := length_samplesOf (d := first.1) (samples ++ [input.getAttributes m]) (fun s hs => by
      have hd : first.1 ∈ ds := hrec.keys ▸ List.mem_map_of_mem hmem
      rcases List.mem_append.mp hs with hs | hs
      · exact hsamples s hs ▸ hd
      · rw [List.mem_singleton.mp hs, ha]; exact hd)
    rw [CircularBuffer.full, beq_iff_eq, hholds.buffer, List.length_reverse, hlen, hmax,
      List.length_append, List.length_singleton]
  have hd : detectFrom [(q, w)] mw (input.watchlist.getMembers input.store).1 = some (mw,
      (input.watchlist.getMembers input.store).1, if first.2.full = true then [(q, w)] else []) :=
    detectFrom_single hq hp htype hwatched hfirst
  refine ⟨_, by simp only [FaultDetection.round, hmembers, hu, hmw, hd, Option.bind_eq_bind,
    Option.bind_some]; rfl, ⟨h.windowSize, fun hnil => by simp at hnil, fun _ => ⟨q, w, hq, hmw, hrec⟩⟩, ?_⟩
  simp only [hfull, hmw]

/-- What the calls of one round owe to a watched member after these readings of it: one call from
    the round on that fills the window, with the last readings in each buffer, and none before. -/
structure ChecksWindow (size : Nat) (m : Member) (ds : List String) (samples : List AttributeMapping)
    (calls : List DetectCall) : Prop where
  count : (calls.filter fun call => call.1.mpMember = some m).length =
    if size ≤ samples.length then 1 else 0
  window : ∀ call ∈ calls, call.1.mpMember = some m → call.2.entries.map Prod.fst = ds ∧
    ∀ e ∈ call.2.entries, e.2.mBuffer.Perm (window size (samplesOf e.1 samples))

/-- The round that the state came out of checks the member if that round filled its window. -/
theorem Tracks.checksWindow_iff {calls : List DetectCall} (h : fd.Tracks size m ds samples)
    (hne : samples ≠ []) (hsamples : ∀ s ∈ samples, s.entries.map Prod.fst = ds)
    (hcalls : calls = if samples.length = size then fd.mMovingWindow.entries else []) :
    ChecksWindow size m ds samples calls ↔ samples.length ≤ size := by
  obtain ⟨q, w, hq, hentries, hrec⟩ := h.window hne
  by_cases hlt : samples.length < size
  · rw [if_neg (Nat.ne_of_lt hlt)] at hcalls
    subst hcalls
    exact iff_of_true ⟨by simp [Nat.not_le_of_lt hlt], by simp⟩ (Nat.le_of_lt hlt)
  by_cases heq : samples.length = size
  · rw [if_pos heq, hentries] at hcalls
    subst hcalls
    refine iff_of_true ⟨by simp [hq, heq], fun call hcall _ => ?_⟩ (Nat.le_of_eq heq)
    rw [List.mem_singleton.mp hcall]
    refine ⟨hrec.keys, fun e he => ?_⟩
    have hlen := length_samplesOf (d := e.1) samples fun s hs =>
      hsamples s hs ▸ hrec.keys ▸ List.mem_map_of_mem he
    rw [window_eq_self (by omega), (hrec.records e he).2.buffer]
    exact List.reverse_perm _
  · rw [if_neg heq] at hcalls
    subst hcalls
    refine iff_of_false (fun hc => ?_) (by omega)
    have hcount := hc.count
    rw [if_pos (by omega)] at hcount
    cases hcount

/-- Rounds without watched members. -/
theorem Tracks.run_none (before : List RoundInput) (calls : List DetectCall)
    (h : fd.Tracks size m ds []) (hb : ∀ input ∈ before, input.WatchesNone) :
    ∃ s, run step (fd, calls) before = some s ∧ s.1.Tracks size m ds [] := by
  induction before generalizing fd calls with
  | nil => exact ⟨(fd, calls), rfl, h⟩
  | cons input before ih =>
    obtain ⟨r, hr, ht⟩ := h.round_none (hb input List.mem_cons_self)
    obtain ⟨s, hs, hts⟩ := ih r.2.2 ht fun i hi => hb i (List.mem_cons_of_mem input hi)
    exact ⟨s, by rw [run_cons, step, hr]; exact hs, hts⟩

/-- Rounds in which the member is watched. -/
theorem Tracks.run_only (hsize : 2 ≤ size) (hds : ds ≠ []) (rounds : List RoundInput)
    (calls : List DetectCall) (h : fd.Tracks size m ds samples)
    (hsamples : ∀ s ∈ samples, s.entries.map Prod.fst = ds)
    (hrounds : ∀ input ∈ rounds, input.WatchesOnly m ds)
    (hcalls : calls = if samples.length = size then fd.mMovingWindow.entries else []) :
    ∃ s, run step (fd, calls) rounds = some s ∧
      s.1.Tracks size m ds (samples ++ rounds.map fun input => input.getAttributes m) ∧
      s.2 = if (samples ++ rounds.map fun input => input.getAttributes m).length = size then
        s.1.mMovingWindow.entries else [] := by
  induction rounds generalizing fd calls samples with
  | nil => exact ⟨(fd, calls), rfl, by simpa using h, by simpa using hcalls⟩
  | cons input rounds ih =>
    have hi := hrounds input List.mem_cons_self
    obtain ⟨r, hr, ht, hc⟩ := h.round hsize hds hsamples hi
    have hsamples' : ∀ s ∈ samples ++ [input.getAttributes m], s.entries.map Prod.fst = ds := by
      intro s hs
      rcases List.mem_append.mp hs with hs | hs
      · exact hsamples s hs
      · rw [List.mem_singleton.mp hs]; exact hi.attributes
    obtain ⟨s, hs, hts, hcs⟩ := ih r.2.2 ht hsamples'
      (fun i hi => hrounds i (List.mem_cons_of_mem input hi)) (by simpa using hc)
    refine ⟨s, by rw [run_cons, step, hr]; exact hs, ?_, ?_⟩
    · simpa using hts
    · simpa using hcs

end FaultDetection

/-- In the k-th round of the only watched member, the last of `rounds`, it is checked as it should
    be exactly when k is at most the window size. -/
theorem detectFaults_checksWindow_iff (size : Nat) (m : Member) (ds : List String)
    (before rounds : List RoundInput) (sizeable : 2 ≤ size) (attributes : ds ≠ [])
    (unwatched : ∀ input ∈ before, input.WatchesNone)
    (watched : ∀ input ∈ rounds, input.WatchesOnly m ds) (nonempty : rounds ≠ []) :
    ∃ fd calls, run FaultDetection.step (.new size, []) (before ++ rounds) = some (fd, calls) ∧
      (FaultDetection.ChecksWindow size m ds (rounds.map fun input => input.getAttributes m) calls ↔
        rounds.length ≤ size) := by
  obtain ⟨s₀, hrun₀, h₀⟩ := (FaultDetection.tracks_new size m ds).run_none before [] unwatched
  -- the calls of the rounds before are of no interest: the first round of `m` replaces them
  obtain ⟨input, rest, rfl⟩ := List.exists_cons_of_ne_nil nonempty
  have hi := watched input List.mem_cons_self
  obtain ⟨r, hr, ht, hc⟩ := h₀.round sizeable attributes (by simp) hi
  obtain ⟨s, hs, hts, hcs⟩ := ht.run_only sizeable attributes rest r.2.2
    (fun s hs => by rw [List.mem_singleton.mp hs]; exact hi.attributes)
    (fun i hi => watched i (List.mem_cons_of_mem input hi)) (by simpa using hc)
  refine ⟨s.1, s.2, ?_, ?_⟩
  · rw [run_append, hrun₀, Option.bind_some, run_cons, FaultDetection.step, hr]
    exact hs
  · have hne : ([] ++ [input.getAttributes m]) ++ rest.map (fun input => input.getAttributes m) ≠ [] := by
      simp
    have hiff := hts.checksWindow_iff hne (fun s hs => by
      simp only [List.nil_append, List.singleton_append, List.mem_cons, List.mem_map] at hs
      rcases hs with rfl | ⟨i, hmem, rfl⟩
      · exact hi.attributes
      · exact (watched i (List.mem_cons_of_mem input hmem)).attributes) hcs
    simpa using hiff

/-- A round in which the initial member "a" is watched and one attribute is read. -/
def exampleRound (value : Rat) : RoundInput where
  watchlist := .new ["a"]
  store := exampleStore
  getAttributes := fun _ => ⟨[("0", value)], List.pairwise_singleton _ _⟩
  mAlive := fun _ => true
  now := 0

def exampleWatched : Member := ⟨⟨false, 0⟩, false, "a"⟩

theorem exampleRound_watchesOnly (value : Rat) : (exampleRound value).WatchesOnly exampleWatched ["0"] :=
  ⟨⟨.make exampleWatched, .TYPE_INITIAL, rfl, by decide, rfl⟩, rfl⟩

/-- The second round fills a window of size 2. -/
theorem detectFaults_checksWindow_second : ∃ fd calls,
    run FaultDetection.step (.new 2, []) [exampleRound 1, exampleRound 2] = some (fd, calls) ∧
      FaultDetection.ChecksWindow 2 exampleWatched ["0"]
        ([exampleRound 1, exampleRound 2].map fun input => input.getAttributes exampleWatched) calls := by
  obtain ⟨fd, calls, hrun, hiff⟩ := detectFaults_checksWindow_iff 2 exampleWatched ["0"] []
    [exampleRound 1, exampleRound 2] (by decide) (by decide) (by simp)
    (fun input hi => by
      rcases List.mem_cons.mp hi with rfl | hi
      · exact exampleRound_watchesOnly 1
      · rw [List.mem_singleton.mp hi]; exact exampleRound_watchesOnly 2) (by simp)
  exact ⟨fd, calls, hrun, hiff.mpr (by decide)⟩

/-- In the third round the window holds three values, and the member is not checked. -/
theorem detectFaults_not_checksWindow_third : ∃ fd calls,
    run FaultDetection.step (.new 2, []) [exampleRound 1, exampleRound 2, exampleRound 3] = some (fd, calls) ∧
      ¬ FaultDetection.ChecksWindow 2 exampleWatched ["0"]
        ([exampleRound 1, exampleRound 2, exampleRound 3].map fun input => input.getAttributes exampleWatched)
        calls :=
  ⟨_, _, rfl, fun h => absurd h.count (by decide)⟩

end StreamFdl
