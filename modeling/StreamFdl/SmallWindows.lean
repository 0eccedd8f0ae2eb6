import StreamFdl.DetectionRounds
import StreamFdl.Base.Samuelson

/- The test of `detectFaults` on small windows. The current value is one of the
   values that the mean and the standard deviation are taken of, so in a window of
   `n` values it lies within `√(n - 1)` standard deviations of the mean: with ten
   values or fewer the three standard deviations of the test are never exceeded,
   and with eleven a single outlier exceeds them.

   A window is checked in the round its first buffer is full, and its buffers grow
   together as long as every reading has the same attributes (the data store gives
   all members the same ones). So with a window size up to ten the only alerts are
   those for nodes that are not alive. -/
namespace StreamFdl
open Runs OrderedMap SlidingWindow

/-! The test, on squares. -/

namespace CircularBuffer

theorem mem_of_current {b : CircularBuffer} {x : Rat} (h : b.current = some x) : x ∈ b.mBuffer := by
  obtain ⟨i, _, hi⟩ := Option.bind_eq_some_iff.mp h
  exact List.mem_of_getElem? hi

end CircularBuffer

namespace FaultDetection

/-- The test exceeds three standard deviations just if the squares do. -/
theorem deviates_iff {b : CircularBuffer} {x : Rat} (h : b.current = some x) :
    Deviates b ↔ 9 * variance b.mBuffer < (x - mean b.mBuffer) ^ 2 := by
  have hne : b.mBuffer ≠ [] := List.ne_nil_of_mem (CircularBuffer.mem_of_current h)
  have hmean := CircularBuffer.getMean_eq hne
  have hdev := CircularBuffer.getStdDev_eq hne (mean b.mBuffer)
  set m := mean b.mBuffer with hm
  set d := Real.sqrt (meanSquare m b.mBuffer : Rat) with hd
  have hsq : d ^ 2 = ((variance b.mBuffer : Rat) : Real) :=
    Real.sq_sqrt (Rat.cast_nonneg.mpr (meanSquare_nonneg _ _))
  have hpos : 0 ≤ 3 * d := mul_nonneg (by norm_num) (Real.sqrt_nonneg _)
  have habs : ((m : Real) - 3 * d > x ∨ (m : Real) + 3 * d < x) ↔ 3 * d < |(x : Real) - m| := by
    rw [lt_abs]
    constructor
    · rintro (h | h)
      · exact Or.inr (by linarith)
      · exact Or.inl (by linarith)
    · rintro (h | h)
      · exact Or.inr (by linarith)
      · exact Or.inl (by linarith)
  have hreal : 3 * d < |(x : Real) - m| ↔ 9 * variance b.mBuffer < (x - m) ^ 2 := by
    have hnine : (3 : Real) ^ 2 = 9 := by norm_num
    rw [← abs_of_nonneg hpos, ← sq_lt_sq, mul_pow, hsq, hnine]
    exact_mod_cast Iff.rfl
  rw [← hreal, ← habs]
  constructor
  · rintro ⟨m', d', x', hm', hd', hx', hcmp⟩
    rw [hmean] at hm'
    cases hm'
    rw [hdev] at hd'
    cases hd'
    rw [h] at hx'
    cases hx'
    exact hcmp
  · exact fun hcmp => ⟨m, d, x, hmean, hdev, h, hcmp⟩

/-- Ten values or fewer: no value lies more than three standard deviations from the mean. -/
theorem not_deviates {b : CircularBuffer} (h : b.size ≤ 10) : ¬ Deviates b := by
  intro hdev
  obtain ⟨_, _, x, _, _, hx, _⟩ := id hdev
  have hlt := (deviates_iff hx).mp hdev
  have hbound := sq_sub_mean_le (CircularBuffer.mem_of_current hx)
  have hlength : (b.mBuffer.length : Rat) - 1 ≤ 9 := by
    have hcast : (b.mBuffer.length : Rat) ≤ 10 := by exact_mod_cast h
    linarith
  have hnonneg : 0 ≤ variance b.mBuffer := meanSquare_nonneg _ _
  have hnine := mul_le_mul_of_nonneg_right hlength hnonneg
  linarith

/-- Zeros, and then a one. -/
def outlierWindow (n : Nat) : CircularBuffer := ⟨n, 1 :: List.replicate (n - 1) 0, some 0⟩

theorem outlierWindow_deviates {n : Nat} (h : 11 ≤ n) : Deviates (outlierWindow n) := by
  have hcurrent : (outlierWindow n).current = some 1 := rfl
  rw [deviates_iff hcurrent]
  have hmany : (9 : Rat) < ((n - 1 : Nat) : Rat) := by
    exact_mod_cast (by omega : 9 < n - 1)
  have hpos : 0 < variance (outlierWindow n).mBuffer := by
    unfold outlierWindow
    rw [variance_outlier]
    positivity
  calc 9 * variance (outlierWindow n).mBuffer
      < ((n - 1 : Nat) : Rat) * variance (outlierWindow n).mBuffer := mul_lt_mul_of_pos_right hmany hpos
    _ = (1 - mean (outlierWindow n).mBuffer) ^ 2 := (sq_sub_mean_outlier (n - 1)).symm

theorem outlierWindow_holds {n : Nat} (h : 2 ≤ n) :
    (outlierWindow n).Holds (List.replicate (n - 1) 0 ++ [1]) := by
  refine ⟨?_, rfl, h⟩
  rw [List.reverse_append, List.reverse_replicate]
  rfl

/-! The buffers of a window grow together. -/

/-- The window has these attributes, and as many values of each. -/
def Level (size : Nat) (ds : List String) (w : AttributeWindow) : Prop :=
  ∃ values : String → List Rat, ∃ k, WindowRecords size ds values w ∧ ∀ d ∈ ds, (values d).length = k

variable {size : Nat} {ds : List String} {fd : FaultDetection} {w : AttributeWindow} {m : AttributeMapping}

theorem createAttrWindow_level (hm : m.entries.map Prod.fst = ds) (h : fd.createAttrWindow m = some w) :
    Level fd.cmMovingWindowSize ds w := by
  by_cases hsize : 2 ≤ fd.cmMovingWindowSize
  · obtain ⟨w', hw', hrecords⟩ := createAttrWindow_spec hsize m
    rw [hw'] at h
    cases h
    subst hm
    exact ⟨_, 1, hrecords, fun d hd => length_valuesOf m hd⟩
  · -- the constructor of the first buffer fails, so there was none to construct
    subst hm
    unfold createAttrWindow at h
    cases hentries : m.entries with
    | nil =>
      rw [hentries] at h
      cases h
      exact ⟨fun _ => [], 0, ⟨rfl, fun e he => by cases he⟩, fun _ _ => rfl⟩
    | cons e es =>
      obtain ⟨d, v⟩ := e
      rw [hentries, createFrom_cons, CircularBuffer.construct, if_neg hsize] at h
      cases h

theorem updateAttrWindow_level {w' : AttributeWindow} (hm : m.entries.map Prod.fst = ds) (hw : Level size ds w)
    (h : updateAttrWindow w m = some w') : Level size ds w' := by
  obtain ⟨values, k, hrecords, hlength⟩ := hw
  obtain ⟨w'', hw'', hrecords'⟩ := updateFrom_spec m.entries values w hrecords fun d hd => hm ▸ hd
  rw [updateAttrWindow, hw''] at h
  cases h
  refine ⟨_, k + 1, hrecords', fun d hd => ?_⟩
  rw [List.length_append, hlength d hd, length_valuesOf m (hm.symm ▸ hd)]

theorem updateMembers_level {getAttributes : Member → AttributeMapping} {snapshot : List MemberPtr}
    {windows windows' : MemberWindow} (hread : ∀ m, (getAttributes m).entries.map Prod.fst = ds)
    (hlevel : ∀ e ∈ windows.entries, Level fd.cmMovingWindowSize ds e.2)
    (h : fd.updateMembers getAttributes snapshot windows = some windows') :
    ∀ e ∈ windows'.entries, Level fd.cmMovingWindowSize ds e.2 := by
  refine updateMembers_invariant (I := fun u => ∀ e ∈ u.entries, Level fd.cmMovingWindowSize ds e.2)
    (fun member _ m u w hu hw e he => ?_) (fun member _ m u it w hu hfind hw e he => ?_) hlevel h
  · rcases mem_emplace he with rfl | he
    · exact createAttrWindow_level (hread m) hw
    · exact hu e he
  · obtain ⟨e₀, he₀, rfl⟩ := List.mem_map.mp he
    show Level _ _ (if _ then w else e₀.2)
    split
    · exact updateAttrWindow_level (hread m) (hu it (List.mem_of_find?_eq_some hfind)) hw
    · exact hu e₀ he₀

/-- The detection phase makes no window, and checks none but those whose first buffer is full. -/
theorem detectFrom_checks {es : List (MemberPtr × AttributeWindow)} {windows : MemberWindow}
    {watchlist : Watchlist} {r : MemberWindow × Watchlist × List DetectCall}
    (h : detectFrom es windows watchlist = some r) : (∀ e ∈ r.1.entries, e ∈ windows.entries) ∧
      ∀ call ∈ r.2.2, call ∈ es ∧ ∃ first, call.2.entries.head? = some first ∧ first.2.full = true := by
  induction es generalizing windows watchlist r with
  | nil =>
    cases h
    exact ⟨fun e he => he, fun call hcall => by cases hcall⟩
  | cons e es ih =>
    obtain ⟨p, w⟩ := e
    simp only [detectFrom, Option.bind_eq_bind, Option.bind_eq_some_iff] at h
    obtain ⟨first, hfirst, h⟩ := h
    split at h
    · next hfull =>
      simp only [Option.bind_eq_some_iff] at h
      obtain ⟨m, _, r', hr', h⟩ := h
      cases h
      obtain ⟨hkept, hcalls⟩ := ih hr'
      constructor
      · intro e he
        have hmem := hkept e he
        split at hmem
        · exact List.mem_of_mem_eraseP hmem
        · exact hmem
      · intro call hcall
        rcases List.mem_cons.mp hcall with rfl | hcall
        · exact ⟨List.mem_cons_self, first, hfirst, hfull⟩
        · exact (hcalls call hcall).imp_left (List.mem_cons_of_mem _)
    · obtain ⟨hkept, hcalls⟩ := ih h
      exact ⟨hkept, fun call hcall => (hcalls call hcall).imp_left (List.mem_cons_of_mem _)⟩

/-! The alert. -/

/-- The handle leads to a topic, or to a node that is alive. -/
def Live (input : RoundInput) (p : MemberPtr) : Prop :=
  ∀ m, p.mpMember = some m → m.mIsTopic = true ∨ input.mAlive m = true

theorem Live.any_eq_false {input : RoundInput} {p : MemberPtr} (h : Live input p) :
    p.mpMember.any (fun m => !m.mIsTopic && !input.mAlive m) = false := by
  cases hp : p.mpMember with
  | none => rfl
  | some m => rcases h m hp with hm | hm <;> simp [hm]

section Affected
variable {input : RoundInput} {call : DetectCall} {alert : Alert} {d : String} {b : CircularBuffer}

open Classical in
/-- An alert names only attributes whose current value deviates. -/
theorem deviates_of_affected (h : detectFaults input call = some alert) (hd : d ∈ alert.affectedAttributes) :
    ∃ b, (d, b) ∈ call.2.entries ∧ Deviates b := by
  unfold detectFaults at h
  split at h
  · cases h
    cases hd
  · dsimp only at h
    split at h
    · cases h
    · cases h
      obtain ⟨⟨d', b⟩, he, rfl⟩ := List.mem_map.mp hd
      obtain ⟨hmem, hdev⟩ := List.mem_filter.mp he
      exact ⟨b, hmem, of_decide_eq_true (Bool.and_eq_true_iff.mp hdev).2⟩

open Classical in
/-- A live member gets an alert that names each attribute whose current value deviates. -/
theorem affected_of_deviates (live : Live input call.1) (hmem : (d, b) ∈ call.2.entries) (hdev : Deviates b) :
    ∃ alert, detectFaults input call = some alert ∧ d ∈ alert.affectedAttributes := by
  obtain ⟨_, _, x, _, _, hx, _⟩ := id hdev
  have hempty : b.empty = false := by
    have hne := List.ne_nil_of_mem (CircularBuffer.mem_of_current hx)
    simpa [CircularBuffer.empty] using hne
  have haffected : d ∈ (call.2.entries.filter fun e => !e.2.empty && decide (Deviates e.2)).map Prod.fst :=
    List.mem_map.mpr ⟨(d, b), List.mem_filter.mpr ⟨hmem, by simp [hempty, hdev]⟩, rfl⟩
  refine ⟨⟨call.1, _, input.now, .SEVERITY_NORMAL⟩, ?_, haffected⟩
  unfold detectFaults
  rw [live.any_eq_false, if_neg Bool.false_ne_true]
  exact if_neg (List.ne_nil_of_mem haffected)

/-- The alert of a live member names an attribute. -/
theorem affected_of_live (live : Live input call.1) (h : detectFaults input call = some alert) :
    alert.affectedAttributes ≠ [] := by
  unfold detectFaults at h
  rw [live.any_eq_false, if_neg Bool.false_ne_true] at h
  dsimp only at h
  split at h
  · cases h
  · next hne =>
    cases h
    exact hne

/-- An attribute with ten values or fewer is not named. -/
theorem not_affected_of_small (hmem : (d, b) ∈ call.2.entries) (hsmall : b.size ≤ 10)
    (h : detectFaults input call = some alert) : d ∉ alert.affectedAttributes := by
  intro hd
  obtain ⟨b', hmem', hdev⟩ := deviates_of_affected h hd
  have heq := OrderedMap.eq_of_equiv call.2 hmem hmem' (equiv_iff_eq.mpr rfl)
  cases heq
  exact not_deviates hsmall hdev

/-- A window whose buffers hold ten values or fewer gives no cause for an alert but that the
    member is not alive. -/
theorem detectFaults_small (hsmall : ∀ e ∈ call.2.entries, e.2.size ≤ 10)
    (h : detectFaults input call = some alert) : alert.affectedAttributes = [] := by
  apply List.eq_nil_iff_forall_not_mem.mpr
  intro d hd
  obtain ⟨b, hmem, hdev⟩ := deviates_of_affected h hd
  exact not_deviates (hsmall _ hmem) hdev

end Affected

/-- What every round keeps when all members have the same attributes. -/
structure Leveled (size : Nat) (ds : List String) (fd : FaultDetection) : Prop where
  windowSize : fd.cmMovingWindowSize = size
  level : ∀ e ∈ fd.mMovingWindow.entries, Level size ds e.2
  alerts : ∀ alert ∈ fd.mAlerts, alert.affectedAttributes = []

theorem leveled_new (size : Nat) (ds : List String) : (new size).Leveled size ds :=
  ⟨rfl, fun e he => (by cases he), fun alert h => (by cases h)⟩

/-- When the first buffer of a window is full, all of them are. -/
theorem Level.size_le (hlevel : Level size ds w) {first : String × CircularBuffer}
    (hfirst : w.entries.head? = some first) (hfull : first.2.full = true) :
    ∀ e ∈ w.entries, e.2.size ≤ size := by
  obtain ⟨values, k, hrecords, hlength⟩ := hlevel
  have hsize : ∀ e ∈ w.entries, e.2.size = k := by
    intro e he
    have hd : e.1 ∈ ds := hrecords.keys ▸ List.mem_map_of_mem he
    rw [CircularBuffer.size, (hrecords.records e he).2.buffer, List.length_reverse, hlength e.1 hd]
  have hmem := List.mem_of_head? hfirst
  have hk : k = size := by
    rw [← hsize first hmem, ← (hrecords.records first hmem).1]
    exact beq_iff_eq.mp hfull
  intro e he
  rw [hsize e he, hk]

theorem Leveled.round (hsize : size ≤ 10) (h : fd.Leveled size ds) {input : RoundInput}
    {r : FaultDetection × Watchlist × List DetectCall}
    (hread : ∀ m, (input.getAttributes m).entries.map Prod.fst = ds) (hr : fd.round input = some r) :
    r.1.Leveled size ds := by
  simp only [FaultDetection.round, Option.bind_eq_bind, Option.bind_eq_some_iff] at hr
  obtain ⟨windows, hu, r', hd, hr⟩ := hr
  cases hr
  have hlevel : ∀ e ∈ windows.entries, Level size ds e.2 := by
    rw [← h.windowSize]
    exact updateMembers_level hread (h.windowSize.symm ▸ h.level) hu
  obtain ⟨hkept, hcalls⟩ := detectFrom_checks hd
  refine ⟨h.windowSize, fun e he => hlevel e (hkept e he), fun alert halert => ?_⟩
  rcases List.mem_append.mp halert with hold | hnew
  · exact h.alerts alert hold
  · obtain ⟨call, hcall, hfault⟩ := List.mem_filterMap.mp hnew
    obtain ⟨hmem, first, hfirst, hfull⟩ := hcalls call hcall
    apply detectFaults_small _ hfault
    intro e he
    exact ((hlevel call hmem).size_le hfirst hfull e he).trans hsize

end FaultDetection

/-- The detection names no attribute with one to ten values, whichever of them is current, and finds no
    fault of a live member whose attributes all have so few; a run with such windows raises no alert
    about an attribute; from eleven values on there are values, the newest of which it names. -/
theorem detectFaults_smallWindows :
    (∀ (input : RoundInput) (call : DetectCall) (alert : Alert) (d : String) (b : CircularBuffer),
      (d, b) ∈ call.2.entries → 1 ≤ b.size → b.size ≤ 10 →
      FaultDetection.detectFaults input call = some alert → d ∉ alert.affectedAttributes) ∧
    (∀ (input : RoundInput) (call : DetectCall), FaultDetection.Live input call.1 →
      (∀ e ∈ call.2.entries, e.2.size ≤ 10) → FaultDetection.detectFaults input call = none) ∧
    (∀ (size : Nat) (ds : List String) (rounds : List RoundInput) (s : FaultDetection × List DetectCall),
      size ≤ 10 → (∀ input ∈ rounds, ∀ m, (input.getAttributes m).entries.map Prod.fst = ds) →
      run FaultDetection.step (.new size, []) rounds = some s →
      ∀ alert ∈ s.1.mAlerts, alert.affectedAttributes = []) ∧
    ∀ n, 11 ≤ n → ∃ (b : CircularBuffer) (values : List Rat), b.Holds values ∧ values.length = n ∧
      b.full = true ∧ ∀ (input : RoundInput) (call : DetectCall) (d : String),
        FaultDetection.Live input call.1 → (d, b) ∈ call.2.entries →
        ∃ alert, FaultDetection.detectFaults input call = some alert ∧ d ∈ alert.affectedAttributes := by
  refine ⟨fun input call alert d b hmem _ hsize h => FaultDetection.not_affected_of_small hmem hsize h,
    fun input call live hsmall => ?_, fun size ds rounds s hsize hread hrun => ?_, fun n hn => ?_⟩
  · cases h : FaultDetection.detectFaults input call with
    | none => rfl
    | some alert =>
      exact absurd (FaultDetection.detectFaults_small hsmall h) (FaultDetection.affected_of_live live h)
  · have hleveled : s.1.Leveled size ds := by
      refine run_invariant (I := fun s => s.1.Leveled size ds)
        (c := fun _ input => ∀ m, (input.getAttributes m).entries.map Prod.fst = ds) ?_ rounds _ s
        (FaultDetection.leveled_new size ds) (along_of_mem (fun input hi _ => hread input hi) _) hrun
      intro s input t h hread ht
      obtain ⟨r, hr, rfl⟩ := Option.map_eq_some_iff.mp ht
      exact h.round hsize hread hr
    exact hleveled.alerts
  · refine ⟨FaultDetection.outlierWindow n, _, FaultDetection.outlierWindow_holds (by omega), ?_, ?_,
      fun input call d live hmem =>
        FaultDetection.affected_of_deviates live hmem (FaultDetection.outlierWindow_deviates hn)⟩
    · rw [List.length_append, List.length_replicate, List.length_singleton]
      omega
    · rw [CircularBuffer.full, beq_iff_eq]
      show (1 :: List.replicate (n - 1) (0 : Rat)).length = n
      rw [List.length_cons, List.length_replicate]
      omega

/-- A call with one attribute. -/
def outlierCall (n : Nat) : DetectCall :=
  (.make exampleWatched, ⟨[("0", FaultDetection.outlierWindow n)], List.pairwise_singleton _ _⟩)

/-- Nine zeros and a one give no alert, and ten zeros and a one do; and a run whose second round
    checks a full window of two values. -/
theorem detectFaults_smallWindows_tenEleven :
    (∀ alert, FaultDetection.detectFaults (exampleRound 0) (outlierCall 10) = some alert →
      "0" ∉ alert.affectedAttributes) ∧
    FaultDetection.detectFaults (exampleRound 0) (outlierCall 10) = none ∧
    (∃ s, run FaultDetection.step (.new 2, []) [exampleRound 0, exampleRound 1] = some s ∧ s.2.length = 1 ∧
      ∀ alert ∈ s.1.mAlerts, alert.affectedAttributes = []) ∧
    ∃ (b : CircularBuffer) (values : List Rat), b.Holds values ∧ values.length = 11 ∧
      b.full = true ∧ ∀ (input : RoundInput) (call : DetectCall) (d : String),
        FaultDetection.Live input call.1 → (d, b) ∈ call.2.entries →
        ∃ alert, FaultDetection.detectFaults input call = some alert ∧ d ∈ alert.affectedAttributes :=
  ⟨fun alert h => detectFaults_smallWindows.1 (exampleRound 0) (outlierCall 10) alert "0" _
      List.mem_cons_self (by decide) (by decide) h,
    detectFaults_smallWindows.2.1 (exampleRound 0) (outlierCall 10) (fun m _ => Or.inr rfl)
      (fun e he => by rw [List.mem_singleton.mp he]; decide),
    ⟨_, rfl, rfl, detectFaults_smallWindows.2.2.1 2 ["0"] [exampleRound 0, exampleRound 1] _ (by decide)
      (fun input hi m => by
        rcases List.mem_cons.mp hi with rfl | hi
        · rfl
        · rw [List.mem_singleton.mp hi]
          rfl) rfl⟩,
    detectFaults_smallWindows.2.2.2 11 (by decide)⟩

end StreamFdl
