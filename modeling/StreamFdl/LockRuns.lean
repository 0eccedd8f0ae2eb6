import StreamFdl.Locking

/- The four threads together. Each takes on one iteration of its loop after the
   other, and the steps of the threads come in any order. The server is taken to
   answer every request; a request and its answer are steps of their own, and
   between them other threads go on.

   What is proved, for every order of steps: no thread waits for a mutex forever,
   every answer is taken by the thread that asked for it, and accesses that ask
   for a common mutex exclude each other. The last is all there is: two threads do
   come to append to `mNodes` and to delete from it at once (`nodes_not_excluded`),
   and one comes to read a member while another updates it (`members_not_excluded`). -/
namespace StreamFdl
open Runs LockOrder

namespace Locking

/-- For each kind of request, the threads whose requests are not answered yet, in order. -/
abbrev Asked := Request → List Thread

/-- An answer is received as soon as there is a request to answer. -/
def act (t : Thread) : Access → Asked → Option Asked
  | .send request, asked => some (Function.update asked request (asked request ++ [t]))
  | .receive request, asked =>
    if (asked request).isEmpty then none
    else some (Function.update asked request (asked request).tail)
  | _, asked => some asked

abbrev State := Threads Thread Mutex Access Asked

abbrev Step := Action Thread Mutex Access

def State.new : State := .idle fun _ => []

def step : State → Step → Option State := Threads.step act

/-- Threads take on iterations of their loops. -/
def Loops : Step → Prop
  | .enter t code => Iteration t code
  | .go _ => True

/-! Requests and answers. -/

/-- Where a thread stands: it has no request open, or receives the answer to its only one next. -/
def Talks (code : Thread → List Op) (asked : Asked) (t : Thread) : Prop :=
  Paired (code t) ∨
    ∃ request rest, code t = .work (.receive request) :: rest ∧ Paired rest ∧ asked request = [t]

/-- A request that is open is the only one of its kind, and its thread receives the answer next. -/
structure Talking (code : Thread → List Op) (asked : Asked) : Prop where
  talks : ∀ t, Talks code asked t
  open_request : ∀ request, asked request = [] ∨
    ∃ t rest, asked request = [t] ∧ code t = .work (.receive request) :: rest

/-- A step that leaves the code of a thread and its request leaves where it stands. -/
theorem Talks.frame {code code' : Thread → List Op} {asked asked' : Asked} {t : Thread} (h : Talks code asked t)
    (hcode : code' t = code t) (hasked : ∀ request, asked request = [t] → asked' request = [t]) :
    Talks code' asked' t := by
  unfold Talks
  rw [hcode]
  obtain hpaired | ⟨request, rest, hreceive, hpaired, hopen⟩ := h
  · exact .inl hpaired
  · exact .inr ⟨request, rest, hreceive, hpaired, hasked request hopen⟩

namespace Talking

variable {code : Thread → List Op} {asked : Asked} {t : Thread} {request : Request} {rest : List Op}

theorem receives_own (h : Talking code asked) (ht : code t = .work (.receive request) :: rest) :
    Paired rest ∧ asked request = [t] := by
  obtain hpaired | ⟨r, rest', hcode, hpaired, hasked⟩ := h.talks t
  · rw [ht] at hpaired
    cases hpaired with
    | work hw _ => cases hw
  · rw [ht] at hcode
    cases hcode
    exact ⟨hpaired, hasked⟩

theorem paired (h : Talking code asked) (ht : ∀ r rest, code t ≠ .work (.receive r) :: rest) : Paired (code t) := by
  obtain hpaired | ⟨r, rest, hcode, _⟩ := h.talks t
  · exact hpaired
  · exact absurd hcode (ht r rest)

/-- A thread that does not wait for an answer goes on to other code. -/
theorem replace (h : Talking code asked) (ht : ∀ r rest, code t ≠ .work (.receive r) :: rest) {code' : List Op}
    (hcode : Paired code') : Talking (Function.update code t code') asked where
  talks u := by
    by_cases hu : u = t
    · subst hu
      exact .inl (by simpa using hcode)
    · exact (h.talks u).frame (by simp [hu]) fun _ hopen => hopen
  open_request request := by
    obtain hnone | ⟨u, rest, hasked, hu⟩ := h.open_request request
    · exact .inl hnone
    · have hne : u ≠ t := by
        rintro rfl
        exact ht _ _ hu
      exact .inr ⟨u, rest, hasked, by simpa [hne] using hu⟩

theorem send (h : Talking code asked) (ht : code t = .work (.send request) :: rest) (hnone : asked request = []) :
    Talking (Function.update code t rest) (Function.update asked request (asked request ++ [t])) := by
  have hpaired := h.paired (t := t) (by simp [ht])
  rw [ht] at hpaired
  cases hpaired with
  | work hw _ => cases hw
  | @ask _ rest hrest =>
    constructor
    · intro u
      by_cases hu : u = t
      · subst hu
        exact .inr ⟨request, rest, by simp, hrest, by simp [hnone]⟩
      -- another thread's open request is of another kind
      · refine (h.talks u).frame (by simp [hu]) fun r hopen => ?_
        have hr : r ≠ request := by
          rintro rfl
          rw [hnone] at hopen
          cases hopen
        simpa [hr] using hopen
    · intro r
      by_cases hr : r = request
      · subst hr
        exact .inr ⟨t, rest, by simp [hnone], by simp⟩
      · obtain hr_none | ⟨u, rest', hasked, hcode⟩ := h.open_request r
        · exact .inl (by simpa [hr] using hr_none)
        · have hne : u ≠ t := by
            rintro rfl
            rw [ht] at hcode
            cases hcode
          exact .inr ⟨u, rest', by simpa [hr] using hasked, by simpa [hne] using hcode⟩

theorem receive (h : Talking code asked) (ht : code t = .work (.receive request) :: rest) :
    Talking (Function.update code t rest) (Function.update asked request (asked request).tail) := by
  obtain ⟨hpaired, hmine⟩ := h.receives_own ht
  constructor
  · intro u
    by_cases hu : u = t
    · subst hu
      exact .inl (by simpa using hpaired)
    -- the answer that is taken is not another thread's
    · refine (h.talks u).frame (by simp [hu]) fun r hopen => ?_
      have hr : r ≠ request := by
        rintro rfl
        rw [hmine, List.cons.injEq] at hopen
        exact hu hopen.1.symm
      simpa [hr] using hopen
  · intro r
    by_cases hr : r = request
    · subst hr
      exact .inl (by simp [hmine])
    · obtain hr_none | ⟨u, rest', hasked, hcode⟩ := h.open_request r
      · exact .inl (by simpa [hr] using hr_none)
      · have hne : u ≠ t := by
          rintro rfl
          rw [ht] at hcode
          cases hcode
          exact hr rfl
        exact .inr ⟨u, rest', by simpa [hr] using hasked, by simpa [hne] using hcode⟩

end Talking

/-! Every step of every thread. -/

theorem Paired.tail {op : LockOp Mutex Access} {rest : List Op} (h : Paired (op :: rest))
    (hop : ∀ r, op ≠ .work (.send r)) : Paired rest := by
  cases h with
  | lock h => exact h
  | unlock h => exact h
  | work _ h => exact h
  | ask _ => exact absurd rfl (hop _)

/-- The mutexes are used as they should be, and so are requests and answers. -/
structure Orderly (s : State) (held : Thread → List Mutex) : Prop where
  disciplined : Disciplined Mutex.rank Allowed s held
  talking : Talking s.code s.shared

namespace Orderly

variable {s s' : State} {held : Thread → List Mutex} {t u : Thread} {request : Request} {rest : List Op}

theorem new : Orderly .new fun _ => [] where
  disciplined := .idle _
  talking := ⟨fun _ => .inl .nil, fun _ => .inl rfl⟩

/-- Whoever sends a request is the one that would receive an answer of its kind. -/
theorem same_thread (h : Orderly s held) {rest' : List Op} (ht : s.code t = .work (.send request) :: rest)
    (hu : s.code u = .work (.receive request) :: rest') : t = u := by
  have hsend := h.disciplined.allowed ht
  have hreceive := h.disciplined.allowed hu
  cases request with
  | customMember => exact (hsend.2 .builder rfl).symm.trans (hreceive.2 .builder rfl)
  | _ =>
    exact h.disciplined.holder_unique (hsend.1 .mMembersMutex (by simp))
      (hreceive.1 .mMembersMutex (by simp))

theorem no_request (h : Orderly s held) (ht : s.code t = .work (.send request) :: rest) :
    s.shared request = [] := by
  obtain hnone | ⟨u, rest', _, hu⟩ := h.talking.open_request request
  · exact hnone
  · have htu := h.same_thread ht hu
    subst htu
    rw [ht] at hu
    cases hu

theorem ready (h : Orderly s held) : Disciplined.Ready act s := by
  intro t w rest hcode
  cases w with
  | receive request => exact ⟨_, by simp [act, (h.talking.receives_own hcode).2]; rfl⟩
  | _ => exact ⟨_, rfl⟩

theorem go (h : Orderly s held) (hs : s.go act t = some s') : ∃ held', Orderly s' held' := by
  obtain ⟨held', hdisciplined⟩ := h.disciplined.go hs
  refine ⟨held', hdisciplined, ?_⟩
  -- An operation that is no message leaves the requests as they are.
  have hquiet : ∀ op rest, s.code t = op :: rest → (∀ r, op ≠ .work (.send r)) → (∀ r, op ≠ .work (.receive r)) →
      Talking (Function.update s.code t rest) s.shared := by
    intro op rest hcode hsend hreceive
    have hwaits : ∀ r rest', s.code t ≠ .work (.receive r) :: rest' := by
      intro r rest' heq
      rw [hcode] at heq
      exact hreceive r (List.cons.inj heq).1
    have hpaired := h.talking.paired hwaits
    rw [hcode] at hpaired
    exact h.talking.replace hwaits (hpaired.tail hsend)
  obtain ⟨m, rest, hcode, _, rfl⟩ | ⟨m, rest, hcode, _, rfl⟩ | ⟨w, rest, asked, hcode, hact, rfl⟩ :=
    Threads.go_cases hs
  · exact hquiet _ rest hcode (by simp) (by simp)
  · exact hquiet _ rest hcode (by simp) (by simp)
  · cases w with
    | send request =>
      cases hact
      exact h.talking.send hcode (h.no_request hcode)
    | receive request =>
      simp only [act, (h.talking.receives_own hcode).2, List.isEmpty_cons, Bool.false_eq_true, if_false,
        Option.some.injEq] at hact
      subst hact
      simpa [(h.talking.receives_own hcode).2] using h.talking.receive hcode
    | _ =>
      cases hact
      exact hquiet _ rest hcode (by simp) (by simp)

theorem step (h : Orderly s held) {a : Step} (ha : Loops a) (hs : step s a = some s') : ∃ held', Orderly s' held' := by
  cases a with
  | enter t code =>
    obtain ⟨hidle, rfl⟩ := Threads.enter_cases hs
    have hfits := Iteration.fits ha
    exact ⟨held, h.disciplined.entering hidle hfits.nested.ordered,
      h.talking.replace (by simp [hidle]) hfits.paired⟩
  | go t => exact h.go hs

theorem of_run {as : List Step} (hl : ∀ a ∈ as, Loops a) (hr : run Locking.step .new as = some s) :
    ∃ held, Orderly s held :=
  run_invariant (I := fun s => ∃ held, Orderly s held) (c := fun _ a => Loops a)
    (fun _ _ _ hI ha hs => hI.elim fun _ h => h.step ha hs) as .new s ⟨_, .new⟩
    (along_of_mem (fun a ha _ => hl a ha) _) hr

end Orderly

/-! Two threads at once. -/

/-- The watchlist asks the server for a node, and the data store finds a node and a topic that
    nobody uses: the first steps of the two, one thread after the other. -/
def twoThreads (detection store : Nat) : List Step :=
  [.enter .faultDetection (FaultDetection.run ⟨[⟨false, true, .null⟩], [], [], []⟩),
    .enter .dataStore (DataStore.run ⟨[(⟨false, 0⟩, false)], [(⟨true, 0⟩, false)], fun _ => none⟩)] ++
  List.replicate detection (.go .faultDetection) ++ List.replicate store (.go .dataStore)

theorem twoThreads_loops (detection store : Nat) : ∀ a ∈ twoThreads detection store, Loops a := by
  intro a ha
  simp only [twoThreads, List.mem_append, List.mem_cons, List.mem_replicate, List.not_mem_nil, or_false] at ha
  obtain ((rfl | rfl) | ⟨_, rfl⟩) | ⟨_, rfl⟩ := ha
  · exact ⟨_, rfl⟩
  · exact ⟨_, rfl⟩
  · trivial
  · trivial

/-! What holds of every order of steps. -/

section Results
variable {as : List Step} {s : State}

/-- A thread that receives an answer has the only request of its kind that is open. -/
theorem answers_taken_by_asker (hl : ∀ a ∈ as, Loops a) (hr : run step .new as = some s) :
    (∀ t request rest, s.code t = .work (.receive request) :: rest → s.shared request = [t]) ∧
    (∀ t request rest, s.code t = .work (.send request) :: rest → s.shared request = []) ∧
    ∀ request, (s.shared request).length ≤ 1 := by
  obtain ⟨held, h⟩ := Orderly.of_run hl hr
  refine ⟨fun t request rest ht => (h.talking.receives_own ht).2, fun t request rest ht => h.no_request ht, ?_⟩
  intro request
  obtain hnone | ⟨t, rest, hasked, _⟩ := h.talking.open_request request
  · simp [hnone]
  · simp [hasked]

theorem answers_taken_by_asker_node : ∃ s, run step .new (twoThreads 7 5) = some s ∧
    s.shared .node = [.faultDetection] :=
  ⟨_, rfl, (answers_taken_by_asker (twoThreads_loops 7 5) rfl).1 .faultDetection .node _ rfl⟩

/-- `mNodes` is appended to and deleted from at once. -/
theorem nodes_not_excluded : ∃ s, run step .new (twoThreads 8 5) = some s ∧
    (s.code .faultDetection).head? = some (.work .appendNode) ∧
    (s.code .dataStore).head? = some (.work .eraseNode) :=
  ⟨_, rfl, rfl, rfl⟩

/-- A vertex is drawn, and a message updates a node. -/
def drawAndUpdate : List Step :=
  [.enter .visualisation (Graph.visualise (some 1)),
    .enter .dataStore (DataStore.run ⟨[], [], fun kind => if kind = .NodeStateUpdate then some true else none⟩),
    .go .visualisation, .go .visualisation, .go .visualisation, .go .dataStore]

/-- A member is read, and updated, at once. -/
theorem members_not_excluded : ∃ s, run step .new drawAndUpdate = some s ∧
    (s.code .visualisation).head? = some (.work .readMember) ∧
    (s.code .dataStore).head? = some (.work .updateNode) :=
  ⟨_, rfl, rfl, rfl⟩

end Results

end Locking

end StreamFdl
