import Mathlib.Logic.Function.Basic
import StreamFdl.Base.Runs

/- Start and shutdown of the program: `main`, the three threads that
   `DynamicSubgraphBuilder::run` starts and joins, and the flag that tells all of
   them to stop.

   Every thread reads the flag at the head of its loop and nowhere else, so each
   one ends with the iteration it is in. An iteration is two steps here, one that
   begins it and one that ends it. In between a thread may send requests to the
   server and wait for the answers, which come or do not come; what else it does
   is the subject of the other modules.

   Signals come at any time, in any thread that lives, also before `main` takes
   them over and after it gives them back. `sigintHandler` runs in the thread that
   the signal has interrupted, which goes on when the handler has returned. The
   handler logs first and clears the flag then, so it is two steps as well: between
   them the flag stays as it is, and a log that does not return (it is none of the
   functions a handler may call) keeps the flag raised and the thread where it is.
   Left out are the text that is logged and the mask that keeps a signal from its
   own handler.

   What is proved: the threads run only while the objects they work on are alive
   and a signal cannot kill them, and once a handler has cleared the flag, the
   program comes to its end if handlers return and the server answers. A signal
   between `signal(SIGINT, …)` and `gIsRunning.store(true)` is caught and then
   forgotten (`signal_lost`). -/
namespace StreamFdl
open Runs

inductive Signal where
  | int
  | hup
  deriving DecidableEq

inductive Disposition where
  | terminate
  | ignore
  | sigintHandler
  deriving DecidableEq

/-- The two objects of `main`. -/
inductive MainObject where
  | dataStore
  | dsg
  deriving DecidableEq

/-- The threads that `run` starts. -/
inductive Worker where
  | faultDetection
  | dataStore
  | visualisation
  deriving DecidableEq

/-- Where a thread stands in `while (running.load())`. -/
inductive LoopPhase where
  | head
  | body
  /-- In an iteration, until the server has answered a request. -/
  | waiting
  | ended
  deriving DecidableEq

namespace LoopPhase

/-- The next step of the loop; none while the thread waits, or when it is over. -/
def advance (running : Bool) : LoopPhase → Option LoopPhase
  | .head => some (if running then .body else .ended)
  | .body => some .head
  | .waiting => none
  | .ended => none

/-- Iterations that the next step begins. -/
def begun (running : Bool) : LoopPhase → Nat
  | .head => if running then 1 else 0
  | _ => 0

/-- Steps left once the flag is cleared. -/
def weight : LoopPhase → Nat
  | .head => 1
  | .body => 2
  | .waiting => 2
  | .ended => 0

theorem advance_ended {running : Bool} {phase : LoopPhase} (h : phase.advance running = some .ended) :
    running = false := by
  cases phase <;> cases running <;> simp_all [advance]

theorem advance_ne_ended {running : Bool} {phase phase' : LoopPhase} (h : phase.advance running = some phase') :
    phase ≠ .ended := by
  rintro rfl
  cases h

theorem begun_cleared (phase : LoopPhase) : phase.begun false = 0 := by
  cases phase <;> rfl

theorem weight_advance {phase phase' : LoopPhase} (h : phase.advance false = some phase') :
    phase'.weight + 1 = phase.weight := by
  cases phase <;> cases h <;> rfl

theorem advance_isSome (running : Bool) {phase : LoopPhase} (hwaiting : phase ≠ .waiting) (hended : phase ≠ .ended) :
    (phase.advance running).isSome = true := by
  cases phase with
  | head => rfl
  | body => rfl
  | waiting => exact absurd rfl hwaiting
  | ended => exact absurd rfl hended

end LoopPhase

/-- What the main thread does next. -/
inductive MainPhase where
  | constructing (object : MainObject)
  | hooking (signum : Signal)
  /-- `gIsRunning.store(true)` -/
  | raising
  | starting (worker : Worker)
  | looping (phase : LoopPhase)
  | joining (worker : Worker)
  | restoring (signum : Signal)
  | destroying (object : MainObject)
  | ended
  deriving DecidableEq

namespace MainPhase

/-- The order of `main` and `run`. -/
def next : MainPhase → MainPhase
  | .constructing .dataStore => .constructing .dsg
  | .constructing .dsg => .hooking .int
  | .hooking .int => .hooking .hup
  | .hooking .hup => .raising
  | .raising => .starting .faultDetection
  | .starting .faultDetection => .starting .dataStore
  | .starting .dataStore => .starting .visualisation
  | .starting .visualisation => .looping .head
  | .looping _ => .joining .faultDetection
  | .joining .faultDetection => .joining .dataStore
  | .joining .dataStore => .joining .visualisation
  | .joining .visualisation => .restoring .int
  | .restoring .int => .restoring .hup
  | .restoring .hup => .destroying .dsg
  | .destroying .dsg => .destroying .dataStore
  | .destroying .dataStore => .ended
  | .ended => .ended

end MainPhase

/-- The threads of the process. -/
inductive ProgramThread where
  | main
  | worker (worker : Worker)
  deriving DecidableEq

structure Program where
  main : MainPhase
  gIsRunning : Bool
  disposition : Signal → Disposition
  /-- `intHandler` and `hupHandler` -/
  saved : Signal → Option Disposition
  alive : MainObject → Bool
  workers : Worker → Option LoopPhase
  killed : Bool
  /-- The calls of `sigintHandler` that each thread is in, the innermost one first. -/
  handling : ProgramThread → List Signal
  /-- The signals caught since the flag was raised. -/
  caught : List Signal
  /-- Those whose handler has cleared the flag. -/
  cleared : List Signal
  /-- Iterations begun, by all threads. -/
  iterations : Nat

inductive ThreadOp where
  | next (thread : ProgramThread)
  /-- The thread sends a request, and waits for the answer. -/
  | request (thread : ProgramThread)
  | answer (thread : ProgramThread)
  /-- The signal comes, and interrupts the thread. -/
  | signal (signum : Signal) (thread : ProgramThread)
  /-- The handler that the thread is in has logged, and clears the flag. -/
  | handled (thread : ProgramThread)

def ThreadOp.isNext : ThreadOp → Bool
  | .next _ => true
  | _ => false

namespace Program

def start (inherited : Signal → Disposition) : Program where
  main := .constructing .dataStore
  gIsRunning := false
  disposition := inherited
  saved := fun _ => none
  alive := fun _ => false
  workers := fun _ => none
  killed := false
  handling := fun _ => []
  caught := []
  cleared := []
  iterations := 0

/-- Where the thread stands in its loop. -/
def phase (s : Program) : ProgramThread → Option LoopPhase
  | .main => match s.main with
    | .looping phase => some phase
    | _ => none
  | .worker worker => s.workers worker

def setPhase (s : Program) (phase : LoopPhase) : ProgramThread → Program
  | .main => { s with main := .looping phase }
  | .worker worker => { s with workers := Function.update s.workers worker (some phase) }

/-- `sigintHandler` is called, and logs. -/
def sigintHandler (s : Program) (signum : Signal) (thread : ProgramThread) : Program :=
  { s with
    handling := Function.update s.handling thread (signum :: s.handling thread)
    caught := s.caught ++ [signum] }

/-- The rest of `sigintHandler`: `gIsRunning.store(false)` -/
def finishHandler (s : Program) (thread : ProgramThread) : Option Program :=
  match s.handling thread with
  | [] => none
  | signum :: outer => some { s with
    handling := Function.update s.handling thread outer
    gIsRunning := false
    cleared := s.cleared ++ [signum] }

/-- The next step of the main thread; none while it waits for the server or in a `join`. -/
def stepMain (s : Program) : Option Program :=
  match s.main with
  | .constructing object => some { s with alive := Function.update s.alive object true, main := s.main.next }
  | .hooking signum =>
    some { s with
      saved := Function.update s.saved signum (some (s.disposition signum))
      disposition := Function.update s.disposition signum .sigintHandler
      main := s.main.next }
  | .raising => some { s with gIsRunning := true, caught := [], cleared := [], main := s.main.next }
  | .starting worker =>
    some { s with workers := Function.update s.workers worker (some .head), main := s.main.next }
  | .looping .ended => some { s with main := s.main.next }
  | .looping phase => (phase.advance s.gIsRunning).map fun phase' =>
    { s with iterations := s.iterations + phase.begun s.gIsRunning, main := .looping phase' }
  | .joining worker => if s.workers worker = some .ended then some { s with main := s.main.next } else none
  | .restoring signum =>
    (s.saved signum).map fun handler =>
      { s with disposition := Function.update s.disposition signum handler, main := s.main.next }
  | .destroying object => some { s with alive := Function.update s.alive object false, main := s.main.next }
  | .ended => none

def stepWorker (s : Program) (worker : Worker) : Option Program :=
  (s.workers worker).bind fun phase => (phase.advance s.gIsRunning).map fun phase' =>
    { s with
      iterations := s.iterations + phase.begun s.gIsRunning
      workers := Function.update s.workers worker (some phase') }

def stepThread (s : Program) : ProgramThread → Option Program
  | .main => s.stepMain
  | .worker worker => s.stepWorker worker

/-- The thread was started, and is not over. -/
def lives (s : Program) : ProgramThread → Bool
  | .main => true
  | .worker worker => (s.workers worker).any fun phase => phase ≠ .ended

def deliver (s : Program) (signum : Signal) (thread : ProgramThread) : Program :=
  match s.disposition signum with
  | .terminate => { s with killed := true }
  | .ignore => s
  | .sigintHandler => s.sigintHandler signum thread

/-- What happens next; a thread that is in a handler does nothing else. -/
def step (s : Program) (op : ThreadOp) : Option Program :=
  if s.killed ∨ s.main = .ended then none
  else match op with
    | .next thread => if s.handling thread = [] then s.stepThread thread else none
    | .request thread =>
      if s.handling thread = [] ∧ s.phase thread = some .body then some (s.setPhase .waiting thread) else none
    | .answer thread =>
      if s.handling thread = [] ∧ s.phase thread = some .waiting then some (s.setPhase .body thread) else none
    | .signal signum thread => if s.lives thread then some (s.deliver signum thread) else none
    | .handled thread => s.finishHandler thread

end Program

/-! ### What the phases have in common -/

namespace MainPhase

/-- The objects that are alive. -/
def holds : MainPhase → MainObject → Bool
  | .constructing .dataStore, _ => false
  | .constructing .dsg, object => object = .dataStore
  | .destroying .dataStore, object => object = .dataStore
  | .ended, _ => false
  | _, _ => true

/-- The signals whose old handler is kept. -/
def saves : MainPhase → Signal → Bool
  | .constructing _, _ => false
  | .hooking .int, _ => false
  | .hooking .hup, signum => signum = .int
  | _, _ => true

/-- The signals that `sigintHandler` is called for. -/
def hooked : MainPhase → Signal → Bool
  | .constructing _, _ => false
  | .hooking .int, _ => false
  | .hooking .hup, signum => signum = .int
  | .restoring .hup, signum => signum = .hup
  | .destroying _, _ => false
  | .ended, _ => false
  | _, _ => true

/-- The threads that were started. -/
def started : MainPhase → Worker → Bool
  | .constructing _, _ => false
  | .hooking _, _ => false
  | .raising, _ => false
  | .starting .faultDetection, _ => false
  | .starting .dataStore, worker => worker = .faultDetection
  | .starting .visualisation, worker => worker ≠ .visualisation
  | _, _ => true

/-- The threads that were joined. -/
def joined : MainPhase → Worker → Bool
  | .joining .dataStore, worker => worker = .faultDetection
  | .joining .visualisation, worker => worker ≠ .visualisation
  | .restoring _, _ => true
  | .destroying _, _ => true
  | .ended, _ => true
  | _, _ => false

/-- The flag was raised. -/
def raised : MainPhase → Bool
  | .constructing _ => false
  | .hooking _ => false
  | .raising => false
  | _ => true

/-- The loop of the main thread is over. -/
def leftLoop : MainPhase → Bool
  | .looping phase => phase = .ended
  | .joining _ => true
  | .restoring _ => true
  | .destroying _ => true
  | .ended => true
  | _ => false

/-- Steps of the main thread that are left once the flag is cleared. -/
def weight : MainPhase → Nat
  | .starting .faultDetection => 12
  | .starting .dataStore => 11
  | .starting .visualisation => 10
  | .looping phase => 8 + phase.weight
  | .joining .faultDetection => 7
  | .joining .dataStore => 6
  | .joining .visualisation => 5
  | .restoring .int => 4
  | .restoring .hup => 3
  | .destroying .dsg => 2
  | .destroying .dataStore => 1
  | _ => 0

theorem hooked_of_started {main : MainPhase} {worker : Worker} (hstarted : main.started worker = true)
    (hjoined : main.joined worker = false) (signum : Signal) : main.hooked signum = true := by
  cases main <;> simp_all [started, joined, hooked]

theorem holds_of_started {main : MainPhase} {worker : Worker} (hstarted : main.started worker = true)
    (hjoined : main.joined worker = false) (object : MainObject) : main.holds object = true := by
  cases main <;> simp_all [started, joined, holds]

theorem weight_next {main : MainPhase} (hraised : main.raised = true) (hended : main ≠ .ended)
    (hloop : ∀ phase, main = .looping phase → phase = .ended) :
    main.next.raised = true ∧ main.next.weight + 1 = main.weight := by
  cases main with
  | constructing object => cases hraised
  | hooking signum => cases hraised
  | raising => cases hraised
  | starting worker => cases worker <;> exact ⟨rfl, rfl⟩
  | looping phase =>
    cases hloop phase rfl
    exact ⟨rfl, rfl⟩
  | joining worker => cases worker <;> exact ⟨rfl, rfl⟩
  | restoring signum => cases signum <;> exact ⟨rfl, rfl⟩
  | destroying object => cases object <;> exact ⟨rfl, rfl⟩
  | ended => exact absurd rfl hended

end MainPhase

namespace Program

/-- The calls of `sigintHandler` that have not returned. -/
def openHandlers (s : Program) : List Signal :=
  s.handling .main ++ s.handling (.worker .faultDetection) ++ s.handling (.worker .dataStore) ++
    s.handling (.worker .visualisation)

/-- What `main` owns and took over, as far as it has come. -/
structure Resources (inherited : Signal → Disposition) (s : Program) : Prop where
  alive : ∀ object, s.alive object = s.main.holds object
  saved : ∀ signum, s.main.saves signum = true → s.saved signum = some (inherited signum)
  disposition : ∀ signum, s.disposition signum = if s.main.hooked signum then .sigintHandler else inherited signum

/-- The threads and the flag, as far as the main thread has come. -/
structure Threads (s : Program) : Prop where
  started : ∀ worker, (s.workers worker).isSome = s.main.started worker
  joined : ∀ worker, s.main.joined worker = true → s.workers worker = some .ended
  flag : s.gIsRunning = true ↔ s.main.raised = true ∧ s.cleared = []
  leftLoop : s.main.leftLoop = true → s.gIsRunning = false
  ended : ∀ worker, s.workers worker = some .ended → s.gIsRunning = false
  idle : ∀ worker, s.main.started worker = false → s.handling (.worker worker) = []
  accounted : ∀ signum, s.caught.count signum = s.cleared.count signum + s.openHandlers.count signum

variable {inherited : Signal → Disposition} {s t : Program}

theorem start_resources : (start inherited).Resources inherited where
  alive _ := rfl
  saved _ h := by cases h
  disposition _ := rfl

theorem start_threads : (start inherited).Threads where
  started _ := rfl
  joined _ h := by cases h
  flag := by simp [start, MainPhase.raised]
  leftLoop h := by cases h
  ended _ h := by cases h
  idle _ _ := rfl
  accounted _ := rfl

/-- The calls of one thread change. -/
theorem count_openHandlers {u : Program} {thread : ProgramThread} {calls : List Signal}
    (hu : u.handling = Function.update s.handling thread calls) (signum : Signal) :
    u.openHandlers.count signum + (s.handling thread).count signum =
      s.openHandlers.count signum + calls.count signum := by
  simp only [openHandlers, hu, List.count_append]
  cases thread with
  | main => simp only [Function.update_self, Function.update_of_ne, ne_eq, reduceCtorEq, not_false_eq_true]; omega
  | worker worker =>
    cases worker <;>
      simp only [Function.update_self, Function.update_of_ne, ne_eq, reduceCtorEq, not_false_eq_true,
        ProgramThread.worker.injEq] <;> omega

/-- A thread that lives was started. -/
theorem Threads.lives (h : s.Threads) {worker : Worker} (hlives : s.lives (.worker worker) = true) :
    s.main.started worker = true := by
  rw [← h.started worker]
  cases hw : s.workers worker with
  | none => simp [Program.lives, hw] at hlives
  | some phase => rfl

theorem Resources.deliver (h : s.Resources inherited) (signum : Signal) (thread : ProgramThread) :
    (s.deliver signum thread).Resources inherited := by
  unfold Program.deliver
  split
  · exact { h with }
  · exact h
  · exact { h with }

theorem Threads.deliver (h : s.Threads) (signum : Signal) {thread : ProgramThread} (hlives : s.lives thread = true) :
    (s.deliver signum thread).Threads := by
  unfold Program.deliver
  split
  · exact { h with }
  · exact h
  · refine { h with idle := fun worker hw => ?_, accounted := fun k => ?_ }
    · have hother : ProgramThread.worker worker ≠ thread := by
        rintro rfl
        exact absurd (h.lives hlives) (by simpa [sigintHandler] using hw)
      simpa [sigintHandler, hother] using h.idle worker hw
    · have hopen := count_openHandlers (u := s.sigintHandler signum thread) rfl k
      have hold := h.accounted k
      rw [List.count_cons] at hopen
      simp only [sigintHandler, List.count_append, List.count_singleton] at hopen ⊢
      omega

/-- What the end of a handler does. -/
theorem finishHandler_cases {thread : ProgramThread} (hs : s.finishHandler thread = some t) :
    ∃ signum outer, s.handling thread = signum :: outer ∧
      t = { s with
        handling := Function.update s.handling thread outer
        gIsRunning := false
        cleared := s.cleared ++ [signum] } := by
  unfold finishHandler at hs
  split at hs
  · cases hs
  · next signum outer hcalls => exact ⟨signum, outer, hcalls, (Option.some.inj hs).symm⟩

theorem Resources.finishHandler (h : s.Resources inherited) {thread : ProgramThread}
    (hs : s.finishHandler thread = some t) : t.Resources inherited := by
  obtain ⟨signum, outer, -, rfl⟩ := finishHandler_cases hs
  exact { h with }

theorem Threads.finishHandler (h : s.Threads) {thread : ProgramThread} (hs : s.finishHandler thread = some t) :
    t.Threads := by
  obtain ⟨signum, outer, hcalls, rfl⟩ := finishHandler_cases hs
  refine { h with
    flag := ⟨nofun, fun ⟨_, hnil⟩ => by simp at hnil⟩
    leftLoop := fun _ => rfl
    ended := fun _ _ => rfl
    idle := fun worker hw => ?_
    accounted := fun k => ?_ }
  · by_cases hthread : ProgramThread.worker worker = thread
    · have hnone := h.idle worker hw
      rw [hthread, hcalls] at hnone
      cases hnone
    · simpa [hthread] using h.idle worker hw
  · -- the call is open no longer, and has cleared the flag
    have hopen := count_openHandlers (s := s) (u := { s with
      handling := Function.update s.handling thread outer
      gIsRunning := false
      cleared := s.cleared ++ [signum] }) rfl k
    have hold := h.accounted k
    rw [hcalls, List.count_cons] at hopen
    simp only [List.count_append, List.count_singleton]
    omega

/-- What a step of a worker does. -/
theorem stepWorker_cases {worker : Worker} (hs : s.stepWorker worker = some t) :
    ∃ phase phase', s.workers worker = some phase ∧ phase.advance s.gIsRunning = some phase' ∧
      t = { s with
        iterations := s.iterations + phase.begun s.gIsRunning
        workers := Function.update s.workers worker (some phase') } := by
  obtain ⟨phase, hw, hs⟩ := Option.bind_eq_some_iff.mp hs
  obtain ⟨phase', hadvance, rfl⟩ := Option.map_eq_some_iff.mp hs
  exact ⟨phase, phase', hw, hadvance, rfl⟩

/-- A thread in its loop goes on in it. -/
theorem Threads.setWorker (h : s.Threads) {worker : Worker} {phase phase' : LoopPhase} {n : Nat}
    (hw : s.workers worker = some phase) (hne : phase ≠ .ended) (hended : phase' = .ended → s.gIsRunning = false) :
    Threads { s with iterations := n, workers := Function.update s.workers worker (some phase') } := by
  refine { h with started := fun v => ?_, joined := fun v hv => ?_, ended := fun v hv => ?_ }
  · by_cases hvw : v = worker
    · subst hvw
      simpa [hw] using h.started v
    · simpa [hvw] using h.started v
  · have hjoined := h.joined v hv
    have hvw : v ≠ worker := by
      rintro rfl
      exact hne (Option.some.inj (hw.symm.trans hjoined))
    simpa [hvw] using hjoined
  · by_cases hvw : v = worker
    · subst hvw
      exact hended (by simpa using hv)
    · exact h.ended v (by simpa [hvw] using hv)

theorem Threads.stepWorker (h : s.Threads) {worker : Worker} (hs : s.stepWorker worker = some t) : t.Threads := by
  obtain ⟨phase, phase', hw, hadvance, rfl⟩ := stepWorker_cases hs
  refine h.setWorker hw (LoopPhase.advance_ne_ended hadvance) ?_
  rintro rfl
  exact LoopPhase.advance_ended hadvance

theorem Resources.stepWorker (h : s.Resources inherited) {worker : Worker} (hs : s.stepWorker worker = some t) :
    t.Resources inherited := by
  obtain ⟨phase, phase', -, -, rfl⟩ := stepWorker_cases hs
  exact { h with }

/-- The main thread is in its loop. -/
theorem looping_of_phase {phase : LoopPhase} (hphase : s.phase .main = some phase) : s.main = .looping phase := by
  simp only [Program.phase] at hphase
  split at hphase
  · next hmain =>
    cases hphase
    exact hmain
  · cases hphase

/-- A request, or its answer. -/
theorem Resources.setPhase (h : s.Resources inherited) {thread : ProgramThread} {phase phase' : LoopPhase}
    (hphase : s.phase thread = some phase) : (s.setPhase phase' thread).Resources inherited := by
  cases thread with
  | worker worker => exact { h with }
  | main =>
    have hmain := looping_of_phase hphase
    obtain ⟨halive, hsaved, hdisposition⟩ := h
    rw [hmain] at halive hsaved hdisposition
    exact ⟨halive, hsaved, hdisposition⟩

theorem Threads.setPhase (h : s.Threads) {thread : ProgramThread} {phase phase' : LoopPhase}
    (hphase : s.phase thread = some phase) (hne : phase ≠ .ended) (hne' : phase' ≠ .ended) :
    (s.setPhase phase' thread).Threads := by
  cases thread with
  | worker worker => exact h.setWorker (n := s.iterations) hphase hne fun hended => absurd hended hne'
  | main =>
    have hmain := looping_of_phase hphase
    obtain ⟨hstarted, -, hflag, -, hended, hidle, haccounted⟩ := h
    rw [hmain] at hstarted hflag hidle
    refine ⟨hstarted, nofun, hflag, fun hleft => ?_, hended, hidle, haccounted⟩
    exact absurd (by simpa [Program.setPhase, MainPhase.leftLoop] using hleft) hne'

/-- One case for each phase: what `next` changes in the tables, the step changes in the state. -/
theorem Resources.stepMain (h : s.Resources inherited) (hs : s.stepMain = some t) : t.Resources inherited := by
  obtain ⟨main, gIsRunning, disposition, saved, alive, workers, killed, caught, iterations⟩ := s
  obtain ⟨halive, hsaved, hdisposition⟩ := h
  dsimp only at halive hsaved hdisposition
  cases main with
  | constructing object =>
    cases hs
    cases object <;>
      exact ⟨fun o => by cases o <;> simp [halive, MainPhase.next, MainPhase.holds], nofun, hdisposition⟩
  | hooking signum =>
    cases hs
    have hold : disposition signum = inherited signum := by
      cases signum <;> simp [hdisposition, MainPhase.hooked]
    refine ⟨fun o => ?_, fun k hk => ?_, fun k => ?_⟩
    · cases signum <;> exact halive o
    · cases signum <;> cases k <;> simp_all [MainPhase.next, MainPhase.saves]
    · cases signum <;> cases k <;> simp_all [MainPhase.next, MainPhase.hooked]
  | raising =>
    cases hs
    exact ⟨halive, hsaved, hdisposition⟩
  | starting worker =>
    cases hs
    cases worker <;> exact ⟨halive, hsaved, hdisposition⟩
  | looping phase =>
    cases phase with
    | waiting => cases hs
    | head =>
      cases hs
      exact ⟨halive, hsaved, hdisposition⟩
    | body =>
      cases hs
      exact ⟨halive, hsaved, hdisposition⟩
    | ended =>
      cases hs
      exact ⟨halive, hsaved, hdisposition⟩
  | joining worker =>
    obtain ⟨-, hs⟩ := Option.ite_none_right_eq_some.mp hs
    cases hs
    cases worker <;> exact ⟨halive, hsaved, hdisposition⟩
  | restoring signum =>
    obtain ⟨handler, hhandler, hs⟩ := Option.map_eq_some_iff.mp hs
    cases hs
    have hold : handler = inherited signum := Option.some.inj (hhandler.symm.trans (hsaved signum rfl))
    refine ⟨fun o => ?_, fun k _ => hsaved k rfl, fun k => ?_⟩
    · cases signum <;> exact halive o
    · have := hdisposition k
      cases signum <;> cases k <;> simp_all [MainPhase.next, MainPhase.hooked]
  | destroying object =>
    cases hs
    refine ⟨fun o => ?_, fun k _ => hsaved k rfl, fun k => ?_⟩
    · have := halive o
      cases object <;> cases o <;> simp_all [MainPhase.next, MainPhase.holds]
    · cases object <;> exact hdisposition k
  | ended => cases hs

theorem Threads.stepMain (h : s.Threads) (hcalls : s.handling .main = []) (hs : s.stepMain = some t) :
    t.Threads := by
  obtain ⟨main, gIsRunning, disposition, saved, alive, workers, killed, handling, caught, cleared, iterations⟩ := s
  obtain ⟨hstarted, hjoined, hflag, hleft, hended, hidle, haccounted⟩ := h
  dsimp only at hstarted hjoined hflag hleft hended hidle haccounted hcalls
  cases main with
  | constructing object =>
    cases hs
    cases object <;> exact ⟨hstarted, nofun, hflag, nofun, hended, hidle, haccounted⟩
  | hooking signum =>
    cases hs
    cases signum <;> exact ⟨hstarted, nofun, hflag, nofun, hended, hidle, haccounted⟩
  | raising =>
    cases hs
    have hnone : ∀ w, workers w = none := fun w => by
      simpa [MainPhase.started] using hstarted w
    -- no thread but the main one was started, so no handler is open
    refine ⟨hstarted, nofun, by simp [MainPhase.next, MainPhase.raised], nofun, fun w hw => ?_, hidle, fun k => ?_⟩
    · have := hnone w
      simp_all
    · simp [openHandlers, hcalls, hidle _ rfl]
  | starting worker =>
    cases hs
    have hstarted' : ∀ w, (Function.update workers worker (some .head) w).isSome =
        (MainPhase.starting worker).next.started w := by
      intro w
      have := hstarted w
      cases worker <;> cases w <;> simp_all [MainPhase.next, MainPhase.started]
    have hended' : ∀ w, Function.update workers worker (some .head) w = some .ended → gIsRunning = false := by
      intro w hw
      by_cases hww : w = worker
      · subst hww
        simp at hw
      · exact hended w (by simpa [hww] using hw)
    have hidle' : ∀ w, (MainPhase.starting worker).next.started w = false → handling (.worker w) = [] := by
      intro w hw
      apply hidle
      cases worker <;> cases w <;> simp_all [MainPhase.next, MainPhase.started]
    cases worker <;> exact ⟨hstarted', nofun, hflag, nofun, hended', hidle', haccounted⟩
  | looping phase =>
    cases phase with
    | ended =>
      cases hs
      exact ⟨hstarted, nofun, hflag, fun _ => hleft rfl, hended, hidle, haccounted⟩
    | head =>
      cases hs
      refine ⟨hstarted, nofun, hflag, fun h => ?_, hended, hidle, haccounted⟩
      have hleaves : LoopPhase.head.advance gIsRunning = some .ended := by
        simpa [LoopPhase.advance, MainPhase.leftLoop] using h
      exact LoopPhase.advance_ended hleaves
    | body =>
      cases hs
      exact ⟨hstarted, nofun, hflag, nofun, hended, hidle, haccounted⟩
    | waiting => cases hs
  | joining worker =>
    obtain ⟨hw, hs⟩ := Option.ite_none_right_eq_some.mp hs
    cases hs
    have hjoined' : ∀ w, (MainPhase.joining worker).next.joined w = true → workers w = some .ended := by
      intro w
      have := hjoined w
      cases worker <;> cases w <;> simp_all [MainPhase.next, MainPhase.joined]
    cases worker <;> exact ⟨hstarted, hjoined', hflag, fun _ => hleft rfl, hended, hidle, haccounted⟩
  | restoring signum =>
    obtain ⟨handler, -, hs⟩ := Option.map_eq_some_iff.mp hs
    cases hs
    cases signum <;> exact ⟨hstarted, hjoined, hflag, fun _ => hleft rfl, hended, hidle, haccounted⟩
  | destroying object =>
    cases hs
    cases object <;> exact ⟨hstarted, hjoined, hflag, fun _ => hleft rfl, hended, hidle, haccounted⟩
  | ended => cases hs

/-! ### Runs -/

theorem step_next {thread : ProgramThread} (hs : s.step (.next thread) = some t) :
    s.handling thread = [] ∧ s.stepThread thread = some t :=
  Option.ite_none_right_eq_some.mp (Option.ite_none_left_eq_some.mp hs).2

theorem step_request {thread : ProgramThread} (hs : s.step (.request thread) = some t) :
    s.phase thread = some .body ∧ s.setPhase .waiting thread = t := by
  obtain ⟨⟨-, hphase⟩, ht⟩ := Option.ite_none_right_eq_some.mp (Option.ite_none_left_eq_some.mp hs).2
  exact ⟨hphase, Option.some.inj ht⟩

theorem step_answer {thread : ProgramThread} (hs : s.step (.answer thread) = some t) :
    s.phase thread = some .waiting ∧ s.setPhase .body thread = t := by
  obtain ⟨⟨-, hphase⟩, ht⟩ := Option.ite_none_right_eq_some.mp (Option.ite_none_left_eq_some.mp hs).2
  exact ⟨hphase, Option.some.inj ht⟩

theorem step_signal {signum : Signal} {thread : ProgramThread} (hs : s.step (.signal signum thread) = some t) :
    s.lives thread = true ∧ s.deliver signum thread = t := by
  obtain ⟨hlives, ht⟩ := Option.ite_none_right_eq_some.mp (Option.ite_none_left_eq_some.mp hs).2
  exact ⟨hlives, Option.some.inj ht⟩

theorem step_handled {thread : ProgramThread} (hs : s.step (.handled thread) = some t) :
    s.finishHandler thread = some t := (Option.ite_none_left_eq_some.mp hs).2

theorem Resources.step (h : s.Resources inherited) {op : ThreadOp} (hs : s.step op = some t) :
    t.Resources inherited := by
  cases op with
  | next thread =>
    obtain ⟨-, hs⟩ := step_next hs
    cases thread with
    | main => exact h.stepMain hs
    | worker worker => exact h.stepWorker hs
  | request thread =>
    obtain ⟨hphase, rfl⟩ := step_request hs
    exact h.setPhase hphase
  | answer thread =>
    obtain ⟨hphase, rfl⟩ := step_answer hs
    exact h.setPhase hphase
  | signal signum thread =>
    obtain ⟨-, rfl⟩ := step_signal hs
    exact h.deliver signum thread
  | handled thread => exact h.finishHandler (step_handled hs)

theorem Threads.step (h : s.Threads) {op : ThreadOp} (hs : s.step op = some t) : t.Threads := by
  cases op with
  | next thread =>
    obtain ⟨hcalls, hs⟩ := step_next hs
    cases thread with
    | main => exact h.stepMain hcalls hs
    | worker worker => exact h.stepWorker hs
  | request thread =>
    obtain ⟨hphase, rfl⟩ := step_request hs
    exact h.setPhase hphase nofun nofun
  | answer thread =>
    obtain ⟨hphase, rfl⟩ := step_answer hs
    exact h.setPhase hphase nofun nofun
  | signal signum thread =>
    obtain ⟨hlives, rfl⟩ := step_signal hs
    exact h.deliver signum hlives
  | handled thread => exact h.finishHandler (step_handled hs)

theorem resources_of_run {ops : List ThreadOp} (hs : run step (start inherited) ops = some s) :
    s.Resources inherited :=
  run_preserves (fun _ _ _ h hs => h.step hs) start_resources hs

theorem threads_of_run {ops : List ThreadOp} (hs : run step (start inherited) ops = some s) : s.Threads :=
  run_preserves (fun _ _ _ h hs => h.step hs) start_threads hs

/-- A thread that runs was started and not yet joined. -/
theorem Threads.running (h : s.Threads) {worker : Worker} {phase : LoopPhase} (hw : s.workers worker = some phase)
    (hne : phase ≠ .ended) : s.main.started worker = true ∧ s.main.joined worker = false := by
  refine ⟨by simp [← h.started worker, hw], ?_⟩
  by_contra hj
  have hended := h.joined worker (by simpa using hj)
  exact hne (Option.some.inj (hw.symm.trans hended))

/-! ### Shutdown -/

def workerWeight : Option LoopPhase → Nat
  | none => 1
  | some phase => phase.weight

def workersWeight (workers : Worker → Option LoopPhase) : Nat :=
  workerWeight (workers .faultDetection) + workerWeight (workers .dataStore) + workerWeight (workers .visualisation)

/-- The steps of all threads that are left once the flag is cleared. -/
def weight (s : Program) : Nat := s.main.weight + workersWeight s.workers

theorem workersWeight_update (workers : Worker → Option LoopPhase) (worker : Worker) (phase : LoopPhase) :
    workersWeight (Function.update workers worker (some phase)) + workerWeight (workers worker) =
      workersWeight workers + phase.weight := by
  have hsame : workerWeight (some phase) = phase.weight := rfl
  cases worker <;> simp only [workersWeight, Function.update_self, Function.update_of_ne, ne_eq, reduceCtorEq,
    not_false_eq_true] <;> omega

/-- The flag was raised, and cleared. -/
structure Stopping (s : Program) : Prop where
  threads : s.Threads
  raised : s.main.raised = true
  cleared : s.gIsRunning = false

theorem Stopping.stepWorker (h : s.Stopping) {worker : Worker} (hs : s.stepWorker worker = some t) :
    t.Stopping ∧ t.weight + 1 = s.weight ∧ t.iterations = s.iterations := by
  have hthreads := h.threads.stepWorker hs
  obtain ⟨phase, phase', hw, hadvance, rfl⟩ := stepWorker_cases hs
  refine ⟨⟨hthreads, h.raised, h.cleared⟩, ?_, ?_⟩
  · have hupdate := workersWeight_update s.workers worker phase'
    have hold : workerWeight (s.workers worker) = phase.weight := by rw [hw]; rfl
    have hless : phase'.weight + 1 = phase.weight := LoopPhase.weight_advance (h.cleared ▸ hadvance)
    simp only [weight]
    omega
  · simp [h.cleared, LoopPhase.begun_cleared]

/-- A thread that waits has as many steps left. -/
theorem Stopping.setPhase (h : s.Stopping) (phase' : LoopPhase) {thread : ProgramThread} {phase : LoopPhase}
    (hphase : s.phase thread = some phase) (hne : phase ≠ .ended) (hne' : phase' ≠ .ended)
    (hweight : phase'.weight = phase.weight) :
    (s.setPhase phase' thread).Stopping ∧ (s.setPhase phase' thread).weight = s.weight ∧
      (s.setPhase phase' thread).iterations = s.iterations := by
  have hthreads := h.threads.setPhase hphase hne hne'
  cases thread with
  | main =>
    have hmain := looping_of_phase hphase
    refine ⟨⟨hthreads, rfl, h.cleared⟩, ?_, rfl⟩
    simp only [weight, Program.setPhase, hmain, MainPhase.weight, hweight]
  | worker worker =>
    refine ⟨⟨hthreads, h.raised, h.cleared⟩, ?_, rfl⟩
    have hupdate := workersWeight_update s.workers worker phase'
    have hold : workerWeight (s.workers worker) = phase.weight := by
      rw [show s.workers worker = some phase from hphase]
      rfl
    simp only [weight, Program.setPhase]
    omega

/-- A step that goes on to the next phase, with the workers as they were. -/
theorem Stopping.next {u : Program} (h : s.Stopping) (hthreads : u.Threads) (hmain : u.main = s.main.next)
    (hended : s.main ≠ .ended) (hloop : ∀ phase, s.main = .looping phase → phase = .ended)
    (hcleared : u.gIsRunning = s.gIsRunning) (hworkers : workersWeight u.workers = workersWeight s.workers) :
    u.Stopping ∧ u.weight + 1 ≤ s.weight := by
  obtain ⟨hraised, hweight⟩ := MainPhase.weight_next h.raised hended hloop
  refine ⟨⟨hthreads, hmain ▸ hraised, hcleared.trans h.cleared⟩, ?_⟩
  simp only [weight, hmain, hworkers]
  omega

theorem Stopping.stepMain (h : s.Stopping) (hcalls : s.handling .main = []) (hs : s.stepMain = some t) :
    t.Stopping ∧ t.weight + 1 ≤ s.weight ∧ t.iterations = s.iterations := by
  have hthreads := h.threads.stepMain hcalls hs
  have hraised := h.raised
  unfold Program.stepMain at hs
  split at hs
  -- the flag is not raised in the first three phases
  case h_1 object hmain =>
    rw [hmain] at hraised
    cases hraised
  case h_2 signum hmain =>
    rw [hmain] at hraised
    cases hraised
  case h_3 hmain =>
    rw [hmain] at hraised
    cases hraised
  case h_4 worker hmain =>
    have hnone : s.workers worker = none := by
      have hstarted := h.threads.started worker
      rw [hmain] at hstarted
      cases worker <;> simpa [MainPhase.started] using hstarted
    have hsame := workersWeight_update s.workers worker .head
    rw [hnone] at hsame
    cases hs
    obtain ⟨hstop, hweight⟩ := h.next hthreads rfl (by simp [hmain]) (by simp [hmain]) rfl (Nat.add_right_cancel hsame)
    exact ⟨hstop, hweight, rfl⟩
  case h_5 hmain =>
    cases hs
    obtain ⟨hstop, hweight⟩ := h.next hthreads rfl (by simp [hmain]) (by simp [hmain]) rfl rfl
    exact ⟨hstop, hweight, rfl⟩
  case h_6 phase hne hmain =>
    obtain ⟨phase', hadvance, rfl⟩ := Option.map_eq_some_iff.mp hs
    refine ⟨⟨hthreads, rfl, h.cleared⟩, ?_, ?_⟩
    · have hless := LoopPhase.weight_advance (h.cleared ▸ hadvance)
      simp only [weight, hmain, MainPhase.weight]
      omega
    · simp [h.cleared, LoopPhase.begun_cleared]
  case h_7 worker hmain =>
    obtain ⟨-, hs⟩ := Option.ite_none_right_eq_some.mp hs
    cases hs
    obtain ⟨hstop, hweight⟩ := h.next hthreads rfl (by simp [hmain]) (by simp [hmain]) rfl rfl
    exact ⟨hstop, hweight, rfl⟩
  case h_8 signum hmain =>
    obtain ⟨handler, -, hs⟩ := Option.map_eq_some_iff.mp hs
    cases hs
    obtain ⟨hstop, hweight⟩ := h.next hthreads rfl (by simp [hmain]) (by simp [hmain]) rfl rfl
    exact ⟨hstop, hweight, rfl⟩
  case h_9 object hmain =>
    cases hs
    obtain ⟨hstop, hweight⟩ := h.next hthreads rfl (by simp [hmain]) (by simp [hmain]) rfl rfl
    exact ⟨hstop, hweight, rfl⟩
  case h_10 hmain => cases hs

theorem Stopping.deliver (h : s.Stopping) (signum : Signal) {thread : ProgramThread} (hlives : s.lives thread = true) :
    (s.deliver signum thread).Stopping ∧ (s.deliver signum thread).weight = s.weight ∧
      (s.deliver signum thread).iterations = s.iterations := by
  have hthreads := h.threads.deliver signum hlives
  unfold Program.deliver at *
  split
  · exact ⟨⟨{ h.threads with }, h.raised, h.cleared⟩, rfl, rfl⟩
  · exact ⟨h, rfl, rfl⟩
  · next hcaught =>
    rw [hcaught] at hthreads
    exact ⟨⟨hthreads, h.raised, h.cleared⟩, rfl, rfl⟩

theorem Stopping.finishHandler (h : s.Stopping) {thread : ProgramThread} (hs : s.finishHandler thread = some t) :
    t.Stopping ∧ t.weight = s.weight ∧ t.iterations = s.iterations := by
  have hthreads := h.threads.finishHandler hs
  obtain ⟨signum, outer, -, rfl⟩ := finishHandler_cases hs
  exact ⟨⟨hthreads, h.raised, rfl⟩, rfl, rfl⟩

theorem Stopping.step (h : s.Stopping) {op : ThreadOp} (hs : s.step op = some t) :
    t.Stopping ∧ t.weight + (if op.isNext then 1 else 0) ≤ s.weight ∧ t.iterations = s.iterations := by
  cases op with
  | next thread =>
    obtain ⟨hcalls, hs⟩ := step_next hs
    cases thread with
    | main => exact h.stepMain hcalls hs
    | worker worker =>
      obtain ⟨hstop, hweight, hsame⟩ := h.stepWorker hs
      exact ⟨hstop, Nat.le_of_eq hweight, hsame⟩
  | request thread =>
    obtain ⟨hphase, rfl⟩ := step_request hs
    obtain ⟨hstop, hweight, hsame⟩ := h.setPhase .waiting hphase nofun nofun rfl
    exact ⟨hstop, Nat.le_of_eq hweight, hsame⟩
  | answer thread =>
    obtain ⟨hphase, rfl⟩ := step_answer hs
    obtain ⟨hstop, hweight, hsame⟩ := h.setPhase .body hphase nofun nofun rfl
    exact ⟨hstop, Nat.le_of_eq hweight, hsame⟩
  | signal signum thread =>
    obtain ⟨hlives, rfl⟩ := step_signal hs
    obtain ⟨hstop, hweight, hsame⟩ := h.deliver signum hlives
    exact ⟨hstop, Nat.le_of_eq hweight, hsame⟩
  | handled thread =>
    obtain ⟨hstop, hweight, hsame⟩ := h.finishHandler (step_handled hs)
    exact ⟨hstop, Nat.le_of_eq hweight, hsame⟩

theorem workerWeight_le (phase : Option LoopPhase) : workerWeight phase ≤ 2 := by
  cases phase with
  | none => decide
  | some phase => cases phase <;> decide

theorem weight_le (h : s.Threads) : s.weight ≤ 16 := by
  have hdetection := workerWeight_le (s.workers .faultDetection)
  have hstore := workerWeight_le (s.workers .dataStore)
  have hvisualisation := workerWeight_le (s.workers .visualisation)
  have hnone : ∀ worker, s.main.started worker = false → workerWeight (s.workers worker) = 1 := by
    intro worker hw
    have hw' := (h.started worker).trans hw
    rw [Option.isSome_eq_false_iff, Option.isNone_iff_eq_none] at hw'
    rw [hw']
    rfl
  simp only [weight, workersWeight]
  -- a thread that is not started yet weighs less, which the phases before make up for
  cases hmain : s.main with
  | starting worker =>
    rw [hmain] at hnone
    have hlast := hnone .visualisation (by cases worker <;> rfl)
    cases worker with
    | faultDetection =>
      have hfirst := hnone .faultDetection rfl
      have hsecond := hnone .dataStore rfl
      simp only [MainPhase.weight]
      omega
    | dataStore =>
      have hsecond := hnone .dataStore rfl
      simp only [MainPhase.weight]
      omega
    | visualisation =>
      simp only [MainPhase.weight]
      omega
  | looping phase =>
    have hphase := workerWeight_le (some phase)
    simp only [workerWeight] at hphase
    simp only [MainPhase.weight]
    omega
  | constructing object => simp only [MainPhase.weight]; omega
  | hooking signum => simp only [MainPhase.weight]; omega
  | raising => simp only [MainPhase.weight]; omega
  | joining worker => cases worker <;> simp only [MainPhase.weight] <;> omega
  | restoring signum => cases signum <;> simp only [MainPhase.weight] <;> omega
  | destroying object => cases object <;> simp only [MainPhase.weight] <;> omega
  | ended => simp only [MainPhase.weight]; omega

/-- While the process lives, no thread is in a handler and none waits for the server, some thread
    can go on until `main` has returned: what a `join` waits for is a thread that can. -/
theorem progress (hr : s.Resources inherited) (ht : s.Threads) (hk : s.killed = false) (hm : s.main ≠ .ended)
    (hhandlers : ∀ thread, s.handling thread = []) (hserver : ∀ thread, s.phase thread ≠ some .waiting) :
    ∃ thread, (s.step (.next thread)).isSome = true := by
  have hgo : ∀ thread, (s.stepThread thread).isSome = true → (s.step (.next thread)).isSome = true := fun thread h => by
    simpa [step, hk, hm, hhandlers thread] using h
  have hmainStep : s.stepMain.isSome = true → ∃ thread, (s.step (.next thread)).isSome = true :=
    fun h => ⟨.main, hgo .main h⟩
  cases hmain : s.main with
  -- a thread that is joined was started, so it has ended or can go on
  | joining worker =>
    have hstarted : (s.workers worker).isSome = true := by
      rw [ht.started worker, hmain]
      rfl
    obtain ⟨phase, hw⟩ := Option.isSome_iff_exists.mp hstarted
    by_cases hended : phase = .ended
    · exact hmainStep (by simp [stepMain, hmain, hw, hended])
    · have hready : phase ≠ .waiting := by
        rintro rfl
        exact hserver (.worker worker) hw
      have hadvance := LoopPhase.advance_isSome s.gIsRunning hready hended
      exact ⟨.worker worker, hgo _ (by simpa [stepThread, stepWorker, hw] using hadvance)⟩
  | restoring signum =>
    have hsaved := hr.saved signum (by rw [hmain]; rfl)
    exact hmainStep (by simp [stepMain, hmain, hsaved])
  | looping phase =>
    by_cases hended : phase = .ended
    · exact hmainStep (by simp [stepMain, hmain, hended])
    · have hready : phase ≠ .waiting := by
        rintro rfl
        exact hserver .main (by simp [Program.phase, hmain])
      have hadvance := LoopPhase.advance_isSome s.gIsRunning hready hended
      exact hmainStep (by simpa [stepMain, hmain, hended] using hadvance)
  | constructing object => exact hmainStep (by simp [stepMain, hmain])
  | hooking signum => exact hmainStep (by simp [stepMain, hmain])
  | raising => exact hmainStep (by simp [stepMain, hmain])
  | starting worker => exact hmainStep (by simp [stepMain, hmain])
  | destroying object => exact hmainStep (by simp [stepMain, hmain])
  | ended => exact absurd hmain hm

/-! ### Main results -/

/-- A thread runs only while both objects are alive and both signals are caught, and the flag says
    whether the handler of a signal caught since it was raised has cleared it. -/
theorem threads_within_lifetime (inherited : Signal → Disposition) (ops : List ThreadOp) (s : Program)
    (hs : run step (start inherited) ops = some s) :
    (∀ worker phase, s.workers worker = some phase → phase ≠ .ended →
      (∀ object, s.alive object = true) ∧ (∀ signum, s.disposition signum = .sigintHandler)) ∧
      (s.gIsRunning = true ↔ s.main.raised = true ∧ s.cleared = []) ∧
      s.caught.Perm (s.cleared ++ s.openHandlers) ∧
      (s.main = .ended → (∀ worker, s.workers worker = some .ended) ∧ (∀ object, s.alive object = false) ∧
        s.disposition = inherited) := by
  have hr := resources_of_run hs
  have ht := threads_of_run hs
  refine ⟨fun worker phase hw hne => ?_, ht.flag, List.perm_iff_count.mpr fun signum => ?_, fun hended => ?_⟩
  · obtain ⟨hstarted, hjoined⟩ := ht.running hw hne
    refine ⟨fun object => ?_, fun signum => ?_⟩
    · rw [hr.alive, MainPhase.holds_of_started hstarted hjoined]
    · rw [hr.disposition, if_pos (MainPhase.hooked_of_started hstarted hjoined signum)]
  · rw [List.count_append]
    exact ht.accounted signum
  · refine ⟨fun worker => ht.joined worker ?_, fun object => ?_, funext fun signum => ?_⟩
    · rw [hended]
      rfl
    · rw [hr.alive, hended]
      rfl
    · rw [hr.disposition, hended]
      rfl

/-- A signal interrupts fault detection in its iteration, and is being logged. -/
def signalInIteration : List ThreadOp :=
  .replicate 8 (.next .main) ++ [.next (.worker .faultDetection), .signal .int (.worker .faultDetection)]

theorem threads_within_lifetime_detecting :
    ∃ s, run step (start fun _ => .terminate) signalInIteration = some s ∧
      s.workers .faultDetection = some .body ∧ s.gIsRunning = true ∧ s.caught = [.int] ∧
      ((∀ worker phase, s.workers worker = some phase → phase ≠ .ended →
        (∀ object, s.alive object = true) ∧ (∀ signum, s.disposition signum = .sigintHandler)) ∧
        (s.gIsRunning = true ↔ s.main.raised = true ∧ s.cleared = []) ∧
        s.caught.Perm (s.cleared ++ s.openHandlers) ∧
        (s.main = .ended → (∀ worker, s.workers worker = some .ended) ∧ (∀ object, s.alive object = false) ∧
          s.disposition = fun _ => .terminate)) :=
  ⟨_, rfl, rfl, rfl, rfl, threads_within_lifetime _ signalInIteration _ rfl⟩

/-- A signal that comes before the flag is raised is caught, and lost. -/
theorem signal_lost :
    ∃ s, run step (start fun _ => .terminate) (.replicate 3 (.next .main) ++
        [.signal .int .main, .handled .main, .next .main, .next .main]) = some s ∧
      s.killed = false ∧ s.gIsRunning = true := ⟨_, rfl, rfl, rfl⟩

/-- Once a handler has cleared the flag, no thread begins another iteration and the threads have no more
    than sixteen steps left between them; and until `main` has returned one of them can take its next
    one, unless a handler has not returned or a thread waits for an answer of the server. -/
theorem shutdown_terminates (inherited : Signal → Disposition) (ops ops' : List ThreadOp) (s t : Program)
    (hs : run step (start inherited) ops = some s) (hraised : s.main.raised = true) (hcleared : s.cleared ≠ [])
    (ht : run step s ops' = some t) :
    t.iterations = s.iterations ∧ ops'.countP ThreadOp.isNext ≤ 16 ∧
      (t.main ≠ .ended → t.killed = false → (∀ thread, t.handling thread = []) →
        (∀ thread, t.phase thread ≠ some .waiting) → ∃ thread, (t.step (.next thread)).isSome = true) := by
  have hflag : s.gIsRunning = false := by
    by_contra h
    exact hcleared ((threads_of_run hs).flag.mp (by simpa using h)).2
  have hstop : s.Stopping := ⟨threads_of_run hs, hraised, hflag⟩
  have hsame : t.Stopping ∧ t.iterations = s.iterations :=
    run_preserves (I := fun u => u.Stopping ∧ u.iterations = s.iterations)
      (fun u _ v hu hv => ⟨(hu.1.step hv).1, (hu.1.step hv).2.2.trans hu.2⟩) ⟨hstop, rfl⟩ ht
  refine ⟨hsame.2, ?_, fun hended hk hhandlers hserver => ?_⟩
  · have hcount := run_countP_le (I := Stopping) ThreadOp.isNext weight
      (fun u _ v hu hv => (hu.step hv).1) (fun u _ v hu hv => (hu.step hv).2.1) ops' s t hstop ht
    have hbound := weight_le hstop.threads
    omega
  · have hrun : run step (start inherited) (ops ++ ops') = some t := by
      rw [run_append, hs]
      exact ht
    exact progress (resources_of_run hrun) hsame.1.threads hk hended hhandlers hserver

/-- Fault detection waits for the server when SIGHUP comes. -/
def signalInRequest : List ThreadOp :=
  .replicate 8 (.next .main) ++ [.next (.worker .faultDetection), .request (.worker .faultDetection),
    .signal .hup (.worker .dataStore), .handled (.worker .dataStore)]

/-- All threads end, and `main` goes on to its last step. -/
def lastSteps : List ThreadOp :=
  [.answer (.worker .faultDetection), .next (.worker .faultDetection), .next (.worker .faultDetection),
    .next (.worker .dataStore), .next (.worker .visualisation)] ++ .replicate 8 (.next .main)

theorem shutdown_terminates_hup :
    ∃ s t, run step (start fun _ => .terminate) signalInRequest = some s ∧ run step s lastSteps = some t ∧
      t.main = .destroying .dataStore ∧ t.iterations = s.iterations ∧
      ∃ thread, (t.step (.next thread)).isSome = true :=
  have h := shutdown_terminates (fun _ => .terminate) signalInRequest lastSteps _ _ rfl rfl
    (List.cons_ne_nil Signal.hup []) rfl
  ⟨_, _, rfl, rfl, rfl, h.1, h.2.2 nofun rfl (fun thread => match thread with
    | .main | .worker .faultDetection | .worker .dataStore | .worker .visualisation => rfl)
    (fun thread => match thread with
    | .main | .worker .faultDetection | .worker .dataStore | .worker .visualisation => nofun)⟩

end Program
end StreamFdl
