import StreamFdl.Members
import Mathlib.Data.Int.Init

/- `DataStore::tryMakeIpcClient`: the attempts to connect to the IPC server. The
   constructor of the client is not part of the repository; here it is what it
   gives at each attempt, a client or (`none`) an `IpcException`.

   The counter starts one below the configured number of attempts, is decremented
   before it is compared with zero, and is compared for equality. A budget of
   two or more attempts loses one, and a budget of one is never used up. -/
namespace StreamFdl

/-- The entries of the configuration that are read. -/
structure IpcConfig where
  projectId : Int
  retryConnection : Bool
  retryAttempts : Int
  retryTimeout : Nat
  deriving DecidableEq, Repr

/-- A run that is over: the client that is returned, or `none` for `std::exit(1)`, the attempts made, and
    the milliseconds slept between them. -/
structure IpcRun (Client : Type) where
  client : Option Client
  attempts : Nat
  slept : Nat
  deriving DecidableEq, Repr

variable {Client : Type}

/-- `--nrRetries` on a `ssize_t`, which must not overflow. -/
def decrement (nrRetries : Int) : Option Int :=
  if nrRetries = -0x8000000000000000 then none else some (nrRetries - 1)

/-- The loop of attempts, with fuel. -/
def retryFrom (attempt : Nat → Option Client) (timeout : Nat) : Nat → Nat → Nat → Int → Option (IpcRun Client)
  | 0, _, _, _ => none
  | n+1, attempts, slept, nrRetries =>
    match attempt attempts with
    | some client => some ⟨some client, attempts + 1, slept⟩
    | none => (decrement nrRetries).bind fun nrRetries =>
      if nrRetries = 0 then some ⟨none, attempts + 1, slept⟩
      else retryFrom attempt timeout n (attempts + 1) (slept + timeout) nrRetries

def tryMakeIpcClient (ipcClient : Int → Nat → Option Client) (fuel : Nat) (config : IpcConfig) :
    Option (IpcRun Client) :=
  if config.retryConnection then
    (decrement config.retryAttempts).bind fun nrRetries =>
      retryFrom (ipcClient config.projectId) config.retryTimeout fuel 0 0 nrRetries
  else some ⟨ipcClient config.projectId 0, 1, 0⟩

/-- The function comes to an end like this. -/
def Ends (ipcClient : Int → Nat → Option Client) (config : IpcConfig) (run : IpcRun Client) : Prop :=
  ∃ fuel, tryMakeIpcClient ipcClient fuel config = some run

/-- The first client among the first `retryAttempts` attempts is returned. If there is none, exactly that
    many are made. -/
structure HonoursBudget (ipcClient : Int → Nat → Option Client) (config : IpcConfig) : Prop where
  returns : ∀ (k : Nat) client, k < config.retryAttempts → (∀ j < k, ipcClient config.projectId j = none) →
    ipcClient config.projectId k = some client →
    ∃ run, Ends ipcClient config run ∧ run.client = some client ∧ run.attempts = k + 1
  exits : (∀ k : Nat, k < config.retryAttempts → ipcClient config.projectId k = none) →
    ∃ run, Ends ipcClient config run ∧ run.client = none ∧ run.attempts = config.retryAttempts

variable {attempt : Nat → Option Client} {timeout : Nat}

/-! One attempt. -/

theorem decrement_of_nonneg {nrRetries : Int} (h : 0 ≤ nrRetries) :
    decrement nrRetries = some (nrRetries - 1) := by
  unfold decrement
  rw [if_neg]
  omega

theorem retryFrom_client {attempts : Nat} {client : Client} (h : attempt attempts = some client)
    (n slept : Nat) (nrRetries : Int) : retryFrom attempt timeout (n + 1) attempts slept nrRetries =
      some ⟨some client, attempts + 1, slept⟩ := by
  unfold retryFrom
  rw [h]

theorem retryFrom_failed {attempts : Nat} {nrRetries : Int} (h : attempt attempts = none) (hleft : 1 < nrRetries)
    (n slept : Nat) : retryFrom attempt timeout (n + 1) attempts slept nrRetries =
      retryFrom attempt timeout n (attempts + 1) (slept + timeout) (nrRetries - 1) := by
  have hne : ¬ nrRetries - 1 = 0 := by omega
  rw [retryFrom, h]
  simp only [decrement_of_nonneg (Int.le_of_lt (Int.lt_trans Int.zero_lt_one hleft)), Option.bind_some]
  rw [if_neg hne]

theorem retryFrom_last {attempts : Nat} (h : attempt attempts = none) (n slept : Nat) :
    retryFrom attempt timeout (n + 1) attempts slept 1 = some ⟨none, attempts + 1, slept⟩ := by
  unfold retryFrom
  rw [h]
  rfl

/-! The loop. -/

/-- More fuel changes nothing. -/
theorem retryFrom_mono {n attempts slept : Nat} {nrRetries : Int} {run : IpcRun Client}
    (h : retryFrom attempt timeout n attempts slept nrRetries = some run) (m : Nat) :
    retryFrom attempt timeout (n + m) attempts slept nrRetries = some run := by
  induction n generalizing attempts slept nrRetries with
  | zero => cases h
  | succ n ih =>
    rw [Nat.succ_add]
    unfold retryFrom at h ⊢
    cases hattempt : attempt attempts with
    | some client =>
      rw [hattempt] at h
      exact h
    | none =>
      rw [hattempt] at h
      obtain ⟨left, hleft, hrun⟩ := Option.bind_eq_some_iff.mp h
      simp only [hleft, Option.bind_some]
      split at hrun
      · next hzero => rwa [if_pos hzero]
      · next hne =>
        rw [if_neg hne]
        exact ih hrun

theorem Ends.unique {ipcClient : Int → Nat → Option Client} {config : IpcConfig} {run run' : IpcRun Client}
    (h : Ends ipcClient config run) (h' : Ends ipcClient config run') : run = run' := by
  obtain ⟨n, h⟩ := h
  obtain ⟨m, h'⟩ := h'
  unfold tryMakeIpcClient at h h'
  split at h
  · next hretry =>
    rw [if_pos hretry] at h'
    obtain ⟨nrRetries, hdec, h⟩ := Option.bind_eq_some_iff.mp h
    rw [hdec, Option.bind_some] at h'
    have hm := retryFrom_mono h m
    have hn := retryFrom_mono h' n
    rw [Nat.add_comm, hm, Option.some.injEq] at hn
    exact hn
  · next hretry =>
    rw [if_neg hretry] at h'
    exact Option.some.inj (h.symm.trans h')

theorem fails_succ {k attempts : Nat} (h : ∀ j < k + 1, attempt (attempts + j) = none) :
    attempt attempts = none ∧ ∀ j < k, attempt (attempts + 1 + j) = none := by
  refine ⟨h 0 (Nat.zero_lt_succ k), fun j hj => ?_⟩
  have hnext := h (j + 1) (Nat.succ_lt_succ hj)
  rwa [show attempts + (j + 1) = attempts + 1 + j by omega] at hnext

theorem sleep_succ (slept k : Nat) : slept + (k + 1) * timeout = slept + timeout + k * timeout := by
  rw [Nat.succ_mul, Nat.add_comm (k * timeout), Nat.add_assoc]

/-- A client is returned when there are fewer failures before it than the counter says, or none. -/
theorem retryFrom_returns {k : Nat} {client : Client} {attempts : Nat} {nrRetries : Int}
    (hfail : ∀ j < k, attempt (attempts + j) = none) (hclient : attempt (attempts + k) = some client)
    (hbudget : k = 0 ∨ k < nrRetries) (slept : Nat) :
    retryFrom attempt timeout (k + 1) attempts slept nrRetries =
      some ⟨some client, attempts + k + 1, slept + k * timeout⟩ := by
  induction k generalizing attempts slept nrRetries with
  | zero =>
    rw [retryFrom_client (show attempt attempts = some client from hclient), Nat.zero_mul]
    rfl
  | succ k ih =>
    obtain ⟨hself, hnext⟩ := fails_succ hfail
    have hleft : 1 < nrRetries := by omega
    rw [show attempts + (k + 1) = attempts + 1 + k by omega] at hclient ⊢
    rw [retryFrom_failed hself hleft, ih hnext hclient (Or.inr (by omega)), sleep_succ]

/-- A counter above zero is the number of failures it takes to exit. -/
theorem retryFrom_exits {m attempts : Nat} (hfail : ∀ j < m + 1, attempt (attempts + j) = none) (slept : Nat) :
    retryFrom attempt timeout (m + 1) attempts slept (m + 1 : Nat) =
      some ⟨none, attempts + m + 1, slept + m * timeout⟩ := by
  induction m generalizing attempts slept with
  | zero =>
    show retryFrom attempt timeout 1 attempts slept 1 = _
    rw [retryFrom_last (fails_succ hfail).1, Nat.zero_mul]
    rfl
  | succ m ih =>
    obtain ⟨hself, hnext⟩ := fails_succ hfail
    have hcounter : ((m + 1 + 1 : Nat) : Int) - 1 = (m + 1 : Nat) := by omega
    rw [show attempts + (m + 1) = attempts + 1 + m by omega]
    rw [retryFrom_failed hself (by omega), hcounter, ih hnext, sleep_succ]

/-- A counter that is not above zero is not zero after a failure: the loop never exits. -/
theorem retryFrom_no_exit {n attempts slept : Nat} {nrRetries : Int} {run : IpcRun Client} (hle : nrRetries ≤ 0)
    (h : retryFrom attempt timeout n attempts slept nrRetries = some run) : run.client ≠ none := by
  induction n generalizing attempts slept nrRetries with
  | zero => cases h
  | succ n ih =>
    unfold retryFrom at h
    cases hattempt : attempt attempts with
    | some client =>
      rw [hattempt] at h
      cases h
      exact Option.some_ne_none client
    | none =>
      rw [hattempt] at h
      obtain ⟨left, hleft, hrun⟩ := Option.bind_eq_some_iff.mp h
      have hdec : left = nrRetries - 1 := by
        unfold decrement at hleft
        split at hleft
        · cases hleft
        · exact (Option.some.inj hleft).symm
      have hne : ¬ left = 0 := by omega
      rw [if_neg hne] at hrun
      exact ih (by omega) hrun

/-! The budget. -/

variable {ipcClient : Int → Nat → Option Client} {config : IpcConfig}

theorem ends_of_retryFrom {n : Nat} {run : IpcRun Client} (retry : config.retryConnection = true)
    (positive : 1 ≤ config.retryAttempts) (h : retryFrom (ipcClient config.projectId) config.retryTimeout n 0 0
      (config.retryAttempts - 1) = some run) : Ends ipcClient config run := by
  refine ⟨n, ?_⟩
  unfold tryMakeIpcClient
  rw [if_pos retry, decrement_of_nonneg (by omega)]
  exact h

/-- The client of an attempt within the budget less one, or of the first one, is returned. -/
theorem ends_returned {k : Nat} {client : Client} (retry : config.retryConnection = true)
    (positive : 1 ≤ config.retryAttempts) (hfail : ∀ j < k, ipcClient config.projectId j = none)
    (hclient : ipcClient config.projectId k = some client) (hk : k = 0 ∨ k < config.retryAttempts - 1) :
    Ends ipcClient config ⟨some client, k + 1, k * config.retryTimeout⟩ := by
  apply ends_of_retryFrom retry positive
  have hfirst : ∀ j < k, ipcClient config.projectId (0 + j) = none := by
    intro j hj
    rw [Nat.zero_add]
    exact hfail j hj
  rw [← Nat.zero_add k] at hclient
  rw [retryFrom_returns hfirst hclient hk, Nat.zero_add, Nat.zero_add]

/-- Failures within the budget less one exit. -/
theorem ends_exited {m : Nat} (retry : config.retryConnection = true) (hm : config.retryAttempts = (m + 2 : Nat))
    (hfail : ∀ j < m + 1, ipcClient config.projectId j = none) :
    Ends ipcClient config ⟨none, m + 1, m * config.retryTimeout⟩ := by
  apply ends_of_retryFrom retry (by omega)
  have hfirst : ∀ j < m + 1, ipcClient config.projectId (0 + j) = none := by
    intro j hj
    rw [Nat.zero_add]
    exact hfail j hj
  have hcounter : config.retryAttempts - 1 = (m + 1 : Nat) := by omega
  rw [hcounter, retryFrom_exits hfirst, Nat.zero_add, Nat.zero_add]

/-- A budget of a single attempt has no end but a client. -/
theorem Ends.client_ne_none {run : IpcRun Client} (h : Ends ipcClient config run)
    (retry : config.retryConnection = true) (single : config.retryAttempts = 1) : run.client ≠ none := by
  obtain ⟨n, h⟩ := h
  unfold tryMakeIpcClient at h
  rw [if_pos retry, single, decrement_of_nonneg (by decide)] at h
  exact retryFrom_no_exit (by decide) h

/-- A budget of a single attempt is only honoured by a client. -/
theorem HonoursBudget.first (h : HonoursBudget ipcClient config) (retry : config.retryConnection = true)
    (single : config.retryAttempts = 1) : ipcClient config.projectId 0 ≠ none := by
  intro hfail
  obtain ⟨run, hrun, hclient, _⟩ := h.exits fun k hk => by
    rw [show k = 0 by omega]
    exact hfail
  exact hrun.client_ne_none retry single hclient

/-- The last attempt of a longer budget is not made. -/
theorem HonoursBudget.before_last {m : Nat} (h : HonoursBudget ipcClient config)
    (retry : config.retryConnection = true) (hm : config.retryAttempts = (m + 2 : Nat)) :
    ∃ k < m + 1, ipcClient config.projectId k ≠ none := by
  by_contra hnone
  have hfail : ∀ k < m + 1, ipcClient config.projectId k = none := by
    intro k hk
    by_contra hne
    exact hnone ⟨k, hk, hne⟩
  have hexit := ends_exited retry hm hfail
  cases hlast : ipcClient config.projectId (m + 1) with
  -- its client is not waited for
  | some client =>
    obtain ⟨run, hrun, hclient, _⟩ := h.returns (m + 1) client (by omega) hfail hlast
    rw [← hexit.unique hrun] at hclient
    cases hclient
  -- its failure is not waited for
  | none =>
    have hall : ∀ k : Nat, k < config.retryAttempts → ipcClient config.projectId k = none := by
      intro k hk
      by_cases hk' : k = m + 1
      · rw [hk', hlast]
      · exact hfail k (by omega)
    obtain ⟨run, hrun, _, hattempts⟩ := h.exits hall
    rw [← hexit.unique hrun, hm] at hattempts
    simp only at hattempts
    omega

/-- The budget is honoured when a client comes before the last attempt of it, or at the first one. -/
theorem honoursBudget_iff (ipcClient : Int → Nat → Option Client) (config : IpcConfig)
    (retry : config.retryConnection = true) (positive : 1 ≤ config.retryAttempts) :
    HonoursBudget ipcClient config ↔
      ∃ k : Nat, k < max 1 (config.retryAttempts - 1) ∧ ipcClient config.projectId k ≠ none := by
  constructor
  · intro h
    by_cases hsingle : config.retryAttempts = 1
    · exact ⟨0, by omega, h.first retry hsingle⟩
    · have hm : config.retryAttempts = ((config.retryAttempts - 2).toNat + 2 : Nat) := by omega
      obtain ⟨k, hk, hclient⟩ := h.before_last retry hm
      exact ⟨k, by omega, hclient⟩
  · intro ⟨k₁, hk₁, hne⟩
    refine ⟨fun k client _ hfail hclient => ?_, fun hfail => ?_⟩
    · have hle : k ≤ k₁ := by
        by_contra hlt
        exact hne (hfail k₁ (Nat.lt_of_not_le hlt))
      exact ⟨_, ends_returned retry positive hfail hclient (by omega), rfl, rfl⟩
    · exact absurd (hfail k₁ (by omega)) hne

/-- Of three attempts the second one succeeds. -/
theorem honoursBudget_second :
    HonoursBudget (fun _ k => if k = 1 then some () else none) ⟨0, true, 3, 1000⟩ :=
  (honoursBudget_iff _ ⟨0, true, 3, 1000⟩ rfl (by decide)).mpr ⟨1, by decide, by decide⟩

/-- Of five attempts the last one would succeed; the function exits after four. -/
theorem not_honoursBudget_fifth : ¬ ∀ (ipcClient : Int → Nat → Option Unit) (config : IpcConfig),
    config.retryConnection = true → 1 ≤ config.retryAttempts → HonoursBudget ipcClient config := by
  intro h
  have hbudget := h (fun _ k => if k = 4 then some () else none) ⟨0, true, 5, 1000⟩ rfl (by decide)
  have hexit : Ends (fun _ k => if k = 4 then some () else none) ⟨0, true, 5, 1000⟩
      (⟨none, 4, 3000⟩ : IpcRun Unit) := ⟨4, by decide⟩
  obtain ⟨run, hrun, hclient, _⟩ := hbudget.returns 4 () (by decide) (by decide) rfl
  rw [← hexit.unique hrun] at hclient
  cases hclient

end StreamFdl
