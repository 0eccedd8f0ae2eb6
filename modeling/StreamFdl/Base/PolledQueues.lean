import Mathlib.Data.List.Basic
import Mathlib.Data.List.Infix
import Mathlib.Logic.Function.Basic

/- Queues of messages, one for each kind, and a loop that polls them in a fixed
   order, again and again: it takes the next message of a kind if there is one,
   and goes on without waiting if there is none. Messages may arrive between any
   two steps of the loop.

   The queues are not the loop's own. `Mailbox` is what is done to them, over
   whatever state they have, and `InOrder` what the loop relies on: of each kind,
   the message received is the one that was sent first.

   `Kept` says that then nothing is lost, doubled or overtaken within its kind,
   and `served` how long a message can have to wait: one pass of the loop for
   itself and for each message of its kind before it, whatever arrives of other
   kinds. -/
namespace PolledQueues

variable {Q K M : Type} [DecidableEq K]

/-- A message is sent, and one of a kind is asked for, which there may not be. -/
structure Mailbox (Q K M : Type) where
  send : Q → M → Q
  receive : Q → K → Option M × Q

/-- What is relied on; `waiting` are the messages of each kind that were sent and not received yet. -/
structure Mailbox.InOrder (mailbox : Mailbox Q K M) (kind : M → K) (waiting : Q → K → List M) : Prop where
  kind_eq : ∀ q k, ∀ m ∈ waiting q k, kind m = k
  send : ∀ q m, waiting (mailbox.send q m) = Function.update (waiting q) (kind m) (waiting q (kind m) ++ [m])
  received : ∀ q k, (mailbox.receive q k).1 = (waiting q k).head?
  left : ∀ q k, waiting (mailbox.receive q k).2 = Function.update (waiting q) k (waiting q k).tail

structure Poller (Q K M : Type) where
  queues : Q
  /-- The kinds that the running pass has still to poll. -/
  todo : List K
  /-- The messages taken so far. -/
  taken : List M

inductive Event (M : Type) where
  | post (m : M)
  /-- The next step of the loop: it polls the next kind, or begins the next pass. -/
  | poll

namespace Poller

/-- A pass begins. -/
def new (queues : Q) : Poller Q K M := ⟨queues, [], []⟩

variable (mailbox : Mailbox Q K M)

def post (s : Poller Q K M) (m : M) : Poller Q K M := { s with queues := mailbox.send s.queues m }

def poll (order : List K) (s : Poller Q K M) : Poller Q K M :=
  match s.todo with
  | [] => { s with todo := order }
  | k :: ks =>
    let r := mailbox.receive s.queues k
    ⟨r.2, ks, s.taken ++ r.1.toList⟩

/-- The message that the next step of the loop takes. -/
def next (s : Poller Q K M) : Option M := s.todo.head?.bind fun k => (mailbox.receive s.queues k).1

def step (order : List K) (s : Poller Q K M) : Event M → Poller Q K M
  | .post m => s.post mailbox m
  | .poll => s.poll mailbox order

variable {mailbox} {kind : M → K} {waiting : Q → K → List M} {order : List K} {s : Poller Q K M} {k : K} {m : M}

omit [DecidableEq K] in
theorem poll_taken (s : Poller Q K M) : (s.poll mailbox order).taken = s.taken ++ (s.next mailbox).toList := by
  unfold poll next
  split
  · next h => simp [h]
  · next h => simp [h]

/-! Order. -/

/-- Kind by kind, what was taken and what waits is what waited at first and what was posted, in order. -/
structure Kept (kind : M → K) (waiting : Q → K → List M) (first : K → List M) (posted : List M)
    (s : Poller Q K M) : Prop where
  order : ∀ k, (s.taken.filter fun m => kind m = k) ++ waiting s.queues k =
    first k ++ posted.filter fun m => kind m = k

theorem kept_new (queues : Q) : Kept kind waiting (waiting queues) [] (new queues : Poller Q K M) :=
  ⟨fun _ => (List.append_nil _).symm⟩

section Kept
variable (inOrder : mailbox.InOrder kind waiting) {first : K → List M} {posted : List M}
include inOrder

theorem Kept.post (h : s.Kept kind waiting first posted) (m : M) :
    (s.post mailbox m).Kept kind waiting first (posted ++ [m]) := by
  refine ⟨fun k => ?_⟩
  show _ ++ waiting (mailbox.send s.queues m) k = _
  rw [List.filter_append, ← List.append_assoc, ← h.order k, List.append_assoc, inOrder.send]
  by_cases hk : kind m = k
  · subst hk
    simp [Poller.post]
  · simp [Poller.post, hk, Function.update_of_ne (Ne.symm hk)]

theorem Kept.poll (h : s.Kept kind waiting first posted) : (s.poll mailbox order).Kept kind waiting first posted := by
  unfold Poller.poll
  split
  · exact ⟨h.order⟩
  · next j js htodo =>
    refine ⟨fun k => ?_⟩
    show (List.filter _ (s.taken ++ (mailbox.receive s.queues j).1.toList)) ++
      waiting (mailbox.receive s.queues j).2 k = _
    rw [← h.order k, List.filter_append, List.append_assoc, inOrder.received, inOrder.left]
    apply congrArg
    cases hbox : waiting s.queues j with
    | nil =>
      by_cases hk : k = j
      · subst hk
        simp [hbox]
      · simp [Function.update_of_ne hk]
    | cons m rest =>
      have hkind : kind m = j := inOrder.kind_eq s.queues j m (by rw [hbox]; exact List.mem_cons_self)
      by_cases hk : k = j
      · subst hk
        simp [hbox, hkind]
      · simp [Function.update_of_ne hk, hkind, Ne.symm hk]

theorem Kept.step (h : s.Kept kind waiting first posted) (e : Event M) :
    (s.step mailbox order e).Kept kind waiting first (posted ++ match e with | .post m => [m] | .poll => []) := by
  cases e with
  | post m => exact h.post inOrder m
  | poll =>
    rw [List.append_nil]
    exact h.poll inOrder

end Kept

/-! Delay. -/

/-- How many steps of the loop it takes until the kind has been polled. -/
def turn (order : List K) (k : K) : List K → Nat
  | [] => 1 + (order.idxOf k + 1)
  | j :: js => if j = k then 1 else 1 + turn order k js

theorem turn_of_not_mem {todo : List K} (h : k ∉ todo) :
    turn order k todo = todo.length + (order.idxOf k + 2) := by
  induction todo with
  | nil => simp [turn]; omega
  | cons j js ih =>
    obtain ⟨hj, hjs⟩ := not_or.mp (List.mem_cons.not.mp h)
    rw [turn, if_neg (Ne.symm hj), ih hjs, List.length_cons]
    omega

theorem turn_first {todo : List K} (h : k ∈ todo) : turn order k todo = todo.idxOf k + 1 := by
  induction todo with
  | nil => cases h
  | cons j js ih =>
    unfold turn
    by_cases hj : j = k
    · simp [hj]
    · rw [if_neg hj, ih ((List.mem_cons.mp h).resolve_left (Ne.symm hj)), List.idxOf_cons_ne _ hj]
      omega

/-- A pass polls every kind once, so a turn comes within one pass of the loop. -/
theorem turn_le {todo : List K} (h : todo <:+ order) (hk : k ∈ order) :
    turn order k todo ≤ order.length + 1 := by
  by_cases hmem : k ∈ todo
  · have hidx := List.idxOf_lt_length_of_mem hmem
    have hlen := h.length_le
    rw [turn_first hmem]
    omega
  · obtain ⟨before, rfl⟩ := h
    have hbefore : k ∈ before := (List.mem_append.mp hk).resolve_right hmem
    have hidx := List.idxOf_lt_length_of_mem hbefore
    rw [turn_of_not_mem hmem, List.idxOf_append_of_mem hbefore, List.length_append]
    omega

/-- The loop is somewhere in a pass. -/
def InPass (order : List K) (s : Poller Q K M) : Prop := s.todo <:+ order

omit [DecidableEq K] in
theorem InPass.rest {j : K} {js : List K} (h : s.InPass order) (htodo : s.todo = j :: js) : js <:+ order := by
  unfold InPass at h
  rw [htodo] at h
  exact (List.suffix_cons j js).trans h

omit [DecidableEq K] in
theorem InPass.step (h : s.InPass order) (e : Event M) : (s.step mailbox order e).InPass order := by
  cases e with
  | post m => exact h
  | poll =>
    show (s.poll mailbox order).todo <:+ order
    unfold Poller.poll
    split
    · exact List.suffix_rfl
    · next htodo => exact h.rest htodo

/-- How many steps of the loop it takes at most until the message after `before` others is taken. -/
def wait (order : List K) (s : Poller Q K M) (k : K) (before : List M) : Nat :=
  turn order k s.todo + before.length * (order.length + 1)

theorem wait_le (h : s.InPass order) (hk : k ∈ order) (before : List M) :
    s.wait order k before ≤ (before.length + 1) * (order.length + 1) := by
  have := turn_le h hk
  rw [wait, Nat.add_mul, Nat.one_mul]
  omega

/-- What one event does to a message that waits: it is taken, or it waits on, after those of the ones
    before it that were not taken either, and a step of the loop brings it closer. -/
theorem wait_step (inOrder : mailbox.InOrder kind waiting) {before rest : List M}
    (hbox : waiting s.queues k = before ++ m :: rest) (h : s.InPass order) (hk : k ∈ order) (e : Event M) :
    ∃ new, (s.step mailbox order e).taken = s.taken ++ new ∧
      (before = [] ∧ new = [m] ∨
      ∃ before' rest', before = (new.filter fun m => kind m = k) ++ before' ∧
        waiting (s.step mailbox order e).queues k = before' ++ m :: rest' ∧
        (s.step mailbox order e).wait order k before' + (match e with | .poll => 1 | .post _ => 0) ≤
          s.wait order k before) := by
  cases e with
  | post m' =>
    have hsend : waiting (s.step mailbox order (.post m')).queues =
        Function.update (waiting s.queues) (kind m') (waiting s.queues (kind m') ++ [m']) := inOrder.send s.queues m'
    refine ⟨[], (List.append_nil _).symm, Or.inr ?_⟩
    rw [hsend]
    by_cases hm' : kind m' = k
    · refine ⟨before, rest ++ [m'], rfl, ?_, le_of_eq rfl⟩
      simp [hm', hbox]
    · exact ⟨before, rest, rfl, by rw [Function.update_of_ne (Ne.symm hm'), hbox], le_of_eq rfl⟩
  | poll =>
    cases htodo : s.todo with
    | nil =>
      -- the next pass begins
      refine ⟨[], by simp [Poller.step, Poller.poll, htodo], Or.inr ⟨before, rest, rfl, ?_, ?_⟩⟩
      · simpa [Poller.step, Poller.poll, htodo] using hbox
      · simp only [wait, Poller.step, Poller.poll, htodo, turn_first hk, turn]
        omega
    | cons j js =>
      have hstep : s.step mailbox order .poll =
          ⟨(mailbox.receive s.queues j).2, js, s.taken ++ (mailbox.receive s.queues j).1.toList⟩ := by
        simp only [Poller.step, Poller.poll, htodo]
      have hleft : waiting (s.step mailbox order .poll).queues =
          Function.update (waiting s.queues) j (waiting s.queues j).tail := by
        rw [hstep]
        exact inOrder.left s.queues j
      have htaken : (s.step mailbox order .poll).taken = s.taken ++ (waiting s.queues j).head?.toList := by
        rw [hstep, inOrder.received]
      refine ⟨_, htaken, ?_⟩
      -- the queue of the message is polled, or another one, which brings its turn closer
      by_cases hj : j = k
      · subst hj
        cases before with
        | nil => exact Or.inl ⟨rfl, by simp [hbox]⟩
        | cons b before =>
          have hb : kind b = j := inOrder.kind_eq s.queues j b (by rw [hbox]; exact List.mem_cons_self)
          refine Or.inr ⟨before, rest, by simp [hbox, hb], by simp [hleft, hbox], ?_⟩
          have hle : turn order j js ≤ order.length + 1 := turn_le (h.rest htodo) hk
          simp only [wait, hstep, htodo, turn, List.length_cons, Nat.add_mul]
          simp only [↓reduceIte]
          omega
      · have hother : ((waiting s.queues j).head?.toList.filter fun m => kind m = k) = [] := by
          apply List.filter_eq_nil_iff.mpr
          intro m' hm'
          have hkind := inOrder.kind_eq s.queues j m' (List.mem_of_head? (Option.mem_toList.mp hm'))
          simpa [hkind] using hj
        refine Or.inr ⟨before, rest, by rw [hother]; rfl, by rw [hleft, Function.update_of_ne (Ne.symm hj), hbox], ?_⟩
        simp only [wait, hstep, htodo, turn, if_neg hj]
        omega

/-! Runs. -/

def run (mailbox : Mailbox Q K M) (order : List K) (s : Poller Q K M) (events : List (Event M)) : Poller Q K M :=
  events.foldl (step mailbox order) s

def posted (events : List (Event M)) : List M :=
  events.filterMap fun
    | .post m => some m
    | .poll => none

/-- The steps of the loop. -/
def polls : List (Event M) → Nat
  | [] => 0
  | .post _ :: events => polls events
  | .poll :: events => polls events + 1

omit [DecidableEq K] in
/-- What was taken stays taken. -/
theorem taken_run (mailbox : Mailbox Q K M) (order : List K) (s : Poller Q K M) (events : List (Event M)) :
    ∃ more, (s.run mailbox order events).taken = s.taken ++ more := by
  induction events generalizing s with
  | nil => exact ⟨[], (List.append_nil _).symm⟩
  | cons e events ih =>
    obtain ⟨more, hmore⟩ := ih (s.step mailbox order e)
    cases e with
    | post m => exact ⟨more, hmore⟩
    | poll =>
      refine ⟨(s.next mailbox).toList ++ more, hmore.trans ?_⟩
      show (s.poll mailbox order).taken ++ more = _
      rw [poll_taken, List.append_assoc]

theorem Kept.run (inOrder : mailbox.InOrder kind waiting) {first : K → List M} {before : List M}
    (h : s.Kept kind waiting first before) (events : List (Event M)) :
    (s.run mailbox order events).Kept kind waiting first (before ++ posted events) := by
  induction events generalizing s before with
  | nil => exact (List.append_nil before).symm ▸ h
  | cons e events ih =>
    show (Poller.run mailbox order (s.step mailbox order e) events).Kept kind waiting first
      (before ++ posted (e :: events))
    have hrest := ih (show (s.step mailbox order e).Kept kind waiting first _ from h.step inOrder e)
    cases e with
    | post m => simpa [posted] using hrest
    | poll => simpa [posted] using hrest

omit [DecidableEq K] in
theorem InPass.run (h : s.InPass order) (events : List (Event M)) : (s.run mailbox order events).InPass order := by
  induction events generalizing s with
  | nil => exact h
  | cons e events ih => exact ih (h.step e)

/-- Once the loop has made as many steps as a message may have to wait, it is taken, after all those of
    its kind that were before it. -/
theorem served (inOrder : mailbox.InOrder kind waiting) {before rest : List M}
    (hbox : waiting s.queues k = before ++ m :: rest) (h : s.InPass order) (hk : k ∈ order)
    {events : List (Event M)} (hpolls : s.wait order k before ≤ polls events) :
    ∃ more, (s.run mailbox order events).taken = s.taken ++ more ∧
      before ++ [m] <+: more.filter fun m => kind m = k := by
  induction events generalizing s before rest with
  | nil =>
    have hpos : 0 < turn order k s.todo := by
      cases s.todo with
      | nil => unfold turn; omega
      | cons j js => unfold turn; split <;> omega
    simp only [polls, wait] at hpolls
    omega
  | cons e events ih =>
    obtain ⟨new, htaken, ⟨rfl, rfl⟩ | ⟨before', rest', rfl, hbox', hwait⟩⟩ := wait_step inOrder hbox h hk e
    · obtain ⟨more, hmore⟩ := taken_run mailbox order (s.step mailbox order e) events
      refine ⟨m :: more, hmore.trans (by rw [htaken, List.append_assoc]; rfl), ?_⟩
      have hm : kind m = k := inOrder.kind_eq s.queues k m (by rw [hbox]; exact List.mem_cons_self)
      rw [List.filter_cons_of_pos (by simpa using hm)]
      exact ⟨_, rfl⟩
    · have hpolls' : (s.step mailbox order e).wait order k before' ≤ polls events := by
        cases e with
        | post m' => simp only [polls] at hpolls hwait; omega
        | poll => simp only [polls] at hpolls hwait; omega
      obtain ⟨more, hmore, hprefix⟩ := ih hbox' (h.step e) hpolls'
      refine ⟨new ++ more, hmore.trans (by rw [htaken, List.append_assoc]), ?_⟩
      rw [List.filter_append, List.append_assoc]
      exact (List.prefix_append_right_inj _).mpr hprefix

end Poller

/-! One list for all kinds, of which the first message of the kind asked for is received. -/

def Mailbox.list (kind : M → K) : Mailbox (List M) K M where
  send := fun messages m => messages ++ [m]
  receive := fun messages k => (messages.find? fun m => kind m = k, messages.eraseP fun m => kind m = k)

theorem filter_eraseP (kind : M → K) (messages : List M) (k k' : K) :
    (messages.eraseP fun m => kind m = k).filter (fun m => kind m = k') =
      if k' = k then (messages.filter fun m => kind m = k).tail else messages.filter fun m => kind m = k' := by
  induction messages with
  | nil => simp
  | cons m rest ih =>
    by_cases hm : kind m = k
    · by_cases hk : k' = k
      · subst hk
        simp [hm]
      · have hm' : kind m ≠ k' := fun h => hk (h.symm.trans hm)
        rw [List.eraseP_cons_of_pos (by simpa using hm), if_neg hk, List.filter_cons_of_neg (by simpa using hm')]
    · rw [List.eraseP_cons_of_neg (by simpa using hm), List.filter_cons, List.filter_cons, List.filter_cons, ih]
      by_cases hk : k' = k
      · subst hk
        simp [hm]
      · simp [hk]

theorem Mailbox.list_inOrder (kind : M → K) :
    (Mailbox.list kind).InOrder kind fun messages k => messages.filter fun m => kind m = k where
  kind_eq := fun _ _ m hm => by simpa using (List.mem_filter.mp hm).2
  send := fun messages m => by
    funext k
    by_cases hk : k = kind m
    · subst hk
      simp [Mailbox.list]
    · simp [Mailbox.list, Function.update_of_ne hk, Ne.symm hk]
  received := fun messages k => by simp [Mailbox.list, List.head?_filter]
  left := fun messages k => by
    funext k'
    show (messages.eraseP fun m => kind m = k).filter (fun m => kind m = k') = _
    rw [filter_eraseP]
    by_cases hk : k' = k
    · subst hk
      simp
    · simp [hk]

end PolledQueues
