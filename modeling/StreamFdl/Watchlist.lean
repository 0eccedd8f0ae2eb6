import StreamFdl.Base.Runs
import StreamFdl.Members
import Mathlib.Data.List.Nodup

/- `Watchlist`: the members fault detection looks at. `mMembers` is a `std::map`
   keyed by handles, and the comparison of handles is the one of their
   conversions to `bool`. The handles on the list are all valid, so the map takes
   them for one key and holds at most one of them (`Single`).

   What the watchlist asks of the data store is a parameter of each operation
   that asks: other threads change the store between two operations. -/
namespace StreamFdl
open Runs OrderedMap

/-- What the data store answers at one moment. -/
structure StoreView where
  checkTopicPrimaryIgnored : PrimaryKey → Bool
  get : MemberProxy → MemberPtr
  getNodeByName : String → MemberPtr
  /-- `getNode` and `getTopic` request what they do not find. -/
  get_valid : ∀ proxy, (get proxy).valid = true

/-- A store that answers `get` with the first element of the kind. -/
def StoreView.answering (ignored : PrimaryKey → Bool) (getNodeByName : String → MemberPtr) : StoreView where
  checkTopicPrimaryIgnored := ignored
  get := fun proxy => .make ⟨⟨proxy.mIsTopic, 0⟩, proxy.mIsTopic, proxy.mPrimaryKey⟩
  getNodeByName := getNodeByName
  get_valid := fun _ => rfl

inductive WatchlistMemberType where
  | TYPE_NORMAL
  | TYPE_INITIAL
  | TYPE_BLINDSPOT
  deriving DecidableEq, Repr

abbrev InternalMembers := OrderedMap MemberPtr WatchlistMemberType MemberPtr.lt

structure Watchlist where
  mInitialMemberNames : List String
  mMembers : InternalMembers

namespace Watchlist

/-- The constructor. -/
def new (initialMemberNames : List String) : Watchlist := ⟨initialMemberNames, .empty⟩

/-- The entry of a member; `none` for `mMembers.end()`. -/
def get (w : Watchlist) (member : PrimaryKey) : Option (MemberPtr × WatchlistMemberType) :=
  w.mMembers.entries.find? fun element => element.1.hasKey member

/-- `addMember`, given a proxy; no result when `assert(emplaced)` fails. -/
def addMember (w : Watchlist) (store : StoreView) (member : MemberProxy) (type : WatchlistMemberType) :
    Option Watchlist :=
  if member.mIsTopic && store.checkTopicPrimaryIgnored member.mPrimaryKey then some w
  else
    match w.mMembers.entries.find? (fun internalMember => internalMember.1.hasKey member.mPrimaryKey) with
    | none => some w
    | some _ =>
      let r := w.mMembers.emplace (store.get member) type
      if r.2 then some { w with mMembers := r.1 } else none

/-- `addMember`, given a handle. -/
def addMemberPtr (w : Watchlist) (member : MemberPtr) (type : WatchlistMemberType) : Option Watchlist :=
  match w.mMembers.entries.find? (fun internalMember => internalMember.1.eq member) with
  | none => some w
  | some _ =>
    let r := w.mMembers.emplace member type
    if r.2 then some { w with mMembers := r.1 } else none

/-- The loop of `tryInitialise`: the names left, and the members. -/
def initialiseFrom (store : StoreView) : List String → InternalMembers → List String × InternalMembers
  | [], members => ([], members)
  | name :: names, members =>
    let node := store.getNodeByName name
    if node.valid then initialiseFrom store names (members.emplace node .TYPE_INITIAL).1
    else
      let r := initialiseFrom store names members
      (name :: r.1, r.2)

def tryInitialise (w : Watchlist) (store : StoreView) : Watchlist :=
  let r := initialiseFrom store w.mInitialMemberNames w.mMembers
  ⟨r.1, r.2⟩

def getMembers (w : Watchlist) (store : StoreView) : Watchlist × List MemberPtr :=
  let w := w.tryInitialise store
  (w, w.mMembers.entries.map Prod.fst)

def contains (w : Watchlist) (member : PrimaryKey) : Bool := (w.get member).isSome

def reset (w : Watchlist) : Watchlist := { w with mMembers := .empty }

def notifyUsed (w : Watchlist) (member : PrimaryKey) : Watchlist × Bool :=
  match w.get member with
  | some (_, .TYPE_BLINDSPOT) =>
    ({ w with mMembers := w.mMembers.eraseFirst fun element => element.1.hasKey member }, true)
  | _ => (w, false)

/-! Runs. -/

inductive Op where
  | addMember (store : StoreView) (member : MemberProxy) (type : WatchlistMemberType)
  | addMemberPtr (member : MemberPtr) (type : WatchlistMemberType)
  | getMembers (store : StoreView)
  | contains (member : PrimaryKey)
  | reset
  | notifyUsed (member : PrimaryKey)

def step (w : Watchlist) : Op → Option Watchlist
  | .addMember store member type => w.addMember store member type
  | .addMemberPtr member type => w.addMemberPtr member type
  | .getMembers store => some (w.getMembers store).1
  | .contains _ => some w
  | .reset => some w.reset
  | .notifyUsed member => some (w.notifyUsed member).1

/-! The handles on the list. -/

/-- Every handle on the list is valid. -/
def AllValid (w : Watchlist) : Prop := ∀ e ∈ w.mMembers.entries, e.1.valid = true

variable {w w' : Watchlist}

/-- A list of valid handles holds at most one. -/
theorem AllValid.length_le_one (h : w.AllValid) : w.mMembers.entries.length ≤ 1 :=
  OrderedMap.length_le_one w.mMembers fun a ha _ _ => MemberPtr.not_lt_of_valid (h a ha)

theorem equiv_of_valid {p q : MemberPtr} (hp : p.valid = true) (hq : q.valid = true) :
    Equiv MemberPtr.lt p q := ⟨MemberPtr.not_lt_of_valid hp, MemberPtr.not_lt_of_valid hq⟩

/-- A valid handle is only added to an empty list. -/
theorem AllValid.emplace_added_iff {p : MemberPtr} {type : WatchlistMemberType} (h : w.AllValid)
    (hp : p.valid = true) : (w.mMembers.emplace p type).2 = true ↔ w.mMembers.entries = [] := by
  rw [OrderedMap.emplace_added_iff, List.eq_nil_iff_forall_not_mem]
  exact ⟨fun hne e he => hne e he (equiv_of_valid (h e he) hp), fun hnil e he => absurd he (hnil e)⟩

theorem allValid_new (names : List String) : (new names).AllValid := by simp [AllValid, new]

theorem initialiseFrom_valid {store : StoreView} {names : List String} {members : InternalMembers}
    (h : ∀ e ∈ members.entries, e.1.valid = true) :
    ∀ e ∈ (initialiseFrom store names members).2.entries, e.1.valid = true := by
  induction names generalizing members with
  | nil => exact h
  | cons name names ih =>
    simp only [initialiseFrom]
    split
    · next hvalid =>
      refine ih fun e he => ?_
      rcases OrderedMap.mem_emplace he with rfl | he
      · exact hvalid
      · exact h e he
    · exact ih h

/-- An entry found keeps the list from taking the member a second time. -/
theorem AllValid.addMember_eq (h : w.AllValid) (store : StoreView) (member : MemberProxy)
    (type : WatchlistMemberType) : w.addMember store member type =
      if (member.mIsTopic && store.checkTopicPrimaryIgnored member.mPrimaryKey) = true then some w
      else if w.contains member.mPrimaryKey = true then none else some w := by
  simp only [addMember, contains, get]
  split
  · rfl
  · rcases Option.eq_none_or_eq_some (w.mMembers.entries.find? fun e => e.1.hasKey member.mPrimaryKey)
      with hf | ⟨e, hf⟩
    · simp [hf]
    · have hne : ¬ (w.mMembers.emplace (store.get member) type).2 = true := by
        rw [h.emplace_added_iff (store.get_valid member)]
        exact List.ne_nil_of_mem (List.mem_of_find?_eq_some hf)
      simp [hf, hne]

theorem AllValid.addMemberPtr_eq (h : w.AllValid) {member : MemberPtr} (hm : member.valid = true)
    (type : WatchlistMemberType) : w.addMemberPtr member type =
      if w.mMembers.entries.any (fun e => e.1.eq member) = true then none else some w := by
  simp only [addMemberPtr]
  cases hf : w.mMembers.entries.find? (fun e => e.1.eq member) with
  | none =>
    have hany : w.mMembers.entries.any (fun e => e.1.eq member) = false := by
      rw [List.any_eq_false]
      exact List.find?_eq_none.mp hf
    simp [hany]
  | some e =>
    have hmem := List.mem_of_find?_eq_some hf
    have hany : w.mMembers.entries.any (fun e => e.1.eq member) = true :=
      List.any_eq_true.mpr ⟨e, hmem, by simpa using List.find?_some hf⟩
    have hne : ¬ (w.mMembers.emplace member type).2 = true := by
      rw [h.emplace_added_iff hm]
      exact List.ne_nil_of_mem hmem
    simp [hany, hne]

/-- A null handle is on no list of valid ones, so it is not added either. -/
theorem AllValid.addMemberPtr_null (h : w.AllValid) {member : MemberPtr} (hm : member.valid = false)
    (type : WatchlistMemberType) : w.addMemberPtr member type = some w := by
  have hf : w.mMembers.entries.find? (fun e => e.1.eq member) = none := by
    rw [List.find?_eq_none]
    intro e he heq
    have hv := h e he
    simp only [MemberPtr.valid, Option.isSome_iff_exists, Option.isSome_eq_false_iff,
      Option.isNone_iff_eq_none] at hv hm
    obtain ⟨m, hv⟩ := hv
    simp [MemberPtr.eq, hv, hm] at heq
  simp [addMemberPtr, hf]

/-- A call of `addMember` that returns has not changed the list. -/
theorem AllValid.addMember_same (h : w.AllValid) {store : StoreView} {member : MemberProxy}
    {type : WatchlistMemberType} (hs : w.addMember store member type = some w') : w' = w := by
  rw [h.addMember_eq] at hs
  split at hs
  · exact (Option.some.inj hs).symm
  · split at hs
    · cases hs
    · exact (Option.some.inj hs).symm

theorem AllValid.addMemberPtr_same (h : w.AllValid) {member : MemberPtr} {type : WatchlistMemberType}
    (hs : w.addMemberPtr member type = some w') : w' = w := by
  cases hm : member.valid with
  | false =>
    rw [h.addMemberPtr_null hm] at hs
    exact (Option.some.inj hs).symm
  | true =>
    rw [h.addMemberPtr_eq hm] at hs
    split at hs
    · cases hs
    · exact (Option.some.inj hs).symm

/-- No operation of the watchlist adds a null handle: `addMember` adds nothing at all. -/
theorem step_allValid (w : Watchlist) (op : Op) (w' : Watchlist) (h : w.AllValid)
    (hs : w.step op = some w') : w'.AllValid := by
  cases op with
  | addMember store member type =>
    simp only [step] at hs
    rw [h.addMember_eq] at hs
    split at hs
    · cases hs; exact h
    · split at hs
      · cases hs
      · cases hs; exact h
  | addMemberPtr member type =>
    simp only [step] at hs
    cases hm : member.valid with
    | true =>
      rw [h.addMemberPtr_eq hm] at hs
      split at hs
      · cases hs
      · cases hs; exact h
    | false =>
      rw [h.addMemberPtr_null hm] at hs
      cases hs
      exact h
  | getMembers store => cases hs; exact initialiseFrom_valid h
  | contains member => cases hs; exact h
  | reset => cases hs; simp [AllValid, reset]
  | notifyUsed member =>
    cases hs
    simp only [notifyUsed]
    split
    · exact fun e he => h e (List.eraseP_subset he)
    · exact h

/-! What adding a member owes. -/

def ignores (store : StoreView) (isTopic : Bool) (primary : PrimaryKey) : Bool :=
  isTopic && store.checkTopicPrimaryIgnored primary

/-- What the list after the call owes to a member, ignored or not, that was passed as a proxy
    or as a handle. -/
structure AddLaw (ignored asProxy : Bool) (primary : PrimaryKey) (w w' : Watchlist) : Prop where
  added : ignored = false → w'.contains primary = true
  kept : ∀ e ∈ w.mMembers.entries, e ∈ w'.mMembers.entries
  already : w.contains primary = true → w' = w
  ignored : asProxy = true → ignored = true → w' = w

/-- The call passes its assertion and keeps the law. -/
def Adds (ignored asProxy : Bool) (primary : PrimaryKey) (w : Watchlist) (r : Option Watchlist) : Prop :=
  ∃ w', r = some w' ∧ AddLaw ignored asProxy primary w w'

theorem adds_same_iff {ignored asProxy : Bool} {primary : PrimaryKey} :
    Adds ignored asProxy primary w (some w) ↔ ignored = true ∨ w.contains primary = true := by
  refine ⟨fun ⟨w', hw', h⟩ => ?_, fun h => ⟨w, rfl, ?_, fun _ he => he, fun _ => rfl, fun _ _ => rfl⟩⟩
  · cases hw'
    cases hi : ignored with
    | true => exact Or.inl rfl
    | false => exact Or.inr (h.added hi)
  · intro hi
    rcases h with h | h
    · rw [hi] at h; cases h
    · exact h

theorem not_adds_none {ignored asProxy : Bool} {primary : PrimaryKey} :
    ¬ Adds ignored asProxy primary w none := fun ⟨_, hw', _⟩ => by cases hw'

theorem AllValid.adds_proxy_iff (h : w.AllValid) (store : StoreView) (member : MemberProxy)
    (type : WatchlistMemberType) :
    Adds (ignores store member.mIsTopic member.mPrimaryKey) true member.mPrimaryKey w
      (w.addMember store member type) ↔ ignores store member.mIsTopic member.mPrimaryKey = true := by
  rw [h.addMember_eq]
  show Adds _ _ _ w (if ignores store member.mIsTopic member.mPrimaryKey = true then _ else _) ↔ _
  by_cases hi : ignores store member.mIsTopic member.mPrimaryKey = true
  · rw [if_pos hi, adds_same_iff]
    exact ⟨fun _ => hi, fun _ => Or.inl hi⟩
  · rw [if_neg hi]
    by_cases hc : w.contains member.mPrimaryKey = true
    · rw [if_pos hc]
      exact iff_of_false not_adds_none hi
    · rw [if_neg hc, adds_same_iff]
      exact ⟨fun h => h.elim id (fun h => absurd h hc), Or.inl⟩

theorem AllValid.adds_handle_iff (h : w.AllValid) (ignored : Bool) {member : MemberPtr}
    (hm : member.valid = true) (primary : PrimaryKey) (type : WatchlistMemberType) :
    Adds ignored false primary w (w.addMemberPtr member type) ↔
      w.mMembers.entries.any (fun e => e.1.eq member) = false ∧
        (ignored = true ∨ w.contains primary = true) := by
  rw [h.addMemberPtr_eq hm]
  cases hany : w.mMembers.entries.any (fun e => e.1.eq member) with
  | true => exact iff_of_false not_adds_none (by simp)
  | false => simp only [Bool.false_eq_true, if_false, adds_same_iff, true_and]

end Watchlist

/-- In every reachable state, `addMember` keeps the law of a proxy exactly when that is an ignored
    topic, and of a handle exactly when the handle is not on the list and its member is an ignored
    topic or has its key on the list. -/
theorem watchlist_adds_iff (names : List String) (ops : List Watchlist.Op) (w : Watchlist)
    (reached : run Watchlist.step (.new names) ops = some w) :
    (∀ (store : StoreView) (member : MemberProxy) (type : WatchlistMemberType),
      Watchlist.Adds (Watchlist.ignores store member.mIsTopic member.mPrimaryKey) true
          member.mPrimaryKey w (w.addMember store member type) ↔
        Watchlist.ignores store member.mIsTopic member.mPrimaryKey = true) ∧
    ∀ (store : StoreView) (member : MemberPtr) (m : Member) (type : WatchlistMemberType),
      member.mpMember = some m →
      (Watchlist.Adds (Watchlist.ignores store m.mIsTopic m.mPrimaryKey) false
          m.mPrimaryKey w (w.addMemberPtr member type) ↔
        w.mMembers.entries.any (fun e => e.1.eq member) = false ∧
          (Watchlist.ignores store m.mIsTopic m.mPrimaryKey = true ∨ w.contains m.mPrimaryKey = true)) := by
  have h : w.AllValid := run_preserves Watchlist.step_allValid (Watchlist.allValid_new names) reached
  refine ⟨h.adds_proxy_iff, fun store member m type hm => ?_⟩
  exact h.adds_handle_iff _ (by simp [MemberPtr.valid, hm]) _ type

/-- A store that ignores the topic "r" and resolves every name to a node with that key. -/
def exampleStore : StoreView := .answering (fun primary => primary == "r") fun name => .make ⟨⟨false, 0⟩, false, name⟩

/-- The node of the initial member "a" is on the list; the ignored topic and another element of
    the node's key can be passed. -/
theorem watchlist_adds_ignored :
    Watchlist.Adds true true "r" ((Watchlist.new ["a"]).getMembers exampleStore).1
      (((Watchlist.new ["a"]).getMembers exampleStore).1.addMember exampleStore ⟨"r", true⟩ .TYPE_NORMAL) ∧
    Watchlist.Adds false false "a" ((Watchlist.new ["a"]).getMembers exampleStore).1
      (((Watchlist.new ["a"]).getMembers exampleStore).1.addMemberPtr
        (.make ⟨⟨false, 1⟩, false, "a"⟩) .TYPE_NORMAL) :=
  have h := watchlist_adds_iff ["a"] [.getMembers exampleStore] _ rfl
  ⟨(h.1 exampleStore ⟨"r", true⟩ .TYPE_NORMAL).mpr rfl,
    (h.2 exampleStore (.make ⟨⟨false, 1⟩, false, "a"⟩) ⟨⟨false, 1⟩, false, "a"⟩ .TYPE_NORMAL rfl).mpr
      ⟨by decide, Or.inr (by decide)⟩⟩

/-- A node that is not on the list is not added. -/
theorem watchlist_not_adds_node :
    ¬ Watchlist.Adds (Watchlist.ignores exampleStore false "n") true "n" (.new [])
      ((Watchlist.new []).addMember exampleStore ⟨"n", false⟩ .TYPE_NORMAL) := by
  intro ⟨w', hw', h⟩
  cases hw'
  exact absurd (h.added rfl) (by decide)

end StreamFdl
