import Mathlib.Data.List.Chain
import Mathlib.Data.String.Basic

/- The first part of `DataStore::getFullGraphView`: the query response comes as
   numbered packages of text, and is put together from them.

   The loop asserts that the numbers increase and stops at the first package that
   reaches the total it states. Nothing compares a number with the one before it
   plus one, or a total with the totals before it, so what is accepted is only
   complete when the totals are the number of packages that were read. -/
namespace StreamFdl

inductive ResponseType where
  | NUMERICAL
  | TEXTUAL
  deriving DecidableEq, Repr

/-- A `sharedMem::Response`, of which only the textual part is read here. -/
structure Package where
  type : ResponseType
  number : Nat
  total : Nat
  line : String
  deriving DecidableEq, Repr

/-- How the loop goes: an assertion fails, it waits for another package, or it is over. -/
inductive Reception where
  | failed
  | waiting
  | over (queryResponseString : String)
  deriving DecidableEq, Repr

/-- The loop that puts the response together, from any state on. -/
def receive : Nat → String → List Package → Reception
  | _, _, [] => .waiting
  | previousNumber, queryResponseString, response :: responses =>
    if response.type = .TEXTUAL ∧ previousNumber < response.number then
      let queryResponseString := queryResponseString ++ response.line
      if response.number < response.total then receive response.number queryResponseString responses
      else .over queryResponseString
    else .failed

def reassemble (received : List Package) : Reception := receive 0 "" received

namespace Package

/-- The packages up to the first one that reaches its total. -/
def upToTotal : List Package → List Package
  | [] => []
  | response :: responses =>
    response :: if response.number < response.total then upToTotal responses else []

/-- The packages are 1, 2, ... up to a common total. -/
structure Complete (packages : List Package) : Prop where
  numbers : packages.map Package.number = List.range' 1 packages.length
  totals : ∀ p ∈ packages, p.total = packages.length

/-- What the assertions of the loop and its condition ask of the packages. -/
structure Guarded (previousNumber : Nat) (received : List Package) : Prop where
  textual : ∀ p ∈ upToTotal received, p.type = .TEXTUAL
  increasing : (previousNumber :: (upToTotal received).map Package.number).IsChain (· < ·)
  reached : ∃ p ∈ received, p.total ≤ p.number

/-- Only a complete response is accepted. -/
def AcceptsComplete (received : List Package) : Prop :=
  ∀ queryResponseString, reassemble received = .over queryResponseString →
    Complete (upToTotal received) ∧ queryResponseString = String.join ((upToTotal received).map Package.line)

variable {previousNumber : Nat} {response : Package} {responses : List Package}

/-! What the loop accepts. -/

theorem upToTotal_cons_of_lt (h : response.number < response.total) :
    upToTotal (response :: responses) = response :: upToTotal responses := by
  rw [upToTotal, if_pos h]

theorem upToTotal_cons_of_le (h : response.total ≤ response.number) :
    upToTotal (response :: responses) = [response] := by
  rw [upToTotal, if_neg (Nat.not_lt.mpr h)]

theorem guarded_cons_of_lt (h : response.number < response.total) :
    Guarded previousNumber (response :: responses) ↔
      (response.type = .TEXTUAL ∧ previousNumber < response.number) ∧ Guarded response.number responses := by
  constructor
  · intro ⟨htextual, hincreasing, p, hp, hreached⟩
    rw [upToTotal_cons_of_lt h] at htextual hincreasing
    obtain ⟨hfirst, hrest⟩ := List.forall_mem_cons.mp htextual
    obtain ⟨hlt, hchain⟩ := List.isChain_cons_cons.mp hincreasing
    refine ⟨⟨hfirst, hlt⟩, hrest, hchain, p, ?_, hreached⟩
    obtain rfl | hp := List.mem_cons.mp hp
    · omega
    · exact hp
  · intro ⟨⟨hfirst, hlt⟩, htextual, hincreasing, p, hp, hreached⟩
    refine ⟨?_, ?_, p, List.mem_cons_of_mem _ hp, hreached⟩
    · rw [upToTotal_cons_of_lt h]
      exact List.forall_mem_cons.mpr ⟨hfirst, htextual⟩
    · rw [upToTotal_cons_of_lt h]
      exact List.isChain_cons_cons.mpr ⟨hlt, hincreasing⟩

theorem guarded_cons_of_le (h : response.total ≤ response.number) :
    Guarded previousNumber (response :: responses) ↔
      response.type = .TEXTUAL ∧ previousNumber < response.number := by
  constructor
  · intro ⟨htextual, hincreasing, _⟩
    rw [upToTotal_cons_of_le h] at htextual hincreasing
    exact ⟨htextual _ (List.mem_singleton_self _), (List.isChain_cons_cons.mp hincreasing).1⟩
  · intro ⟨hfirst, hlt⟩
    refine ⟨?_, ?_, response, List.mem_cons_self, h⟩
    · rw [upToTotal_cons_of_le h]
      exact List.forall_mem_singleton.mpr hfirst
    · rw [upToTotal_cons_of_le h]
      exact List.isChain_cons_cons.mpr ⟨hlt, List.isChain_singleton _⟩

/-- The loop accepts what its guards ask for, and leaves the lines in their order. -/
theorem receive_eq_over_iff (received : List Package) (previousNumber : Nat) (before after : String) :
    receive previousNumber before received = .over after ↔ Guarded previousNumber received ∧
      after = ((upToTotal received).map Package.line).foldl (· ++ ·) before := by
  induction received generalizing previousNumber before with
  | nil =>
    refine ⟨fun h => ?_, fun ⟨⟨_, _, p, hp, _⟩, _⟩ => ?_⟩
    · cases h
    · cases hp
  | cons response responses ih =>
    rw [receive]
    by_cases hless : response.number < response.total
    · rw [guarded_cons_of_lt hless, upToTotal_cons_of_lt hless]
      by_cases hguard : response.type = .TEXTUAL ∧ previousNumber < response.number
      · rw [if_pos hguard, if_pos hless, ih, and_iff_right hguard]
        rfl
      · simp [hguard]
    · rw [guarded_cons_of_le (Nat.le_of_not_lt hless), upToTotal_cons_of_le (Nat.le_of_not_lt hless)]
      by_cases hguard : response.type = .TEXTUAL ∧ previousNumber < response.number
      · rw [if_pos hguard, if_neg hless, and_iff_right hguard, Reception.over.injEq, eq_comm]
        rfl
      · simp [hguard]

/-! Increasing numbers that are no larger than their count have no gap. -/

theorem add_length_le {a bound : Nat} {ns : List Nat} (h : (a :: ns).IsChain (· < ·)) (ha : a ≤ bound)
    (hbound : ∀ n ∈ ns, n ≤ bound) : a + ns.length ≤ bound := by
  induction ns generalizing a with
  | nil => exact ha
  | cons m ns ih =>
    obtain ⟨hlt, hchain⟩ := List.isChain_cons_cons.mp h
    obtain ⟨hm, hbound⟩ := List.forall_mem_cons.mp hbound
    have hle := ih hchain hm hbound
    rw [List.length_cons]
    omega

theorem eq_range' {a : Nat} {ns : List Nat} (h : (a :: ns).IsChain (· < ·))
    (hbound : ∀ n ∈ ns, n ≤ a + ns.length) : ns = List.range' (a + 1) ns.length := by
  induction ns generalizing a with
  | nil => rfl
  | cons m ns ih =>
    obtain ⟨hlt, hchain⟩ := List.isChain_cons_cons.mp h
    obtain ⟨hm, hrest⟩ := List.forall_mem_cons.mp hbound
    rw [List.length_cons] at hm hrest
    have hle := add_length_le hchain hm hrest
    have hnext : m = a + 1 := by omega
    subst hnext
    rw [List.length_cons, List.range'_succ, ← ih hchain]
    intro n hn
    have := hrest n hn
    omega

/-- What is accepted is complete when every package that is read states the count of them as its total,
    and none has a larger number. -/
theorem acceptsComplete_iff (received : List Package) : AcceptsComplete received ↔
    (Guarded 0 received → ∀ p ∈ upToTotal received,
      p.total = (upToTotal received).length ∧ p.number ≤ (upToTotal received).length) := by
  constructor
  · intro h hguarded p hp
    obtain ⟨hnumbers, htotals⟩ := (h _ ((receive_eq_over_iff received 0 "" _).mpr ⟨hguarded, rfl⟩)).1
    refine ⟨htotals p hp, ?_⟩
    have hin : p.number ∈ (upToTotal received).map Package.number := List.mem_map_of_mem hp
    rw [hnumbers, List.mem_range'_1] at hin
    omega
  · intro h queryResponseString hover
    obtain ⟨hguarded, htext⟩ := (receive_eq_over_iff received 0 "" _).mp hover
    have hcount := h hguarded
    refine ⟨⟨?_, fun p hp => (hcount p hp).1⟩, htext⟩
    have hrange := eq_range' hguarded.increasing (by
      intro n hn
      obtain ⟨p, hp, rfl⟩ := List.mem_map.mp hn
      rw [List.length_map, Nat.zero_add]
      exact (hcount p hp).2)
    rw [List.length_map] at hrange
    exact hrange

/-- A lost first package is not noticed. -/
theorem not_acceptsComplete_second : ¬ ∀ received, AcceptsComplete received := by
  intro h
  have hover : reassemble [⟨.TEXTUAL, 2, 2, "]"⟩] = .over "]" := by decide
  have hnumbers := (h _ _ hover).1.numbers
  exact absurd hnumbers (by decide)

end Package
end StreamFdl
