import StreamFdl.Base.Runs
import StreamFdl.Base.SlidingWindow
import StreamFdl.Members
import Mathlib.Analysis.Real.Sqrt

/- `CircularBuffer`, which fault detection and the abort criterion take their
   statistics from. An iterator into the buffer's vector is its offset; after a
   move the iterator of the source leads into the vector of the target, and
   `mCurrent = none` stands for that.

   `push` inserts in front of `mCurrent` and never overwrites. The iterator that
   `insert` returns leads to the new element, so it is never `end()`, and
   `mCurrent` stays at the beginning: the buffer holds every value pushed,
   newest first, and nothing leaves it when it is full. -/
namespace StreamFdl
open Runs SlidingWindow

structure CircularBuffer where
  mMaxSize : Nat
  mBuffer : List Rat
  mCurrent : Option Nat
  deriving DecidableEq, Repr

namespace CircularBuffer

/-- The constructor, with its assertion. -/
def construct (maxSize : Nat) : Option CircularBuffer :=
  if 2 ≤ maxSize then some ⟨maxSize, [], some 0⟩ else none

/-- The copy constructor and the copy assignment. -/
def copy (other : CircularBuffer) : Option CircularBuffer :=
  other.mCurrent.map fun offset => ⟨other.mMaxSize, other.mBuffer, some offset⟩

/-- The move constructor and the move assignment: the target, and what is left of the source. -/
def move (other : CircularBuffer) : CircularBuffer × CircularBuffer :=
  (⟨other.mMaxSize, other.mBuffer, other.mCurrent⟩, { other with mBuffer := [], mCurrent := none })

/-- The buffer after the push, and the iterator to the new element. -/
def push (b : CircularBuffer) (value : Rat) : Option (CircularBuffer × Nat) :=
  b.mCurrent.map fun current =>
    let mBuffer := b.mBuffer.insertIdx current value
    let it := current
    let mCurrent := if it = mBuffer.length ∧ mBuffer.length = b.mMaxSize then 0 else it
    ({ b with mBuffer := mBuffer, mCurrent := some mCurrent }, it)

/-- `*current()` -/
def current (b : CircularBuffer) : Option Rat := b.mCurrent.bind fun i => b.mBuffer[i]?

def size (b : CircularBuffer) : Nat := b.mBuffer.length

def full (b : CircularBuffer) : Bool := b.mBuffer.length == b.mMaxSize

def empty (b : CircularBuffer) : Bool := b.mBuffer.isEmpty

/-- No result when the assertion that the buffer is not empty fails. -/
def getMean (b : CircularBuffer) : Option Rat :=
  if 1 ≤ b.mBuffer.length then
    some (b.mBuffer.foldl (fun accumulator value => accumulator + value) 0 / b.mBuffer.length)
  else none

noncomputable def getStdDev (b : CircularBuffer) (mean : Rat) : Option Real :=
  if 1 ≤ b.mBuffer.length then
    some (Real.sqrt ((b.mBuffer.foldl
      (fun accumulator value => accumulator + (value - mean) * (value - mean)) 0 / b.mBuffer.length : Rat)))
  else none

variable {b : CircularBuffer}

theorem getMean_eq (h : b.mBuffer ≠ []) : b.getMean = some (mean b.mBuffer) := by
  have hlen : 1 ≤ b.mBuffer.length := List.length_pos_iff.mpr h
  rw [getMean, if_pos hlen, foldl_add_eq_sum (fun value => value), List.map_id', zero_add, mean]

theorem getStdDev_eq (h : b.mBuffer ≠ []) (m : Rat) :
    b.getStdDev m = some (Real.sqrt (meanSquare m b.mBuffer : Rat)) := by
  have hlen : 1 ≤ b.mBuffer.length := List.length_pos_iff.mpr h
  rw [getStdDev, if_pos hlen, foldl_add_eq_sum (fun value => (value - m) * (value - m)), zero_add,
    meanSquare, mean, List.length_map]

/-- What a buffer of this size owes after these pushes: the statistics and the newest value of
    the last `mMaxSize` of them. -/
structure IsWindow (b : CircularBuffer) (pushed : List Rat) : Prop where
  size : b.size = min pushed.length b.mMaxSize
  values : b.mBuffer.Perm (window b.mMaxSize pushed)
  current : ∀ x, pushed.getLast? = some x → b.current = some x
  full : b.full = true ↔ b.mMaxSize ≤ pushed.length
  mean : pushed ≠ [] → b.getMean = some (mean (window b.mMaxSize pushed))
  stdDev : pushed ≠ [] → ∃ m d, b.getMean = some m ∧ b.getStdDev m = some d ∧
    d ^ 2 = ((variance (window b.mMaxSize pushed) : Rat) : Real)

/-- What a buffer holds after these pushes: all of them, newest first. -/
structure Holds (b : CircularBuffer) (pushed : List Rat) : Prop where
  buffer : b.mBuffer = pushed.reverse
  current : b.mCurrent = some 0
  maxSize : 2 ≤ b.mMaxSize

variable {pushed : List Rat}

theorem holds_construct {maxSize : Nat} (h : construct maxSize = some b) : Holds b [] := by
  simp only [construct, Option.ite_none_right_eq_some, Option.some.injEq] at h
  obtain ⟨hle, rfl⟩ := h
  exact ⟨rfl, rfl, hle⟩

/-- The new element goes to the front and `mCurrent` stays there. -/
theorem Holds.push {r : CircularBuffer × Nat} {value : Rat} (h : Holds b pushed)
    (hs : b.push value = some r) : Holds r.1 (pushed ++ [value]) := by
  simp only [CircularBuffer.push, h.current, Option.map_some, Option.some.injEq] at hs
  subst hs
  refine ⟨?_, ?_, h.maxSize⟩
  · simp [h.buffer]
  · simp

theorem copy_eq (h : b.mCurrent ≠ none) : b.copy = some b := by
  obtain ⟨i, hi⟩ := Option.ne_none_iff_exists'.mp h
  simp only [copy, hi, Option.map_some]
  rw [← hi]

theorem copy_isSome {b' : CircularBuffer} (h : b.copy = some b') : b' = b ∧ b.mCurrent ≠ none := by
  have hcur : b.mCurrent ≠ none := fun h0 => by simp [copy, h0] at h
  rw [copy_eq hcur] at h
  exact ⟨(Option.some.inj h).symm, hcur⟩

theorem Holds.ne_nil (h : Holds b pushed) (hp : pushed ≠ []) : b.mBuffer ≠ [] := by
  rw [h.buffer]
  simpa using hp

/-- All values pushed are the last ones of the window as long as they fit. -/
theorem Holds.isWindow (h : Holds b pushed) (hle : pushed.length ≤ b.mMaxSize) : b.IsWindow pushed := by
  have hperm : b.mBuffer.Perm pushed := by
    rw [h.buffer]
    exact List.reverse_perm pushed
  have hlen : b.mBuffer.length = pushed.length := hperm.length_eq
  rw [← window_eq_self hle] at hperm
  refine ⟨?_, hperm, fun x hx => ?_, ?_, fun hp => ?_, fun hp => ?_⟩
  · rw [size, hlen]
    omega
  · rw [CircularBuffer.current, h.current, Option.bind_some, h.buffer, ← List.head?_eq_getElem?,
      List.head?_reverse, hx]
  · rw [CircularBuffer.full, beq_iff_eq, hlen]
    omega
  · rw [getMean_eq (h.ne_nil hp), mean_perm hperm]
  · refine ⟨_, _, getMean_eq (h.ne_nil hp), getStdDev_eq (h.ne_nil hp) _, ?_⟩
    rw [← mean_perm hperm.symm, meanSquare_perm _ hperm, mean_perm hperm.symm]
    rw [Real.sq_sqrt (Rat.cast_nonneg.mpr (meanSquare_nonneg _ _)), variance, mean_perm hperm]

/-- It is a window exactly as long as no value should have left it. -/
theorem Holds.isWindow_iff (h : Holds b pushed) : b.IsWindow pushed ↔ pushed.length ≤ b.mMaxSize := by
  refine ⟨fun hw => ?_, h.isWindow⟩
  have hsize := hw.size
  rw [size, h.buffer, List.length_reverse] at hsize
  omega

end CircularBuffer

/-! Buffers that are constructed, copied, moved and pushed to. -/

/-- A buffer, and the values pushed to it or to the buffer it was copied or moved from. -/
structure TrackedBuffer where
  buffer : CircularBuffer
  pushed : List Rat
  deriving DecidableEq, Repr

inductive BufferOp where
  | construct (maxSize : Nat)
  | push (i : Nat) (value : Rat)
  | copyConstruct (j : Nat)
  | moveConstruct (j : Nat)
  | copyAssign (i j : Nat)
  | moveAssign (i j : Nat)

def bufferStep (pool : List TrackedBuffer) : BufferOp → Option (List TrackedBuffer)
  | .construct maxSize => (CircularBuffer.construct maxSize).map fun b => pool ++ [⟨b, []⟩]
  | .push i value => pool[i]?.bind fun e => (e.buffer.push value).map fun r =>
    pool.set i ⟨r.1, e.pushed ++ [value]⟩
  | .copyConstruct j => pool[j]?.bind fun e => e.buffer.copy.map fun b => pool ++ [⟨b, e.pushed⟩]
  | .moveConstruct j => pool[j]?.map fun e =>
    pool.set j ⟨e.buffer.move.2, []⟩ ++ [⟨e.buffer.move.1, e.pushed⟩]
  | .copyAssign i j => pool[j]?.bind fun e =>
    if i < pool.length then e.buffer.copy.map fun b => pool.set i ⟨b, e.pushed⟩ else none
  -- a buffer moved to itself is left empty by the vector, its iterator leads nowhere
  | .moveAssign i j => pool[j]?.bind fun e =>
    if i < pool.length then
      let moved := pool.set j ⟨e.buffer.move.2, []⟩
      some (if i = j then moved else moved.set i ⟨e.buffer.move.1, e.pushed⟩)
    else none

/-- Every buffer that was not moved from holds what was pushed to it. -/
def PoolHolds (pool : List TrackedBuffer) : Prop :=
  ∀ e ∈ pool, e.buffer.mCurrent ≠ none → e.buffer.Holds e.pushed

theorem PoolHolds.append {pool : List TrackedBuffer} {e : TrackedBuffer} (h : PoolHolds pool)
    (he : e.buffer.mCurrent ≠ none → e.buffer.Holds e.pushed) : PoolHolds (pool ++ [e]) := by
  intro e' he'
  rcases List.mem_append.mp he' with he' | he'
  · exact h e' he'
  · rw [List.mem_singleton.mp he']
    exact he

theorem PoolHolds.set {pool : List TrackedBuffer} {i : Nat} {e : TrackedBuffer} (h : PoolHolds pool)
    (he : e.buffer.mCurrent ≠ none → e.buffer.Holds e.pushed) : PoolHolds (pool.set i e) := by
  intro e' he'
  rcases List.mem_or_eq_of_mem_set he' with he' | rfl
  · exact h e' he'
  · exact he

/-- A copy holds what the original does; what was moved from owes nothing any more. -/
theorem bufferStep_poolHolds (pool : List TrackedBuffer) (op : BufferOp) (pool' : List TrackedBuffer)
    (h : PoolHolds pool) (hs : bufferStep pool op = some pool') : PoolHolds pool' := by
  cases op with
  | construct maxSize =>
    obtain ⟨b, hb, rfl⟩ := Option.map_eq_some_iff.mp hs
    exact h.append fun _ => CircularBuffer.holds_construct hb
  | push i value =>
    obtain ⟨e, hi, hs⟩ := Option.bind_eq_some_iff.mp hs
    obtain ⟨r, hr, rfl⟩ := Option.map_eq_some_iff.mp hs
    have hcur : e.buffer.mCurrent ≠ none := fun h0 => by simp [CircularBuffer.push, h0] at hr
    exact h.set fun _ => (h e (List.mem_of_getElem? hi) hcur).push hr
  | copyConstruct j =>
    obtain ⟨e, hj, hs⟩ := Option.bind_eq_some_iff.mp hs
    obtain ⟨b, hb, rfl⟩ := Option.map_eq_some_iff.mp hs
    obtain ⟨rfl, _⟩ := CircularBuffer.copy_isSome hb
    exact h.append (h e (List.mem_of_getElem? hj))
  | moveConstruct j =>
    obtain ⟨e, hj, rfl⟩ := Option.map_eq_some_iff.mp hs
    refine PoolHolds.append (h.set fun hcur => absurd rfl hcur) ?_
    exact h e (List.mem_of_getElem? hj)
  | copyAssign i j =>
    obtain ⟨e, hj, hs⟩ := Option.bind_eq_some_iff.mp hs
    split at hs
    · obtain ⟨b, hb, rfl⟩ := Option.map_eq_some_iff.mp hs
      obtain ⟨rfl, _⟩ := CircularBuffer.copy_isSome hb
      exact h.set (h e (List.mem_of_getElem? hj))
    · cases hs
  | moveAssign i j =>
    obtain ⟨e, hj, hs⟩ := Option.bind_eq_some_iff.mp hs
    have hmoved : PoolHolds (pool.set j ⟨e.buffer.move.2, []⟩) := h.set fun hcur => absurd rfl hcur
    split at hs
    · cases hs
      split
      · exact hmoved
      · exact hmoved.set (h e (List.mem_of_getElem? hj))
    · cases hs

/-- After any constructions, pushes, copies and moves, a buffer that was not moved from is a
    sliding window of what was pushed to it exactly when that is no more than its size. -/
theorem circularBuffer_isWindow_iff (ops : List BufferOp) (pool : List TrackedBuffer)
    (reached : run bufferStep [] ops = some pool) (e : TrackedBuffer) (mem : e ∈ pool)
    (current : e.buffer.mCurrent ≠ none) :
    e.buffer.IsWindow e.pushed ↔ e.pushed.length ≤ e.buffer.mMaxSize :=
  (run_preserves (I := PoolHolds) bufferStep_poolHolds (by simp [PoolHolds]) reached e mem
    current).isWindow_iff

def pushCopyPush : List BufferOp :=
  [.construct 2, .push 0 1, .copyConstruct 0, .push 1 3]

/-- Two values fit into a buffer of size 2. -/
theorem circularBuffer_isWindow_pushCopyPush : CircularBuffer.IsWindow ⟨2, [3, 1], some 0⟩ [1, 3] :=
  (circularBuffer_isWindow_iff pushCopyPush [⟨⟨2, [1], some 0⟩, [1]⟩, ⟨⟨2, [3, 1], some 0⟩, [1, 3]⟩] rfl
    ⟨⟨2, [3, 1], some 0⟩, [1, 3]⟩ (List.mem_cons_of_mem _ List.mem_cons_self) (by decide)).mpr
    (by decide)

/-- The third value is added to a full buffer of size 2, and none is dropped. -/
theorem circularBuffer_not_isWindow_threePushes :
    run bufferStep [] [.construct 2, .push 0 1, .push 0 2, .push 0 3] =
      some [⟨⟨2, [3, 2, 1], some 0⟩, [1, 2, 3]⟩] ∧
    ¬ CircularBuffer.IsWindow ⟨2, [3, 2, 1], some 0⟩ [1, 2, 3] := by
  refine ⟨rfl, fun h => ?_⟩
  exact absurd h.size (by decide)

end StreamFdl
