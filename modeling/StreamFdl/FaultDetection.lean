import StreamFdl.CircularBuffer
import StreamFdl.Watchlist

/- `FaultDetection`: in every round the attributes of the watched members are
   pushed to their windows, and each member whose window is full is checked.

   A round is a function of the windows and of what the round meets: the
   watchlist and the data store it asks, and the attributes it reads. Whether a
   member is checked depends on `full()`, which compares the size of a buffer
   with its maximum; since a buffer never drops a value, its size passes the
   maximum in the round after it has reached it. -/
namespace StreamFdl
open Runs OrderedMap SlidingWindow

abbrev AttributeMapping := OrderedMap String Rat (· < ·)
abbrev AttributeWindow := OrderedMap String CircularBuffer (· < ·)
abbrev MemberWindow := OrderedMap MemberPtr AttributeWindow MemberPtr.lt

inductive Severity where
  | SEVERITY_NORMAL
  deriving DecidableEq, Repr

structure Alert where
  member : MemberPtr
  affectedAttributes : List String
  timestamp : Timestamp
  severity : Severity

structure FaultDetection where
  mAlerts : List Alert
  mMovingWindow : MemberWindow
  cmMovingWindowSize : Nat

/-- What one round meets. -/
structure RoundInput where
  watchlist : Watchlist
  store : StoreView
  getAttributes : Member → AttributeMapping
  mAlive : Member → Bool
  now : Timestamp

/-- A member handed to `detectFaults`, with its window. -/
abbrev DetectCall := MemberPtr × AttributeWindow

namespace FaultDetection

def new (movingWindowSize : Nat) : FaultDetection := ⟨[], .empty, movingWindowSize⟩

/-- The loop of `createAttrWindow`. -/
def createFrom (size : Nat) : List (String × Rat) → AttributeWindow → Option AttributeWindow
  | [], attrWindow => some attrWindow
  | (descriptor, attributes) :: rest, attrWindow => do
    let rawAttributes ← CircularBuffer.construct size
    let (rawAttributes, _) ← rawAttributes.push attributes
    createFrom size rest (attrWindow.emplace descriptor rawAttributes.move.1).1

def createAttrWindow (fd : FaultDetection) (attributeMapping : AttributeMapping) : Option AttributeWindow :=
  createFrom fd.cmMovingWindowSize attributeMapping.entries .empty

/-- The loop of `updateAttrWindow`; `at` throws for a descriptor without a buffer. -/
def updateFrom : List (String × Rat) → AttributeWindow → Option AttributeWindow
  | [], window => some window
  | (descriptor, attributes) :: rest, window => do
    let e ← window.find? descriptor
    let (buffer, _) ← e.2.push attributes
    updateFrom rest (window.mapValues fun d b => if d = descriptor then buffer else b)

def updateAttrWindow (window : AttributeWindow) (attributeMapping : AttributeMapping) :
    Option AttributeWindow := updateFrom attributeMapping.entries window

/-- The first loop of a round, over the members on the watchlist. -/
def updateMembers (fd : FaultDetection) (getAttributes : Member → AttributeMapping) :
    List MemberPtr → MemberWindow → Option MemberWindow
  | [], mMovingWindow => some mMovingWindow
  | member :: rest, mMovingWindow => do
    let m ← member.mpMember
    let attributes := getAttributes m
    match mMovingWindow.find? member with
    | none => do
      let window ← fd.createAttrWindow attributes
      updateMembers fd getAttributes rest (mMovingWindow.emplace member window).1
    | some it => do
      let window ← updateAttrWindow it.2 attributes
      updateMembers fd getAttributes rest
        (mMovingWindow.mapValues fun k w => if Equiv MemberPtr.lt k member then window else w)

/-- The second loop of a round, over the windows: the windows kept, the watchlist after the
    notifications, and the calls of `detectFaults`. -/
def detectFrom : List (MemberPtr × AttributeWindow) → MemberWindow → Watchlist →
    Option (MemberWindow × Watchlist × List DetectCall)
  | [], mMovingWindow, watchlist => some (mMovingWindow, watchlist, [])
  | (memberPtr, attributeWindow) :: rest, mMovingWindow, watchlist => do
    let first ← attributeWindow.entries.head?
    if first.2.full then do
      let m ← memberPtr.mpMember
      let (watchlist, used) := watchlist.notifyUsed m.mPrimaryKey
      let mMovingWindow := if used then
          mMovingWindow.eraseFirst fun e => decide (Equiv MemberPtr.lt e.1 memberPtr)
        else mMovingWindow
      let r ← detectFrom rest mMovingWindow watchlist
      pure (r.1, r.2.1, (memberPtr, attributeWindow) :: r.2.2)
    else detectFrom rest mMovingWindow watchlist

/-- The current value lies more than three standard deviations from the mean. -/
def Deviates (buffer : CircularBuffer) : Prop :=
  ∃ mean stdDev currentValue, buffer.getMean = some mean ∧ buffer.getStdDev mean = some stdDev ∧
    buffer.current = some currentValue ∧
    ((mean : Real) - 3 * stdDev > currentValue ∨ (mean : Real) + 3 * stdDev < currentValue)

open Classical in
/-- The alert, if there is a fault. -/
noncomputable def detectFaults (input : RoundInput) (call : DetectCall) : Option Alert :=
  let alert (affected : List String) : Alert := ⟨call.1, affected, input.now, .SEVERITY_NORMAL⟩
  if call.1.mpMember.any (fun m => !m.mIsTopic && !input.mAlive m) then some (alert [])
  else
    let affected := (call.2.entries.filter fun e => !e.2.empty && decide (Deviates e.2)).map Prod.fst
    if affected = [] then none else some (alert affected)

/-- One iteration of `run`, and its calls of `detectFaults`. -/
noncomputable def round (fd : FaultDetection) (input : RoundInput) :
    Option (FaultDetection × Watchlist × List DetectCall) := do
  let (watchlist, currentWatchlistMembers) := input.watchlist.getMembers input.store
  let mMovingWindow ← fd.updateMembers input.getAttributes currentWatchlistMembers fd.mMovingWindow
  let r ← detectFrom mMovingWindow.entries mMovingWindow watchlist
  pure ({ fd with
    mMovingWindow := r.1, mAlerts := fd.mAlerts ++ r.2.2.filterMap (detectFaults input) }, r.2)

/-- A round of a run, which keeps the calls of the last round. -/
noncomputable def step (s : FaultDetection × List DetectCall) (input : RoundInput) :
    Option (FaultDetection × List DetectCall) :=
  (s.1.round input).map fun r => (r.1, r.2.2)

end FaultDetection

end StreamFdl
