import StreamFdl.Base.OrderedMap
import Mathlib.Data.Rat.Defs
import Mathlib.Data.String.Basic

/- The monitored members as the data store keeps them (`member-base`, `members`,
   `atomic-counter`): nodes and topics with their attributes and their relations
   to other members, the update messages that extend the relations, and the
   use-counted handles to them.

   The messages and responses come from the IPC library, which is not part of
   the repository; they are records of the fields the code reads. Strings stand
   for the fixed-size character arrays after `util::parseString`. Values are
   rationals: every finite `double` is one. A `Member` here is what a pointer to
   a `Member` object is used for: which object it is (`Ref`), and the two fields
   of it that never change. -/
namespace StreamFdl

abbrev PrimaryKey := String
abbrev RequestId := Nat
abbrev Timestamp := Int

structure MemberProxy where
  mPrimaryKey : PrimaryKey
  mIsTopic : Bool
  deriving DecidableEq, Repr

abbrev MemberProxies := List MemberProxy

/-- `operator==`: proxies are compared by primary key only. -/
def MemberProxy.eq (p q : MemberProxy) : Bool := p.mPrimaryKey == q.mPrimaryKey

@[simp] theorem MemberProxy.eq_iff (p q : MemberProxy) :
    p.eq q = true ↔ p.mPrimaryKey = q.mPrimaryKey := by
  simp [MemberProxy.eq]

structure Attribute where
  name : String
  requestId : RequestId
  lastValue : Rat
  deriving DecidableEq, Repr

/-! Messages. -/

inductive State where
  | ACTIVE
  | inactive (code : Nat)
  deriving DecidableEq, Repr

structure NodeResponse where
  primaryKey : PrimaryKey
  name : String
  pkgName : String
  state : State
  stateChangeTime : Timestamp
  bootCount : Nat
  pid : Int

structure TopicResponse where
  primaryKey : PrimaryKey
  name : String
  type : String

/-- The update messages about one node; the overloads of `Node::update`. -/
inductive NodeUpdate where
  | publishersTo (primaryKey publishesTo : PrimaryKey)
  | subscribersTo (primaryKey subscribesTo : PrimaryKey)
  | isServerFor (primaryKey : PrimaryKey) (srvName : String) (clientNodeId : PrimaryKey)
  | isClientOf (primaryKey : PrimaryKey) (srvName : String) (serverNodeId : PrimaryKey)
  | isActionServerFor (primaryKey : PrimaryKey) (srvName : String) (actionclientNodeId : PrimaryKey)
  | isActionClientOf (primaryKey : PrimaryKey) (srvName : String) (actionserverNodeId : PrimaryKey)
  | state (primaryKey : PrimaryKey) (state : State) (stateChangeTime : Timestamp)

def NodeUpdate.primaryKey : NodeUpdate → PrimaryKey
  | publishersTo k _ | subscribersTo k _ | isServerFor k _ _ | isClientOf k _ _
  | isActionServerFor k _ _ | isActionClientOf k _ _ | state k _ _ => k

/-- The update messages about one topic; the overloads of `Topic::update`. -/
inductive TopicUpdate where
  | publishers (primaryKey edge publisher : PrimaryKey)
  | subscribers (primaryKey edge subscriber : PrimaryKey)

def TopicUpdate.primaryKey : TopicUpdate → PrimaryKey
  | publishers k _ _ | subscribers k _ _ => k

inductive Update where
  | node (u : NodeUpdate)
  | topic (u : TopicUpdate)

def Update.isTopic : Update → Bool
  | node _ => false
  | topic _ => true

def Update.primaryKey : Update → PrimaryKey
  | node u => u.primaryKey
  | topic u => u.primaryKey

/-! Nodes and topics. -/

abbrev ServiceMapping := OrderedMap String MemberProxy (· < ·)
abbrev ClientMapping := OrderedMap String MemberProxies (· < ·)

structure Node where
  mPrimaryKey : PrimaryKey
  mmAttributes : List Attribute
  mName : String
  mPkgName : String
  mAlive : Bool
  mAliveChangeTime : Timestamp
  mBootCount : Nat
  mProcessId : Int
  mClients : ClientMapping
  mActionClients : ClientMapping
  mServers : ServiceMapping
  mActionServers : ServiceMapping
  mPublishesTo : MemberProxies
  mSubscribesTo : MemberProxies

def Node.ofResponse (response : NodeResponse) : Node where
  mPrimaryKey := response.primaryKey
  mmAttributes := []
  mName := response.name
  mPkgName := response.pkgName
  mAlive := response.state = .ACTIVE
  mAliveChangeTime := response.stateChangeTime
  mBootCount := response.bootCount
  mProcessId := response.pid
  mClients := .empty
  mActionClients := .empty
  mServers := .empty
  mActionServers := .empty
  mPublishesTo := []
  mSubscribesTo := []

/-- Find the service's client list, or add an empty one, and append the client. -/
def ClientMapping.addClient (m : ClientMapping) (serviceName : String) (client : MemberProxy) :
    ClientMapping :=
  let m := if (m.find? serviceName).isNone then (m.emplace serviceName []).1 else m
  m.mapValues (fun name clients => if name = serviceName then clients ++ [client] else clients)

def Node.update (node : Node) : NodeUpdate → Node
  | .publishersTo _ publishesTo =>
    { node with mPublishesTo := node.mPublishesTo ++ [⟨publishesTo, true⟩] }
  | .subscribersTo _ subscribesTo =>
    { node with mSubscribesTo := node.mSubscribesTo ++ [⟨subscribesTo, true⟩] }
  | .isServerFor _ srvName clientNodeId =>
    { node with mClients := node.mClients.addClient srvName ⟨clientNodeId, false⟩ }
  | .isClientOf _ srvName serverNodeId =>
    { node with mServers := (node.mServers.emplace srvName ⟨serverNodeId, false⟩).1 }
  -- the source writes the clients of an action service to `mClients` too
  | .isActionServerFor _ srvName actionclientNodeId =>
    { node with mClients := node.mClients.addClient srvName ⟨actionclientNodeId, false⟩ }
  | .isActionClientOf _ srvName actionserverNodeId =>
    { node with mActionServers := (node.mActionServers.emplace srvName ⟨actionserverNodeId, false⟩).1 }
  | .state _ state stateChangeTime =>
    let isAliveNow := decide (state = .ACTIVE)
    if isAliveNow ≠ node.mAlive then
      { node with mAlive := isAliveNow, mAliveChangeTime := stateChangeTime }
    else node

structure CommunicationEdge where
  primaryKey : PrimaryKey
  associatedNode : MemberProxy
  deriving DecidableEq, Repr

structure Topic where
  mPrimaryKey : PrimaryKey
  mmAttributes : List Attribute
  mName : String
  mType : String
  mPublishers : List CommunicationEdge
  mSubscribers : List CommunicationEdge

def Topic.ofResponse (response : TopicResponse) : Topic where
  mPrimaryKey := response.primaryKey
  mmAttributes := []
  mName := response.name
  mType := response.type
  mPublishers := []
  mSubscribers := []

def Topic.update (topic : Topic) : TopicUpdate → Topic
  | .publishers _ edge publisher =>
    { topic with mPublishers := topic.mPublishers ++ [⟨edge, ⟨publisher, false⟩⟩] }
  | .subscribers _ edge subscriber =>
    { topic with mSubscribers := topic.mSubscribers ++ [⟨edge, ⟨subscriber, false⟩⟩] }

/-- What the list templates use of the members they store. -/
class Stored (T : Type) where
  mPrimaryKey : T → PrimaryKey
  mName : T → String
  mIsTopic : Bool
  addAttribute : T → Attribute → T

instance : Stored Node where
  mPrimaryKey := Node.mPrimaryKey
  mName := Node.mName
  mIsTopic := false
  addAttribute := fun node attr => { node with mmAttributes := node.mmAttributes ++ [attr] }

instance : Stored Topic where
  mPrimaryKey := Topic.mPrimaryKey
  mName := Topic.mName
  mIsTopic := true
  addAttribute := fun topic attr => { topic with mmAttributes := topic.mmAttributes ++ [attr] }

/-- No update changes which member an object stands for. -/
@[simp] theorem Node.update_mPrimaryKey (node : Node) (u : NodeUpdate) :
    (node.update u).mPrimaryKey = node.mPrimaryKey := by
  cases u with
  | state _ _ _ => simp only [Node.update]; split <;> rfl
  | _ => rfl

@[simp] theorem Topic.update_mPrimaryKey (topic : Topic) (u : TopicUpdate) :
    (topic.update u).mPrimaryKey = topic.mPrimaryKey := by
  cases u <;> rfl

/-! Use counters. -/

structure AtomicCounter where
  mValue : Nat
  deriving DecidableEq, Repr

namespace AtomicCounter

def increase (c : AtomicCounter) : AtomicCounter := ⟨c.mValue + 1⟩

/-- The decrement stops at zero. -/
def decrease (c : AtomicCounter) : AtomicCounter := ⟨if 0 < c.mValue then c.mValue - 1 else c.mValue⟩

def nonZero (c : AtomicCounter) : Bool := 0 < c.mValue

@[simp] theorem increase_mValue (c : AtomicCounter) : c.increase.mValue = c.mValue + 1 := rfl

@[simp] theorem decrease_mValue (c : AtomicCounter) : c.decrease.mValue = c.mValue - 1 := by
  simp only [decrease]; split <;> omega

end AtomicCounter

/-! Handles. -/

/-- Which list element an object is part of. -/
structure Ref where
  isTopic : Bool
  addr : Nat
  deriving DecidableEq, Repr

structure Member where
  ref : Ref
  mIsTopic : Bool
  mPrimaryKey : PrimaryKey
  deriving DecidableEq, Repr

/-- `Member::getAttributes`, given the names of the attributes and the last value of each. -/
def Member.getAttributes (names : List String) (lastValue : String → Rat) : OrderedMap String Rat (· < ·) :=
  names.foldl (fun output name => (output.emplace name (lastValue name)).1) .empty

structure MemberPtr where
  mpMember : Option Member
  mpUseCounter : Option Ref
  deriving DecidableEq, Repr

namespace MemberPtr

/-- The default constructor. -/
def null : MemberPtr := ⟨none, none⟩

/-- The handle `MAKE_MEMBER_PTR` makes: the counter is left as it is. -/
def make (member : Member) : MemberPtr := ⟨some member, some member.ref⟩

/-- `operator bool` and `valid`. -/
def valid (p : MemberPtr) : Bool := p.mpMember.isSome

/-- `member->mPrimaryKey == primary` -/
def hasKey (p : MemberPtr) (primary : PrimaryKey) : Bool :=
  p.mpMember.map Member.mPrimaryKey == some primary

/-- `operator==`: the same object. -/
def eq (p q : MemberPtr) : Bool := p.mpMember.map Member.ref == q.mpMember.map Member.ref

/-- `std::less<MemberPtr>`: the class has no `operator<`, so `<` compares the two handles
    after their conversion to `bool`. -/
def lt (p q : MemberPtr) : Prop := p.valid < q.valid

instance : DecidableRel lt := fun p q => inferInstanceAs (Decidable (p.valid < q.valid))

instance : IsTrans MemberPtr lt := ⟨fun _ _ _ h h' => lt_trans h h'⟩

/-- No valid handle is less than another: the comparison orders null before every valid one,
    and nothing else. -/
theorem not_lt_of_valid {p q : MemberPtr} (hp : p.valid = true) : ¬ lt p q := by
  simp only [lt, hp]
  cases q.valid <;> decide

section Special
variable {σ : Type} (access : Ref → (AtomicCounter → AtomicCounter) → σ → Option σ)

/-! The special members. `access` is a method call on the counter of an element,
    and has no result when the element was deleted. -/

/-- The copy constructor. -/
def copyConstruct (other : MemberPtr) (s : σ) : Option (MemberPtr × σ) :=
  match other.mpMember with
  | none => some (null, s)
  | some member => do
    let counter ← other.mpUseCounter
    let s ← access counter AtomicCounter.increase s
    pure (⟨some member, some counter⟩, s)

/-- The copy assignment; `this` and `other` may be the same handle. The counter of what `this` referred
    to before is left as it is. -/
def copyAssign (this other : MemberPtr) (s : σ) : Option (MemberPtr × σ) :=
  match other.mpMember with
  | none => some ({ this with mpMember := none }, s)
  | some member => do
    let counter ← other.mpUseCounter
    let s ← access counter AtomicCounter.increase s
    pure (⟨some member, some counter⟩, s)

/-- The move assignment: `this`, and what is left of `other`. Where both are one handle, the second
    is what is left of it: `other` is written last. -/
def moveAssign (this other : MemberPtr) : MemberPtr × MemberPtr :=
  match other.mpMember with
  | none => ({ this with mpMember := none }, other)
  | some member => (⟨some member, other.mpUseCounter⟩, { other with mpMember := none })

/-- The move constructor: the new handle, and what is left of the old one. -/
def moveConstruct (other : MemberPtr) : MemberPtr × MemberPtr :=
  match other.mpMember with
  | none => (null, other)
  | some member => (⟨some member, other.mpUseCounter⟩, { other with mpMember := none })

/-- The destructor. -/
def destroy (this : MemberPtr) (s : σ) : Option σ :=
  match this.mpMember with
  | none => some s
  | some _ => do
    let counter ← this.mpUseCounter
    access counter AtomicCounter.decrease s

end Special

end MemberPtr

end StreamFdl
