import StreamFdl.Neighbours

/- `Graph`: the members of the subgraph of suspects (`mSAG`), in the order they
   were added. Its edges are not kept; they are read off the stored members each
   time, and only the ends that are vertices themselves are returned. -/
namespace StreamFdl

/-- `asNode`, on the object a handle leads to. -/
def DataStore.asNode (s : DataStore) (r : Ref) : Option Node :=
  if r.isTopic then none else (s.mNodes.data r.addr).map Data.inst

def DataStore.asTopic (s : DataStore) (r : Ref) : Option Topic :=
  if r.isTopic then (s.mTopics.data r.addr).map Data.inst else none

structure Graph where
  mVertices : List MemberPtr

namespace Graph

def new : Graph := ⟨[]⟩

/-- Add the member, unless it is there; and whether it was added. -/
def add (g : Graph) (member : MemberPtr) : Graph × Bool :=
  if g.mVertices.any (fun existingMember => existingMember.eq member) then (g, false)
  else ({ g with mVertices := g.mVertices ++ [member] }, true)

def contains (g : Graph) (member : MemberProxy) : Bool :=
  g.mVertices.any fun existingMember => existingMember.hasKey member.mPrimaryKey

def reset (g : Graph) : Graph := { g with mVertices := [] }

/-- The relations `getIncoming` goes through; for a node, these are the topics it publishes to and
    not the ones it subscribes to. -/
def scanned (s : DataStore) (m : Member) : Option MemberProxies :=
  if m.mIsTopic then
    (s.asTopic m.ref).map fun topic => topic.mPublishers.map CommunicationEdge.associatedNode
  else
    (s.asNode m.ref).map fun node =>
      node.mServers.entries.map Prod.snd ++ node.mActionServers.entries.map Prod.snd ++ node.mPublishesTo

def getIncoming (g : Graph) (s : DataStore) (member : MemberPtr) : Option MemberProxies := do
  let m ← member.mpMember
  let targets ← scanned s m
  pure (targets.filter g.contains)

/-- The relations `getOutgoing` goes through. -/
def scannedOutgoing (s : DataStore) (m : Member) : Option MemberProxies :=
  if m.mIsTopic then
    (s.asTopic m.ref).map fun topic => topic.mSubscribers.map CommunicationEdge.associatedNode
  else
    (s.asNode m.ref).map fun node =>
      node.mClients.entries.flatMap Prod.snd ++ node.mActionClients.entries.flatMap Prod.snd ++
        node.mPublishesTo

def getOutgoing (g : Graph) (s : DataStore) (member : MemberPtr) : Option MemberProxies := do
  let m ← member.mpMember
  let targets ← scannedOutgoing s m
  pure (targets.filter g.contains)

variable {g : Graph} {p : MemberPtr} {x : MemberProxy}

@[simp] theorem contains_iff : g.contains x = true ↔
    ∃ p ∈ g.mVertices, ∃ m, p.mpMember = some m ∧ m.mPrimaryKey = x.mPrimaryKey := by
  simp [contains, MemberPtr.hasKey]

/-- Whether it was added or not, there is now a handle to the same object. -/
theorem mem_add (q : MemberPtr) (h : q ∈ (g.add p).1.mVertices) : q ∈ g.mVertices ∨ q = p := by
  simp only [add] at h
  split at h
  · exact Or.inl h
  · simpa using h

theorem add_of_mem {q : MemberPtr} (h : q ∈ g.mVertices) : q ∈ (g.add p).1.mVertices := by
  simp only [add]
  split
  · exact h
  · exact List.mem_append_left _ h

theorem add_self : ∃ q ∈ (g.add p).1.mVertices, q.mpMember.map Member.ref = p.mpMember.map Member.ref := by
  simp only [add]
  split
  · next h =>
    obtain ⟨q, hq, heq⟩ := List.any_eq_true.mp h
    exact ⟨q, hq, by simpa [MemberPtr.eq] using heq⟩
  · exact ⟨p, by simp, rfl⟩

theorem mem_of_added (h : (g.add p).2 = true) : p ∈ (g.add p).1.mVertices := by
  simp only [add] at h ⊢
  split at h
  · cases h
  · next hany =>
    rw [if_neg hany]
    exact List.mem_append_right _ (List.mem_singleton_self _)

theorem add_eq_of_not_added (h : (g.add p).2 = false) : (g.add p).1 = g := by
  simp only [add] at h ⊢
  split at h
  · next hany => rw [if_pos hany]
  · cases h

end Graph

end StreamFdl
