import StreamFdl.Base.LinkedChain
import StreamFdl.Members
import Mathlib.Data.List.Perm.Subperm

/- `DoubleLinkedList` and its elements, at the level of pointers. The heap gives
   the element allocated at an address; reading or writing through a pointer to
   an address without one is undefined behaviour and has no result (`none`).
   Addresses are not handed out twice, so a pointer to a deleted element stays
   a pointer to no element.

   `Rep l xs` is what every run keeps, whatever it erases: the elements are
   chained in the order `xs` they were appended in, but `mBegin` and `mEnd` may
   lead to a deleted element, since `erase` moves neither. `Intact l xs` adds
   that they lead to the first and the last element. -/
namespace StreamFdl
open LinkedChain

/-- `_Element::Data`. -/
structure Data (T : Type) where
  inst : T
  requestId : RequestId
  useCounter : AtomicCounter

/-- `_Element`. -/
structure Element (T : Type) where
  mPrev : Option Nat
  mNext : Option Nat
  mData : Data T

structure DoubleLinkedList (T : Type) where
  heap : Nat → Option (Element T)
  fresh : Nat
  mBegin : Option Nat
  mEnd : Option Nat

namespace DoubleLinkedList

variable {T : Type}

/-- The default constructor. -/
def new : DoubleLinkedList T := ⟨fun _ => none, 0, none, none⟩

/-- `if (p) p->… = …` -/
def writeIf (heap : Nat → Option (Element T)) (p : Option Nat) (f : Element T → Element T) :
    Option (Nat → Option (Element T)) :=
  match p with
  | none => some heap
  | some a => (heap a).map (fun e => Function.update heap a (some (f e)))

/-- Append a new element whose counter stands at 1; returns an iterator to it. -/
def emplaceBack (l : DoubleLinkedList T) (inst : T) (requestId : RequestId) :
    Option (DoubleLinkedList T × Nat) := do
  let newElement := l.fresh
  let heap := Function.update l.heap newElement (some ⟨l.mEnd, none, ⟨inst, requestId, ⟨1⟩⟩⟩)
  let heap ← writeIf heap l.mEnd (fun e => { e with mNext := some newElement })
  some (⟨heap, l.fresh + 1, if l.mEnd.isSome then l.mBegin else some newElement, some newElement⟩,
    newElement)

/-- Unlink and delete the element at an iterator; returns an iterator to the next one. -/
def erase (l : DoubleLinkedList T) (it : Nat) : Option (DoubleLinkedList T × Option Nat) := do
  let curr ← l.heap it
  let heap ← writeIf l.heap curr.mPrev (fun e => { e with mNext := curr.mNext })
  let heap ← writeIf heap curr.mNext (fun e => { e with mPrev := curr.mPrev })
  some ({ l with heap := Function.update heap it none }, curr.mNext)

/-- The loops of `find` and `findName`, with fuel for the iterations. -/
def findFrom (l : DoubleLinkedList T) (p : T → Bool) : Nat → Option Nat → Option (Option Nat)
  | _, none => some none
  | 0, some _ => none
  | n+1, some a => (l.heap a).bind fun e =>
    if p e.mData.inst then some (some a) else findFrom l p n e.mNext

section
variable [Stored T]

def find (l : DoubleLinkedList T) (primary : PrimaryKey) : Option (Option Nat) :=
  l.findFrom (fun t => Stored.mPrimaryKey t == primary) l.fresh l.mBegin

def findName (l : DoubleLinkedList T) (name : String) : Option (Option Nat) :=
  l.findFrom (fun t => Stored.mName t == name) l.fresh l.mBegin

end

/-- A write to the element an iterator leads to. -/
def modify (l : DoubleLinkedList T) (it : Nat) (f : Data T → Data T) : Option (DoubleLinkedList T) :=
  (l.heap it).map fun e => { l with heap := Function.update l.heap it (some { e with mData := f e.mData }) }

/-- The sweep loop of `DataStore::run` over this list, run on its own. -/
def sweepFrom : Nat → DoubleLinkedList T → Option Nat → Option (DoubleLinkedList T)
  | _, l, none => some l
  | 0, _, some _ => none
  | n+1, l, some a => (l.heap a).bind fun e =>
    if e.mData.useCounter.nonZero then sweepFrom n l e.mNext
    else (l.erase a).bind fun r => sweepFrom n r.1 r.2

def sweep (l : DoubleLinkedList T) : Option (DoubleLinkedList T) := sweepFrom l.fresh l l.mBegin

/-- The loop of the destructor: the elements deleted, in order. -/
def destroyFrom : Nat → DoubleLinkedList T → Option Nat → Option (List Nat)
  | _, _, none => some []
  | 0, _, some _ => none
  | n+1, l, some current => (l.heap current).bind fun e =>
    let rest := (destroyFrom n { l with heap := Function.update l.heap current none } e.mNext).map
      (current :: ·)
    match e.mNext with
    | some next => (l.heap next).bind fun e' => if e'.mPrev = some current then rest else none
    | none => if l.mEnd = some current then rest else none

/-- The destructor; no result if one of its assertions fails. -/
def destroy (l : DoubleLinkedList T) : Option (List Nat) :=
  match l.mBegin with
  | none => if l.mEnd = none then some [] else none
  | some current => destroyFrom l.fresh l (some current)

/-! What the operations do to the pointers and to the data. -/

def linksOf (heap : Nat → Option (Element T)) (a : Nat) : Option (Links Nat) :=
  (heap a).map fun e => ⟨e.mPrev, e.mNext⟩

def dataOf (heap : Nat → Option (Element T)) (a : Nat) : Option (Data T) :=
  (heap a).map Element.mData

def links (l : DoubleLinkedList T) : Nat → Option (Links Nat) := linksOf l.heap

def data (l : DoubleLinkedList T) : Nat → Option (Data T) := dataOf l.heap

section Heap
variable {heap heap' : Nat → Option (Element T)} {p v : Option Nat} {a : Nat}

theorem linksOf_eq_none : linksOf heap a = none ↔ heap a = none := by simp [linksOf]

theorem dataOf_eq_none : dataOf heap a = none ↔ heap a = none := by simp [dataOf]

theorem linksOf_update (x : Option (Element T)) : linksOf (Function.update heap a x) =
    Function.update (linksOf heap) a (x.map fun e => ⟨e.mPrev, e.mNext⟩) :=
  Function.comp_update (Option.map _) heap a x

theorem dataOf_update (x : Option (Element T)) : dataOf (Function.update heap a x) =
    Function.update (dataOf heap) a (x.map Element.mData) :=
  Function.comp_update (Option.map _) heap a x

theorem writeIf_next (h : writeIf heap p (fun e => { e with mNext := v }) = some heap') :
    linksOf heap' = setNext (linksOf heap) p v ∧ dataOf heap' = dataOf heap := by
  cases p with
  | none => cases h; exact ⟨rfl, rfl⟩
  | some b =>
    obtain ⟨e, he, rfl⟩ := Option.map_eq_some_iff.mp h
    refine ⟨?_, ?_⟩
    · rw [linksOf_update, setNext]; simp [linksOf, he]
    · rw [dataOf_update]; simp [dataOf, he]

theorem writeIf_prev (h : writeIf heap p (fun e => { e with mPrev := v }) = some heap') :
    linksOf heap' = setPrev (linksOf heap) p v ∧ dataOf heap' = dataOf heap := by
  cases p with
  | none => cases h; exact ⟨rfl, rfl⟩
  | some b =>
    obtain ⟨e, he, rfl⟩ := Option.map_eq_some_iff.mp h
    refine ⟨?_, ?_⟩
    · rw [linksOf_update, setPrev]; simp [linksOf, he]
    · rw [dataOf_update]; simp [dataOf, he]

/-- A write through a pointer is defined when the pointer is null or leads to an element. -/
theorem writeIf_defined (heap : Nat → Option (Element T)) (p : Option Nat)
    (f : Element T → Element T) (h : ∀ a, p = some a → heap a ≠ none) :
    ∃ heap', writeIf heap p f = some heap' := by
  cases p with
  | none => exact ⟨heap, rfl⟩
  | some a =>
    obtain ⟨e, he⟩ := Option.ne_none_iff_exists'.mp (h a rfl)
    simp [writeIf, he]

end Heap

variable {l l' : DoubleLinkedList T}

theorem links_eq_none {a : Nat} : l.links a = none ↔ l.heap a = none := linksOf_eq_none

theorem data_eq_none {a : Nat} : l.data a = none ↔ l.heap a = none := dataOf_eq_none

theorem emplaceBack_spec {inst : T} {requestId : RequestId} {a : Nat}
    (h : l.emplaceBack inst requestId = some (l', a)) :
    a = l.fresh ∧ l'.fresh = l.fresh + 1 ∧ l'.links = append l.links l.mEnd a ∧
      l'.data = Function.update l.data a (some ⟨inst, requestId, ⟨1⟩⟩) ∧
      l'.mBegin = (if l.mEnd.isSome then l.mBegin else some a) ∧ l'.mEnd = some a := by
  simp only [emplaceBack, Option.bind_eq_bind, Option.bind_eq_some_iff, Option.some.injEq,
    Prod.mk.injEq] at h
  obtain ⟨heap, hw, rfl, rfl⟩ := h
  obtain ⟨hl, hd⟩ := writeIf_next hw
  rw [linksOf_update] at hl
  rw [dataOf_update] at hd
  exact ⟨rfl, rfl, hl, hd, rfl, rfl⟩

theorem erase_spec {it : Nat} {next : Option Nat} (h : l.erase it = some (l', next)) :
    (∃ c, l.links it = some c ∧ next = c.next) ∧ l'.links = unlink l.links it ∧
      l'.data = Function.update l.data it none ∧
      l'.fresh = l.fresh ∧ l'.mBegin = l.mBegin ∧ l'.mEnd = l.mEnd := by
  simp only [erase, Option.bind_eq_bind, Option.bind_eq_some_iff, Option.some.injEq,
    Prod.mk.injEq] at h
  obtain ⟨curr, hc, heap₁, h₁, heap₂, h₂, rfl, rfl⟩ := h
  obtain ⟨hl₁, hd₁⟩ := writeIf_next h₁
  obtain ⟨hl₂, hd₂⟩ := writeIf_prev h₂
  have hlink : linksOf l.heap it = some ⟨curr.mPrev, curr.mNext⟩ := by simp [linksOf, hc]
  refine ⟨⟨_, hlink, rfl⟩, ?_, ?_, rfl, rfl, rfl⟩
  · simp only [links, linksOf_update, hl₂, hl₁, unlink, hlink, Option.map_none]
  · simp only [data, dataOf_update, hd₂, hd₁, Option.map_none]

theorem modify_spec {it : Nat} {f : Data T → Data T} (h : l.modify it f = some l') :
    (∃ d, l.data it = some d ∧ l'.data = Function.update l.data it (some (f d))) ∧
      l'.links = l.links ∧ l'.fresh = l.fresh ∧ l'.mBegin = l.mBegin ∧ l'.mEnd = l.mEnd := by
  obtain ⟨e, he, rfl⟩ := Option.map_eq_some_iff.mp h
  refine ⟨⟨e.mData, by simp [data, dataOf, he], ?_⟩, ?_, rfl, rfl, rfl⟩
  · simp only [data, dataOf_update, Option.map_some]
  · show linksOf (Function.update l.heap it _) = linksOf l.heap
    rw [linksOf_update]
    simp [linksOf, he]

end DoubleLinkedList

end StreamFdl
