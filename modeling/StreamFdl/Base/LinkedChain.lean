import Mathlib.Logic.Function.Basic
import Mathlib.Data.List.Basic
import Mathlib.Data.List.Induction

/- Doubly linked chains of cells at addresses. `links a` gives the two pointers
   of the cell at `a`, and `none` where no cell is allocated. `Seg links p xs q`
   says that the cells `xs` are linked to one another in order, the first led to
   by `p` and the last leading to `q`. The lemmas say what appending a cell and
   taking one out do to a chain, and what a walk along either pointer visits. -/
namespace LinkedChain

structure Links (A : Type) where
  prev : Option A
  next : Option A

variable {A : Type}

/-- The cells `xs` in order, between a predecessor `p` and a successor `q`. -/
def Seg (links : A → Option (Links A)) : Option A → List A → Option A → Prop
  | _, [], _ => True
  | p, a :: as, q => links a = some ⟨p, as.head?.or q⟩ ∧ Seg links (some a) as q

/-- The addresses met when one pointer is followed to null: `none` if it leads
    to an address without a cell, or if the fuel runs out first. -/
def walk (links : A → Option (Links A)) (dir : Links A → Option A) : Nat → Option A → Option (List A)
  | _, none => some []
  | 0, some _ => none
  | n+1, some a => (links a).bind (fun c => (walk links dir n (dir c)).map (a :: ·))

variable {links links' : A → Option (Links A)} {p q : Option A} {xs ys : List A}

theorem seg_congr (h : ∀ a ∈ xs, links a = links' a) : Seg links p xs q → Seg links' p xs q := by
  induction xs generalizing p with
  | nil => intro _; trivial
  | cons a as ih =>
    intro hs
    have ha : links a = links' a := h a (by simp)
    exact ⟨ha ▸ hs.1, ih (fun b hb => h b (by simp [hb])) hs.2⟩

theorem seg_append : Seg links p (xs ++ ys) q ↔
    Seg links p xs (ys.head?.or q) ∧ Seg links (xs.getLast?.or p) ys q := by
  induction xs generalizing p with
  | nil => simp [Seg]
  | cons a as ih =>
    have hhead : (as ++ ys).head?.or q = as.head?.or (ys.head?.or q) := by
      cases as <;> simp
    have hlast : (a :: as).getLast?.or p = as.getLast?.or (some a) := by
      cases as with
      | nil => simp
      | cons b bs => simp [List.getLast?_eq_some_getLast]
    simp only [List.cons_append, Seg, ih, hhead, hlast, and_assoc]

/-- A cell of the chain and its two neighbours. -/
theorem seg_split {a : A} : Seg links p (xs ++ a :: ys) q ↔
    Seg links p xs (some a) ∧ links a = some ⟨xs.getLast?.or p, ys.head?.or q⟩ ∧
      Seg links (some a) ys q := by
  rw [seg_append]
  simp [Seg]

/-! Rewriting pointers. -/

section Rewrite
variable [DecidableEq A]

/-- Overwrite the successor pointer of the cell a pointer leads to, if any. -/
def setNext (links : A → Option (Links A)) (at' v : Option A) : A → Option (Links A) :=
  match at' with
  | none => links
  | some a => Function.update links a ((links a).map (fun c => { c with next := v }))

/-- Overwrite the predecessor pointer of the cell a pointer leads to, if any. -/
def setPrev (links : A → Option (Links A)) (at' v : Option A) : A → Option (Links A) :=
  match at' with
  | none => links
  | some a => Function.update links a ((links a).map (fun c => { c with prev := v }))

/-- A new cell `b` behind the cell `last` leads to. -/
def append (links : A → Option (Links A)) (last : Option A) (b : A) : A → Option (Links A) :=
  setNext (Function.update links b (some ⟨last, none⟩)) last (some b)

/-- The cell at `a` given back, its neighbours linked to each other. -/
def unlink (links : A → Option (Links A)) (a : A) : A → Option (Links A) :=
  match links a with
  | none => links
  | some c => Function.update (setPrev (setNext links c.prev c.next) c.next c.prev) a none

theorem seg_setNext {a : A} {v : Option A} (ha : a ∉ xs) (hs : Seg links p (xs ++ [a]) q) :
    Seg (setNext links (some a) v) p (xs ++ [a]) v := by
  rw [seg_split] at hs ⊢
  refine ⟨seg_congr (fun b hb => ?_) hs.1, by simp [setNext, hs.2.1], trivial⟩
  have hne : b ≠ a := fun h => ha (h ▸ hb)
  simp [setNext, hne]

theorem seg_setPrev {a : A} {v : Option A} (ha : a ∉ ys) (hs : Seg links p (a :: ys) q) :
    Seg (setPrev links (some a) v) v (a :: ys) q := by
  refine ⟨by simp [setPrev, hs.1], seg_congr (fun b hb => ?_) hs.2⟩
  have hne : b ≠ a := fun h => ha (h ▸ hb)
  simp [setPrev, hne]

theorem setNext_other {a b : A} {v : Option A} (h : b ≠ a) :
    setNext links (some a) v b = links b := by
  simp [setNext, h]

theorem setPrev_other {a b : A} {v : Option A} (h : b ≠ a) :
    setPrev links (some a) v b = links b := by
  simp [setPrev, h]

/-- Appending a cell at a new address behind the last one extends the chain. -/
theorem seg_append_new {b : A} (hb : b ∉ xs) (hnd : xs.Nodup) (hs : Seg links none xs none) :
    Seg (append links xs.getLast? b) none (xs ++ [b]) none := by
  rcases List.eq_nil_or_concat' xs with rfl | ⟨ys, a, rfl⟩
  · simp [append, setNext, Seg]
  · have ha : a ∉ ys := by
      rw [List.nodup_append] at hnd
      exact fun h => hnd.2.2 a h a (by simp) rfl
    have hne : b ≠ a := fun h => hb (by simp [h])
    have hfresh : Seg (Function.update links b (some ⟨some a, none⟩)) none (ys ++ [a]) none := by
      refine seg_congr (fun c hc => ?_) hs
      have hcb : c ≠ b := fun h => hb (h ▸ hc)
      simp [hcb]
    rw [seg_split]
    simp only [append, List.getLast?_append, List.getLast?_singleton, Option.some_or]
    refine ⟨seg_setNext ha hfresh, ?_, trivial⟩
    rw [setNext_other hne]
    simp

/-- Unlinking a cell leaves the rest of the chain linked in the same order. -/
theorem seg_unlink {a : A} (hnd : (xs ++ a :: ys).Nodup) (hs : Seg links none (xs ++ a :: ys) none) :
    Seg (unlink links a) none (xs ++ ys) none := by
  have hsplit := seg_split.mp hs
  simp only [Option.or_none] at hsplit
  obtain ⟨hx, hcell, hy⟩ := hsplit
  have hnd' := List.nodup_append.mp hnd
  have hay : a ∉ ys := (List.nodup_cons.mp hnd'.2.1).1
  have hax : a ∉ xs := fun h => hnd'.2.2 a h a (by simp) rfl
  have hdisj : ∀ b ∈ xs, b ∉ ys := fun b hbx hby => hnd'.2.2 b hbx b (by simp [hby]) rfl
  -- the predecessor now leads to the successor
  have hx' : Seg (setNext links xs.getLast? ys.head?) none xs ys.head? := by
    rcases List.eq_nil_or_concat' xs with rfl | ⟨xs', l, rfl⟩
    · trivial
    · have hl : l ∉ xs' := by
        have := (List.nodup_append.mp hnd'.1).2.2
        exact fun h => this l h l (by simp) rfl
      simpa using seg_setNext hl hx
  have hy' : Seg (setNext links xs.getLast? ys.head?) (some a) ys none := by
    refine seg_congr (fun b hb => ?_) hy
    cases hl : xs.getLast? with
    | none => rfl
    | some l =>
      have hne : b ≠ l := fun h => hdisj l (List.mem_of_getLast? hl) (h ▸ hb)
      rw [setNext_other hne]
  -- and the successor back to the predecessor
  have hy'' : Seg (setPrev (setNext links xs.getLast? ys.head?) ys.head? xs.getLast?)
      xs.getLast? ys none := by
    cases ys with
    | nil => trivial
    | cons n ys' =>
      have hn : n ∉ ys' := (List.nodup_cons.mp (List.nodup_cons.mp hnd'.2.1).2).1
      exact seg_setPrev hn hy'
  have hx'' : Seg (setPrev (setNext links xs.getLast? ys.head?) ys.head? xs.getLast?)
      none xs ys.head? := by
    refine seg_congr (fun b hb => ?_) hx'
    cases hn : ys.head? with
    | none => rfl
    | some n =>
      have hne : b ≠ n := fun h => hdisj b hb (h ▸ List.mem_of_head? hn)
      rw [setPrev_other hne]
  have hwhole : Seg (setPrev (setNext links xs.getLast? ys.head?) ys.head? xs.getLast?)
      none (xs ++ ys) none := by
    rw [seg_append]
    exact ⟨by simpa using hx'', by simpa using hy''⟩
  simp only [unlink, hcell]
  refine seg_congr (fun b hb => ?_) hwhole
  have hne : b ≠ a := by
    intro h
    rcases List.mem_append.mp hb with h' | h'
    · exact hax (h ▸ h')
    · exact hay (h ▸ h')
  simp [hne]

end Rewrite

/-! Walking along the pointers. -/

/-- Following the successor pointers visits the chain in order. -/
theorem walk_next (n : Nat) (hn : xs.length ≤ n) (hs : Seg links p xs none) :
    walk links Links.next n xs.head? = some xs := by
  induction xs generalizing p n with
  | nil => cases n <;> rfl
  | cons a as ih =>
    cases n with
    | zero => simp at hn
    | succ n =>
      have hrest := ih n (by simpa using hn) hs.2
      simp [walk, hs.1, hrest]

/-- Following the predecessor pointers from the last cell visits it in reverse. -/
theorem walk_prev (n : Nat) (hn : xs.length ≤ n) (hs : Seg links none xs q) :
    walk links Links.prev n xs.getLast? = some xs.reverse := by
  induction xs using List.reverseRecOn generalizing q n with
  | nil => cases n <;> rfl
  | append_singleton as a ih =>
    cases n with
    | zero => simp at hn
    | succ n =>
      rw [seg_split] at hs
      have hrest := ih n (by simpa using hn) hs.1
      simp [walk, hs.2.1, hrest]

end LinkedChain
