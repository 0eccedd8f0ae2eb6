import Mathlib.Order.Defs.Unbundled
import Mathlib.Order.Lattice
import Mathlib.Data.List.Pairwise

/- An ordered map over an arbitrary comparison `lt`, as C++'s `std::map` is one:
   the entries stand in strictly ascending order of their keys, two keys neither
   of which is less than the other are the same key, and `emplace` leaves the
   map alone when its key is already there. Nothing asks `lt` to tell different
   keys apart: a comparison that orders few of them makes a map that can hold
   few entries (`length_le_one`). -/

structure OrderedMap (K V : Type) (lt : K → K → Prop) where
  entries : List (K × V)
  sorted : entries.Pairwise (fun a b => lt a.1 b.1)

namespace OrderedMap

variable {K V : Type} {lt : K → K → Prop}

/-- Neither key is less than the other. -/
def Equiv (lt : K → K → Prop) (a b : K) : Prop := ¬ lt a b ∧ ¬ lt b a

instance [DecidableRel lt] (a b : K) : Decidable (Equiv lt a b) :=
  inferInstanceAs (Decidable (_ ∧ _))

def empty : OrderedMap K V lt := ⟨[], List.Pairwise.nil⟩

instance : Inhabited (OrderedMap K V lt) := ⟨empty⟩

@[simp] theorem empty_entries : (empty : OrderedMap K V lt).entries = [] := rfl

@[ext] theorem ext {m m' : OrderedMap K V lt} (h : m.entries = m'.entries) : m = m' := by
  cases m; cases m'; cases h; rfl

/-- The entry of a key, if there is one. -/
def find? [DecidableRel lt] (m : OrderedMap K V lt) (k : K) : Option (K × V) :=
  m.entries.find? (fun e => decide (Equiv lt e.1 k))

/-- A new entry before the first larger key, unless the key is there; and whether it was added. -/
def insertEntry (lt : K → K → Prop) [DecidableRel lt] (k : K) (v : V) : List (K × V) → List (K × V) × Bool
  | [] => ([(k, v)], true)
  | e :: es =>
    if lt k e.1 then ((k, v) :: e :: es, true)
    else if lt e.1 k then (e :: (insertEntry lt k v es).1, (insertEntry lt k v es).2)
    else (e :: es, false)

section Insert
variable [DecidableRel lt] {k : K} {v : V}

theorem mem_insertEntry {es : List (K × V)} {e : K × V}
    (h : e ∈ (insertEntry lt k v es).1) : e = (k, v) ∨ e ∈ es := by
  induction es with
  | nil => simpa [insertEntry] using h
  | cons d es ih =>
    simp only [insertEntry] at h
    split at h
    · simpa using h
    · split at h
      · rcases List.mem_cons.mp h with rfl | h
        · simp
        · rcases ih h with h | h
          · exact Or.inl h
          · simp [h]
      · exact Or.inr h

theorem mem_insertEntry_of_mem {es : List (K × V)} {e : K × V} (h : e ∈ es) :
    e ∈ (insertEntry lt k v es).1 := by
  induction es with
  | nil => simp at h
  | cons d es ih =>
    simp only [insertEntry]
    split
    · simp [List.mem_cons.mp h]
    · split
      · rcases List.mem_cons.mp h with rfl | h
        · simp
        · simp [ih h]
      · exact h

/-- A key that is not there goes in. -/
theorem mem_insertEntry_self {es : List (K × V)} (h : ∀ e ∈ es, ¬ Equiv lt e.1 k) :
    (k, v) ∈ (insertEntry lt k v es).1 := by
  induction es with
  | nil => exact List.mem_singleton_self _
  | cons d es ih =>
    have hd := h d List.mem_cons_self
    simp only [insertEntry]
    split
    · exact List.mem_cons_self
    · next hk =>
      split
      · exact List.mem_cons_of_mem _ (ih fun e he => h e (List.mem_cons_of_mem d he))
      · next hdk => exact absurd ⟨hdk, hk⟩ hd

/-- A key larger than all others goes to the end. -/
theorem insertEntry_last {es : List (K × V)} (h : ∀ e ∈ es, lt e.1 k ∧ ¬ lt k e.1) :
    insertEntry lt k v es = (es ++ [(k, v)], true) := by
  induction es with
  | nil => rfl
  | cons d es ih =>
    obtain ⟨hd, hk⟩ := h d List.mem_cons_self
    simp [insertEntry, hd, hk, ih fun e he => h e (List.mem_cons_of_mem d he)]

theorem insertEntry_sorted [IsTrans K lt] {es : List (K × V)}
    (h : es.Pairwise (fun a b => lt a.1 b.1)) :
    (insertEntry lt k v es).1.Pairwise (fun a b => lt a.1 b.1) := by
  induction es with
  | nil => simp [insertEntry]
  | cons d es ih =>
    have hd := List.pairwise_cons.mp h
    simp only [insertEntry]
    split
    · next hk =>
      refine List.pairwise_cons.mpr ⟨fun e he => ?_, h⟩
      rcases List.mem_cons.mp he with rfl | he
      · exact hk
      · exact IsTrans.trans _ _ _ hk (hd.1 e he)
    · split
      · next hdk =>
        refine List.pairwise_cons.mpr ⟨fun e he => ?_, ih hd.2⟩
        rcases mem_insertEntry he with rfl | he
        · exact hdk
        · exact hd.1 e he
      · exact h

/-- Nothing is added where an equivalent key is. -/
theorem insertEntry_kept {es : List (K × V)} (h : (insertEntry lt k v es).2 = false) :
    (insertEntry lt k v es).1 = es := by
  induction es with
  | nil => cases h
  | cons d es ih =>
    simp only [insertEntry] at h ⊢
    split at h
    · cases h
    · next hk =>
      rw [if_neg hk]
      split at h
      · next hdk =>
        rw [if_pos hdk]
        exact congrArg (d :: ·) (ih h)
      · next hdk => rw [if_neg hdk]

/-- The flag is false exactly when an equivalent key is there. -/
theorem insertEntry_added_iff [IsTrans K lt] {es : List (K × V)}
    (h : es.Pairwise (fun a b => lt a.1 b.1)) :
    (insertEntry lt k v es).2 = true ↔ ∀ e ∈ es, ¬ Equiv lt e.1 k := by
  induction es with
  | nil => simp [insertEntry]
  | cons d es ih =>
    have hd := List.pairwise_cons.mp h
    simp only [insertEntry, List.forall_mem_cons]
    split
    · next hk =>
      refine iff_of_true rfl ⟨fun he => he.2 hk, fun e he heq => heq.2 (IsTrans.trans _ _ _ hk (hd.1 e he))⟩
    · next hk =>
      split
      · next hdk =>
        rw [ih hd.2]
        exact ⟨fun h' => ⟨fun he => he.1 hdk, h'⟩, fun h' => h'.2⟩
      · next hdk => simp [Equiv, hk, hdk]

/-- An entry that was added is there beside the others. -/
theorem insertEntry_perm {es : List (K × V)} (h : (insertEntry lt k v es).2 = true) :
    (insertEntry lt k v es).1.Perm ((k, v) :: es) := by
  induction es with
  | nil => exact List.Perm.refl _
  | cons d es ih =>
    simp only [insertEntry] at h ⊢
    split at h
    · next hk => rw [if_pos hk]
    · next hk =>
      rw [if_neg hk]
      split at h
      · next hdk =>
        rw [if_pos hdk]
        exact ((ih h).cons d).trans (List.Perm.swap (k, v) d es)
      · cases h

end Insert

/-- Add an entry if its key is not there, and say whether it was added. -/
def emplace [DecidableRel lt] [IsTrans K lt] (m : OrderedMap K V lt) (k : K) (v : V) :
    OrderedMap K V lt × Bool :=
  (⟨(insertEntry lt k v m.entries).1, insertEntry_sorted m.sorted⟩,
    (insertEntry lt k v m.entries).2)

/-- Remove the first entry with a property. -/
def eraseFirst (m : OrderedMap K V lt) (p : K × V → Bool) : OrderedMap K V lt :=
  ⟨m.entries.eraseP p, m.sorted.sublist List.eraseP_sublist⟩

theorem eraseFirst_perm {m : OrderedMap K V lt} {p : K × V → Bool} {e : K × V} (h : m.entries.find? p = some e) :
    m.entries.Perm (e :: (m.eraseFirst p).entries) := by
  obtain ⟨hp, as, bs, hsplit, hbefore⟩ := List.find?_eq_some_iff_append.mp h
  have herase : (m.eraseFirst p).entries = as ++ bs := by
    show m.entries.eraseP p = as ++ bs
    rw [hsplit, List.eraseP_append_right _ (fun a ha => by simpa using hbefore a ha), List.eraseP_cons_of_pos hp]
  rw [herase, hsplit]
  exact List.perm_middle

/-- Change the values, not the keys. -/
def mapValues (m : OrderedMap K V lt) (f : K → V → V) : OrderedMap K V lt :=
  ⟨m.entries.map (fun e => (e.1, f e.1 e.2)), by
    rw [List.pairwise_map]
    exact m.sorted⟩

@[simp] theorem mapValues_keys (m : OrderedMap K V lt) (f : K → V → V) :
    (m.mapValues f).entries.map Prod.fst = m.entries.map Prod.fst := by
  rw [mapValues, List.map_map]
  rfl

/-- Where an entry goes does not depend on the values. -/
theorem insertEntry_map [DecidableRel lt] (f : K → V → V) (k : K) (v : V) (es : List (K × V)) :
    (insertEntry lt k (f k v) (es.map fun e => (e.1, f e.1 e.2))).1 =
      (insertEntry lt k v es).1.map fun e => (e.1, f e.1 e.2) := by
  induction es with
  | nil => rfl
  | cons d es ih =>
    simp only [List.map_cons, insertEntry]
    split
    · rfl
    · split
      · rw [ih, List.map_cons]
      · rfl

section Emplace
variable [DecidableRel lt] [IsTrans K lt] (m : OrderedMap K V lt) (k : K) (v : V)

theorem emplace_mapValues (f : K → V → V) :
    ((m.mapValues f).emplace k (f k v)).1 = (m.emplace k v).1.mapValues f := by
  apply OrderedMap.ext
  exact insertEntry_map f k v m.entries

theorem emplace_added_iff : (m.emplace k v).2 = true ↔ ∀ e ∈ m.entries, ¬ Equiv lt e.1 k :=
  insertEntry_added_iff m.sorted

theorem emplace_keeps {e : K × V} (h : e ∈ m.entries) : e ∈ (m.emplace k v).1.entries :=
  mem_insertEntry_of_mem h

variable {m k v}

theorem emplace_perm (h : (m.emplace k v).2 = true) : (m.emplace k v).1.entries.Perm ((k, v) :: m.entries) :=
  insertEntry_perm h

theorem mem_emplace {e : K × V} (h : e ∈ (m.emplace k v).1.entries) : e = (k, v) ∨ e ∈ m.entries :=
  mem_insertEntry h

theorem emplace_last (h : ∀ e ∈ m.entries, lt e.1 k ∧ ¬ lt k e.1) :
    (m.emplace k v).1.entries = m.entries ++ [(k, v)] := congrArg Prod.fst (insertEntry_last h)

theorem emplace_empty : ((empty : OrderedMap K V lt).emplace k v).1.entries = [(k, v)] := rfl

end Emplace

/-- A total order tells all keys apart. -/
theorem equiv_iff_eq {K : Type} [LinearOrder K] {a b : K} : Equiv (· < ·) a b ↔ a = b :=
  ⟨fun h => le_antisymm (not_lt.mp h.2) (not_lt.mp h.1), fun h => by subst h; exact ⟨lt_irrefl a, lt_irrefl a⟩⟩

/-- A key that is there is found. -/
theorem find?_of_mem [DecidableRel lt] {m : OrderedMap K V lt} {k : K} {e : K × V} (he : e ∈ m.entries)
    (hk : Equiv lt e.1 k) : ∃ e' ∈ m.entries, m.find? k = some e' ∧ Equiv lt e'.1 k := by
  cases hf : m.find? k with
  | none => exact absurd hk (by simpa using List.find?_eq_none.mp hf e he)
  | some e' => exact ⟨e', List.mem_of_find?_eq_some hf, rfl, by simpa using List.find?_some hf⟩

/-- Entries with equivalent keys are one entry. -/
theorem eq_of_equiv (m : OrderedMap K V lt) {a b : K × V} (ha : a ∈ m.entries) (hb : b ∈ m.entries)
    (h : Equiv lt a.1 b.1) : a = b := by
  have hs := m.sorted
  revert ha hb hs
  generalize m.entries = es
  intro ha hb hs
  induction es with
  | nil => simp at ha
  | cons d es ih =>
    have hd := List.pairwise_cons.mp hs
    rcases List.mem_cons.mp ha with had | hae
    · rcases List.mem_cons.mp hb with hbd | hbe
      · rw [had, hbd]
      · exact absurd (had ▸ hd.1 b hbe) h.1
    · rcases List.mem_cons.mp hb with hbd | hbe
      · exact absurd (hbd ▸ hd.1 a hae) h.2
      · exact ih hae hbe hd.2

/-- A map whose keys the comparison does not tell apart holds at most one entry. -/
theorem length_le_one (m : OrderedMap K V lt)
    (h : ∀ a ∈ m.entries, ∀ b ∈ m.entries, ¬ lt a.1 b.1) : m.entries.length ≤ 1 := by
  have hs := m.sorted
  revert h hs
  generalize m.entries = es
  intro h hs
  match es with
  | [] => simp
  | [_] => simp
  | a :: b :: es =>
    have hab := (List.pairwise_cons.mp hs).1 b (by simp)
    exact absurd hab (h a (by simp) b (by simp))

/-! With a comparison that tells all keys apart, a map is a function of its keys. -/

/-- The value of a key, if it has one. -/
def lookup [DecidableRel lt] (m : OrderedMap K V lt) (k : K) : Option V := (m.find? k).map Prod.snd

section Lookup
variable [DecidableRel lt] {m : OrderedMap K V lt} {k k' : K} {v : V}

@[simp] theorem lookup_empty : (empty : OrderedMap K V lt).lookup k = none := rfl

variable (apart : ∀ a b : K, Equiv lt a b ↔ a = b)

include apart

theorem lookup_eq_some : m.lookup k = some v ↔ (k, v) ∈ m.entries := by
  unfold lookup
  rw [Option.map_eq_some_iff]
  constructor
  · intro h
    obtain ⟨e, he, rfl⟩ := h
    have hkey : Equiv lt e.1 k := by simpa using List.find?_some he
    obtain rfl := (apart _ _).mp hkey
    exact List.mem_of_find?_eq_some he
  · intro h
    obtain ⟨e, he, hfind, hkey⟩ := find?_of_mem h ((apart k k).mpr rfl)
    have heq : e = (k, v) := m.eq_of_equiv he h hkey
    exact ⟨e, hfind, congrArg Prod.snd heq⟩

theorem lookup_mapValues (f : K → V → V) : (m.mapValues f).lookup k = (m.lookup k).map (f k) := by
  apply Option.ext
  intro w
  rw [lookup_eq_some apart, Option.map_eq_some_iff]
  constructor
  · intro h
    obtain ⟨⟨k₀, v₀⟩, he, heq⟩ := List.mem_map.mp h
    cases heq
    exact ⟨v₀, (lookup_eq_some apart).mpr he, rfl⟩
  · intro h
    obtain ⟨v₀, hv₀, rfl⟩ := h
    exact List.mem_map.mpr ⟨(k, v₀), (lookup_eq_some apart).mp hv₀, rfl⟩

variable [IsTrans K lt]

/-- A key that is not there is added, and with its own value. -/
theorem lookup_emplace_self : (m.emplace k v).1.lookup k = some ((m.lookup k).getD v) := by
  rw [lookup_eq_some apart]
  cases hold : m.lookup k with
  | some w => exact emplace_keeps m k v ((lookup_eq_some apart).mp hold)
  | none =>
    apply mem_insertEntry_self
    intro e he hkey
    obtain rfl := (apart _ _).mp hkey
    rw [(lookup_eq_some apart).mpr he] at hold
    cases hold

/-- A key that is there keeps its value. -/
theorem emplace_of_lookup (h : (m.lookup k).isSome = true) : (m.emplace k v).1 = m := by
  have hkept : (insertEntry lt k v m.entries).2 = false := by
    obtain ⟨w, hw⟩ := Option.isSome_iff_exists.mp h
    have hmem := (lookup_eq_some apart).mp hw
    cases hadded : (insertEntry lt k v m.entries).2 with
    | false => rfl
    | true => exact absurd ((apart k k).mpr rfl) ((insertEntry_added_iff m.sorted).mp hadded _ hmem)
  exact OrderedMap.ext (insertEntry_kept hkept)

theorem lookup_emplace_of_ne (h : k' ≠ k) : (m.emplace k v).1.lookup k' = m.lookup k' := by
  apply Option.ext
  intro w
  rw [lookup_eq_some apart, lookup_eq_some apart]
  constructor
  · intro hmem
    obtain heq | hmem := mem_emplace hmem
    · exact absurd (congrArg Prod.fst heq) h
    · exact hmem
  · exact emplace_keeps m k v

end Lookup

end OrderedMap
