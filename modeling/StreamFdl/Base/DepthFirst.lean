import Mathlib.Data.Finset.Dedup
import Mathlib.Data.List.Chain
import Mathlib.Data.List.Perm.Basic
import Mathlib.Logic.Relation
import Mathlib.Order.Preorder.Finite

/- Depth-first search over an arbitrary successor function, as a relation between
   what is unvisited before and after it and the log of its visits, each with the
   search path it was made on (the proper ancestors, first one first).

   A search never returns to a visited vertex, and yet it comes to every vertex
   on the path on which a search that forgets what it visited would come to it
   first: `firstPath` is the first simple path in lexicographic order. What
   decides that is that no visited vertex that was left leads to an unvisited one. -/
namespace DepthFirst

variable {K : Type} [DecidableEq K]

/-- Visit the unvisited vertices of a list and what they lead to. -/
inductive Explore (next : K → List K) : List K → List K → List K → List K → List (K × List K) → Prop where
  | done {white path : List K} : Explore next white path [] white []
  | seen {white path ys white' : List K} {y : K} {log : List (K × List K)} (h : y ∉ white)
      (rest : Explore next white path ys white' log) : Explore next white path (y :: ys) white' log
  | visit {white path ys white₁ white₂ : List K} {y : K} {log₁ log₂ : List (K × List K)} (h : y ∈ white)
      (below : Explore next (white.erase y) (path ++ [y]) (next y) white₁ log₁)
      (rest : Explore next white₁ path ys white₂ log₂) :
      Explore next white path (y :: ys) white₂ ((y, path) :: (log₁ ++ log₂))

/-- The simple paths that extend `path` through `ys` by at most `n` vertices, in the order a search
    without memory would come to them. -/
def paths (next : K → List K) : Nat → List K → List K → List (List K)
  | 0, _, _ => []
  | n+1, path, ys => ys.flatMap fun y =>
    if y ∈ path then [] else (path ++ [y]) :: paths next n (path ++ [y]) (next y)

def endsIn (v : K) (p : List K) : Bool := decide (p.getLast? = some v)

/-- The first simple path from one of `starts` to `v`. -/
def firstPath (next : K → List K) (n : Nat) (starts : List K) (v : K) : Option (List K) :=
  (paths next n [] starts).find? (endsIn v)

def Reaches (next : K → List K) (a b : K) : Prop := Relation.ReflTransGen (fun a b => b ∈ next a) a b

/-- Whatever the vertex reaches leads back to it. -/
def Terminal (next : K → List K) (a : K) : Prop := ∀ b, Reaches next a b → Reaches next b a

variable {next : K → List K} {white white' path ys : List K} {log : List (K × List K)}

/-! Every vertex that was unvisited is logged once, or still unvisited. -/

theorem Explore.perm (h : Explore next white path ys white' log) :
    (log.map Prod.fst ++ white').Perm white := by
  induction h with
  | done => exact List.Perm.refl _
  | seen _ _ ih => exact ih
  | @visit white path ys white₁ white₂ y log₁ log₂ hy _ _ ih₁ ih₂ =>
    have hrest : (log₁.map Prod.fst ++ (log₂.map Prod.fst ++ white₂)).Perm (white.erase y) :=
      (ih₂.append_left _).trans ih₁
    rw [List.map_cons, List.map_append, List.cons_append, List.append_assoc]
    exact (hrest.cons y).trans (List.perm_cons_erase hy).symm

theorem Explore.subset (h : Explore next white path ys white' log) : white' ⊆ white := by
  intro y hy
  exact h.perm.subset (List.mem_append_right _ hy)

theorem Explore.logged (h : Explore next white path ys white' log) {v : K} (hv : v ∈ white)
    (hnot : v ∉ white') : ∃ q, (v, q) ∈ log := by
  obtain hlog | hleft := List.mem_append.mp (h.perm.symm.subset hv)
  · obtain ⟨⟨_, q⟩, hq, rfl⟩ := List.mem_map.mp hlog
    exact ⟨q, hq⟩
  · exact absurd hleft hnot

theorem Explore.nodup (h : Explore next white path ys white' log) (hnd : white.Nodup) : white'.Nodup :=
  (List.nodup_append.mp (h.perm.nodup_iff.mpr hnd)).2.1

/-! Nothing that was visited leads to an unvisited vertex. -/

theorem Explore.starts (h : Explore next white path ys white' log) (hnd : white.Nodup) :
    ∀ y ∈ ys, y ∉ white' := by
  induction h with
  | done =>
    intro y hy
    cases hy
  | seen hy rest ih =>
    intro z hz
    obtain rfl | hz := List.mem_cons.mp hz
    · exact fun hin => hy (rest.subset hin)
    · exact ih hnd z hz
  | visit hy below rest _ ih₂ =>
    intro z hz
    obtain rfl | hz := List.mem_cons.mp hz
    · intro hin
      exact hnd.not_mem_erase (below.subset (rest.subset hin))
    · exact ih₂ (below.nodup (hnd.erase _)) z hz

theorem Explore.leads (h : Explore next white path ys white' log) (hnd : white.Nodup) :
    ∀ e ∈ log, ∀ z ∈ next e.1, z ∉ white' := by
  induction h with
  | done =>
    intro e he
    cases he
  | seen _ _ ih => exact ih hnd
  | visit hy below rest ih₁ ih₂ =>
    intro e he z hz
    obtain rfl | he := List.mem_cons.mp he
    · intro hin
      exact below.starts (hnd.erase _) z hz (rest.subset hin)
    · obtain he | he := List.mem_append.mp he
      · intro hin
        exact ih₁ (hnd.erase _) e he z hz (rest.subset hin)
      · exact ih₂ (below.nodup (hnd.erase _)) e he z hz

/-- Starts that are visited anyway may be left out. -/
theorem Explore.extend {zs : List K} (h : Explore next white path ys white' log) (hsub : ys.Sublist zs)
    (hnd : zs.Nodup) (hmem : ∀ z ∈ zs, z ∈ white → z ∈ ys) : Explore next white path zs white' log := by
  induction hsub generalizing white log with
  | slnil => exact h
  | @cons ys zs z hsub ih =>
    obtain ⟨hz, hnd⟩ := List.nodup_cons.mp hnd
    have hout : z ∉ white := fun hin => hz (hsub.subset (hmem z List.mem_cons_self hin))
    exact .seen hout (ih h hnd fun z' hz' => hmem z' (List.mem_cons_of_mem _ hz'))
  | @cons_cons ys zs z hsub ih =>
    obtain ⟨hz, hnd⟩ := List.nodup_cons.mp hnd
    have hmem' : ∀ z' ∈ zs, z' ∈ white → z' ∈ ys := by
      intro z' hz' hin
      obtain rfl | hys := List.mem_cons.mp (hmem z' (List.mem_cons_of_mem _ hz') hin)
      · exact absurd hz' hz
      · exact hys
    cases h with
    | seen hout rest => exact .seen hout (ih rest hnd hmem')
    | visit hin below rest =>
      refine .visit hin below (ih rest hnd fun z' hz' hin' => hmem' z' hz' ?_)
      exact List.mem_of_mem_erase (below.subset hin')

/-! The search paths. -/

/-- No visited vertex off the path leads to an unvisited one. -/
def Left (next : K → List K) (white path : List K) : Prop :=
  ∀ b, b ∉ white → b ∉ path → ∀ c ∈ next b, c ∉ white

theorem paths_cons (next : K → List K) (n : Nat) (path ys : List K) (y : K) :
    paths next (n + 1) path (y :: ys) =
      (if y ∈ path then [] else (path ++ [y]) :: paths next n (path ++ [y]) (next y)) ++
        paths next (n + 1) path ys := rfl

theorem endsIn_concat {v y : K} : endsIn v (path ++ [y]) = decide (y = v) := by
  simp [endsIn]

/-- Paths through visited vertices end in one. -/
theorem Left.not_endsIn {n : Nat} (h : Left next white path) (hys : ∀ y ∈ ys, y ∉ path → y ∉ white) :
    ∀ p ∈ paths next n path ys, ∀ v ∈ white, endsIn v p = false := by
  induction n generalizing path ys with
  | zero =>
    intro p hp
    cases hp
  | succ n ih =>
    intro p hp v hv
    obtain ⟨y, hy, hp⟩ := List.mem_flatMap.mp hp
    split at hp
    · cases hp
    · next hpath =>
      have hout := hys y hy hpath
      obtain rfl | hp := List.mem_cons.mp hp
      · rw [endsIn_concat, decide_eq_false_iff_not]
        exact fun hyv => hout (hyv ▸ hv)
      · have hleft : Left next white (path ++ [y]) :=
          fun b hb hp => h b hb fun hin => hp (List.mem_append_left _ hin)
        exact ih hleft (fun z hz _ => h y hout hpath z hz) p hp v hv

theorem find_endsIn_none {v : K} {ps : List (List K)} (h : ∀ p ∈ ps, endsIn v p = false) :
    ps.find? (endsIn v) = none :=
  List.find?_eq_none.mpr fun p hp => by simp [h p hp]

/-- The paths through a visited vertex come first, but end in visited vertices. -/
theorem Left.find_seen {n : Nat} {y v : K} (h : Left next white path) (hy : y ∉ white) (hv : v ∈ white) :
    (paths next (n + 1) path (y :: ys)).find? (endsIn v) =
      (paths next (n + 1) path ys).find? (endsIn v) := by
  have hends : ∀ p ∈ paths next (n + 1) path [y], endsIn v p = false := by
    intro p hp
    exact h.not_endsIn (fun z hz _ => List.mem_singleton.mp hz ▸ hy) p hp v hv
  have hnone := find_endsIn_none hends
  rw [paths_cons, paths, List.flatMap_nil, List.append_nil] at hnone
  rw [paths_cons, List.find?_append, hnone, Option.none_or]

/-- The paths through an unvisited vertex: to itself, on through it, and past it. -/
theorem find_visit {n : Nat} {y v : K} (hy : y ∉ path) :
    (paths next (n + 1) path (y :: ys)).find? (endsIn v) =
      if y = v then some (path ++ [y])
      else ((paths next n (path ++ [y]) (next y)).find? (endsIn v)).or
        ((paths next (n + 1) path ys).find? (endsIn v)) := by
  rw [paths_cons, if_neg hy, List.find?_append, List.find?_cons, endsIn_concat]
  by_cases hyv : y = v
  · simp [hyv]
  · simp [hyv]

/-- What is left unvisited after a visit is not reached by what was visited in it. -/
theorem Left.after {white₁ : List K} {y : K} {log₁ : List (K × List K)} (h : Left next white path)
    (hnd : white.Nodup) (hy : y ∈ white)
    (below : Explore next (white.erase y) (path ++ [y]) (next y) white₁ log₁) :
    Left next white₁ path := by
  intro b hb hpath c hc hin
  have hcwhite : c ∈ white := List.mem_of_mem_erase (below.subset hin)
  by_cases hbw : b ∈ white
  · by_cases hby : b = y
    · subst hby
      exact below.starts (hnd.erase _) c hc hin
    · obtain ⟨q, hq⟩ := below.logged ((List.mem_erase_of_ne hby).mpr hbw) hb
      exact below.leads (hnd.erase _) _ hq c hc hin
  · exact h b hbw hpath c hc hcwhite

/-- A search comes to each vertex on the first simple path to it, and there is none to the vertices
    it leaves unvisited. -/
theorem Explore.first (h : Explore next white path ys white' log) (hnd : white.Nodup)
    (hdis : ∀ y ∈ white, y ∉ path) (hleft : Left next white path) {n : Nat} (hn : white.length ≤ n)
    {v : K} (hv : v ∈ white) :
    (∀ q, (v, q) ∈ log → (paths next n path ys).find? (endsIn v) = some (q ++ [v])) ∧
      (v ∈ white' → (paths next n path ys).find? (endsIn v) = none) := by
  induction h generalizing n with
  | done =>
    refine ⟨fun q hq => absurd hq List.not_mem_nil, fun _ => ?_⟩
    cases n <;> rfl
  | @seen white path ys white' y log hy rest ih =>
    obtain ⟨n, rfl⟩ : ∃ k, n = k + 1 :=
      Nat.exists_eq_add_one.mpr (Nat.lt_of_lt_of_le (List.length_pos_of_mem hv) hn)
    rw [hleft.find_seen hy hv]
    exact ih hnd hdis hleft hn hv
  | @visit white path ys white₁ white₂ y log₁ log₂ hy below rest ih₁ ih₂ =>
    obtain ⟨n, rfl⟩ : ∃ k, n = k + 1 :=
      Nat.exists_eq_add_one.mpr (Nat.lt_of_lt_of_le (List.length_pos_of_mem hv) hn)
    have hsub₁ : white₁ ⊆ white.erase y := below.subset
    have hdis₁ : ∀ z ∈ white₁, z ∉ path := fun z hz => hdis z (List.mem_of_mem_erase (hsub₁ hz))
    have hlen : (white.erase y).length ≤ n := by
      rw [List.length_erase_of_mem hy]
      omega
    have hlen₁ : white₁.length ≤ n + 1 := by
      have := below.perm.length_eq
      rw [List.length_append] at this
      omega
    rw [find_visit (hdis y hy)]
    by_cases hyv : y = v
    -- `y` itself: it is logged here and nowhere else
    · subst hyv
      have hgone : y ∉ white.erase y := hnd.not_mem_erase
      rw [if_pos rfl]
      refine ⟨fun q hq => ?_, fun hin => absurd (hsub₁ (rest.subset hin)) hgone⟩
      obtain heq | hq := List.mem_cons.mp hq
      · cases heq
        rfl
      · obtain hq | hq := List.mem_append.mp hq
        · exact absurd (below.perm.subset (List.mem_append_left _ (List.mem_map_of_mem hq))) hgone
        · exact absurd (hsub₁ (rest.perm.subset (List.mem_append_left _ (List.mem_map_of_mem hq)))) hgone
    · rw [if_neg hyv]
      have hve : v ∈ white.erase y := (List.mem_erase_of_ne (Ne.symm hyv)).mpr hv
      have hdis' : ∀ z ∈ white.erase y, z ∉ path ++ [y] := by
        intro z hz hin
        obtain hin | hin := List.mem_append.mp hin
        · exact hdis z (List.mem_of_mem_erase hz) hin
        · rw [List.mem_singleton.mp hin] at hz
          exact hnd.not_mem_erase hz
      have hleft' : Left next (white.erase y) (path ++ [y]) := by
        intro b hb hp c hc hin
        have hby : b ≠ y := fun hby => hp (List.mem_append_right _ (List.mem_singleton.mpr hby))
        refine hleft b (fun hin => hb ((List.mem_erase_of_ne hby).mpr hin))
          (fun hin => hp (List.mem_append_left _ hin)) c hc (List.mem_of_mem_erase hin)
      obtain ⟨hfirst, hnone⟩ := ih₁ (hnd.erase _) hdis' hleft' hlen hve
      by_cases hv₁ : v ∈ white₁
      -- not found below `y`: it is found past it, or not at all
      · obtain ⟨hfirst₂, hnone₂⟩ := ih₂ (below.nodup (hnd.erase _)) hdis₁ (hleft.after hnd hy below) hlen₁ hv₁
        rw [hnone hv₁, Option.none_or]
        refine ⟨fun q hq => ?_, hnone₂⟩
        obtain heq | hq := List.mem_cons.mp hq
        · cases heq
          exact absurd rfl hyv
        · obtain hq | hq := List.mem_append.mp hq
          · have hcount := below.perm.nodup_iff.mpr (hnd.erase _)
            exact absurd hv₁ ((List.nodup_append.mp hcount).2.2 _ (List.mem_map_of_mem hq) _ · rfl)
          · exact hfirst₂ q hq
      · obtain ⟨q₁, hq₁⟩ := below.logged hve hv₁
        rw [hfirst q₁ hq₁, Option.some_or]
        refine ⟨fun q hq => ?_, fun hin => absurd (rest.subset hin) hv₁⟩
        obtain heq | hq := List.mem_cons.mp hq
        · cases heq
          exact absurd rfl hyv
        · obtain hq | hq := List.mem_append.mp hq
          · rw [← hfirst q₁ hq₁]
            exact hfirst q hq
          · exact absurd (rest.perm.subset (List.mem_append_left _ (List.mem_map_of_mem hq))) hv₁

/-- The log of a search from every vertex: each of them, with the first simple path to it. -/
theorem Explore.mem_log_iff (h : Explore next white [] ys white' log) (hnd : white.Nodup)
    (hys : white ⊆ ys) (hout : ∀ b, b ∉ white → next b = []) {v : K} (hv : v ∈ white) {q : List K} :
    (v, q) ∈ log ↔ firstPath next white.length ys v = some (q ++ [v]) := by
  have hleft : Left next white [] := by
    intro b hb _ c hc
    rw [hout b hb] at hc
    cases hc
  obtain ⟨hfirst, _⟩ := h.first hnd (fun _ _ => List.not_mem_nil) hleft (Nat.le_refl _) hv
  constructor
  · exact hfirst q
  · intro hq
    obtain ⟨q', hq'⟩ := h.logged hv (h.starts hnd v (hys hv))
    have hsame := hfirst q' hq'
    unfold firstPath at hq
    rw [hq, Option.some.injEq] at hsame
    rwa [List.append_cancel_right hsame]

/-! Where every walk can end. -/

omit [DecidableEq K] in
theorem Reaches.mem {vertices : List K} {a b : K} (h : Reaches next a b)
    (hclosed : ∀ a ∈ vertices, ∀ b ∈ next a, b ∈ vertices) (ha : a ∈ vertices) : b ∈ vertices := by
  induction h with
  | refl => exact ha
  | tail _ hstep ih => exact hclosed _ ih _ hstep

/-- Every vertex of a finite graph reaches a terminal one. -/
theorem exists_terminal {vertices : List K} (hclosed : ∀ a ∈ vertices, ∀ b ∈ next a, b ∈ vertices)
    {a : K} (ha : a ∈ vertices) : ∃ t ∈ vertices, Reaches next a t ∧ Terminal next t := by
  let order : Preorder K :=
    { le := Reaches next
      le_refl := fun _ => Relation.ReflTransGen.refl
      le_trans := fun _ _ _ => Relation.ReflTransGen.trans }
  obtain ⟨t, hat, ht, hmax⟩ := vertices.toFinset.exists_le_maximal (List.mem_toFinset.mpr ha)
  have htv : t ∈ vertices := List.mem_toFinset.mp ht
  refine ⟨t, htv, hat, fun b hb => ?_⟩
  exact hmax (List.mem_toFinset.mpr (hb.mem hclosed htv)) hb

/-! Cycles. -/

/-- Distinct vertices, each of which leads to the next, and the last one to the first. -/
structure Cycle {V : Type} (leads : V → V → Prop) (cycle : List V) : Prop where
  nodup : cycle.Nodup
  chain : cycle.IsChain leads
  closes : ∀ a ∈ cycle.getLast?, ∀ b ∈ cycle.head?, leads a b

/-- A vertex that leads back to a proper ancestor on a simple path to it is on a cycle. -/
theorem exists_cycle {V : Type} {leads : V → V → Prop} {path : List V} {u v : V}
    (hnd : (path ++ [v]).Nodup) (hchain : (path ++ [v]).IsChain leads) (hu : u ∈ path) (hback : leads v u) :
    ∃ cycle, Cycle leads cycle ∧ cycle ⊆ path ++ [v] ∧ v ∈ cycle ∧ 2 ≤ cycle.length := by
  obtain ⟨before, after, rfl⟩ := List.append_of_mem hu
  rw [List.append_assoc, List.cons_append] at *
  -- the path from the ancestor on
  refine ⟨u :: (after ++ [v]), ⟨?_, hchain.right_of_append, ?_⟩, ?_, by simp, by simp⟩
  · exact (List.nodup_append.mp hnd).2.1
  · intro a ha b hb
    rw [← List.cons_append, List.getLast?_concat, Option.mem_some_iff] at ha
    rw [List.head?_cons, Option.mem_some_iff] at hb
    rwa [← ha, ← hb]
  · exact List.subset_append_right _ _

end DepthFirst
