import Mathlib.Logic.Relation
import Mathlib.Data.Fintype.Card
import Mathlib.Data.List.Chain

/-!
# Grounded derivations over a finite graph

A vertex is grounded when a finite path of edges leads to it from a seed. Two
facts are kept here: a grounded vertex is the end of a path that repeats no
vertex, and a vertex that keeps being re-derived for more rounds than the graph
has vertices is grounded unless the derivation ran around a cycle.
-/

namespace CrdtSync.Lib

variable {α : Type*} {seed : α → Prop} {edge : α → α → Prop}

/-- The least set holding the seeds and closed under the edges. -/
inductive Grounded (seed : α → Prop) (edge : α → α → Prop) : α → Prop
  | seed {a : α} (h : seed a) : Grounded seed edge a
  | step {a b : α} (h : edge a b) (ha : Grounded seed edge a) : Grounded seed edge b

/-- A path `first, …, last` along the edges, from a seed and repeating no vertex. -/
structure SimplePath (seed : α → Prop) (edge : α → α → Prop) (links : List α) (last : α) : Prop where
  starts : ∃ first, links.head? = some first ∧ seed first
  follows : links.IsChain edge
  ends : links.getLast? = some last
  nodup : links.Nodup

theorem SimplePath.cut {links : List α} {last a : α} (h : SimplePath seed edge links last)
    (ha : a ∈ links) : ∃ links', SimplePath seed edge links' a := by
  obtain ⟨before, after, rfl⟩ := List.append_of_mem ha
  refine ⟨before ++ [a], ?_, ?_, by simp, ?_⟩
  · obtain ⟨first, hFirst, hSeed⟩ := h.starts
    refine ⟨first, ?_, hSeed⟩
    cases before <;> simpa using hFirst
  · have hSplit : before ++ a :: after = (before ++ [a]) ++ after := by simp
    exact (hSplit ▸ h.follows).left_of_append
  · have hSplit : before ++ a :: after = (before ++ [a]) ++ after := by simp
    exact (List.nodup_append.mp (hSplit ▸ h.nodup)).1

theorem SimplePath.snoc {links : List α} {a b : α} (h : SimplePath seed edge links a)
    (hEdge : edge a b) (hFresh : b ∉ links) : SimplePath seed edge (links ++ [b]) b where
  starts := by
    obtain ⟨first, hFirst, hSeed⟩ := h.starts
    refine ⟨first, ?_, hSeed⟩
    rw [List.head?_append, hFirst]
    rfl
  follows := by
    refine List.isChain_append.mpr ⟨h.follows, List.isChain_singleton b, ?_⟩
    intro x hx y hy
    have hxa : x = a := Option.some.inj ((Option.mem_def.mp hx).symm.trans h.ends)
    have hyb : y = b := by simpa using hy.symm
    exact hxa ▸ hyb ▸ hEdge
  ends := by simp
  nodup := by
    refine List.nodup_append.mpr ⟨h.nodup, List.nodup_singleton b, ?_⟩
    intro x hx y hy hxy
    rw [List.mem_singleton] at hy
    exact hFresh (hy ▸ hxy ▸ hx)

theorem SimplePath.eq_last_or_edge {links : List α} {last a : α}
    (h : SimplePath seed edge links last) (ha : a ∈ links) : a = last ∨ ∃ b, edge a b := by
  obtain ⟨before, after, rfl⟩ := List.append_of_mem ha
  cases after with
  | nil => exact .inl (by simpa using h.ends)
  | cons b after =>
    have hChain : (a :: b :: after).IsChain edge := h.follows.right_of_append
    exact .inr ⟨b, (List.isChain_cons_cons.mp hChain).1⟩

theorem Grounded.exists_simplePath {a : α} (h : Grounded seed edge a) :
    ∃ links, SimplePath seed edge links a := by
  classical
  induction h with
  | @seed a hSeed =>
    exact ⟨[a], ⟨a, rfl, hSeed⟩, List.isChain_singleton a, rfl, List.nodup_singleton a⟩
  | @step a b hEdge _ ih =>
    obtain ⟨links, hPath⟩ := ih
    by_cases hb : b ∈ links
    · exact hPath.cut hb
    · exact ⟨links ++ [b], hPath.snoc hEdge hb⟩

theorem Grounded.of_isChain {first : α} (h : Grounded seed edge first) {links : List α}
    (hHead : links.head? = some first) (hChain : links.IsChain edge) :
    ∀ a ∈ links, Grounded seed edge a := by
  induction links generalizing first with
  | nil => simp at hHead
  | cons b rest ih =>
    obtain rfl : b = first := by simpa using hHead
    intro a ha
    rcases List.mem_cons.mp ha with rfl | ha
    · exact h
    · cases rest with
      | nil => simp at ha
      | cons c rest =>
        obtain ⟨hEdge, hRest⟩ := List.isChain_cons_cons.mp hChain
        exact ih (.step hEdge h) rfl hRest a ha

theorem SimplePath.grounded {links : List α} {last : α} (h : SimplePath seed edge links last) :
    Grounded seed edge last := by
  obtain ⟨first, hFirst, hSeed⟩ := h.starts
  exact (Grounded.seed hSeed).of_isChain hFirst h.follows last (List.mem_of_getLast? h.ends)

theorem Grounded.mono {seed' : α → Prop} {edge' : α → α → Prop} {a : α}
    (hSeed : ∀ a, seed a → seed' a) (hEdge : ∀ a b, edge a b → edge' a b)
    (h : Grounded seed edge a) : Grounded seed' edge' a := by
  induction h with
  | seed h => exact .seed (hSeed _ h)
  | step h _ ih => exact .step (hEdge _ _ h) ih

section Rounds

variable [Fintype α] {live : ℕ → α → Prop}

/-- Following a derivation backwards visits a new vertex every round until it
meets a seed or comes back to a vertex it has seen. -/
private theorem grounded_of_visited
    (hStep : ∀ m a, live (m + 1) a → seed a ∨ ∃ b, edge b a ∧ live m b)
    (hCycle : ∀ m a, live m a → Relation.TransGen edge a a → Grounded seed edge a)
    (m : ℕ) (a : α) (visited : Finset α) (hVisited : ∀ v ∈ visited, Relation.TransGen edge a v)
    (hCard : Fintype.card α < m + visited.card + 1) (h : live m a) : Grounded seed edge a := by
  classical
  induction m generalizing a visited with
  | zero =>
    by_cases ha : a ∈ visited
    · exact hCycle 0 a h (hVisited a ha)
    · have hBound := (insert a visited).card_le_univ
      rw [Finset.card_insert_of_notMem ha] at hBound
      omega
  | succ m ih =>
    by_cases ha : a ∈ visited
    · exact hCycle (m + 1) a h (hVisited a ha)
    · rcases hStep m a h with hSeed | ⟨b, hEdge, hb⟩
      · exact .seed hSeed
      · refine .step hEdge (ih b (insert a visited) ?_ ?_ hb)
        · intro v hv
          rcases Finset.mem_insert.mp hv with rfl | hv
          · exact .single hEdge
          · exact .head hEdge (hVisited v hv)
        · rw [Finset.card_insert_of_notMem ha]
          omega

/-- A vertex alive after as many rounds as there are vertices is grounded, when
every live vertex on a cycle is. -/
theorem grounded_of_rounds (live : ℕ → α → Prop)
    (hStep : ∀ m a, live (m + 1) a → seed a ∨ ∃ b, edge b a ∧ live m b)
    (hCycle : ∀ m a, live m a → Relation.TransGen edge a a → Grounded seed edge a)
    {m : ℕ} (hm : Fintype.card α ≤ m) {a : α} (h : live m a) : Grounded seed edge a :=
  grounded_of_visited hStep hCycle m a ∅ (by simp) (by simpa using Nat.lt_succ_of_le hm) h

end Rounds

end CrdtSync.Lib
