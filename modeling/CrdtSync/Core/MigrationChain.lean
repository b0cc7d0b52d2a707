import Mathlib.Data.List.Basic
import CrdtSync.Core.Migration

/-!
# Migration chains

An op's image along a chain of edges. Up, a key is renamed or its op dropped step by step. Down,
only a chain of additions has an image at all, and it drops what addresses an addition.
-/

namespace CrdtSync

namespace OpRewrite

/-- Thread a kept op on. A drop stays one. -/
def bind (rewrite : OpRewrite) (f : Op → OpRewrite) : OpRewrite :=
  match rewrite with
  | keep op => f op
  | drop => drop

end OpRewrite

/-- Fold each rewrite in turn, a drop short-circuiting the rest. -/
def rewriteEach {α : Type} (rewrite : α → Op → OpRewrite) : List α → Op → OpRewrite
  | [], op => .keep op
  | a :: rest, op =>
    match rewrite a op with
    | .keep next => rewriteEach rewrite rest next
    | .drop => .drop

/-- The same where a rewrite may have no image. -/
def invertEach {α : Type} (rewrite : α → Op → Option OpRewrite) : List α → Op → Option OpRewrite
  | [], op => some (.keep op)
  | a :: rest, op =>
    match rewrite a op with
    | none => none
    | some (.keep next) => invertEach rewrite rest next
    | some .drop => some .drop

namespace Migration

/-- An op's image forward across the edge, its steps in declaration order. -/
def rewriteUp (m : Migration) (op : Op) : OpRewrite := rewriteEach Step.rewriteUp m.steps op

/-- An op's image backward across the edge, last step first. A breaking edge has none. -/
def rewriteDown (m : Migration) (op : Op) : Option OpRewrite :=
  if m.compat = .breaking then none else invertEach Step.rewriteDown m.steps.reverse op

end Migration

def rewriteUpAlong (edges : List Migration) (op : Op) : OpRewrite :=
  rewriteEach Migration.rewriteUp edges op

def reachableDown (edges : List Migration) : Bool :=
  edges.all fun edge => edge.compat = .backCompatible

def rewriteDownAlong (edges : List Migration) (op : Op) : Option OpRewrite :=
  if !reachableDown edges then none else invertEach Migration.rewriteDown edges.reverse op

/-! ### Up -/

theorem rewriteEach_append {α : Type} (rewrite : α → Op → OpRewrite) (l l' : List α) (op : Op) :
    rewriteEach rewrite (l ++ l') op = (rewriteEach rewrite l op).bind (rewriteEach rewrite l') := by
  induction l generalizing op with
  | nil => rfl
  | cons a rest ih =>
    rw [List.cons_append, rewriteEach, rewriteEach]
    cases rewrite a op with
    | keep next => exact ih next
    | drop => rfl

theorem rewriteUpAlong_eq_steps (edges : List Migration) (op : Op) :
    rewriteUpAlong edges op = rewriteEach Step.rewriteUp (edges.flatMap Migration.steps) op := by
  induction edges generalizing op with
  | nil => rfl
  | cons edge edges ih =>
    rw [List.flatMap_cons, rewriteEach_append, rewriteUpAlong, rewriteEach]
    change (match edge.rewriteUp op with | .keep next => rewriteUpAlong edges next | .drop => .drop) =
      (edge.rewriteUp op).bind _
    cases edge.rewriteUp op with
    | keep next => exact ih next
    | drop => rfl

/-! ### Down -/

def addedFields (edges : List Migration) : List Bytes :=
  (edges.flatMap Migration.steps).filterMap fun
    | .addField _ field _ => some field
    | _ => none

/-- The op addresses a field the chain adds. -/
def TouchesAdded (edges : List Migration) (op : Op) : Prop :=
  ∃ field ∈ addedFields edges, opKey op = some field

instance (edges : List Migration) (op : Op) : Decidable (TouchesAdded edges op) :=
  inferInstanceAs (Decidable (∃ field ∈ addedFields edges, opKey op = some field))

theorem touchesAdded_append {edges edges' : List Migration} {op : Op} :
    TouchesAdded (edges ++ edges') op ↔ TouchesAdded edges op ∨ TouchesAdded edges' op := by
  simp only [TouchesAdded, addedFields, List.flatMap_append, List.filterMap_append, List.mem_append,
    or_and_right, exists_or]

theorem invertEach_of_filter {α : Type} {rewrite : α → Op → Option OpRewrite} {l : List α} {op : Op}
    {p : α → Prop} [DecidablePred p]
    (h : ∀ a ∈ l, rewrite a op = some (if p a then .drop else .keep op)) :
    invertEach rewrite l op = some (if ∃ a ∈ l, p a then .drop else .keep op) := by
  induction l with
  | nil => simp [invertEach]
  | cons a rest ih =>
    have hRest := ih fun b hb => h b (List.mem_cons_of_mem _ hb)
    rw [invertEach, h a List.mem_cons_self]
    by_cases hDrop : p a
    · rw [if_pos hDrop, if_pos ⟨a, List.mem_cons_self, hDrop⟩]
    · rw [if_neg hDrop]
      refine hRest.trans ?_
      simp only [List.exists_mem_cons_iff, hDrop, false_or]

def Step.Adds (op : Op) : Step → Prop
  | .addField _ field _ => opKey op = some field
  | _ => False

instance (op : Op) : DecidablePred (Step.Adds op)
  | .addField _ field _ => inferInstanceAs (Decidable (opKey op = some field))
  | .addType _ | .removeType _ | .renameType _ _ | .removeField _ _ | .renameField _ _ _ => .isFalse id

theorem touchesAdded_iff {edges : List Migration} {op : Op} :
    TouchesAdded edges op ↔ ∃ edge ∈ edges, ∃ step ∈ edge.steps, step.Adds op := by
  constructor
  · rintro ⟨field, hField, hKey⟩
    obtain ⟨step, hStep, hAdds⟩ := List.mem_filterMap.mp hField
    obtain ⟨edge, hEdge, hIn⟩ := List.mem_flatMap.mp hStep
    refine ⟨edge, hEdge, step, hIn, ?_⟩
    cases step with
    | addField _ added _ => exact Option.some_inj.mp hAdds ▸ hKey
    | _ => cases hAdds
  · rintro ⟨edge, hEdge, step, hIn, hAdds⟩
    cases step with
    | addField _ added _ =>
      exact ⟨added, List.mem_filterMap.mpr ⟨_, List.mem_flatMap.mpr ⟨edge, hEdge, hIn⟩, rfl⟩, hAdds⟩
    | _ => exact hAdds.elim

theorem Migration.compat_eq_backCompatible {m : Migration} :
    m.compat = .backCompatible ↔ ∀ step ∈ m.steps, step.compat = .backCompatible := by
  unfold compat
  split
  next h => simpa using h
  next h => simpa using h

theorem Migration.rewriteDown_eq {m : Migration} (h : m.compat = .backCompatible) (op : Op) :
    m.rewriteDown op = some (if ∃ step ∈ m.steps, step.Adds op then .drop else .keep op) := by
  have hStep : ∀ step ∈ m.steps.reverse,
      step.rewriteDown op = some (if step.Adds op then .drop else .keep op) := by
    intro step hStep
    have hCompat := compat_eq_backCompatible.mp h step (List.mem_reverse.mp hStep)
    cases step with
    | addField _ field _ => rfl
    | addType => rfl
    | removeType | removeField | renameType | renameField => cases hCompat
  rw [rewriteDown, h, if_neg (by decide), invertEach_of_filter hStep]
  simp only [List.mem_reverse]

/-- Down a chain of additions an op is kept as it is, or dropped where it addresses one of them. -/
theorem rewriteDownAlong_eq (edges : List Migration) (op : Op) :
    rewriteDownAlong edges op =
      if reachableDown edges then some (if TouchesAdded edges op then .drop else .keep op)
      else none := by
  unfold rewriteDownAlong
  by_cases h : reachableDown edges = true
  · have hEdge : ∀ edge ∈ edges.reverse, edge.rewriteDown op =
        some (if ∃ step ∈ edge.steps, step.Adds op then .drop else .keep op) := fun edge hEdge =>
      edge.rewriteDown_eq (by simpa using List.all_eq_true.mp h edge (List.mem_reverse.mp hEdge)) op
    rw [h, if_pos rfl, if_neg (by decide), invertEach_of_filter hEdge]
    simp only [List.mem_reverse, touchesAdded_iff]
  · rw [Bool.not_eq_true] at h
    rw [h]
    rfl

/-- A chain of additions changes nothing on the way up. -/
theorem rewriteUpAlong_of_reachable {edges : List Migration} (h : reachableDown edges = true)
    (op : Op) : rewriteUpAlong edges op = .keep op := by
  rw [rewriteUpAlong_eq_steps]
  have hAll : ∀ step ∈ edges.flatMap Migration.steps, step.rewriteUp op = .keep op := by
    intro step hStep
    obtain ⟨edge, hEdge, hIn⟩ := List.mem_flatMap.mp hStep
    have hCompat : edge.compat = .backCompatible := by
      simpa using List.all_eq_true.mp h edge hEdge
    have hInverse := Migration.compat_eq_backCompatible.mp hCompat step hIn
    cases step with
    | addField | addType => rfl
    | removeType | removeField | renameType | renameField => cases hInverse
  generalize edges.flatMap Migration.steps = steps at hAll
  induction steps with
  | nil => rfl
  | cons step steps ih =>
    rw [rewriteEach, hAll step List.mem_cons_self]
    exact ih fun later hLater => hAll later (List.mem_cons_of_mem _ hLater)

/-! ### Chains of chains -/

theorem reachableDown_append (edges edges' : List Migration) :
    reachableDown (edges ++ edges') = (reachableDown edges && reachableDown edges') :=
  List.all_append

/-- What is left of an op rewritten down one chain, rewritten down the next. -/
def thenDown (edges : List Migration) : Option OpRewrite → Option OpRewrite
  | none => none
  | some .drop => some .drop
  | some (.keep op) => rewriteDownAlong edges op

theorem rewriteDownAlong_append (edges edges' : List Migration) (op : Op) :
    rewriteDownAlong (edges ++ edges') op =
      if reachableDown edges then thenDown edges (rewriteDownAlong edges' op) else none := by
  simp only [rewriteDownAlong_eq, reachableDown_append, touchesAdded_append]
  cases h : reachableDown edges with
  | false => rfl
  | true =>
    cases h' : reachableDown edges' with
    | false => rfl
    | true =>
      by_cases hLater : TouchesAdded edges' op
      · simp [hLater, thenDown]
      · simp [hLater, thenDown, rewriteDownAlong_eq, h]

/-- Down after up brings an op back exactly where the chain only adds and the op touches none of
what it adds. -/
theorem down_after_up_iff (edges : List Migration) (op : Op) :
    (∃ next, rewriteUpAlong edges op = .keep next ∧
      rewriteDownAlong edges next = some (.keep op)) ↔
      reachableDown edges = true ∧ ¬TouchesAdded edges op := by
  constructor
  · rintro ⟨next, hUp, hDown⟩
    rw [rewriteDownAlong_eq] at hDown
    by_cases h : reachableDown edges = true
    · rw [rewriteUpAlong_of_reachable h] at hUp
      obtain rfl := OpRewrite.keep.inj hUp
      refine ⟨h, fun hTouches => ?_⟩
      rw [if_pos h, if_pos hTouches] at hDown
      cases hDown
    · rw [if_neg h] at hDown
      cases hDown
  · rintro ⟨h, hTouches⟩
    exact ⟨op, rewriteUpAlong_of_reachable h op, by rw [rewriteDownAlong_eq, if_pos h, if_neg hTouches]⟩

/-- What a chain makes of an op in both directions, and along two chains in a row. -/
theorem chain_rewriting :
    (∀ edges op, (rewriteDownAlong edges op).isSome = true ↔ reachableDown edges = true) ∧
    (∀ edges op next, rewriteDownAlong edges op = some (.keep next) ↔
      reachableDown edges = true ∧ ¬TouchesAdded edges op ∧ next = op) ∧
    (∀ edges op, (∃ next, rewriteUpAlong edges op = .keep next ∧
        rewriteDownAlong edges next = some (.keep op)) ↔
      reachableDown edges = true ∧ ¬TouchesAdded edges op) ∧
    (∀ edges edges' op,
      rewriteUpAlong (edges ++ edges') op = (rewriteUpAlong edges op).bind (rewriteUpAlong edges')) ∧
    (∀ edges edges' op, reachableDown edges = true →
      rewriteDownAlong (edges ++ edges') op = thenDown edges (rewriteDownAlong edges' op)) ∧
    ∀ edges edges' op, reachableDown edges = false → rewriteDownAlong (edges ++ edges') op = none := by
  refine ⟨fun edges op => ?_, fun edges op next => ?_, down_after_up_iff,
    fun edges edges' op => rewriteEach_append Migration.rewriteUp edges edges' op,
    fun edges edges' op h => ?_, fun edges edges' op h => ?_⟩
  · rw [rewriteDownAlong_eq]
    by_cases h : reachableDown edges = true
    · rw [if_pos h]
      exact iff_of_true rfl h
    · rw [if_neg h]
      exact iff_of_false Bool.false_ne_true h
  · rw [rewriteDownAlong_eq]
    by_cases h : reachableDown edges = true <;> by_cases hTouches : TouchesAdded edges op <;>
      simp [h, hTouches, eq_comm]
  · rw [rewriteDownAlong_append, if_pos h]
  · rw [rewriteDownAlong_append, h]
    rfl

section Examples

def wroteField (key : Bytes) : Op := ⟨⟨⟨1⟩, 0⟩, ⟨1, ⟨1⟩, 0⟩, .fromBytes 0, .mapSet key .null, none, none⟩

/-- Down a chain that adds one field, an op on another comes back as it went up. -/
theorem chain_rewriting_added :
    rewriteDownAlong ([⟨1, 2, [.addField [109] [98] [116]]⟩] ++ [⟨2, 3, [.addType [117]]⟩])
      (wroteField [97]) = some (.keep (wroteField [97])) :=
  (chain_rewriting.2.2.2.2.1 _ _ _ rfl).trans
    ((chain_rewriting.2.1 _ _ _).mpr ⟨rfl, by decide, rfl⟩)

/-- A bare rename has no inverse, even for an op that never had the renamed key. -/
theorem down_after_rename :
    ¬TouchesAdded [⟨1, 2, [.renameField [109] [97] [98]]⟩] (wroteField [99]) ∧
      rewriteUpAlong [⟨1, 2, [.renameField [109] [97] [98]]⟩] (wroteField [99]) =
        .keep (wroteField [99]) ∧
      rewriteDownAlong [⟨1, 2, [.renameField [109] [97] [98]]⟩] (wroteField [99]) ≠
        some (.keep (wroteField [99])) := by
  decide +kernel

end Examples

end CrdtSync
