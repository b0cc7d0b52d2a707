import Mathlib.Data.Sum.Order
import CrdtSync.Core.Validate
import CrdtSync.Lib.StackWalk

/-!
# What a validation walk reports

The walk is one over an explicit stack, so it ends on every document, shared elements and cycles
included, and reports each place at most once and in tree order. What it reports holds of the
element the place leads to, and of a tree it reports everything that is wrong.
-/

namespace CrdtSync

namespace Validate

open Lib
open Std (ExtTreeMap)

/-! ### The order of places -/

/-- A key before an index: attributes come before children. -/
def Step.rank : Step → Bytes ⊕ₗ Nat
  | .key k => Sum.inlₗ k
  | .index i => Sum.inrₗ i

theorem Step.rank_injective : Function.Injective Step.rank := by
  intro a b h
  cases a with
  | key k =>
    cases b with
    | key k' => exact congrArg Step.key (Sum.inl.inj (toLex.injective h))
    | index i => exact absurd (toLex.injective h) Sum.inl_ne_inr
  | index i =>
    cases b with
    | key k => exact absurd (toLex.injective h) Sum.inr_ne_inl
    | index j => exact congrArg Step.index (Sum.inr.inj (toLex.injective h))

instance : LinearOrder Step := LinearOrder.lift' Step.rank Step.rank_injective

theorem Step.key_lt_key {k k' : Bytes} : Step.key k < Step.key k' ↔ k < k' :=
  Sum.Lex.inl_lt_inl_iff

theorem Step.index_lt_index {i j : Nat} : Step.index i < Step.index j ↔ i < j :=
  Sum.Lex.inr_lt_inr_iff

theorem Step.key_lt_index (k : Bytes) (i : Nat) : Step.key k < Step.index i :=
  Sum.Lex.inl_lt_inr k i

def Work.path : Work → List Step
  | .check _ _ path => path
  | .unknownSlot path => path
  | .report path _ => path

section Graph

variable (c : Content) (schema : Schema)

def conforming (element : Element) (typeName : String) : Option TypeDef :=
  (schema.typeDef typeName).filter fun td => element.kind = expectedKind td

def graph : StackWalk Work ElementId where
  mark
    | .check element typeName _ => (conforming schema element typeName).bind fun _ => element.id
    | .unknownSlot _ | .report _ _ => none
  next
    | .check element typeName path => (conforming schema element typeName).elim []
        fun td => queueUnder c schema td element path
    | .unknownSlot _ | .report _ _ => []

def reports : Work → List Violation
  | .check element typeName path =>
    match schema.typeDef typeName with
    | none => []
    | some td =>
      if element.kind ≠ expectedKind td then [⟨path, .kindMismatch (expectedKind td) element.kind⟩]
      else ((ownViolation c td element).map fun kind => ⟨path, kind⟩).toList
  | .unknownSlot path => [⟨path, .unknownSlot⟩]
  | .report path kind => [⟨path, kind⟩]

def reaches : Work → Option (ElementId × List Step)
  | .check element typeName path => (schema.typeDef typeName).bind fun _ =>
      element.id.map fun id => (id, path)
  | .unknownSlot _ | .report _ _ => none

def locateWork (seqPaths : ExtTreeMap ElementId (List Step) compare) (w : Work) :
    ExtTreeMap ElementId (List Step) compare :=
  match reaches schema w with
  | some (id, path) => seqPaths.insertIfNew id path
  | none => seqPaths

/-- A validator stands as the walk of the graph does. -/
structure Follows (v : Validator) (s : StackWalk.State Work ElementId) : Prop where
  visited : v.visited = s.visited
  stack : v.stack = s.stack
  out : v.out = s.trace.flatMap (reports c schema)
  seqPaths : v.seqPaths = s.trace.foldl (locateWork schema) ∅

end Graph

variable {c : Content} {schema : Schema}

section Work

variable (c schema) (v : Validator)

theorem out_work (w : Work) : (v.work c schema w).out = v.out ++ reports c schema w := by
  cases w with
  | unknownSlot path => rfl
  | report path kind => rfl
  | check element typeName path =>
    have hLocate : (v.locate element path).out = v.out := by
      unfold Validator.locate
      split <;> rfl
    unfold Validator.work reports
    dsimp only
    unfold Validator.check
    cases schema.typeDef typeName with
    | none => exact (List.append_nil _).symm
    | some td =>
      dsimp only
      rw [hLocate]
      split
      · rfl
      · split
        · rfl
        · split <;> rfl

/-- The places it records. -/
theorem seqPaths_work (w : Work) :
    (v.work c schema w).seqPaths = locateWork schema v.seqPaths w := by
  cases w with
  | unknownSlot path => rfl
  | report path kind => rfl
  | check element typeName path =>
    unfold Validator.work locateWork reaches
    dsimp only
    unfold Validator.check
    cases schema.typeDef typeName with
    | none => rfl
    | some td =>
      have hLocate : (v.locate element path).seqPaths =
          match element.id.map fun id => (id, path) with
          | some (id, path) => v.seqPaths.insertIfNew id path
          | none => v.seqPaths := by
        unfold Validator.locate
        cases element.id <;> rfl
      rw [Option.bind_some, ← hLocate]
      dsimp only
      split
      · rfl
      · split
        · rfl
        · split <;> rfl

/-- Where it stands: at the rest of the stack, or under an element it descends into. -/
theorem work_cases (w : Work) :
    ((v.work c schema w).visited = v.visited ∧ (v.work c schema w).stack = v.stack ∧
        ∀ i ∈ (graph c schema).mark w, i ∈ v.visited) ∨
      ∃ i, (graph c schema).mark w = some i ∧ i ∉ v.visited ∧
        (v.work c schema w).visited = insert i v.visited ∧
        (v.work c schema w).stack = (graph c schema).next w ++ v.stack := by
  cases w with
  | unknownSlot path => exact .inl ⟨rfl, rfl, fun i hi => by cases hi⟩
  | report path kind => exact .inl ⟨rfl, rfl, fun i hi => by cases hi⟩
  | check element typeName path =>
    have hLocate : (v.locate element path).visited = v.visited ∧
        (v.locate element path).stack = v.stack := by
      unfold Validator.locate
      split <;> exact ⟨rfl, rfl⟩
    obtain ⟨hVisited, hStack⟩ := hLocate
    unfold Validator.work graph conforming
    dsimp only
    unfold Validator.check
    cases hType : schema.typeDef typeName with
    | none => exact .inl ⟨rfl, rfl, fun i hi => by cases hi⟩
    | some td =>
      dsimp only
      by_cases hKind : element.kind = expectedKind td
      · rw [if_neg (not_not.mpr hKind), Option.filter_some, if_pos (by simpa using hKind)]
        cases hId : element.id with
        | none => exact .inl ⟨hVisited, hStack, fun i hi => by simp at hi⟩
        | some id =>
          dsimp only
          rw [hVisited]
          split
          next hSeen =>
            refine .inl ⟨rfl, hStack, fun i hi => ?_⟩
            cases hi
            exact hSeen
          next hNew => exact .inr ⟨id, rfl, hNew, rfl, by rw [hStack]; rfl⟩
      · rw [if_pos hKind, Option.filter_some, if_neg (by simpa using hKind)]
        exact .inl ⟨hVisited, hStack, fun i hi => by cases hi⟩

end Work

theorem Follows.work {v : Validator} {s : StackWalk.State Work ElementId}
    (h : Follows c schema v s) {w : Work} {rest : List Work} :
    Follows c schema (({ v with stack := rest } : Validator).work c schema w)
      ((graph c schema).take s w rest) := by
  obtain ⟨visited, out, stack, seqPaths⟩ := v
  obtain ⟨rfl, -, rfl, rfl⟩ := h
  have hOut := out_work c schema ⟨s.visited, s.trace.flatMap (reports c schema), rest,
    s.trace.foldl (locateWork schema) ∅⟩ w
  have hPaths := seqPaths_work c schema ⟨s.visited, s.trace.flatMap (reports c schema), rest,
    s.trace.foldl (locateWork schema) ∅⟩ w
  have hTrace : ((graph c schema).take s w rest).trace = s.trace ++ [w] := by
    obtain ⟨hTake, -⟩ | ⟨i, -, -, hTake⟩ := (graph c schema).take_cases s w rest <;> rw [hTake]
  have hReport : (s.trace ++ [w]).flatMap (reports c schema) =
      s.trace.flatMap (reports c schema) ++ reports c schema w := by simp
  have hLocated : (s.trace ++ [w]).foldl (locateWork schema) ∅ =
      locateWork schema (s.trace.foldl (locateWork schema) ∅) w := by simp
  obtain ⟨hVisited, hStack, hSeen⟩ | ⟨i, hMark, hNew, hVisited, hStack⟩ :=
    work_cases c schema ⟨s.visited, s.trace.flatMap (reports c schema), rest,
      s.trace.foldl (locateWork schema) ∅⟩ w
  · obtain ⟨hTake, -⟩ | ⟨i, hMark, hNew, -⟩ := (graph c schema).take_cases s w rest
    · exact ⟨by rw [hTake, hVisited], by rw [hTake, hStack], by rw [hTrace, hReport, hOut],
        by rw [hTrace, hLocated, hPaths]⟩
    · exact absurd (hSeen i hMark) hNew
  · obtain ⟨-, hSeen⟩ | ⟨j, hMark', -, hTake⟩ := (graph c schema).take_cases s w rest
    · exact absurd (hSeen i hMark) hNew
    · obtain rfl := Option.some.inj (hMark.symm.trans hMark')
      exact ⟨by rw [hTake, hVisited], by rw [hTake, hStack], by rw [hTrace, hReport, hOut],
        by rw [hTrace, hLocated, hPaths]⟩

theorem Follows.loop {fuel : Nat} {v : Validator} {s : StackWalk.State Work ElementId}
    (h : Follows c schema v s) :
    Follows c schema (Validator.loop c schema fuel v) ((graph c schema).loop fuel s) := by
  induction fuel generalizing v s with
  | zero => exact h
  | succ fuel ih =>
    unfold Validator.loop StackWalk.loop
    rw [h.stack]
    cases hStack : s.stack with
    | nil => exact h
    | cons w rest => exact ih h.work

/-! ### The end of the walk -/

theorem entries_new (id : ElementId) : (LwwMap.new id).entries = [] := by
  unfold LwwMap.entries LwwMap.new
  simp

theorem values_new (id : ElementId) : (FugueList.new id : FugueList Element).values = [] := by
  have hLen := (FugueList.wf_new (V := Element) id).liveOrder_length_le
  have hNone : (FugueList.new id : FugueList Element).len = 0 := by simp [FugueList.len, FugueList.new]
  have hNil : (FugueList.new id : FugueList Element).liveOrder = [] :=
    List.eq_nil_of_length_eq_zero (by omega)
  rw [FugueList.values, hNil, List.filterMap_nil]

theorem length_queueXmlChildren (children : List (String × Option Nat)) (orphanInline : Option String)
    (l : FugueList Element) (path : List Step) :
    (queueXmlChildren c schema children orphanInline l path).length = l.values.length := by
  simp [queueXmlChildren]

theorem length_checkXmlAttrs (attrs : List (String × String)) (m : LwwMap) (path : List Step) :
    (checkXmlAttrs schema attrs m path).length = m.entries.length := by
  simp [checkXmlAttrs]

theorem length_queueUnder (td : TypeDef) {element : Element} {id : ElementId}
    (hId : element.id = some id) (path : List Step) :
    (queueUnder c schema td element path).length ≤ degree c id := by
  unfold queueUnder degree
  split
  · cases hId
    rw [queueSlots, List.length_map]
    omega
  · cases hId
    rw [queueItems, List.length_map, List.length_zipIdx]
    omega
  · cases hId
    rw [List.length_append, length_checkXmlAttrs, length_queueXmlChildren]
    omega
  · cases hId
    rw [length_queueXmlChildren]
    omega
  · exact Nat.zero_le _

theorem childrenOf_xmlElement (c : Content) (id : ElementId) : c.childrenOf .xmlElement id =
    if (c.xmlElements[id]?).any XmlElement.ownsChildren then c.listOf (XmlElement.childrenId id)
    else FugueList.new (XmlElement.childrenId id) := rfl

theorem childrenOf_xmlFragment (c : Content) (id : ElementId) : c.childrenOf .xmlFragment id =
    if (c.xmlFragments[id]?).any XmlFragment.ownsChildren then c.listOf (XmlElement.childrenId id)
    else FugueList.new (XmlElement.childrenId id) := rfl

theorem queueUnder_of_notMem (td : TypeDef) {element : Element} {id : ElementId}
    (hId : element.id = some id) (hOut : id ∉ branching c) (path : List Step) :
    queueUnder c schema td element path = [] := by
  simp only [branching, List.mem_dedup, List.mem_append, ExtTreeMap.mem_keys, not_or] at hOut
  obtain ⟨⟨⟨hMap, hList⟩, hXml⟩, hFragment⟩ := hOut
  have hNil : ∀ l : List Work, l.length = 0 → l = [] := fun l => List.eq_nil_of_length_eq_zero
  refine hNil _ ?_
  unfold queueUnder
  split
  · cases hId
    rw [queueSlots, List.length_map, Content.mapOf, ExtTreeMap.getElem?_eq_none hMap,
      Option.getD_none, entries_new]
    rfl
  · cases hId
    rw [queueItems, List.length_map, List.length_zipIdx, Content.listOf,
      ExtTreeMap.getElem?_eq_none hList, Option.getD_none, values_new]
    rfl
  · cases hId
    rw [List.length_append, length_checkXmlAttrs, length_queueXmlChildren, Content.attrsOf,
      childrenOf_xmlElement, ExtTreeMap.getElem?_eq_none hXml, if_neg (by simp), if_neg (by simp),
      entries_new, values_new]
    rfl
  · cases hId
    rw [length_queueXmlChildren, childrenOf_xmlFragment, ExtTreeMap.getElem?_eq_none hFragment,
      if_neg (by simp), values_new]
    rfl
  · rfl

theorem conforming_eq_some {element : Element} {typeName : String} {td : TypeDef} :
    conforming schema element typeName = some td ↔
      schema.typeDef typeName = some td ∧ element.kind = expectedKind td := by
  simp [conforming, Option.filter_eq_some_iff]

theorem mark_eq_some {w : Work} {i : ElementId} (h : (graph c schema).mark w = some i) :
    ∃ element typeName path td, w = .check element typeName path ∧
      schema.typeDef typeName = some td ∧ element.kind = expectedKind td ∧ element.id = some i ∧
        (graph c schema).next w = queueUnder c schema td element path := by
  cases w with
  | unknownSlot path => cases h
  | report path kind => cases h
  | check element typeName path =>
    obtain ⟨td, hType, hId⟩ := Option.bind_eq_some_iff.mp h
    obtain ⟨hDef, hKind⟩ := conforming_eq_some.mp hType
    exact ⟨element, typeName, path, td, rfl, hDef, hKind, hId, by simp [graph, hType]⟩

theorem bounded_graph (c : Content) (schema : Schema) :
    (graph c schema).Bounded (branching c) (degree c) := by
  intro w i hMark
  obtain ⟨element, typeName, path, td, -, -, -, hId, hNext⟩ := mark_eq_some hMark
  rw [hNext]
  split
  · exact length_queueUnder td hId path
  next hOut => rw [queueUnder_of_notMem td hId hOut, List.length_nil]

/-! ### Places -/

/-- Keys are kept in the order of their bytes. -/
theorem lt_of_compare {a b : Bytes} (h : compare a b = .lt) : a < b := by
  induction a generalizing b with
  | nil =>
    cases b with
    | nil => cases h
    | cons y b => exact List.Lex.nil
  | cons x a ih =>
    cases b with
    | nil => cases h
    | cons y b =>
      rw [List.compare_cons_cons, Ordering.then_eq_lt] at h
      obtain hLt | ⟨hEq, hTail⟩ := h
      · exact List.Lex.rel (Std.compare_eq_lt.mp hLt)
      · obtain rfl := Std.compare_eq_iff_eq.mp hEq
        exact List.Lex.cons (ih hTail)

theorem pairwise_entries (m : LwwMap) : m.entries.Pairwise fun a b => a.1 < b.1 := by
  unfold LwwMap.entries
  refine List.Pairwise.filterMap _ ?_ (ExtTreeMap.ordered_keys_toList (t := m.slots))
  intro a a' hLt b hb b' hb'
  obtain ⟨v, -, rfl⟩ := Option.map_eq_some_iff.mp hb
  obtain ⟨v', -, rfl⟩ := Option.map_eq_some_iff.mp hb'
  exact lt_of_compare hLt

def StepsUnder (path : List Step) (steps : List Step) (works : List Work) : Prop :=
  steps.Pairwise (· < ·) ∧ works.map Work.path = steps.map fun step => path ++ [step]

theorem stepsUnder_entries (path : List Step) (m : LwwMap) {f : Bytes × Element → Work}
    (hf : ∀ entry, (f entry).path = path ++ [.key entry.1]) :
    StepsUnder path (m.entries.map fun entry => .key entry.1) (m.entries.map f) := by
  constructor
  · rw [List.pairwise_map]
    exact (pairwise_entries m).imp fun hLt => Step.key_lt_key.mpr hLt
  · rw [List.map_map, List.map_map]
    exact List.map_congr_left fun entry _ => hf entry

theorem stepsUnder_values (path : List Step) (values : List Element) {f : Element × Nat → Work}
    (hf : ∀ entry, (f entry).path = path ++ [.index entry.2]) :
    StepsUnder path ((List.range values.length).map Step.index) (values.zipIdx.map f) := by
  constructor
  · rw [List.pairwise_map]
    exact List.pairwise_lt_range.imp fun hLt => Step.index_lt_index.mpr hLt
  · rw [List.map_map, List.map_map]
    have hIndices : values.zipIdx.map Prod.snd = List.range values.length := by
      rw [List.zipIdx_map_snd, List.range_eq_range']
    rw [← hIndices, List.map_map]
    exact List.map_congr_left fun entry _ => hf entry

theorem StepsUnder.append {path steps steps' : List Step} {works works' : List Work}
    (h : StepsUnder path steps works) (h' : StepsUnder path steps' works')
    (hAcross : ∀ a ∈ steps, ∀ b ∈ steps', a < b) :
    StepsUnder path (steps ++ steps') (works ++ works') :=
  ⟨List.pairwise_append.mpr ⟨h.1, h'.1, hAcross⟩, by
    rw [List.map_append, List.map_append, h.2, h'.2]⟩

theorem slotWork_path (children : List (String × String)) (path : List Step) (slot : Bytes × Element) :
    (slotWork children path slot).path = path ++ [.key slot.1] := by
  unfold slotWork
  split <;> rfl

theorem attrWork_path (attrs : List (String × String)) (path : List Step) (attr : Bytes × Element) :
    (attrWork schema attrs path attr).path = path ++ [.key attr.1] := by
  unfold attrWork
  split
  · rfl
  · split
    · split <;> rfl
    · rfl

theorem childWork_path (children : List (String × Option Nat)) (orphanInline : Option String)
    (l : FugueList Element) (path : List Step) (child : Element × Nat) :
    (childWork c schema children orphanInline l path child).path = path ++ [.index child.2] := by
  unfold childWork
  split
  · rfl
  · split <;> rfl

theorem stepsUnder_queueXmlChildren (children : List (String × Option Nat))
    (orphanInline : Option String) (l : FugueList Element) (path : List Step) :
    StepsUnder path ((List.range l.values.length).map Step.index)
      (queueXmlChildren c schema children orphanInline l path) :=
  stepsUnder_values path _ (childWork_path children orphanInline l path)

theorem exists_stepsUnder (td : TypeDef) (element : Element) (path : List Step) :
    ∃ steps, StepsUnder path steps (queueUnder c schema td element path) := by
  unfold queueUnder
  split
  · exact ⟨_, stepsUnder_entries path _ (slotWork_path _ path)⟩
  · exact ⟨_, stepsUnder_values path _ fun entry => rfl⟩
  · refine ⟨_, (stepsUnder_entries path _ (attrWork_path _ path)).append
      (stepsUnder_queueXmlChildren ..) fun a ha b hb => ?_⟩
    obtain ⟨entry, -, rfl⟩ := List.mem_map.mp ha
    obtain ⟨i, -, rfl⟩ := List.mem_map.mp hb
    exact Step.key_lt_index ..
  · exact ⟨_, stepsUnder_queueXmlChildren ..⟩
  · exact ⟨[], List.Pairwise.nil, rfl⟩

theorem placed_graph (c : Content) (schema : Schema) : (graph c schema).Placed Work.path := by
  intro w
  cases hMark : (graph c schema).mark w with
  | some i =>
    obtain ⟨element, typeName, path, td, rfl, -, -, -, hNext⟩ := mark_eq_some hMark
    rw [hNext]
    exact exists_stepsUnder td element path
  | none =>
    cases w with
    | unknownSlot path => exact ⟨[], List.Pairwise.nil, rfl⟩
    | report path kind => exact ⟨[], List.Pairwise.nil, rfl⟩
    | check element typeName path =>
      change ∃ steps, StepsUnder path steps ((conforming schema element typeName).elim [] _)
      cases conforming schema element typeName with
      | none => exact ⟨[], List.Pairwise.nil, rfl⟩
      | some td => exact exists_stepsUnder td element path

/-! ### What is wrong with a document -/

section Rules

variable (c : Content) (schema : Schema)

/-- The element a place leads to, and the type the schema has for it there. -/
inductive Governed : List Step → String → Element → Prop
  | root : Governed [] schema.root (.handle .map ROOT_ID)
  | slot {path : List Step} {ty childType : String} {id : ElementId} {key : Bytes} {child : Element}
      {children : List (String × String)} : Governed path ty (.handle .map id) →
      schema.typeDef ty = some (.map children) → (key, child) ∈ (c.mapOf id).entries →
      slotType children key = some childType → Governed (path ++ [.key key]) childType child
  | item {path : List Step} {ty items : String} {max : Option Nat} {id : ElementId} {i : Nat}
      {child : Element} : Governed path ty (.handle .list id) →
      schema.typeDef ty = some (.list items max) → (c.listOf id).values[i]? = some child →
      Governed (path ++ [.index i]) items child
  | attr {path : List Step} {ty childType : String} {id : ElementId} {key : Bytes} {child : Element}
      {tag : String} {children : List (String × Option Nat)} {attrs : List (String × String)}
      {marks : List String} {orphan : Option String} : Governed path ty (.handle .xmlElement id) →
      schema.typeDef ty = some (.xml (some tag) children attrs marks orphan) →
      (key, child) ∈ (c.attrsOf id).entries → attrType attrs key = some childType →
      (∀ td ∈ schema.typeDef childType, child.kind = expectedKind td) →
      Governed (path ++ [.key key]) childType child
  | child {path : List Step} {ty childType : String} {kind : ElementKind} {id : ElementId} {i : Nat}
      {child : Element} {tag : Option String} {children : List (String × Option Nat)}
      {attrs : List (String × String)} {marks : List String} {orphan : Option String} :
      Governed path ty (.handle kind id) →
      schema.typeDef ty = some (.xml tag children attrs marks orphan) →
      kind = expectedKind (.xml tag children attrs marks orphan) →
      (c.childrenOf kind id).values[i]? = some child →
      overExcess c schema children (c.childrenOf kind id) i = none →
      resolveChildType c schema child children = some childType →
      Governed (path ++ [.index i]) childType child

/-- What is wrong at a place. -/
inductive Violates : List Step → ViolationKind → Prop
  | mismatch {path : List Step} {ty : String} {element : Element} {td : TypeDef} :
      Governed c schema path ty element → schema.typeDef ty = some td →
      element.kind ≠ expectedKind td → Violates path (.kindMismatch (expectedKind td) element.kind)
  | own {path : List Step} {ty : String} {element : Element} {td : TypeDef} {kind : ViolationKind} :
      Governed c schema path ty element → schema.typeDef ty = some td →
      element.kind = expectedKind td → ownViolation c td element = some kind → Violates path kind
  | unknownSlot {path : List Step} {ty : String} {id : ElementId} {key : Bytes} {child : Element}
      {children : List (String × String)} : Governed c schema path ty (.handle .map id) →
      schema.typeDef ty = some (.map children) → (key, child) ∈ (c.mapOf id).entries →
      slotType children key = none → Violates (path ++ [.key key]) .unknownSlot
  | disallowedAttr {path : List Step} {ty : String} {id : ElementId} {key : Bytes} {child : Element}
      {tag : String} {children : List (String × Option Nat)} {attrs : List (String × String)}
      {marks : List String} {orphan : Option String} :
      Governed c schema path ty (.handle .xmlElement id) →
      schema.typeDef ty = some (.xml (some tag) children attrs marks orphan) →
      (key, child) ∈ (c.attrsOf id).entries → attrType attrs key = none →
      Violates (path ++ [.key key]) .disallowedAttr
  | mistypedAttr {path : List Step} {ty childType : String} {id : ElementId} {key : Bytes}
      {child : Element} {tag : String} {children : List (String × Option Nat)}
      {attrs : List (String × String)} {marks : List String} {orphan : Option String} {td : TypeDef} :
      Governed c schema path ty (.handle .xmlElement id) →
      schema.typeDef ty = some (.xml (some tag) children attrs marks orphan) →
      (key, child) ∈ (c.attrsOf id).entries → attrType attrs key = some childType →
      schema.typeDef childType = some td → child.kind ≠ expectedKind td →
      Violates (path ++ [.key key]) (.mistypedAttr (expectedKind td) child.kind)
  | excessChild {path : List Step} {ty : String} {kind : ElementKind} {id : ElementId} {i max : Nat}
      {tag : Option String} {children : List (String × Option Nat)} {attrs : List (String × String)}
      {marks : List String} {orphan : Option String} : Governed c schema path ty (.handle kind id) →
      schema.typeDef ty = some (.xml tag children attrs marks orphan) →
      kind = expectedKind (.xml tag children attrs marks orphan) →
      i < (c.childrenOf kind id).values.length →
      overExcess c schema children (c.childrenOf kind id) i = some max →
      Violates (path ++ [.index i]) (.excessChild max)
  | misfit {path : List Step} {ty : String} {kind : ElementKind} {id : ElementId} {i : Nat}
      {child : Element} {tag : Option String} {children : List (String × Option Nat)}
      {attrs : List (String × String)} {marks : List String} {orphan : Option String} :
      Governed c schema path ty (.handle kind id) →
      schema.typeDef ty = some (.xml tag children attrs marks orphan) →
      kind = expectedKind (.xml tag children attrs marks orphan) →
      (c.childrenOf kind id).values[i]? = some child →
      overExcess c schema children (c.childrenOf kind id) i = none →
      resolveChildType c schema child children = none →
      Violates (path ++ [.index i]) (misfit orphan child)

/-- What a piece of work stands for: an element at its place, or something wrong there. -/
def Stands : Work → Prop
  | .check element typeName path => Governed c schema path typeName element
  | .unknownSlot path => Violates c schema path .unknownSlot
  | .report path kind => Violates c schema path kind

end Rules

theorem stands_queueXmlChildren {path : List Step} {ty : String} {kind : ElementKind} {id : ElementId}
    {tag : Option String} {children : List (String × Option Nat)} {attrs : List (String × String)}
    {marks : List String} {orphan : Option String}
    (h : Governed c schema path ty (.handle kind id))
    (hType : schema.typeDef ty = some (.xml tag children attrs marks orphan))
    (hKind : kind = expectedKind (.xml tag children attrs marks orphan)) :
    ∀ w ∈ queueXmlChildren c schema children orphan (c.childrenOf kind id) path, Stands c schema w := by
  intro w hw
  obtain ⟨entry, hEntry, rfl⟩ := List.mem_map.mp hw
  have hAt : (c.childrenOf kind id).values[entry.2]? = some entry.1 := by
    obtain ⟨child, i⟩ := entry
    exact List.mem_zipIdx_iff_getElem?.mp hEntry
  unfold childWork
  split
  next max hExcess =>
    exact .excessChild h hType hKind (List.getElem?_eq_some_iff.mp hAt).1 hExcess
  next hKept =>
    split
    next childType hResolve => exact .child h hType hKind hAt hKept hResolve
    next hNone => exact .misfit h hType hKind hAt hKept hNone

theorem stands_queueUnder {path : List Step} {ty : String} {element : Element} {td : TypeDef}
    (h : Governed c schema path ty element) (hType : schema.typeDef ty = some td)
    (hKind : element.kind = expectedKind td) :
    ∀ w ∈ queueUnder c schema td element path, Stands c schema w := by
  intro w hw
  unfold queueUnder at hw
  split at hw
  next children id =>
    obtain ⟨entry, hEntry, rfl⟩ := List.mem_map.mp hw
    unfold slotWork
    split
    next childType hSlot => exact .slot h hType hEntry hSlot
    next hNone => exact .unknownSlot h hType hEntry hNone
  next items max id =>
    obtain ⟨entry, hEntry, rfl⟩ := List.mem_map.mp hw
    obtain ⟨child, i⟩ := entry
    exact .item h hType (List.mem_zipIdx_iff_getElem?.mp hEntry)
  next tag children attrs marks orphan id =>
    obtain hAttr | hChild := List.mem_append.mp hw
    · obtain ⟨entry, hEntry, rfl⟩ := List.mem_map.mp hAttr
      cases tag with
      | none => cases hKind
      | some tag =>
        unfold attrWork
        split
        next hNone => exact .disallowedAttr h hType hEntry hNone
        next childType hSlot =>
          cases hDef : schema.typeDef childType with
          | none => exact .attr h hType hEntry hSlot fun td hTd => by rw [hDef] at hTd; cases hTd
          | some td =>
            rw [Option.map_some]
            dsimp only
            split
            next hOther => exact .mistypedAttr h hType hEntry hSlot hDef (Ne.symm hOther)
            next hSame =>
              refine .attr h hType hEntry hSlot fun td' hTd => ?_
              rw [hDef] at hTd
              cases hTd
              exact (not_not.mp hSame).symm
    · exact stands_queueXmlChildren h hType hKind w hChild
  next tag children attrs marks orphan id => exact stands_queueXmlChildren h hType hKind w hw
  next => cases hw

theorem stands_of_reached {w : Work}
    (h : (graph c schema).Reached (.check (.handle .map ROOT_ID) schema.root []) w) :
    Stands c schema w := by
  induction h with
  | root => exact .root
  | next _ hMark hNext ih =>
    obtain ⟨element, typeName, path, td, rfl, hType, hKind, -, hUnder⟩ := mark_eq_some hMark
    rw [hUnder] at hNext
    exact stands_queueUnder ih hType hKind _ hNext

theorem violates_of_mem_reports {w : Work} (h : Stands c schema w) :
    ∀ v ∈ reports c schema w, v.path = w.path ∧ Violates c schema v.path v.kind := by
  intro v hv
  cases w with
  | unknownSlot path =>
    obtain rfl := List.mem_singleton.mp hv
    exact ⟨rfl, h⟩
  | report path kind =>
    obtain rfl := List.mem_singleton.mp hv
    exact ⟨rfl, h⟩
  | check element typeName path =>
    unfold reports at hv
    dsimp only at hv
    split at hv
    · cases hv
    next td hType =>
      split at hv
      next hKind =>
        obtain rfl := List.mem_singleton.mp hv
        exact ⟨rfl, .mismatch h hType hKind⟩
      next hKind =>
        obtain ⟨kind, hOwn, rfl⟩ := Option.map_eq_some_iff.mp (Option.mem_toList.mp hv)
        exact ⟨rfl, .own h hType (not_not.mp hKind) hOwn⟩

/-! ### The walk of a document -/

/-- No element stands at two places. -/
def Unshared (c : Content) (schema : Schema) : Prop :=
  ∀ (path path' : List Step) (ty ty' : String) (element element' : Element) (id : ElementId),
    Governed c schema path ty element → Governed c schema path' ty' element' →
      element.id = some id → element'.id = some id → path = path'

/-- The work the walk takes, in the order it takes it. -/
def taken (c : Content) (schema : Schema) : List Work :=
  ((graph c schema).loop (1 + ((branching c).map (degree c)).sum)
    ⟨∅, [], [.check (.handle .map ROOT_ID) schema.root []]⟩).trace

theorem follows_walk (c : Content) (schema : Schema) :
    Follows c schema (walk c schema) ((graph c schema).loop (1 + ((branching c).map (degree c)).sum)
      ⟨∅, [], [.check (.handle .map ROOT_ID) schema.root []]⟩) :=
  Follows.loop ⟨rfl, rfl, rfl, rfl⟩

/-- The walk empties its stack. -/
theorem stack_loop (c : Content) (schema : Schema) :
    ((graph c schema).loop (1 + ((branching c).map (degree c)).sum)
      ⟨∅, [], [.check (.handle .map ROOT_ID) schema.root []]⟩).stack = [] := by
  have hNodup : (branching c).Nodup := List.nodup_dedup _
  refine StackWalk.loop_stack hNodup (bounded_graph c schema) ?_
  have hAll : StackWalk.unmet (branching c) (degree c) ∅ = ((branching c).map (degree c)).sum := by
    simp [StackWalk.unmet]
  dsimp only
  rw [hAll]
  exact le_rfl

theorem pairwise_taken (c : Content) (schema : Schema) :
    (taken c schema).Pairwise fun w w' => w.path < w'.path :=
  StackWalk.ordered_loop (placed_graph c schema) _ _

theorem stands_of_taken {w : Work} (h : w ∈ taken c schema) : Stands c schema w :=
  stands_of_reached (StackWalk.reached_loop (List.mem_append_left _ h))

/-- What the walk of the tree reports is wrong. -/
theorem violates_of_mem_out {v : Violation} (h : v ∈ (walk c schema).out) :
    Violates c schema v.path v.kind := by
  rw [(follows_walk c schema).out] at h
  obtain ⟨w, hw, hv⟩ := List.mem_flatMap.mp h
  exact (violates_of_mem_reports (stands_of_taken hw) v hv).2

/-- One place, one piece of work. -/
theorem taken_inj {w w' : Work} (h : w ∈ taken c schema) (h' : w' ∈ taken c schema)
    (hPath : w.path = w'.path) : w = w' := by
  have hNodup : ((taken c schema).map Work.path).Nodup := by
    rw [List.Nodup, List.pairwise_map]
    exact (pairwise_taken c schema).imp fun hLt => hLt.ne
  exact List.inj_on_of_nodup_map hNodup h h' hPath

theorem taken_under (hUnshared : Unshared c schema) {element : Element} {ty : String}
    {path : List Step} {td : TypeDef} {id : ElementId}
    (h : Work.check element ty path ∈ taken c schema) (hType : schema.typeDef ty = some td)
    (hKind : element.kind = expectedKind td) (hId : element.id = some id) :
    ∀ w ∈ queueUnder c schema td element path, w ∈ taken c schema := by
  have hTyped : conforming schema element ty = some td := conforming_eq_some.mpr ⟨hType, hKind⟩
  have hMark : (graph c schema).mark (.check element ty path) = some id := by
    change (conforming schema element ty).bind _ = _
    rw [hTyped, Option.bind_some, hId]
  have hNext : (graph c schema).next (.check element ty path) =
      queueUnder c schema td element path := by
    change (conforming schema element ty).elim _ _ = _
    rw [hTyped]
    rfl
  obtain ⟨w', hw', hMark', hUnder⟩ :=
    (StackWalk.covers_loop (stack_loop c schema)).2 _ h id hMark
  obtain ⟨element', ty', path', td', rfl, -, -, hId', -⟩ := mark_eq_some hMark'
  -- The element was descended into where it stands, and that is here.
  have hPlace : path' = path :=
    hUnshared _ _ _ _ _ _ id (stands_of_taken hw') (stands_of_taken h) hId' hId
  have hSame : Work.check element' ty' path' = _ := taken_inj hw' h hPlace
  rw [hSame, hNext] at hUnder
  exact hUnder

theorem mem_queueUnder_child {kind : ElementKind} {id : ElementId} {tag : Option String}
    {children : List (String × Option Nat)} {attrs : List (String × String)} {marks : List String}
    {orphan : Option String} (hKind : kind = expectedKind (.xml tag children attrs marks orphan))
    {path : List Step} {i : Nat} {child : Element}
    (hAt : (c.childrenOf kind id).values[i]? = some child) :
    childWork c schema children orphan (c.childrenOf kind id) path (child, i) ∈
      queueUnder c schema (.xml tag children attrs marks orphan) (.handle kind id) path := by
  have hQueued : childWork c schema children orphan (c.childrenOf kind id) path (child, i) ∈
      queueXmlChildren c schema children orphan (c.childrenOf kind id) path :=
    List.mem_map.mpr ⟨(child, i), List.mem_zipIdx_iff_getElem?.mpr hAt, rfl⟩
  cases tag with
  | none =>
    subst hKind
    exact hQueued
  | some tag =>
    subst hKind
    exact List.mem_append_right _ hQueued

theorem taken_of_governed (hUnshared : Unshared c schema) {path : List Step} {ty : String}
    {element : Element} (h : Governed c schema path ty element) :
    Work.check element ty path ∈ taken c schema := by
  induction h with
  | root => exact (StackWalk.covers_loop (stack_loop c schema)).1
  | slot _ hType hEntry hSlot ih =>
    refine taken_under hUnshared ih hType rfl rfl _ (List.mem_map.mpr ⟨_, hEntry, ?_⟩)
    rw [slotWork, hSlot]
  | item _ hType hAt ih =>
    exact taken_under hUnshared ih hType rfl rfl _
      (List.mem_map.mpr ⟨(_, _), List.mem_zipIdx_iff_getElem?.mpr hAt, rfl⟩)
  | @attr _ _ childType _ _ child _ _ _ _ _ _ hType hEntry hSlot hFits ih =>
    refine taken_under hUnshared ih hType rfl rfl _
      (List.mem_append_left _ (List.mem_map.mpr ⟨_, hEntry, ?_⟩))
    rw [attrWork, hSlot]
    dsimp only
    cases hDef : schema.typeDef childType with
    | none => rfl
    | some td => exact if_neg (not_not.mpr (hFits td hDef).symm)
  | child _ hType hKind hAt hKept hResolve ih =>
    have hUnder := taken_under hUnshared ih hType hKind rfl _ (mem_queueUnder_child hKind hAt)
    unfold childWork at hUnder
    dsimp only at hUnder
    rw [hKept, hResolve] at hUnder
    exact hUnder

theorem mem_out_of_violates (hUnshared : Unshared c schema) {path : List Step} {kind : ViolationKind}
    (h : Violates c schema path kind) :
    ∃ w ∈ taken c schema, ⟨path, kind⟩ ∈ reports c schema w := by
  cases h with
  | mismatch hGoverned hType hKind =>
    refine ⟨_, taken_of_governed hUnshared hGoverned, ?_⟩
    rw [reports, hType]
    dsimp only
    rw [if_pos hKind]
    exact List.mem_singleton_self _
  | own hGoverned hType hKind hOwn =>
    refine ⟨_, taken_of_governed hUnshared hGoverned, ?_⟩
    rw [reports, hType]
    dsimp only
    rw [if_neg (not_not.mpr hKind), hOwn]
    exact List.mem_singleton_self _
  | unknownSlot hGoverned hType hEntry hSlot =>
    refine ⟨_, taken_under hUnshared (taken_of_governed hUnshared hGoverned) hType rfl rfl _
      (List.mem_map_of_mem hEntry), ?_⟩
    rw [slotWork, hSlot]
    exact List.mem_singleton_self _
  | disallowedAttr hGoverned hType hEntry hSlot =>
    refine ⟨_, taken_under hUnshared (taken_of_governed hUnshared hGoverned) hType rfl rfl _
      (List.mem_append_left _ (List.mem_map_of_mem hEntry)), ?_⟩
    rw [attrWork, hSlot]
    exact List.mem_singleton_self _
  | mistypedAttr hGoverned hType hEntry hSlot hDef hKind =>
    refine ⟨_, taken_under hUnshared (taken_of_governed hUnshared hGoverned) hType rfl rfl _
      (List.mem_append_left _ (List.mem_map_of_mem hEntry)), ?_⟩
    rw [attrWork, hSlot]
    dsimp only
    rw [hDef, Option.map_some]
    dsimp only
    rw [if_pos (Ne.symm hKind)]
    exact List.mem_singleton_self _
  | excessChild hGoverned hType hKind hBound hExcess =>
    have hUnder := taken_under hUnshared (taken_of_governed hUnshared hGoverned) hType hKind rfl _
      (mem_queueUnder_child hKind (List.getElem?_eq_getElem hBound))
    refine ⟨_, hUnder, ?_⟩
    rw [childWork, hExcess]
    exact List.mem_singleton_self _
  | misfit hGoverned hType hKind hAt hKept hNone =>
    have hUnder := taken_under hUnshared (taken_of_governed hUnshared hGoverned) hType hKind rfl _
      (mem_queueUnder_child hKind hAt)
    refine ⟨_, hUnder, ?_⟩
    rw [childWork, hKept]
    dsimp only
    rw [hNone]
    exact List.mem_singleton_self _

/-! ### The ends of annotations -/

def StandsAt (c : Content) (schema : Schema) (id : ElementId) (path : List Step) : Prop :=
  ∃ ty element, Governed c schema path ty element ∧ (schema.typeDef ty).isSome ∧ element.id = some id

/-- The zone an end of an annotation is in: that of its sequence's place, and none where the
sequence has no place. -/
def EndZone (c : Content) (schema : Schema) (seq : ElementId) (zone : Option String) : Prop :=
  (∃ path, StandsAt c schema seq path ∧ zone = schema.zoneOf (pathKeys path)) ∨
    (∀ path, ¬StandsAt c schema seq path) ∧ zone = none

theorem foldl_locateWork (trace : List Work) (m : ExtTreeMap ElementId (List Step) compare) :
    trace.foldl (locateWork schema) m =
      (trace.filterMap (reaches schema)).foldl (fun m e => m.insertIfNew e.1 e.2) m := by
  induction trace generalizing m with
  | nil => rfl
  | cons w trace ih =>
    rw [List.foldl_cons, ih, List.filterMap_cons, locateWork]
    cases reaches schema w <;> rfl

theorem mem_reaches {w : Work} {id : ElementId} {path : List Step}
    (h : reaches schema w = some (id, path)) :
    ∃ element ty, w = .check element ty path ∧ (schema.typeDef ty).isSome ∧ element.id = some id := by
  cases w with
  | unknownSlot path => cases h
  | report path kind => cases h
  | check element ty path' =>
    obtain ⟨td, hType, hReach⟩ := Option.bind_eq_some_iff.mp h
    obtain ⟨id', hId, hSame⟩ := Option.map_eq_some_iff.mp hReach
    cases hSame
    exact ⟨element, ty, rfl, by rw [hType]; rfl, hId⟩

theorem seqPaths_walk (c : Content) (schema : Schema) (seq : ElementId) :
    (walk c schema).seqPaths[seq]? =
      (((taken c schema).filterMap (reaches schema)).find? fun e => e.1 = seq).map Prod.snd := by
  rw [(follows_walk c schema).seqPaths, foldl_locateWork, getElem?_foldl_insertIfNew]
  simp [taken]

theorem endZone_endpointZone (hUnshared : Unshared c schema) (seq : ElementId) :
    EndZone c schema seq ((walk c schema).endpointZone schema seq) := by
  unfold Validator.endpointZone
  rw [seqPaths_walk]
  cases hFind : ((taken c schema).filterMap (reaches schema)).find? fun e => e.1 = seq with
  | none =>
    refine .inr ⟨fun path hStands => ?_, rfl⟩
    obtain ⟨ty, element, hGoverned, hType, hId⟩ := hStands
    obtain ⟨td, hType⟩ := Option.isSome_iff_exists.mp hType
    have hReached : (seq, path) ∈ (taken c schema).filterMap (reaches schema) :=
      List.mem_filterMap.mpr ⟨_, taken_of_governed hUnshared hGoverned, by
        rw [reaches, hType, Option.bind_some, hId, Option.map_some]⟩
    have hNone := List.find?_eq_none.mp hFind _ hReached
    simp at hNone
  | some e =>
    have hSeq : e.1 = seq := by simpa using List.find?_some hFind
    obtain ⟨w, hw, hReached⟩ := List.mem_filterMap.mp (List.mem_of_find?_eq_some hFind)
    obtain ⟨seq', path⟩ := e
    obtain ⟨element, ty, rfl, hType, hId⟩ := mem_reaches hReached
    exact .inl ⟨path, ⟨ty, element, stands_of_taken hw, hType, hSeq ▸ hId⟩, rfl⟩

theorem EndZone.unique (hUnshared : Unshared c schema) {seq : ElementId} {zone zone' : Option String}
    (h : EndZone c schema seq zone) (h' : EndZone c schema seq zone') : zone = zone' := by
  obtain ⟨path, hStands, rfl⟩ | ⟨hNone, rfl⟩ := h
  · obtain ⟨path', hStands', rfl⟩ | ⟨hNone', rfl⟩ := h'
    · obtain ⟨ty, element, hGoverned, -, hId⟩ := hStands
      obtain ⟨ty', element', hGoverned', -, hId'⟩ := hStands'
      rw [hUnshared _ _ _ _ _ _ seq hGoverned hGoverned' hId hId']
    · exact absurd hStands (hNone' path)
  · obtain ⟨path', hStands', rfl⟩ | ⟨hNone', rfl⟩ := h'
    · exact absurd hStands' (hNone path')
    · rfl

theorem zoneOf_of_no_zones (hNone : schema.zones = []) (keys : List Bytes) :
    schema.zoneOf keys = none := by
  rw [Schema.zoneOf, Schema.zoneIdOf, hNone]
  rfl

theorem endpointZone_of_no_zones (hNone : schema.zones = []) (v : Validator) (seq : ElementId) :
    v.endpointZone schema seq = none := by
  unfold Validator.endpointZone
  cases v.seqPaths[seq]? with
  | none => rfl
  | some path => exact zoneOf_of_no_zones hNone _

/-- No walk of the tree reports an annotation. -/
theorem ne_crossZoneAnchor {path : List Step} {kind : ViolationKind}
    (h : Violates c schema path kind) (id : ElementId) : kind ≠ .crossZoneAnchor id := by
  have hLen : ∀ len max, checkMaxLen len max ≠ some (.crossZoneAnchor id) := by
    intro len max hEq
    unfold checkMaxLen at hEq
    split at hEq
    · split at hEq <;> cases hEq
    · cases hEq
  have hBounds : ∀ v min max, checkBounds v min max ≠ some (.crossZoneAnchor id) := by
    intro v min max hEq
    unfold checkBounds at hEq
    split at hEq
    · cases hEq
    · obtain ⟨b, -, hEq⟩ := Option.map_eq_some_iff.mp hEq
      cases hEq
  have hMisfit : ∀ orphan child, misfit orphan child ≠ .crossZoneAnchor id := by
    intro orphan child hEq
    unfold misfit at hEq
    split at hEq
    · split at hEq <;> cases hEq
    · cases hEq
  intro hEq
  cases h with
  | mismatch => cases hEq
  | unknownSlot => cases hEq
  | disallowedAttr => cases hEq
  | mistypedAttr => cases hEq
  | excessChild => cases hEq
  | misfit => exact hMisfit _ _ hEq
  | own _ _ _ hOwn =>
    rw [hEq] at hOwn
    unfold ownViolation at hOwn
    split at hOwn
    · exact hLen _ _ hOwn
    · exact hLen _ _ hOwn
    · split at hOwn
      · exact hBounds _ _ _ hOwn
      · cases hOwn
    · exact hBounds _ _ _ hOwn
    · cases hOwn

/-- On every document the walk of the tree ends, and reports each place at most once, in tree
order, and only what is wrong there. Of a document without sharing it reports all that is wrong,
and the validator the annotations whose ends are in two zones. -/
theorem validate_exact [IdBytes] (c : Content) (schema : Schema) :
    (walk c schema).stack = [] ∧
      ((walk c schema).out.map Violation.path).Pairwise (· < ·) ∧
      (∀ v ∈ (walk c schema).out, Violates c schema v.path v.kind) ∧
      (Unshared c schema →
        (∀ path kind, Violates c schema path kind → ⟨path, kind⟩ ∈ (walk c schema).out) ∧
        ∀ id, ⟨[], .crossZoneAnchor id⟩ ∈ validate c schema ↔ ∃ entry zone zone',
          c.ranged[id]? = some entry ∧ entry.tombstone = false ∧
            EndZone c schema entry.start.seq zone ∧ EndZone c schema entry.stop.seq zone' ∧
              zone ≠ zone') := by
  have hFollows := follows_walk c schema
  have hOut : (walk c schema).out = (taken c schema).flatMap (reports c schema) := hFollows.out
  have hSound : ∀ v ∈ (walk c schema).out, Violates c schema v.path v.kind :=
    fun _ => violates_of_mem_out
  refine ⟨hFollows.stack.trans (stack_loop c schema), ?_, hSound, fun hUnshared => ⟨?_, fun id => ?_⟩⟩
  · rw [hOut, List.pairwise_map, List.pairwise_flatMap]
    refine ⟨fun w hw => ?_, (pairwise_taken c schema).imp_of_mem ?_⟩
    · -- One piece of work reports at most one thing.
      have hOne : (reports c schema w).length ≤ 1 := by
        cases w with
        | unknownSlot path => exact le_rfl
        | report path kind => exact le_rfl
        | check element ty path =>
          unfold reports
          dsimp only
          split
          · exact Nat.zero_le _
          · split
            · exact le_rfl
            · cases ownViolation c _ element <;> simp
      obtain hNil | ⟨v, hOnly⟩ : reports c schema w = [] ∨ ∃ v, reports c schema w = [v] := by
        cases hReports : reports c schema w with
        | nil => exact .inl rfl
        | cons v vs =>
          rw [hReports, List.length_cons] at hOne
          exact .inr ⟨v, by rw [List.eq_nil_of_length_eq_zero (by omega : vs.length = 0)]⟩
      · rw [hNil]
        exact List.Pairwise.nil
      · rw [hOnly]
        exact List.pairwise_singleton _ _
    · intro w w' hw hw' hLt v hv v' hv'
      rw [(violates_of_mem_reports (stands_of_taken hw) v hv).1,
        (violates_of_mem_reports (stands_of_taken hw') v' hv').1]
      exact hLt
  · intro path kind hViolates
    rw [hOut]
    obtain ⟨w, hw, hReport⟩ := mem_out_of_violates hUnshared hViolates
    exact List.mem_flatMap.mpr ⟨w, hw, hReport⟩
  · have hTree : (⟨[], .crossZoneAnchor id⟩ : Violation) ∉ (walk c schema).out :=
      fun hMem => ne_crossZoneAnchor (hSound _ hMem) id rfl
    have hAnchors : (⟨[], .crossZoneAnchor id⟩ : Violation) ∈
        (walk c schema).checkCrossZoneAnchors c schema ↔ ∃ entry, c.ranged[id]? = some entry ∧
          entry.tombstone = false ∧ (walk c schema).endpointZone schema entry.start.seq ≠
            (walk c schema).endpointZone schema entry.stop.seq := by
      unfold Validator.checkCrossZoneAnchors rangedElements
      split
      next hNone =>
        rw [List.isEmpty_iff] at hNone
        refine iff_of_false List.not_mem_nil ?_
        rintro ⟨entry, -, -, hNe⟩
        exact hNe (by rw [endpointZone_of_no_zones hNone, endpointZone_of_no_zones hNone])
      next =>
        simp only [List.mem_map, List.mem_filter, List.mem_insertionSort, Violation.mk.injEq,
          ViolationKind.crossZoneAnchor.injEq, true_and, Prod.exists, mem_toList_iff]
        constructor
        · rintro ⟨id', entry, ⟨⟨hEntry, hLive⟩, hNe⟩, rfl⟩
          exact ⟨entry, hEntry, by simpa using hLive, by simpa using hNe⟩
        · rintro ⟨entry, hEntry, hLive, hNe⟩
          exact ⟨id, entry, ⟨⟨hEntry, by simpa using hLive⟩, by simpa using hNe⟩, rfl⟩
    rw [validate, List.mem_append, or_iff_right hTree, hAnchors]
    constructor
    · rintro ⟨entry, hEntry, hLive, hNe⟩
      exact ⟨entry, _, _, hEntry, hLive, endZone_endpointZone hUnshared _,
        endZone_endpointZone hUnshared _, hNe⟩
    · rintro ⟨entry, zone, zone', hEntry, hLive, hStart, hStop, hNe⟩
      refine ⟨entry, hEntry, hLive, fun hSame => hNe ?_⟩
      rw [hStart.unique hUnshared (endZone_endpointZone hUnshared _), hSame,
        hStop.unique hUnshared (endZone_endpointZone hUnshared _)]

section Example

local instance exactIdBytes : IdBytes := IdBytes.spelled

/-- A map with a counter that may not fall below nothing. -/
def tallySchema : Schema :=
  ⟨"s", 1, "R", [("R", .map [("n", "N")]), ("N", .counter (some 0) none)], [], [], ⟨[], []⟩, [], []⟩

/-- The counter is three below. -/
def lowTally : Content :=
  Content.new.applyKind ROOT_ID (.counterDec [110] 3) ⟨1, ⟨1⟩, 0⟩ ⟨1⟩

theorem governed_lowTally {path : List Step} {ty : String} {element : Element}
    (h : Governed lowTally tallySchema path ty element) :
    (path, ty, element) = ([], "R", .handle .map ROOT_ID) ∨
      (path, ty, element) = ([.key [110]], "N", .handle .counter (.derive ROOT_ID [110] .counter)) := by
  have hMap : tallySchema.typeDef "R" = some (.map [("n", "N")]) := by decide
  have hCounter : tallySchema.typeDef "N" = some (.counter (some 0) none) := by decide
  have hEntries : (lowTally.mapOf ROOT_ID).entries =
      [([110], .handle .counter (.derive ROOT_ID [110] .counter))] := by decide +kernel
  have hSlot : slotType [("n", "N")] [110] = some "N" := by decide +kernel
  induction h with
  | root => exact .inl rfl
  | slot hGoverned hType hEntry hChild ih =>
    rcases ih with hSame | hSame <;> cases hSame
    rw [hMap] at hType
    cases hType
    rw [hEntries, List.mem_singleton] at hEntry
    cases hEntry
    rw [hSlot] at hChild
    cases hChild
    exact .inr rfl
  | item _ _ _ ih => rcases ih with hSame | hSame <;> cases hSame
  | attr _ _ _ _ _ ih => rcases ih with hSame | hSame <;> cases hSame
  | child hGoverned hType hKind _ _ _ ih =>
    rcases ih with hSame | hSame <;> cases hSame
    · rw [hMap] at hType
      cases hType
    · rw [hCounter] at hType
      cases hType

theorem validate_exact_lowTally :
    ⟨[.key [110]], .belowMin (-3) 0⟩ ∈ (walk lowTally tallySchema).out := by
  have hUnshared : Unshared lowTally tallySchema := by
    intro path path' ty ty' element element' id hGoverned hGoverned' hId hId'
    rcases governed_lowTally hGoverned with hSame | hSame <;>
      rcases governed_lowTally hGoverned' with hSame' | hSame' <;> cases hSame <;> cases hSame'
    · rfl
    · rw [← hId'] at hId
      cases hId
    · rw [← hId'] at hId
      cases hId
    · rfl
  have hCounter : Governed lowTally tallySchema [.key [110]] "N"
      (.handle .counter (.derive ROOT_ID [110] .counter)) :=
    .slot .root (show tallySchema.typeDef "R" = some (.map [("n", "N")]) by decide)
      (by decide +kernel) (by decide +kernel)
  exact ((validate_exact lowTally tallySchema).2.2.2 hUnshared).1 _ _
    (.own hCounter (show tallySchema.typeDef "N" = some (.counter (some 0) none) by decide) rfl
      (by decide +kernel))

end Example

end Validate

end CrdtSync
