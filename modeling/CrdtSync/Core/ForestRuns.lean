import CrdtSync.Core.Restored
import CrdtSync.Core.Traced

/-!
# Runs of one replica keep the parent forest

A run is any sequence of local edits, foreign ops, evictions and replays. A
predicate on content that every mutation keeps holds after every run; with the
mutations written down, so does one that every mutation keeps under a condition.
-/

namespace CrdtSync

open Lib

/-- What can happen to a replica. -/
inductive Activity
  | transact (edits : List Edit)
  | apply (op : Op)
  | evictPartialTransactions
  | undo (isAtomic : Bool) (edits : List Edit)
  | beginAtomic
  | commitAtomic
  | beginIntention
  | endIntention

namespace Document

section Runs

variable {σ τ : Type} [Folds σ] [Folds τ] [TxDigest]

def act (d : Document σ) : Activity → Document σ
  | .transact edits => (d.transact edits).2
  | .apply op => d.apply op
  | .evictPartialTransactions => d.evictPartialTransactions
  | .undo isAtomic edits => ((d.undo isAtomic edits).map Prod.snd).getD d
  | .beginAtomic => d.beginAtomic
  | .commitAtomic => d.commitAtomic.2
  | .beginIntention => d.beginIntention
  | .endIntention => d.endIntention

def run (d : Document σ) (activities : List Activity) : Document σ := activities.foldl act d

variable {f : σ → τ} (hf : FoldsHom f)

include hf

theorem mapContent_act (d : Document σ) (a : Activity) :
    (d.mapContent f).act a = (d.act a).mapContent f := by
  cases a with
  | transact edits => exact congrArg Prod.snd (mapContent_transact d hf edits)
  | apply op => exact mapContent_apply d hf op
  | evictPartialTransactions => exact mapContent_evictPartialTransactions d hf
  | undo isAtomic edits =>
    unfold act
    dsimp only
    rw [mapContent_undo d hf]
    cases d.undo isAtomic edits <;> rfl
  | beginAtomic => exact mapContent_beginAtomic d
  | commitAtomic => exact congrArg Prod.snd (mapContent_commitAtomic d hf)
  | beginIntention => rfl
  | endIntention => rfl

theorem mapContent_run (d : Document σ) (activities : List Activity) :
    (d.mapContent f).run activities = (d.run activities).mapContent f := by
  unfold run
  induction activities generalizing d with
  | nil => rfl
  | cons a activities ih =>
    rw [List.foldl_cons, mapContent_act hf]
    exact ih _

omit [Folds τ] hf in
/-- A predicate every mutation keeps holds of the content after every run. -/
theorem run_invariant {P : σ → Prop}
    (hP : ∀ s target kind stamp author, P s → P (Folds.applyKind s target kind stamp author))
    {client : ClientId} {content : σ} (hContent : P content) (activities : List Activity) :
    P ((new client content).run activities).content := by
  -- The run over the contents that satisfy the predicate maps to this one.
  let restricted : Folds {s // P s} :=
    ⟨fun s op => Folds.ready s.1 op, fun s target kind stamp author =>
      ⟨Folds.applyKind s.1 target kind stamp author, hP s.1 target kind stamp author s.2⟩,
      fun _ => none, fun _ => []⟩
  have hVal : FoldsHom (Subtype.val (p := P)) := ⟨fun _ _ => rfl, fun _ _ _ _ _ => rfl⟩
  have hRun := mapContent_run hVal (new client (⟨content, hContent⟩ : {s // P s})) activities
  rw [show (new client content).run activities = _ from hRun]
  exact (run (new client (⟨content, hContent⟩ : {s // P s})) activities).content.2

end Runs

section Forest

variable [IdBytes] [TxDigest]

/-- Every mutation a run folds, with the content it met. -/
def mutations (client : ClientId) (activities : List Activity) : List (Mutation Content) :=
  ((new client (⟨Content.new, []⟩ : Traced Content)).run activities).content.trace

/-- In a run whose mutations all meet the condition the parent links are a forest. -/
theorem run_parentForest (client : ClientId) (activities : List Activity)
    (hKeeps : ∀ m ∈ mutations client activities,
      m.met.keepsForest m.target m.kind m.stamp = true) :
    ((new client Content.new).run activities).content.ParentForest := by
  have hTraced : ∀ t : Traced Content,
      ((∀ m ∈ t.trace, m.met.keepsForest m.target m.kind m.stamp = true) → t.content.Forest) →
      ∀ target kind stamp author,
        (∀ m ∈ (Folds.applyKind t target kind stamp author).trace,
          m.met.keepsForest m.target m.kind m.stamp = true) →
        (Folds.applyKind t target kind stamp author).content.Forest := by
    intro t ht target kind stamp author hAll
    have hOld := ht fun m hm => hAll m (List.mem_append_left _ hm)
    exact hOld.applyKind (hAll _ (List.mem_append_right _ List.mem_cons_self)) author
  have hRun : ∀ t : Traced Content,
      t = ((new client (⟨Content.new, []⟩ : Traced Content)).run activities).content →
      (∀ m ∈ t.trace, m.met.keepsForest m.target m.kind m.stamp = true) → t.content.Forest := by
    rintro t rfl
    exact run_invariant (fun t target kind stamp author ht => hTraced t ht target kind stamp author)
      (fun _ => Content.forest_new) activities
  have hForest := hRun _ rfl hKeeps
  have hErase := mapContent_run foldsHom_content
    (new client (⟨Content.new, []⟩ : Traced Content)) activities
  rw [show (new client Content.new).run activities = _ from hErase]
  exact hForest.parentForest

end Forest

section Examples

local instance forestIdBytes : IdBytes := IdBytes.spelled
local instance forestTxDigest : TxDigest := ⟨List.sum⟩

/-- An element keyed into the root map, and two children of its list. -/
def figure : ElementId := XmlElement.nodeId ROOT_ID [102] [103]
def figureChild (lamport : Nat) : ElementId :=
  xmlChildId (XmlElement.childrenId figure) ⟨lamport, ⟨1⟩, 0⟩ .xmlElement

def atRight : Anchor := ⟨none, .right⟩

def remoteOp (client : ClientId) (lamport : Nat) (target : ElementId) (kind : OpKind) : Activity :=
  .apply ⟨⟨client, lamport⟩, ⟨lamport, client, 0⟩, target, kind, none, none⟩

/-- A child is born, another one is only revealed, and both have been moved under the
other; the earlier move comes last. -/
def crossedMoves : List Activity :=
  [remoteOp ⟨9⟩ 1 ROOT_ID (.xmlElementCreate [102] [103]),
    remoteOp ⟨1⟩ 5 (XmlElement.childrenId figure) (.xmlInsertChild (some [112]) atRight),
    remoteOp ⟨9⟩ 7 ROOT_ID (.xmlReveal (figureChild 6) (some [112])),
    remoteOp ⟨1⟩ 9 (XmlElement.childrenId (figureChild 5)) (.xmlMove (figureChild 6) atRight),
    remoteOp ⟨2⟩ 8 (XmlElement.childrenId (figureChild 6)) (.xmlMove (figureChild 5) atRight)]

/-- The fold passes over the revealed child, whose move now closes a cycle in the log,
and leaves the link an earlier fold gave it: each child is inside the other. -/
theorem parents_cycle_after_crossedMoves :
    ¬Acyclic (parentIn ((new ⟨100⟩ Content.new).run crossedMoves).content.parents) ∧
      rejectParentCycles ((new ⟨100⟩ Content.new).run crossedMoves).content.parents ROOT_ID =
        .error ⟨"document: parent cycle", 0⟩ := by
  constructor
  · intro hAcyclic
    have hCycle : ascend (parentIn ((new ⟨100⟩ Content.new).run crossedMoves).content.parents) 4
        (figureChild 5) = some (figureChild 5) := by decide +kernel
    exact hAcyclic _ (above_of_ascend hCycle)
  · decide +kernel

/-- Births at one stamp, a move of each child, an eviction, a revealed child that is
placed, a delete and local edits. -/
def quietMoves : List Activity :=
  [remoteOp ⟨9⟩ 1 ROOT_ID (.xmlElementCreate [102] [103]),
    remoteOp ⟨1⟩ 5 (XmlElement.childrenId figure) (.xmlInsertChild none atRight),
    .apply ⟨⟨⟨1⟩, 99⟩, ⟨5, ⟨1⟩, 0⟩, XmlElement.childrenId figure, .xmlInsertChild (some [112]) atRight,
      none, none⟩,
    remoteOp ⟨1⟩ 6 (XmlElement.childrenId figure) (.xmlInsertChild (some [112]) atRight),
    remoteOp ⟨2⟩ 8 (XmlElement.childrenId (figureChild 6)) (.xmlMove (figureChild 5) atRight),
    remoteOp ⟨9⟩ 7 ROOT_ID (.xmlReveal (figureChild 4) (some [112])),
    remoteOp ⟨1⟩ 9 (XmlElement.childrenId (figureChild 5)) (.xmlMove (figureChild 4) atRight),
    remoteOp ⟨1⟩ 10 (XmlElement.childrenId figure) (.listDelete ⟨6, ⟨1⟩, 0⟩),
    .transact [⟨XmlElement.attrsId figure, .mapCreate [120], none⟩],
    .undo false [⟨XmlElement.attrsId figure, .mapDelete [120], none⟩]]

theorem parentForest_after_quietMoves :
    ((new ⟨100⟩ Content.new).run quietMoves).content.ParentForest :=
  run_parentForest ⟨100⟩ quietMoves (by decide +kernel)

end Examples

end Document

end CrdtSync
