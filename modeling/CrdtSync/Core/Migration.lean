import CrdtSync.Core.Op

/-!
# Migration edges

One edge of a schema chain: structural steps, each of which rewrites an op's slot key
or drops the op, forward and, where the step has an inverse, backward. Nothing but the
key is ever rewritten, so an op that survives keeps its envelope.
-/

namespace CrdtSync

/-- One structural step. The body of an added type is left out: no rewrite reads it. -/
inductive Step
  | addType (name : Bytes)
  | removeType (name : Bytes)
  | renameType (source target : Bytes)
  | addField (ty field fieldType : Bytes)
  | removeField (ty field : Bytes)
  | renameField (ty source target : Bytes)
deriving DecidableEq

inductive Compat
  | backCompatible
  | breaking
deriving DecidableEq

inductive OpRewrite
  | keep (op : Op)
  | drop
deriving DecidableEq

/-- A parsed edge, from one version to the next. -/
structure Migration where
  source : Nat
  target : Nat
  steps : List Step
deriving DecidableEq

/-- The slot key an op addresses, for the kinds that carry one. -/
def opKey (op : Op) : Option Bytes :=
  match op.kind with
  | .registerSet key _ | .counterInc key _ | .counterDec key _ | .mapSet key _ | .mapDelete key
  | .mapCreate key | .listCreate key | .textCreate key | .xmlElementCreate key _
  | .xmlFragmentCreate key => some key
  | .listInsert _ _ | .listDelete _ | .textInsert _ _ | .textDelete _ | .xmlInsertChild _ _
  | .xmlMove _ _ | .xmlReveal _ _ | .rangedCreate _ _ _ _ | .rangedSetPayload _ _
  | .rangedDelete _ | .aclGrant _ _ _ _ _ | .aclRevoke _ => none

/-- A copy of `op` with its slot key replaced. -/
def withKey (op : Op) (newKey : Bytes) : Op :=
  { op with
    kind :=
      match op.kind with
      | .registerSet _ value => .registerSet newKey value
      | .counterInc _ amount => .counterInc newKey amount
      | .counterDec _ amount => .counterDec newKey amount
      | .mapSet _ value => .mapSet newKey value
      | .mapDelete _ => .mapDelete newKey
      | .mapCreate _ => .mapCreate newKey
      | .listCreate _ => .listCreate newKey
      | .textCreate _ => .textCreate newKey
      | .xmlElementCreate _ tag => .xmlElementCreate newKey tag
      | .xmlFragmentCreate _ => .xmlFragmentCreate newKey
      | other => other }

def renameKey (op : Op) (source target : Bytes) : OpRewrite :=
  if opKey op = some source then .keep (withKey op target) else .keep op

def dropOnKey (op : Op) (field : Bytes) : OpRewrite :=
  if opKey op = some field then .drop else .keep op

namespace Step

def compat : Step → Compat
  | addType _ | addField _ _ _ => .backCompatible
  | removeType _ | removeField _ _ | renameType _ _ | renameField _ _ _ => .breaking

/-- An op's image forward across the step. -/
def rewriteUp (step : Step) (op : Op) : OpRewrite :=
  match step with
  | renameField _ source target => renameKey op source target
  | removeField _ field => dropOnKey op field
  | addField _ _ _ | addType _ | removeType _ | renameType _ _ => .keep op

/-- An op's image backward across the step, where the step has an inverse. -/
def rewriteDown (step : Step) (op : Op) : Option OpRewrite :=
  match step with
  | addField _ field _ => some (dropOnKey op field)
  | addType _ => some (.keep op)
  | removeType _ | removeField _ _ | renameType _ _ | renameField _ _ _ => none

end Step

namespace Migration

def compat (m : Migration) : Compat :=
  if m.steps.all fun step => step.compat = .backCompatible then .backCompatible else .breaking

end Migration

end CrdtSync
