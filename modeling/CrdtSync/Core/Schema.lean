import CrdtSync.Core.Json
import CrdtSync.Core.Stamp

/-!
# The schema model and its parsing

A document's shape over the built primitives, read off a JSON object. A field the language does
not define is refused, and so is a schema that names a type, a mark or a role it does not
declare.
-/

namespace CrdtSync

namespace Json

def asStr : Json → Option String
  | str s => some s
  | _ => none

def asI64 : Json → Option Int
  | int n => some n
  | _ => none

def asArray : Json → Option (List Json)
  | array items => some items
  | _ => none

def asObject : Json → Option (List (String × Json))
  | object pairs => some pairs
  | _ => none

/-- The value for `key`, if this is an object that has it. -/
def get (json : Json) (key : String) : Option Json := do
  let pairs ← json.asObject
  (pairs.find? fun pair => pair.1 = key).map Prod.snd

end Json

/-- One named type: a built primitive with its declared constraints. -/
inductive TypeDef
  | map (children : List (String × String))
  | list (items : String) (max : Option Nat)
  | text (max : Option Nat)
  | register (min max : Option Int)
  | counter (min max : Option Int)
  | xml (tag : Option String) (children : List (String × Option Nat)) (attrs : List (String × String))
    (marks : List String) (orphanInline : Option String)
deriving DecidableEq

namespace Schema

inductive Effect
  | allow
  | deny
deriving DecidableEq

inductive Action
  | read
  | write
  | publishAwareness
deriving DecidableEq

inductive SubjectClass
  | authenticated
  | anonymous
  | anyone
deriving DecidableEq

inductive TemplateVar
  | actorId
  | authorId
  | roomId
  | branchId
deriving DecidableEq

inductive Subject
  | role (name : String)
  | «class» (c : SubjectClass)
  | template (var : TemplateVar)
deriving DecidableEq

/-- One static grant. -/
structure Grant where
  effect : Effect
  action : Action
  subject : Subject
  path : String
deriving DecidableEq

structure Auth where
  roles : List String
  grants : List Grant
deriving DecidableEq

/-- The timing of one kind of awareness entry, in milliseconds. -/
structure AwarenessEntry where
  ttl : Option Nat
  throttle : Option Nat
deriving DecidableEq

inductive MarkFlavor
  | boolean
  | value
  | object
deriving DecidableEq

inductive MarkExpand
  | none
  | before
  | after
  | both
deriving DecidableEq

structure MarkDef where
  flavor : MarkFlavor
  expand : MarkExpand
deriving DecidableEq

inductive TriggerEvent
  | connect
  | disconnect
  | subscribe
  | versionCreated
  | versionRenamed
  | versionDeleted
  | compaction
  | beforePublish
  | afterRestore
  | beforeMigration
deriving DecidableEq

inductive Trigger
  | on (event : TriggerEvent)
  | every (millis : Nat)
deriving DecidableEq

structure AutoVersion where
  trigger : Trigger
  name : String
  keep : Option Nat
deriving DecidableEq

inductive ErrorKind
  | json (fault : Fault)
  | notAnObject
  | missingField
  | wrongType
  | unknownKind
  | unknownTypeRef
  | rootNotMap
  | badRange
  | unknownField
  | badGrant
  | unknownAction
  | badSubject
  | unknownRoleRef
  | badPath
  | duplicateRole
  | reservedRole
  | badTrigger
  | unknownEvent
  | badDuration
  | emptyName
  | unknownFlavor
  | unknownExpand
  | unknownMarkRef
deriving DecidableEq

/-- A schema failure, and the field or type name it occurred at. -/
structure Error where
  kind : ErrorKind
  loc : String
deriving DecidableEq

end Schema

open Schema in
/-- A parsed, validated schema. -/
structure Schema where
  name : String
  version : Int
  root : String
  types : List (String × TypeDef)
  marks : List (String × MarkDef)
  awareness : List (String × AwarenessEntry)
  auth : Auth
  zones : List (String × String)
  autoVersion : List AutoVersion
deriving DecidableEq

namespace Schema

/-- The definition of `name`, if declared. -/
def typeDef (s : Schema) (name : String) : Option TypeDef :=
  (s.types.find? fun entry => entry.1 = name).map Prod.snd

section Fields

/-- What an option holds, or the failure. -/
def okOr {α : Type} (o : Option α) (kind : ErrorKind) (loc : String) : Except Error α :=
  match o with
  | some a => .ok a
  | none => .error ⟨kind, loc⟩

/-- `at` -/
def keyAt (ctx key : String) : String := if ctx = "" then key else ctx ++ "." ++ key

/-- Refuse a key of an object outside `allowed`. -/
def rejectUnknownFields (pairs : List (String × Json)) (allowed : List String) (ctx : String) :
    Except Error Unit :=
  match pairs.find? fun pair => pair.1 ∉ allowed with
  | some pair => .error ⟨.unknownField, keyAt ctx pair.1⟩
  | none => .ok ()

def requiredStr (json : Json) (key ctx : String) : Except Error String :=
  match json.get key with
  | none => .error ⟨.missingField, keyAt ctx key⟩
  | some v => okOr v.asStr .wrongType (keyAt ctx key)

def requiredInt (json : Json) (key ctx : String) : Except Error Int :=
  match json.get key with
  | none => .error ⟨.missingField, keyAt ctx key⟩
  | some v => okOr v.asI64 .wrongType (keyAt ctx key)

def intField (json : Json) (key ctx : String) : Except Error (Option Int) :=
  match json.get key with
  | none => .ok none
  | some v => (okOr v.asI64 .wrongType (keyAt ctx key)).map some

def countField (json : Json) (key ctx : String) : Except Error (Option Nat) := do
  match ← intField json key ctx with
  | none => .ok none
  | some n => if n < 0 then .error ⟨.badRange, keyAt ctx key⟩ else .ok (some n.toNat)

/-- The bounds of a register or counter. -/
def bounds (json : Json) (ctx : String) : Except Error (Option Int × Option Int) := do
  let min ← intField json "min" ctx
  let max ← intField json "max" ctx
  match min, max with
  | some a, some b =>
    if b < a then .error ⟨.badRange, keyAt ctx "min_gt_max"⟩ else .ok (min, max)
  | _, _ => .ok (min, max)

/-- The pieces between the slashes of a text. -/
def segments (path : List Char) : List (List Char) := path.splitOn '/'

/-- An absolute path with no empty segment. -/
def validatePath (path loc : String) : Except Error Unit :=
  match path.toList with
  | ['/'] => .ok ()
  | '/' :: rest =>
    if (segments rest).any List.isEmpty then .error ⟨.badPath, loc⟩ else .ok ()
  | _ => .error ⟨.badPath, loc⟩

end Fields

section Types

/-- The entries of an optional object under `key`, each value parsed under its place. -/
def parseEntries {α : Type} (json : Json) (key ctx : String)
    (parse : String → Json → Except Error α) : Except Error (List (String × α)) :=
  match json.get key with
  | none => .ok []
  | some v => do
    let ctx := keyAt ctx key
    let pairs ← okOr v.asObject .notAnObject ctx
    pairs.mapM fun pair => (parse (keyAt ctx pair.1) pair.2).map fun a => (pair.1, a)

def parseTypeName (ctx : String) (json : Json) : Except Error String := okOr json.asStr .wrongType ctx

def parseChildren (json : Json) (ctx : String) : Except Error (List (String × String)) :=
  parseEntries json "children" ctx parseTypeName

def parseXmlChild (ctx : String) (json : Json) : Except Error (Option Nat) := do
  let pairs ← okOr json.asObject .notAnObject ctx
  rejectUnknownFields pairs ["max"] ctx
  countField json "max" ctx

def parseXmlChildren (json : Json) (ctx : String) : Except Error (List (String × Option Nat)) :=
  parseEntries json "children" ctx parseXmlChild

def parseAttrs (json : Json) (ctx : String) : Except Error (List (String × String)) :=
  parseEntries json "attrs" ctx parseTypeName

def parseTypeNameArray (json : Json) (key ctx : String) : Except Error (List String) :=
  match json.get key with
  | none => .ok []
  | some v => do
    let ctx := keyAt ctx key
    let items ← okOr v.asArray .wrongType ctx
    items.mapM fun item => okOr item.asStr .wrongType ctx

def parseOrphanInline (json : Json) (ctx : String) : Except Error (Option String) :=
  match json.get "repair" with
  | none => .ok none
  | some repair => do
    let ctx := keyAt ctx "repair"
    let pairs ← okOr repair.asObject .notAnObject ctx
    rejectUnknownFields pairs ["orphanInline"] ctx
    match repair.get "orphanInline" with
    | none => .ok none
    | some v => (okOr v.asStr .wrongType (keyAt ctx "orphanInline")).map some

def parseTypeDef (json : Json) (typeName : String) : Except Error TypeDef := do
  let pairs ← okOr json.asObject .notAnObject typeName
  let kind ← requiredStr json "kind" typeName
  if kind = "map" then do
    rejectUnknownFields pairs ["kind", "children"] typeName
    .ok (.map (← parseChildren json typeName))
  else if kind = "list" then do
    rejectUnknownFields pairs ["kind", "items", "max"] typeName
    let items ← requiredStr json "items" typeName
    .ok (.list items (← countField json "max" typeName))
  else if kind = "text" then do
    rejectUnknownFields pairs ["kind", "max"] typeName
    .ok (.text (← countField json "max" typeName))
  else if kind = "register" then do
    rejectUnknownFields pairs ["kind", "min", "max"] typeName
    let range ← bounds json typeName
    .ok (.register range.1 range.2)
  else if kind = "counter" then do
    rejectUnknownFields pairs ["kind", "min", "max"] typeName
    let range ← bounds json typeName
    .ok (.counter range.1 range.2)
  else if kind = "xml" then do
    rejectUnknownFields pairs ["kind", "tag", "children", "attrs", "marks", "repair"] typeName
    let tag ← requiredStr json "tag" typeName
    let children ← parseXmlChildren json typeName
    let attrs ← parseAttrs json typeName
    let marks ← parseTypeNameArray json "marks" typeName
    .ok (.xml (some tag) children attrs marks (← parseOrphanInline json typeName))
  else if kind = "fragment" then do
    rejectUnknownFields pairs ["kind", "children", "repair"] typeName
    let children ← parseXmlChildren json typeName
    .ok (.xml none children [] [] (← parseOrphanInline json typeName))
  else .error ⟨.unknownKind, keyAt typeName "kind"⟩

end Types

section Blocks

def parseAwareness (json : Json) : Except Error (List (String × AwarenessEntry)) := do
  let pairs ← okOr json.asObject .notAnObject "awareness"
  pairs.mapM fun pair => do
    let ctx := keyAt "awareness" pair.1
    let entry ← okOr pair.2.asObject .notAnObject ctx
    rejectUnknownFields entry ["ttl", "throttle"] ctx
    let ttl ← countField pair.2 "ttl" ctx
    let throttle ← countField pair.2 "throttle" ctx
    .ok (pair.1, ⟨ttl, throttle⟩)

def parseFlavor (name ctx : String) : Except Error MarkFlavor :=
  if name = "boolean" then .ok .boolean
  else if name = "value" then .ok .value
  else if name = "object" then .ok .object
  else .error ⟨.unknownFlavor, keyAt ctx "flavor"⟩

def parseExpand (def' : Json) (ctx : String) : Except Error MarkExpand :=
  match def'.get "expand" with
  | none => .ok .none
  | some e => do
    let name ← okOr e.asStr .wrongType (keyAt ctx "expand")
    if name = "none" then .ok .none
    else if name = "before" then .ok .before
    else if name = "after" then .ok .after
    else if name = "both" then .ok .both
    else .error ⟨.unknownExpand, keyAt ctx "expand"⟩

def parseMarks (json : Json) : Except Error (List (String × MarkDef)) := do
  let pairs ← okOr json.asObject .notAnObject "marks"
  pairs.mapM fun pair => do
    let ctx := keyAt "marks" pair.1
    let fields ← okOr pair.2.asObject .notAnObject ctx
    rejectUnknownFields fields ["flavor", "expand"] ctx
    let flavor ← parseFlavor (← requiredStr pair.2 "flavor" ctx) ctx
    let expand ← parseExpand pair.2 ctx
    .ok (pair.1, ⟨flavor, expand⟩)

def parseZones (json : Json) : Except Error (List (String × String)) := do
  let pairs ← okOr json.asObject .notAnObject "zones"
  pairs.mapM fun pair => do
    let ctx := keyAt "zones" pair.1
    let path ← okOr pair.2.asStr .wrongType ctx
    validatePath path ctx
    .ok (pair.1, path)

def parseTriggerEvent (name ctx : String) : Except Error TriggerEvent :=
  if name = "connect" then .ok .connect
  else if name = "disconnect" then .ok .disconnect
  else if name = "subscribe" then .ok .subscribe
  else if name = "version-created" then .ok .versionCreated
  else if name = "version-renamed" then .ok .versionRenamed
  else if name = "version-deleted" then .ok .versionDeleted
  else if name = "compaction" then .ok .compaction
  else if name = "before-publish" then .ok .beforePublish
  else if name = "after-restore" then .ok .afterRestore
  else if name = "before-migration" then .ok .beforeMigration
  else .error ⟨.unknownEvent, keyAt ctx "on"⟩

/-- The milliseconds of a duration's unit. -/
def unitMillis (unit : Char) : Option Nat :=
  if unit = 's' then some 1000
  else if unit = 'm' then some 60000
  else if unit = 'h' then some 3600000
  else if unit = 'd' then some 86400000
  else none

def durationMillis (spec : List Char) : Option Nat := do
  let factor ← unitMillis (← spec.getLast?)
  let digits := spec.dropLast
  if digits.isEmpty || !digits.all Char.isDigit then none
  else
    let n := digitsValue digits
    if u64Max < n ∨ n = 0 ∨ u64Max < n * factor then none else some (n * factor)

def parseDurationMillis (spec ctx : String) : Except Error Nat :=
  okOr (durationMillis spec.toList) .badDuration (keyAt ctx "every")

/-- Exactly one of an event and a schedule. -/
def triggerOf (json : Json) (ctx : String) : Except Error Trigger :=
  match json.get "on", json.get "every" with
  | some on, none => do
    let name ← okOr on.asStr .wrongType (keyAt ctx "on")
    (parseTriggerEvent name ctx).map Trigger.on
  | none, some every => do
    let spec ← okOr every.asStr .wrongType (keyAt ctx "every")
    (parseDurationMillis spec ctx).map Trigger.every
  | _, _ => .error ⟨.badTrigger, ctx⟩

def parseTrigger (json : Json) (index : Nat) : Except Error AutoVersion := do
  let ctx := "autoVersion[" ++ toString index ++ "]"
  let pairs ← okOr json.asObject .notAnObject ctx
  rejectUnknownFields pairs ["on", "every", "name", "keep"] ctx
  let trigger ← triggerOf json ctx
  let name ← requiredStr json "name" ctx
  if name = "" then .error ⟨.emptyName, keyAt ctx "name"⟩
  else do
    let keep ← countField json "keep" ctx
    .ok ⟨trigger, name, keep⟩

def parseAutoVersion (json : Json) : Except Error (List AutoVersion) := do
  let items ← okOr json.asArray .wrongType "autoVersion"
  items.zipIdx.mapM fun item => parseTrigger item.1 item.2

end Blocks

section AuthBlock

def isReservedSubject (name : String) : Bool :=
  name == "authenticated" || name == "anonymous" || name == "anyone"

/-- The roles from the `index`-th on, after those of `out`. -/
def rolesLoop : List Json → Nat → List String → Except Error (List String)
  | [], _, out => .ok out
  | role :: roles, index, out => do
    let ctx := "auth.roles[" ++ toString index ++ "]"
    let name ← okOr role.asStr .wrongType ctx
    if isReservedSubject name then .error ⟨.reservedRole, ctx⟩
    else if name ∈ out then .error ⟨.duplicateRole, ctx⟩
    else rolesLoop roles (index + 1) (out ++ [name])

def parseRoles (json : Json) : Except Error (List String) :=
  match json.get "roles" with
  | none => .ok []
  | some roles => do
    let items ← okOr roles.asArray .wrongType "auth.roles"
    rolesLoop items 0 []

def parseAction (name ctx effectKey : String) : Except Error Action :=
  if name = "read" then .ok .read
  else if name = "write" then .ok .write
  else if name = "publish_awareness" then .ok .publishAwareness
  else .error ⟨.unknownAction, keyAt ctx effectKey⟩

/-- The variable a template names. -/
def templateVar (rest : List Char) : Option TemplateVar :=
  if rest = "actor_id\x7d".toList then some .actorId
  else if rest = "author_id\x7d".toList then some .authorId
  else if rest = "room_id\x7d".toList then some .roomId
  else if rest = "branch_id\x7d".toList then some .branchId
  else none

def parseSubject (raw : String) (roles : List String) (ctx : String) : Except Error Subject :=
  match raw.toList with
  | '$' :: '\x7b' :: rest => (okOr (templateVar rest) .badSubject (keyAt ctx "to")).map .template
  | _ =>
    if raw = "authenticated" then .ok (.class .authenticated)
    else if raw = "anonymous" then .ok (.class .anonymous)
    else if raw = "anyone" then .ok (.class .anyone)
    else if raw ∈ roles then .ok (.role raw)
    else .error ⟨.unknownRoleRef, keyAt ctx "to"⟩

/-- Exactly one of the two effects, with its key and the value there. -/
def effectOf (json : Json) (ctx : String) : Except Error (Effect × String × Json) :=
  match json.get "allow", json.get "deny" with
  | some a, none => .ok (.allow, "allow", a)
  | none, some d => .ok (.deny, "deny", d)
  | _, _ => .error ⟨.badGrant, ctx⟩

def parseGrant (json : Json) (index : Nat) (roles : List String) : Except Error Grant := do
  let ctx := "auth.grants[" ++ toString index ++ "]"
  let pairs ← okOr json.asObject .notAnObject ctx
  rejectUnknownFields pairs ["allow", "deny", "to", "on"] ctx
  let (effect, effectKey, action) ← effectOf json ctx
  let actionName ← okOr action.asStr .wrongType (keyAt ctx effectKey)
  let action ← parseAction actionName ctx effectKey
  let subject ← parseSubject (← requiredStr json "to" ctx) roles ctx
  let path ← requiredStr json "on" ctx
  validatePath path (keyAt ctx "on")
  .ok ⟨effect, action, subject, path⟩

def parseAuth (json : Json) : Except Error Auth := do
  let pairs ← okOr json.asObject .notAnObject "auth"
  rejectUnknownFields pairs ["roles", "grants"] "auth"
  let roles ← parseRoles json
  match json.get "grants" with
  | none => .ok ⟨roles, []⟩
  | some g => do
    let items ← okOr g.asArray .wrongType "auth.grants"
    let grants ← items.zipIdx.mapM fun item => parseGrant item.1 item.2 roles
    .ok ⟨roles, grants⟩

end AuthBlock

section References

/-- A name a definition refers to. -/
inductive Ref
  | type (name : String)
  | mark (name : String)
deriving DecidableEq

/-- What a definition names, in the order it is checked. -/
def refs : TypeDef → List Ref
  | .map children => children.map fun child => .type child.2
  | .list items _ => [.type items]
  | .text _ | .register _ _ | .counter _ _ => []
  | .xml _ children attrs marks orphanInline =>
    children.map (fun child => .type child.1) ++ attrs.map (fun attr => .type attr.2) ++
      marks.map .mark ++ orphanInline.toList.map .type

def declares (s : Schema) : Ref → Bool
  | .type name => decide (name ∈ s.types.map Prod.fst)
  | .mark name => decide (name ∈ s.marks.map Prod.fst)

def undeclared : Ref → Error
  | .type name => ⟨.unknownTypeRef, name⟩
  | .mark name => ⟨.unknownMarkRef, name⟩

/-- Every name a schema refers to must be declared, and its root must be a map. -/
def validateReferences (s : Schema) : Except Error Unit :=
  match s.typeDef s.root with
  | none => .error ⟨.unknownTypeRef, s.root⟩
  | some (.map _) =>
    match (s.types.flatMap fun entry => refs entry.2).find? fun ref => !s.declares ref with
    | some ref => .error (undeclared ref)
    | none => .ok ()
  | some _ => .error ⟨.rootNotMap, s.root⟩

end References

def TOP_LEVEL_KEYS : List String :=
  ["schema", "version", "root", "types", "marks", "awareness", "auth", "zones", "autoVersion"]

def parseBlock {α : Type} (json : Json) (key : String) (default : α)
    (parse : Json → Except Error α) : Except Error α :=
  match json.get key with
  | none => .ok default
  | some block => parse block

def parseTypes (json : Json) : Except Error (List (String × TypeDef)) := do
  let block ← okOr (json.get "types") .missingField "types"
  let pairs ← okOr block.asObject .notAnObject "types"
  pairs.mapM fun pair => (parseTypeDef pair.2 pair.1).map fun td => (pair.1, td)

def fromJson (json : Json) : Except Error Schema := do
  let pairs ← okOr json.asObject .notAnObject "document"
  rejectUnknownFields pairs TOP_LEVEL_KEYS ""
  let name ← requiredStr json "schema" ""
  let version ← requiredInt json "version" ""
  let root ← requiredStr json "root" ""
  let types ← parseTypes json
  let marks ← parseBlock json "marks" [] parseMarks
  let awareness ← parseBlock json "awareness" [] parseAwareness
  let auth ← parseBlock json "auth" ⟨[], []⟩ parseAuth
  let zones ← parseBlock json "zones" [] parseZones
  let autoVersion ← parseBlock json "autoVersion" [] parseAutoVersion
  let schema : Schema := ⟨name, version, root, types, marks, awareness, auth, zones, autoVersion⟩
  validateReferences schema
  .ok schema

def jsonFailure : Fault → Error
  | .error e => ⟨.json (.error e), "byte " ++ toString e.pos⟩
  | fault => ⟨.json fault, ""⟩

def parse (src : String) : Except Error Schema :=
  match Json.parse src with
  | .error fault => .error (jsonFailure fault)
  | .ok json => fromJson json

end Schema

end CrdtSync
