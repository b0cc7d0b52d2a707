import CrdtSync.Core.Schema
import CrdtSync.Lib.Triples

/-!
# What an accepted schema declares

A schema that parses declares every type, mark and role it names, roots the document in a map,
bounds no number from below past its upper bound, and declares nothing twice. So a walk of a
document under it never meets a name without a definition, and a value out of bounds has one to
be clamped to.
-/

namespace CrdtSync

namespace Json

mutual

/-- No object repeats a key, at any depth. -/
def Distinct : Json → Prop
  | null => True
  | bool _ => True
  | int _ => True
  | float _ => True
  | str _ => True
  | array items => DistinctItems items
  | object pairs => (pairs.map Prod.fst).Nodup ∧ DistinctPairs pairs

def DistinctItems : List Json → Prop
  | [] => True
  | v :: vs => v.Distinct ∧ DistinctItems vs

def DistinctPairs : List (String × Json) → Prop
  | [] => True
  | (_, v) :: pairs => v.Distinct ∧ DistinctPairs pairs

end

/-- A value that comes with `Q`, or a failure. -/
abbrev Gives {ε α : Type} (Q : α → Prop) (x : Except ε α) : Prop := Meets (fun _ => True) Q x

theorem gives_true {ε α : Type} (x : Except ε α) : Gives (fun _ => True) x := by
  cases x <;> trivial

/-- What comes before tells nothing. -/
theorem gives_bind {ε α β : Type} {Q : β → Prop} {x : Except ε α} {f : α → Except ε β}
    (hf : ∀ a, Gives Q (f a)) : Gives Q (x >>= f) := (gives_true x).bind fun a _ => hf a

theorem gives_map {ε α β : Type} {P : α → Prop} {Q : β → Prop} {x : Except ε α} {f : α → β}
    (hx : Gives P x) (hf : ∀ a, P a → Q (f a)) : Gives Q (x.map f) := by
  cases x with
  | ok a => exact hf a hx
  | error e => trivial

theorem gives_mapM {ε α β : Type} {Q : α → β → Prop} {f : α → Except ε β} {items : List α}
    (hf : ∀ a ∈ items, Gives (Q a) (f a)) : Gives (List.Forall₂ Q items) (items.mapM f) := by
  induction items with
  | nil => exact .nil
  | cons a items ih =>
    rw [List.mapM_cons]
    refine (hf a List.mem_cons_self).bind fun b hb => ?_
    exact (ih fun a ha => hf a (List.mem_cons_of_mem _ ha)).bind fun bs hbs => .cons hb hbs

theorem gives_each {ε α β : Type} {P : β → Prop} {f : α → Except ε β} {items : List α}
    (hf : ∀ a ∈ items, Gives P (f a)) : Gives (fun bs => ∀ b ∈ bs, P b) (items.mapM f) := by
  refine (gives_mapM (Q := fun _ b => P b) hf).mono fun bs hAll b hb => ?_
  clear hf
  induction hAll with
  | nil => cases hb
  | cons hHead _ ih =>
    obtain rfl | hLater := List.mem_cons.mp hb
    · exact hHead
    · exact ih hLater

theorem distinctItems_append {vs : List Json} {v : Json} (hvs : DistinctItems vs) (hv : v.Distinct) :
    DistinctItems (vs ++ [v]) := by
  induction vs with
  | nil => exact ⟨hv, trivial⟩
  | cons w vs ih => exact ⟨hvs.1, ih hvs.2⟩

theorem distinctPairs_append {pairs : List (String × Json)} {key : String} {v : Json}
    (hPairs : DistinctPairs pairs) (hv : v.Distinct) : DistinctPairs (pairs ++ [(key, v)]) := by
  induction pairs with
  | nil => exact ⟨hv, trivial⟩
  | cons pair pairs ih => exact ⟨hPairs.1, ih hPairs.2⟩

theorem distinct_of_mem_pairs {pairs : List (String × Json)} {pair : String × Json}
    (hPairs : DistinctPairs pairs) (hPair : pair ∈ pairs) : pair.2.Distinct := by
  induction pairs with
  | nil => cases hPair
  | cons other pairs ih =>
    obtain rfl | hLater := List.mem_cons.mp hPair
    · exact hPairs.1
    · exact ih hPairs.2 hLater

namespace Parser

theorem distinct_literal (p : Parser) (lit : List UInt8) {value : Json} (h : value.Distinct) :
    Gives (fun r : Json × Parser => r.1.Distinct) (p.literal lit value) := by
  unfold literal
  split
  · trivial
  split
  · exact h
  · trivial

theorem distinct_readNumber (start : Nat) (isFloat : Bool) (text : String) :
    Gives Distinct (readNumber start isFloat text) := by
  unfold readNumber
  split
  · trivial
  · split <;> trivial

theorem distinct_number (p : Parser) : Gives (fun r : Json × Parser => r.1.Distinct) p.number := by
  unfold number
  refine gives_bind fun p => ?_
  split
  · trivial
  refine gives_bind fun frac => gives_bind fun exp => ?_
  obtain ⟨exponential, p⟩ := exp
  dsimp only
  split
  · trivial
  split
  · trivial
  · exact (distinct_readNumber ..).bind fun v hv => hv

/-- What one more step of fuel reads is distinct when what the rest reads is. -/
theorem distinct_value (fuel : Nat) :
    (∀ depth p, Gives (fun r : Json × Parser => r.1.Distinct) (value fuel depth p)) ∧
    (∀ depth items p, DistinctItems items →
      Gives (fun r : Json × Parser => r.1.Distinct) (arrayLoop fuel depth items p)) ∧
    ∀ depth pairs p, (pairs.map Prod.fst).Nodup → DistinctPairs pairs →
      Gives (fun r : Json × Parser => r.1.Distinct) (objectLoop fuel depth pairs p) := by
  induction fuel with
  | zero =>
    refine ⟨fun depth p => ?_, fun depth items p _ => ?_, fun depth pairs p _ _ => ?_⟩
    · rw [value]
      trivial
    · rw [arrayLoop]
      trivial
    · rw [objectLoop]
      trivial
  | succ fuel ih =>
    obtain ⟨ihValue, ihItems, ihPairs⟩ := ih
    refine ⟨fun depth p => ?_, fun depth items p hItems => ?_, fun depth pairs p hKeys hPairs => ?_⟩
    · rw [value]
      split
      · trivial
      split
      · exact distinct_literal _ _ trivial
      split
      · exact distinct_literal _ _ trivial
      split
      · exact distinct_literal _ _ trivial
      split
      · exact gives_bind fun r => trivial
      split
      · split
        · trivial
        dsimp only
        split
        · trivial
        · exact ihItems _ _ _ trivial
      split
      · split
        · trivial
        dsimp only
        split
        · exact ⟨List.nodup_nil, trivial⟩
        · exact ihPairs _ _ _ List.nodup_nil trivial
      split
      · exact distinct_number p
      · trivial
    · rw [arrayLoop]
      refine (ihValue _ _).bind fun r hItem => ?_
      obtain ⟨item, p⟩ := r
      have hMore := distinctItems_append hItems hItem
      dsimp only
      split
      · exact ihItems _ _ _ hMore
      split
      · exact hMore
      · trivial
    · rw [objectLoop]
      dsimp only
      split
      · trivial
      refine gives_bind fun r => ?_
      obtain ⟨key, p⟩ := r
      dsimp only
      split
      · trivial
      next hNew =>
        split
        · trivial
        refine (ihValue _ _).bind fun r hItem => ?_
        obtain ⟨item, p⟩ := r
        have hMore : DistinctPairs (pairs ++ [(key, item)]) := distinctPairs_append hPairs hItem
        have hNodup : ((pairs ++ [(key, item)]).map Prod.fst).Nodup := by
          rw [List.map_append, List.nodup_append]
          refine ⟨hKeys, List.nodup_singleton _, fun a ha b hb => ?_⟩
          obtain rfl := List.mem_singleton.mp hb
          exact fun hEq => hNew (hEq ▸ ha)
        dsimp only
        split
        · exact ihPairs _ _ _ hNodup hMore
        split
        · exact ⟨hNodup, hMore⟩
        · trivial

end Parser

/-- What a text is parsed as repeats no key. -/
theorem distinct_parse (input : String) : Gives Distinct (parse input) := by
  unfold parse
  refine ((Parser.distinct_value _).1 _ _).bind fun r hr => ?_
  dsimp only
  split
  · trivial
  · exact hr

variable {json v : Json} {key : String} {pairs : List (String × Json)}

theorem asObject_eq_some (h : json.asObject = some pairs) : json = .object pairs := by
  cases json <;> simp_all [asObject]

theorem Distinct.get (h : json.Distinct) (hGet : json.get key = some v) : v.Distinct := by
  obtain ⟨pairs, hObject, hFind⟩ := Option.bind_eq_some_iff.mp hGet
  obtain ⟨pair, hPair, rfl⟩ := Option.map_eq_some_iff.mp hFind
  rw [asObject_eq_some hObject] at h
  exact distinct_of_mem_pairs h.2 (List.mem_of_find?_eq_some hPair)

end Json

namespace Schema

open Json

/-- An absolute path with no empty segment: the root, or segments each behind a slash. -/
def IsPath (path : String) : Prop :=
  path.toList = ['/'] ∨ ∃ segs : List (List Char), segs ≠ [] ∧
    (∀ seg ∈ segs, seg ≠ [] ∧ '/' ∉ seg) ∧ path.toList = segs.flatMap fun seg => '/' :: seg

/-- A lower bound is no higher than the upper one. -/
def InRange (min max : Option Int) : Prop := ∀ a ∈ min, ∀ b ∈ max, a ≤ b

/-- A definition declares nothing twice and bounds a number by a range that is not empty. -/
def IsDef : TypeDef → Prop
  | .map children => (children.map Prod.fst).Nodup
  | .list _ _ | .text _ => True
  | .register min max | .counter min max => InRange min max
  | .xml tag children attrs marks _ => (children.map Prod.fst).Nodup ∧ (attrs.map Prod.fst).Nodup ∧
      (tag = none → attrs = [] ∧ marks = [])

/-- What the parser promises of a schema. -/
structure Closed (s : Schema) : Prop where
  root : ∃ children, s.typeDef s.root = some (.map children)
  refs : ∀ entry ∈ s.types, ∀ ref ∈ refs entry.2, s.declares ref = true
  types : (s.types.map Prod.fst).Nodup
  defs : ∀ entry ∈ s.types, IsDef entry.2
  marks : (s.marks.map Prod.fst).Nodup
  awareness : (s.awareness.map Prod.fst).Nodup
  zones : (s.zones.map Prod.fst).Nodup
  zoneRoots : ∀ zone ∈ s.zones, IsPath zone.2
  roles : s.auth.roles.Nodup ∧ ∀ role ∈ s.auth.roles, isReservedSubject role = false
  grants : ∀ g ∈ s.auth.grants, IsPath g.path ∧ ∀ role, g.subject = .role role → role ∈ s.auth.roles
  triggers : ∀ t ∈ s.autoVersion, t.name ≠ "" ∧ ∀ millis, t.trigger = .every millis →
    0 < millis ∧ millis ≤ u64Max

section Fields

variable {α : Type}

theorem gives_okOr (o : Option α) (kind : ErrorKind) (loc : String) :
    Gives (fun a => o = some a) (okOr o kind loc) := by
  unfold okOr
  split
  · rfl
  · trivial

theorem segments_spec (path : List Char) :
    (∀ seg ∈ segments path, '/' ∉ seg) ∧
      (segments path).flatMap (fun seg => '/' :: seg) = '/' :: path := by
  unfold segments
  induction path with
  | nil => simp
  | cons c path ih =>
    obtain ⟨hFree, hJoin⟩ := ih
    rw [List.splitOn_cons_eq_if_modifyHead]
    split
    next hSlash =>
      obtain rfl := eq_of_beq hSlash
      refine ⟨fun seg hSeg => ?_, by rw [List.flatMap_cons, hJoin]; rfl⟩
      obtain rfl | hLater := List.mem_cons.mp hSeg
      · exact List.not_mem_nil
      · exact hFree seg hLater
    next hOther =>
      obtain ⟨seg, segs, hSplit⟩ := List.exists_cons_of_ne_nil (List.splitOn_ne_nil '/' path)
      rw [hSplit] at hFree hJoin ⊢
      rw [List.modifyHead_cons]
      refine ⟨fun other hMem => ?_, ?_⟩
      · obtain rfl | hLater := List.mem_cons.mp hMem
        · simp only [List.mem_cons, not_or]
          exact ⟨fun hEq => hOther (beq_iff_eq.mpr hEq.symm), hFree seg List.mem_cons_self⟩
        · exact hFree other (List.mem_cons_of_mem _ hLater)
      · rw [List.flatMap_cons] at hJoin ⊢
        have hTail : seg ++ segs.flatMap (fun seg => '/' :: seg) = path := by
          simpa using hJoin
        rw [List.cons_append, List.cons_append, hTail]

theorem gives_validatePath (path loc : String) :
    Gives (fun _ => IsPath path) (validatePath path loc) := by
  unfold validatePath
  split
  next hRoot => exact .inl hRoot
  next rest _ hPath =>
    split
    · trivial
    next hFull =>
      obtain ⟨hFree, hJoin⟩ := segments_spec rest
      refine .inr ⟨segments rest, List.splitOn_ne_nil '/' rest, fun seg hSeg => ⟨fun hNil => hFull ?_,
        hFree seg hSeg⟩, ?_⟩
      · exact List.any_eq_true.mpr ⟨seg, hSeg, by rw [hNil]; rfl⟩
      · rw [hJoin, hPath]
  next => trivial

theorem gives_entries {P : α → Prop} {pairs : List (String × Json)}
    {parse : String × Json → Except Error (String × α)} (hKeys : (pairs.map Prod.fst).Nodup)
    (hParse : ∀ pair ∈ pairs, Gives (fun entry => entry.1 = pair.1 ∧ P entry.2) (parse pair)) :
    Gives (fun entries : List (String × α) =>
      (entries.map Prod.fst).Nodup ∧ ∀ entry ∈ entries, P entry.2) (pairs.mapM parse) := by
  refine (gives_mapM hParse).mono fun entries hEntries => ?_
  have hSame : entries.map Prod.fst = pairs.map Prod.fst := by
    clear hKeys hParse
    induction hEntries with
    | nil => rfl
    | cons hEntry _ ih => rw [List.map_cons, List.map_cons, hEntry.1, ih]
  refine ⟨hSame ▸ hKeys, fun entry hEntry => ?_⟩
  clear hKeys hParse hSame
  induction hEntries with
  | nil => cases hEntry
  | cons hHead _ ih =>
    obtain rfl | hLater := List.mem_cons.mp hEntry
    · exact hHead.2
    · exact ih hLater

theorem distinct_asObject {json : Json} {pairs : List (String × Json)} (h : json.Distinct)
    (hPairs : json.asObject = some pairs) : (pairs.map Prod.fst).Nodup ∧
      ∀ pair ∈ pairs, pair.2.Distinct := by
  rw [asObject_eq_some hPairs] at h
  exact ⟨h.1, fun pair hPair => distinct_of_mem_pairs h.2 hPair⟩

theorem gives_parseEntries {json : Json} {P : α → Prop} {parse : String → Json → Except Error α}
    (h : json.Distinct) (key ctx : String) (hParse : ∀ ctx v, Gives P (parse ctx v)) :
    Gives (fun entries : List (String × α) => (entries.map Prod.fst).Nodup ∧
      ∀ entry ∈ entries, P entry.2) (parseEntries json key ctx parse) := by
  unfold parseEntries
  split
  · exact ⟨List.nodup_nil, fun _ hEntry => absurd hEntry List.not_mem_nil⟩
  next v hGet =>
    refine (gives_okOr ..).bind fun pairs hPairs => ?_
    obtain ⟨hKeys, -⟩ := distinct_asObject (h.get hGet) hPairs
    exact gives_entries hKeys fun pair _ => gives_map (hParse _ _) fun a ha => ⟨rfl, ha⟩

theorem gives_bounds (json : Json) (ctx : String) :
    Gives (fun range : Option Int × Option Int => InRange range.1 range.2) (bounds json ctx) := by
  unfold bounds
  refine gives_bind fun min => gives_bind fun max => ?_
  split
  next a b =>
    split
    · trivial
    next hLe =>
      rintro _ ⟨⟩ _ ⟨⟩
      exact not_lt.mp hLe
  next hOpen =>
    intro a ha b hb
    exact (hOpen a b ha hb).elim

end Fields

/-! ### The blocks -/

theorem gives_parseTypeDef {json : Json} (h : json.Distinct) (typeName : String) :
    Gives IsDef (parseTypeDef json typeName) := by
  unfold parseTypeDef
  refine gives_bind fun pairs => gives_bind fun kind => ?_
  split
  · exact gives_bind fun _ => (gives_parseEntries h _ _ fun _ _ => gives_true _).bind
      fun children hChildren => hChildren.1
  split
  · exact gives_bind fun _ => gives_bind fun _ => gives_bind fun _ => trivial
  split
  · exact gives_bind fun _ => gives_bind fun _ => trivial
  split
  · exact gives_bind fun _ => (gives_bounds ..).bind fun range hRange => hRange
  split
  · exact gives_bind fun _ => (gives_bounds ..).bind fun range hRange => hRange
  split
  · refine gives_bind fun _ => gives_bind fun tag => ?_
    refine (gives_parseEntries h _ _ fun _ _ => gives_true _).bind fun children hChildren => ?_
    refine (gives_parseEntries h _ _ fun _ _ => gives_true _).bind fun attrs hAttrs => ?_
    exact gives_bind fun marks => gives_bind fun orphan =>
      ⟨hChildren.1, hAttrs.1, fun hTag => by cases hTag⟩
  split
  · refine gives_bind fun _ => ?_
    refine (gives_parseEntries h _ _ fun _ _ => gives_true _).bind fun children hChildren => ?_
    exact gives_bind fun orphan => ⟨hChildren.1, List.nodup_nil, fun _ => ⟨rfl, rfl⟩⟩
  · trivial

/-- The entries of a parsed block. -/
abbrev Entries {α : Type} (P : α → Prop) (entries : List (String × α)) : Prop :=
  (entries.map Prod.fst).Nodup ∧ ∀ entry ∈ entries, P entry.2

theorem gives_parseTypes {json : Json} (h : json.Distinct) :
    Gives (Entries IsDef) (parseTypes json) := by
  unfold parseTypes
  refine (gives_okOr ..).bind fun block hBlock => (gives_okOr ..).bind fun pairs hPairs => ?_
  obtain ⟨hKeys, hValues⟩ := distinct_asObject (h.get hBlock) hPairs
  exact gives_entries hKeys fun pair hPair =>
    gives_map (gives_parseTypeDef (hValues pair hPair) _) fun td hDef => ⟨rfl, hDef⟩

theorem gives_parseMarks {json : Json} (h : json.Distinct) :
    Gives (Entries fun _ => True) (parseMarks json) := by
  unfold parseMarks
  refine (gives_okOr ..).bind fun pairs hPairs => ?_
  refine gives_entries (P := fun _ => True) (distinct_asObject h hPairs).1 fun pair _ => ?_
  exact gives_bind fun _ => gives_bind fun _ => gives_bind fun _ => gives_bind fun _ =>
    gives_bind fun _ => ⟨rfl, trivial⟩

theorem gives_parseAwareness {json : Json} (h : json.Distinct) :
    Gives (Entries fun _ => True) (parseAwareness json) := by
  unfold parseAwareness
  refine (gives_okOr ..).bind fun pairs hPairs => ?_
  refine gives_entries (P := fun _ => True) (distinct_asObject h hPairs).1 fun pair _ => ?_
  exact gives_bind fun _ => gives_bind fun _ => gives_bind fun _ => gives_bind fun _ => ⟨rfl, trivial⟩

theorem gives_parseZones {json : Json} (h : json.Distinct) :
    Gives (Entries IsPath) (parseZones json) := by
  unfold parseZones
  refine (gives_okOr ..).bind fun pairs hPairs => ?_
  refine gives_entries (distinct_asObject h hPairs).1 fun pair _ => ?_
  exact gives_bind fun path => (gives_validatePath ..).bind fun _ hPath => ⟨rfl, hPath⟩

theorem gives_rolesLoop {out : List String} (roles : List Json) (index : Nat)
    (hNodup : out.Nodup) (hFree : ∀ role ∈ out, isReservedSubject role = false) :
    Gives (fun out : List String => out.Nodup ∧ ∀ role ∈ out, isReservedSubject role = false)
      (rolesLoop roles index out) := by
  induction roles generalizing index out with
  | nil => exact ⟨hNodup, hFree⟩
  | cons role roles ih =>
    unfold rolesLoop
    refine gives_bind fun name => ?_
    split
    · trivial
    next hName =>
      split
      · trivial
      next hNew =>
        refine ih _ ?_ fun other hOther => ?_
        · rw [List.nodup_append]
          refine ⟨hNodup, List.nodup_singleton _, fun a ha b hb => ?_⟩
          obtain rfl := List.mem_singleton.mp hb
          exact fun hEq => hNew (hEq ▸ ha)
        · obtain hOld | hTop := List.mem_append.mp hOther
          · exact hFree other hOld
          · obtain rfl := List.mem_singleton.mp hTop
            exact Bool.eq_false_iff.mpr hName

theorem gives_parseSubject (raw : String) (roles : List String) (ctx : String) :
    Gives (fun subject => ∀ role, subject = .role role → role ∈ roles) (parseSubject raw roles ctx) := by
  unfold parseSubject
  split
  · exact gives_map (gives_true _) fun var _ role hEq => by cases hEq
  split
  · exact fun role hEq => by cases hEq
  split
  · exact fun role hEq => by cases hEq
  split
  · exact fun role hEq => by cases hEq
  split
  next hRole => exact fun role hEq => by cases hEq; exact hRole
  · trivial

theorem gives_parseGrant (json : Json) (index : Nat) (roles : List String) :
    Gives (fun g => IsPath g.path ∧ ∀ role, g.subject = .role role → role ∈ roles)
      (parseGrant json index roles) := by
  unfold parseGrant
  refine gives_bind fun pairs => gives_bind fun _ => gives_bind fun chosen => ?_
  obtain ⟨effect, effectKey, value⟩ := chosen
  refine gives_bind fun name => gives_bind fun action => gives_bind fun raw => ?_
  refine (gives_parseSubject ..).bind fun subject hSubject => gives_bind fun path => ?_
  exact (gives_validatePath ..).bind fun _ hPath => ⟨hPath, hSubject⟩

/-- What the parser promises of an auth block. -/
def IsAuth (auth : Auth) : Prop :=
  (auth.roles.Nodup ∧ ∀ role ∈ auth.roles, isReservedSubject role = false) ∧
    ∀ g ∈ auth.grants, IsPath g.path ∧ ∀ role, g.subject = .role role → role ∈ auth.roles

theorem gives_parseAuth (json : Json) : Gives IsAuth (parseAuth json) := by
  unfold parseAuth
  refine gives_bind fun pairs => gives_bind fun _ => ?_
  have hRoles : Gives (fun roles : List String => roles.Nodup ∧
      ∀ role ∈ roles, isReservedSubject role = false) (parseRoles json) := by
    unfold parseRoles
    split
    · exact ⟨List.nodup_nil, fun _ hRole => absurd hRole List.not_mem_nil⟩
    · exact gives_bind fun items => gives_rolesLoop items 0 List.nodup_nil
        fun _ hRole => absurd hRole List.not_mem_nil
  refine hRoles.bind fun roles hRoles => ?_
  split
  · exact ⟨hRoles, fun _ hGrant => absurd hGrant List.not_mem_nil⟩
  · refine gives_bind fun items => ?_
    exact (gives_each fun item _ => gives_parseGrant item.1 item.2 roles).bind
      fun grants hGrants => ⟨hRoles, hGrants⟩

theorem durationMillis_pos {spec : List Char} {millis : Nat} (h : durationMillis spec = some millis) :
    0 < millis ∧ millis ≤ u64Max := by
  unfold durationMillis at h
  obtain ⟨unit, -, h⟩ := Option.bind_eq_some_iff.mp h
  obtain ⟨factor, hFactor, h⟩ := Option.bind_eq_some_iff.mp h
  have hPos : 0 < factor := by
    unfold unitMillis at hFactor
    split at hFactor
    · cases hFactor; decide
    split at hFactor
    · cases hFactor; decide
    split at hFactor
    · cases hFactor; decide
    split at hFactor
    · cases hFactor; decide
    · cases hFactor
  dsimp only at h
  split at h
  · cases h
  split at h
  · cases h
  next hRange =>
    cases h
    simp only [not_or, not_lt] at hRange
    exact ⟨Nat.mul_pos (Nat.pos_of_ne_zero hRange.2.1) hPos, hRange.2.2⟩

def IsTrigger (t : AutoVersion) : Prop :=
  t.name ≠ "" ∧ ∀ millis, t.trigger = .every millis → 0 < millis ∧ millis ≤ u64Max

theorem gives_triggerOf (json : Json) (ctx : String) :
    Gives (fun trigger => ∀ millis, trigger = .every millis → 0 < millis ∧ millis ≤ u64Max)
      (triggerOf json ctx) := by
  unfold triggerOf
  split
  · exact gives_bind fun name => gives_map (gives_true _) fun event _ millis hEq => by cases hEq
  · refine gives_bind fun spec => ?_
    unfold parseDurationMillis
    refine gives_map (gives_okOr ..) fun millis hMillis other hEq => ?_
    cases hEq
    exact durationMillis_pos hMillis
  · trivial

theorem gives_parseTrigger (json : Json) (index : Nat) : Gives IsTrigger (parseTrigger json index) := by
  unfold parseTrigger
  refine gives_bind fun pairs => gives_bind fun _ => ?_
  refine (gives_triggerOf ..).bind fun trigger hTrigger => gives_bind fun name => ?_
  split
  · trivial
  next hName => exact gives_bind fun keep => ⟨hName, hTrigger⟩

theorem gives_parseAutoVersion (json : Json) :
    Gives (fun triggers => ∀ t ∈ triggers, IsTrigger t) (parseAutoVersion json) := by
  unfold parseAutoVersion
  refine gives_bind fun items => ?_
  exact gives_each fun item _ => gives_parseTrigger item.1 item.2

theorem gives_parseBlock {α : Type} {P : α → Prop} {json : Json} {key : String} {default : α}
    {parse : Json → Except Error α} (h : json.Distinct) (hDefault : P default)
    (hParse : ∀ block : Json, block.Distinct → Gives P (parse block)) :
    Gives P (parseBlock json key default parse) := by
  unfold parseBlock
  split
  · exact hDefault
  next block hGet => exact hParse block (h.get hGet)

theorem gives_validateReferences (s : Schema) :
    Gives (fun _ => (∃ children, s.typeDef s.root = some (.map children)) ∧
      ∀ entry ∈ s.types, ∀ ref ∈ refs entry.2, s.declares ref = true) (validateReferences s) := by
  unfold validateReferences
  split
  · trivial
  next children hRoot =>
    split
    · trivial
    next hNone =>
      refine ⟨⟨children, hRoot⟩, fun entry hEntry ref hRef => ?_⟩
      have hDeclared := List.find?_eq_none.mp hNone ref (List.mem_flatMap.mpr ⟨entry, hEntry, hRef⟩)
      simpa using hDeclared
  · trivial

theorem gives_parse (src : String) : Gives Closed (parse src) := by
  have hEmpty : ∀ {α : Type} {P : α → Prop}, Entries P [] := fun {_ _} =>
    ⟨List.nodup_nil, fun _ hEntry => absurd hEntry List.not_mem_nil⟩
  unfold parse
  split
  · trivial
  next json hJson =>
    have h : json.Distinct := (distinct_parse src).of_ok hJson
    unfold fromJson
    refine gives_bind fun pairs => gives_bind fun _ => gives_bind fun name => ?_
    refine gives_bind fun version => gives_bind fun root => ?_
    refine (gives_parseTypes h).bind fun types hTypes => ?_
    refine (gives_parseBlock h hEmpty fun _ => gives_parseMarks).bind fun marks hMarks => ?_
    refine (gives_parseBlock h hEmpty fun _ => gives_parseAwareness).bind fun awareness hAware => ?_
    refine (gives_parseBlock (P := IsAuth) h ?_ fun block _ => gives_parseAuth block).bind
      fun auth hAuth => ?_
    · exact ⟨⟨List.nodup_nil, fun _ hRole => absurd hRole List.not_mem_nil⟩,
        fun _ hGrant => absurd hGrant List.not_mem_nil⟩
    refine (gives_parseBlock h hEmpty fun _ => gives_parseZones).bind fun zones hZones => ?_
    refine (gives_parseBlock h (fun _ hMem => absurd hMem List.not_mem_nil)
      fun block _ => gives_parseAutoVersion block).bind fun triggers hTriggers => ?_
    refine (gives_validateReferences _).bind fun _ hRefs => ?_
    exact ⟨hRefs.1, hRefs.2, hTypes.1, hTypes.2, hMarks.1, hAware.1, hZones.1, hZones.2, hAuth.1,
      hAuth.2, hTriggers⟩

/-- Every schema the parser accepts is closed. -/
theorem closed_of_parse (src : String) : ∀ s, parse src = .ok s → Closed s :=
  fun _ hOk => (gives_parse src).of_ok hOk

/-- A map of one counter that is bounded from below. -/
def counterSource : String :=
  "\x7b\"schema\":\"s\",\"version\":1,\"root\":\"Doc\",\"types\":\x7b\"Doc\":\x7b\"kind\":\"map\"," ++
    "\"children\":\x7b\"n\":\"N\"\x7d\x7d,\"N\":\x7b\"kind\":\"counter\",\"min\":0\x7d\x7d\x7d"

def counterSchema : Schema :=
  ⟨"s", 1, "Doc", [("Doc", .map [("n", "N")]), ("N", .counter (some 0) none)], [], [], ⟨[], []⟩, [], []⟩

theorem parse_counterSource : parse counterSource = .ok counterSchema := by decide +kernel

theorem closed_of_parse_counterSource : parse counterSource = .ok counterSchema ∧ Closed counterSchema :=
  ⟨parse_counterSource, closed_of_parse counterSource counterSchema parse_counterSource⟩

end Schema

end CrdtSync
