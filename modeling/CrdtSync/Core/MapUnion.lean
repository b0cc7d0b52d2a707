import CrdtSync.Core.Restored
import CrdtSync.Core.FugueJoin
import CrdtSync.Core.MapJoin

/-!
# Merging two folds

What a map is folded to is read off the set of writes alone: at each key the write of the
highest stamp, and the highest create. Two folds merged are the fold of both their ops where the
composites the two sides share merge to what both sides' ops come to, and where what a
side no longer shows of a composite is no news to the side that does.
-/

namespace CrdtSync

open Lib
open Std (ExtTreeMap)

/-! ### One map -/

namespace Slot

variable {V : Type}

/-- Two slots resolved by stamp alone. -/
def ranked (d s : Slot V) : Slot V :=
  { (if d.stamp < s.stamp then s else d) with container := higher d.container s.container }

theorem ranked_of_lt {d s : Slot V} (h : d.stamp < s.stamp) :
    d.ranked s = ⟨s.stamp, s.value, higher d.container s.container⟩ := by
  rw [ranked, if_pos h]

theorem ranked_of_le {d s : Slot V} (h : s.stamp ≤ d.stamp) :
    d.ranked s = ⟨d.stamp, d.value, higher d.container s.container⟩ := by
  rw [ranked, if_neg h.not_gt]

theorem stamp_ranked (d s : Slot V) : (d.ranked s).stamp = max d.stamp s.stamp := by
  rcases le_or_gt s.stamp d.stamp with h | h
  · rw [ranked_of_le h, max_eq_left h]
  · rw [ranked_of_lt h, max_eq_right h.le]

end Slot

namespace MapWrite

variable {V : Type} [Composite V]

/-- What a write makes of a vacant key. -/
def slot : MapWrite V → Slot V
  | set _ value stamp => ⟨stamp, some value, createOfHandle value stamp⟩
  | delete _ stamp => ⟨stamp, none, none⟩

theorem stamp_slot (w : MapWrite V) : w.slot.stamp = w.stamp := by cases w <;> rfl

theorem apply_slots (m : NestedMap V) (w : MapWrite V) :
    ∃ f, (w.apply m).slots = m.slots.alter w.key f ∧
      ∀ held, f held = held.merge Slot.ranked (some w.slot) := by
  cases w with
  | set key value stamp =>
    refine ⟨_, rfl, fun held => ?_⟩
    cases held with
    | none => rfl
    | some prior =>
      change (if _ then _ else _) =
        some (prior.ranked ⟨stamp, some value, createOfHandle value stamp⟩)
      split
      next h => rw [Slot.ranked_of_le (not_lt.mp h)]
      next h => rw [Slot.ranked_of_lt (not_not.mp h)]
  | delete key stamp =>
    refine ⟨_, rfl, fun held => ?_⟩
    cases held with
    | none => rfl
    | some prior =>
      have hKept : higher prior.container none = prior.container := by
        cases prior.container <;> rfl
      change (if _ then _ else _) = some (prior.ranked ⟨stamp, none, none⟩)
      split
      next h => rw [Slot.ranked_of_le (not_lt.mp h), hKept]
      next h => rw [Slot.ranked_of_lt (not_not.mp h), hKept]

theorem slots_apply (m : NestedMap V) (w : MapWrite V) (key : Bytes) :
    (w.apply m).slots[key]? =
      if key = w.key then m.slots[key]?.merge Slot.ranked (some w.slot) else m.slots[key]? := by
  obtain ⟨f, hAlter, hf⟩ := w.apply_slots m
  rw [hAlter, getElem?_alter_ite]
  split
  next h => rw [hf, h]
  next => rfl

end MapWrite

section Tops

variable {V : Type} [Composite V]

/-- What a key holds once the writes `W` are folded, read off `W`. -/
def Tops (W : Set (MapWrite V)) (key : Bytes) : Option (Slot V) → Prop
  | none => ∀ w ∈ W, w.key ≠ key
  | some d =>
    (∃ w ∈ W, w.key = key ∧ w.slot.stamp = d.stamp ∧ w.slot.value = d.value) ∧
    (∃ w ∈ W, w.key = key ∧ w.slot.container = d.container) ∧
    ∀ w ∈ W, w.key = key →
      w.slot.stamp ≤ d.stamp ∧ createRank w.slot.container ≤ createRank d.container

/-- One stamp at one key is one write. -/
def OneWrite (W : Set (MapWrite V)) : Prop :=
  ∀ w ∈ W, ∀ w' ∈ W, w.key = w'.key → w.stamp = w'.stamp → w = w'

theorem Tops.single (w : MapWrite V) (key : Bytes) :
    Tops {w} key (if key = w.key then some w.slot else none) := by
  split
  next h =>
    refine ⟨⟨w, rfl, h.symm, rfl, rfl⟩, ⟨w, rfl, h.symm, rfl⟩, ?_⟩
    rintro _ rfl -
    exact ⟨le_rfl, le_rfl⟩
  next h =>
    rintro _ rfl hKey
    exact h hKey.symm

theorem Tops.beside {W W' : Set (MapWrite V)} {key : Bytes} {d : Slot V}
    (h : Tops W key (some d)) (hOther : ∀ w ∈ W', w.key ≠ key) : Tops (W' ∪ W) key (some d) := by
  obtain ⟨⟨w, hw, hTop⟩, ⟨c, hc, hCreate⟩, hAll⟩ := h
  refine ⟨⟨w, .inr hw, hTop⟩, ⟨c, .inr hc, hCreate⟩, ?_⟩
  rintro v (hv | hv) hKey
  · exact absurd hKey (hOther v hv)
  · exact hAll v hv hKey

theorem Tops.union {W W' : Set (MapWrite V)} {key : Bytes} {o o' : Option (Slot V)}
    (h : Tops W key o) (h' : Tops W' key o') : Tops (W ∪ W') key (o.merge Slot.ranked o') := by
  match o, o' with
  | none, none =>
    rintro w (hw | hw)
    · exact h w hw
    · exact h' w hw
  | none, some s => exact h'.beside h
  | some d, none => exact Set.union_comm W W' ▸ h.beside h'
  | some d, some s =>
    obtain ⟨⟨w, hw, hKey, hStamp, hValue⟩, ⟨c, hc, hcKey, hcCreate⟩, hTop⟩ := h
    obtain ⟨⟨w', hw', hKey', hStamp', hValue'⟩, ⟨c', hc', hcKey', hcCreate'⟩, hTop'⟩ := h'
    have hContainer : (d.ranked s).container = higher d.container s.container := rfl
    refine ⟨?_, ?_, ?_⟩
    · rcases le_or_gt s.stamp d.stamp with hLe | hLt
      · rw [Slot.ranked_of_le hLe]
        exact ⟨w, .inl hw, hKey, hStamp, hValue⟩
      · rw [Slot.ranked_of_lt hLt]
        exact ⟨w', .inr hw', hKey', hStamp', hValue'⟩
    · rw [hContainer, higher_eq]
      split
      · exact ⟨c', .inr hc', hcKey', hcCreate'⟩
      · exact ⟨c, .inl hc, hcKey, hcCreate⟩
    · rw [Slot.stamp_ranked, hContainer, createRank_higher]
      rintro v (hv | hv) hvKey
      · exact ⟨le_max_of_le_left (hTop v hv hvKey).1, le_max_of_le_left (hTop v hv hvKey).2⟩
      · exact ⟨le_max_of_le_right (hTop' v hv hvKey).1, le_max_of_le_right (hTop' v hv hvKey).2⟩

theorem Tops.unique {W : Set (MapWrite V)} (hOne : OneWrite W) {key : Bytes} {o o' : Option (Slot V)}
    (h : Tops W key o) (h' : Tops W key o') : o = o' := by
  match o, o' with
  | none, none => rfl
  | none, some s =>
    obtain ⟨⟨w, hw, hKey, -⟩, -⟩ := h'
    exact absurd hKey (h w hw)
  | some d, none =>
    obtain ⟨⟨w, hw, hKey, -⟩, -⟩ := h
    exact absurd hKey (h' w hw)
  | some d, some s =>
    obtain ⟨⟨w, hw, hKey, hStamp, hValue⟩, ⟨c, hc, hcKey, hcCreate⟩, hTop⟩ := h
    obtain ⟨⟨w', hw', hKey', hStamp', hValue'⟩, ⟨c', hc', hcKey', hcCreate'⟩, hTop'⟩ := h'
    have hSame : d.stamp = s.stamp := le_antisymm
      (hStamp ▸ (hTop' w hw hKey).1) (hStamp' ▸ (hTop w' hw' hKey').1)
    have hWrite : w = w' := hOne w hw w' hw' (hKey.trans hKey'.symm)
      (by rw [← w.stamp_slot, ← w'.stamp_slot, hStamp, hStamp', hSame])
    subst hWrite
    have hCreate : createRank d.container = createRank s.container := le_antisymm
      (hcCreate ▸ (hTop' c hc hcKey).2) (hcCreate' ▸ (hTop c' hc' hcKey').2)
    exact congrArg some
      (Slot.ext_fields hSame (hValue.symm.trans hValue') (createRank_injective hCreate))

theorem tops_folded (id : ElementId) (writes : List (MapWrite V)) (key : Bytes) :
    Tops {w | w ∈ writes} key (NestedMap.folded id writes).slots[key]? := by
  induction writes using List.reverseRecOn with
  | nil =>
    have hNone : (NestedMap.folded id ([] : List (MapWrite V))).slots[key]? = none :=
      ExtTreeMap.getElem?_empty
    rw [hNone]
    exact fun w hw => absurd hw List.not_mem_nil
  | append_singleton writes w ih =>
    have hSet : {v | v ∈ writes ++ [w]} = {v | v ∈ writes} ∪ {w} := by
      ext v
      exact List.mem_append.trans (or_congr Iff.rfl List.mem_singleton)
    have hStep : (NestedMap.folded id (writes ++ [w])).slots[key]? =
        (NestedMap.folded id writes).slots[key]?.merge Slot.ranked
          (if key = w.key then some w.slot else none) := by
      rw [NestedMap.folded, List.foldl_append]
      refine (w.slots_apply _ key).trans ?_
      split
      · rfl
      · exact (Option.merge_none_right ..).symm
    rw [hSet, hStep]
    exact ih.union (.single w key)

theorem folded_union {id : ElementId} {writes writes' all : List (MapWrite V)}
    (hAll : ∀ w, w ∈ all ↔ w ∈ writes ∨ w ∈ writes') (hOne : OneWrite {w | w ∈ all}) (key : Bytes) :
    (NestedMap.folded id all).slots[key]? =
      (NestedMap.folded id writes).slots[key]?.merge Slot.ranked
        (NestedMap.folded id writes').slots[key]? := by
  have hSet : {w | w ∈ all} = {w | w ∈ writes} ∪ {w | w ∈ writes'} := Set.ext hAll
  refine Tops.unique hOne (tops_folded id all key) ?_
  rw [hSet]
  exact (tops_folded id writes key).union (tops_folded id writes' key)

end Tops

/-! ### Maps that name what they nest -/

/-- What a set installs: a scalar, or a composite by its id. -/
inductive MapRef
  | scalar (value : Scalar)
  | register (id : ElementId)
  | counter (id : ElementId)
  | map (id : ElementId)
  | sequence (kind : SequenceKind) (id : ElementId)
  | xmlElement (id : ElementId) (tag : Bytes)
deriving DecidableEq

namespace MapRef

def handle : MapRef → Option (ElementKind × ElementId)
  | scalar _ => none
  | register id => some (.register, id)
  | counter id => some (.counter, id)
  | map id => some (.map, id)
  | sequence kind id => some (kind.kind, id)
  | xmlElement id _ => some (.xmlElement, id)

/-- A name is not merged with another. -/
instance : Composite MapRef where
  handle := handle
  merge held _ := held
  handle_merge _ _ := rfl

end MapRef

/-- A set or a delete, and the map it is addressed to. -/
structure MapOp where
  container : ElementId
  write : MapWrite MapRef
deriving DecidableEq

/-- A replica: the map ops it has folded, and what it holds of the composites other than maps. -/
structure MapReplica (S : Type) where
  ops : List MapOp
  registers : ElementId → Scalar × Stamp
  counters : ElementId → ExtTreeMap ClientId Tally compare
  sequences : ElementId → S

def MapWrite.map {V W : Type} (f : V → W) : MapWrite V → MapWrite W
  | set key value stamp => .set key (f value) stamp
  | delete key stamp => .delete key stamp

namespace Slot

variable {V W : Type}

def map (f : V → W) (d : Slot V) : Slot W := ⟨d.stamp, d.value.map f, d.container⟩

theorem map_ranked (f : V → W) (d s : Slot V) : (d.ranked s).map f = (d.map f).ranked (s.map f) := by
  rcases le_or_gt s.stamp d.stamp with h | h
  · rw [ranked_of_le h, ranked_of_le (show (s.map f).stamp ≤ (d.map f).stamp from h)]
    rfl
  · rw [ranked_of_lt h, ranked_of_lt (show (d.map f).stamp < (s.map f).stamp from h)]
    rfl

end Slot

/-- Naming what is installed and resolving the names folds to what installing it does. -/
theorem NestedMap.slots_folded_map {V W : Type} [Composite V] [Composite W] {f : V → W}
    (hf : ∀ v, Composite.handle (f v) = Composite.handle v) (id : ElementId)
    (writes : List (MapWrite V)) (key : Bytes) :
    (folded id (writes.map (MapWrite.map f))).slots[key]? =
      (folded id writes).slots[key]?.map (Slot.map f) := by
  have hSlot (w : MapWrite V) : (w.map f).slot = w.slot.map f := by
    cases w with
    | set k value stamp =>
      change Slot.mk stamp (some (f value)) (createOfHandle (f value) stamp) = _
      rw [createOfHandle, hf]
      rfl
    | delete => rfl
  have hKey (w : MapWrite V) : (w.map f).key = w.key := by cases w <;> rfl
  induction writes using List.reverseRecOn with
  | nil =>
    have hNone : (∅ : ExtTreeMap Bytes (Slot W) compare)[key]? = none := ExtTreeMap.getElem?_empty
    have hNone' : (∅ : ExtTreeMap Bytes (Slot V) compare)[key]? = none := ExtTreeMap.getElem?_empty
    exact hNone.trans (congrArg (Option.map (Slot.map f)) hNone'.symm)
  | append_singleton writes w ih =>
    simp only [folded, List.map_append, List.map_singleton, List.foldl_append, List.foldl_cons,
      List.foldl_nil] at ih ⊢
    rw [MapWrite.slots_apply, MapWrite.slots_apply, hKey, hSlot, ih]
    split
    · cases (writes.foldl MapWrite.apply (.new id)).slots[key]? with
      | none => rfl
      | some d => exact congrArg some (Slot.map_ranked f d w.slot).symm
    · rfl

namespace MapReplica

variable {S V : Type}

def writes (R : MapReplica S) (id : ElementId) : List (MapWrite MapRef) :=
  (R.ops.filter fun op => op.container = id).map MapOp.write

def register (R : MapReplica S) (id : ElementId) : Register :=
  ⟨id, (R.registers id).1, (R.registers id).2⟩

/-- The composite itself, where `maps` gives the maps. -/
def resolve (R : MapReplica S) (maps : ElementId → NestedMap V) : MapRef → NestedElement S V
  | .scalar value => .scalar value
  | .register id => .register (R.register id)
  | .counter id => .counter id (R.counters id)
  | .map id => .map (maps id)
  | .sequence kind id => .sequence kind id (R.sequences id)
  | .xmlElement id tag =>
    .xmlElement id tag (maps (XmlElement.attrsId id)) (R.sequences (XmlElement.childrenId id))

/-- What the ops fold a map to, with what it nests, less than `n` deep. -/
def contents [SequenceState S] (R : MapReplica S) : (n : Nat) → ElementId → NestedMap (ElementAt S n)
  | 0 => fun id => .new id
  | n + 1 => fun id =>
    .folded (V := NestedElement S (ElementAt S n)) id
      ((R.writes id).map (MapWrite.map (R.resolve (R.contents n))))

variable [SequenceState S]

omit [SequenceState S] in
theorem mem_writes {R : MapReplica S} {id : ElementId} {w : MapWrite MapRef} :
    w ∈ R.writes id ↔ ∃ op ∈ R.ops, op.container = id ∧ op.write = w := by
  simp only [writes, List.mem_map, List.mem_filter, decide_eq_true_eq, and_assoc]

theorem id_contents (R : MapReplica S) (n : Nat) (id : ElementId) : (R.contents n id).id = id := by
  have hFold {V : Type} [Composite V] (writes : List (MapWrite V)) (m : NestedMap V) :
      (writes.foldl MapWrite.apply m).id = m.id := by
    induction writes generalizing m with
    | nil => rfl
    | cons w writes ih => exact (ih _).trans (by cases w <;> rfl)
  cases n with
  | zero => rfl
  | succ n => exact hFold ..

omit [SequenceState S] in
theorem handle_resolve (R : MapReplica S) {maps : ElementId → NestedMap V}
    (hId : ∀ id, (maps id).id = id) (v : MapRef) : (R.resolve maps v).handle = v.handle := by
  cases v with
  | map id => exact congrArg (fun i => some (ElementKind.map, i)) (hId id)
  | _ => rfl

def named (R : MapReplica S) (id : ElementId) : NestedMap MapRef := .folded id (R.writes id)

theorem slots_contents (R : MapReplica S) (n : Nat) (id : ElementId) (key : Bytes) :
    (R.contents (n + 1) id).slots[key]? =
      (R.named id).slots[key]?.map (Slot.map (R.resolve (R.contents n))) :=
  NestedMap.slots_folded_map (W := NestedElement S (ElementAt S n))
    (R.handle_resolve (R.id_contents n)) id (R.writes id) key

omit [SequenceState S] in
/-- Two names of one composite are one name, but for an element's tag. -/
theorem eq_or_retagged (R : MapReplica S) {v v' : MapRef} (h : v.handle = v'.handle)
    (hSome : v.handle ≠ none) :
    v = v' ∨ ∃ id tag tag', v = .xmlElement id tag ∧ v' = .xmlElement id tag' := by
  have hResolve (v : MapRef) : (R.resolve (V := ElementAt Empty 0) .new v).handle = v.handle :=
    R.handle_resolve (fun _ => rfl) v
  have hPaired := NestedElement.paired_of_handle
    ((hResolve v).trans (h.trans (hResolve v').symm)) ((hResolve v).trans_ne hSome)
  cases v <;> cases v' <;> cases hPaired
  case register.register.register hId => exact .inl (congrArg MapRef.register hId)
  case map.map.map hId => exact .inl (congrArg MapRef.map hId)
  case xmlElement.xmlElement.xmlElement => exact .inr ⟨_, _, _, rfl, rfl⟩
  all_goals exact .inl rfl

/-! ### The union of two replicas -/

def Settled (R U : MapReplica S) (n : Nat) (d : Slot MapRef) : Prop :=
  ∀ v ∈ d.value, R.resolve (R.contents n) v = U.resolve (U.contents n) v

section Union

variable (X Y U : MapReplica S)

/-- What the two hold of a composite comes to what `U` does, where `maps` says so of the maps. -/
def Joined (maps : ElementId → Prop) : MapRef → Prop
  | .scalar _ => True
  | .register id => (X.register id).merge (Y.register id) = U.register id
  | .counter id => mergeTallies (X.counters id) (Y.counters id) = U.counters id
  | .map id => maps id
  | .sequence _ id => SequenceState.merge (X.sequences id) (Y.sequences id) = U.sequences id
  | .xmlElement id _ => maps (XmlElement.attrsId id) ∧
    SequenceState.merge (X.sequences (XmlElement.childrenId id))
      (Y.sequences (XmlElement.childrenId id)) = U.sequences (XmlElement.childrenId id)

/-- When the two slots of a key come to the slot of `U`. Where both claim one composite it is
what the two hold of it that has to come to it, and where one side's claim stands alone or wins,
the other side's ops on that composite are no news. -/
def SlotUnites (n : Nat) (maps : ElementId → Prop) :
    Option (Slot MapRef) → Option (Slot MapRef) → Prop
  | none, none => True
  | some d, none => X.Settled U n d
  | none, some s => Y.Settled U n s
  | some d, some s =>
    if d.Kin s then
      (d.stamp < s.stamp → d.value = s.value) ∧ ∀ v ∈ d.value, Joined X Y U maps v
    else if d.stamp < s.stamp then Y.Settled U n s else X.Settled U n d

def Unites : (n : Nat) → ElementId → Prop
  | 0 => fun _ => True
  | n + 1 => fun id => ∀ key : Bytes,
    SlotUnites X Y U n (Unites n) (X.named id).slots[key]? (Y.named id).slots[key]?

variable {X Y U}

theorem merge_resolve_iff [Composite V] {f g h : ElementId → NestedMap V} {maps : ElementId → Prop}
    (hMaps : ∀ id, (f id).merge (g id) = h id ↔ maps id) {v : MapRef} (hSome : v.handle ≠ none) :
    Composite.merge (X.resolve f v) (Y.resolve g v) = U.resolve h v ↔ Joined X Y U maps v := by
  cases v with
  | scalar => exact absurd rfl hSome
  | register id =>
    simp only [resolve, NestedElement.merge_register, NestedElement.register.injEq, Joined]
  | counter id =>
    simp only [resolve, NestedElement.merge_counter, NestedElement.counter.injEq, true_and, Joined]
  | map id => simp only [resolve, NestedElement.merge_map, NestedElement.map.injEq, hMaps, Joined]
  | sequence kind id =>
    simp only [resolve, NestedElement.merge_sequence, NestedElement.sequence.injEq, true_and, Joined]
  | xmlElement id tag =>
    simp only [resolve, NestedElement.merge_xmlElement, NestedElement.xmlElement.injEq, true_and,
      hMaps, Joined]

/-- The second claim only adds what its replica holds: an element keeps the first one's tag. -/
theorem merge_resolve_of_handle [Composite V] (f g : ElementId → NestedMap V) {v v' : MapRef}
    (h : v.handle = v'.handle) (hSome : v.handle ≠ none) :
    Composite.merge (X.resolve f v) (Y.resolve g v') =
      Composite.merge (X.resolve f v) (Y.resolve g v) := by
  obtain rfl | ⟨id, tag, tag', rfl, rfl⟩ := X.eq_or_retagged h hSome
  · rfl
  · rfl

theorem merge_resolve_later_iff [Composite V] {f g h : ElementId → NestedMap V}
    {maps : ElementId → Prop} (hMaps : ∀ id, (f id).merge (g id) = h id ↔ maps id) {v v' : MapRef}
    (hSame : v.handle = v'.handle) (hSome : v.handle ≠ none) :
    Composite.merge (X.resolve f v) (Y.resolve g v') = U.resolve h v' ↔
      v = v' ∧ Joined X Y U maps v := by
  rw [merge_resolve_of_handle f g hSame hSome]
  obtain rfl | ⟨id, tag, tag', rfl, rfl⟩ := X.eq_or_retagged hSame hSome
  · rw [merge_resolve_iff hMaps hSome, eq_self, true_and]
  · simp only [resolve, NestedElement.merge_xmlElement, NestedElement.xmlElement.injEq, true_and,
      hMaps, Joined, MapRef.xmlElement.injEq]

omit [SequenceState S] in
theorem handle_map_resolve (R : MapReplica S) {maps : ElementId → NestedMap V}
    (hId : ∀ id, (maps id).id = id) [SequenceState S] [Composite V] (d : Slot MapRef) :
    (d.map (R.resolve maps)).handle = d.handle := by
  cases hv : d.value with
  | none => simp only [Slot.handle, Slot.map, hv, Option.map_none, Option.bind_none]
  | some v =>
    simp only [Slot.handle, Slot.map, hv, Option.map_some, Option.bind_some]
    exact R.handle_resolve hId v

theorem settled_iff (R : MapReplica S) (n : Nat) (d : Slot MapRef)
    (container : Option ContainerCreate) :
    Slot.mk d.stamp (d.value.map (R.resolve (R.contents n))) container =
        Slot.map (U.resolve (U.contents n)) ⟨d.stamp, d.value, container⟩ ↔ R.Settled U n d := by
  simp only [Slot.map, Slot.mk.injEq, true_and, and_true, Settled]
  cases d.value with
  | none => simp
  | some v => simp

/-- One key of the union. -/
theorem slot_unites_iff (n : Nat) {maps : ElementId → Prop}
    (hMaps : ∀ id, (X.contents n id).merge (Y.contents n id) = U.contents n id ↔ maps id)
    (o o' : Option (Slot MapRef)) :
    (o.map (Slot.map (X.resolve (X.contents n)))).merge Slot.merge
        (o'.map (Slot.map (Y.resolve (Y.contents n)))) =
      (o.merge Slot.ranked o').map (Slot.map (U.resolve (U.contents n))) ↔
      SlotUnites X Y U n maps o o' := by
  match o, o' with
  | none, none => exact iff_of_true rfl trivial
  | some d, none => exact (Option.some_inj).trans (settled_iff X n d d.container)
  | none, some s => exact (Option.some_inj).trans (settled_iff Y n s s.container)
  | some d, some s =>
    refine (Option.some_inj).trans ?_
    have hKin : (d.map (X.resolve (X.contents n))).Kin (s.map (Y.resolve (Y.contents n))) ↔
        d.Kin s := by
      rw [Slot.Kin, Slot.Kin, X.handle_map_resolve (X.id_contents n),
        Y.handle_map_resolve (Y.id_contents n)]
    by_cases h : d.Kin s
    · obtain ⟨v, v', hv, hv', hSame, hSome⟩ := h.values
      rw [Slot.merge_of_kin (hKin.mpr h), SlotUnites, if_pos h]
      rcases le_or_gt s.stamp d.stamp with hLe | hLt
      · have hStamp : max (d.map (X.resolve (X.contents n))).stamp
            (s.map (Y.resolve (Y.contents n))).stamp = d.stamp := max_eq_left hLe
        rw [Slot.ranked_of_le hLe, hStamp]
        simp only [Slot.map, Slot.mk.injEq, hv, hv', Option.map_some, Option.map₂_some_some,
          Option.some_inj, true_and, and_true, Option.mem_def, forall_eq', hLe.not_gt, false_imp_iff]
        rw [merge_resolve_of_handle _ _ hSame hSome, merge_resolve_iff hMaps hSome]
      · have hStamp : max (d.map (X.resolve (X.contents n))).stamp
            (s.map (Y.resolve (Y.contents n))).stamp = s.stamp := max_eq_right hLt.le
        rw [Slot.ranked_of_lt hLt, hStamp]
        simp only [Slot.map, Slot.mk.injEq, hv, hv', Option.map_some, Option.map₂_some_some,
          Option.some_inj, true_and, and_true, Option.mem_def, forall_eq', hLt, true_imp_iff]
        exact merge_resolve_later_iff hMaps hSame hSome
    · rw [SlotUnites, if_neg h]
      rcases le_or_gt s.stamp d.stamp with hLe | hLt
      · rw [Slot.ranked_of_le hLe, Slot.merge_of_le (hKin.not.mpr h) hLe, if_neg hLe.not_gt]
        exact settled_iff X n d _
      · rw [Slot.ranked_of_lt hLt, Slot.merge_of_lt (hKin.not.mpr h) hLt, if_pos hLt]
        exact settled_iff Y n s _

/-- One stamp at one key of one map is one op. -/
def OneOp (ops : List MapOp) : Prop :=
  ∀ op ∈ ops, ∀ op' ∈ ops, op.container = op'.container → op.write.key = op'.write.key →
    op.write.stamp = op'.write.stamp → op = op'

theorem merge_contents_iff (hUnion : ∀ op, op ∈ U.ops ↔ op ∈ X.ops ∨ op ∈ Y.ops)
    (hOne : OneOp U.ops) :
    (n : Nat) → (id : ElementId) →
      ((X.contents n id).merge (Y.contents n id) = U.contents n id ↔ Unites X Y U n id)
  | 0, id => iff_of_true (NestedMap.merge_self (ElementAt.merge_self 0) (.new id)) trivial
  | n + 1, id => by
    have hAll (w : MapWrite MapRef) : w ∈ U.writes id ↔ w ∈ X.writes id ∨ w ∈ Y.writes id := by
      simp only [mem_writes, hUnion]
      exact ⟨fun ⟨op, hOp, hw⟩ => hOp.imp (⟨op, ·, hw⟩) (⟨op, ·, hw⟩),
        fun h => h.elim (fun ⟨op, hOp, hw⟩ => ⟨op, .inl hOp, hw⟩) fun ⟨op, hOp, hw⟩ =>
          ⟨op, .inr hOp, hw⟩⟩
    have hWrite : OneWrite {w | w ∈ U.writes id} := by
      intro w hw w' hw' hKey hStamp
      obtain ⟨op, hOp, hIn, rfl⟩ := mem_writes.mp hw
      obtain ⟨op', hOp', hIn', rfl⟩ := mem_writes.mp hw'
      exact congrArg MapOp.write (hOne op hOp op' hOp' (hIn.trans hIn'.symm) hKey hStamp)
    rw [NestedMap.eq_iff, Merges.ext_iff_keys]
    refine (and_iff_right ?_).trans (forall_congr' fun key => ?_)
    · exact (X.id_contents (n + 1) id).trans (U.id_contents (n + 1) id).symm
    · have hNamed : (U.named id).slots[key]? =
          (X.named id).slots[key]?.merge Slot.ranked (Y.named id).slots[key]? :=
        folded_union hAll hWrite key
      rw [NestedMap.slots_merge, slots_contents, slots_contents, slots_contents, hNamed]
      exact slot_unites_iff n (merge_contents_iff hUnion hOne n) _ _

end Union

end MapReplica

/-! ### The sequences a map nests -/

instance : SequenceState (Stamp → Seated) where
  merge held other := fun x => (other x).merge (held x)
  merge_self held := by
    funext x
    cases held x with
    | vacant => rfl
    | live r => exact congrArg Seated.live (min_self r)
    | dead taken => rfl

/-! ### The laws -/

/-- When a merge of maps is idempotent, commutative and associative, and when merging two folds is
folding the union, at every depth of nesting. -/
theorem map_merge_laws {S : Type} [SequenceState S] (n : Nat) :
    (∀ m : NestedMap (ElementAt S n), m.merge m = m) ∧
    (∀ m m' : NestedMap (ElementAt S n),
      m.merge m' = m'.merge m ↔ m.Commutes (ElementAt.Commutes n) m') ∧
    (∀ m m' m'' : NestedMap (ElementAt S n),
      (m.merge m').merge m'' = m.merge (m'.merge m'') ↔
        m.Associates (ElementAt.Associates n) (ElementAt.Absorbs n) (ElementAt.Yields n) m' m'') ∧
    ∀ X Y U : MapReplica S, (∀ op, op ∈ U.ops ↔ op ∈ X.ops ∨ op ∈ Y.ops) →
      MapReplica.OneOp U.ops → ∀ id,
        ((X.contents n id).merge (Y.contents n id) = U.contents n id ↔
          MapReplica.Unites X Y U n id) :=
  ⟨fun m => m.merge_self (ElementAt.merge_self n),
    fun m m' => m.merge_comm_iff (ElementAt.merge_comm_iff n) m',
    fun m m' m'' => m.merge_assoc_iff (ElementAt.merge_assoc_iff n) (ElementAt.merge_eq_left_iff n)
      (ElementAt.merge_eq_right_iff n) m' m'',
    fun _ _ _ hUnion hOne => MapReplica.merge_contents_iff hUnion hOne n⟩

section Examples

/-- A replica that holds no composites other than maps. -/
def mapsOnly (ops : List MapOp) : MapReplica (Stamp → Seated) where
  ops := ops
  registers _ := (.null, ⟨0, ⟨0⟩, 0⟩)
  counters _ := ∅
  sequences _ _ := .vacant

def mapRoot : ElementId := .fromBytes 0

def mapChild : ElementId := .derive mapRoot [107] .map

def claimedEarly : MapReplica (Stamp → Seated) :=
  mapsOnly [⟨mapRoot, .set [107] (.map mapChild) ⟨1, ⟨1⟩, 0⟩⟩,
    ⟨mapChild, .set [120] (.scalar .null) ⟨2, ⟨1⟩, 0⟩⟩]

def deletedBetween : MapReplica (Stamp → Seated) := mapsOnly [⟨mapRoot, .delete [107] ⟨3, ⟨2⟩, 0⟩⟩]

def claimedLate : MapReplica (Stamp → Seated) :=
  mapsOnly [⟨mapRoot, .set [107] (.map mapChild) ⟨4, ⟨3⟩, 0⟩⟩,
    ⟨mapChild, .set [121] (.scalar .null) ⟨5, ⟨3⟩, 0⟩⟩]

theorem named_set {S : Type} {R : MapReplica S} {id : ElementId} {k : Bytes} {v : MapRef}
    {stamp : Stamp} (h : R.writes id = [.set k v stamp]) (key : Bytes) :
    (R.named id).slots[key]? =
      if key = k then some ⟨stamp, some v, createOfHandle v stamp⟩ else none := by
  rw [MapReplica.named, h]
  refine ((MapWrite.set k v stamp).slots_apply (.new id) key).trans ?_
  have hNone : (NestedMap.new id : NestedMap MapRef).slots[key]? = none := ExtTreeMap.getElem?_empty
  rw [hNone, Option.merge_none_left]
  rfl

/-- Where both claims are live, the two writes of the map meet. -/
theorem map_merge_laws_claimed :
    (claimedEarly.contents 2 mapRoot).merge (claimedLate.contents 2 mapRoot) =
      (mapsOnly (claimedEarly.ops ++ claimedLate.ops)).contents 2 mapRoot := by
  have hOne : MapReplica.OneOp (claimedEarly.ops ++ claimedLate.ops) := by
    unfold MapReplica.OneOp
    decide +kernel
  have hEarly : claimedEarly.writes mapRoot = [.set [107] (.map mapChild) ⟨1, ⟨1⟩, 0⟩] := by
    decide +kernel
  have hLate : claimedLate.writes mapRoot = [.set [107] (.map mapChild) ⟨4, ⟨3⟩, 0⟩] := by
    decide +kernel
  have hX : claimedEarly.writes mapChild = [.set [120] (.scalar .null) ⟨2, ⟨1⟩, 0⟩] := by
    decide +kernel
  have hY : claimedLate.writes mapChild = [.set [121] (.scalar .null) ⟨5, ⟨3⟩, 0⟩] := by
    decide +kernel
  refine ((map_merge_laws 2).2.2.2 _ _ _ (fun _ => List.mem_append) hOne mapRoot).mpr fun key => ?_
  rw [named_set hEarly, named_set hLate]
  by_cases hKey : key = [107]
  · rw [if_pos hKey, if_pos hKey, MapReplica.SlotUnites, if_pos (by decide +kernel)]
    refine ⟨fun _ => rfl, fun v hv => ?_⟩
    obtain rfl : MapRef.map mapChild = v := Option.some_inj.mp hv
    intro key'
    rw [named_set hX, named_set hY]
    by_cases hFirst : key' = [120]
    · subst hFirst
      intro v hv
      obtain rfl : MapRef.scalar .null = v := Option.some_inj.mp hv
      rfl
    · rw [if_neg hFirst]
      split
      · intro v hv
        obtain rfl : MapRef.scalar .null = v := Option.some_inj.mp hv
        rfl
      · trivial
  · rw [if_neg hKey, if_neg hKey]
    trivial

def showsEarly (m : NestedMap (ElementAt (Stamp → Seated) 2)) : Bool :=
  match m.slots[([107] : Bytes)]? with
  | some ⟨_, some (.map inner), _⟩ => inner.slots[([120] : Bytes)]?.isSome
  | _ => false

/-- A tombstone merged between two claims of one map takes the first claim's content with it, which
stays where the two claims meet first. -/
theorem tombstone_between_claims :
    ((claimedEarly.contents 2 mapRoot).merge (deletedBetween.contents 2 mapRoot)).merge
        (claimedLate.contents 2 mapRoot) ≠
      (claimedEarly.contents 2 mapRoot).merge
        ((deletedBetween.contents 2 mapRoot).merge (claimedLate.contents 2 mapRoot)) := by
  intro h
  have hShows := congrArg showsEarly h
  revert hShows
  decide +kernel

end Examples

end CrdtSync
