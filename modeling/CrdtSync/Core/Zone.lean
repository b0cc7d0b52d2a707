import CrdtSync.Core.Schema

/-!
# The zone of a location

A zone is the subtree under the root path the schema declares for it. A location is in the zone
whose root is the longest that leads to it, and of two of one root in the one declared first.
-/

namespace CrdtSync

namespace Schema

def rootKeys (root : String) : List Bytes :=
  let body := match root.toList with
    | '/' :: rest => rest
    | cs => cs
  if body.isEmpty then [] else (segments body).map encodeUtf8

def zoneRootKeys (s : Schema) (name : String) : Option (List Bytes) :=
  (s.zones.find? fun zone => zone.1 = name).map fun zone => rootKeys zone.2

/-- The best zone so far, with the length of its root, after one more. -/
def closer (pathKeys : List Bytes) (best : Option (Nat × Nat)) (zone : (String × String) × Nat) :
    Option (Nat × Nat) :=
  let root := rootKeys zone.1.2
  if root.isPrefixOf pathKeys && best.all fun held => decide (held.2 < root.length) then
    some (zone.2, root.length)
  else best

def zoneIdOf (s : Schema) (pathKeys : List Bytes) : Option Nat :=
  (s.zones.zipIdx.foldl (closer pathKeys) none).map Prod.fst

def zoneOf (s : Schema) (pathKeys : List Bytes) : Option String :=
  (s.zoneIdOf pathKeys).bind fun id => s.zones[id]?.map Prod.fst

def sameZone (s : Schema) (aKeys bKeys : List Bytes) : Bool := s.zoneOf aKeys == s.zoneOf bKeys

def crossesZones (s : Schema) (aKeys bKeys : List Bytes) : Bool := !s.sameZone aKeys bKeys

/-- The zone at `i` has a root that leads to the location, and of those the longest, the first
of its length. -/
structure Innermost (s : Schema) (pathKeys : List Bytes) (i : Nat) (zone : String × String) :
    Prop where
  declared : s.zones[i]? = some zone
  leads : rootKeys zone.2 <+: pathKeys
  longest : ∀ j zone', s.zones[j]? = some zone' → rootKeys zone'.2 <+: pathKeys →
    (rootKeys zone'.2).length < (rootKeys zone.2).length ∨
      (rootKeys zone'.2).length = (rootKeys zone.2).length ∧ i ≤ j

/-- What the walk over the zones holds of those it has passed. -/
def Closest (zones : List (String × String)) (pathKeys : List Bytes) : Option (Nat × Nat) → Prop
  | none => ∀ zone ∈ zones, ¬rootKeys zone.2 <+: pathKeys
  | some (i, len) => ∃ zone, zones[i]? = some zone ∧ rootKeys zone.2 <+: pathKeys ∧
      len = (rootKeys zone.2).length ∧ ∀ j zone', zones[j]? = some zone' →
        rootKeys zone'.2 <+: pathKeys →
          (rootKeys zone'.2).length < len ∨ (rootKeys zone'.2).length = len ∧ i ≤ j

theorem Closest.closer {zones : List (String × String)} {pathKeys : List Bytes}
    {best : Option (Nat × Nat)} (h : Closest zones pathKeys best) (zone : String × String) :
    Closest (zones ++ [zone]) pathKeys (closer pathKeys best (zone, zones.length)) := by
  have hLater : ∀ j zone', (zones ++ [zone])[j]? = some zone' →
      zones[j]? = some zone' ∨ j = zones.length ∧ zone' = zone := by
    intro j zone' hj
    rw [List.getElem?_append] at hj
    split at hj
    · exact .inl hj
    next hPast =>
      obtain ⟨hLast, hSame⟩ := List.getElem?_eq_some_iff.mp hj
      simp only [List.length_cons, List.length_nil] at hLast
      refine .inr ⟨by omega, ?_⟩
      simpa using hSame.symm
  unfold Schema.closer
  dsimp only
  split
  next hBetter =>
    rw [Bool.and_eq_true, List.isPrefixOf_iff_prefix] at hBetter
    obtain ⟨hLeads, hLonger⟩ := hBetter
    refine ⟨zone, by simp, hLeads, rfl, fun j zone' hj hLeads' => ?_⟩
    obtain hOld | ⟨rfl, rfl⟩ := hLater j zone' hj
    · refine .inl ?_
      cases best with
      | none => exact absurd hLeads' (h zone' (List.mem_of_getElem? hOld))
      | some held =>
        have hLen : held.2 < (rootKeys zone.2).length := by simpa using hLonger
        obtain ⟨-, -, -, -, hAll⟩ := h
        obtain hShort | ⟨hSame, -⟩ := hAll j zone' hOld hLeads'
        · omega
        · omega
    · exact .inr ⟨rfl, le_refl _⟩
  next hWorse =>
    rw [Bool.and_eq_true, List.isPrefixOf_iff_prefix, not_and] at hWorse
    cases best with
    | none =>
      intro zone' hMem
      obtain hOld | hNew := List.mem_append.mp hMem
      · exact h zone' hOld
      · obtain rfl := List.mem_singleton.mp hNew
        exact fun hLeads => hWorse hLeads rfl
    | some held =>
      obtain ⟨best, hAt, hLeads, hLen, hAll⟩ := h
      have hBound : held.1 < zones.length := (List.getElem?_eq_some_iff.mp hAt).1
      refine ⟨best, by rw [List.getElem?_append_left hBound, hAt], hLeads, hLen,
        fun j zone' hj hLeads' => ?_⟩
      obtain hOld | ⟨rfl, rfl⟩ := hLater j zone' hj
      · exact hAll j zone' hOld hLeads'
      · have hShort : (rootKeys zone'.2).length ≤ held.2 := by
          have hNot := hWorse hLeads'
          simpa using hNot
        omega

theorem closest_zones (s : Schema) (pathKeys : List Bytes) :
    Closest s.zones pathKeys (s.zones.zipIdx.foldl (closer pathKeys) none) := by
  have hWalk : ∀ zones passed : List (String × String), ∀ best, Closest passed pathKeys best →
      Closest (passed ++ zones) pathKeys
        ((zones.zipIdx passed.length).foldl (closer pathKeys) best) := by
    intro zones
    induction zones with
    | nil => exact fun passed best h => by rwa [List.append_nil]
    | cons zone zones ih =>
      intro passed best h
      rw [List.zipIdx_cons, List.foldl_cons]
      have hNext := ih (passed ++ [zone]) _ (h.closer zone)
      rwa [List.append_assoc, List.length_append] at hNext
  exact hWalk s.zones [] none fun zone hMem => absurd hMem List.not_mem_nil

/-- A location is in a zone exactly when the zone's root is the longest that leads to it, the
first of its length. -/
theorem zoneIdOf_eq_some (s : Schema) (pathKeys : List Bytes) (i : Nat) :
    s.zoneIdOf pathKeys = some i ↔ ∃ zone, s.Innermost pathKeys i zone := by
  have hClosest := s.closest_zones pathKeys
  unfold zoneIdOf
  generalize s.zones.zipIdx.foldl (closer pathKeys) none = best at hClosest ⊢
  cases best with
  | none =>
    refine iff_of_false (by simp) ?_
    rintro ⟨zone, hDeclared, hLeads, -⟩
    exact hClosest zone (List.mem_of_getElem? hDeclared) hLeads
  | some held =>
    obtain ⟨zone, hAt, hLeads, hLen, hAll⟩ := hClosest
    rw [Option.map_some, Option.some.injEq]
    constructor
    · rintro rfl
      exact ⟨zone, hAt, hLeads, hLen ▸ hAll⟩
    · rintro ⟨zone', hAt', hLeads', hLongest⟩
      have hHere := hAll i zone' hAt' hLeads'
      have hThere := hLongest held.1 zone hAt hLeads
      omega

theorem zoneIdOf_eq_none (s : Schema) (pathKeys : List Bytes) :
    s.zoneIdOf pathKeys = none ↔ ∀ zone ∈ s.zones, ¬rootKeys zone.2 <+: pathKeys := by
  have hClosest := s.closest_zones pathKeys
  unfold zoneIdOf
  generalize s.zones.zipIdx.foldl (closer pathKeys) none = best at hClosest ⊢
  cases best with
  | none => exact iff_of_true rfl hClosest
  | some held =>
    obtain ⟨zone, hAt, hLeads, -⟩ := hClosest
    exact iff_of_false (by simp) fun hNone => hNone zone (List.mem_of_getElem? hAt) hLeads

/-- Zones are contiguous: between a location and one below it the zone changes only where a
declared root lies between the two. -/
theorem zoneIdOf_below (s : Schema) (pathKeys below : List Bytes) :
    s.zoneIdOf (pathKeys ++ below) = s.zoneIdOf pathKeys ∨
      ∃ zone ∈ s.zones, rootKeys zone.2 <+: pathKeys ++ below ∧
        pathKeys.length < (rootKeys zone.2).length := by
  by_cases hBetween : ∃ zone ∈ s.zones, rootKeys zone.2 <+: pathKeys ++ below ∧
      pathKeys.length < (rootKeys zone.2).length
  · exact .inr hBetween
  refine .inl ?_
  have hSame : ∀ zone ∈ s.zones, rootKeys zone.2 <+: pathKeys ++ below ↔
      rootKeys zone.2 <+: pathKeys := by
    intro zone hZone
    constructor
    · intro hLeads
      have hShort : (rootKeys zone.2).length ≤ pathKeys.length := by
        by_contra hLong
        exact hBetween ⟨zone, hZone, hLeads, by omega⟩
      exact List.prefix_of_prefix_length_le hLeads (List.prefix_append ..) hShort
    · exact fun hLeads => hLeads.trans (List.prefix_append ..)
  ext i
  rw [zoneIdOf_eq_some, zoneIdOf_eq_some]
  refine exists_congr fun zone => ⟨fun h => ?_, fun h => ?_⟩
  · have hMem := List.mem_of_getElem? h.declared
    exact ⟨h.declared, (hSame zone hMem).mp h.leads, fun j zone' hj hLeads =>
      h.longest j zone' hj ((hSame zone' (List.mem_of_getElem? hj)).mpr hLeads)⟩
  · have hMem := List.mem_of_getElem? h.declared
    exact ⟨h.declared, (hSame zone hMem).mpr h.leads, fun j zone' hj hLeads =>
      h.longest j zone' hj ((hSame zone' (List.mem_of_getElem? hj)).mp hLeads)⟩

/-- The zone of a location is the one of the longest root that leads to it, the first declared of
that length, and none where no root does; and on the way down from a location it changes only
past a declared root. -/
theorem zone_resolves (s : Schema) (pathKeys : List Bytes) :
    (∀ i, s.zoneIdOf pathKeys = some i ↔ ∃ zone, s.Innermost pathKeys i zone) ∧
      (s.zoneIdOf pathKeys = none ↔ ∀ zone ∈ s.zones, ¬rootKeys zone.2 <+: pathKeys) ∧
      ∀ below, s.zoneIdOf (pathKeys ++ below) = s.zoneIdOf pathKeys ∨
        ∃ zone ∈ s.zones, rootKeys zone.2 <+: pathKeys ++ below ∧
          pathKeys.length < (rootKeys zone.2).length :=
  ⟨s.zoneIdOf_eq_some pathKeys, s.zoneIdOf_eq_none pathKeys, s.zoneIdOf_below pathKeys⟩

end Schema

end CrdtSync
