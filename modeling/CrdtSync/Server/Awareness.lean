import Mathlib.Data.List.Dedup
import CrdtSync.Server.Hub

/-!
# Awareness

Ephemeral presence. The hub holds an entry a client, and peers key what they are sent by actor, so
connections of one actor shadow each other: an entry goes from a peer only when no other client of
its actor holds that key. The nested maps of the hub are one map here, by room, client and key.
-/

namespace CrdtSync

namespace Server

open Lib
open Std (ExtTreeMap)

/-- A client's entry for a key: the value last fanned out, when it was last set and last sent. -/
structure Presence where
  actor : Bytes
  value : Bytes
  lastSeen : Nat
  lastBroadcast : Nat
deriving DecidableEq

structure SetOutcome where
  stored : Bool
  broadcast : Bool
deriving DecidableEq

inductive AwarenessRemoval
  | actor (room : RoomId) (actor : Bytes)
  | key (room : RoomId) (actor key : Bytes)
deriving DecidableEq

def MAX_AWARENESS_KEYS_PER_CLIENT : Nat := 64

structure Awareness where
  entries : ExtTreeMap (RoomId ×ₗ ClientId ×ₗ Bytes) Presence compare

namespace Awareness

def slot (room : RoomId) (client : ClientId) (key : Bytes) : RoomId ×ₗ ClientId ×ₗ Bytes :=
  toLex (room, toLex (client, key))

def new : Awareness := ⟨∅⟩

def held (h : Awareness) (room : RoomId) (client : ClientId) (key : Bytes) : Option Presence :=
  h.entries[slot room client key]?

/-- Everything held in a room, by client and key. -/
def inRoom (h : Awareness) (room : RoomId) : List (ClientId × Bytes × Presence) :=
  h.entries.toList.filterMap fun e =>
    if (ofLex e.1).1 = room then some ((ofLex (ofLex e.1).2).1, (ofLex (ofLex e.1).2).2, e.2)
    else none

/-- The window of a throttled kind has elapsed. A clock that stepped back counts as elapsed. -/
def elapsed (p : Presence) (now : Nat) : Option Nat → Bool
  | none => true
  | some window => decide (now < p.lastBroadcast ∨ window ≤ now - p.lastBroadcast)

/-- Record an entry. An update inside the window only refreshes when the entry was seen, and a new
key past the cap is dropped. -/
def setAwareness (h : Awareness) (room : RoomId) (client : ClientId) (actor key value : Bytes)
    (now : Nat) (throttle : Option Nat) : SetOutcome × Awareness :=
  match h.held room client key with
  | some p =>
    let broadcast := elapsed p now throttle
    let p := { p with lastSeen := now }
    let p := if broadcast then { p with actor, value, lastBroadcast := now } else p
    (⟨true, broadcast⟩, ⟨h.entries.insert (slot room client key) p⟩)
  | none =>
    if MAX_AWARENESS_KEYS_PER_CLIENT ≤ ((h.inRoom room).filter fun e => e.1 = client).length then
      (⟨false, false⟩, h)
    else (⟨true, true⟩, ⟨h.entries.insert (slot room client key) ⟨actor, value, now, now⟩⟩)

def awarenessEntries (h : Awareness) (room : RoomId) : List (Bytes × Bytes × Bytes) :=
  (h.inRoom room).map fun e => (e.2.2.actor, e.2.1, e.2.2.value)

/-- Drop every entry silent past its TTL. A removal is told where no client of the actor still
holds the key. -/
def expireSilent (h : Awareness) (now : Nat) (ttl : RoomId → Bytes → Option Nat) :
    List AwarenessRemoval × Awareness :=
  let silent (e : RoomId ×ₗ ClientId ×ₗ Bytes) (p : Presence) : Bool :=
    match ttl (ofLex e).1 (ofLex (ofLex e).2).2 with
    | some limit => decide (limit < now - p.lastSeen)
    | none => false
  let expired := (h.entries.toList.filter fun e => silent e.1 e.2).map fun e =>
    ((ofLex e.1).1, e.2.actor, (ofLex (ofLex e.1).2).2)
  let kept : Awareness := ⟨h.entries.filter fun e p => !silent e p⟩
  let surviving := kept.entries.toList.map fun e =>
    ((ofLex e.1).1, e.2.actor, (ofLex (ofLex e.1).2).2)
  (((expired.filter fun t => t ∉ surviving).dedup.map fun t => .key t.1 t.2.1 t.2.2), kept)

/-- The removals of one room when `client` goes: per key while another client of the actor is
there, and the whole actor where none is. -/
def roomRemovals (room : RoomId) (removed others : List (ClientId × Bytes × Presence))
    (first : ClientId × Bytes × Presence) : List AwarenessRemoval :=
  let actor := first.2.2.actor
  if others.any fun e => e.2.2.actor = actor then
    (removed.filter fun e => !others.any fun o => o.2.1 = e.2.1 ∧ o.2.2.actor = actor).map fun e =>
      .key room actor e.2.1
  else [.actor room actor]

/-- Which of a client's entries in a room comes first: the order of a hash map is not given. -/
structure Iteration where
  first : List (ClientId × Bytes × Presence) → Option (ClientId × Bytes × Presence)
  mem : ∀ l e, first l = some e → e ∈ l
  isSome : ∀ l, l ≠ [] → ∃ e, first l = some e

/-- Drop everything a client holds. The actor told of in a room is that of the entry met first. -/
def clearClient (h : Awareness) (client : ClientId) (order : Iteration) :
    List AwarenessRemoval × Awareness :=
  let rooms := (h.entries.toList.map fun e => (ofLex e.1).1).dedup
  (rooms.flatMap fun room =>
      let removed := (h.inRoom room).filter fun e => e.1 = client
      match order.first removed with
      | none => []
      | some e => roomRemovals room removed ((h.inRoom room).filter fun e => e.1 ≠ client) e,
    ⟨h.entries.filter fun e _ => (ofLex (ofLex e).2).1 ≠ client⟩)

/-! ### Peers -/

/-- What a peer shows of a room, by actor and key. -/
abbrev View := ExtTreeMap (Bytes ×ₗ Bytes) Bytes compare

/-- A removal as a peer subscribed to `room` applies it. -/
def applyRemoval (room : RoomId) (view : View) : AwarenessRemoval → View
  | .actor r actor => if r = room then view.filter fun x _ => (ofLex x).1 ≠ actor else view
  | .key r actor key => if r = room then view.erase (toLex (actor, key)) else view

def applyRemovals (room : RoomId) (view : View) (removals : List AwarenessRemoval) : View :=
  removals.foldl (applyRemoval room) view

/-- What a joiner shows once the replay is in. -/
def replayed (entries : List (Bytes × Bytes × Bytes)) : View :=
  entries.foldl (fun view e => view.insert (toLex (e.1, e.2.1)) e.2.2) ∅

inductive Event
  | set (room : RoomId) (client : ClientId) (actor key value : Bytes) (now : Nat)
    (throttle : Option Nat)
  | expire (now : Nat) (ttl : RoomId → Bytes → Option Nat)
  | clear (client : ClientId) (order : Iteration)

/-- An event at the hub, and what a peer subscribed to `room` makes of what it is sent. -/
def step (room : RoomId) (s : Awareness × View) : Event → Awareness × View
  | .set r client actor key value now throttle =>
    let (outcome, h) := s.1.setAwareness r client actor key value now throttle
    (h, if outcome.stored ∧ outcome.broadcast ∧ r = room then s.2.insert (toLex (actor, key)) value
      else s.2)
  | .expire now ttl =>
    let (removals, h) := s.1.expireSilent now ttl
    (h, applyRemovals room s.2 removals)
  | .clear client order =>
    let (removals, h) := s.1.clearClient client order
    (h, applyRemovals room s.2 removals)

def run (room : RoomId) (s : Awareness × View) (events : List Event) : Awareness × View :=
  events.foldl (step room) s

/-- A peer and a joiner agree, whatever order the joiner is replayed in, and both show what some
client of the actor has in the hub. -/
structure Agrees (room : RoomId) (h : Awareness) (view : View) : Prop where
  joiner : ∀ entries : List (Bytes × Bytes × Bytes), entries.Perm (h.awarenessEntries room) →
    ∀ x : Bytes ×ₗ Bytes, (replayed entries)[x]? = view[x]?
  held : ∀ actor key : Bytes, (view[toLex (actor, key)]?).isSome = true ↔
    ∃ client p, h.held room client key = some p ∧ p.actor = actor

/-! ### Views -/

theorem mem_inRoom {h : Awareness} {room : RoomId} {client : ClientId} {key : Bytes} {p : Presence} :
    (client, key, p) ∈ h.inRoom room ↔ h.held room client key = some p := by
  rw [inRoom, held, ← mem_toList_iff, List.mem_filterMap]
  constructor
  · rintro ⟨⟨k, p'⟩, hIn, hEq⟩
    split at hEq
    next hRoom =>
      obtain ⟨rfl, hRest⟩ := Prod.mk.inj (Option.some_inj.mp hEq)
      obtain ⟨rfl, rfl⟩ := Prod.mk.inj hRest
      subst hRoom
      exact hIn
    next => cases hEq
  · intro hIn
    exact ⟨_, hIn, if_pos rfl⟩

theorem mem_awarenessEntries {h : Awareness} {room : RoomId} {actor key value : Bytes} :
    (actor, key, value) ∈ h.awarenessEntries room ↔
      ∃ client p, h.held room client key = some p ∧ p.actor = actor ∧ p.value = value := by
  rw [awarenessEntries, List.mem_map]
  constructor
  · rintro ⟨⟨client, k, p⟩, hIn, hEq⟩
    obtain ⟨hActor, hRest⟩ := Prod.mk.inj hEq
    obtain ⟨rfl, hValue⟩ := Prod.mk.inj hRest
    exact ⟨client, p, mem_inRoom.mp hIn, hActor, hValue⟩
  · rintro ⟨client, p, hHeld, rfl, rfl⟩
    exact ⟨(client, key, p), mem_inRoom.mpr hHeld, rfl⟩

/-- What the hub holds is what the peer shows, and nothing else. -/
structure Mirrors (room : RoomId) (h : Awareness) (view : View) : Prop where
  shown : ∀ client key p, h.held room client key = some p →
    view[toLex (p.actor, key)]? = some p.value
  held : ∀ actor key value, view[toLex (actor, key)]? = some value →
    ∃ client p, h.held room client key = some p ∧ p.actor = actor

theorem replayed_append (entries : List (Bytes × Bytes × Bytes)) (e : Bytes × Bytes × Bytes)
    (x : Bytes ×ₗ Bytes) : (replayed (entries ++ [e]))[x]? =
      if x = toLex (e.1, e.2.1) then some e.2.2 else (replayed entries)[x]? := by
  rw [replayed, List.foldl_append]
  exact getElem?_insert_ite ..

/-- A replay that says nothing but what a view shows. -/
theorem replayed_of_shown {view : View} {entries : List (Bytes × Bytes × Bytes)}
    (hShown : ∀ actor key value, (actor, key, value) ∈ entries →
      view[toLex (actor, key)]? = some value) (x : Bytes ×ₗ Bytes) :
    (replayed entries)[x]? =
      if ∃ e ∈ entries, x = toLex (e.1, e.2.1) then view[x]? else none := by
  induction entries using List.reverseRecOn with
  | nil =>
    have hEmpty : (replayed [])[x]? = none := ExtTreeMap.getElem?_empty
    simp [hEmpty]
  | append_singleton entries e ih =>
    rw [replayed_append, ih fun a k v hIn => hShown a k v (List.mem_append_left _ hIn)]
    have hIn : e ∈ entries ++ [e] := List.mem_append_right _ List.mem_cons_self
    split
    next hLast =>
      subst hLast
      rw [if_pos ⟨e, hIn, rfl⟩, hShown e.1 e.2.1 e.2.2 hIn]
    next hLast =>
      refine if_congr ⟨?_, ?_⟩ rfl rfl
      · rintro ⟨f, hF, hEq⟩
        exact ⟨f, List.mem_append_left _ hF, hEq⟩
      · rintro ⟨f, hF, hEq⟩
        rcases List.mem_append.mp hF with hF | hF
        · exact ⟨f, hF, hEq⟩
        · rw [List.mem_singleton.mp hF] at hEq
          exact absurd hEq hLast

/-- A peer agrees with a joiner in every order exactly where all claims of an actor's key hold
what the peer shows. -/
theorem agrees_iff {room : RoomId} {h : Awareness} {view : View} :
    Agrees room h view ↔ Mirrors room h view := by
  constructor
  · intro hAgrees
    refine ⟨fun client key p hHeld => ?_, fun actor key value hView => ?_⟩
    · -- the claim is replayed last in one order of the entries
      have hIn : (p.actor, key, p.value) ∈ h.awarenessEntries room :=
        mem_awarenessEntries.mpr ⟨client, p, hHeld, rfl, rfl⟩
      have hOrder := (List.perm_cons_erase hIn).symm
      have hLast := hAgrees.joiner ((h.awarenessEntries room).erase (p.actor, key, p.value) ++
        [(p.actor, key, p.value)]) ((List.perm_append_singleton _ _).trans hOrder)
        (toLex (p.actor, key))
      rw [replayed_append, if_pos rfl] at hLast
      exact hLast.symm
    · exact (hAgrees.held actor key).mp (by rw [hView]; rfl)
  · intro hMirrors
    refine ⟨fun entries hPerm x => ?_, fun actor key => ⟨fun hSome => ?_, ?_⟩⟩
    · have hMem (actor key value : Bytes) : (actor, key, value) ∈ entries ↔
          ∃ client p, h.held room client key = some p ∧ p.actor = actor ∧ p.value = value :=
        hPerm.mem_iff.trans mem_awarenessEntries
      rw [replayed_of_shown]
      · split
        next => rfl
        next hNone =>
          cases hView : view[x]? with
          | none => rfl
          | some value =>
            obtain ⟨client, p, hHeld, hActor⟩ := hMirrors.held (ofLex x).1 (ofLex x).2 value hView
            have hIn := (hMem _ _ _).mpr ⟨client, p, hHeld, hActor, rfl⟩
            exact absurd ⟨_, hIn, rfl⟩ hNone
      · intro actor key value hIn
        obtain ⟨client, p, hHeld, rfl, rfl⟩ := (hMem _ _ _).mp hIn
        exact hMirrors.shown client key p hHeld
    · obtain ⟨value, hView⟩ := Option.isSome_iff_exists.mp hSome
      exact hMirrors.held actor key value hView
    · rintro ⟨client, p, hHeld, rfl⟩
      rw [hMirrors.shown client key p hHeld]
      rfl

/-! ### One event -/

/-- Whether a set is stored and sent: past the window of an entry that is there, and under the
cap for one that is not. -/
def sends (h : Awareness) (room : RoomId) (client : ClientId) (key : Bytes) (now : Nat)
    (throttle : Option Nat) : Bool :=
  match h.held room client key with
  | some p => elapsed p now throttle
  | none => decide (((h.inRoom room).filter fun e => e.1 = client).length <
      MAX_AWARENESS_KEYS_PER_CLIENT)

/-- Some client other than `client` holds the key for the actor. -/
def HeldBeside (h : Awareness) (room : RoomId) (client : ClientId) (actor key : Bytes) : Prop :=
  ∃ other p, other ≠ client ∧ h.held room other key = some p ∧ p.actor = actor

/-- What an event must meet for a peer and a joiner to agree still. A set that is sent gives the
value every other client of the actor holds, and leaves no actor of its client behind; a client
that goes leaves no actor but the one told of behind. -/
def Faithful (room : RoomId) (h : Awareness) : Event → Prop
  | .set r client actor key value now throttle =>
    r = room → h.sends room client key now throttle = true →
      (∀ other p, other ≠ client → h.held room other key = some p → p.actor = actor →
        p.value = value) ∧
      ∀ p, h.held room client key = some p → p.actor ≠ actor → HeldBeside h room client p.actor key
  | .expire _ _ => True
  | .clear client order =>
    ∀ e, order.first ((h.inRoom room).filter fun e => e.1 = client) = some e →
      ∀ key p, h.held room client key = some p → p.actor ≠ e.2.2.actor →
        HeldBeside h room client p.actor key

theorem slot_eq_iff {room r : RoomId} {client c : ClientId} {key k : Bytes} :
    slot r c k = slot room client key ↔ r = room ∧ c = client ∧ k = key := by
  simp [slot]

/-- Setting an entry, as a peer and a joiner see it. -/
theorem setAwareness_spec (h : Awareness) (room : RoomId) (client : ClientId)
    (actor key value : Bytes) (now : Nat) (throttle : Option Nat) :
    let out := h.setAwareness room client actor key value now throttle
    (out.1.stored = true ∧ out.1.broadcast = true ↔ h.sends room client key now throttle = true) ∧
    ∀ r c k, ((out.2.held r c k).map fun p => (p.actor, p.value)) =
      if (r = room ∧ c = client ∧ k = key) ∧ h.sends room client key now throttle = true then
        some (actor, value)
      else (h.held r c k).map fun p => (p.actor, p.value) := by
  have hSlot (r : RoomId) (c : ClientId) (k : Bytes) (p : Presence) :
      Awareness.held ⟨h.entries.insert (slot room client key) p⟩ r c k =
        if r = room ∧ c = client ∧ k = key then some p else h.held r c k := by
    rw [held, getElem?_insert_ite, held]
    simp only [slot_eq_iff]
  cases hHeld : h.held room client key with
  | some p =>
    have hSends : h.sends room client key now throttle = elapsed p now throttle := by
      rw [sends, hHeld]
    rw [hSends]
    simp only [setAwareness, hHeld, hSlot, true_and]
    intro r c k
    by_cases hAt : r = room ∧ c = client ∧ k = key
    · obtain ⟨rfl, rfl, rfl⟩ := hAt
      cases elapsed p now throttle <;> simp [hHeld]
    · simp [hAt]
  | none =>
    by_cases hFull :
        MAX_AWARENESS_KEYS_PER_CLIENT ≤ ((h.inRoom room).filter fun e => e.1 = client).length
    · have hSends : h.sends room client key now throttle = false := by
        rw [sends, hHeld]
        exact decide_eq_false (Nat.not_lt.mpr hFull)
      simp [setAwareness, hHeld, hFull, hSends]
    · have hSends : h.sends room client key now throttle = true := by
        rw [sends, hHeld]
        exact decide_eq_true (Nat.not_le.mp hFull)
      simp only [setAwareness, hHeld, hFull, hSends, hSlot, if_false, and_true, true_and]
      intro r c k
      split <;> rfl

/-- Only the actor and the value an entry holds matter to a peer and a joiner. -/
theorem mirrors_iff {room : RoomId} {h : Awareness} {view : View} :
    Mirrors room h view ↔
      (∀ client key actor value,
        ((h.held room client key).map fun p => (p.actor, p.value)) = some (actor, value) →
        view[toLex (actor, key)]? = some value) ∧
      ∀ actor key value, view[toLex (actor, key)]? = some value →
        ∃ client v, ((h.held room client key).map fun p => (p.actor, p.value)) =
          some (actor, v) := by
  constructor
  · rintro ⟨hShown, hHeld⟩
    refine ⟨fun client key actor value hEntry => ?_, fun actor key value hView => ?_⟩
    · obtain ⟨p, hP, hEq⟩ := Option.map_eq_some_iff.mp hEntry
      obtain ⟨rfl, rfl⟩ := Prod.mk.inj hEq
      exact hShown client key p hP
    · obtain ⟨client, p, hP, rfl⟩ := hHeld actor key value hView
      exact ⟨client, p.value, by rw [hP]; rfl⟩
  · rintro ⟨hShown, hHeld⟩
    refine ⟨fun client key p hP => hShown client key _ _ (by rw [hP]; rfl),
      fun actor key value hView => ?_⟩
    obtain ⟨client, v, hEntry⟩ := hHeld actor key value hView
    obtain ⟨p, hP, hEq⟩ := Option.map_eq_some_iff.mp hEntry
    exact ⟨client, p, hP, (Prod.mk.inj hEq).1⟩

theorem heldBeside_iff {h : Awareness} {room : RoomId} {client : ClientId} {actor key : Bytes} :
    HeldBeside h room client actor key ↔ ∃ other v, other ≠ client ∧
      ((h.held room other key).map fun p => (p.actor, p.value)) = some (actor, v) := by
  constructor
  · rintro ⟨other, p, hOther, hP, rfl⟩
    exact ⟨other, p.value, hOther, by rw [hP]; rfl⟩
  · rintro ⟨other, v, hOther, hEntry⟩
    obtain ⟨p, hP, hEq⟩ := Option.map_eq_some_iff.mp hEntry
    exact ⟨other, p, hOther, hP, (Prod.mk.inj hEq).1⟩

theorem mirrors_set {room : RoomId} {h : Awareness} {view : View} (hMirrors : Mirrors room h view)
    (r : RoomId) (client : ClientId) (actor key value : Bytes) (now : Nat) (throttle : Option Nat) :
    let s := step room (h, view) (.set r client actor key value now throttle)
    Mirrors room s.1 s.2 ↔ Faithful room h (.set r client actor key value now throttle) := by
  obtain ⟨hSent, hAfter⟩ := setAwareness_spec h r client actor key value now throttle
  obtain ⟨hShown, hHeld⟩ := mirrors_iff.mp hMirrors
  simp only [step, Faithful, ← and_assoc, hSent]
  by_cases hSends : r = room ∧ h.sends r client key now throttle = true
  · obtain ⟨rfl, hSends⟩ := hSends
    simp only [hSends, true_and, and_self, if_true, forall_const, mirrors_iff, hAfter, and_true,
      getElem?_insert_ite, heldBeside_iff]
    constructor
    · rintro ⟨hShown', hHeld'⟩
      refine ⟨fun other p hOther hP hActor => ?_, fun p hP hActor => ?_⟩
      · have hEntry := hShown' other key actor p.value (by
          rw [if_neg fun hSelf => hOther hSelf.1, hP, ← hActor]; rfl)
        rw [if_pos rfl] at hEntry
        exact (Option.some_inj.mp hEntry).symm
      · -- the peer goes on showing the actor the client had
        have hStill := hShown client key p.actor p.value (by rw [hP]; rfl)
        obtain ⟨other, v, hEntry⟩ := hHeld' p.actor key p.value (by
          rw [if_neg fun hEq => hActor (Prod.mk.inj (toLex.injective hEq)).1, hStill])
        split at hEntry
        next hSelf =>
          exact absurd (Prod.mk.inj (Option.some_inj.mp hEntry)).1.symm hActor
        next hApart =>
          exact ⟨other, v, fun hEq => hApart ⟨hEq, rfl⟩, hEntry⟩
    · rintro ⟨hSame, hBeside⟩
      refine ⟨fun c k a v hEntry => ?_, fun a k v hView => ?_⟩
      · split at hEntry
        next hAt =>
          obtain ⟨rfl, rfl⟩ := hAt
          obtain ⟨rfl, rfl⟩ := Prod.mk.inj (Option.some_inj.mp hEntry)
          exact if_pos rfl
        next hApart =>
          split
          next hEq =>
            obtain ⟨rfl, rfl⟩ := Prod.mk.inj (toLex.injective hEq)
            obtain ⟨p, hP, hPair⟩ := Option.map_eq_some_iff.mp hEntry
            obtain ⟨hActor, rfl⟩ := Prod.mk.inj hPair
            rw [hSame c p (fun hEq => hApart ⟨hEq, rfl⟩) hP hActor]
          next => exact hShown c k a v hEntry
      · split at hView
        next hEq =>
          obtain ⟨rfl, rfl⟩ := Prod.mk.inj (toLex.injective hEq)
          exact ⟨client, value, if_pos ⟨rfl, rfl⟩⟩
        next hEq =>
          obtain ⟨c, w, hEntry⟩ := hHeld a k v hView
          by_cases hAt : c = client ∧ k = key
          · obtain ⟨rfl, rfl⟩ := hAt
            obtain ⟨p, hP, hPair⟩ := Option.map_eq_some_iff.mp hEntry
            obtain ⟨rfl, rfl⟩ := Prod.mk.inj hPair
            obtain ⟨other, u, hOther, hBesides⟩ := hBeside p hP fun hActor => hEq (by rw [hActor])
            exact ⟨other, u, by rw [if_neg fun hSelf => hOther hSelf.1]; exact hBesides⟩
          · exact ⟨c, w, by rw [if_neg hAt]; exact hEntry⟩
  · -- nothing is sent into the room, and what the entries of the room hold stays
    have hSame (c : ClientId) (k : Bytes) :
        (((h.setAwareness r client actor key value now throttle).2.held room c k).map fun p =>
          (p.actor, p.value)) = (h.held room c k).map fun p => (p.actor, p.value) := by
      rw [hAfter, if_neg]
      rintro ⟨⟨rfl, -⟩, hSend⟩
      exact hSends ⟨rfl, hSend⟩
    rw [if_neg fun hBoth => hSends hBoth.symm]
    simp only [mirrors_iff, hSame]
    refine ⟨?_, fun _ => ⟨hShown, hHeld⟩⟩
    rintro _ rfl hSend
    exact absurd ⟨rfl, hSend⟩ hSends

/-! ### Removals -/

/-- Whether a removal tells a peer subscribed to `room` to drop what it shows at `x`. -/
def tells (room : RoomId) (x : Bytes ×ₗ Bytes) : AwarenessRemoval → Bool
  | .actor r actor => decide (r = room ∧ (ofLex x).1 = actor)
  | .key r actor key => decide (r = room ∧ x = toLex (actor, key))

theorem getElem?_applyRemovals (room : RoomId) (view : View) (removals : List AwarenessRemoval)
    (x : Bytes ×ₗ Bytes) : (applyRemovals room view removals)[x]? =
      if removals.any (tells room x) then none else view[x]? := by
  induction removals generalizing view with
  | nil => rfl
  | cons removal removals ih =>
    rw [applyRemovals, List.foldl_cons, ← applyRemovals, ih, List.any_cons]
    have hOne : (applyRemoval room view removal)[x]? =
        if tells room x removal then none else view[x]? := by
      cases removal with
      | actor r actor =>
        simp only [applyRemoval, tells, decide_eq_true_eq]
        by_cases hRoom : r = room
        · rw [if_pos hRoom, ExtTreeMap.getElem?_filter']
          by_cases hActor : (ofLex x).1 = actor
          · simp [hRoom, hActor]
          · cases view[x]? <;> simp [hActor]
        · simp [hRoom]
      | key r actor key =>
        simp only [applyRemoval, tells, decide_eq_true_eq]
        by_cases hRoom : r = room
        · simp [hRoom, getElem?_erase_ite]
        · simp [hRoom]
    rw [hOne]
    cases tells room x removal <;> simp

/-- Removals keep a peer and a joiner agreeing exactly where they tell of what no client holds any
more: of every key an actor lost, and of no key it still holds. -/
theorem mirrors_removals {room : RoomId} {h h' : Awareness} {view : View}
    (hMirrors : Mirrors room h view)
    (hKept : ∀ client key p, h'.held room client key = some p → h.held room client key = some p)
    {removals : List AwarenessRemoval}
    (hStill : ∀ client key p, h'.held room client key = some p →
      removals.any (tells room (toLex (p.actor, key))) = false) :
    Mirrors room h' (applyRemovals room view removals) ↔
      ∀ client key p, h.held room client key = some p →
        removals.any (tells room (toLex (p.actor, key))) = true ∨
        ∃ other q, h'.held room other key = some q ∧ q.actor = p.actor := by
  constructor
  · rintro ⟨-, hHeld⟩ client key p hP
    rw [or_iff_not_imp_left]
    intro hTold
    exact hHeld p.actor key p.value (by
      rw [getElem?_applyRemovals, if_neg hTold]
      exact hMirrors.shown client key p hP)
  · intro hTold
    refine ⟨fun client key p hP => ?_, fun actor key value hView => ?_⟩
    · rw [getElem?_applyRemovals, hStill client key p hP]
      exact hMirrors.shown client key p (hKept client key p hP)
    · rw [getElem?_applyRemovals] at hView
      split at hView
      next => cases hView
      next hNone =>
        obtain ⟨client, p, hP, rfl⟩ := hMirrors.held actor key value hView
        exact (hTold client key p hP).resolve_left hNone

theorem held_filter (h : Awareness) (keep : RoomId ×ₗ ClientId ×ₗ Bytes → Presence → Bool)
    {room : RoomId} {client : ClientId} {key : Bytes} {p : Presence} :
    Awareness.held ⟨h.entries.filter keep⟩ room client key = some p ↔
      h.held room client key = some p ∧ keep (slot room client key) p = true := by
  rw [held, ExtTreeMap.getElem?_filter', Option.filter_eq_some_iff, held]

/-- A sweep tells of a key where one of the actor's clients fell silent and none holds it still. -/
theorem mirrors_expire {room : RoomId} {h : Awareness} {view : View}
    (hMirrors : Mirrors room h view) (now : Nat) (ttl : RoomId → Bytes → Option Nat) :
    let s := step room (h, view) (.expire now ttl)
    Mirrors room s.1 s.2 := by
  intro s
  have hKept (client : ClientId) (key : Bytes) (p : Presence)
      (hP : s.1.held room client key = some p) : h.held room client key = some p :=
    ((held_filter ..).mp hP).1
  have hSurvives (actor key : Bytes) :
      (room, actor, key) ∈ (s.1.entries.toList.map fun e =>
        ((ofLex e.1).1, e.2.actor, (ofLex (ofLex e.1).2).2)) ↔
      ∃ client p, s.1.held room client key = some p ∧ p.actor = actor := by
    rw [List.mem_map]
    constructor
    · rintro ⟨⟨k, p⟩, hIn, hEq⟩
      obtain ⟨rfl, hRest⟩ := Prod.mk.inj hEq
      obtain ⟨rfl, rfl⟩ := Prod.mk.inj hRest
      exact ⟨(ofLex (ofLex k).2).1, p, mem_toList_iff.mp hIn, rfl⟩
    · rintro ⟨client, p, hP, rfl⟩
      exact ⟨(slot room client key, p), mem_toList_iff.mpr hP, rfl⟩
  refine (mirrors_removals hMirrors hKept fun client key p hP => ?_).mpr fun client key p hP => ?_
  · rw [List.any_eq_false]
    intro removal hIn hTells
    obtain ⟨⟨r, actor, k⟩, hTriple, rfl⟩ := List.mem_map.mp hIn
    obtain ⟨rfl, hAt⟩ := of_decide_eq_true hTells
    obtain ⟨rfl, rfl⟩ := Prod.mk.inj (toLex.injective hAt)
    have hGone := (List.mem_filter.mp (List.mem_dedup.mp hTriple)).2
    exact of_decide_eq_true hGone ((hSurvives p.actor key).mpr ⟨client, p, hP, rfl⟩)
  · by_cases hHolds : ∃ other q, s.1.held room other key = some q ∧ q.actor = p.actor
    · exact .inr hHolds
    · -- no client of the actor is left, so this very entry fell silent
      refine .inl (List.any_eq_true.mpr ⟨.key room p.actor key, ?_, decide_eq_true ⟨rfl, rfl⟩⟩)
      refine List.mem_map.mpr ⟨(room, p.actor, key), List.mem_dedup.mpr (List.mem_filter.mpr
        ⟨List.mem_map.mpr ⟨(slot room client key, p), List.mem_filter.mpr
          ⟨mem_toList_iff.mpr hP, ?_⟩, rfl⟩, decide_eq_true fun hIn => hHolds
            ((hSurvives p.actor key).mp hIn)⟩), rfl⟩
      by_contra hLoud
      exact hHolds ⟨client, p, (held_filter ..).mpr ⟨hP, by simpa using hLoud⟩, rfl⟩

theorem any_roomRemovals {room : RoomId} {removed others : List (ClientId × Bytes × Presence)}
    {first : ClientId × Bytes × Presence} {actor key : Bytes} :
    (roomRemovals room removed others first).any (tells room (toLex (actor, key))) = true ↔
      actor = first.2.2.actor ∧ (∀ o ∈ others, o.2.1 = key → o.2.2.actor ≠ actor) ∧
        ((∃ o ∈ others, o.2.2.actor = actor) → ∃ e ∈ removed, e.2.1 = key) := by
  rw [roomRemovals]
  split
  next hSibling =>
    rw [List.any_eq_true]
    constructor
    · rintro ⟨removal, hIn, hTells⟩
      obtain ⟨e, hE, rfl⟩ := List.mem_map.mp hIn
      obtain ⟨hRemoved, hFree⟩ := List.mem_filter.mp hE
      obtain ⟨rfl, rfl⟩ := Prod.mk.inj (toLex.injective (of_decide_eq_true hTells).2)
      refine ⟨rfl, fun o hO hKey hActor => ?_, fun _ => ⟨e, hRemoved, rfl⟩⟩
      rw [Bool.not_eq_true', List.any_eq_false] at hFree
      exact hFree o hO (decide_eq_true ⟨hKey, hActor⟩)
    · rintro ⟨rfl, hFree, hLost⟩
      obtain ⟨o, hO, hActor⟩ := List.any_eq_true.mp hSibling
      obtain ⟨e, hE, rfl⟩ := hLost ⟨o, hO, of_decide_eq_true hActor⟩
      refine ⟨_, List.mem_map.mpr ⟨e, List.mem_filter.mpr ⟨hE, ?_⟩, rfl⟩, decide_eq_true ⟨rfl, rfl⟩⟩
      rw [Bool.not_eq_true', List.any_eq_false]
      intro q hQ hBoth
      exact hFree q hQ (of_decide_eq_true hBoth).1 (of_decide_eq_true hBoth).2
  next hSibling =>
    rw [List.any_cons, List.any_nil, Bool.or_false, tells, decide_eq_true_eq]
    have hNone (o : ClientId × Bytes × Presence) (hO : o ∈ others) :
        o.2.2.actor ≠ first.2.2.actor := fun hActor =>
      hSibling (List.any_eq_true.mpr ⟨o, hO, decide_eq_true hActor⟩)
    constructor
    · rintro ⟨-, hActor⟩
      have hEq : actor = first.2.2.actor := hActor
      subst hEq
      exact ⟨rfl, fun o hO _ => hNone o hO, fun ⟨o, hO, hActor⟩ => absurd hActor (hNone o hO)⟩
    · rintro ⟨hActor, -, -⟩
      exact ⟨rfl, hActor⟩

theorem any_clearClient {h : Awareness} {client : ClientId} {order : Iteration} {room : RoomId}
    {x : Bytes ×ₗ Bytes} :
    (h.clearClient client order).1.any (tells room x) = true ↔
      ∃ e, order.first ((h.inRoom room).filter fun e => e.1 = client) = some e ∧
        (roomRemovals room ((h.inRoom room).filter fun e => e.1 = client)
          ((h.inRoom room).filter fun e => e.1 ≠ client) e).any (tells room x) = true := by
  rw [clearClient, List.any_eq_true]
  constructor
  · rintro ⟨removal, hIn, hTells⟩
    obtain ⟨r, -, hR⟩ := List.mem_flatMap.mp hIn
    dsimp only at hR
    split at hR
    next => cases hR
    next e hFirst =>
      -- a removal names the room it is for
      have hRoom : r = room := by
        rw [roomRemovals] at hR
        split at hR
        next =>
          obtain ⟨q, -, rfl⟩ := List.mem_map.mp hR
          exact (of_decide_eq_true hTells).1
        next =>
          obtain rfl := List.mem_singleton.mp hR
          exact (of_decide_eq_true hTells).1
      subst hRoom
      exact ⟨e, hFirst, List.any_eq_true.mpr ⟨removal, hR, hTells⟩⟩
  · rintro ⟨e, hFirst, hAny⟩
    obtain ⟨removal, hR, hTells⟩ := List.any_eq_true.mp hAny
    refine ⟨removal, List.mem_flatMap.mpr ⟨room, ?_, ?_⟩, hTells⟩
    · obtain ⟨hIn, -⟩ := List.mem_filter.mp (order.mem _ e hFirst)
      have hHeld : h.held room e.1 e.2.1 = some e.2.2 := mem_inRoom.mp hIn
      exact List.mem_dedup.mpr (List.mem_map.mpr ⟨_, mem_toList_iff.mpr hHeld, rfl⟩)
    · simp only [hFirst]
      exact hR

/-- A client that goes takes from the peer what no other client of the actor told of holds. -/
theorem mirrors_clear {room : RoomId} {h : Awareness} {view : View} (hMirrors : Mirrors room h view)
    (client : ClientId) (order : Iteration) :
    let s := step room (h, view) (.clear client order)
    Mirrors room s.1 s.2 ↔ Faithful room h (.clear client order) := by
  intro s
  have hAfter (c : ClientId) (key : Bytes) (p : Presence) :
      s.1.held room c key = some p ↔ h.held room c key = some p ∧ c ≠ client := by
    refine (held_filter ..).trans (and_congr_right fun _ => ?_)
    exact decide_eq_true_iff
  have hBeside (actor key : Bytes) : HeldBeside h room client actor key ↔
      ∃ other q, s.1.held room other key = some q ∧ q.actor = actor := by
    constructor
    · rintro ⟨other, q, hOther, hQ, hActor⟩
      exact ⟨other, q, (hAfter ..).mpr ⟨hQ, hOther⟩, hActor⟩
    · rintro ⟨other, q, hQ, hActor⟩
      obtain ⟨hQ, hOther⟩ := (hAfter ..).mp hQ
      exact ⟨other, q, hOther, hQ, hActor⟩
  have hStill (c : ClientId) (key : Bytes) (p : Presence) (hP : s.1.held room c key = some p) :
      (h.clearClient client order).1.any (tells room (toLex (p.actor, key))) = false := by
    obtain ⟨hHeld, hOther⟩ := (hAfter ..).mp hP
    rw [← Bool.not_eq_true, any_clearClient]
    rintro ⟨e, -, hAny⟩
    obtain ⟨-, hFree, -⟩ := any_roomRemovals.mp hAny
    exact hFree (c, key, p) (List.mem_filter.mpr ⟨mem_inRoom.mpr hHeld, decide_eq_true hOther⟩)
      rfl rfl
  refine (mirrors_removals hMirrors (fun c key p hP => ((hAfter ..).mp hP).1) hStill).trans ?_
  simp only [← hBeside]
  constructor
  · intro hTold e hFirst key p hP hActor
    refine (hTold client key p hP).resolve_left fun hAny => ?_
    obtain ⟨e', hFirst', hAny⟩ := any_clearClient.mp hAny
    obtain rfl := Option.some_inj.mp (hFirst.symm.trans hFirst')
    exact hActor (any_roomRemovals.mp hAny).1
  · intro hFaithful c key p hP
    by_cases hHolds : HeldBeside h room client p.actor key
    · exact .inr hHolds
    · left
      obtain rfl : c = client := by
        by_contra hOther
        exact hHolds ⟨c, p, hOther, hP, rfl⟩
      have hIn : (c, key, p) ∈ (h.inRoom room).filter fun e => e.1 = c :=
        List.mem_filter.mpr ⟨mem_inRoom.mpr hP, decide_eq_true rfl⟩
      obtain ⟨e, hFirst⟩ := order.isSome _ (List.ne_nil_of_mem hIn)
      have hActor : p.actor = e.2.2.actor := by
        by_contra hActor
        exact hHolds (hFaithful e hFirst key p hP hActor)
      refine any_clearClient.mpr ⟨e, hFirst, any_roomRemovals.mpr ⟨hActor, ?_, fun _ =>
        ⟨_, hIn, rfl⟩⟩⟩
      rintro ⟨o, k, q⟩ hO rfl hSame
      obtain ⟨hO, hOther⟩ := List.mem_filter.mp hO
      exact hHolds ⟨o, q, of_decide_eq_true hOther, mem_inRoom.mp hO, hSame⟩

/-! ### Runs -/

/-- Every event of a run meets the condition where it falls. -/
def FaithfulRun (room : RoomId) (s : Awareness × View) : List Event → Prop
  | [] => True
  | event :: events => Faithful room s.1 event ∧ FaithfulRun room (step room s event) events

theorem mirrors_step {room : RoomId} {s : Awareness × View} (hMirrors : Mirrors room s.1 s.2)
    (event : Event) :
    Mirrors room (step room s event).1 (step room s event).2 ↔ Faithful room s.1 event := by
  obtain ⟨h, view⟩ := s
  cases event with
  | set r client actor key value now throttle => exact mirrors_set hMirrors ..
  | expire now ttl => exact iff_of_true (mirrors_expire hMirrors now ttl) trivial
  | clear client order => exact mirrors_clear hMirrors client order

theorem agrees_run {room : RoomId} {s : Awareness × View} (hStart : Agrees room s.1 s.2)
    (events : List Event) :
    (∀ earlier, earlier <+: events →
      Agrees room (run room s earlier).1 (run room s earlier).2) ↔ FaithfulRun room s events := by
  induction events generalizing s with
  | nil =>
    refine iff_of_true (fun earlier hPrefix => ?_) trivial
    rw [List.prefix_nil.mp hPrefix]
    exact hStart
  | cons event events ih =>
    have hStep := mirrors_step (agrees_iff.mp hStart) event
    rw [← agrees_iff] at hStep
    constructor
    · intro hAll
      have hNext := hAll [event] (List.prefix_append [event] events)
      exact ⟨hStep.mp hNext, (ih hNext).mp fun earlier hPrefix =>
        hAll (event :: earlier) ((List.prefix_cons_inj event).mpr hPrefix)⟩
    · rintro ⟨hEvent, hRest⟩ earlier hPrefix
      cases earlier with
      | nil => exact hStart
      | cons first earlier =>
        obtain ⟨rfl, hEarlier⟩ := List.cons_prefix_cons.mp hPrefix
        exact (ih (hStep.mpr hEvent)).mpr hRest earlier hEarlier

theorem agrees_new (room : RoomId) : Agrees room new ∅ := by
  have hNone (client : ClientId) (key : Bytes) : new.held room client key = none :=
    ExtTreeMap.getElem?_empty
  refine agrees_iff.mpr ⟨fun client key p hP => ?_, fun actor key value hView => ?_⟩
  · rw [hNone] at hP
    cases hP
  · rw [ExtTreeMap.getElem?_empty] at hView
    cases hView

/-- A peer that applies everything it is sent from the start agrees with a joiner all along a run
exactly where every set sent into the room gives the value the other clients of its actor hold,
and no client leaves behind an actor that is not told of. -/
theorem awareness_agreement (room : RoomId) (events : List Event) :
    (∀ earlier, earlier <+: events →
      Agrees room (run room (new, ∅) earlier).1 (run room (new, ∅) earlier).2) ↔
      FaithfulRun room (new, ∅) events :=
  agrees_run (agrees_new room) events

/-- The order of the keys, as one a hash map may have. -/
def Iteration.byKey : Iteration :=
  ⟨List.head?, fun _ _ hFirst => List.mem_of_mem_head? hFirst,
    fun l hSome => ⟨l.head hSome, List.head?_eq_some_head hSome⟩⟩

/-- Two connections of an actor set one key apart and the later one goes. -/
def siblings : List Event :=
  [.set [114] ⟨1⟩ [97] [107] [1] 0 none, .set [114] ⟨2⟩ [97] [107] [2] 1 none, .clear ⟨2⟩ .byKey]

/-- Nothing is told of the connection that went: the peer goes on showing what it set, and a
joiner is replayed what the other one did. -/
theorem siblings_disagree :
    ((run [114] (new, ∅) siblings).2[(toLex ([97], [107]) : Bytes ×ₗ Bytes)]? = some [2] ∧
      (run [114] (new, ∅) siblings).1.awarenessEntries [114] = [([97], [107], [1])]) ∧
    ¬ ∀ (room : RoomId) (events : List Event),
      Agrees room (run room (new, ∅) events).1 (run room (new, ∅) events).2 := by
  constructor
  · decide +kernel
  · intro hAll
    have hJoiner := (hAll [114] siblings).joiner _ (.refl _) (toLex ([97], [107]))
    exact absurd hJoiner (by decide +kernel)

end Awareness

end Server

end CrdtSync
