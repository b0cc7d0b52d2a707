import Mathlib.Data.Finset.Option
import Mathlib.Data.Finset.Union
import CrdtSync.Lib.OrderedMap
import CrdtSync.Lib.Saturation
import CrdtSync.Server.Registry

/-!
# Dynamic membership

One node's view of its cluster: the roster gossip grows, the SWIM liveness of every
member, the tombstones of the reaped ones, and the members that rooms are placed on.
How an advertise address is spelled and which trust unit it belongs to are given.
-/

namespace CrdtSync

namespace Server

namespace Gossip

open Std (ExtTreeMap)

def SUSPECT_AFTER_FAILURES : Nat := 3

def DEAD_AFTER_FAILURES : Nat := 6

def REAP_AFTER_DEAD_TICKS : Nat := 30

def TOMBSTONE_RETENTION_TICKS : Nat := 300

def ADOPTION_VERIFIERS : Nat := 2

/-- `x.saturating_add(1)` on a `u32` clock. -/
def tick (clock : Nat) : Nat := min (clock + 1) (2 ^ 32 - 1)

/-- `x.saturating_add(1)` on a `u64`. -/
def bump (incarnation : UInt64) : UInt64 :=
  if incarnation = UInt64.ofNat (2 ^ 64 - 1) then incarnation else incarnation + 1

section Flagged

variable {α β : Type*}

/-- A loop over `l` that also reports whether any step did something. -/
def anyStep (f : α → β → α × Bool) (a : α) (l : List β) : α × Bool :=
  l.foldl (fun p x => ((f p.1 x).1, p.2 || (f p.1 x).2)) (a, false)

theorem anyStep_cons (f : α → β → α × Bool) (a : α) (x : β) (l : List β) :
    anyStep f a (x :: l) =
      ((anyStep f (f a x).1 l).1, (f a x).2 || (anyStep f (f a x).1 l).2) := by
  have hFlag : ∀ (l : List β) (a : α) (flag : Bool),
      l.foldl (fun p x => ((f p.1 x).1, p.2 || (f p.1 x).2)) (a, flag) =
        ((anyStep f a l).1, flag || (anyStep f a l).2) := by
    intro l
    induction l with
    | nil => simp [anyStep]
    | cons y l ih =>
      intro a flag
      have hHead : anyStep f a (y :: l) =
          ((anyStep f (f a y).1 l).1, (false || (f a y).2) || (anyStep f (f a y).1 l).2) := ih _ _
      rw [List.foldl_cons, ih, hHead, Bool.false_or, Bool.or_assoc]
  rw [anyStep, List.foldl_cons, hFlag, Bool.false_or]

theorem anyStep_preserves {f : α → β → α × Bool} {p : α → Prop} {l : List β}
    (h : ∀ x ∈ l, ∀ a, p a → p (f a x).1) {a : α} (ha : p a) : p (anyStep f a l).1 := by
  induction l generalizing a with
  | nil => exact ha
  | cons x l ih =>
    rw [anyStep_cons]
    exact ih (fun y hy => h y (List.mem_cons_of_mem x hy)) (h x List.mem_cons_self a ha)

theorem anyStep_silent {f : α → β → α × Bool} {p : α → Prop}
    (h : ∀ a x, (f a x).2 = false → p a → p (f a x).1) {a : α} (ha : p a) (l : List β)
    (hSilent : (anyStep f a l).2 = false) : p (anyStep f a l).1 := by
  induction l generalizing a with
  | nil => exact ha
  | cons x l ih =>
    rw [anyStep_cons] at hSilent ⊢
    obtain ⟨hFirst, hRest⟩ := Bool.or_eq_false_iff.mp hSilent
    exact ih (h a x hFirst ha) hRest

end Flagged

inductive MemberState
  | alive
  | suspect
  | dead
  deriving DecidableEq

def MemberState.rank : MemberState → Nat
  | .alive => 0
  | .suspect => 1
  | .dead => 2

theorem MemberState.rank_injective : Function.Injective MemberState.rank := by
  intro a b h
  cases a <;> cases b <;> first | rfl | cases h

/-- The derived order: most suspicious last. -/
instance : LinearOrder MemberState := LinearOrder.lift' MemberState.rank MemberState.rank_injective

/-- `NodeId::canonical` and `member_trust_unit`. -/
structure Dial (υ : Type) where
  canonical : Bytes → Option NodeId
  memberTrustUnit : NodeId → Option υ

/-- Every address is spelled canonically and is a trust unit of its own. -/
def Dial.plain : Dial Bytes := ⟨some, some⟩

structure MemberLiveness where
  incarnation : UInt64
  state : MemberState
  failedProbes : Nat
  deadTicks : Nat
  deriving DecidableEq

namespace MemberLiveness

def new (incarnation : UInt64) (state : MemberState) : MemberLiveness :=
  ⟨incarnation, state, 0, 0⟩

/-- The merge of a gossiped tuple into a member that is known. -/
def merge (m : MemberLiveness) (incarnation : UInt64) (state : MemberState) : MemberLiveness :=
  if m.incarnation < incarnation then new incarnation state
  else if incarnation = m.incarnation ∧ m.state < state then { m with state := state }
  else m

def reachable (m : MemberLiveness) : MemberLiveness :=
  { m with failedProbes := 0, state := .alive, deadTicks := 0 }

def unreachable (m : MemberLiveness) : MemberLiveness :=
  if m.state = .dead then m
  else
    let failed := tick m.failedProbes
    if DEAD_AFTER_FAILURES ≤ failed then { m with failedProbes := failed, state := .dead }
    else if SUSPECT_AFTER_FAILURES ≤ failed then { m with failedProbes := failed, state := .suspect }
    else { m with failedProbes := failed }

/-- Refute what a peer said of this node itself. -/
def refuteIfStale (m : MemberLiveness) (received : UInt64) (state : MemberState) :
    MemberLiveness :=
  if m.incarnation < received ∨ received = m.incarnation ∧ state ≠ .alive then
    { m with
      incarnation := bump (if m.incarnation < received then received else m.incarnation)
      state := .alive
      failedProbes := 0 }
  else m

end MemberLiveness

/-- One member as a gossip frame advertises it. -/
structure LivenessTuple where
  node : Bytes
  addr : Bytes
  incarnation : UInt64
  state : MemberState
  verified : Bool
  deriving DecidableEq

structure Membership where
  selfId : NodeId
  /-- The members the placement ring is built from. -/
  cluster : Finset NodeId
  relayDown : Finset NodeId
  liveness : ExtTreeMap NodeId MemberLiveness compare
  addrs : ExtTreeMap NodeId Bytes compare
  reaped : ExtTreeMap NodeId Nat compare
  configured : Finset NodeId
  solitary : Bool
  adopted : Finset NodeId
  stranded : Bool
  verifiers : ExtTreeMap NodeId (Finset NodeId) compare

namespace Membership

def new (selfId : NodeId) (peers : List NodeId) : Membership :=
  let members := selfId :: peers
  { selfId
    cluster := members.toFinset
    relayDown := ∅
    liveness := members.foldl (fun map node => map.insert node (.new 0 .alive)) ∅
    addrs := members.foldl (fun map node => map.insert node node) ∅
    reaped := ∅
    configured := members.toFinset
    solitary := !peers.any fun peer => peer ≠ selfId
    adopted := members.toFinset
    stranded := false
    verifiers := ∅ }

def isSelf (m : Membership) (node : NodeId) : Bool := node = m.selfId

def roster (m : Membership) : Finset NodeId := m.addrs.keys.toFinset

def isMember (m : Membership) (node : NodeId) : Bool := m.addrs.contains node

def gossipState (m : Membership) (node : NodeId) : MemberState :=
  if m.isSelf node then .alive else (m.liveness[node]?.map (·.state)).getD .alive

def incarnation (m : Membership) (node : NodeId) : UInt64 :=
  (m.liveness[node]?.map (·.incarnation)).getD 0

def isLive (m : Membership) (node : NodeId) : Bool :=
  m.isSelf node || node ∉ m.relayDown && m.gossipState node ≠ .dead

def markNodeLive (m : Membership) (node : NodeId) : Membership :=
  { m with relayDown := m.relayDown.erase node }

def markNodeDown (m : Membership) (node : NodeId) : Membership :=
  if m.isSelf node then m else { m with relayDown := insert node m.relayDown }

def hasVerified (m : Membership) (verifier node : NodeId) : Bool :=
  verifier ∈ m.verifiers[node]?.getD ∅

def isAdopted (m : Membership) (node : NodeId) : Bool := node ∈ m.adopted

def isTombstoned (m : Membership) (node : NodeId) : Bool := m.reaped.contains node

/-- Whether a verification of the member is admissible evidence at all. -/
def canBeVerified (m : Membership) (node : NodeId) : Bool := !m.isSelf node && m.isMember node

def adoptionBar (m : Membership) : Nat :=
  match m.solitary with
  | true => 1
  | false => ADOPTION_VERIFIERS

variable {υ : Type} [DecidableEq υ] (dial : Dial υ)

/-- The trust units among `adopted` that have vouched for a member, its own excluded. -/
def verifierUnits (m : Membership) (adopted : Finset NodeId) (node : NodeId) : Finset υ :=
  match dial.memberTrustUnit node with
  | none => ∅
  | some ownUnit =>
    match m.verifiers[node]? with
    | none => ∅
    | some verifiers =>
      ((verifiers.filter (· ∈ adopted)).biUnion fun v =>
        (dial.memberTrustUnit v).toFinset).erase ownUnit

/-- Recompute from scratch which members rooms are placed on. -/
def rebuildPlacement (m : Membership) : Membership :=
  let adopted := Lib.saturate
    (fun adopted node => m.adoptionBar ≤ (m.verifierUnits dial adopted node).card)
    m.roster m.configured
  let stranded := !m.solitary && adopted.card = 1
  { m with adopted, stranded, cluster := if stranded then ∅ else adopted }

/-- Learn one member, unless it is known or tombstoned; the flag is whether it was added. -/
def learn (m : Membership) (node : Bytes) : Membership × Bool :=
  match dial.canonical node with
  | none => (m, false)
  | some node =>
    if m.isMember node || m.isTombstoned node then (m, false)
    else
      ({ m with
        liveness := m.liveness.insert node (.new 0 .alive)
        addrs := m.addrs.insert node node }, true)

def learnAll (m : Membership) (members : List Bytes) : Membership × Bool :=
  anyStep (learn dial) m members

def addMembers (m : Membership) (members : List Bytes) : Membership :=
  let learned := m.learnAll dial members
  if learned.2 then learned.1.rebuildPlacement dial else learned.1

/-- Add one vouch to the evidence; the flag is whether it was new. -/
def vouch (m : Membership) (verifier node : NodeId) : Membership × Bool :=
  ({ m with verifiers := m.verifiers.alter node fun vs => some (insert verifier (vs.getD ∅)) },
    !m.hasVerified verifier node)

def noteVerified (m : Membership) (node : NodeId) : Membership :=
  if m.canBeVerified node then
    let vouched := m.vouch m.selfId node
    if vouched.2 then vouched.1.rebuildPlacement dial else vouched.1
  else m

def noteGossipReachable (m : Membership) (node : NodeId) : Membership :=
  if m.isSelf node then m
  else { m with liveness := m.liveness.alter node fun r => r.map (·.reachable) }

def noteGossipUnreachable (m : Membership) (node : NodeId) : Membership :=
  if m.isSelf node then m
  else { m with liveness := m.liveness.alter node fun r => r.map (·.unreachable) }

/-- Drop one durably dead member: its records, its tombstone set, its word struck. -/
def reapMember (m : Membership) (node : NodeId) : Membership :=
  { m with
    reaped := m.reaped.insert node 0
    liveness := m.liveness.erase node
    addrs := m.addrs.erase node
    relayDown := m.relayDown.erase node
    configured := m.configured.erase node
    verifiers := (m.verifiers.erase node).map fun _ vs => vs.erase node }

/-- One tick of every reap clock: tombstones age out, dead members age. -/
def age (m : Membership) : Membership :=
  { m with
    reaped := (m.reaped.map fun _ age => tick age).filter fun _ age =>
      age < TOMBSTONE_RETENTION_TICKS
    liveness := m.liveness.map fun node r =>
      if node = m.selfId ∨ r.state ≠ .dead then r else { r with deadTicks := tick r.deadTicks } }

/-- The members that have stayed dead long enough. -/
def toReap (m : Membership) : List NodeId :=
  (m.liveness.filter fun node r =>
    node ≠ m.selfId ∧ r.state = .dead ∧ REAP_AFTER_DEAD_TICKS ≤ r.deadTicks).keys

/-- One reap check: the surviving view, and the members reaped. -/
def reapDead (m : Membership) : Membership × List NodeId :=
  let toReap := m.age.toReap
  let survivors := toReap.foldl reapMember m.age
  (if toReap = [] then survivors else survivors.rebuildPlacement dial, toReap)

def refuteIfStale (m : Membership) (received : UInt64) (state : MemberState) : Membership :=
  { m with
    liveness := m.liveness.alter m.selfId fun r => r.map (·.refuteIfStale received state) }

/-- Merge one tuple under its canonical id; the flag is whether the member is newly learned. -/
def mergeMember (m : Membership) (node : NodeId) (incarnation : UInt64) (state : MemberState) :
    Membership × Bool :=
  if m.isSelf node then (m.refuteIfStale incarnation state, false)
  else if m.isTombstoned node && state ≠ .alive then (m, false)
  else
    let m := { m with reaped := m.reaped.erase node }
    match m.liveness[node]? with
    | none =>
      ({ m with
        liveness := m.liveness.insert node (.new incarnation state)
        addrs := m.addrs.insert node node }, true)
    | some r => ({ m with liveness := m.liveness.insert node (r.merge incarnation state) }, false)

def mergeTuple (m : Membership) (t : LivenessTuple) : Membership × Bool :=
  match dial.canonical t.node with
  | none => (m, false)
  | some node => m.mergeMember node t.incarnation t.state

def claimed (sender : NodeId) (payload : List LivenessTuple) : List NodeId :=
  payload.filterMap fun t =>
    (dial.canonical t.node).filter fun node => t.verified && node ≠ sender

/-- Merge every tuple of a payload; the flag is whether any member is newly learned. -/
def mergeTuples (m : Membership) (payload : List LivenessTuple) : Membership × Bool :=
  anyStep (mergeTuple dial) m payload

def recordClaim (m : Membership) (sender node : NodeId) : Membership × Bool :=
  if m.canBeVerified node then m.vouch sender node else (m, false)

def recordClaims (m : Membership) (sender : NodeId) (nodes : List NodeId) : Membership × Bool :=
  if m.canBeVerified sender then anyStep (fun m => m.recordClaim sender) m nodes else (m, false)

def mergeLiveness (m : Membership) (sender : NodeId) (payload : List LivenessTuple) :
    Membership :=
  let learned := m.mergeTuples dial payload
  let recorded := learned.1.recordClaims sender (claimed dial sender payload)
  if learned.2 || recorded.2 then recorded.1.rebuildPlacement dial else recorded.1

end Membership

/-- Everything that happens to a node's view. -/
inductive Event
  | addMembers (members : List Bytes)
  | mergeLiveness (sender : NodeId) (payload : List LivenessTuple)
  | noteVerified (node : NodeId)
  | noteGossipReachable (node : NodeId)
  | noteGossipUnreachable (node : NodeId)
  | markNodeLive (node : NodeId)
  | markNodeDown (node : NodeId)
  | reapDead

namespace Membership

variable {υ : Type} [DecidableEq υ] (dial : Dial υ)

def step (m : Membership) : Event → Membership
  | .addMembers members => m.addMembers dial members
  | .mergeLiveness sender payload => m.mergeLiveness dial sender payload
  | .noteVerified node => m.noteVerified dial node
  | .noteGossipReachable node => m.noteGossipReachable node
  | .noteGossipUnreachable node => m.noteGossipUnreachable node
  | .markNodeLive node => m.markNodeLive node
  | .markNodeDown node => m.markNodeDown node
  | .reapDead => (m.reapDead dial).1

def run (m : Membership) (events : List Event) : Membership := events.foldl (step dial) m

variable {m : Membership}

theorem isSelf_iff {node : NodeId} : m.isSelf node = true ↔ node = m.selfId := by simp [isSelf]

theorem isTombstoned_eq {node : NodeId} : m.isTombstoned node = (m.reaped[node]?).isSome :=
  ExtTreeMap.contains_eq_isSome_getElem?

theorem ne_selfId_of_mem_toReap {node : NodeId} (h : node ∈ m.toReap) : node ≠ m.selfId := by
  rw [toReap, ExtTreeMap.mem_keys, ExtTreeMap.mem_iff_isSome_getElem?] at h
  obtain ⟨r, hEntry⟩ := Option.isSome_iff_exists.mp h
  simp only [ExtTreeMap.getElem?_filter', Option.filter_eq_some_iff, decide_eq_true_eq] at hEntry
  exact hEntry.2.1

theorem mergeMember_cases (named : NodeId) (incarnation : UInt64) (state : MemberState) :
    (named = m.selfId ∧
      m.mergeMember named incarnation state = (m.refuteIfStale incarnation state, false)) ∨
    (named ≠ m.selfId ∧ m.isTombstoned named = true ∧ state ≠ .alive ∧
      m.mergeMember named incarnation state = (m, false)) ∨
    (named ≠ m.selfId ∧ (m.isTombstoned named = true → state = .alive) ∧
      m.liveness[named]? = none ∧
      m.mergeMember named incarnation state =
        ({ m with
          reaped := m.reaped.erase named
          liveness := m.liveness.insert named (.new incarnation state)
          addrs := m.addrs.insert named named }, true)) ∨
    ∃ r, named ≠ m.selfId ∧ (m.isTombstoned named = true → state = .alive) ∧
      m.liveness[named]? = some r ∧
      m.mergeMember named incarnation state =
        ({ m with
          reaped := m.reaped.erase named
          liveness := m.liveness.insert named (r.merge incarnation state) }, false) := by
  unfold mergeMember
  split
  next hSelf => exact .inl ⟨isSelf_iff.mp hSelf, rfl⟩
  next hSelf =>
    have hSelf' : named ≠ m.selfId := fun h => hSelf (isSelf_iff.mpr h)
    split
    next hClosed =>
      simp only [Bool.and_eq_true, decide_eq_true_eq] at hClosed
      exact .inr (.inl ⟨hSelf', hClosed.1, hClosed.2, rfl⟩)
    next hOpen =>
      have hGate : m.isTombstoned named = true → state = .alive := by simpa using hOpen
      cases hRecord : m.liveness[named]? with
      | none => exact .inr (.inr (.inl ⟨hSelf', hGate, rfl, by simp only [hRecord]⟩))
      | some r => exact .inr (.inr (.inr ⟨r, hSelf', hGate, rfl, by simp only [hRecord]⟩))

end Membership

end Gossip

end Server

end CrdtSync
