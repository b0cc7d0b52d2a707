import CrdtSync.Core.Acl
import CrdtSync.Lib.LayerSearch

/-!
# Authority over a set of records

The passes and the verdict as they read a set of records, with no position, order
or count in them. The evaluator's flags stand for a subset of the records at every
round, so its verdict is a function of the set and of the number of rounds the
list's length allows.
-/

namespace CrdtSync.Authority

open Lib Relation

section Iteration

variable (records : List AclRecord) (resolver : PathResolver) (creator : ClientId)

/-- The snapshot after `k` rounds from the all-false seed. -/
def snapshot (k : Nat) : Flags records × Flags records :=
  (round records resolver creator)^[k] (fun _ => false, fun _ => false)

theorem snapshot_succ (k : Nat) : snapshot records resolver creator (k + 1) =
    round records resolver creator (snapshot records resolver creator k) :=
  Function.iterate_succ_apply' _ _ _

/-- When the iteration says it settled, a round changes nothing where it ended. -/
theorem round_iterate (fuel : Nat) (s : Flags records × Flags records)
    (h : (iterate records resolver creator fuel s).2 = true) :
    round records resolver creator (iterate records resolver creator fuel s).1 =
      (iterate records resolver creator fuel s).1 := by
  induction fuel generalizing s with
  | zero => cases h
  | succ fuel ih =>
    rw [iterate] at h ⊢
    split at h
    next hFixed =>
      rw [if_pos hFixed]
      exact hFixed
    next hMoves =>
      rw [if_neg hMoves]
      exact ih _ h

end Iteration

section Passes

variable {records : List AclRecord} {resolver : PathResolver} {creator : ClientId}

theorem ownsPath_iff {rooted revoked : Flags records} {actor : ClientId} {target : Bytes} :
    ownsPath records resolver creator actor target rooted revoked = true ↔ actor = creator ∨
      ∃ i, grantsOwn records actor i = true ∧ resolvesOver records resolver i target = true ∧
        rooted i = true ∧ revoked i = false := by
  simp [ownsPath, and_assoc]

def rootPasses (creator : ClientId) (resolver : PathResolver) (revoked : Flags records) (k : Nat)
    (rooted : Flags records) : Flags records :=
  (fun r => rootPass records resolver creator r revoked)^[k] rooted

theorem rootPasses_succ (revoked : Flags records) (k : Nat) (rooted : Flags records) :
    rootPasses creator resolver revoked (k + 1) rooted =
      rootPass records resolver creator (rootPasses creator resolver revoked k rooted) revoked :=
  Function.iterate_succ_apply' _ _ _

end Passes

/-- The records that stand rooted and those that stand revoked. -/
@[ext]
structure Standing where
  rooted : Set AclRecord
  revoked : Set AclRecord

def Spans (resolver : PathResolver) (r : AclRecord) (target : Bytes) : Prop :=
  ∃ p, r.tuple.scope.resolve resolver = some p ∧ governs p target = true

def OwnAllow (actor : ClientId) (r : AclRecord) : Prop :=
  r.tuple.subject = .actor actor ∧ r.tuple.grant = .capability .own ∧ r.tuple.effect = .allow

section Sets

variable (members : Set AclRecord) (resolver : PathResolver) (creator : ClientId)

def Owns (s : Standing) (actor : ClientId) (target : Bytes) : Prop :=
  actor = creator ∨ ∃ r ∈ members,
    OwnAllow actor r ∧ Spans resolver r target ∧ r ∈ s.rooted ∧ r ∉ s.revoked

def rootsOf (s : Standing) : Set AclRecord :=
  {r | r ∈ members ∧ ∃ p, r.tuple.scope.resolve resolver = some p ∧
    Owns members resolver creator s r.tuple.grantor p}

def revokesOf (s : Standing) : Set AclRecord :=
  {r | r ∈ members ∧ ∃ who ∈ r.revokedBy, who = creator ∨ who = r.tuple.grantor ∨
    ∃ p, r.tuple.scope.resolve resolver = some p ∧ Owns members resolver creator s who p}

def advance (s : Standing) : Standing :=
  ⟨rootsOf members resolver creator s, revokesOf members resolver creator s⟩

def standingAt (k : Nat) : Standing :=
  (advance members resolver creator)^[k] ⟨∅, ∅⟩

/-- The revokes two consecutive rounds agree on, once a list of `n` records has
had its rounds. -/
def pinned (n : Nat) : Set AclRecord :=
  (standingAt members resolver creator (2 * n + 2)).revoked ∩
    (standingAt members resolver creator (2 * n + 2 + 1)).revoked

/-- What a list of `n` records ends its rounds with. -/
def resolvedAt (n : Nat) : Standing :=
  ⟨(fun rooted => rootsOf members resolver creator ⟨rooted, pinned members resolver creator n⟩)^[n + 1]
    (standingAt members resolver creator (2 * n + 2)).rooted, pinned members resolver creator n⟩

def Superior (s : Standing) (grantPath : Bytes) (who up : ClientId) : Prop :=
  ∃ r ∈ members, (r ∈ s.rooted ∧ r ∉ s.revoked) ∧ OwnAllow who r ∧ Spans resolver r grantPath ∧
    r.tuple.grantor = up

def AtOrAbove (s : Standing) (author grantor : ClientId) (grantPath : Bytes) : Prop :=
  author = creator ∨ author = grantor ∨
    TransGen (Superior members resolver s grantPath) grantor author

def DeniesAt (s : Standing) (actor : AclActor) (path : Bytes) (r : AclRecord) : Prop :=
  r ∉ s.revoked ∧ r.tuple.effect = .deny ∧ r.tuple.subject.matches actor = true ∧
    Spans resolver r path

def Suppressed (s : Standing) (actor : AclActor) (path : Bytes) (capability : Capability)
    (granter : ClientId) (granterPath : Bytes) (viaOwn : Bool) : Prop :=
  ∃ r ∈ members, DeniesAt resolver s actor path r ∧ ∃ dc, r.tuple.grant = .capability dc ∧
    (dc = capability ∨ dc = .own ∧ viaOwn = true) ∧
      AtOrAbove members resolver creator s r.tuple.grantor granter granterPath

def Stands (s : Standing) (actor : AclActor) (path : Bytes) (capability : Capability)
    (r : AclRecord) : Prop :=
  r ∉ s.revoked ∧ r ∈ s.rooted ∧ r.tuple.effect = .allow ∧
    ∃ p, r.tuple.scope.resolve resolver = some p ∧ r.tuple.subject.matches actor = true ∧
      governs p path = true ∧ ∃ c, r.tuple.grant = .capability c ∧ (c = .own ∨ c = capability) ∧
        ¬Suppressed members resolver creator s actor path capability r.tuple.grantor p (c == .own)

def Allows (s : Standing) (actor : AclActor) (path : Bytes) (capability : Capability) : Prop :=
  (actor.id = creator ∧
    ¬Suppressed members resolver creator s actor path capability creator [] true) ∨
  ∃ r ∈ members, Stands members resolver creator s actor path capability r

def Floors (s : Standing) (actor : AclActor) (path : Bytes) (capability : Capability) : Prop :=
  ∃ r ∈ members, DeniesAt resolver s actor path r ∧ r.tuple.grant = .capability capability

open Classical in
noncomputable def verdict (s : Standing) (actor : AclActor) (path : Bytes)
    (capability : Capability) : AclDecision :=
  if Allows members resolver creator s actor path capability then .allow
  else if Floors members resolver s actor path capability then .deny
  else .abstain

end Sets

def members (records : List AclRecord) : Set AclRecord := {r | r ∈ records}

section Flags

variable {records : List AclRecord} {resolver : PathResolver} {creator : ClientId}

/-- The flags stand for the subset: equal records carry equal flags. -/
structure Reads (records : List AclRecord) (flags : Flags records × Flags records) (s : Standing) :
    Prop where
  rooted : ∀ i, flags.1 i = true ↔ records.get i ∈ s.rooted
  revoked : ∀ i, flags.2 i = true ↔ records.get i ∈ s.revoked

variable {flags : Flags records × Flags records} {s : Standing}

/-- Flags that stand for one subset are the same. -/
theorem Reads.eq {flags' : Flags records × Flags records} (h : Reads records flags s)
    (h' : Reads records flags' s) : flags = flags' := by
  apply Prod.ext
  · exact funext fun i => Bool.eq_iff_iff.mpr ((h.rooted i).trans (h'.rooted i).symm)
  · exact funext fun i => Bool.eq_iff_iff.mpr ((h.revoked i).trans (h'.revoked i).symm)

theorem exists_position_iff {p : AclRecord → Prop} :
    (∃ i : Fin records.length, p (records.get i)) ↔ ∃ r ∈ members records, p r := by
  constructor
  · rintro ⟨i, hi⟩
    exact ⟨records.get i, List.get_mem records i, hi⟩
  · rintro ⟨r, hMember, hr⟩
    obtain ⟨i, rfl⟩ := List.mem_iff_get.mp hMember
    exact ⟨i, hr⟩

theorem Reads.revoked_eq_false (h : Reads records flags s) (i : Fin records.length) :
    flags.2 i = false ↔ records.get i ∉ s.revoked := by
  rw [← h.revoked, Bool.not_eq_true]

theorem grantsOwn_iff {actor : ClientId} {i : Fin records.length} :
    grantsOwn records actor i = true ↔ OwnAllow actor (records.get i) := by
  simp only [grantsOwn, Bool.and_eq_true, beq_iff_eq, OwnAllow, and_assoc]

theorem resolvesOver_iff {i : Fin records.length} {target : Bytes} :
    resolvesOver records resolver i target = true ↔ Spans resolver (records.get i) target := by
  simp only [resolvesOver, resolved, Option.any_eq_true, Spans]

theorem Reads.ownsPath_iff (h : Reads records flags s) {actor : ClientId} {target : Bytes} :
    ownsPath records resolver creator actor target flags.1 flags.2 = true ↔
      Owns (members records) resolver creator s actor target := by
  rw [Authority.ownsPath_iff, Owns, ← exists_position_iff]
  simp only [grantsOwn_iff, resolvesOver_iff, h.rooted, h.revoked_eq_false]

theorem Reads.rootPass (h : Reads records flags s) :
    Reads records (Authority.rootPass records resolver creator flags.1 flags.2, flags.2)
      ⟨rootsOf (members records) resolver creator s, s.revoked⟩ where
  rooted i := by
    simp only [Authority.rootPass, resolved, Option.any_eq_true, h.ownsPath_iff]
    exact (and_iff_right (List.get_mem records i)).symm
  revoked := h.revoked

theorem Reads.revokePass (h : Reads records flags s) (i : Fin records.length) :
    Authority.revokePass records resolver creator flags.1 flags.2 i = true ↔
      records.get i ∈ revokesOf (members records) resolver creator s := by
  simp only [Authority.revokePass, resolved, List.any_eq_true, Bool.or_eq_true, beq_iff_eq,
    Option.any_eq_true, h.ownsPath_iff, or_assoc]
  exact (and_iff_right (List.get_mem records i)).symm

theorem Reads.round (h : Reads records flags s) :
    Reads records (Authority.round records resolver creator flags)
      (advance (members records) resolver creator s) where
  rooted := h.rootPass.rooted
  revoked := h.revokePass

theorem standingAt_succ (all : Set AclRecord) (k : Nat) :
    standingAt all resolver creator (k + 1) =
      advance all resolver creator (standingAt all resolver creator k) :=
  Function.iterate_succ_apply' _ _ _

/-- Every round's flags stand for that round of the set. -/
theorem reads_snapshot (records : List AclRecord) (resolver : PathResolver) (creator : ClientId)
    (k : Nat) : Reads records (snapshot records resolver creator k)
      (standingAt (members records) resolver creator k) := by
  induction k with
  | zero => exact ⟨fun i => by simp [snapshot, standingAt], fun i => by simp [snapshot, standingAt]⟩
  | succ k ih =>
    rw [snapshot_succ, standingAt_succ]
    exact ih.round

theorem Reads.rootPasses (h : Reads records flags s) (k : Nat) :
    Reads records (Authority.rootPasses creator resolver flags.2 k flags.1, flags.2)
      ⟨(fun rooted => rootsOf (members records) resolver creator ⟨rooted, s.revoked⟩)^[k] s.rooted,
        s.revoked⟩ := by
  induction k with
  | zero => exact h
  | succ k ih =>
    rw [rootPasses_succ, Function.iterate_succ_apply']
    exact ih.rootPass

theorem iterate_eq_rounds (records : List AclRecord) (resolver : PathResolver) (creator : ClientId)
    (fuel : Nat) (flags : Flags records × Flags records) :
    (iterate records resolver creator fuel flags).1 =
      (Authority.round records resolver creator)^[fuel] flags := by
  induction fuel generalizing flags with
  | zero => rfl
  | succ fuel ih =>
    rw [iterate]
    split
    next hFixed => exact (Function.iterate_fixed hFixed _).symm
    next => rw [ih, Function.iterate_succ_apply]

theorem rootIterate_eq_passes (revoked : Flags records) (fuel : Nat) (rooted : Flags records) :
    rootIterate records resolver creator revoked fuel rooted =
      Authority.rootPasses creator resolver revoked fuel rooted := by
  induction fuel generalizing rooted with
  | zero => rfl
  | succ fuel ih =>
    rw [rootIterate]
    split
    next hFixed => exact (Function.iterate_fixed hFixed _).symm
    next => rw [ih, Authority.rootPasses, Authority.rootPasses, Function.iterate_succ_apply]

/-- When the rounds stop early they stop where the pinned revokes and more passes
of rooting would leave them. -/
theorem settle_eq (records : List AclRecord) (resolver : PathResolver) (creator : ClientId) :
    settle records resolver creator =
      let last := snapshot records resolver creator (2 * records.length + 2)
      let revoked := disregardFlux records resolver creator last
      (Authority.rootPasses creator resolver revoked (records.length + 1) last.1, revoked) := by
  have hTrue := round_iterate records resolver creator (2 * records.length + 2)
    (fun _ => false, fun _ => false)
  have hRounds := iterate_eq_rounds records resolver creator (2 * records.length + 2)
    (fun _ => false, fun _ => false)
  unfold settle
  generalize iterate records resolver creator (2 * records.length + 2)
    (fun _ => false, fun _ => false) = result at hTrue hRounds ⊢
  obtain ⟨last, converged⟩ := result
  obtain rfl : last = snapshot records resolver creator (2 * records.length + 2) := hRounds
  cases converged with
  | false =>
    dsimp only
    rw [rootIterate_eq_passes]
  | true =>
    generalize snapshot records resolver creator (2 * records.length + 2) = last at hTrue ⊢
    have hFixed := hTrue rfl
    have hRevoked : disregardFlux records resolver creator last = last.2 := by
      funext i
      have hSame : Authority.revokePass records resolver creator last.1 last.2 i = last.2 i :=
        congrFun (congrArg Prod.snd hFixed) i
      rw [disregardFlux, if_neg (not_not.mpr hSame)]
    have hRooted : Authority.rootPass records resolver creator last.1 last.2 = last.1 :=
      congrArg Prod.fst hFixed
    dsimp only
    rw [hRevoked, Authority.rootPasses, Function.iterate_fixed hRooted]

/-- The snapshot the verdict is read off stands for a subset that only the set and
the length decide. -/
theorem reads_settle (records : List AclRecord) (resolver : PathResolver) (creator : ClientId) :
    Reads records (settle records resolver creator)
      (resolvedAt (members records) resolver creator records.length) := by
  have hLast := reads_snapshot records resolver creator (2 * records.length + 2)
  have hNext := reads_snapshot records resolver creator (2 * records.length + 2 + 1)
  rw [snapshot_succ] at hNext
  rw [settle_eq]
  have hPinned : Reads records
      ((snapshot records resolver creator (2 * records.length + 2)).1,
        disregardFlux records resolver creator
          (snapshot records resolver creator (2 * records.length + 2)))
      ⟨(standingAt (members records) resolver creator (2 * records.length + 2)).rooted,
        pinned (members records) resolver creator records.length⟩ := by
    refine ⟨hLast.rooted, fun i => ?_⟩
    dsimp only [disregardFlux]
    rw [pinned, Set.mem_inter_iff, ← hLast.revoked, ← hNext.revoked]
    dsimp only [Authority.round]
    split
    next hFlux =>
      constructor
      · intro hFalse
        cases hFalse
      · rintro ⟨hNow, hThen⟩
        exact absurd (hThen.trans hNow.symm) hFlux
    next hSame =>
      rw [not_not] at hSame
      rw [hSame, and_self]
  exact hPinned.rootPasses (records.length + 1)

theorem Reads.mem_superiors_iff (h : Reads records flags s) {grantPath : Bytes}
    {who up : ClientId} :
    up ∈ superiors records resolver grantPath flags.1 flags.2 who ↔
      Superior (members records) resolver s grantPath who up := by
  rw [Superior, ← exists_position_iff]
  simp only [superiors, List.mem_filterMap, List.mem_finRange, true_and, Option.ite_none_right_eq_some,
    Bool.and_eq_true, Bool.not_eq_true', grantsOwn_iff, resolvesOver_iff, h.rooted,
    h.revoked_eq_false, Option.some.injEq, and_assoc]

theorem reaches_eq_layerSearch (grantPath : Bytes) (rooted revoked : Flags records)
    (author : ClientId) (fuel : Nat) (seen frontier : List ClientId) :
    reaches records resolver grantPath rooted revoked author fuel seen frontier =
      layerSearch (superiors records resolver grantPath rooted revoked) author fuel seen
        frontier := by
  induction fuel generalizing seen frontier with
  | zero => rfl
  | succ fuel ih =>
    rw [reaches, layerSearch]
    simp only [ih]
    rfl

/-- The walk has a layer for every grantor, so it misses nobody above. -/
theorem Reads.reaches_iff (h : Reads records flags s) {author grantor : ClientId}
    {grantPath : Bytes} :
    reaches records resolver grantPath flags.1 flags.2 author (records.length + 1) [grantor]
        [grantor] = true ↔
      TransGen (Superior (members records) resolver s grantPath) grantor author := by
  let roster := insert grantor (records.map fun r => r.tuple.grantor).toFinset
  have hSucc : ∀ who, ∀ up ∈ superiors records resolver grantPath flags.1 flags.2 who,
      up ∈ roster := by
    intro who up hUp
    obtain ⟨r, hMember, -, -, -, rfl⟩ := h.mem_superiors_iff.mp hUp
    exact Finset.mem_insert_of_mem
      (List.mem_toFinset.mpr (List.mem_map_of_mem (f := fun r => r.tuple.grantor) hMember))
  have hRoster : roster.card < records.length + 1 + [grantor].length := by
    have hInsert := Finset.card_insert_le grantor (records.map fun r => r.tuple.grantor).toFinset
    have hGrantors := List.toFinset_card_le (records.map fun r => r.tuple.grantor)
    rw [List.length_map] at hGrantors
    rw [List.length_singleton]
    dsimp only [roster]
    omega
  have hStart : ∀ who ∈ [grantor], who ∈ roster := by
    intro who hWho
    exact List.mem_singleton.mp hWho ▸ Finset.mem_insert_self _ _
  rw [reaches_eq_layerSearch, searched_start.layerSearch_iff hStart hSucc hRoster]
  simp only [h.mem_superiors_iff]

theorem Reads.atOrAbove_iff (h : Reads records flags s) {author grantor : ClientId}
    {grantPath : Bytes} :
    atOrAbove records resolver creator author grantor grantPath flags.1 flags.2 = true ↔
      AtOrAbove (members records) resolver creator s author grantor grantPath := by
  simp only [atOrAbove, Bool.or_eq_true, beq_iff_eq, h.reaches_iff, or_assoc, AtOrAbove]

theorem Reads.deniesAt_iff (h : Reads records flags s) {actor : AclActor} {path : Bytes}
    {i : Fin records.length} :
    deniesAt records resolver actor path flags.2 i = true ↔
      DeniesAt resolver s actor path (records.get i) := by
  simp only [deniesAt, Bool.and_eq_true, Bool.not_eq_true', beq_iff_eq, h.revoked_eq_false,
    resolvesOver_iff, and_assoc, DeniesAt]

theorem Reads.denySuppresses_iff (h : Reads records flags s) {actor : AclActor}
    {path granterPath : Bytes} {capability : Capability} {granter : ClientId} {viaOwn : Bool} :
    denySuppresses records resolver creator actor path capability granter granterPath viaOwn
        flags.1 flags.2 = true ↔
      Suppressed (members records) resolver creator s actor path capability granter granterPath
        viaOwn := by
  rw [Suppressed, ← exists_position_iff]
  simp only [denySuppresses, List.any_eq_true, List.mem_finRange, true_and, Bool.and_eq_true,
    h.deniesAt_iff]
  refine exists_congr fun i => and_congr_right fun _ => ?_
  generalize records.get i = r
  split
  next hRole => simp [hRole]
  next dc hGrant => simp [hGrant, h.atOrAbove_iff]

theorem Reads.allowStands_iff (h : Reads records flags s) {actor : AclActor} {path : Bytes}
    {capability : Capability} {i : Fin records.length} :
    allowStands records resolver creator actor path capability flags.1 flags.2 i = true ↔
      Stands (members records) resolver creator s actor path capability (records.get i) := by
  simp only [allowStands, Stands, Bool.and_eq_true, Bool.not_eq_true', beq_iff_eq, h.rooted,
    h.revoked_eq_false, and_assoc]
  refine and_congr_right fun _ => and_congr_right fun _ => and_congr_right fun _ => ?_
  rw [resolved]
  generalize records.get i = r
  split
  next hNone => simp [hNone]
  next p hSome =>
    simp only [hSome, Option.some.injEq, exists_eq_left', Bool.and_eq_true]
    rw [and_assoc]
    refine and_congr_right fun _ => and_congr_right fun _ => ?_
    split
    next hRole => simp [hRole]
    next c hGrant =>
      simp only [hGrant, Bool.and_eq_true, Bool.or_eq_true, beq_iff_eq, AclGrant.capability.injEq,
        exists_eq_left', Bool.not_eq_true', ← h.denySuppresses_iff, Bool.not_eq_true]

/-- The evaluator's verdict is the one the set gives after the rounds the list's
length allows. -/
theorem decide_eq_verdict (records : List AclRecord) (creator : ClientId) (actor : AclActor)
    (path : Bytes) (capability : Capability) (resolver : PathResolver) :
    decideCapabilityWithAuthority records creator actor path capability resolver =
      verdict (members records) resolver creator
        (resolvedAt (members records) resolver creator records.length) actor path capability := by
  have h := reads_settle records resolver creator
  generalize resolvedAt (members records) resolver creator records.length = s at h ⊢
  have hAllows : (creatorOwns records resolver creator actor path capability
        (settle records resolver creator).1 (settle records resolver creator).2 ||
      (List.finRange records.length).any
        (allowStands records resolver creator actor path capability
          (settle records resolver creator).1 (settle records resolver creator).2)) = true ↔
      Allows (members records) resolver creator s actor path capability := by
    rw [Allows, ← exists_position_iff]
    simp only [creatorOwns, Bool.or_eq_true, Bool.and_eq_true, beq_iff_eq, Bool.not_eq_true',
      ← h.denySuppresses_iff, Bool.not_eq_true, List.any_eq_true, List.mem_finRange, true_and,
      h.allowStands_iff]
  have hFloors : ((List.finRange records.length).any fun i =>
        deniesAt records resolver actor path (settle records resolver creator).2 i &&
          (records.get i).tuple.grant == .capability capability) = true ↔
      Floors (members records) resolver s actor path capability := by
    rw [Floors, ← exists_position_iff]
    simp only [List.any_eq_true, List.mem_finRange, true_and, Bool.and_eq_true, h.deniesAt_iff,
      beq_iff_eq]
  classical
  rw [decideCapabilityWithAuthority, verdict]
  exact if_congr hAllows rfl (if_congr hFloors rfl rfl)

end Flags

end CrdtSync.Authority
