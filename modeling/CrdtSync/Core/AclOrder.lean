import CrdtSync.Core.AclAuthority

/-!
# Verdicts and the order of the records

Which changes to the list of records a verdict cannot see. It never sees their
order. It sees a record held twice only through the length, which bounds the
rounds, so never when the records decide every standing by themselves: then the
rounds settle, and on the one assignment whose every standing is decided so.
-/

namespace CrdtSync.Authority

open Lib Relation

section Assignments

variable (records : List AclRecord) (resolver : PathResolver) (creator : ClientId)

/-- Record `r` is decided by record `k`: its author's ownership or a revoker's rests on it. -/
def DecidedBy (k r : AclRecord) : Prop := Delegates resolver k r ∨ Challenges resolver k r

/-- Rooted iff the author holds an effective rooted grant, and effective iff nobody
who holds one revoked it. -/
structure Assignment (flags : Flags records × Flags records) : Prop where
  rooted : ∀ i, flags.1 i = true ↔ AuthoredByCreator resolver creator (records.get i) ∨
    ∃ k, Delegates resolver (records.get k) (records.get i) ∧ flags.1 k = true ∧ flags.2 k = false
  revoked : ∀ i, flags.2 i = true ↔ RevokedDirectly creator (records.get i) ∨
    ∃ k, Challenges resolver (records.get k) (records.get i) ∧ flags.1 k = true ∧ flags.2 k = false

/-- The assignment whose every standing is derived from standings derived before it. -/
structure WellFoundedAssignment (flags : Flags records × Flags records) : Prop
    extends Assignment records resolver creator flags where
  decided : ∀ i, ∃ m, Judged (members records) resolver creator m
    ⟨records.get i, List.get_mem records i⟩ (flags.1 i && !flags.2 i)

/-- The rounds stop because one of them changed nothing. -/
def Settles : Prop :=
  (iterate records resolver creator (2 * records.length + 2)
    (fun _ => false, fun _ => false)).2 = true

end Assignments

/-- The records by themselves decide which of them stand. -/
def Determined (all : Set AclRecord) (resolver : PathResolver) (creator : ClientId) : Prop :=
  ∀ r : all, ∃ m b, Judged all resolver creator m r b

section Settling

variable {records : List AclRecord} {resolver : PathResolver} {creator : ClientId}
variable {flags flags' : Flags records × Flags records}

/-- The standings that flags over the positions give to the records. -/
def Lent (flags : Flags records × Flags records) (r : members records) : Prop :=
  ∃ i, records.get i = r.1 ∧ flags.1 i = true ∧ flags.2 i = false

theorem supported_lent_iff {i : Fin records.length} :
    (provenance resolver creator (members records)).Supported (Lent flags)
        ⟨records.get i, List.get_mem records i⟩ ↔
      AuthoredByCreator resolver creator (records.get i) ∨ ∃ k,
        Delegates resolver (records.get k) (records.get i) ∧ flags.1 k = true ∧ flags.2 k = false := by
  refine or_congr_right ?_
  constructor
  · rintro ⟨_, hSupports, k, hSame, hLent⟩
    exact ⟨k, hSame ▸ hSupports, hLent⟩
  · rintro ⟨k, hDelegates, hLent⟩
    exact ⟨⟨records.get k, List.get_mem records k⟩, hDelegates, k, rfl, hLent⟩

theorem opposed_lent_iff {i : Fin records.length} :
    (provenance resolver creator (members records)).Opposed (Lent flags)
        ⟨records.get i, List.get_mem records i⟩ ↔
      RevokedDirectly creator (records.get i) ∨ ∃ k,
        Challenges resolver (records.get k) (records.get i) ∧ flags.1 k = true ∧ flags.2 k = false := by
  refine or_congr_right ?_
  constructor
  · rintro ⟨_, hObjects, k, hSame, hLent⟩
    exact ⟨k, hSame ▸ hObjects, hLent⟩
  · rintro ⟨k, hChallenges, hLent⟩
    exact ⟨⟨records.get k, List.get_mem records k⟩, hChallenges, k, rfl, hLent⟩

theorem rootPass_iff {i : Fin records.length} :
    rootPass records resolver creator flags.1 flags.2 i = true ↔
      AuthoredByCreator resolver creator (records.get i) ∨ ∃ k,
        Delegates resolver (records.get k) (records.get i) ∧ flags.1 k = true ∧
          flags.2 k = false := by
  simp only [rootPass, resolved, Option.any_eq_true, ownsPath_iff, grantsOwn_iff, resolvesOver_iff]
  constructor
  · rintro ⟨p, hp, hCreator | ⟨k, hOwn, hOver, hLent⟩⟩
    · exact .inl ⟨hCreator, Option.isSome_of_mem hp⟩
    · exact .inr ⟨k, ⟨p, hp, hOwn, hOver⟩, hLent⟩
  · rintro (⟨hCreator, hResolves⟩ | ⟨k, ⟨p, hp, hOwn, hOver⟩, hLent⟩)
    · obtain ⟨p, hp⟩ := Option.isSome_iff_exists.mp hResolves
      exact ⟨p, hp, .inl hCreator⟩
    · exact ⟨p, hp, .inr ⟨k, hOwn, hOver, hLent⟩⟩

theorem revokePass_iff {i : Fin records.length} :
    revokePass records resolver creator flags.1 flags.2 i = true ↔
      RevokedDirectly creator (records.get i) ∨ ∃ k,
        Challenges resolver (records.get k) (records.get i) ∧ flags.1 k = true ∧
          flags.2 k = false := by
  simp only [revokePass, resolved, List.any_eq_true, Bool.or_eq_true, beq_iff_eq,
    Option.any_eq_true, ownsPath_iff, grantsOwn_iff, resolvesOver_iff]
  constructor
  · rintro ⟨who, hWho, (hCreator | hGrantor) | ⟨p, hp, hCreator | ⟨k, hOwn, hOver, hLent⟩⟩⟩
    · exact .inl ⟨who, hWho, .inl hCreator⟩
    · exact .inl ⟨who, hWho, .inr hGrantor⟩
    · exact .inl ⟨who, hWho, .inl hCreator⟩
    · exact .inr ⟨k, ⟨who, hWho, p, hp, hOwn, hOver⟩, hLent⟩
  · rintro (⟨who, hWho, hDirect⟩ | ⟨k, ⟨who, hWho, p, hp, hOwn, hOver⟩, hLent⟩)
    · exact ⟨who, hWho, .inl hDirect⟩
    · exact ⟨who, hWho, .inr ⟨p, hp, .inr ⟨k, hOwn, hOver, hLent⟩⟩⟩

theorem assignment_iff_fixed :
    Assignment records resolver creator flags ↔ round records resolver creator flags = flags := by
  constructor
  · intro h
    apply Prod.ext
    · funext i
      exact Bool.eq_iff_iff.mpr (rootPass_iff.trans (h.rooted i).symm)
    · funext i
      exact Bool.eq_iff_iff.mpr (revokePass_iff.trans (h.revoked i).symm)
  · intro hFixed
    refine ⟨fun i => ?_, fun i => ?_⟩
    · rw [← rootPass_iff]
      exact Bool.eq_iff_iff.mp (congrFun (congrArg Prod.fst hFixed) i).symm
    · rw [← revokePass_iff]
      exact Bool.eq_iff_iff.mp (congrFun (congrArg Prod.snd hFixed) i).symm

/-- An assignment gives equal records one standing, which follows from the others'. -/
theorem Assignment.lent_iff (h : Assignment records resolver creator flags)
    {i : Fin records.length} :
    Lent flags ⟨records.get i, List.get_mem records i⟩ ↔ flags.1 i = true ∧ flags.2 i = false := by
  constructor
  · rintro ⟨k, hSame, hRooted, hKept⟩
    have hRoot := h.rooted k
    have hRevoke := h.revoked k
    rw [hSame] at hRoot hRevoke
    refine ⟨(h.rooted i).mpr (hRoot.mp hRooted), Bool.eq_false_iff.mpr fun hTrue => ?_⟩
    exact absurd (hRevoke.mpr ((h.revoked i).mp hTrue)) (by rw [hKept]; exact Bool.false_ne_true)
  · exact fun hLent => ⟨i, rfl, hLent⟩

theorem Assignment.model (h : Assignment records resolver creator flags) :
    (provenance resolver creator (members records)).Model (Lent flags) := by
  rintro ⟨r, hMember⟩
  obtain ⟨i, rfl⟩ := List.mem_iff_get.mp hMember
  rw [h.lent_iff, supported_lent_iff, opposed_lent_iff, ← h.rooted, ← h.revoked, Bool.not_eq_true]

theorem Assignment.eq_of_lent (h : Assignment records resolver creator flags)
    (h' : Assignment records resolver creator flags') (hSame : ∀ r, Lent flags r ↔ Lent flags' r) :
    flags = flags' := by
  have hLent : Lent flags = Lent flags' := funext fun r => propext (hSame r)
  have hRooted : ∀ i, flags.1 i = flags'.1 i := by
    intro i
    have hOne := (h.rooted i).trans supported_lent_iff.symm
    have hTwo := (h'.rooted i).trans supported_lent_iff.symm
    rw [hLent] at hOne
    exact Bool.eq_iff_iff.mpr (hOne.trans hTwo.symm)
  have hRevoked : ∀ i, flags.2 i = flags'.2 i := by
    intro i
    have hOne := (h.revoked i).trans opposed_lent_iff.symm
    have hTwo := (h'.revoked i).trans opposed_lent_iff.symm
    rw [hLent] at hOne
    exact Bool.eq_iff_iff.mpr (hOne.trans hTwo.symm)
  exact Prod.ext (funext hRooted) (funext hRevoked)

theorem iterate_of_fixed {fuel k : Nat} (hk : k < fuel)
    (h : round records resolver creator ((round records resolver creator)^[k] flags) =
      (round records resolver creator)^[k] flags) :
    (iterate records resolver creator fuel flags).2 = true := by
  induction fuel generalizing k flags with
  | zero => omega
  | succ fuel ih =>
    rw [iterate]
    split
    next => rfl
    next hMoves =>
      cases k with
      | zero => exact absurd h hMoves
      | succ k =>
        refine ih (k := k) (by omega) ?_
        rwa [← Function.iterate_succ_apply]

end Settling

section Fixed

variable {all : Set AclRecord} {resolver : PathResolver} {creator : ClientId}

theorem standingAt_of_fixed {k : Nat}
    (h : advance all resolver creator (standingAt all resolver creator k) =
      standingAt all resolver creator k) {m : Nat} (hm : k ≤ m) :
    standingAt all resolver creator m = standingAt all resolver creator k := by
  obtain ⟨more, rfl⟩ := Nat.exists_eq_add_of_le' hm
  rw [standingAt, Function.iterate_add_apply]
  exact Function.iterate_fixed h more

/-- Rounds that have settled resolve to the standing they settled on. -/
theorem resolvedAt_of_fixed {k : Nat}
    (h : advance all resolver creator (standingAt all resolver creator k) =
      standingAt all resolver creator k) {n : Nat} (hn : k ≤ 2 * n + 2) :
    resolvedAt all resolver creator n = standingAt all resolver creator k := by
  have hNow := standingAt_of_fixed h hn
  have hNext := standingAt_of_fixed h (m := 2 * n + 2 + 1) (by omega)
  rw [resolvedAt, pinned, hNow, hNext, Set.inter_self]
  have hRooted : rootsOf all resolver creator (standingAt all resolver creator k) =
      (standingAt all resolver creator k).rooted := congrArg Standing.rooted h
  exact Standing.ext (Function.iterate_fixed hRooted (n + 1)) rfl

variable [Finite all] (h : Determined all resolver creator)
include h

/-- Rounds of records that decide every standing are over one round after the last record. -/
theorem Determined.standing_fixed :
    advance all resolver creator (standingAt all resolver creator (Nat.card all + 1)) =
      standingAt all resolver creator (Nat.card all + 1) := by
  have hLends : Lends all (standingAt all resolver creator (Nat.card all + 1)) =
      Lends all (standingAt all resolver creator (Nat.card all)) := by
    rw [lends_standingAt, lends_standingAt]
    exact funext fun r => propext (Network.Determined.stands_iff h (Nat.le_add_right _ 1))
  rw [advance_congr hLends, ← standingAt_succ]

/-- However often a list holds them, its rounds resolve to that standing. -/
theorem Determined.resolvedAt_eq {n : Nat} (hn : Nat.card all ≤ n) :
    resolvedAt all resolver creator n = standingAt all resolver creator (Nat.card all + 1) :=
  resolvedAt_of_fixed h.standing_fixed (by omega)

/-- The standing holds rooted and unrevoked just what the records decide for. -/
theorem Determined.judged {n : Nat} (hn : Nat.card all ≤ n) (r : all) :
    ∃ b, Judged all resolver creator (Nat.card all) r b ∧
      (Lends all (resolvedAt all resolver creator n) r ↔ b = true) := by
  obtain ⟨m, b, hm⟩ := h r
  refine ⟨b, hm.by_card, ?_⟩
  rw [h.resolvedAt_eq hn, lends_standingAt]
  exact hm.by_card.stands_iff (Nat.le_add_right _ 1)

end Fixed

section Records

variable {records records' : List AclRecord} {resolver : PathResolver} {creator : ClientId}
variable {flags flags' : Flags records × Flags records}

theorem assignment_of_settles (h : Settles records resolver creator) :
    Assignment records resolver creator (settle records resolver creator) := by
  have hFixed := round_iterate records resolver creator (2 * records.length + 2)
    (fun _ => false, fun _ => false) h
  rw [assignment_iff_fixed]
  unfold settle
  unfold Settles at h
  generalize iterate records resolver creator (2 * records.length + 2)
    (fun _ => false, fun _ => false) = result at h hFixed ⊢
  obtain ⟨last, converged⟩ := result
  obtain rfl : converged = true := h
  exact hFixed

/-- The evaluator's rounds end before they run out where the records decide every standing. -/
theorem Determined.settles (h : Determined (members records) resolver creator) :
    Settles records resolver creator := by
  have := members_finite records
  have hCard := card_members_le records
  refine iterate_of_fixed (k := Nat.card (members records) + 1) (by omega) ?_
  have hNow := reads_snapshot records resolver creator (Nat.card (members records) + 1)
  have hNext : Reads records (round records resolver creator _) _ := hNow.round
  rw [h.standing_fixed] at hNext
  exact hNext.eq hNow

theorem lends_resolvedAt_iff {i : Fin records.length} :
    Lends (members records) (resolvedAt (members records) resolver creator records.length)
        ⟨records.get i, List.get_mem records i⟩ ↔
      ((settle records resolver creator).1 i && !(settle records resolver creator).2 i) = true := by
  have hReads := reads_settle records resolver creator
  rw [Bool.and_eq_true, Bool.not_eq_true', hReads.rooted, hReads.revoked_eq_false]
  rfl

theorem Determined.wellFounded (h : Determined (members records) resolver creator) :
    WellFoundedAssignment records resolver creator (settle records resolver creator) where
  toAssignment := assignment_of_settles h.settles
  decided i := by
    have := members_finite records
    obtain ⟨b, hJudged, hLends⟩ := h.judged (card_members_le records)
      ⟨records.get i, List.get_mem records i⟩
    have hSame := Bool.eq_iff_iff.mpr (lends_resolvedAt_iff.symm.trans hLends)
    exact ⟨_, hSame ▸ hJudged⟩

theorem WellFoundedAssignment.determined (h : WellFoundedAssignment records resolver creator flags) :
    Determined (members records) resolver creator := by
  rintro ⟨r, hMember⟩
  obtain ⟨i, rfl⟩ := List.mem_iff_get.mp hMember
  obtain ⟨m, hm⟩ := h.decided i
  exact ⟨m, _, hm⟩

theorem WellFoundedAssignment.unique (h : WellFoundedAssignment records resolver creator flags)
    (h' : WellFoundedAssignment records resolver creator flags') : flags = flags' := by
  refine h.toAssignment.eq_of_lent h'.toAssignment ?_
  rintro ⟨r, hMember⟩
  obtain ⟨i, rfl⟩ := List.mem_iff_get.mp hMember
  obtain ⟨m, hm⟩ := h.decided i
  obtain ⟨m', hm'⟩ := h'.decided i
  have hSame := Bool.eq_iff_iff.mp (hm.unique hm')
  rw [h.lent_iff, h'.lent_iff]
  simpa only [Bool.and_eq_true, Bool.not_eq_true'] using hSame

/-- Where provenance runs in no cycle no other assignment agrees with the records' decisions. -/
theorem WellFoundedAssignment.eq_of_acyclic
    (hAcyclic : ∀ r : members records,
      ¬TransGen (fun k r : members records => Delegates resolver k.1 r.1) r r)
    (h : WellFoundedAssignment records resolver creator flags)
    (h' : Assignment records resolver creator flags') : flags' = flags := by
  have := members_finite records
  refine h'.eq_of_lent h.toAssignment ?_
  rintro ⟨r, hMember⟩
  obtain ⟨i, rfl⟩ := List.mem_iff_get.mp hMember
  obtain ⟨m, hm⟩ := h.decided i
  exact (hm.model_iff hAcyclic h'.model).trans (hm.model_iff hAcyclic h.model).symm

theorem members_congr (h : ∀ r, r ∈ records' ↔ r ∈ records) : members records' = members records :=
  Set.ext h

/-- A list of the same records gives the same verdict when its length resolves the
same standing. -/
theorem decide_congr (hMembers : ∀ r, r ∈ records' ↔ r ∈ records)
    (hResolved : resolvedAt (members records) resolver creator records'.length =
      resolvedAt (members records) resolver creator records.length)
    (actor : AclActor) (path : Bytes) (capability : Capability) :
    decideCapabilityWithAuthority records' creator actor path capability resolver =
      decideCapabilityWithAuthority records creator actor path capability resolver := by
  rw [decide_eq_verdict, decide_eq_verdict, members_congr hMembers, hResolved]

/-- The creator makes two owners, who revoke each other, and revokes the first. -/
def cutRevoke : List AclRecord :=
  [⟨rootOwnGrant 0 ⟨0⟩ ⟨1⟩, [⟨2⟩, ⟨0⟩]⟩, ⟨rootOwnGrant 1 ⟨0⟩ ⟨2⟩, [⟨1⟩]⟩]

/-- One owner hands ownership on; the other two and the one it went to each revoke the next. -/
def revokeRing : List AclRecord :=
  [⟨rootOwnGrant 0 ⟨0⟩ ⟨4⟩, []⟩, ⟨rootOwnGrant 1 ⟨4⟩ ⟨1⟩, [⟨3⟩]⟩,
    ⟨rootOwnGrant 2 ⟨0⟩ ⟨2⟩, [⟨1⟩]⟩, ⟨rootOwnGrant 3 ⟨0⟩ ⟨3⟩, [⟨2⟩]⟩]

/-- The creator makes two owners, who revoke each other. -/
def mutualRevoke : List AclRecord :=
  [⟨rootOwnGrant 0 ⟨0⟩ ⟨1⟩, [⟨2⟩]⟩, ⟨rootOwnGrant 1 ⟨0⟩ ⟨2⟩, [⟨1⟩]⟩]

end Records

end CrdtSync.Authority
