import CrdtSync.Core.AclLocality

/-!
# Denies without authority

A deny confers no ownership, so no round reads it and it decides nothing but itself.
One whose author is at or above no granter of an allow it would suppress takes no
allow away. It still floors a request nothing allows, which needs no authority.
-/

namespace CrdtSync.Authority

open Lib Relation

section Denies

variable (all : Set AclRecord) (resolver : PathResolver) (creator : ClientId) (s : Standing)
variable (actor : AclActor) (path : Bytes) (capability : Capability)

/-- An allow that stands for the request: its granter, the path it was granted on and
whether it allows by ownership. The creator's own ownership is granted on the root. -/
def AllowsBy (granter : ClientId) (granterPath : Bytes) (viaOwn : Bool) : Prop :=
  (actor.id = creator ∧
    ¬Suppressed all resolver creator s actor path capability creator [] true ∧
      granter = creator ∧ granterPath = [] ∧ viaOwn = true) ∨
  ∃ r ∈ all, Stands all resolver creator s actor path capability r ∧ granter = r.tuple.grantor ∧
    r.tuple.scope.resolve resolver = some granterPath ∧
      viaOwn = (r.tuple.grant == .capability .own)

/-- The deny covers the request and bounds an allow of that kind. -/
def Bears (d : AclRecord) (viaOwn : Bool) : Prop :=
  d.tuple.subject.matches actor = true ∧ Spans resolver d path ∧
    ∃ dc, d.tuple.grant = .capability dc ∧ (dc = capability ∨ dc = .own ∧ viaOwn = true)

/-- The author is at or above no granter of an allow the deny would suppress. -/
def Unauthorized (d : AclRecord) : Prop :=
  ∀ granter granterPath viaOwn,
    AllowsBy all resolver creator s actor path capability granter granterPath viaOwn →
      Bears resolver actor path capability d viaOwn →
        ¬AtOrAbove all resolver creator s d.tuple.grantor granter granterPath

/-- Nobody who has tombstoned the record had the authority to. -/
def Unrevoked (d : AclRecord) : Prop :=
  ∀ who ∈ d.revokedBy, who ≠ creator ∧ who ≠ d.tuple.grantor ∧
    ∀ p, d.tuple.scope.resolve resolver = some p → ¬Owns all resolver creator s who p

/-- A deny of the very capability, in force and covering the request. -/
def FloorsAlone (d : AclRecord) : Prop :=
  Unrevoked all resolver creator s d ∧ d.tuple.subject.matches actor = true ∧
    Spans resolver d path ∧ d.tuple.grant = .capability capability

end Denies

section Adding

variable {resolver : PathResolver} {creator : ClientId} {all : Set AclRecord} {d : AclRecord}

theorem shares_without (hDeny : d.tuple.effect = .deny) (hNew : d ∉ all) :
    Shares all (insert d all) resolver {d}ᶜ where
  same r hr := by
    have hApart : r ≠ d := hr
    rw [Set.mem_insert_iff, or_iff_right hApart]
  guards r _ p _ := by
    rintro who k - ⟨-, -, hAllow⟩ - rfl
    rw [hDeny] at hAllow
    cases hAllow

theorem guards_without (hDeny : d.tuple.effect = .deny) (target : Bytes) :
    Guards all (insert d all) resolver {d}ᶜ target := by
  rintro who k - ⟨-, -, hAllow⟩ - rfl
  rw [hDeny] at hAllow
  cases hAllow

variable {s s' : Standing} {actor : AclActor} {path : Bytes} {capability : Capability}
variable (hDeny : d.tuple.effect = .deny) (hNew : d ∉ all) (hs : Alike {d}ᶜ s s')
include hDeny hNew hs

theorem suppressed_insert_iff {granter : ClientId} {granterPath : Bytes} {viaOwn : Bool} :
    Suppressed (insert d all) resolver creator s' actor path capability granter granterPath viaOwn ↔
      Suppressed all resolver creator s actor path capability granter granterPath viaOwn ∨
        d ∉ s'.revoked ∧ Bears resolver actor path capability d viaOwn ∧
          AtOrAbove all resolver creator s d.tuple.grantor granter granterPath := by
  have hAbove : ∀ author, AtOrAbove (insert d all) resolver creator s' author granter granterPath ↔
      AtOrAbove all resolver creator s author granter granterPath := fun author =>
    ((shares_without hDeny hNew).atOrAbove_iff hs (guards_without hDeny granterPath)).symm
  constructor
  · rintro ⟨r, hMember, hDenies, dc, hGrant, hRelevant, hAuthor⟩
    rw [hAbove] at hAuthor
    obtain rfl | hOld := hMember
    · exact .inr ⟨hDenies.1, ⟨hDenies.2.2.1, hDenies.2.2.2, dc, hGrant, hRelevant⟩, hAuthor⟩
    · have hPart : r ∈ ({d}ᶜ : Set AclRecord) := fun hSame => hNew (hSame ▸ hOld)
      exact .inl ⟨r, hOld, (hs.deniesAt_iff hPart).mpr hDenies, dc, hGrant, hRelevant, hAuthor⟩
  · rintro (⟨r, hOld, hDenies, dc, hGrant, hRelevant, hAuthor⟩ |
      ⟨hKept, ⟨hSubject, hSpans, dc, hGrant, hRelevant⟩, hAuthor⟩)
    · have hPart : r ∈ ({d}ᶜ : Set AclRecord) := fun hSame => hNew (hSame ▸ hOld)
      exact ⟨r, .inr hOld, (hs.deniesAt_iff hPart).mp hDenies, dc, hGrant, hRelevant,
        (hAbove _).mpr hAuthor⟩
    · exact ⟨d, .inl rfl, ⟨hKept, hDeny, hSubject, hSpans⟩, dc, hGrant, hRelevant,
        (hAbove _).mpr hAuthor⟩

theorem stands_of_insert {r : AclRecord} (hr : r ∈ all)
    (h : Stands (insert d all) resolver creator s' actor path capability r) :
    Stands all resolver creator s actor path capability r := by
  have hPart : r ∈ ({d}ᶜ : Set AclRecord) := fun hSame => hNew (hSame ▸ hr)
  obtain ⟨hKept, hRooted, hAllow, p, hp, hSubject, hGoverns, c, hGrant, hConfers, hFree⟩ := h
  rw [suppressed_insert_iff hDeny hNew hs, not_or] at hFree
  exact ⟨fun hRevoked => hKept ((hs.revoked r hPart).mp hRevoked), (hs.rooted r hPart).mpr hRooted,
    hAllow, p, hp, hSubject, hGoverns, c, hGrant, hConfers, hFree.1⟩

theorem stands_insert {r : AclRecord} (hr : r ∈ all)
    (h : Stands all resolver creator s actor path capability r)
    (hd : Unauthorized all resolver creator s actor path capability d) :
    Stands (insert d all) resolver creator s' actor path capability r := by
  have hPart : r ∈ ({d}ᶜ : Set AclRecord) := fun hSame => hNew (hSame ▸ hr)
  have hAll := h
  obtain ⟨hKept, hRooted, hAllow, p, hp, hSubject, hGoverns, c, hGrant, hConfers, hFree⟩ := h
  refine ⟨fun hRevoked => hKept ((hs.revoked r hPart).mpr hRevoked), (hs.rooted r hPart).mp hRooted,
    hAllow, p, hp, hSubject, hGoverns, c, hGrant, hConfers, ?_⟩
  rw [suppressed_insert_iff hDeny hNew hs]
  rintro (hOld | ⟨-, hBears, hAbove⟩)
  · exact hFree hOld
  · have hOwn : (c == .own) = (r.tuple.grant == .capability .own) := by
      rw [hGrant]
      cases c <;> rfl
    exact hd r.tuple.grantor p (c == .own) (.inr ⟨r, hr, hAll, rfl, hp, hOwn⟩) hBears hAbove

theorem allows_insert_iff (hd : Unauthorized all resolver creator s actor path capability d) :
    Allows (insert d all) resolver creator s' actor path capability ↔
      Allows all resolver creator s actor path capability := by
  constructor
  · rintro (⟨hActor, hFree⟩ | ⟨r, hMember, hStands⟩)
    · rw [suppressed_insert_iff hDeny hNew hs, not_or] at hFree
      exact .inl ⟨hActor, hFree.1⟩
    · obtain rfl | hOld := hMember
      · have hAllow := hStands.2.2.1
        rw [hDeny] at hAllow
        cases hAllow
      · exact .inr ⟨r, hOld, stands_of_insert hDeny hNew hs hOld hStands⟩
  · rintro (⟨hActor, hFree⟩ | ⟨r, hOld, hStands⟩)
    · refine .inl ⟨hActor, ?_⟩
      rw [suppressed_insert_iff hDeny hNew hs]
      rintro (hOld | ⟨-, hBears, hAbove⟩)
      · exact hFree hOld
      · exact hd creator [] true (.inl ⟨hActor, hFree, rfl, rfl, rfl⟩) hBears hAbove
    · exact .inr ⟨r, .inr hOld, stands_insert hDeny hNew hs hOld hStands hd⟩

theorem floors_insert_iff : Floors (insert d all) resolver s' actor path capability ↔
    Floors all resolver s actor path capability ∨ d ∉ s'.revoked ∧
      d.tuple.subject.matches actor = true ∧ Spans resolver d path ∧
        d.tuple.grant = .capability capability := by
  constructor
  · rintro ⟨r, rfl | hOld, hDenies, hGrant⟩
    · exact .inr ⟨hDenies.1, hDenies.2.2.1, hDenies.2.2.2, hGrant⟩
    · have hPart : r ∈ ({d}ᶜ : Set AclRecord) := fun hSame => hNew (hSame ▸ hOld)
      exact .inl ⟨r, hOld, (hs.deniesAt_iff hPart).mpr hDenies, hGrant⟩
  · rintro (⟨r, hOld, hDenies, hGrant⟩ | ⟨hKept, hSubject, hSpans, hGrant⟩)
    · have hPart : r ∈ ({d}ᶜ : Set AclRecord) := fun hSame => hNew (hSame ▸ hOld)
      exact ⟨r, .inr hOld, (hs.deniesAt_iff hPart).mp hDenies, hGrant⟩
    · exact ⟨d, .inl rfl, ⟨hKept, hDeny, hSubject, hSpans⟩, hGrant⟩

end Adding

section Settled

variable {resolver : PathResolver} {creator : ClientId} {records : List AclRecord} {d : AclRecord}

/-- A deny is revoked by whoever the settled standing of the others gives the authority. -/
theorem mem_revoked_insert_iff (hDeny : d.tuple.effect = .deny) (hNew : d ∉ members records)
    (hSettles : Settles records resolver creator) :
    d ∈ (resolvedAt (insert d (members records)) resolver creator (records.length + 1)).revoked ↔
      ¬Unrevoked (members records) resolver creator
        (resolvedAt (members records) resolver creator records.length) d := by
  have hFixed := standingAt_fixed_of_settles hSettles
  have hRound : ∀ k, 2 * records.length + 2 ≤ k →
      (d ∈ (standingAt (insert d (members records)) resolver creator (k + 1)).revoked ↔
        ¬Unrevoked (members records) resolver creator
          (resolvedAt (members records) resolver creator records.length) d) := by
    intro k hk
    have hShares : Shares (members records) (insert d (members records)) resolver {d}ᶜ :=
      shares_without hDeny hNew
    have hAlike : Alike _ (standingAt (members records) resolver creator k) _ := hShares.standingAt k
    rw [standingAt_of_fixed hFixed hk] at hAlike
    rw [standingAt_succ, resolvedAt_of_fixed hFixed le_rfl]
    have hOwns : ∀ who p, Owns (insert d (members records)) resolver creator
        (standingAt (insert d (members records)) resolver creator k) who p ↔
          Owns (members records) resolver creator
            (standingAt (members records) resolver creator (2 * records.length + 2)) who p :=
      fun who p => ((shares_without hDeny hNew).owns_iff hAlike (guards_without hDeny p)).symm
    change (d ∈ insert d (members records) ∧ _) ↔ _
    simp only [hOwns, Unrevoked, Set.mem_insert_iff, true_or, true_and, not_forall, not_and_or,
      not_not, exists_prop]
  change (_ ∧ _) ↔ _
  rw [hRound _ (by omega), hRound _ (by omega), and_self]

/-- Adding an unauthorized deny turns an abstention into a deny where it floors the
request, and changes no other verdict; so removing one undoes just that. -/
theorem decide_with_deny (resolver : PathResolver) (creator : ClientId)
    (before after : List AclRecord) (d : AclRecord) (hDeny : d.tuple.effect = .deny)
    (hSettles : Settles (before ++ after) resolver creator) (actor : AclActor) (path : Bytes)
    (capability : Capability)
    (hd : Unauthorized (members (before ++ after)) resolver creator
      (resolvedAt (members (before ++ after)) resolver creator (before ++ after).length) actor path
      capability d) :
    (decideCapabilityWithAuthority (before ++ after) creator actor path capability resolver =
        .abstain →
      FloorsAlone (members (before ++ after)) resolver creator
          (resolvedAt (members (before ++ after)) resolver creator (before ++ after).length) actor path
          capability d →
        decideCapabilityWithAuthority (before ++ d :: after) creator actor path capability resolver =
          .deny) ∧
    (¬(decideCapabilityWithAuthority (before ++ after) creator actor path capability resolver =
          .abstain ∧
        FloorsAlone (members (before ++ after)) resolver creator
          (resolvedAt (members (before ++ after)) resolver creator (before ++ after).length) actor path
          capability d) →
      decideCapabilityWithAuthority (before ++ d :: after) creator actor path capability resolver =
        decideCapabilityWithAuthority (before ++ after) creator actor path capability resolver) := by
  have hLength : (before ++ d :: after).length = (before ++ after).length + 1 := by
    rw [List.length_append, List.length_append, List.length_cons]
    omega
  have hMembers : members (before ++ d :: after) = insert d (members (before ++ after)) := by
    ext r
    simp [members, or_left_comm]
  have hCount := resolvedAt_of_settles hSettles (Nat.le_succ (before ++ after).length)
  have hFixed := standingAt_fixed_of_settles hSettles
  rw [decide_eq_verdict, decide_eq_verdict, hLength, hMembers]
  by_cases hNew : d ∈ members (before ++ after)
  · -- A record held already is only counted once more.
    rw [Set.insert_eq_of_mem hNew, hCount]
    refine ⟨fun hAbstain hFloors => ?_, fun _ => rfl⟩
    obtain ⟨hLive, hSubject, hSpans, hGrant⟩ := hFloors
    have hKept : d ∉ (resolvedAt (members (before ++ after)) resolver creator
        (before ++ after).length).revoked := by
      rw [resolvedAt_of_fixed hFixed le_rfl] at hLive ⊢
      rw [← hFixed]
      rintro ⟨-, who, hWho, hCreator | hGrantor | ⟨p, hp, hOwns⟩⟩
      · exact (hLive who hWho).1 hCreator
      · exact (hLive who hWho).2.1 hGrantor
      · exact (hLive who hWho).2.2 p hp hOwns
    have hFloored : Floors (members (before ++ after)) resolver
        (resolvedAt (members (before ++ after)) resolver creator (before ++ after).length) actor path
        capability := ⟨d, hNew, ⟨hKept, hDeny, hSubject, hSpans⟩, hGrant⟩
    rw [verdict, if_pos hFloored] at hAbstain
    split at hAbstain
    · cases hAbstain
    · cases hAbstain
  · have hShares : Shares (members (before ++ after)) (insert d (members (before ++ after)))
        resolver {d}ᶜ := shares_without hDeny hNew
    have hAlike : Alike _ (resolvedAt (members (before ++ after)) resolver creator _) _ :=
      hShares.resolvedAt ((before ++ after).length + 1)
    rw [hCount] at hAlike
    have hAllows := allows_insert_iff hDeny hNew hAlike hd
    have hFloors : Floors _ resolver _ actor path capability ↔ _ :=
      floors_insert_iff hDeny hNew hAlike
    rw [mem_revoked_insert_iff hDeny hNew hSettles, not_not] at hFloors
    change _ ↔ _ ∨ FloorsAlone _ _ _ _ _ _ _ _ at hFloors
    classical
    rw [verdict, verdict, if_congr hAllows rfl (if_congr hFloors rfl rfl)]
    by_cases hAllowed : Allows (members (before ++ after)) resolver creator
        (resolvedAt (members (before ++ after)) resolver creator (before ++ after).length) actor path
        capability
    · rw [if_pos hAllowed, if_pos hAllowed]
      exact ⟨fun hAbstain => (by cases hAbstain), fun _ => rfl⟩
    · rw [if_neg hAllowed, if_neg hAllowed]
      by_cases hFloored : Floors (members (before ++ after)) resolver
          (resolvedAt (members (before ++ after)) resolver creator (before ++ after).length) actor path
          capability
      · rw [if_pos hFloored, if_pos (.inl hFloored)]
        exact ⟨fun hAbstain => (by cases hAbstain), fun _ => rfl⟩
      · rw [if_neg hFloored]
        refine ⟨fun _ hAlone => if_pos (.inr hAlone), fun hNot => if_neg ?_⟩
        exact not_or.mpr ⟨hFloored, fun hAlone => hNot ⟨rfl, hAlone⟩⟩

/-- The creator lets everybody read, and somebody it gave nothing denies it. -/
theorem decide_with_stray_deny :
    decideCapabilityWithAuthority
        [openRead ⟨0⟩ [], ⟨⟨.fromBytes 1, .anyone, .capability .read, .deny, .path [], ⟨2⟩⟩, []⟩] ⟨0⟩
        ⟨⟨1⟩, [], [], true⟩ [] .read (fun _ => none) =
      decideCapabilityWithAuthority [openRead ⟨0⟩ []] ⟨0⟩ ⟨⟨1⟩, [], [], true⟩ [] .read
        (fun _ => none) := by
  refine (decide_with_deny (fun _ => none) ⟨0⟩ [openRead ⟨0⟩ []] [] _ rfl
    (by unfold Settles; decide +kernel) ⟨⟨1⟩, [], [], true⟩ [] .read ?_).2 ?_
  · rintro granter p viaOwn (⟨hActor, -⟩ | ⟨r, hr, -, rfl, hp, -⟩) - hAbove
    · exact absurd hActor (by decide)
    · obtain rfl := List.mem_singleton.mp hr
      obtain hCreator | hAuthor | hChain := hAbove
      · exact absurd hCreator (by decide)
      · exact absurd hAuthor (by decide)
      · obtain ⟨who, -, r, hr, -, ⟨hSubject, -⟩, -⟩ := TransGen.tail'_iff.mp hChain
        obtain rfl := List.mem_singleton.mp hr
        cases hSubject
  · rintro ⟨hAbstain, -⟩
    revert hAbstain
    decide +kernel

/-- A deny that suppresses nothing floors a request nothing allows, and among grants
that never settle one record more turns an allow into an abstention. -/
theorem stray_deny_changes_verdict :
    (decideCapabilityWithAuthority
          [⟨⟨.fromBytes 1, .anyone, .capability .read, .deny, .path [], ⟨2⟩⟩, []⟩] ⟨0⟩
          ⟨⟨1⟩, [], [], true⟩ [] .read (fun _ => none) = .deny ∧
      decideCapabilityWithAuthority [] ⟨0⟩ ⟨⟨1⟩, [], [], true⟩ [] .read (fun _ => none) = .abstain) ∧
    decideCapabilityWithAuthority revokeRing ⟨0⟩ ⟨⟨1⟩, [], [], true⟩ [] .write (fun _ => none) =
        .allow ∧
      decideCapabilityWithAuthority
        (⟨⟨.fromBytes 9, .anyone, .capability .read, .deny, .path [], ⟨9⟩⟩, []⟩ :: revokeRing) ⟨0⟩
        ⟨⟨1⟩, [], [], true⟩ [] .write (fun _ => none) = .abstain := by
  decide +kernel

end Settled

end CrdtSync.Authority
