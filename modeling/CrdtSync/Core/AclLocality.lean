import CrdtSync.Core.AclOrder
import CrdtSync.Core.KeyPath

/-!
# What a verdict looks at

A record is decided by the ownership over its own path, so the records that govern
a path are decided among themselves, and so is everything but a record that gives
no ownership. A record outside such a part counts for nothing but its count: it
moves the number of rounds, which shows only where the rounds do not settle.
-/

namespace CrdtSync.Authority

open Lib Relation

section Parts

variable (all all' : Set AclRecord) (resolver : PathResolver) (part : Set AclRecord)

/-- Every grant of ownership over `target` is in the part. -/
def Guards (target : Bytes) : Prop :=
  ∀ who r, r ∈ all ∨ r ∈ all' → OwnAllow who r → Spans resolver r target → r ∈ part

/-- Two sets hold the same of a part whose records are decided inside it. -/
structure Shares : Prop where
  same : ∀ r ∈ part, r ∈ all ↔ r ∈ all'
  guards : ∀ r ∈ part, ∀ p, r.tuple.scope.resolve resolver = some p →
    Guards all all' resolver part p

/-- The two standings agree on the part. -/
structure Alike (s s' : Standing) : Prop where
  rooted : ∀ r ∈ part, r ∈ s.rooted ↔ r ∈ s'.rooted
  revoked : ∀ r ∈ part, r ∈ s.revoked ↔ r ∈ s'.revoked

variable {all all' resolver part} {creator : ClientId} {s s' : Standing}

theorem Shares.owns_iff (h : Shares all all' resolver part) (hs : Alike part s s')
    {actor : ClientId} {target : Bytes} (hTarget : Guards all all' resolver part target) :
    Owns all resolver creator s actor target ↔ Owns all' resolver creator s' actor target := by
  refine or_congr_right (exists_congr fun r => ?_)
  constructor
  · rintro ⟨hMember, hOwn, hSpans, hRooted, hKept⟩
    have hPart := hTarget actor r (.inl hMember) hOwn hSpans
    exact ⟨(h.same r hPart).mp hMember, hOwn, hSpans, (hs.rooted r hPart).mp hRooted,
      fun hRevoked => hKept ((hs.revoked r hPart).mpr hRevoked)⟩
  · rintro ⟨hMember, hOwn, hSpans, hRooted, hKept⟩
    have hPart := hTarget actor r (.inr hMember) hOwn hSpans
    exact ⟨(h.same r hPart).mpr hMember, hOwn, hSpans, (hs.rooted r hPart).mpr hRooted,
      fun hRevoked => hKept ((hs.revoked r hPart).mp hRevoked)⟩

theorem Shares.mem_rootsOf_iff (h : Shares all all' resolver part) (hs : Alike part s s')
    {r : AclRecord} (hr : r ∈ part) :
    r ∈ rootsOf all resolver creator s ↔ r ∈ rootsOf all' resolver creator s' :=
  and_congr (h.same r hr) (exists_congr fun p => and_congr_right fun hp =>
    h.owns_iff hs (h.guards r hr p hp))

theorem Shares.mem_revokesOf_iff (h : Shares all all' resolver part) (hs : Alike part s s')
    {r : AclRecord} (hr : r ∈ part) :
    r ∈ revokesOf all resolver creator s ↔ r ∈ revokesOf all' resolver creator s' :=
  and_congr (h.same r hr) (exists_congr fun _ => and_congr_right fun _ => or_congr_right
    (or_congr_right (exists_congr fun p => and_congr_right fun hp =>
      h.owns_iff hs (h.guards r hr p hp))))

theorem Shares.advance (h : Shares all all' resolver part) (hs : Alike part s s') :
    Alike part (advance all resolver creator s) (advance all' resolver creator s') where
  rooted _ hr := h.mem_rootsOf_iff hs hr
  revoked _ hr := h.mem_revokesOf_iff hs hr

theorem Shares.standingAt (h : Shares all all' resolver part) (k : Nat) :
    Alike part (standingAt all resolver creator k) (standingAt all' resolver creator k) := by
  induction k with
  | zero => exact ⟨fun _ _ => .rfl, fun _ _ => .rfl⟩
  | succ k ih =>
    rw [standingAt_succ, standingAt_succ]
    exact h.advance ih

/-- So do the rounds a list of `n` records has, with the ties they leave broken. -/
theorem Shares.resolvedAt (h : Shares all all' resolver part) (n : Nat) :
    Alike part (resolvedAt all resolver creator n) (resolvedAt all' resolver creator n) := by
  have hRevoked : ∀ r ∈ part,
      r ∈ pinned all resolver creator n ↔ r ∈ pinned all' resolver creator n := by
    intro r hr
    exact and_congr ((h.standingAt _).revoked r hr) ((h.standingAt _).revoked r hr)
  have hPasses : ∀ k, Alike part
      ⟨(fun rooted => rootsOf all resolver creator ⟨rooted, pinned all resolver creator n⟩)^[k]
        (Authority.standingAt all resolver creator (2 * n + 2)).rooted, pinned all resolver creator n⟩
      ⟨(fun rooted => rootsOf all' resolver creator ⟨rooted, pinned all' resolver creator n⟩)^[k]
        (Authority.standingAt all' resolver creator (2 * n + 2)).rooted,
        pinned all' resolver creator n⟩ := by
    intro k
    induction k with
    | zero => exact ⟨(h.standingAt _).rooted, hRevoked⟩
    | succ k ih =>
      rw [Function.iterate_succ_apply', Function.iterate_succ_apply']
      exact ⟨fun _ hr => h.mem_rootsOf_iff ih hr, hRevoked⟩
  exact hPasses (n + 1)

theorem Shares.superior_iff (h : Shares all all' resolver part) (hs : Alike part s s')
    {grantPath : Bytes} (hPath : Guards all all' resolver part grantPath) {who up : ClientId} :
    Superior all resolver s grantPath who up ↔ Superior all' resolver s' grantPath who up := by
  refine exists_congr fun r => ?_
  constructor
  · rintro ⟨hMember, ⟨hRooted, hKept⟩, hOwn, hSpans, hUp⟩
    have hPart := hPath who r (.inl hMember) hOwn hSpans
    exact ⟨(h.same r hPart).mp hMember, ⟨(hs.rooted r hPart).mp hRooted,
      fun hRevoked => hKept ((hs.revoked r hPart).mpr hRevoked)⟩, hOwn, hSpans, hUp⟩
  · rintro ⟨hMember, ⟨hRooted, hKept⟩, hOwn, hSpans, hUp⟩
    have hPart := hPath who r (.inr hMember) hOwn hSpans
    exact ⟨(h.same r hPart).mpr hMember, ⟨(hs.rooted r hPart).mpr hRooted,
      fun hRevoked => hKept ((hs.revoked r hPart).mp hRevoked)⟩, hOwn, hSpans, hUp⟩

theorem Shares.atOrAbove_iff (h : Shares all all' resolver part) (hs : Alike part s s')
    {grantPath : Bytes} (hPath : Guards all all' resolver part grantPath)
    {author grantor : ClientId} :
    AtOrAbove all resolver creator s author grantor grantPath ↔
      AtOrAbove all' resolver creator s' author grantor grantPath := by
  have hSuperior : Superior all resolver s grantPath = Superior all' resolver s' grantPath := by
    funext who up
    exact propext (h.superior_iff hs hPath)
  rw [AtOrAbove, AtOrAbove, hSuperior]

end Parts

section Settled

variable {records : List AclRecord} {resolver : PathResolver} {creator : ClientId}

theorem standingAt_subset (all : Set AclRecord) (k : Nat) :
    (standingAt all resolver creator k).rooted ⊆ all ∧
      (standingAt all resolver creator k).revoked ⊆ all := by
  cases k with
  | zero => exact ⟨Set.empty_subset _, Set.empty_subset _⟩
  | succ k =>
    rw [standingAt_succ]
    exact ⟨fun _ hr => hr.1, fun _ hr => hr.1⟩

/-- Rounds of the list that settle are rounds of the set that settle. -/
theorem standingAt_fixed_of_settles (h : Settles records resolver creator) :
    advance (members records) resolver creator
        (standingAt (members records) resolver creator (2 * records.length + 2)) =
      standingAt (members records) resolver creator (2 * records.length + 2) := by
  have hFixed := round_iterate records resolver creator (2 * records.length + 2)
    (fun _ => false, fun _ => false) h
  rw [iterate_eq_rounds] at hFixed
  change round records resolver creator (snapshot records resolver creator _) =
    snapshot records resolver creator _ at hFixed
  have hNow := reads_snapshot records resolver creator (2 * records.length + 2)
  have hNext : Reads records (Authority.round records resolver creator _) _ := hNow.round
  rw [hFixed] at hNext
  rw [← standingAt_succ] at hNext ⊢
  have hRooted (k : Nat) : (standingAt (members records) resolver creator k).rooted ⊆ _ ∧ _ :=
    standingAt_subset (members records) k
  refine Standing.ext (Set.ext fun r => ?_) (Set.ext fun r => ?_)
  · by_cases hMember : r ∈ members records
    · obtain ⟨i, rfl⟩ := List.mem_iff_get.mp hMember
      rw [← hNext.rooted, hNow.rooted]
    · exact iff_of_false (fun hr => hMember ((hRooted _).1 hr)) fun hr => hMember ((hRooted _).1 hr)
  · by_cases hMember : r ∈ members records
    · obtain ⟨i, rfl⟩ := List.mem_iff_get.mp hMember
      rw [← hNext.revoked, hNow.revoked]
    · exact iff_of_false (fun hr => hMember ((hRooted _).2 hr)) fun hr => hMember ((hRooted _).2 hr)

/-- Settled rounds resolve to the same standing however many records are counted. -/
theorem resolvedAt_of_settles (h : Settles records resolver creator) {n : Nat}
    (hn : records.length ≤ n) : resolvedAt (members records) resolver creator n =
      resolvedAt (members records) resolver creator records.length := by
  have hFixed := standingAt_fixed_of_settles h
  rw [resolvedAt_of_fixed hFixed (by omega), resolvedAt_of_fixed hFixed le_rfl]

end Settled

section Governing

variable {all all' part : Set AclRecord} {resolver : PathResolver} {creator : ClientId}
variable {s s' : Standing} {path : Bytes}

theorem governs_iff {scope target : Bytes} : governs scope target = true ↔ scope <+: target :=
  List.isPrefixOf_iff_prefix

theorem governs_trans {p q target : Bytes} (hp : governs p q = true) (hq : governs q target = true) :
    governs p target = true :=
  governs_iff.mpr ((governs_iff.mp hp).trans (governs_iff.mp hq))

theorem Spans.of_governs {r : AclRecord} {p : Bytes} (h : Spans resolver r p)
    (hp : governs p path = true) : Spans resolver r path := by
  obtain ⟨scope, hScope, hGoverns⟩ := h
  exact ⟨scope, hScope, governs_trans hGoverns hp⟩

def governing (resolver : PathResolver) (path : Bytes) : Set AclRecord := {r | Spans resolver r path}

theorem guards_governing {p : Bytes} (hp : governs p path = true) :
    Guards all all' resolver (governing resolver path) p :=
  fun _ _ _ _ hSpans => hSpans.of_governs hp

theorem shares_governing (h : ∀ r, Spans resolver r path → (r ∈ all ↔ r ∈ all')) :
    Shares all all' resolver (governing resolver path) where
  same := h
  guards r hr p hp := by
    obtain ⟨scope, hScope, hGoverns⟩ := hr
    obtain rfl : scope = p := Option.some.inj (hScope.symm.trans hp)
    exact guards_governing hGoverns

theorem Alike.deniesAt_iff (hs : Alike part s s') {actor : AclActor} {r : AclRecord}
    (hr : r ∈ part) : DeniesAt resolver s actor path r ↔ DeniesAt resolver s' actor path r :=
  and_congr_left fun _ => not_congr (hs.revoked r hr)

variable (h : Shares all all' resolver (governing resolver path))
  (hs : Alike (governing resolver path) s s')
include h hs

theorem Shares.suppressed_iff {actor : AclActor} {capability : Capability} {granter : ClientId}
    {granterPath : Bytes} (hGoverns : governs granterPath path = true) {viaOwn : Bool} :
    Suppressed all resolver creator s actor path capability granter granterPath viaOwn ↔
      Suppressed all' resolver creator s' actor path capability granter granterPath viaOwn := by
  refine exists_congr fun r => ?_
  simp only [h.atOrAbove_iff hs (guards_governing hGoverns)]
  constructor
  · rintro ⟨hMember, hDenies, hRest⟩
    have hPart : r ∈ governing resolver path := hDenies.2.2.2
    exact ⟨(h.same r hPart).mp hMember, (hs.deniesAt_iff hPart).mp hDenies, hRest⟩
  · rintro ⟨hMember, hDenies, hRest⟩
    have hPart : r ∈ governing resolver path := hDenies.2.2.2
    exact ⟨(h.same r hPart).mpr hMember, (hs.deniesAt_iff hPart).mpr hDenies, hRest⟩

theorem Shares.stands_iff {actor : AclActor} {capability : Capability} {r : AclRecord}
    (hr : r ∈ governing resolver path) :
    Stands all resolver creator s actor path capability r ↔
      Stands all' resolver creator s' actor path capability r := by
  refine and_congr (not_congr (hs.revoked r hr)) (and_congr (hs.rooted r hr)
    (and_congr_right fun _ => exists_congr fun p => and_congr_right fun _ => and_congr_right fun _ =>
      and_congr_right fun hGoverns => ?_))
  simp only [h.suppressed_iff hs hGoverns]

/-- A verdict is read off the records that govern its path. -/
theorem Shares.verdict_eq (actor : AclActor) (capability : Capability) :
    verdict all resolver creator s actor path capability =
      verdict all' resolver creator s' actor path capability := by
  have hRoot : governs [] path = true := governs_iff.mpr List.nil_prefix
  have hAllows : Allows all resolver creator s actor path capability ↔
      Allows all' resolver creator s' actor path capability := by
    rw [Allows, Allows, h.suppressed_iff hs hRoot]
    refine or_congr_right (exists_congr fun r => ?_)
    constructor
    · rintro ⟨hMember, hStands⟩
      obtain ⟨p, hp, -, hGoverns, -⟩ := hStands.2.2.2
      have hPart : r ∈ governing resolver path := ⟨p, hp, hGoverns⟩
      exact ⟨(h.same r hPart).mp hMember, (h.stands_iff hs hPart).mp hStands⟩
    · rintro ⟨hMember, hStands⟩
      obtain ⟨p, hp, -, hGoverns, -⟩ := hStands.2.2.2
      have hPart : r ∈ governing resolver path := ⟨p, hp, hGoverns⟩
      exact ⟨(h.same r hPart).mpr hMember, (h.stands_iff hs hPart).mpr hStands⟩
  have hFloors : Floors all resolver s actor path capability ↔
      Floors all' resolver s' actor path capability := by
    refine exists_congr fun r => ?_
    constructor
    · rintro ⟨hMember, hDenies, hGrant⟩
      have hPart : r ∈ governing resolver path := hDenies.2.2.2
      exact ⟨(h.same r hPart).mp hMember, (hs.deniesAt_iff hPart).mp hDenies, hGrant⟩
    · rintro ⟨hMember, hDenies, hGrant⟩
      have hPart : r ∈ governing resolver path := hDenies.2.2.2
      exact ⟨(h.same r hPart).mpr hMember, (hs.deniesAt_iff hPart).mpr hDenies, hGrant⟩
  classical
  rw [verdict, verdict]
  exact if_congr hAllows rfl (if_congr hFloors rfl rfl)

end Governing

section Scopes

open KeyPath

variable {resolver : PathResolver} {creator : ClientId}

/-- A record that does not govern the path counts for nothing but its count. -/
theorem decide_of_not_spans {before after : List AclRecord} {r : AclRecord} {path : Bytes}
    (hr : ¬Spans resolver r path) (actor : AclActor) (capability : Capability) :
    decideCapabilityWithAuthority (before ++ r :: after) creator actor path capability resolver =
      verdict (members (before ++ after)) resolver creator
        (resolvedAt (members (before ++ after)) resolver creator ((before ++ after).length + 1)) actor
        path capability := by
  have hLength : (before ++ r :: after).length = (before ++ after).length + 1 := by
    rw [List.length_append, List.length_append, List.length_cons]
    omega
  have hShares : Shares (members (before ++ r :: after)) (members (before ++ after)) resolver
      (governing resolver path) := by
    refine shares_governing fun other hOther => ?_
    have hApart : other ≠ r := by
      rintro rfl
      exact hr hOther
    simp [members, hApart]
  rw [decide_eq_verdict, hLength]
  exact hShares.verdict_eq (hShares.resolvedAt _) actor capability

theorem decide_nil (actor : AclActor) (path : Bytes) (capability : Capability)
    (hActor : actor.id ≠ creator) :
    decideCapabilityWithAuthority [] creator actor path capability resolver = .abstain := by
  simp [decide_eq_verdict, verdict, Allows, Floors, members, hActor]

def openRead (creator : ClientId) (b : Bytes) : AclRecord :=
  ⟨⟨.fromBytes 0, .anyone, .capability .read, .allow, .path b, creator⟩, []⟩

theorem decide_openRead {b path : Bytes} (h : governs b path = true) (actor : AclActor) :
    decideCapabilityWithAuthority [openRead creator b] creator actor path .read resolver = .allow := by
  have hMember : openRead creator b ∈ members [openRead creator b] := List.mem_singleton.mpr rfl
  have hAlone : ∀ r ∈ members [openRead creator b], r = openRead creator b :=
    fun _ => List.mem_singleton.mp
  rw [decide_eq_verdict, verdict, if_pos]
  refine .inr ⟨openRead creator b, hMember, ?_, ?_, rfl, b, rfl, rfl, h, .read, rfl, .inr rfl, ?_⟩
  · rintro ⟨hRevoked, -⟩
    rw [standingAt_succ] at hRevoked
    obtain ⟨-, who, hWho, -⟩ := hRevoked
    cases hWho
  · rw [resolvedAt, List.length_singleton, Function.iterate_succ_apply']
    exact ⟨hMember, b, rfl, .inl rfl⟩
  · rintro ⟨r, hr, hDenies, -⟩
    obtain rfl := hAlone r hr
    cases hDenies.2.1

theorem exists_other (creator : ClientId) : ∃ id : ClientId, id ≠ creator := by
  by_cases hZero : creator = ⟨0⟩
  · exact ⟨⟨1⟩, hZero ▸ by decide⟩
  · exact ⟨⟨0⟩, Ne.symm hZero⟩

/-- Path scopes are told apart by their keys, but a scope that is no path at all still
governs whatever its bytes begin. It affects no verdict at just the paths they do not
begin, where it counts for nothing but its count, which settled rounds do not see. -/
theorem path_scopes (resolver : PathResolver) (creator : ClientId) :
    (∀ p q b c, encodePath p = some b → encodePath q = some c → (governs b c = true ↔ p <+: q)) ∧
    (∀ p b, encodePath p = some b → parsePath b = some p) ∧
    (∀ b, parsePath b ≠ none → ∃! p, encodePath p = some b) ∧
    ∀ b, parsePath b = none →
      (∃ keys c, encodePath keys = some c ∧ governs b c = true) ∧
      ∀ path, (governs b path = false ↔
          ∀ before r after, r.tuple.scope = .path b → Settles (before ++ after) resolver creator →
            ∀ actor capability,
              decideCapabilityWithAuthority (before ++ r :: after) creator actor path capability
                  resolver =
                decideCapabilityWithAuthority (before ++ after) creator actor path capability
                  resolver) ∧
        (governs b path = false → ∀ before r after, r.tuple.scope = .path b → ∀ actor capability,
          decideCapabilityWithAuthority (before ++ r :: after) creator actor path capability
              resolver =
            verdict (members (before ++ after)) resolver creator
              (resolvedAt (members (before ++ after)) resolver creator
                ((before ++ after).length + 1)) actor path capability) := by
  have hOutside : ∀ {b path : Bytes} {r : AclRecord}, governs b path = false →
      r.tuple.scope = .path b → ¬Spans resolver r path := by
    rintro b path r hApart hScope ⟨p, hp, hGoverns⟩
    rw [hScope] at hp
    obtain rfl : b = p := Option.some.inj hp
    rw [hApart] at hGoverns
    cases hGoverns
  refine ⟨?_, ?_, ?_, ?_⟩
  · intro p q b c hp hq
    rw [governs_iff, encodePath_prefix_iff hp hq]
  · exact fun p b hp => parsePath_eq_some_iff.mpr hp
  · intro b hb
    obtain ⟨p, hp⟩ := Option.ne_none_iff_exists'.mp hb
    refine ⟨p, parsePath_eq_some_iff.mp hp, fun q hq => ?_⟩
    have hParse := parsePath_eq_some_iff.mpr hq
    rw [hp] at hParse
    exact (Option.some.inj hParse).symm
  · intro b hb
    obtain ⟨keys, c, hKeys, hBegins⟩ := exists_path_of_parsePath_eq_none hb
    refine ⟨⟨keys, c, hKeys, governs_iff.mpr hBegins⟩, fun path => ⟨⟨?_, ?_⟩, ?_⟩⟩
    · intro hApart before r after hScope hSettles actor capability
      rw [decide_of_not_spans (hOutside hApart hScope), decide_eq_verdict,
        resolvedAt_of_settles hSettles (Nat.le_succ _)]
    · intro hSame
      by_contra hGoverns
      rw [Bool.not_eq_false] at hGoverns
      obtain ⟨id, hId⟩ := exists_other creator
      have hNone := hSame [] (openRead creator b) [] rfl (by unfold Settles; rfl)
        ⟨id, [], [], true⟩ .read
      rw [List.nil_append, List.nil_append, decide_openRead hGoverns, decide_nil _ _ _ hId] at hNone
      cases hNone
    · intro hApart before r after hScope actor capability
      exact decide_of_not_spans (hOutside hApart hScope) actor capability

/-- The bytes `[2]` are no path and do not begin the path of the key `a`. -/
theorem path_scopes_beside :
    decideCapabilityWithAuthority [openRead ⟨0⟩ [], openRead ⟨0⟩ [2]] ⟨0⟩ ⟨⟨1⟩, [], [], true⟩
        [1, 0, 0, 0, 97] .read (fun _ => none) =
      decideCapabilityWithAuthority [openRead ⟨0⟩ []] ⟨0⟩ ⟨⟨1⟩, [], [], true⟩ [1, 0, 0, 0, 97] .read
        (fun _ => none) :=
  (((path_scopes (fun _ => none) ⟨0⟩).2.2.2 [2] (by decide)).2 [1, 0, 0, 0, 97]).1.mp (by decide)
    [openRead ⟨0⟩ []] (openRead ⟨0⟩ [2]) [] rfl (by unfold Settles; decide +kernel)
    ⟨⟨1⟩, [], [], true⟩ .read

/-- A length field cut after its first byte governs the path of the key `a`. -/
theorem cut_scope_governs :
    KeyPath.parsePath [1] = none ∧ KeyPath.encodePath [[97]] = some [1, 0, 0, 0, 97] ∧
    decideCapabilityWithAuthority [openRead ⟨0⟩ [1]] ⟨0⟩ ⟨⟨1⟩, [], [], true⟩ [1, 0, 0, 0, 97] .read
        (fun _ => none) = .allow ∧
    decideCapabilityWithAuthority [] ⟨0⟩ ⟨⟨1⟩, [], [], true⟩ [1, 0, 0, 0, 97] .read
        (fun _ => none) = .abstain := by
  decide +kernel

end Scopes

end CrdtSync.Authority
