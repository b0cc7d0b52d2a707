import CrdtSync.Server.Authz

/-!
# The verdict at every path

A verdict depends only on which tuples govern the path, so at any path it is the one
at the deepest tuple path above it. Sampling the tuple paths therefore sees every
verdict there is; what is made of the samples is another matter.
-/

namespace CrdtSync

/-! ### Paths -/

theorem governs_iff {scope target : Bytes} : governs scope target = true ↔ scope <+: target :=
  List.isPrefixOf_iff_prefix

theorem exists_deepest (scopes : List Bytes) (path : Bytes) :
    ∃ deepest ∈ [] :: scopes, governs deepest path = true ∧
      ∀ scope ∈ scopes, governs scope path = governs scope deepest := by
  induction scopes with
  | nil => exact ⟨[], List.mem_cons_self, by simp [governs], by simp⟩
  | cons head scopes ih =>
    obtain ⟨deepest, hMem, hGoverns, hSame⟩ := ih
    have hKeep : deepest ∈ [] :: head :: scopes := by
      obtain rfl | hMem := List.mem_cons.mp hMem
      · exact List.mem_cons_self
      · exact List.mem_cons_of_mem _ (List.mem_cons_of_mem _ hMem)
    by_cases hHead : governs head path = true
    · obtain hLe | hLe := Nat.le_total head.length deepest.length
      · have hBelow : governs head deepest = true :=
          governs_iff.mpr (List.prefix_of_prefix_length_le (governs_iff.mp hHead)
            (governs_iff.mp hGoverns) hLe)
        refine ⟨deepest, hKeep, hGoverns, ?_⟩
        intro scope hScope
        obtain rfl | hScope := List.mem_cons.mp hScope
        · rw [hHead, hBelow]
        · exact hSame scope hScope
      · have hBelow : deepest <+: head :=
          List.prefix_of_prefix_length_le (governs_iff.mp hGoverns) (governs_iff.mp hHead) hLe
        refine ⟨head, List.mem_cons_of_mem _ List.mem_cons_self, hHead, ?_⟩
        intro scope hScope
        obtain rfl | hScope := List.mem_cons.mp hScope
        · rw [hHead]
          exact (governs_iff.mpr List.prefix_rfl).symm
        · rw [Bool.eq_iff_iff, governs_iff, governs_iff]
          constructor
          · intro h
            have hOver : governs scope deepest = true := (hSame scope hScope).symm.trans
              (governs_iff.mpr h)
            exact (governs_iff.mp hOver).trans hBelow
          · exact fun h => h.trans (governs_iff.mp hHead)
    · refine ⟨deepest, hKeep, hGoverns, ?_⟩
      intro scope hScope
      obtain rfl | hScope := List.mem_cons.mp hScope
      · have hBelow : ¬governs scope deepest = true := fun h =>
          hHead (governs_iff.mpr ((governs_iff.mp h).trans (governs_iff.mp hGoverns)))
        rw [Bool.not_eq_true] at hHead hBelow
        rw [hHead, hBelow]
      · exact hSame scope hScope

namespace Authority

variable {records : List AclRecord} {resolver : PathResolver} {creator : ClientId}
variable {actor : AclActor} {capability : Capability} {path path' : Bytes}

def SameTuples (records : List AclRecord) (resolver : PathResolver) (path path' : Bytes) : Prop :=
  ∀ i scope, resolved records resolver i = some scope → governs scope path = governs scope path'

theorem SameTuples.resolvesOver (h : SameTuples records resolver path path')
    (i : Fin records.length) :
    resolvesOver records resolver i path = resolvesOver records resolver i path' := by
  rw [Authority.resolvesOver, Authority.resolvesOver]
  cases hScope : resolved records resolver i with
  | none => rfl
  | some scope => exact h i scope hScope

theorem SameTuples.denySuppresses (h : SameTuples records resolver path path') (granter : ClientId)
    (granterPath : Bytes) (viaOwn : Bool) (rooted revoked : Flags records) :
    denySuppresses records resolver creator actor path capability granter granterPath viaOwn
        rooted revoked =
      denySuppresses records resolver creator actor path' capability granter granterPath viaOwn
        rooted revoked := by
  simp only [Authority.denySuppresses, deniesAt, h.resolvesOver]

theorem SameTuples.allowStands (h : SameTuples records resolver path path')
    (rooted revoked : Flags records) (i : Fin records.length) :
    allowStands records resolver creator actor path capability rooted revoked i =
      allowStands records resolver creator actor path' capability rooted revoked i := by
  simp only [Authority.allowStands, h.denySuppresses]
  cases hScope : resolved records resolver i with
  | none => rfl
  | some scope => simp only [h i scope hScope]

theorem SameTuples.verdict (h : SameTuples records resolver path path') :
    decideCapabilityWithAuthority records creator actor path capability resolver =
      decideCapabilityWithAuthority records creator actor path' capability resolver := by
  have hStands : Authority.allowStands records resolver creator actor path capability
      (settle records resolver creator).1 (settle records resolver creator).2 =
      Authority.allowStands records resolver creator actor path' capability
      (settle records resolver creator).1 (settle records resolver creator).2 :=
    funext fun i => h.allowStands _ _ i
  have hDenies : deniesAt records resolver actor path (settle records resolver creator).2 =
      deniesAt records resolver actor path' (settle records resolver creator).2 :=
    funext fun i => by rw [deniesAt, deniesAt, h.resolvesOver]
  have hOwns : creatorOwns records resolver creator actor path capability
      (settle records resolver creator).1 (settle records resolver creator).2 =
      creatorOwns records resolver creator actor path' capability
      (settle records resolver creator).1 (settle records resolver creator).2 := by
    rw [creatorOwns, creatorOwns, h.denySuppresses]
  simp only [decideCapabilityWithAuthority]
  rw [hOwns, hStands, hDenies]

/-- Whoever is allowed somewhere is the creator or under a tuple there. -/
theorem governed_of_allow
    (h : decideCapabilityWithAuthority records creator actor path capability resolver = .allow) :
    actor.id = creator ∨
      ∃ i scope, resolved records resolver i = some scope ∧ governs scope path = true := by
  simp only [decideCapabilityWithAuthority] at h
  split at h
  next hAllowed =>
    obtain hCreator | hStands := Bool.or_eq_true_iff.mp hAllowed
    · simp only [creatorOwns, Bool.and_eq_true, beq_iff_eq] at hCreator
      exact .inl hCreator.1
    · obtain ⟨i, -, hStands⟩ := List.any_eq_true.mp hStands
      cases hScope : resolved records resolver i with
      | none => simp [Authority.allowStands, hScope] at hStands
      | some scope =>
        simp only [Authority.allowStands, hScope, Bool.and_eq_true] at hStands
        exact .inr ⟨i, scope, hScope, hStands.2.1.2⟩
  next =>
    split at h <;> cases h

end Authority

namespace Server

open Authority

variable {actorKey : Bytes → ClientId} {records : List AclRecord} {index : ElementIndex}

/-- Paths `encode_path` can spell: a key's length fits its header. -/
def WellFormed (keys : List Bytes) : Prop := ∀ key ∈ keys, key.length < 2 ^ 32

/-- A well-formed path has `scope` as the deepest tuple path over it. -/
def Shown (records : List AclRecord) (index : ElementIndex) (scope : Bytes) : Prop :=
  ∃ keys, WellFormed keys ∧ governs scope (encodePath keys) = true ∧
    ∀ other ∈ tuplePaths records index, governs other (encodePath keys) = true →
      governs other scope = true

theorem mem_tuplePaths {path : Bytes} :
    path ∈ tuplePaths records index ↔
      ∃ i, resolved records (elementResolver index) i = some path := by
  have hScope : ∀ scope : AclScope,
      scope.resolve (elementResolver index) = scopePath index scope := by
    intro scope
    cases scope with
    | path p => rfl
    | element id => rfl
  rw [tuplePaths, List.mem_filterMap]
  constructor
  · rintro ⟨r, hMem, h⟩
    obtain ⟨i, rfl⟩ := List.mem_iff_get.mp hMem
    exact ⟨i, (hScope _).trans h⟩
  · rintro ⟨i, h⟩
    exact ⟨records.get i, List.get_mem records i, (hScope _).symm.trans h⟩

def readVerdict (actorKey : Bytes → ClientId) (records : List AclRecord) (creator : Bytes)
    (index : ElementIndex) (identity : Identity) (path : Bytes) : AclDecision :=
  decideCapabilityWithAuthority records (actorKey creator) (actorAcl actorKey identity) path .read
    (elementResolver index)

variable {creator : Bytes} {identity : Identity}

theorem readVerdict_congr {path path' : Bytes}
    (h : ∀ scope ∈ tuplePaths records index, governs scope path = governs scope path') :
    readVerdict actorKey records creator index identity path =
      readVerdict actorKey records creator index identity path' := by
  refine SameTuples.verdict ?_
  intro i scope hScope
  exact h scope (mem_tuplePaths.mpr ⟨i, hScope⟩)

theorem Shown.verdict {scope : Bytes} (h : Shown records index scope) :
    ∃ keys, WellFormed keys ∧ readVerdict actorKey records creator index identity (encodePath keys) =
      readVerdict actorKey records creator index identity scope := by
  obtain ⟨keys, hKeys, hOver, hDeepest⟩ := h
  refine ⟨keys, hKeys, readVerdict_congr ?_⟩
  intro other hOther
  rw [Bool.eq_iff_iff]
  refine ⟨hDeepest other hOther, fun h => ?_⟩
  exact governs_iff.mpr ((governs_iff.mp h).trans (governs_iff.mp hOver))

/-- The verdicts at the well-formed paths are those at the root and the tuple paths they show. -/
theorem exists_path_iff (p : AclDecision → Prop) :
    (∃ keys, WellFormed keys ∧
        p (readVerdict actorKey records creator index identity (encodePath keys))) ↔
      ∃ scope ∈ [] :: tuplePaths records index, Shown records index scope ∧
        p (readVerdict actorKey records creator index identity scope) := by
  constructor
  · rintro ⟨keys, hKeys, hp⟩
    obtain ⟨deepest, hMem, hOver, hSame⟩ := exists_deepest (tuplePaths records index)
      (encodePath keys)
    refine ⟨deepest, hMem, ⟨keys, hKeys, hOver, ?_⟩, readVerdict_congr hSame ▸ hp⟩
    intro other hOther h
    exact (hSame other hOther).symm.trans h
  · rintro ⟨scope, -, hShown, hp⟩
    obtain ⟨keys, hKeys, hVerdict⟩ := hShown.verdict 
    exact ⟨keys, hKeys, hVerdict ▸ hp⟩

section Claims

variable {deployment : Authorizer} {schema : Option Schema} {room : Bytes}

/-- What a caller the tuple tier leaves undecided may do. -/
def schemaReads (schema : Option Schema) (identity : Identity) : Bool :=
  (match schema with
    | none => Decision.abstain
    | some s => schemaDecision s.auth identity .read) = .allow

/-- Where the deployment leaves it to the tiers below: the verdict, or the schema's. -/
def reads (schema : Option Schema) (identity : Identity) : AclDecision → Bool
  | .allow => true
  | .deny => false
  | .abstain => schemaReads schema identity

theorem recipientReadsPath_abstain (path : Bytes)
    (hDeployment : deployment.decide identity .read (.room room) = .abstain) :
    recipientReadsPath actorKey deployment records (some creator) index schema identity room path =
      reads schema identity (readVerdict actorKey records creator index identity path) := by
  simp only [recipientReadsPath, authorized, hDeployment, docAclReadAt, docAclAt]
  rw [← readVerdict]
  cases readVerdict actorKey records creator index identity path <;> rfl

theorem recipientReadsPath_creatorless (path : Bytes) :
    recipientReadsPath actorKey deployment records none index schema identity room path =
      recipientReadsPath actorKey deployment records none index schema identity room
        (encodePath []) := rfl

/-- The verdicts `reads_whole_document` samples settle the question: a carve-out that leaves the
verdict undecided comes with one that denies, and one that denies is met on some path. -/
def CarvesShow (actorKey : Bytes → ClientId) (records : List AclRecord) (creator : Bytes)
    (index : ElementIndex) (schema : Option Schema) (identity : Identity) : Prop :=
  (∃ scope ∈ tuplePaths records index,
      readVerdict actorKey records creator index identity scope = .deny) ↔
    ∃ scope ∈ tuplePaths records index, Shown records index scope ∧
      (readVerdict actorKey records creator index identity scope = .deny ∨
        readVerdict actorKey records creator index identity scope = .abstain ∧
          schemaReads schema identity = false)

/-- Whoever is let in as the creator or under some tuple is allowed on some path. -/
def GrantsShow (actorKey : Bytes → ClientId) (records : List AclRecord) (creator : Bytes)
    (index : ElementIndex) (identity : Identity) : Prop :=
  (actorKey identity.actor = actorKey creator ∨ ∃ scope ∈ tuplePaths records index,
      readVerdict actorKey records creator index identity scope = .allow) →
    ∃ scope ∈ [] :: tuplePaths records index, Shown records index scope ∧
      readVerdict actorKey records creator index identity scope = .allow

theorem reads_eq_false_iff {v : AclDecision} :
    reads schema identity v = false ↔ v = .deny ∨ v = .abstain ∧ schemaReads schema identity = false := by
  cases v <;> simp [reads]

theorem readsWholeDocument_iff
    (hDeployment : deployment.decide identity .read (.room room) = .abstain) :
    readsWholeDocument actorKey deployment records (some creator) index schema identity room = true ↔
      reads schema identity (readVerdict actorKey records creator index identity []) = true ∧
        ¬∃ scope ∈ tuplePaths records index,
          readVerdict actorKey records creator index identity scope = .deny := by
  have hRoot : encodePath [] = [] := rfl
  simp only [readsWholeDocument, recipientReadsPath_abstain _ hDeployment, hDeployment, hRoot,
    reduceCtorEq, if_false]
  cases reads schema identity (readVerdict actorKey records creator index identity []) with
  | false => simp
  | true => simp [readVerdict]

theorem forall_recipientReadsPath_iff
    (hDeployment : deployment.decide identity .read (.room room) = .abstain) :
    (∀ keys, WellFormed keys → recipientReadsPath actorKey deployment records (some creator) index
        schema identity room (encodePath keys) = true) ↔
      ¬∃ scope ∈ [] :: tuplePaths records index, Shown records index scope ∧
        reads schema identity (readVerdict actorKey records creator index identity scope) = false := by
  rw [← exists_path_iff fun v => reads schema identity v = false]
  simp only [recipientReadsPath_abstain _ hDeployment]
  push Not
  simp

/-- Past the root the two agree exactly when the sampled verdicts settle the question. -/
theorem readsWholeDocument_agrees_iff
    (hDeployment : deployment.decide identity .read (.room room) = .abstain) :
    (readsWholeDocument actorKey deployment records (some creator) index schema identity room = true ↔
        ∀ keys, WellFormed keys → recipientReadsPath actorKey deployment records (some creator) index
          schema identity room (encodePath keys) = true) ↔
      (reads schema identity (readVerdict actorKey records creator index identity []) = true →
        CarvesShow actorKey records creator index schema identity) := by
  rw [readsWholeDocument_iff hDeployment, forall_recipientReadsPath_iff hDeployment]
  have hShown : Shown records index [] := by
    refine ⟨[], by simp [WellFormed], rfl, ?_⟩
    exact fun other _ h => h
  cases hRoot : reads schema identity (readVerdict actorKey records creator index identity []) with
  | false =>
    have hSome : ∃ scope ∈ [] :: tuplePaths records index, Shown records index scope ∧
        reads schema identity (readVerdict actorKey records creator index identity scope) = false :=
      ⟨[], List.mem_cons_self, hShown, hRoot⟩
    exact iff_of_true (iff_of_false (fun h => by cases h.1) (not_not_intro hSome))
      (fun h => by cases h)
  | true =>
    have hBelow : (∃ scope ∈ [] :: tuplePaths records index, Shown records index scope ∧
          reads schema identity (readVerdict actorKey records creator index identity scope) = false) ↔
        ∃ scope ∈ tuplePaths records index, Shown records index scope ∧
          reads schema identity (readVerdict actorKey records creator index identity scope) =
            false := by
      simp [hRoot]
    rw [hBelow, CarvesShow]
    simp only [reads_eq_false_iff, true_and, forall_const, not_iff_not]

theorem docAclReadAt_allow_iff {path : Bytes} :
    docAclReadAt actorKey records (some creator) index identity path = .allow ↔
      readVerdict actorKey records creator index identity path = .allow := by
  simp only [docAclReadAt, docAclAt, readVerdict]
  cases decideCapabilityWithAuthority records (actorKey creator) (actorAcl actorKey identity) path
    .read (elementResolver index) <;> simp

theorem hasAnyReadGrant_iff :
    hasAnyReadGrant actorKey records (some creator) index identity = true ↔
      actorKey identity.actor = actorKey creator ∨ ∃ scope ∈ tuplePaths records index,
        readVerdict actorKey records creator index identity scope = .allow := by
  simp only [hasAnyReadGrant, Bool.or_eq_true, List.any_eq_true, decide_eq_true_eq]
  rfl

/-- An allow at the root or at a tuple path is one `has_any_read_grant` looks for. -/
theorem granted_of_allow {scope : Bytes} (hMem : scope ∈ [] :: tuplePaths records index)
    (h : readVerdict actorKey records creator index identity scope = .allow) :
    actorKey identity.actor = actorKey creator ∨ ∃ scope ∈ tuplePaths records index,
      readVerdict actorKey records creator index identity scope = .allow := by
  obtain rfl | hMem := List.mem_cons.mp hMem
  · obtain hCreator | ⟨i, other, hOther, hGoverns⟩ := governed_of_allow h
    · exact .inl hCreator
    · have hRoot : other = [] := List.prefix_nil.mp (governs_iff.mp hGoverns)
      exact .inr ⟨[], mem_tuplePaths.mpr ⟨i, hRoot ▸ hOther⟩, h⟩
  · exact .inr ⟨scope, hMem, h⟩

theorem hasAnyReadGrant_agrees_iff :
    (hasAnyReadGrant actorKey records (some creator) index identity = true ↔
        ∃ keys, WellFormed keys ∧ docAclReadAt actorKey records (some creator) index identity
          (encodePath keys) = .allow) ↔
      GrantsShow actorKey records creator index identity := by
  simp only [docAclReadAt_allow_iff]
  rw [exists_path_iff (fun v => v = .allow), hasAnyReadGrant_iff, GrantsShow]
  constructor
  · exact Iff.mp
  · intro h
    refine ⟨h, ?_⟩
    rintro ⟨scope, hMem, -, hAllow⟩
    exact granted_of_allow hMem hAllow

/-- The whole-document verdict and the any-grant verdict say what every path says exactly when,
in a room with a creator, the verdicts at the tuple paths show what the paths below them get. -/
theorem read_gates_agree_iff (actorKey : Bytes → ClientId) (deployment : Authorizer)
    (records : List AclRecord) (creator : Option Bytes) (index : ElementIndex)
    (schema : Option Schema) (identity : Identity) (room : Bytes) :
    ((readsWholeDocument actorKey deployment records creator index schema identity room = true ↔
        ∀ keys, WellFormed keys → recipientReadsPath actorKey deployment records creator index schema
          identity room (encodePath keys) = true) ∧
      (hasAnyReadGrant actorKey records creator index identity = true ↔
        ∃ keys, WellFormed keys ∧ docAclReadAt actorKey records creator index identity
          (encodePath keys) = .allow)) ↔
      ∀ owner, creator = some owner →
        (deployment.decide identity .read (.room room) = .abstain →
          reads schema identity (readVerdict actorKey records owner index identity []) = true →
            CarvesShow actorKey records owner index schema identity) ∧
        GrantsShow actorKey records owner index identity := by
  have hRootKeys : WellFormed [] := by simp [WellFormed]
  cases creator with
  | none =>
    refine iff_of_true ⟨?_, ?_⟩ (fun owner h => by cases h)
    · constructor
      · intro h keys _
        simp only [readsWholeDocument] at h
        split at h
        · cases h
        next hRoot => exact (recipientReadsPath_creatorless _).trans (by simpa using hRoot)
      · intro h
        simp [readsWholeDocument, h [] hRootKeys]
    · simp [hasAnyReadGrant, docAclReadAt, docAclAt]
  | some owner =>
    simp only [Option.some.injEq, forall_eq']
    refine and_congr ?_ hasAnyReadGrant_agrees_iff
    cases hDeployment : deployment.decide identity .read (.room room) with
    | abstain => simpa using readsWholeDocument_agrees_iff hDeployment
    | allow => simp [readsWholeDocument, recipientReadsPath, authorized, hDeployment]
    | deny =>
      have hRefused : ¬∀ keys, WellFormed keys → recipientReadsPath actorKey deployment records
          (some owner) index schema identity room (encodePath keys) = true := by
        intro h
        have hRoot := h [] hRootKeys
        simp [recipientReadsPath, authorized, hDeployment] at hRoot
      simp [readsWholeDocument, recipientReadsPath, authorized, hDeployment] at hRefused ⊢
      exact hRefused

end Claims

def keyByLength (actor : Bytes) : ClientId := ⟨Fin.ofNat (2 ^ 128) actor.length⟩

/-- The creator makes the actor an owner of everything and takes one subtree back. -/
def carvedOwner : List AclRecord :=
  [⟨⟨.fromBytes 0, .actor (keyByLength [1, 1]), .capability .own, .allow, .path [],
      keyByLength [1]⟩, []⟩,
    ⟨⟨.fromBytes 1, .actor (keyByLength [1, 1]), .capability .own, .deny,
      .path (encodePath [[115]]), keyByLength [1]⟩, []⟩]

/-- The creator denies reading to everyone, itself included. -/
def shutOut : List AclRecord :=
  [⟨⟨.fromBytes 0, .anyone, .capability .read, .deny, .path [], keyByLength [1]⟩, []⟩]

/-- The owner is served the whole document, the subtree it may not read included; and the creator
of a room nobody may read passes for a reader of it. -/
theorem read_gates_disagree :
    ¬(readsWholeDocument keyByLength ⟨fun _ _ _ => .abstain⟩ carvedOwner (some [1]) (fun _ => none)
          none ⟨[1, 1], [], []⟩ [0] = true ↔
        ∀ keys, WellFormed keys → recipientReadsPath keyByLength ⟨fun _ _ _ => .abstain⟩ carvedOwner
          (some [1]) (fun _ => none) none ⟨[1, 1], [], []⟩ [0] (encodePath keys) = true) ∧
      ¬(hasAnyReadGrant keyByLength shutOut (some [1]) (fun _ => none) ⟨[1], [], []⟩ = true ↔
        ∃ keys, WellFormed keys ∧ docAclReadAt keyByLength shutOut (some [1]) (fun _ => none)
          ⟨[1], [], []⟩ (encodePath keys) = .allow) := by
  constructor
  · intro h
    have hWhole : readsWholeDocument keyByLength ⟨fun _ _ _ => .abstain⟩ carvedOwner (some [1])
        (fun _ => none) none ⟨[1, 1], [], []⟩ [0] = true := by decide +kernel
    have hSubtree : recipientReadsPath keyByLength ⟨fun _ _ _ => .abstain⟩ carvedOwner (some [1])
        (fun _ => none) none ⟨[1, 1], [], []⟩ [0] (encodePath [[115]]) = false := by decide +kernel
    have hReads := h.mp hWhole [[115]] (by simp [WellFormed])
    rw [hSubtree] at hReads
    cases hReads
  · intro h
    have hAny : hasAnyReadGrant keyByLength shutOut (some [1]) (fun _ => none) ⟨[1], [], []⟩ =
        true := by decide +kernel
    obtain ⟨keys, hKeys, hAllow⟩ := h.mp hAny
    obtain ⟨scope, hMem, -, hScope⟩ :=
      (exists_path_iff (fun v => v = .allow)).mp ⟨keys, hKeys, docAclReadAt_allow_iff.mp hAllow⟩
    have hDenied : ∀ scope ∈ [] :: tuplePaths shutOut (fun _ => none),
        readVerdict keyByLength shutOut [1] (fun _ => none) ⟨[1], [], []⟩ scope ≠ .allow := by
      decide +kernel
    exact hDenied scope hMem hScope

end Server

end CrdtSync
