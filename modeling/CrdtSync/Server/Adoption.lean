import CrdtSync.Server.Gossip

/-!
# Who is placed

The adopted members are what the evidence of this view supports and nothing else:
every operation that touches the roster, the configuration or the evidence rebuilds
the placement, and the others leave all three alone.
-/

namespace CrdtSync

namespace Server

namespace Gossip

open Std (ExtTreeMap)

namespace Membership

variable {υ : Type} {dial : Dial υ} {m m' m'' : Membership} {node : NodeId}

/-- Members of `S` on enough trust units other than its own have verified the member. -/
def VouchedBy (dial : Dial υ) (m : Membership) (S : Set NodeId) (node : NodeId) : Prop :=
  ∃ ownUnit units, dial.memberTrustUnit node = some ownUnit ∧ ownUnit ∉ units ∧
    ADOPTION_VERIFIERS ≤ Finset.card units ∧
    ∀ unit ∈ units, ∃ v ∈ S, m.hasVerified v node = true ∧ dial.memberTrustUnit v = some unit

theorem VouchedBy.mono {S T : Set NodeId} (hSub : S ⊆ T) (h : VouchedBy dial m S node) :
    VouchedBy dial m T node := by
  obtain ⟨ownUnit, units, hOwn, hApart, hCard, hUnits⟩ := h
  refine ⟨ownUnit, units, hOwn, hApart, hCard, ?_⟩
  intro unit hUnit
  obtain ⟨v, hv, hRest⟩ := hUnits unit hUnit
  exact ⟨v, hSub hv, hRest⟩

/-- The sets that hold the configured members and turn nobody vouched for away. -/
def Supported (dial : Dial υ) (m : Membership) : Set (Set NodeId) :=
  {S | (m.configured : Set NodeId) ⊆ S ∧
    ∀ node, m.isMember node = true → VouchedBy dial m S node → node ∈ S}

theorem mem_roster : node ∈ m.roster ↔ m.isMember node = true := by
  rw [roster, List.mem_toFinset, ExtTreeMap.mem_keys, isMember, ExtTreeMap.mem_iff_contains]

theorem hasVerified_iff {v : NodeId} :
    m.hasVerified v node = true ↔ ∃ vs, m.verifiers[node]? = some vs ∧ v ∈ vs := by
  rw [hasVerified, decide_eq_true_eq]
  cases m.verifiers[node]? with
  | none => simp
  | some vs => simp

section Units

variable [DecidableEq υ]

theorem mem_verifierUnits {adopted : Finset NodeId} {unit : υ} :
    unit ∈ m.verifierUnits dial adopted node ↔
      ∃ ownUnit, dial.memberTrustUnit node = some ownUnit ∧ unit ≠ ownUnit ∧
        ∃ v ∈ adopted, m.hasVerified v node = true ∧ dial.memberTrustUnit v = some unit := by
  unfold verifierUnits
  cases hOwn : dial.memberTrustUnit node with
  | none => simp
  | some ownUnit =>
    cases hVerifiers : m.verifiers[node]? with
    | none => simp [hasVerified, hVerifiers]
    | some verifiers => simp [hasVerified, hVerifiers, and_assoc, and_comm]

/-- The units the source counts reach the bar exactly when the member is vouched for. -/
theorem vouchedBy_iff (adopted : Finset NodeId) :
    ADOPTION_VERIFIERS ≤ (m.verifierUnits dial adopted node).card ↔
      VouchedBy dial m adopted node := by
  constructor
  · intro hCard
    obtain ⟨unit, hUnit⟩ := Finset.card_pos.mp (Nat.lt_of_lt_of_le Nat.two_pos hCard)
    obtain ⟨ownUnit, hOwn, -⟩ := mem_verifierUnits.mp hUnit
    refine ⟨ownUnit, _, hOwn, ?_, hCard, ?_⟩
    · intro hMem
      obtain ⟨own, hOwn', hApart, -⟩ := mem_verifierUnits.mp hMem
      exact hApart (Option.some.inj (hOwn.symm.trans hOwn'))
    · intro unit hUnit
      obtain ⟨-, -, -, hVoucher⟩ := mem_verifierUnits.mp hUnit
      exact hVoucher
  · rintro ⟨ownUnit, units, hOwn, hApart, hCard, hUnits⟩
    refine hCard.trans (Finset.card_le_card ?_)
    intro unit hUnit
    refine mem_verifierUnits.mpr ⟨ownUnit, hOwn, ?_, hUnits unit hUnit⟩
    rintro rfl
    exact hApart hUnit

/-- The adopted set is the one a rebuild would compute now. -/
def Placed (dial : Dial υ) (m : Membership) : Prop :=
  m.adopted = (m.rebuildPlacement dial).adopted

theorem placed_rebuildPlacement : Placed dial (m.rebuildPlacement dial) := rfl

theorem Placed.isLeast (h : Placed dial m) (hCluster : m.solitary = false) :
    IsLeast (Supported dial m) m.adopted := by
  have hBar : m.adoptionBar = ADOPTION_VERIFIERS := by rw [adoptionBar, hCluster]
  have hRule : ∀ (s : Finset NodeId) a,
      m.adoptionBar ≤ (m.verifierUnits dial s a).card ↔ VouchedBy dial m s a := by
    intro s a
    rw [hBar]
    exact vouchedBy_iff s
  have hLeast : IsLeast {S : Set NodeId | (m.configured : Set NodeId) ⊆ S ∧
      Lib.ClosedUnder (VouchedBy dial m) m.roster S} (Lib.saturate _ m.roster m.configured) :=
    Lib.saturate_isLeast hRule (fun s t a hSub hs => hs.mono hSub) m.configured
  simp only [Lib.ClosedUnder, mem_roster] at hLeast
  rw [h]
  exact hLeast

/-- The evidence and what was made of it are as they were. -/
structure SameEvidence (m m' : Membership) : Prop where
  addrs : m'.addrs = m.addrs
  configured : m'.configured = m.configured
  verifiers : m'.verifiers = m.verifiers
  solitary : m'.solitary = m.solitary
  adopted : m'.adopted = m.adopted

theorem SameEvidence.placed (h : SameEvidence m m') (hPlaced : Placed dial m) : Placed dial m' := by
  have hRebuilt : (m'.rebuildPlacement dial).adopted = (m.rebuildPlacement dial).adopted := by
    simp only [rebuildPlacement, roster, h.addrs, h.configured]
    refine Lib.saturate_congr (fun adopted node => ?_) _
    rw [adoptionBar, adoptionBar, verifierUnits, verifierUnits, h.solitary, h.verifiers]
  rw [Placed, h.adopted, hRebuilt]
  exact hPlaced

omit [DecidableEq υ] in
theorem sameEvidence_learn {named : Bytes} (hSilent : (m.learn dial named).2 = false) :
    SameEvidence m (m.learn dial named).1 := by
  unfold learn at hSilent ⊢
  split
  · exact ⟨rfl, rfl, rfl, rfl, rfl⟩
  next hCanonical =>
    simp only [hCanonical] at hSilent
    split
    · exact ⟨rfl, rfl, rfl, rfl, rfl⟩
    next hNew =>
      rw [if_neg hNew] at hSilent
      cases hSilent

omit [DecidableEq υ] in
theorem sameEvidence_mergeTuple {t : LivenessTuple} (hSilent : (m.mergeTuple dial t).2 = false) :
    SameEvidence m (m.mergeTuple dial t).1 := by
  unfold mergeTuple at hSilent ⊢
  split
  · exact ⟨rfl, rfl, rfl, rfl, rfl⟩
  next named hCanonical =>
    simp only [hCanonical] at hSilent
    obtain ⟨-, hEq⟩ | ⟨-, -, -, hEq⟩ | ⟨-, -, -, hEq⟩ | ⟨r, -, -, -, hEq⟩ :=
      m.mergeMember_cases named t.incarnation t.state
    · rw [hEq]
      exact ⟨rfl, rfl, rfl, rfl, rfl⟩
    · rw [hEq]
      exact ⟨rfl, rfl, rfl, rfl, rfl⟩
    · rw [hEq] at hSilent
      cases hSilent
    · rw [hEq]
      exact ⟨rfl, rfl, rfl, rfl, rfl⟩

/-- A vouch that was already on record adds nothing. -/
theorem sameEvidence_vouch {verifier : NodeId} (hSilent : (m.vouch verifier node).2 = false) :
    SameEvidence m (m.vouch verifier node).1 := by
  have hKnown : m.hasVerified verifier node = true := by simpa [vouch] using hSilent
  obtain ⟨vs, hVs, hMem⟩ := hasVerified_iff.mp hKnown
  refine ⟨rfl, rfl, ?_, rfl, rfl⟩
  refine ExtTreeMap.ext_getElem? fun k => ?_
  simp only [vouch, Lib.getElem?_alter_ite, hVs]
  split
  next hSame => simp [hSame, hVs, hMem]
  next => rfl

end Units

/-- What an operation may do to the configuration and the evidence: `claims v n` lets `v`
vouch for `n`. -/
structure Grows (claims : NodeId → NodeId → Prop) (m m' : Membership) : Prop where
  selfId : m'.selfId = m.selfId
  solitary : m'.solitary = m.solitary
  configured : m'.configured ⊆ m.configured
  vouches : ∀ v n, m'.hasVerified v n = true → m.hasVerified v n = true ∨ claims v n

theorem Grows.of_eq {claims : NodeId → NodeId → Prop} (hId : m'.selfId = m.selfId)
    (hSolitary : m'.solitary = m.solitary) (hConfigured : m'.configured = m.configured)
    (hVerifiers : m'.verifiers = m.verifiers) : Grows claims m m' where
  selfId := hId
  solitary := hSolitary
  configured := hConfigured.subset
  vouches v n h := .inl (by rwa [hasVerified, ← hVerifiers])

theorem Grows.trans {claims : NodeId → NodeId → Prop} (h : Grows claims m m')
    (h' : Grows claims m' m'') : Grows claims m m'' where
  selfId := h'.selfId.trans h.selfId
  solitary := h'.solitary.trans h.solitary
  configured := h'.configured.trans h.configured
  vouches v n hv := (h'.vouches v n hv).elim (h.vouches v n) .inr

variable {claims : NodeId → NodeId → Prop}

theorem grows_learn (named : Bytes) : Grows claims m (m.learn dial named).1 := by
  unfold learn
  split
  · exact .of_eq rfl rfl rfl rfl
  · split
    · exact .of_eq rfl rfl rfl rfl
    · exact .of_eq rfl rfl rfl rfl

theorem grows_mergeTuple (t : LivenessTuple) : Grows claims m (m.mergeTuple dial t).1 := by
  unfold mergeTuple
  split
  · exact .of_eq rfl rfl rfl rfl
  next named _ =>
    obtain ⟨-, hEq⟩ | ⟨-, -, -, hEq⟩ | ⟨-, -, -, hEq⟩ | ⟨r, -, -, -, hEq⟩ :=
      m.mergeMember_cases named t.incarnation t.state
    all_goals
      rw [hEq]
      exact .of_eq rfl rfl rfl rfl

theorem grows_vouch {verifier : NodeId} (hClaim : claims verifier node) :
    Grows claims m (m.vouch verifier node).1 where
  selfId := rfl
  solitary := rfl
  configured := Finset.Subset.refl _
  vouches v n h := by
    rw [hasVerified_iff] at h ⊢
    obtain ⟨vs, hVs, hMem⟩ := h
    simp only [vouch, Lib.getElem?_alter_ite] at hVs
    split at hVs
    next hSame =>
      obtain rfl := Option.some.inj hVs
      obtain rfl | hOld := Finset.mem_insert.mp hMem
      · exact .inr (hSame ▸ hClaim)
      · cases hRecord : m.verifiers[node]? with
        | none => simp [hRecord] at hOld
        | some old => exact .inl ⟨old, hSame ▸ hRecord, by simpa [hRecord] using hOld⟩
    next => exact .inl ⟨vs, hVs, hMem⟩

theorem grows_reapMember : Grows claims m (m.reapMember node) where
  selfId := rfl
  solitary := rfl
  configured := Finset.erase_subset node m.configured
  vouches v n h := by
    rw [hasVerified_iff] at h ⊢
    obtain ⟨vs, hVs, hMem⟩ := h
    simp only [reapMember, ExtTreeMap.getElem?_map, Lib.getElem?_erase_ite] at hVs
    split at hVs
    · cases hVs
    · obtain ⟨old, hOld, rfl⟩ := Option.map_eq_some_iff.mp hVs
      exact .inl ⟨old, hOld, Finset.mem_of_mem_erase hMem⟩

theorem grows_reapAll (nodes : List NodeId) : Grows claims m (nodes.foldl reapMember m) := by
  induction nodes generalizing m with
  | nil => exact .of_eq rfl rfl rfl rfl
  | cons node nodes ih => exact grows_reapMember.trans ih

theorem grows_recordClaims (sender : NodeId) (nodes : List NodeId)
    (hClaims : ∀ node ∈ nodes, claims sender node) :
    Grows claims m (m.recordClaims sender nodes).1 := by
  unfold recordClaims
  split
  · refine anyStep_preserves (p := Grows claims m) ?_ (.of_eq rfl rfl rfl rfl)
    intro node hNode m' h
    refine h.trans ?_
    unfold recordClaim
    split
    · exact grows_vouch (hClaims node hNode)
    · exact .of_eq rfl rfl rfl rfl
  · exact .of_eq rfl rfl rfl rfl

end Membership

/-- The event carries the word of `verifier` that it reached `node` itself. -/
def Event.Claims (dial : Dial υ) (selfId : NodeId) (verifier node : NodeId) : Event → Prop
  | .mergeLiveness sender payload =>
    verifier = sender ∧ ∃ t ∈ payload, t.verified = true ∧ dial.canonical t.node = some node
  | .noteVerified named => verifier = selfId ∧ node = named
  | _ => False

namespace Membership

variable {υ : Type} [DecidableEq υ] {dial : Dial υ} {m : Membership} {node : NodeId}

theorem grows_rebuildPlacement {claims : NodeId → NodeId → Prop} :
    Grows claims m (m.rebuildPlacement dial) := .of_eq rfl rfl rfl rfl

variable (dial m) in
/-- One event: the configuration only shrinks, and only claims it carries become evidence. -/
theorem grows_step (event : Event) :
    Grows (fun v n => event.Claims dial m.selfId v n) m (m.step dial event) := by
  cases event with
  | addMembers members =>
    have hLearned : Grows (fun v n => Event.Claims dial m.selfId v n (.addMembers members)) m
        (m.learnAll dial members).1 :=
      anyStep_preserves (fun named _ _ h => h.trans (grows_learn named)) (.of_eq rfl rfl rfl rfl)
    simp only [step, addMembers]
    split
    · exact hLearned.trans grows_rebuildPlacement
    · exact hLearned
  | mergeLiveness sender payload =>
    have hTuples : Grows (fun v n => Event.Claims dial m.selfId v n (.mergeLiveness sender payload))
        m (m.mergeTuples dial payload).1 :=
      anyStep_preserves (fun t _ _ h => h.trans (grows_mergeTuple t)) (.of_eq rfl rfl rfl rfl)
    have hClaims := hTuples.trans (grows_recordClaims (m := (m.mergeTuples dial payload).1)
      sender (claimed dial sender payload) ?_)
    · simp only [step, mergeLiveness]
      split
      · exact hClaims.trans grows_rebuildPlacement
      · exact hClaims
    · intro named hNamed
      obtain ⟨t, hMem, hClaim⟩ := List.mem_filterMap.mp hNamed
      simp only [Option.filter_eq_some_iff, Bool.and_eq_true, decide_eq_true_eq] at hClaim
      exact ⟨rfl, t, hMem, hClaim.2.1, hClaim.1⟩
  | noteVerified named =>
    simp only [step, noteVerified]
    split
    · have hVouched : Grows (fun v n => Event.Claims dial m.selfId v n (.noteVerified named)) m
          (m.vouch m.selfId named).1 := grows_vouch ⟨rfl, rfl⟩
      split
      · exact hVouched.trans grows_rebuildPlacement
      · exact hVouched
    · exact .of_eq rfl rfl rfl rfl
  | noteGossipReachable named =>
    simp only [step, noteGossipReachable]
    split <;> exact .of_eq rfl rfl rfl rfl
  | noteGossipUnreachable named =>
    simp only [step, noteGossipUnreachable]
    split <;> exact .of_eq rfl rfl rfl rfl
  | markNodeLive named => exact .of_eq rfl rfl rfl rfl
  | markNodeDown named =>
    simp only [step, markNodeDown]
    split <;> exact .of_eq rfl rfl rfl rfl
  | reapDead =>
    have hAged : Grows (fun v n => Event.Claims dial m.selfId v n .reapDead) m m.age :=
      .of_eq rfl rfl rfl rfl
    have hReaped := hAged.trans (grows_reapAll m.age.toReap)
    simp only [step, reapDead]
    split
    · exact hReaped
    · exact hReaped.trans grows_rebuildPlacement

/-- Every operation leaves the placement the evidence supports. -/
theorem Placed.step (h : Placed dial m) (event : Event) : Placed dial (m.step dial event) := by
  cases event with
  | addMembers members =>
    simp only [Membership.step, addMembers]
    split
    · exact placed_rebuildPlacement
    next hSilent =>
      exact anyStep_silent (p := Placed dial) (fun _ _ hSilent h => (sameEvidence_learn hSilent).placed h)
        h members (Bool.not_eq_true _ ▸ hSilent)
  | mergeLiveness sender payload =>
    simp only [Membership.step, mergeLiveness]
    split
    · exact placed_rebuildPlacement
    next hSilent =>
      obtain ⟨hLearned, hRecorded⟩ := Bool.or_eq_false_iff.mp (Bool.not_eq_true _ ▸ hSilent)
      have hTuples : Placed dial (m.mergeTuples dial payload).1 :=
        anyStep_silent (fun _ _ hSilent h => (sameEvidence_mergeTuple hSilent).placed h) h payload
          hLearned
      unfold recordClaims at hRecorded ⊢
      split
      next hSender =>
        rw [if_pos hSender] at hRecorded
        refine anyStep_silent (p := Placed dial) ?_ hTuples _ hRecorded
        intro m' named hSilent h
        unfold recordClaim at hSilent ⊢
        split
        next hNamed =>
          rw [if_pos hNamed] at hSilent
          exact (sameEvidence_vouch hSilent).placed h
        next => exact h
      next => exact hTuples
  | noteVerified named =>
    simp only [Membership.step, noteVerified]
    split
    · split
      · exact placed_rebuildPlacement
      next hSilent => exact (sameEvidence_vouch (Bool.not_eq_true _ ▸ hSilent)).placed h
    · exact h
  | noteGossipReachable named =>
    simp only [Membership.step, noteGossipReachable]
    split
    · exact h
    · exact SameEvidence.placed (m := m) ⟨rfl, rfl, rfl, rfl, rfl⟩ h
  | noteGossipUnreachable named =>
    simp only [Membership.step, noteGossipUnreachable]
    split
    · exact h
    · exact SameEvidence.placed (m := m) ⟨rfl, rfl, rfl, rfl, rfl⟩ h
  | markNodeLive named => exact SameEvidence.placed (m := m) ⟨rfl, rfl, rfl, rfl, rfl⟩ h
  | markNodeDown named =>
    simp only [Membership.step, markNodeDown]
    split
    · exact h
    · exact SameEvidence.placed (m := m) ⟨rfl, rfl, rfl, rfl, rfl⟩ h
  | reapDead =>
    simp only [Membership.step, reapDead]
    split
    next hNone =>
      rw [hNone]
      exact SameEvidence.placed (m := m) ⟨rfl, rfl, rfl, rfl, rfl⟩ h
    next => exact placed_rebuildPlacement

theorem placed_new (selfId : NodeId) (peers : List NodeId) : Placed dial (new selfId peers) := by
  refine (Lib.saturate_eq_seed ?_).symm
  refine Finset.eq_empty_of_forall_notMem ?_
  intro node hNode
  obtain ⟨-, -, hUnits⟩ := Lib.mem_newly.mp hNode
  have hNone : (new selfId peers).verifierUnits dial (new selfId peers).adopted node = ∅ := by
    refine Finset.eq_empty_of_forall_notMem fun unit hUnit => ?_
    obtain ⟨-, -, -, v, -, hVerified, -⟩ := mem_verifierUnits.mp hUnit
    simp [hasVerified, new] at hVerified
  have hBar : 0 < (new selfId peers).adoptionBar := by
    unfold adoptionBar
    split <;> decide
  rw [hNone, Finset.card_empty] at hUnits
  omega

theorem placed_run (selfId : NodeId) (peers : List NodeId) (events : List Event) :
    Placed dial ((new selfId peers).run dial events) := by
  have hRun : ∀ (events : List Event) (m : Membership), Placed dial m →
      Placed dial (m.run dial events) := by
    intro events
    induction events with
    | nil => exact fun m h => h
    | cons event events ih => exact fun m h => ih _ (h.step event)
  exact hRun events _ (placed_new selfId peers)

theorem grows_run (events : List Event) :
    Grows (fun v n => ∃ event ∈ events, event.Claims dial m.selfId v n) m (m.run dial events) := by
  induction events generalizing m with
  | nil => exact .of_eq rfl rfl rfl rfl
  | cons event events ih =>
    have hHead := grows_step dial m event
    have hRest := ih (m := m.step dial event)
    refine ⟨hRest.selfId.trans hHead.selfId, hRest.solitary.trans hHead.solitary,
      hRest.configured.trans hHead.configured, ?_⟩
    intro v n hVerified
    obtain hOld | ⟨later, hLater, hClaim⟩ := hRest.vouches v n hVerified
    · obtain hOld | hClaim := hHead.vouches v n hOld
      · exact .inl hOld
      · exact .inr ⟨event, List.mem_cons_self, hClaim⟩
    · exact .inr ⟨later, List.mem_cons_of_mem event hLater, hHead.selfId ▸ hClaim⟩

omit [DecidableEq υ] in
/-- What is supported is read off the configuration, the roster and the claims. -/
theorem supported_congr {m' : Membership} (hConfigured : m'.configured = m.configured)
    (hRoster : ∀ node, m'.isMember node = m.isMember node)
    (hVerified : ∀ v node, m'.hasVerified v node = m.hasVerified v node) :
    Supported dial m' = Supported dial m := by
  simp only [Supported, VouchedBy, hConfigured, hRoster, hVerified]

omit [DecidableEq υ] in
theorem not_vouchedBy_of_unit {S : Set NodeId} (unit : Option υ)
    (h : ∀ v, m.hasVerified v node = true → dial.memberTrustUnit v = unit) :
    ¬VouchedBy dial m S node := by
  rintro ⟨-, units, -, -, hCard, hUnits⟩
  obtain ⟨a, ha, b, hb, hApart⟩ := Finset.one_lt_card.mp (Nat.lt_of_succ_le hCard)
  obtain ⟨v, -, hv, hvUnit⟩ := hUnits a ha
  obtain ⟨w, -, hw, hwUnit⟩ := hUnits b hb
  exact hApart (Option.some.inj (hvUnit.symm.trans ((h v hv).trans ((h w hw).symm.trans hwUnit))))

omit [DecidableEq υ] in
theorem configured_of_not_vouched {adopted : Set NodeId} (hLeast : IsLeast (Supported dial m) adopted)
    (hNode : ∀ S, ¬VouchedBy dial m S node) (hAdopted : node ∈ adopted) : node ∈ m.configured := by
  by_contra hOut
  have hWithout : adopted \ {node} ∈ Supported dial m := by
    constructor
    · intro other hOther
      refine ⟨hLeast.1.1 hOther, ?_⟩
      rintro rfl
      exact hOut hOther
    · intro other hMember hVouched
      refine ⟨hLeast.1.2 other hMember (hVouched.mono Set.sdiff_subset), ?_⟩
      rintro rfl
      exact hNode _ hVouched
  exact (hLeast.2 hWithout hAdopted).2 rfl

theorem solitary_new {selfId : NodeId} {peers : List NodeId}
    (hPeer : ∃ peer ∈ peers, peer ≠ selfId) : (new selfId peers).solitary = false := by
  simpa [new] using hPeer

/-- On a node configured with a peer, the adopted members are at every moment the least set that
holds the remaining configured ones and is closed under vouching; they depend on nothing else;
and the word of a single trust unit adopts nobody. -/
theorem adopted_isLeast (dial : Dial υ) (selfId : NodeId) (peers : List NodeId)
    (hPeer : ∃ peer ∈ peers, peer ≠ selfId) (events : List Event) :
    IsLeast (Supported dial ((new selfId peers).run dial events))
        ((new selfId peers).run dial events).adopted ∧
      (∀ selfId' peers' events', (∃ peer ∈ peers', peer ≠ selfId') →
        ((new selfId' peers').run dial events').configured =
          ((new selfId peers).run dial events).configured →
        (∀ node, ((new selfId' peers').run dial events').isMember node =
          ((new selfId peers).run dial events).isMember node) →
        (∀ v node, ((new selfId' peers').run dial events').hasVerified v node =
          ((new selfId peers).run dial events).hasVerified v node) →
        ((new selfId' peers').run dial events').adopted =
          ((new selfId peers).run dial events).adopted) ∧
      ∀ node unit, (∀ event ∈ events, ∀ v, event.Claims dial selfId v node →
          dial.memberTrustUnit v = unit) →
        node ∈ ((new selfId peers).run dial events).adopted →
          node ∈ ((new selfId peers).run dial events).configured := by
  have hLeast : ∀ selfId peers events, (∃ peer ∈ peers, peer ≠ selfId) →
      IsLeast (Supported dial ((new selfId peers).run dial events))
        ((new selfId peers).run dial events).adopted := by
    intro selfId peers events hPeer
    refine (placed_run selfId peers events).isLeast ?_
    rw [(grows_run events).solitary, solitary_new hPeer]
  refine ⟨hLeast selfId peers events hPeer, ?_, ?_⟩
  · intro selfId' peers' events' hPeer' hConfigured hRoster hVerified
    have hOther := hLeast selfId' peers' events' hPeer'
    rw [supported_congr hConfigured hRoster hVerified] at hOther
    exact Finset.coe_injective (hOther.unique (hLeast selfId peers events hPeer))
  · intro node unit hClaims
    refine configured_of_not_vouched (hLeast selfId peers events hPeer) fun S => ?_
    refine not_vouchedBy_of_unit unit fun v hVerified => ?_
    obtain hStart | ⟨event, hEvent, hClaim⟩ := (grows_run events).vouches v node hVerified
    · simp [hasVerified, new] at hStart
    · exact hClaims event hEvent v hClaim

/-- A peer and this node vouch for a member gossip brought. -/
theorem adopted_after_two_vouches :
    [3] ∈ ((new [1] [[2]]).run Dial.plain [.mergeLiveness [2] [⟨[3], [], 0, .alive, true⟩],
      .noteVerified [3]]).adopted ∧
      IsLeast (Supported Dial.plain ((new [1] [[2]]).run Dial.plain
          [.mergeLiveness [2] [⟨[3], [], 0, .alive, true⟩], .noteVerified [3]]))
        ((new [1] [[2]]).run Dial.plain [.mergeLiveness [2] [⟨[3], [], 0, .alive, true⟩],
          .noteVerified [3]]).adopted :=
  ⟨by decide +kernel,
    (adopted_isLeast Dial.plain [1] [[2]] ⟨[2], by decide, by decide⟩
      [.mergeLiveness [2] [⟨[3], [], 0, .alive, true⟩], .noteVerified [3]]).1⟩

end Membership

end Gossip

end Server

end CrdtSync
