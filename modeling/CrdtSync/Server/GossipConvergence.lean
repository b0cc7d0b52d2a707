import CrdtSync.Server.Gossip

/-!
# What the liveness merge converges to

Seen from one member, the merge is a join of incarnation and state behind a gate: a
tombstone lets nothing in until an `Alive` arrives. The gate is what makes the order
matter. This node itself answers a suspicion by outbidding its incarnation, which
works below the top of the counter.
-/

namespace CrdtSync

namespace Server

namespace Gossip

open Std (ExtTreeMap)

/-- What a tuple or a record asserts of a member, in the order the merge prefers. -/
abbrev Standing := Nat ×ₗ MemberState

def MemberLiveness.standing (m : MemberLiveness) : Standing := toLex (m.incarnation.toNat, m.state)

def LivenessTuple.standing (t : LivenessTuple) : Standing := toLex (t.incarnation.toNat, t.state)

/-- A member as the merge sees it: behind its tombstone, or known at a standing. -/
@[ext]
structure Seen where
  tombstoned : Bool
  standing : WithBot Standing

namespace Seen

/-- A tombstone lets only an `Alive` through. -/
def absorb (s : Seen) (x : Standing) : Seen :=
  if s.tombstoned && (ofLex x).2 ≠ .alive then s else ⟨false, max s.standing x⟩

theorem absorb_of_open {s : Seen} {x : Standing} (h : s.tombstoned = true → (ofLex x).2 = .alive) :
    s.absorb x = ⟨false, max s.standing x⟩ := by
  rw [absorb, if_neg]
  simpa using h

end Seen

section Join

variable {α : Type*} [LinearOrder α] {l : List α} {a b : α}

theorem foldl_max_le_iff : l.foldl max a ≤ b ↔ a ≤ b ∧ ∀ x ∈ l, x ≤ b := by
  induction l generalizing a with
  | nil => simp
  | cons x l ih => simp [ih, and_assoc]

theorem foldl_max_eq_or_mem : l.foldl max a = a ∨ l.foldl max a ∈ l := by
  induction l generalizing a with
  | nil => exact .inl rfl
  | cons x l ih =>
    obtain hStart | hMem := ih (a := max a x)
    · obtain hOld | hNew := max_choice a x
      · exact .inl (hStart.trans hOld)
      · exact .inr (List.mem_cons.mpr (.inl (hStart.trans hNew)))
    · exact .inr (List.mem_cons_of_mem x hMem)

/-- A join depends only on which elements are joined. -/
theorem foldl_max_congr {l' : List α} (h : ∀ x, x ∈ l ↔ x ∈ l') : l.foldl max a = l'.foldl max a := by
  refine eq_of_forall_ge_iff fun c => ?_
  simp only [foldl_max_le_iff, h]

end Join

namespace Seen

variable {l l' : List Standing} {s : Seen}

theorem foldl_absorb_open {c : WithBot Standing} :
    l.foldl absorb ⟨false, c⟩ = ⟨false, (l.map (↑· : Standing → WithBot Standing)).foldl max c⟩ := by
  induction l generalizing c with
  | nil => rfl
  | cons x l ih =>
    have hStep : absorb ⟨false, c⟩ x = ⟨false, max c x⟩ := by simp [absorb]
    rw [List.foldl_cons, hStep, ih]
    rfl

theorem foldl_absorb_closed (h : ∀ x ∈ l, (ofLex x).2 ≠ .alive) (hClosed : s.tombstoned = true) :
    l.foldl absorb s = s := by
  induction l with
  | nil => rfl
  | cons x l ih =>
    have hStep : absorb s x = s := by simp [absorb, hClosed, h x List.mem_cons_self]
    rw [List.foldl_cons, hStep]
    exact ih fun y hy => h y (List.mem_cons_of_mem x hy)

/-- Once an `Alive` is among them, the member stands at one of the tuples, and at least at
every `Alive`. -/
theorem foldl_absorb_opened (h : ∃ x ∈ l, (ofLex x).2 = .alive) :
    ∃ x ∈ l, l.foldl absorb ⟨true, ⊥⟩ = ⟨false, (x : WithBot Standing)⟩ ∧
      ∀ y ∈ l, (ofLex y).2 = .alive → y ≤ x := by
  induction l with
  | nil =>
    obtain ⟨x, hMem, -⟩ := h
    cases hMem
  | cons x l ih =>
    obtain hAlive | hDown := eq_or_ne (ofLex x).2 .alive
    · have hStep : absorb ⟨true, ⊥⟩ x = ⟨false, (x : WithBot Standing)⟩ := by simp [absorb, hAlive]
      rw [List.foldl_cons, hStep, foldl_absorb_open]
      obtain ⟨top, hTop⟩ : ∃ top : Standing,
          (l.map (↑· : Standing → WithBot Standing)).foldl max ↑x = ↑top ∧ top ∈ x :: l := by
        obtain hEq | hMem := foldl_max_eq_or_mem
          (l := l.map (↑· : Standing → WithBot Standing)) (a := (x : WithBot Standing))
        · exact ⟨x, hEq, List.mem_cons_self⟩
        · obtain ⟨top, hTop, hEq⟩ := List.mem_map.mp hMem
          exact ⟨top, hEq.symm, List.mem_cons_of_mem x hTop⟩
      have hBound := foldl_max_le_iff.mp hTop.1.le
      refine ⟨top, hTop.2, by rw [hTop.1], ?_⟩
      intro y hy _
      obtain rfl | hy := List.mem_cons.mp hy
      · exact WithBot.coe_le_coe.mp hBound.1
      · exact WithBot.coe_le_coe.mp (hBound.2 y (List.mem_map_of_mem hy))
    · have hStep : absorb ⟨true, ⊥⟩ x = ⟨true, ⊥⟩ := by simp [absorb, hDown]
      have hRest : ∃ y ∈ l, (ofLex y).2 = .alive := by
        obtain ⟨y, hy, hAlive⟩ := h
        obtain rfl | hy := List.mem_cons.mp hy
        · exact absurd hAlive hDown
        · exact ⟨y, hy, hAlive⟩
      obtain ⟨top, hTop, hEq, hBound⟩ := ih hRest
      rw [List.foldl_cons, hStep]
      refine ⟨top, List.mem_cons_of_mem x hTop, hEq, ?_⟩
      intro y hy hAlive
      obtain rfl | hy := List.mem_cons.mp hy
      · exact absurd hAlive hDown
      · exact hBound y hy hAlive

/-- The tuples end a tombstone cleanly: none is `Alive`, or an `Alive` outranks all others. -/
def ReturnsCleanly (l : List Standing) : Prop :=
  (∃ x ∈ l, (ofLex x).2 = .alive) → ∀ y ∈ l, (ofLex y).2 ≠ .alive →
    ∃ x ∈ l, (ofLex x).2 = .alive ∧ (ofLex y).1 < (ofLex x).1

theorem ReturnsCleanly.alive_of_top (h : ReturnsCleanly l) (hAlive : ∃ x ∈ l, (ofLex x).2 = .alive)
    {x : Standing} (hMem : x ∈ l) (hTop : ∀ y ∈ l, (ofLex y).2 = .alive → y ≤ x) :
    (ofLex x).2 = .alive := by
  by_contra hDown
  obtain ⟨z, hz, hzAlive, hlt⟩ := h hAlive x hMem hDown
  have hAbove : x < z := Prod.Lex.lt_iff.mpr (.inl hlt)
  exact absurd (hTop z hz hzAlive) (not_le.mpr hAbove)

/-- The two extreme orders, all others before the `Alive` tuples and all after, tell whether
the tuples end a tombstone cleanly. -/
theorem returnsCleanly_of_extremes {downs alives : List Standing}
    (hDowns : ∀ x ∈ downs, (ofLex x).2 ≠ .alive) (hAlives : ∀ x ∈ alives, (ofLex x).2 = .alive)
    (h : ((downs ++ alives).foldl absorb ⟨true, ⊥⟩).standing =
      ((alives ++ downs).foldl absorb ⟨true, ⊥⟩).standing) :
    ReturnsCleanly (downs ++ alives) := by
  intro hAlive y hy hDown
  have hExists : ∃ x ∈ alives, (ofLex x).2 = .alive := by
    obtain ⟨x, hx, hxAlive⟩ := hAlive
    obtain hx | hx := List.mem_append.mp hx
    · exact absurd hxAlive (hDowns x hx)
    · exact ⟨x, hx, hxAlive⟩
  obtain ⟨late, hMem, hLate, -⟩ := foldl_absorb_opened hExists
  rw [List.foldl_append, List.foldl_append, foldl_absorb_closed hDowns rfl, hLate,
    foldl_absorb_open] at h
  have hyDowns : y ∈ downs := (List.mem_append.mp hy).resolve_right fun h => hDown (hAlives y h)
  have hBound := (foldl_max_le_iff.mp h.ge).2 y (List.mem_map_of_mem hyDowns)
  refine ⟨late, List.mem_append_right _ hMem, hAlives late hMem, ?_⟩
  obtain hLt | ⟨-, hState⟩ := Prod.Lex.le_iff.mp (WithBot.coe_le_coe.mp hBound)
  · exact hLt
  · have hRank : (ofLex y).2.rank ≤ (ofLex late).2.rank := hState
    rw [hAlives late hMem] at hRank
    exact absurd (MemberState.rank_injective (Nat.le_zero.mp hRank)) hDown

/-- Behind a tombstone that the tuples end cleanly, their order does not show. -/
theorem ReturnsCleanly.order_free (h : ReturnsCleanly l) {a b : List Standing}
    (ha : ∀ x, x ∈ a ↔ x ∈ l) (hb : ∀ x, x ∈ b ↔ x ∈ l) :
    a.foldl absorb ⟨true, ⊥⟩ = b.foldl absorb ⟨true, ⊥⟩ := by
  by_cases hAlive : ∃ x ∈ l, (ofLex x).2 = .alive
  · have hIn : ∀ c : List Standing, (∀ x, x ∈ c ↔ x ∈ l) →
        ∃ x : Standing, c.foldl absorb ⟨true, ⊥⟩ = ⟨false, ↑x⟩ ∧ x ∈ l ∧ (ofLex x).2 = .alive ∧
          ∀ y ∈ l, (ofLex y).2 = .alive → y ≤ x := by
      intro c hc
      obtain ⟨x, hx, hEq, hTop⟩ := foldl_absorb_opened (l := c) (by simpa only [hc] using hAlive)
      simp only [hc] at hx hTop
      exact ⟨x, hEq, hx, h.alive_of_top hAlive hx hTop, hTop⟩
    obtain ⟨x, hx, hxMem, hxAlive, hxTop⟩ := hIn a ha
    obtain ⟨y, hy, hyMem, hyAlive, hyTop⟩ := hIn b hb
    rw [hx, hy, le_antisymm (hyTop x hxMem hxAlive) (hxTop y hyMem hyAlive)]
  · push Not at hAlive
    rw [foldl_absorb_closed (fun x hx => hAlive x ((ha x).mp hx)) rfl,
      foldl_absorb_closed (fun x hx => hAlive x ((hb x).mp hx)) rfl]

/-- Which tuples are among `l` is all that its end depends on. -/
theorem ReturnsCleanly.congr (h : ReturnsCleanly l) (hSame : ∀ x, x ∈ l ↔ x ∈ l') :
    ReturnsCleanly l' := by
  simpa only [ReturnsCleanly, hSame] using h

theorem open_order_free {a b : List Standing} (h : ∀ x, x ∈ a ↔ x ∈ b) (c : WithBot Standing) :
    a.foldl absorb ⟨false, c⟩ = b.foldl absorb ⟨false, c⟩ := by
  rw [foldl_absorb_open, foldl_absorb_open]
  exact congrArg _ (foldl_max_congr fun x => by simp only [List.mem_map, h])

end Seen

/-! ### The merge, seen from one member -/

theorem MemberLiveness.standing_merge (m : MemberLiveness) (incarnation : UInt64)
    (state : MemberState) :
    (m.merge incarnation state).standing = max m.standing (toLex (incarnation.toNat, state)) := by
  unfold merge
  split
  next hNewer =>
    refine (max_eq_right ?_).symm
    exact Prod.Lex.le_iff.mpr (.inl (UInt64.lt_iff_toNat_lt.mp hNewer))
  next hNewer =>
    split
    next hWorse =>
      refine Eq.trans ?_ (max_eq_right ?_).symm
      · simp [standing, hWorse.1]
      · exact Prod.Lex.le_iff.mpr (.inr ⟨congrArg UInt64.toNat hWorse.1.symm, hWorse.2.le⟩)
    next hWorse =>
      refine (max_eq_left ?_).symm
      refine Prod.Lex.le_iff.mpr ?_
      obtain hLt | hEq := lt_or_eq_of_le (UInt64.le_iff_toNat_le.mp (UInt64.not_lt.mp hNewer))
      · exact .inl hLt
      · refine .inr ⟨hEq, ?_⟩
        exact not_lt.mp fun hState => hWorse ⟨UInt64.toNat_inj.mp hEq, hState⟩

namespace Membership

variable {υ : Type} {dial : Dial υ} {m : Membership} {node : NodeId}

def seen (m : Membership) (node : NodeId) : Seen :=
  ⟨m.isTombstoned node, m.liveness[node]?.map (·.standing)⟩

/-- A node keeps its own record, and nobody is at once on record and reaped. -/
structure Sound (m : Membership) : Prop where
  selfTracked : (m.liveness[m.selfId]?).isSome
  apart : ∀ node, m.isTombstoned node → m.liveness[node]? = none

/-- What the merge reads and writes of a view; placement and evidence are beside it. -/
structure SameView (m m' : Membership) : Prop where
  selfId : m'.selfId = m.selfId
  liveness : m'.liveness = m.liveness
  reaped : m'.reaped = m.reaped

theorem SameView.trans {m' m'' : Membership} (h : SameView m m') (h' : SameView m' m'') :
    SameView m m'' :=
  ⟨h'.selfId.trans h.selfId, h'.liveness.trans h.liveness, h'.reaped.trans h.reaped⟩

theorem sameView_rebuildPlacement [DecidableEq υ] : SameView m (m.rebuildPlacement dial) := ⟨rfl, rfl, rfl⟩

theorem sameView_vouch (node verifier : NodeId) : SameView m (m.vouch verifier node).1 := ⟨rfl, rfl, rfl⟩

theorem SameView.seen {m' : Membership} (h : SameView m m') : m'.seen node = m.seen node := by
  rw [Membership.seen, Membership.seen, isTombstoned, isTombstoned, h.liveness, h.reaped]

theorem SameView.sound {m' : Membership} (h : SameView m m') (hSound : m.Sound) : m'.Sound where
  selfTracked := by
    rw [h.selfId, h.liveness]
    exact hSound.selfTracked
  apart node hTomb := by
    rw [isTombstoned, h.reaped] at hTomb
    rw [h.liveness]
    exact hSound.apart node hTomb

theorem seen_eq_of_reads {m' : Membership} (hLiveness : m'.liveness[node]? = m.liveness[node]?)
    (hReaped : m'.reaped[node]? = m.reaped[node]?) : m'.seen node = m.seen node := by
  rw [seen, seen, isTombstoned_eq, isTombstoned_eq, hLiveness, hReaped]

/-- One tuple, to a member other than this node: absorbed if it names the member. -/
theorem seen_mergeMember {named : NodeId} (hSelf : node ≠ m.selfId) (incarnation : UInt64)
    (state : MemberState) :
    (m.mergeMember named incarnation state).1.seen node =
      if named = node then (m.seen node).absorb (toLex (incarnation.toNat, state))
      else m.seen node := by
  obtain ⟨hNamed, hEq⟩ | ⟨hNamed, hTomb, hState, hEq⟩ | ⟨hNamed, hGate, hRecord, hEq⟩ |
    ⟨r, hNamed, hGate, hRecord, hEq⟩ := m.mergeMember_cases named incarnation state
  · have hApart : named ≠ node := fun h => hSelf (h ▸ hNamed)
    rw [hEq, if_neg hApart]
    exact seen_eq_of_reads (by simp [refuteIfStale, Lib.getElem?_alter_ite, hSelf]) rfl
  · rw [hEq]
    split
    next h =>
      subst h
      simp [Seen.absorb, seen, hTomb, hState]
    next h => rfl
  all_goals
    rw [hEq]
    split
    next h =>
      subst h
      rw [Seen.absorb_of_open hGate]
      refine Seen.ext ?_ ?_
      · simp [seen, isTombstoned_eq]
      · simp only [seen, Lib.getElem?_insert_ite, if_true, Option.map_some, hRecord,
          MemberLiveness.standing_merge, Option.map_none]
        rfl
    next h =>
      refine seen_eq_of_reads ?_ ?_
      · simp [Lib.getElem?_insert_ite, Ne.symm h]
      · simp [Lib.getElem?_erase_ite, Ne.symm h]

theorem sameView_recordClaim (sender : NodeId) : SameView m (m.recordClaim sender node).1 := by
  unfold recordClaim
  split
  · exact sameView_vouch node sender
  · exact ⟨rfl, rfl, rfl⟩

theorem sameView_recordClaims (sender : NodeId) (nodes : List NodeId) :
    SameView m (m.recordClaims sender nodes).1 := by
  unfold recordClaims
  split
  · exact anyStep_preserves (p := SameView m)
      (fun _ _ _ h => h.trans (sameView_recordClaim sender)) ⟨rfl, rfl, rfl⟩
  · exact ⟨rfl, rfl, rfl⟩

/-- The tuples about one member, in the order they arrive. -/
def about (dial : Dial υ) (node : NodeId) (tuples : List LivenessTuple) : List LivenessTuple :=
  tuples.filter fun t => dial.canonical t.node = some node

theorem selfId_mergeTuple (t : LivenessTuple) : (m.mergeTuple dial t).1.selfId = m.selfId := by
  unfold mergeTuple
  split
  · rfl
  next named _ =>
    obtain ⟨-, hEq⟩ | ⟨-, -, -, hEq⟩ | ⟨-, -, -, hEq⟩ | ⟨r, -, -, -, hEq⟩ :=
      m.mergeMember_cases named t.incarnation t.state
    all_goals
      rw [hEq]
    rfl

theorem selfId_mergeTuples (payload : List LivenessTuple) :
    (m.mergeTuples dial payload).1.selfId = m.selfId :=
  anyStep_preserves (p := fun m' : Membership => m'.selfId = m.selfId)
    (fun t _ _ h => (selfId_mergeTuple t).trans h) rfl

theorem seen_mergeTuple (hSelf : node ≠ m.selfId) (t : LivenessTuple) :
    (m.mergeTuple dial t).1.seen node =
      if dial.canonical t.node = some node then (m.seen node).absorb t.standing
      else m.seen node := by
  unfold mergeTuple
  split
  next hCanonical => simp [hCanonical]
  next named hCanonical =>
    rw [seen_mergeMember hSelf, hCanonical]
    simp only [Option.some.injEq]
    rfl

theorem seen_mergeTuples (hSelf : node ≠ m.selfId) (payload : List LivenessTuple) :
    (m.mergeTuples dial payload).1.seen node =
      ((about dial node payload).map (·.standing)).foldl Seen.absorb (m.seen node) := by
  unfold mergeTuples
  induction payload generalizing m with
  | nil => rfl
  | cons t payload ih =>
    rw [anyStep_cons, ih (by rwa [selfId_mergeTuple]), seen_mergeTuple hSelf]
    by_cases hAbout : dial.canonical t.node = some node
    · simp [about, hAbout]
    · simp [about, hAbout]

variable [DecidableEq υ]

variable (dial m) in
theorem sameView_mergeLiveness (sender : NodeId) (payload : List LivenessTuple) :
    SameView (m.mergeTuples dial payload).1 (m.mergeLiveness dial sender payload) := by
  have hClaims := sameView_recordClaims (m := (m.mergeTuples dial payload).1) sender
    (claimed dial sender payload)
  simp only [mergeLiveness]
  split
  · exact hClaims.trans sameView_rebuildPlacement
  · exact hClaims

/-- Any number of gossip exchanges. -/
def mergeAll (dial : Dial υ) (m : Membership) (batches : List (NodeId × List LivenessTuple)) :
    Membership :=
  batches.foldl (fun m batch => m.mergeLiveness dial batch.1 batch.2) m

def tuples (batches : List (NodeId × List LivenessTuple)) : List LivenessTuple :=
  batches.flatMap (·.2)

/-- Any number of exchanges, to a member other than this node. -/
theorem seen_mergeAll (hSelf : node ≠ m.selfId) (batches : List (NodeId × List LivenessTuple)) :
    (m.mergeAll dial batches).seen node =
      ((about dial node (tuples batches)).map (·.standing)).foldl Seen.absorb (m.seen node) := by
  induction batches generalizing m with
  | nil => rfl
  | cons batch batches ih =>
    have hBatch := sameView_mergeLiveness dial m batch.1 batch.2
    have hSelf' : node ≠ (m.mergeLiveness dial batch.1 batch.2).selfId := by
      rwa [hBatch.selfId, selfId_mergeTuples]
    rw [mergeAll, List.foldl_cons]
    refine (ih hSelf').trans ?_
    rw [hBatch.seen, seen_mergeTuples hSelf, ← List.foldl_append, ← List.map_append]
    simp [about, tuples]

end Membership

/-! ### This node itself -/

/-- Own `Alive` tuples at `incarnation` win over the tuple wherever it has been merged. -/
def LivenessTuple.OutbidAt (t : LivenessTuple) (incarnation : UInt64) : Prop :=
  ((MemberLiveness.new t.incarnation t.state).merge incarnation .alive).incarnation = incarnation ∧
    ((MemberLiveness.new t.incarnation t.state).merge incarnation .alive).state = .alive

/-- No incarnation is above the last one. -/
def LivenessTuple.Beatable (t : LivenessTuple) : Prop :=
  t.state ≠ .alive → t.incarnation ≠ UInt64.ofNat (2 ^ 64 - 1)

theorem MemberState.not_lt_alive (state : MemberState) : ¬state < .alive := by
  cases state <;> decide

theorem LivenessTuple.outbidAt_iff {t : LivenessTuple} {incarnation : UInt64} :
    t.OutbidAt incarnation ↔
      t.incarnation < incarnation ∨ t.incarnation = incarnation ∧ t.state = .alive := by
  rw [OutbidAt, MemberLiveness.merge, MemberLiveness.new]
  split
  next hNewer => exact iff_of_true ⟨rfl, rfl⟩ (.inl hNewer)
  next hNewer =>
    rw [if_neg fun h => MemberState.not_lt_alive _ h.2]
    exact (or_iff_right hNewer).symm

theorem LivenessTuple.OutbidAt.mono {t : LivenessTuple} {i j : UInt64} (h : t.OutbidAt i)
    (hle : i ≤ j) : t.OutbidAt j := by
  rw [outbidAt_iff] at *
  obtain hlt | ⟨hEq, hAlive⟩ := h
  · exact .inl (UInt64.lt_of_lt_of_le hlt hle)
  · obtain hlt | hEq' := UInt64.lt_or_eq_of_le hle
    · exact .inl (hEq ▸ hlt)
    · exact .inr ⟨hEq.trans hEq', hAlive⟩

theorem LivenessTuple.OutbidAt.beatable {t : LivenessTuple} {incarnation : UInt64}
    (h : t.OutbidAt incarnation) : t.Beatable := by
  intro hDown hTop
  obtain hlt | ⟨-, hAlive⟩ := outbidAt_iff.mp h
  · rw [hTop, UInt64.lt_iff_toNat_lt] at hlt
    have hMax := incarnation.toNat_lt
    have hOfNat : (UInt64.ofNat (2 ^ 64 - 1)).toNat = 2 ^ 64 - 1 := by decide
    omega
  · exact hDown hAlive

theorem toNat_bump (incarnation : UInt64) :
    (bump incarnation).toNat = min (incarnation.toNat + 1) (2 ^ 64 - 1) := by
  have hMax := incarnation.toNat_lt
  have hOfNat : (UInt64.ofNat (2 ^ 64 - 1)).toNat = 2 ^ 64 - 1 := by decide
  unfold bump
  split
  next hTop =>
    rw [hTop, hOfNat]
    omega
  next hTop =>
    have hBelow : incarnation.toNat ≠ 2 ^ 64 - 1 := fun h =>
      hTop (UInt64.toNat_inj.mp (h.trans hOfNat.symm))
    have hOne : (1 : UInt64).toNat = 1 := by decide
    rw [UInt64.toNat_add, hOne]
    omega

namespace MemberLiveness

variable {m : MemberLiveness}

theorem incarnation_le_refuteIfStale (received : UInt64) (state : MemberState) :
    m.incarnation ≤ (m.refuteIfStale received state).incarnation := by
  have hMax := m.incarnation.toNat_lt
  have hMax' := received.toNat_lt
  unfold refuteIfStale
  split
  · rw [UInt64.le_iff_toNat_le, toNat_bump]
    split
    next hAbove =>
      have := UInt64.lt_iff_toNat_lt.mp hAbove
      omega
    next => omega
  · exact UInt64.le_refl _

/-- A refutation outbids what it answers, below the last incarnation. -/
theorem outbid_refuteIfStale {t : LivenessTuple} (h : t.Beatable) :
    t.OutbidAt (m.refuteIfStale t.incarnation t.state).incarnation := by
  have hMax := m.incarnation.toNat_lt
  have hMax' := t.incarnation.toNat_lt
  have hOfNat : (UInt64.ofNat (2 ^ 64 - 1)).toNat = 2 ^ 64 - 1 := by decide
  rw [LivenessTuple.outbidAt_iff]
  unfold refuteIfStale
  split
  next hStale =>
    have hBase : (if m.incarnation < t.incarnation then t.incarnation else m.incarnation) =
        t.incarnation := by
      split
      · rfl
      · exact ((or_iff_right ‹_›).mp hStale).1.symm
    rw [hBase]
    by_cases hTop : t.incarnation = UInt64.ofNat (2 ^ 64 - 1)
    · refine .inr ⟨?_, by_contra fun hDown => h hDown hTop⟩
      rw [bump, if_pos hTop]
    · refine .inl ?_
      have hBelow : t.incarnation.toNat ≠ 2 ^ 64 - 1 := fun h =>
        hTop (UInt64.toNat_inj.mp (h.trans hOfNat.symm))
      rw [UInt64.lt_iff_toNat_lt, toNat_bump]
      omega
  next hFresh =>
    push Not at hFresh
    obtain hlt | hEq := UInt64.lt_or_eq_of_le (UInt64.not_lt.mp hFresh.1)
    · exact .inl hlt
    · exact .inr ⟨hEq, hFresh.2 hEq⟩

end MemberLiveness

namespace Membership

variable {υ : Type} {dial : Dial υ} {m m' m'' : Membership} {node : NodeId}

/-- This node still keeps its own record, at an incarnation it has not lowered. -/
structure Later (m m' : Membership) : Prop where
  selfId : m'.selfId = m.selfId
  selfTracked : (m'.liveness[m'.selfId]?).isSome
  incarnation : m.incarnation m.selfId ≤ m'.incarnation m'.selfId

theorem Later.refl (h : (m.liveness[m.selfId]?).isSome) : Later m m := ⟨rfl, h, UInt64.le_refl _⟩

theorem Later.trans (h : Later m m') (h' : Later m' m'') : Later m m'' :=
  ⟨h'.selfId.trans h.selfId, h'.selfTracked, UInt64.le_trans h.incarnation h'.incarnation⟩

theorem SameView.later (h : SameView m m') (hTracked : (m.liveness[m.selfId]?).isSome) :
    Later m m' where
  selfId := h.selfId
  selfTracked := by rwa [h.selfId, h.liveness]
  incarnation := by
    rw [Membership.incarnation, Membership.incarnation, h.selfId, h.liveness]
    exact UInt64.le_refl _

theorem incarnation_refuteIfStale {r : MemberLiveness} (h : m.liveness[m.selfId]? = some r)
    (received : UInt64) (state : MemberState) :
    (m.refuteIfStale received state).liveness[m.selfId]? = some (r.refuteIfStale received state) := by
  simp [refuteIfStale, h]

theorem later_mergeMember (hTracked : (m.liveness[m.selfId]?).isSome) (named : NodeId)
    (incarnation : UInt64) (state : MemberState) :
    Later m (m.mergeMember named incarnation state).1 := by
  obtain ⟨own, hOwn⟩ := Option.isSome_iff_exists.mp hTracked
  obtain ⟨-, hEq⟩ | ⟨-, -, -, hEq⟩ | ⟨hNamed, -, -, hEq⟩ | ⟨r, hNamed, -, -, hEq⟩ :=
    m.mergeMember_cases named incarnation state
  · have hRecord := incarnation_refuteIfStale hOwn incarnation state
    rw [hEq]
    refine ⟨rfl, ?_, ?_⟩
    · exact Option.isSome_iff_exists.mpr ⟨_, hRecord⟩
    · have hId : (m.refuteIfStale incarnation state).selfId = m.selfId := rfl
      rw [Membership.incarnation, Membership.incarnation, hId, hRecord, hOwn]
      exact MemberLiveness.incarnation_le_refuteIfStale incarnation state
  · rw [hEq]
    exact .refl hTracked
  all_goals
    rw [hEq]
    have hKept : ∀ r : MemberLiveness, (m.liveness.insert named r)[m.selfId]? = some own := by
      intro r
      rw [Lib.getElem?_insert_ite, if_neg (Ne.symm hNamed), hOwn]
    refine ⟨rfl, ?_, ?_⟩
    · exact Option.isSome_iff_exists.mpr ⟨own, hKept _⟩
    · simp only [Membership.incarnation, hKept, hOwn]
      exact UInt64.le_refl _

variable (dial) in
theorem later_mergeTuple (hTracked : (m.liveness[m.selfId]?).isSome) (t : LivenessTuple) :
    Later m (m.mergeTuple dial t).1 := by
  unfold mergeTuple
  split
  · exact .refl hTracked
  · exact later_mergeMember hTracked _ _ _

variable (dial) in
theorem later_mergeTuples (hTracked : (m.liveness[m.selfId]?).isSome)
    (payload : List LivenessTuple) : Later m (m.mergeTuples dial payload).1 :=
  anyStep_preserves (p := Later m) (fun t _ _ h => h.trans (later_mergeTuple dial h.selfTracked t))
    (.refl hTracked)

theorem outbid_mergeTuple (hTracked : (m.liveness[m.selfId]?).isSome) {t : LivenessTuple}
    (hSelf : dial.canonical t.node = some m.selfId) (h : t.Beatable) :
    t.OutbidAt ((m.mergeTuple dial t).1.incarnation m.selfId) := by
  obtain ⟨own, hOwn⟩ := Option.isSome_iff_exists.mp hTracked
  have hMerge : (m.mergeTuple dial t).1 = m.refuteIfStale t.incarnation t.state := by
    simp [mergeTuple, hSelf, mergeMember, isSelf]
  rw [hMerge, Membership.incarnation, incarnation_refuteIfStale hOwn]
  exact MemberLiveness.outbid_refuteIfStale h

theorem outbid_mergeTuples (hTracked : (m.liveness[m.selfId]?).isSome)
    {payload : List LivenessTuple} {t : LivenessTuple} (hMem : t ∈ payload)
    (hSelf : dial.canonical t.node = some m.selfId) (h : t.Beatable) :
    t.OutbidAt ((m.mergeTuples dial payload).1.incarnation m.selfId) := by
  unfold mergeTuples
  induction payload generalizing m with
  | nil => cases hMem
  | cons x payload ih =>
    have hFirst := later_mergeTuple dial hTracked x
    rw [anyStep_cons]
    obtain rfl | hMem := List.mem_cons.mp hMem
    · have hRest := later_mergeTuples dial hFirst.selfTracked payload
      have hKept := hRest.incarnation
      rw [hRest.selfId, hFirst.selfId] at hKept
      exact (outbid_mergeTuple hTracked hSelf h).mono hKept
    · rw [← hFirst.selfId]
      exact ih hFirst.selfTracked hMem (hSelf.trans (congrArg some hFirst.selfId.symm))

variable [DecidableEq υ]

variable (dial) in
theorem later_mergeLiveness (hTracked : (m.liveness[m.selfId]?).isSome) (sender : NodeId)
    (payload : List LivenessTuple) : Later m (m.mergeLiveness dial sender payload) := by
  have hTuples := later_mergeTuples dial hTracked payload
  exact hTuples.trans ((sameView_mergeLiveness _ _ sender payload).later hTuples.selfTracked)

variable (dial) in
theorem later_mergeAll (hTracked : (m.liveness[m.selfId]?).isSome)
    (batches : List (NodeId × List LivenessTuple)) : Later m (m.mergeAll dial batches) := by
  induction batches generalizing m with
  | nil => exact .refl hTracked
  | cons batch batches ih =>
    have hBatch := later_mergeLiveness dial hTracked batch.1 batch.2
    exact hBatch.trans (ih hBatch.selfTracked)

theorem outbid_mergeAll (hTracked : (m.liveness[m.selfId]?).isSome)
    {batches : List (NodeId × List LivenessTuple)} {t : LivenessTuple} (hMem : t ∈ tuples batches)
    (hSelf : dial.canonical t.node = some m.selfId) (h : t.Beatable) :
    t.OutbidAt ((m.mergeAll dial batches).incarnation m.selfId) := by
  induction batches generalizing m with
  | nil => cases hMem
  | cons batch batches ih =>
    have hBatch := later_mergeLiveness dial hTracked batch.1 batch.2
    have hRest := later_mergeAll dial hBatch.selfTracked batches
    obtain hMem | hMem := List.mem_append.mp hMem
    · have hKept := hRest.incarnation
      have hView := sameView_mergeLiveness dial m batch.1 batch.2
      have hOutbid := outbid_mergeTuples hTracked hMem hSelf h
      rw [hRest.selfId, hBatch.selfId, Membership.incarnation, hView.liveness] at hKept
      exact hOutbid.mono hKept
    · rw [← hBatch.selfId]
      exact ih hBatch.selfTracked hMem (hSelf.trans (congrArg some hBatch.selfId.symm))

/-! ### Reachable views -/

theorem foldl_insert_getElem? (nodes : List NodeId) (r : MemberLiveness)
    (map : ExtTreeMap NodeId MemberLiveness compare) (hNode : node ∈ nodes ∨ map[node]? = some r) :
    (nodes.foldl (fun map node => map.insert node r) map)[node]? = some r := by
  induction nodes generalizing map with
  | nil => exact hNode.resolve_left List.not_mem_nil
  | cons head nodes ih =>
    refine ih _ ?_
    rw [Lib.getElem?_insert_ite]
    obtain hMem | hOld := hNode
    · obtain rfl | hMem := List.mem_cons.mp hMem
      · exact .inr (if_pos rfl)
      · exact .inl hMem
    · split
      · exact .inr rfl
      · exact .inr hOld

theorem sound_new (selfId : NodeId) (peers : List NodeId) : (new selfId peers).Sound where
  selfTracked := Option.isSome_iff_exists.mpr
    ⟨_, foldl_insert_getElem? (selfId :: peers) _ _ (.inl List.mem_cons_self)⟩
  apart node hTomb := by
    simp [new, isTombstoned_eq] at hTomb

/-- The records may change as long as none appears or disappears. -/
theorem Sound.of_records (h : m.Sound) (hId : m'.selfId = m.selfId)
    (hRecords : ∀ node : NodeId, m'.liveness[node]? = none ↔ m.liveness[node]? = none)
    (hReaped : ∀ node, m'.isTombstoned node = true → m.isTombstoned node = true) : m'.Sound where
  selfTracked := by
    rw [hId, Option.isSome_iff_ne_none, ne_eq, hRecords]
    exact Option.isSome_iff_ne_none.mp h.selfTracked
  apart node hTomb := (hRecords node).mpr (h.apart node (hReaped node hTomb))

theorem Sound.admit (h : m.Sound) (hId : m'.selfId = m.selfId) {named : NodeId} {r : MemberLiveness}
    (hRecords : m'.liveness = m.liveness.insert named r)
    (hReaped : ∀ node, m'.isTombstoned node = true → node ≠ named ∧ m.isTombstoned node = true) :
    m'.Sound where
  selfTracked := by
    rw [hId, hRecords, Lib.getElem?_insert_ite]
    split
    · rfl
    · exact h.selfTracked
  apart node hTomb := by
    obtain ⟨hApart, hTomb⟩ := hReaped node hTomb
    rw [hRecords, Lib.getElem?_insert_ite, if_neg hApart]
    exact h.apart node hTomb

omit [DecidableEq υ] in
theorem Sound.learn (h : m.Sound) (node : Bytes) : (m.learn dial node).1.Sound := by
  unfold Membership.learn
  split
  · exact h
  next named _ =>
    split
    · exact h
    next hNew =>
      refine h.admit rfl rfl ?_
      rintro node hTomb
      refine ⟨?_, hTomb⟩
      rintro rfl
      exact hNew (by simp [show m.isTombstoned node = true from hTomb])

omit [DecidableEq υ] in
theorem Sound.mergeTuple (h : m.Sound) (t : LivenessTuple) : (m.mergeTuple dial t).1.Sound := by
  unfold Membership.mergeTuple
  split
  · exact h
  next named _ =>
    obtain ⟨-, hEq⟩ | ⟨-, -, -, hEq⟩ | ⟨-, -, -, hEq⟩ | ⟨r, -, -, -, hEq⟩ :=
      m.mergeMember_cases named t.incarnation t.state
    · rw [hEq]
      refine h.of_records rfl ?_ fun node hTomb => hTomb
      intro node
      simp only [refuteIfStale, Lib.getElem?_alter_ite]
      split
      next hSelf => simp [hSelf]
      next => rfl
    · rw [hEq]
      exact h
    all_goals
      rw [hEq]
      refine h.admit rfl rfl fun node hTomb => ?_
      rw [isTombstoned_eq, Lib.getElem?_erase_ite] at hTomb
      split at hTomb
      · cases hTomb
      next hApart => exact ⟨hApart, by rwa [isTombstoned_eq]⟩

theorem Sound.reapMember (h : m.Sound) (hNode : node ≠ m.selfId) : (m.reapMember node).Sound where
  selfTracked := by
    simpa [Membership.reapMember, Lib.getElem?_erase_ite, Ne.symm hNode] using h.selfTracked
  apart other hTomb := by
    rw [isTombstoned_eq] at hTomb
    simp only [Membership.reapMember, Lib.getElem?_erase_ite, Lib.getElem?_insert_ite] at hTomb ⊢
    split
    · rfl
    next hApart =>
      rw [if_neg hApart, ← isTombstoned_eq] at hTomb
      exact h.apart other hTomb

theorem Sound.age (h : m.Sound) : m.age.Sound := by
  refine h.of_records rfl ?_ ?_
  · intro node
    simp [Membership.age]
  · intro node hTomb
    rw [isTombstoned_eq] at hTomb ⊢
    obtain ⟨age, hEntry⟩ := Option.isSome_iff_exists.mp hTomb
    simp only [Membership.age, ExtTreeMap.getElem?_filter', ExtTreeMap.getElem?_map,
      Option.filter_eq_some_iff, Option.map_eq_some_iff] at hEntry
    obtain ⟨⟨old, hOld, -⟩, -⟩ := hEntry
    exact Option.isSome_iff_exists.mpr ⟨old, hOld⟩

theorem Sound.reapAll (h : m.Sound) (nodes : List NodeId) (hNodes : ∀ node ∈ nodes, node ≠ m.selfId) :
    (nodes.foldl Membership.reapMember m).Sound := by
  induction nodes generalizing m with
  | nil => exact h
  | cons node nodes ih =>
    exact ih (h.reapMember (hNodes node List.mem_cons_self))
      fun other hOther => hNodes other (List.mem_cons_of_mem node hOther)

theorem Sound.reapDead (h : m.Sound) : (m.reapDead dial).1.Sound := by
  have hSurvivors := h.age.reapAll m.age.toReap fun node hNode => ne_selfId_of_mem_toReap hNode
  simp only [Membership.reapDead]
  split
  · exact hSurvivors
  · exact sameView_rebuildPlacement.sound hSurvivors

/-- A probe outcome rewrites one record in place. -/
theorem Sound.probed (h : m.Sound) (f : MemberLiveness → MemberLiveness) :
    ({ m with liveness := m.liveness.alter node fun r => r.map f } : Membership).Sound := by
  refine h.of_records rfl ?_ fun node hTomb => hTomb
  intro other
  simp only [Lib.getElem?_alter_ite]
  split
  next hSame => simp [hSame]
  next => rfl

theorem Sound.step (h : m.Sound) (event : Event) : (m.step dial event).Sound := by
  cases event with
  | addMembers members =>
    have hLearned : (m.learnAll dial members).1.Sound :=
      anyStep_preserves (p := Sound) (fun node _ _ h => h.learn node) h
    simp only [Membership.step, addMembers]
    split
    · exact sameView_rebuildPlacement.sound hLearned
    · exact hLearned
  | mergeLiveness sender payload =>
    have hTuples : (m.mergeTuples dial payload).1.Sound :=
      anyStep_preserves (p := Sound) (fun t _ _ h => h.mergeTuple t) h
    exact (sameView_mergeLiveness _ _ sender payload).sound hTuples
  | noteVerified node =>
    have hVouched := (sameView_vouch (m := m) node m.selfId).sound h
    simp only [Membership.step, noteVerified]
    split
    · split
      · exact sameView_rebuildPlacement.sound hVouched
      · exact hVouched
    · exact h
  | noteGossipReachable node =>
    simp only [Membership.step, noteGossipReachable]
    split
    · exact h
    · exact h.probed _
  | noteGossipUnreachable node =>
    simp only [Membership.step, noteGossipUnreachable]
    split
    · exact h
    · exact h.probed _
  | markNodeLive node => exact SameView.sound (m := m) ⟨rfl, rfl, rfl⟩ h
  | markNodeDown node =>
    simp only [Membership.step, markNodeDown]
    split
    · exact h
    · exact SameView.sound (m := m) ⟨rfl, rfl, rfl⟩ h
  | reapDead => exact h.reapDead

theorem Sound.run (h : m.Sound) (events : List Event) : (m.run dial events).Sound := by
  induction events generalizing m with
  | nil => exact h
  | cons event events ih => exact ih (h.step event)

/-! ### Convergence -/

omit [DecidableEq υ] in
/-- What is read of a member is what the merge sees of it. -/
theorem reads_of_seen (hSelf : node ≠ m.selfId) :
    (m.incarnation node).toNat = ((m.seen node).standing.map fun x => (ofLex x).1).getD 0 ∧
      m.gossipState node = ((m.seen node).standing.map fun x => (ofLex x).2).getD .alive := by
  rw [Membership.incarnation, gossipState, if_neg fun h => hSelf (isSelf_iff.mp h), seen]
  cases m.liveness[node]? with
  | none => exact ⟨rfl, rfl⟩
  | some r => exact ⟨rfl, rfl⟩

omit [DecidableEq υ] in
theorem reads_eq_of_seen_eq (hSelf : node ≠ m.selfId) (hSelf' : node ≠ m'.selfId)
    (h : m.seen node = m'.seen node) :
    m.incarnation node = m'.incarnation node ∧ m.gossipState node = m'.gossipState node := by
  obtain ⟨hIncarnation, hState⟩ := reads_of_seen hSelf
  obtain ⟨hIncarnation', hState'⟩ := reads_of_seen hSelf'
  rw [h] at hIncarnation hState
  exact ⟨UInt64.toNat_inj.mp (hIncarnation.trans hIncarnation'.symm), hState.trans hState'.symm⟩

omit [DecidableEq υ] in
theorem Sound.seen_tombstoned (h : m.Sound) (hTomb : m.isTombstoned node = true) :
    m.seen node = ⟨true, ⊥⟩ := by
  refine Seen.ext hTomb ?_
  rw [seen, h.apart node hTomb]
  rfl

def SameTuples (batches : List (NodeId × List LivenessTuple)) (received : List LivenessTuple) :
    Prop := ∀ t, t ∈ tuples batches ↔ t ∈ received

/-- Every way of merging the tuples leaves one incarnation and state for each other member. -/
def OrderFree (dial : Dial υ) (m : Membership) (received : List LivenessTuple) : Prop :=
  ∀ a b, SameTuples a received → SameTuples b received → ∀ node, node ≠ m.selfId →
    (m.mergeAll dial a).incarnation node = (m.mergeAll dial b).incarnation node ∧
      (m.mergeAll dial a).gossipState node = (m.mergeAll dial b).gossipState node

/-- However the tuples are merged, this node's own then wins over all of them about it. -/
def Refutes (dial : Dial υ) (m : Membership) (received : List LivenessTuple) : Prop :=
  ∀ a, SameTuples a received → ∀ t ∈ received, dial.canonical t.node = some m.selfId →
    t.OutbidAt ((m.mergeAll dial a).incarnation m.selfId)

omit [DecidableEq υ] in
theorem mem_about {tuples : List LivenessTuple} {x : Standing} :
    x ∈ (about dial node tuples).map (·.standing) ↔
      ∃ t ∈ tuples, dial.canonical t.node = some node ∧ t.standing = x := by
  simp [about, and_assoc]

omit [DecidableEq υ] in
theorem SameTuples.about {batches : List (NodeId × List LivenessTuple)}
    {received : List LivenessTuple} (h : SameTuples batches received) (x : Standing) :
    x ∈ (Membership.about dial node (tuples batches)).map (·.standing) ↔
      x ∈ (Membership.about dial node received).map (·.standing) := by
  rw [mem_about, mem_about]
  simp only [h _]

omit [DecidableEq υ] in
theorem Sound.ne_selfId_of_tombstoned (h : m.Sound) (hTomb : m.isTombstoned node = true) :
    node ≠ m.selfId := by
  rintro rfl
  have hTracked := h.selfTracked
  rw [h.apart _ hTomb] at hTracked
  cases hTracked

/-- Behind a tombstone, what is read of the member tells its standing once it is back. -/
theorem extremes_eq_of_orderFree (hSound : m.Sound) {received downs alives : List LivenessTuple}
    (h : OrderFree dial m received) (hTomb : m.isTombstoned node = true)
    (hSame : ∀ t, t ∈ downs ++ alives ↔ t ∈ received) :
    (((about dial node (downs ++ alives)).map (·.standing)).foldl Seen.absorb ⟨true, ⊥⟩).standing =
      (((about dial node (alives ++ downs)).map (·.standing)).foldl Seen.absorb
        ⟨true, ⊥⟩).standing := by
  have hSelf := hSound.ne_selfId_of_tombstoned hTomb
  have hSwap : ∀ t, t ∈ alives ++ downs ↔ t ∈ downs ++ alives := by
    intro t
    rw [List.mem_append, List.mem_append, or_comm]
  have hTuples : ∀ l, tuples [(m.selfId, l)] = l := by simp [tuples]
  have hEnds := h [(m.selfId, downs ++ alives)] [(m.selfId, alives ++ downs)]
    (fun t => by rw [hTuples, hSame]) (fun t => by rw [hTuples, hSwap, hSame]) node hSelf
  by_cases hAlive : ∃ x ∈ (about dial node (downs ++ alives)).map (·.standing), (ofLex x).2 = .alive
  · have hBack : ∀ l, (∀ t, t ∈ l ↔ t ∈ downs ++ alives) → ∃ x : Standing,
        ((about dial node l).map (·.standing)).foldl Seen.absorb ⟨true, ⊥⟩ = ⟨false, ↑x⟩ ∧
        ((m.mergeAll dial [(m.selfId, l)]).incarnation node).toNat = (ofLex x).1 ∧
        (m.mergeAll dial [(m.selfId, l)]).gossipState node = (ofLex x).2 := by
      intro l hl
      have hAlive' : ∃ x ∈ (about dial node l).map (·.standing), (ofLex x).2 = .alive := by
        simpa only [mem_about, hl] using hAlive
      obtain ⟨x, -, hx, -⟩ := Seen.foldl_absorb_opened hAlive'
      have hNotSelf : node ≠ (m.mergeAll dial [(m.selfId, l)]).selfId := by
        rwa [(later_mergeAll dial hSound.selfTracked _).selfId]
      have hReads := reads_of_seen hNotSelf
      rw [seen_mergeAll hSelf, hTuples, hSound.seen_tombstoned hTomb, hx] at hReads
      exact ⟨x, hx, hReads.1, hReads.2⟩
    obtain ⟨x, hx, hxInc, hxState⟩ := hBack (downs ++ alives) fun _ => Iff.rfl
    obtain ⟨y, hy, hyInc, hyState⟩ := hBack (alives ++ downs) hSwap
    have hEq : x = y := ofLex.injective (Prod.ext
      (hxInc.symm.trans ((congrArg UInt64.toNat hEnds.1).trans hyInc))
      (hxState.symm.trans (hEnds.2.trans hyState)))
    rw [hx, hy, hEq]
  · push Not at hAlive
    rw [Seen.foldl_absorb_closed hAlive rfl, Seen.foldl_absorb_closed (fun x hx => ?_) rfl]
    refine hAlive x ?_
    simpa only [mem_about, hSwap] using hx

theorem orderFree_iff (hSound : m.Sound) (received : List LivenessTuple) :
    OrderFree dial m received ↔ ∀ node, m.isTombstoned node = true →
      Seen.ReturnsCleanly ((about dial node received).map (·.standing)) := by
  constructor
  · intro h node hTomb
    obtain ⟨downs, hDowns⟩ : ∃ downs, downs = received.filter fun t => decide (t.state ≠ .alive) :=
      ⟨_, rfl⟩
    obtain ⟨alives, hAlives⟩ : ∃ alives, alives = received.filter fun t => decide (t.state = .alive) :=
      ⟨_, rfl⟩
    have hSame : ∀ t, t ∈ downs ++ alives ↔ t ∈ received := by
      intro t
      simp only [hDowns, hAlives, List.mem_append, List.mem_filter, decide_eq_true_eq,
        ← and_or_left]
      exact and_iff_left (Decidable.em _).symm
    have hEnds := extremes_eq_of_orderFree hSound h hTomb hSame
    have hSplit : ∀ a b : List LivenessTuple, (about dial node (a ++ b)).map (·.standing) =
        (about dial node a).map (·.standing) ++ (about dial node b).map (·.standing) := by
      simp [about]
    rw [hSplit, hSplit] at hEnds
    refine (Seen.returnsCleanly_of_extremes ?_ ?_ hEnds).congr ?_
    · intro x hx
      obtain ⟨t, ht, -, rfl⟩ := mem_about.mp hx
      simp only [hDowns, List.mem_filter, decide_eq_true_eq] at ht
      exact ht.2
    · intro x hx
      obtain ⟨t, ht, -, rfl⟩ := mem_about.mp hx
      simp only [hAlives, List.mem_filter, decide_eq_true_eq] at ht
      exact ht.2
    · intro x
      rw [← hSplit, mem_about, mem_about]
      simp only [hSame]
  · intro h a b ha hb node hSelf
    have hIds : ∀ c, (m.mergeAll dial c).selfId = m.selfId := fun c =>
      (later_mergeAll _ hSound.selfTracked c).selfId
    refine reads_eq_of_seen_eq (by rwa [hIds]) (by rwa [hIds]) ?_
    rw [seen_mergeAll hSelf, seen_mergeAll hSelf]
    cases hTomb : m.isTombstoned node with
    | false =>
      have hSeen : m.seen node = ⟨false, (m.seen node).standing⟩ := Seen.ext hTomb rfl
      rw [hSeen]
      exact Seen.open_order_free (fun x => (ha.about x).trans (hb.about x).symm) _
    | true =>
      rw [hSound.seen_tombstoned hTomb]
      exact (h node hTomb).order_free ha.about hb.about

theorem refutes_iff (hSound : m.Sound) (received : List LivenessTuple) :
    Refutes dial m received ↔
      ∀ t ∈ received, dial.canonical t.node = some m.selfId → t.Beatable := by
  constructor
  · intro h t ht hSelf
    exact (h [(m.selfId, received)] (by simp [SameTuples, tuples]) t ht hSelf).beatable
  · intro h a ha t ht hSelf
    exact outbid_mergeAll hSound.selfTracked ((ha t).mpr ht) hSelf (h t ht hSelf)

/-- Gossip converges, and this node refutes what it received, exactly when the tuples about a
tombstoned member end its tombstone cleanly and none suspects this node at the last incarnation. -/
theorem gossip_converges_iff (dial : Dial υ) (selfId : NodeId) (peers : List NodeId)
    (events : List Event) (received : List LivenessTuple) :
    OrderFree dial ((new selfId peers).run dial events) received ∧
        Refutes dial ((new selfId peers).run dial events) received ↔
      (∀ node, ((new selfId peers).run dial events).isTombstoned node = true →
        Seen.ReturnsCleanly ((about dial node received).map (·.standing))) ∧
      ∀ t ∈ received,
        dial.canonical t.node = some ((new selfId peers).run dial events).selfId → t.Beatable :=
  have hSound : ((new selfId peers).run dial events).Sound := (sound_new selfId peers).run events
  and_congr (orderFree_iff hSound received) (refutes_iff hSound received)

/-- A node that has reaped its only peer. -/
def afterReap : Membership :=
  (new [1] [[2]]).run Dial.plain
    (.mergeLiveness [2] [⟨[2], [], 0, .dead, false⟩] :: List.replicate 30 .reapDead)

/-- The reaped peer's return and a later death notice of it do not commute; a suspicion of this
node at the last incarnation is not answered. -/
theorem gossip_diverges :
    ¬OrderFree Dial.plain afterReap
        [⟨[2], [], 0, .alive, false⟩, ⟨[2], [], 5, .dead, false⟩] ∧
      ¬Refutes Dial.plain (new [1] [[2]])
        [⟨[1], [], UInt64.ofNat (2 ^ 64 - 1), .dead, false⟩] := by
  constructor
  · intro h
    have hReads := h [([3], [⟨[2], [], 0, .alive, false⟩, ⟨[2], [], 5, .dead, false⟩])]
      [([3], [⟨[2], [], 5, .dead, false⟩, ⟨[2], [], 0, .alive, false⟩])]
      (by simp [SameTuples, tuples]) (by simp [SameTuples, tuples, or_comm]) [2] (by decide +kernel)
    have hStates : (afterReap.mergeAll Dial.plain
          [([3], [⟨[2], [], 0, .alive, false⟩, ⟨[2], [], 5, .dead, false⟩])]).gossipState [2] ≠
        (afterReap.mergeAll Dial.plain
          [([3], [⟨[2], [], 5, .dead, false⟩, ⟨[2], [], 0, .alive, false⟩])]).gossipState [2] := by
      decide +kernel
    exact hStates hReads.2
  · intro h
    have hOutbid := h [([2], [⟨[1], [], UInt64.ofNat (2 ^ 64 - 1), .dead, false⟩])]
      (by simp [SameTuples, tuples]) _ List.mem_cons_self (by decide +kernel)
    exact hOutbid.beatable (by decide) rfl

end Membership

end Gossip

end Server

end CrdtSync
