import CrdtSync.Server.Durability

/-!
# Leadership epochs across the cluster

A node opens an epoch above every one it has seen itself, and asks nobody. So two
nodes open the same epoch exactly where the later one had not seen the earlier
one's. Where every node that opens an epoch has seen the highest one there is, each
epoch of a room has one leader.
-/

namespace CrdtSync

namespace Server

variable {σ : Type}

/-- The room and epoch a replication frame is stamped with. -/
def Message.stamp : Message σ → Option (RoomId × Nat)
  | .replicate room _ _ epoch _ => some (room, epoch)
  | .replicateMeta room epoch _ => some (room, epoch)
  | .replicateSnapshot room _ _ epoch _ _ => some (room, epoch)
  | .replicaAck _ _ => none
  | .followerHeads _ _ => none

/-- What happens to a cluster whose nodes keep their disks. -/
inductive FencedEvent (σ : Type)
  | live (event : Event) (hDisk : ∀ node, event ≠ .wipe node)
  | restart (node : NodeId) (hub : Hub σ)

/-- The node comes back from its disk: the rooms its store holds, the highest epoch it
had persisted for each, and no claim to lead any. -/
def Registry.restarted (r : Registry σ) (hub : Hub σ) : Registry σ :=
  { Registry.new r.membership.ring r.membership.selfId hub with
    epochs := ⟨r.epochs.seen, fun _ => none⟩ }

namespace Registry

variable {r r' r'' : Registry σ}

/-- The frame carries the epoch this node leads at, which is the highest it has seen. -/
def Stamped (r : Registry σ) (frame : Message σ) : Prop :=
  ∀ room epoch, frame.stamp = some (room, epoch) →
    r.epochs.led room = some epoch ∧ r.epochs.seen room ≤ epoch

/-- `r'` is `r` with epochs opened for some rooms, and frames stamped with what it leads at. -/
structure Claims (r r' : Registry σ) : Prop where
  epochs : ∀ room,
    r'.epochs.led room = r.epochs.led room ∧ r'.epochs.seen room = r.epochs.seen room ∨
    (∀ epoch, r.epochs.led room = some epoch → epoch < r.epochs.seen room) ∧
      r'.epochs.led room = some (r.epochs.seen room + 1) ∧
      r'.epochs.seen room = r.epochs.seen room + 1
  pending : ∀ entry ∈ r'.replication.pending,
    entry ∈ r.replication.pending ∨ r'.Stamped entry.2

/-- `r'` is `r` with epochs seen, claims given up and frames let go. -/
structure Defers (r r' : Registry σ) : Prop where
  seen : ∀ room, r.epochs.seen room ≤ r'.epochs.seen room
  led : ∀ room epoch, r'.epochs.led room = some epoch → r.epochs.led room = some epoch
  pending : ∀ entry ∈ r'.replication.pending, entry ∈ r.replication.pending

theorem Claims.of_eq (hEpochs : r'.epochs = r.epochs)
    (hPending : r'.replication.pending = r.replication.pending) : Claims r r' where
  epochs _ := .inl (by simp [hEpochs])
  pending _ hEntry := .inl (hPending ▸ hEntry)

theorem Stamped.claims (h : Claims r r') {frame : Message σ} (hFrame : r.Stamped frame) :
    r'.Stamped frame := by
  intro room epoch hStamp
  obtain ⟨hLed, hSeen⟩ := hFrame room epoch hStamp
  obtain ⟨hSame, hSeen'⟩ | ⟨hFresh, -, -⟩ := h.epochs room
  · exact ⟨hSame.trans hLed, hSeen'.trans_le hSeen⟩
  · exact absurd hSeen (by have := hFresh epoch hLed; omega)

theorem Claims.trans (h : Claims r r') (h' : Claims r' r'') : Claims r r'' where
  epochs room := by
    obtain ⟨hLed', hSeen'⟩ | ⟨hFresh', hLed', hSeen'⟩ := h'.epochs room
    · rw [hLed', hSeen']
      exact h.epochs room
    · obtain ⟨hLed, hSeen⟩ | ⟨-, hLed, hSeen⟩ := h.epochs room
      · rw [hLed, hSeen] at hFresh'
        rw [hSeen] at hLed' hSeen'
        exact .inr ⟨hFresh', hLed', hSeen'⟩
      · -- an epoch just opened is not below what has been seen
        have := hFresh' _ hLed
        omega
  pending entry hEntry := by
    obtain hOld | hNew := h'.pending entry hEntry
    · exact (h.pending entry hOld).imp_right (Stamped.claims h')
    · exact .inr hNew

theorem claims_foldl {β : Type} {f : Registry σ → β → Registry σ} (l : List β) (r : Registry σ)
    (hf : ∀ b ∈ l, ∀ r', Claims r r' → Claims r' (f r' b)) : Claims r (l.foldl f r) := by
  have hFold : ∀ r', Claims r r' → Claims r (l.foldl f r') := by
    induction l with
    | nil => exact fun r' h => h
    | cons b l ih =>
      intro r' h
      refine ih (fun b hb => hf b (List.mem_cons_of_mem _ hb)) _ (h.trans ?_)
      exact hf b List.mem_cons_self r' h
  exact hFold r (Claims.of_eq rfl rfl)

theorem claims_enqueue (r : Registry σ) (follower : NodeId) {frame : Message σ}
    (hFrame : r.Stamped frame) : Claims r (r.enqueue follower frame) where
  epochs _ := .inl ⟨rfl, rfl⟩
  pending entry hEntry := by
    obtain hOld | hNew := List.mem_append.mp hEntry
    · exact .inl hOld
    · rw [List.mem_singleton.mp hNew]
      exact .inr hFrame

theorem claims_claimAndPersistEpoch (r : Registry σ) (room : RoomId) :
    Claims r (r.claimAndPersistEpoch room).2 ∧
      (r.claimAndPersistEpoch room).2.epochs.led room = some (r.claimAndPersistEpoch room).1 ∧
      (r.claimAndPersistEpoch room).2.epochs.seen room ≤ (r.claimAndPersistEpoch room).1 := by
  have hFresh : (∀ epoch, r.epochs.led room = some epoch → epoch < r.epochs.seen room) →
      ∀ other,
        Function.update r.epochs.led room (some (r.epochs.seen room + 1)) other =
            r.epochs.led other ∧
          Function.update r.epochs.seen room (r.epochs.seen room + 1) other =
            r.epochs.seen other ∨
        (∀ epoch, r.epochs.led other = some epoch → epoch < r.epochs.seen other) ∧
          Function.update r.epochs.led room (some (r.epochs.seen room + 1)) other =
            some (r.epochs.seen other + 1) ∧
          Function.update r.epochs.seen room (r.epochs.seen room + 1) other =
            r.epochs.seen other + 1 := by
    intro hBelow other
    by_cases hOther : other = room
    · subst hOther
      exact .inr ⟨hBelow, by simp, by simp⟩
    · exact .inl ⟨by simp [hOther], by simp [hOther]⟩
  unfold claimAndPersistEpoch LeadershipEpochs.claimLeadership
  cases hLed : r.epochs.led room with
  | none => exact ⟨⟨hFresh (by simp [hLed]), fun _ => .inl⟩, by simp, by simp⟩
  | some epoch =>
    by_cases hKeeps : epoch ≥ r.epochs.seen room
    · simp only [if_pos hKeeps]
      exact ⟨Claims.of_eq rfl rfl, hLed, hKeeps⟩
    · simp only [if_neg hKeeps]
      refine ⟨⟨hFresh ?_, fun _ => .inl⟩, by simp, by simp⟩
      intro other hOther
      rw [hLed] at hOther
      obtain rfl := Option.some.inj hOther
      omega

theorem claims_enqueueAll (r : Registry σ) (followers : List NodeId) {frame : Message σ}
    (hFrame : r.Stamped frame) : Claims r (r.enqueueAll followers frame) :=
  claims_foldl followers r fun follower _ r' h => claims_enqueue r' follower (hFrame.claims h)

theorem claims_stamped (r : Registry σ) (room : RoomId) (followers : List NodeId)
    (frame : Nat → Message σ) (hFrame : ∀ epoch, (frame epoch).stamp = some (room, epoch)) :
    Claims r ((r.claimAndPersistEpoch room).2.enqueueAll followers
      (frame (r.claimAndPersistEpoch room).1)) := by
  obtain ⟨hClaims, hLed, hSeen⟩ := r.claims_claimAndPersistEpoch room
  refine hClaims.trans (claims_enqueueAll _ followers ?_)
  intro other epoch hStamp
  rw [hFrame] at hStamp
  obtain ⟨rfl, rfl⟩ := Prod.mk.inj (Option.some.inj hStamp)
  exact ⟨hLed, hSeen⟩

theorem claims_enqueueReplication (r : Registry σ) (room : RoomId) (ops : List Op) :
    Claims r (r.enqueueReplication room ops) := by
  unfold enqueueReplication
  dsimp only
  split
  · exact Claims.of_eq rfl rfl
  · exact claims_stamped r room _ (fun epoch => .replicate room ops (r.hub.baseSeq room) epoch
      (r.hub.roomCreator room)) fun _ => rfl

theorem claims_enqueueRootReplication (r : Registry σ) (room : RoomId) :
    Claims r (r.enqueueRootReplication room) := by
  unfold enqueueRootReplication
  split
  · exact Claims.of_eq rfl rfl
  · next creator _ =>
    dsimp only
    split
    · exact Claims.of_eq rfl rfl
    · exact claims_stamped r room _ (fun epoch => .replicateMeta room epoch (some creator))
        fun _ => rfl

theorem claims_catchUpRoomFrame (r : Registry σ) (room : RoomId) (floor : Nat) :
    Claims r (r.catchUpRoomFrame room floor).2 ∧
      ∀ frame ∈ (r.catchUpRoomFrame room floor).1, (r.catchUpRoomFrame room floor).2.Stamped frame := by
  obtain ⟨hClaims, hLed, hSeen⟩ := r.claims_claimAndPersistEpoch room
  have hStamped : ∀ frame : Message σ,
      frame.stamp = some (room, (r.claimAndPersistEpoch room).1) →
      (r.claimAndPersistEpoch room).2.Stamped frame := by
    intro frame hFrame other epoch hStamp
    rw [hFrame] at hStamp
    obtain ⟨rfl, rfl⟩ := Prod.mk.inj (Option.some.inj hStamp)
    exact ⟨hLed, hSeen⟩
  unfold catchUpRoomFrame
  dsimp only
  split
  · split
    · exact ⟨Claims.of_eq rfl rfl, by simp⟩
    · exact ⟨hClaims, by rintro frame ⟨⟩; exact hStamped _ rfl⟩
  · exact ⟨hClaims, by rintro frame ⟨⟩; exact hStamped _ rfl⟩
  · exact ⟨hClaims, by rintro frame ⟨⟩; exact hStamped _ rfl⟩

/-- What a catch-up loop keeps: every frame it dials carries what the node now leads at. -/
def Stamps (r : Registry σ) (s : DialFrames σ × Registry σ) : Prop :=
  Claims r s.2 ∧ ∀ frame ∈ s.1.deltas ++ s.1.roots, s.2.Stamped frame

theorem Stamps.push {s : DialFrames σ × Registry σ} (h : Stamps r s) {credited : Registry σ}
    (hCredited : Claims s.2 credited) (room : RoomId) (floor : Nat) :
    Stamps r (s.1.push (credited.catchUpRoomFrame room floor).1,
      (credited.catchUpRoomFrame room floor).2) := by
  obtain ⟨hClaims, hFrame⟩ := credited.claims_catchUpRoomFrame room floor
  refine ⟨(h.1.trans hCredited).trans hClaims, ?_⟩
  intro frame hMem
  obtain hOld | hNew := mem_dial_push hMem
  · exact (h.2 frame hOld).claims (hCredited.trans hClaims)
  · exact hFrame frame hNew

theorem Stamps.enqueueDial {s : DialFrames σ × Registry σ} (h : Stamps r s) (follower : NodeId) :
    Claims r (s.2.enqueueDial follower s.1) :=
  h.1.trans <| claims_foldl _ s.2 fun frame hFrame r' hr' =>
    claims_enqueue r' follower ((h.2 frame hFrame).claims hr')

theorem Stamps.foldl {f : DialFrames σ × Registry σ → RoomId → DialFrames σ × Registry σ}
    (hf : ∀ s room, Stamps r s → Stamps r (f s room)) (rooms : List RoomId) :
    Stamps r (rooms.foldl f (⟨[], []⟩, r)) := by
  have hFold : ∀ s, Stamps r s → Stamps r (rooms.foldl f s) := by
    induction rooms with
    | nil => exact fun s h => h
    | cons room rooms ih => exact fun s h => ih _ (hf s room h)
  exact hFold _ ⟨Claims.of_eq rfl rfl, by simp⟩

theorem claims_catchUpFollower (r : Registry σ) (follower : NodeId) :
    Claims r (r.catchUpFollower follower) :=
  (Stamps.foldl (fun _ room h => h.push (Claims.of_eq rfl rfl) room _) _).enqueueDial follower

theorem claims_catchUpFollowerReporting (r : Registry σ) (follower : NodeId)
    (heads : List (RoomId × Nat)) : Claims r (r.catchUpFollowerReporting follower heads) := by
  refine (Stamps.foldl (fun s room h => ?_) _).enqueueDial follower
  have hCredited : Claims s.2 (s.2.setWatermark follower room (s.2.reportedFloor heads room)) :=
    Claims.of_eq rfl rfl
  exact h.push hCredited room _

theorem claims_reportHeadsTo (r : Registry σ) (leader : NodeId) :
    Claims r (r.reportHeadsTo leader) := by
  unfold reportHeadsTo
  split
  · exact Claims.of_eq rfl rfl
  · exact claims_enqueue r leader fun room epoch hStamp => by cases hStamp

theorem claims_acknowledge (r : Registry σ) (conn : ConnId) (room : RoomId) (res : Response) :
    Claims r (r.acknowledge conn room res) := by
  unfold acknowledge
  split
  · exact Claims.of_eq rfl rfl
  · dsimp only
    split
    · exact Claims.of_eq rfl rfl
    · exact Claims.of_eq rfl rfl

theorem Defers.of_eq (hEpochs : r'.epochs = r.epochs)
    (hPending : r'.replication.pending = r.replication.pending) : Defers r r' :=
  ⟨fun _ => by rw [hEpochs], fun _ _ h => hEpochs ▸ h, fun _ h => hPending ▸ h⟩

theorem defers_gateReplicaFrame (r : Registry σ) (sender : NodeId) (room : RoomId) (epoch : Nat) :
    Defers r (r.gateReplicaFrame sender room epoch).2 := by
  unfold gateReplicaFrame
  split
  · refine ⟨fun other => ?_, fun other led hLed => ?_, fun _ => id⟩
    · have hSeen : (r.epochs.supersedeIfLeading room epoch).seen = r.epochs.seen := by
        unfold LeadershipEpochs.supersedeIfLeading
        split <;> rfl
      simp only [LeadershipEpochs.observe, hSeen]
      by_cases hOther : other = room
      · subst hOther
        simp
      · simp [hOther]
    · change (r.epochs.supersedeIfLeading room epoch).led other = some led at hLed
      unfold LeadershipEpochs.supersedeIfLeading at hLed
      split at hLed
      · by_cases hOther : other = room
        · subst hOther
          simp at hLed
        · simpa [hOther] using hLed
      · exact hLed
  · exact Defers.of_eq rfl rfl

theorem Defers.withHub (h : Defers r r') (hub : Hub σ) : Defers r { r' with hub } :=
  ⟨h.seen, h.led, h.pending⟩

theorem Defers.adoptReplicatedMeta (h : Defers r r') (room : RoomId) (creator : Option Bytes) :
    Defers r (r'.adoptReplicatedMeta room creator) := by
  cases creator with
  | none => exact h
  | some creator => exact h.withHub _

variable [Folds σ]

/-- Receiving a frame opens no epoch, unless it is a report that is answered. -/
theorem receive_defers_or_claims (r : Registry σ) (sender : NodeId) (message : Message σ) :
    (Defers r (r.receive sender message).1 ∨ Claims r (r.receive sender message).1) ∧
      ∀ reply ∈ (r.receive sender message).2, reply.stamp = none := by
  cases message with
  | replicate room ops baseSeq epoch creator =>
    have hGate := r.defers_gateReplicaFrame sender room epoch
    change (Defers r (r.applyReplicate sender room ops epoch creator).1 ∨ _) ∧
      ∀ reply ∈ (r.applyReplicate sender room ops epoch creator).2, _
    unfold applyReplicate
    split
    · next r' hApply =>
      rw [hApply] at hGate
      exact ⟨.inl ((hGate.withHub _).adoptReplicatedMeta room creator), by simp [Message.stamp]⟩
    · next r' _ hApply =>
      rw [hApply] at hGate
      exact ⟨.inl hGate, by simp⟩
  | replicateMeta room epoch creator =>
    have hGate := r.defers_gateReplicaFrame sender room epoch
    refine ⟨.inl ?_, by simp [receive]⟩
    change Defers r (r.applyReplicateMeta sender room epoch creator)
    unfold applyReplicateMeta
    cases creator with
    | none => exact Defers.of_eq rfl rfl
    | some creator =>
      dsimp only
      split
      · exact Defers.of_eq rfl rfl
      · split
        · next r' hApply =>
          rw [hApply] at hGate
          exact hGate.withHub _
        · next r' _ hApply =>
          rw [hApply] at hGate
          exact hGate
  | replicateSnapshot room seq state epoch creator history =>
    have hGate := r.defers_gateReplicaFrame sender room epoch
    change (Defers r (r.applyReplicateSnapshot sender room seq state epoch creator history).1 ∨ _) ∧
      ∀ reply ∈ (r.applyReplicateSnapshot sender room seq state epoch creator history).2, _
    unfold applyReplicateSnapshot
    split
    · next r' hApply =>
      rw [hApply] at hGate
      exact ⟨.inl ((hGate.withHub _).adoptReplicatedMeta room creator), by simp [Message.stamp]⟩
    · next r' _ hApply =>
      rw [hApply] at hGate
      exact ⟨.inl hGate, by simp⟩
  | replicaAck room throughSeq =>
    refine ⟨.inl ?_, by simp [receive]⟩
    change Defers r (r.recordReplicaAck sender room throughSeq)
    unfold recordReplicaAck
    split <;> exact Defers.of_eq rfl rfl
  | followerHeads reporter heads =>
    refine ⟨.inr ?_, by simp [receive]⟩
    change Claims r (r.applyFollowerHeads sender reporter heads)
    unfold applyFollowerHeads
    split
    · exact Claims.of_eq rfl rfl
    · exact r.claims_catchUpFollowerReporting sender heads

theorem claims_deliver (r : Registry σ) (conn : ConnId) (channel : Nat) (actor : Bytes)
    (room : RoomId) (ops : List Op) : Claims r (r.deliver conn channel actor room ops) := by
  unfold deliver
  cases hOps : r.handleOps channel actor room ops with
  | none => exact Claims.of_eq rfl rfl
  | some served =>
    obtain ⟨res, r₁⟩ := served
    obtain ⟨-, -, -, -, hub, rfl, -, -⟩ := handleOps_eq_some hOps
    have hServed : Claims r { r with hub } := Claims.of_eq rfl rfl
    refine (hServed.trans ?_).trans (claims_acknowledge _ conn room res)
    split
    · exact claims_enqueueReplication ..
    · split
      · exact claims_enqueueRootReplication ..
      · exact Claims.of_eq rfl rfl

end Registry

namespace Cluster

variable {c : Cluster σ}

@[simp]
theorem nodes_act_self (c : Cluster σ) (node : NodeId) (r : Registry σ)
    (posted : List (Envelope σ)) : (c.act node r posted).nodes node = r :=
  Function.update_self ..

theorem nodes_act_of_ne (c : Cluster σ) (r : Registry σ) (posted : List (Envelope σ))
    {node other : NodeId} (h : other ≠ node) : (c.act node r posted).nodes other = c.nodes other :=
  Function.update_of_ne h ..

def Stamped (c : Cluster σ) (node : NodeId) (room : RoomId) (epoch : Nat) : Prop :=
  (∃ entry ∈ (c.nodes node).replication.pending, entry.2.stamp = some (room, epoch)) ∨
    ∃ envelope ∈ c.net, envelope.src = node ∧ envelope.message.stamp = some (room, epoch)

variable [Folds σ]

def fencedStep (c : Cluster σ) : FencedEvent σ → Cluster σ
  | .live event _ => c.step event
  | .restart node hub => c.act node ((c.nodes node).restarted hub) []

def fencedRun (c : Cluster σ) (events : List (FencedEvent σ)) : Cluster σ :=
  events.foldl fencedStep c

/-- A node that opens an epoch in this step has seen every epoch any node has. -/
def PromotesHighest (c : Cluster σ) (event : FencedEvent σ) : Prop :=
  ∀ node room,
    ((c.fencedStep event).nodes node).epochs.led room =
      some ((c.nodes node).epochs.highestSeen room + 1) →
    ∀ other, (c.nodes other).epochs.highestSeen room ≤ (c.nodes node).epochs.highestSeen room

def RunPromotesHighest (c : Cluster σ) : List (FencedEvent σ) → Prop
  | [] => True
  | event :: events => c.PromotesHighest event ∧ (c.fencedStep event).RunPromotesHighest events

/-- `led node room epoch` holds of every epoch a node has led at, each by one node. -/
structure Led (led : NodeId → RoomId → Nat → Prop) (c : Cluster σ) : Prop where
  unique : ∀ a b room epoch, led a room epoch → led b room epoch → a = b
  seen : ∀ node room epoch, led node room epoch → epoch ≤ (c.nodes node).epochs.seen room
  claims : ∀ node room epoch, (c.nodes node).epochs.led room = some epoch → led node room epoch
  stamps : ∀ node room epoch, c.Stamped node room epoch → led node room epoch

omit [Folds σ] in
/-- A frame stamped after a node has acted was stamped before, is now queued there, or was
posted by it. -/
theorem stamped_act {node other : NodeId} {r : Registry σ} {posted : List (Envelope σ)}
    {room : RoomId} {epoch : Nat} (h : (c.act node r posted).Stamped other room epoch) :
    c.Stamped other room epoch ∨
    other = node ∧ (∃ entry ∈ r.replication.pending, entry.2.stamp = some (room, epoch)) ∨
    ∃ envelope ∈ posted, envelope.src = other ∧ envelope.message.stamp = some (room, epoch) := by
  obtain ⟨entry, hEntry, hStamp⟩ | ⟨envelope, hEnvelope, hSrc⟩ := h
  · by_cases hOther : other = node
    · subst hOther
      rw [nodes_act_self] at hEntry
      exact .inr (.inl ⟨rfl, entry, hEntry, hStamp⟩)
    · rw [nodes_act_of_ne _ _ _ hOther] at hEntry
      exact .inl (.inl ⟨entry, hEntry, hStamp⟩)
  · obtain hOld | hNew := List.mem_append.mp hEnvelope
    · exact .inl (.inr ⟨envelope, hOld, hSrc⟩)
    · exact .inr (.inr ⟨envelope, hNew, hSrc⟩)

omit [Folds σ] in
theorem Led.defers {led : NodeId → RoomId → Nat → Prop} (h : Led led c) (node : NodeId)
    {r : Registry σ} (hDefers : Registry.Defers (c.nodes node) r) {posted : List (Envelope σ)}
    (hPosted : ∀ envelope ∈ posted, envelope.message.stamp = none ∨
      envelope.src = node ∧ ∃ entry ∈ (c.nodes node).replication.pending,
        entry.2 = envelope.message) : Led led (c.act node r posted) where
  unique := h.unique
  seen other room epoch hLed := by
    have hSeen := h.seen other room epoch hLed
    by_cases hOther : other = node
    · subst hOther
      simpa [act] using hSeen.trans (hDefers.seen room)
    · simpa [act, hOther] using hSeen
  claims other room epoch hLed := by
    by_cases hOther : other = node
    · subst hOther
      rw [nodes_act_self] at hLed
      exact h.claims other room epoch (hDefers.led room epoch hLed)
    · rw [nodes_act_of_ne _ _ _ hOther] at hLed
      exact h.claims other room epoch hLed
  stamps other room epoch hStamped := by
    obtain hOld | ⟨rfl, entry, hEntry, hStamp⟩ | ⟨envelope, hEnvelope, hSrc, hStamp⟩ :=
      stamped_act hStamped
    · exact h.stamps other room epoch hOld
    · exact h.stamps other room epoch (.inl ⟨entry, hDefers.pending entry hEntry, hStamp⟩)
    · obtain hNone | ⟨hNode, entry, hEntry, hMessage⟩ := hPosted envelope hEnvelope
      · rw [hNone] at hStamp
        cases hStamp
      · rw [← hSrc, hNode]
        exact h.stamps node room epoch (.inl ⟨entry, hEntry, hMessage ▸ hStamp⟩)

omit [Folds σ] in
theorem Led.opens {led : NodeId → RoomId → Nat → Prop} (h : Led led c) (node : NodeId)
    {r : Registry σ} (hClaims : Registry.Claims (c.nodes node) r)
    (hHighest : ∀ room, r.epochs.led room = some ((c.nodes node).epochs.seen room + 1) →
      ∀ other, (c.nodes other).epochs.seen room ≤ (c.nodes node).epochs.seen room)
    {posted : List (Envelope σ)} (hPosted : ∀ envelope ∈ posted, envelope.message.stamp = none) :
    ∃ led', (∀ a room epoch, led a room epoch → led' a room epoch) ∧
      Led led' (c.act node r posted) := by
  have hNew : ∀ room epoch, r.epochs.led room = some epoch → ¬led node room epoch →
      ∀ other, ¬led other room epoch := by
    intro room epoch hLed hNot other hOther
    obtain ⟨hSame, -⟩ | ⟨-, hOpened, -⟩ := hClaims.epochs room
    · exact hNot (h.claims node room epoch (hSame ▸ hLed))
    · obtain rfl := Option.some.inj (hOpened.symm.trans hLed)
      have hSeen := h.seen other room _ hOther
      have hBelow := hHighest room hOpened other
      omega
  have hSeenGrows : ∀ room, (c.nodes node).epochs.seen room ≤ r.epochs.seen room := by
    intro room
    obtain ⟨-, hSame⟩ | ⟨-, -, hSeen⟩ := hClaims.epochs room
    · exact hSame.ge
    · omega
  refine ⟨fun a room epoch => led a room epoch ∨ a = node ∧ r.epochs.led room = some epoch,
    fun _ _ _ => .inl, ?_, ?_, ?_, ?_⟩
  · rintro a b room epoch (hA | ⟨rfl, hA⟩) (hB | ⟨rfl, hB⟩)
    · exact h.unique a b room epoch hA hB
    · by_contra hNe
      exact hNew room epoch hB (fun hOwn => hNe (h.unique a b room epoch hA hOwn)) a hA
    · by_contra hNe
      exact hNew room epoch hA (fun hOwn => hNe (h.unique a b room epoch hOwn hB)) b hB
    · rfl
  · rintro other room epoch (hOld | ⟨rfl, hLed⟩)
    · have hSeen := h.seen other room epoch hOld
      by_cases hOther : other = node
      · subst hOther
        simpa [act] using hSeen.trans (hSeenGrows room)
      · simpa [act, hOther] using hSeen
    · have hBound : epoch ≤ r.epochs.seen room := by
        obtain ⟨hSame, -⟩ | ⟨-, hOpened, hSeen⟩ := hClaims.epochs room
        · exact (h.seen other room epoch (h.claims other room epoch (hSame ▸ hLed))).trans
            (hSeenGrows room)
        · have := Option.some.inj (hOpened.symm.trans hLed)
          omega
      simpa [act] using hBound
  · intro other room epoch hLed
    by_cases hOther : other = node
    · subst hOther
      rw [nodes_act_self] at hLed
      exact .inr ⟨rfl, hLed⟩
    · rw [nodes_act_of_ne _ _ _ hOther] at hLed
      exact .inl (h.claims other room epoch hLed)
  · intro other room epoch hStamped
    obtain hOld | ⟨rfl, entry, hEntry, hStamp⟩ | ⟨envelope, hEnvelope, -, hStamp⟩ :=
      stamped_act hStamped
    · exact .inl (h.stamps other room epoch hOld)
    · obtain hOld | hStamps := hClaims.pending entry hEntry
      · exact .inl (h.stamps other room epoch (.inl ⟨entry, hOld, hStamp⟩))
      · exact .inr ⟨rfl, (hStamps room epoch hStamp).1⟩
    · rw [hPosted envelope hEnvelope] at hStamp
      cases hStamp

theorem Led.step {led : NodeId → RoomId → Nat → Prop} (h : Led led c) {event : FencedEvent σ}
    (hHighest : c.PromotesHighest event) :
    ∃ led', (∀ a room epoch, led a room epoch → led' a room epoch) ∧
      Led led' (c.fencedStep event) := by
  have hClaims : ∀ node r posted, c.fencedStep event = c.act node r posted →
      Registry.Claims (c.nodes node) r → (∀ envelope ∈ posted, envelope.message.stamp = none) →
      ∃ led', (∀ a room epoch, led a room epoch → led' a room epoch) ∧
        Led led' (c.fencedStep event) := by
    intro node r posted hStep hClaims hPosted
    rw [hStep]
    refine h.opens node hClaims (fun room hOpened => ?_) hPosted
    refine hHighest node room ?_
    rw [hStep, nodes_act_self]
    exact hOpened
  have hDefers : ∀ node r posted, c.fencedStep event = c.act node r posted →
      Registry.Defers (c.nodes node) r →
      (∀ envelope ∈ posted, envelope.message.stamp = none ∨ envelope.src = node ∧
        ∃ entry ∈ (c.nodes node).replication.pending, entry.2 = envelope.message) →
      ∃ led', (∀ a room epoch, led a room epoch → led' a room epoch) ∧
        Led led' (c.fencedStep event) := by
    intro node r posted hStep hDefers hPosted
    rw [hStep]
    exact ⟨led, fun _ _ _ => id, h.defers node hDefers hPosted⟩
  cases event with
  | restart node hub =>
    refine hDefers node _ [] rfl ⟨fun _ => le_rfl, ?_, ?_⟩ (by simp)
    · simp [Registry.restarted]
    · simp [Registry.restarted, Registry.new, Replication.new]
  | live event hDisk =>
    cases event with
    | write node conn channel actor room ops =>
      exact hClaims node _ [] rfl (Registry.claims_deliver ..) (by simp)
    | dispatch node =>
      refine hDefers node _ _ rfl ⟨fun _ => le_rfl, fun _ _ => id, ?_⟩ ?_
      · simp
      · intro envelope hEnvelope
        obtain ⟨frame, hFrame, rfl⟩ := List.mem_map.mp hEnvelope
        exact .inr ⟨rfl, frame, hFrame, rfl⟩
    | deliver index =>
      cases hNet : c.net[index]? with
      | none =>
        have hStep : c.fencedStep (.live (.deliver index) hDisk) = c := step_deliver_of_none hNet
        rw [hStep]
        exact ⟨led, fun _ _ _ => id, h⟩
      | some envelope =>
        have hStep : c.fencedStep (.live (.deliver index) hDisk) = _ := step_deliver_of_some hNet
        obtain ⟨hReceived, hReplies⟩ :=
          (c.nodes envelope.dst).receive_defers_or_claims envelope.src envelope.message
        have hPosted : ∀ reply ∈ ((c.nodes envelope.dst).receive envelope.src
            envelope.message).2.map fun reply =>
              (⟨envelope.dst, envelope.src, reply⟩ : Envelope σ), reply.message.stamp = none := by
          intro reply hReply
          obtain ⟨message, hMem, rfl⟩ := List.mem_map.mp hReply
          exact hReplies message hMem
        cases hReceived with
        | inl hDefer =>
          exact hDefers envelope.dst _ _ hStep hDefer fun reply hReply => .inl (hPosted reply hReply)
        | inr hClaim => exact hClaims envelope.dst _ _ hStep hClaim hPosted
    | linkUp node peer =>
      refine hClaims node _ [] rfl (((c.nodes node).claims_catchUpFollower peer).trans ?_) (by simp)
      exact Registry.claims_reportHeadsTo _ peer
    | liveness node down => exact hClaims node _ [] rfl (Registry.Claims.of_eq rfl rfl) (by simp)
    | compact node room => exact hClaims node _ [] rfl (Registry.Claims.of_eq rfl rfl) (by simp)
    | disconnect node conn => exact hClaims node _ [] rfl (Registry.Claims.of_eq rfl rfl) (by simp)
    | wipe node => exact absurd rfl (hDisk node)

omit [Folds σ] in
theorem led_start (p : Deployment σ) : Led (fun _ _ _ => False) (start p) where
  unique _ _ _ _ h := h.elim
  seen _ _ _ h := h.elim
  claims node room epoch hLed := by simp [start, Registry.new] at hLed
  stamps node room epoch hStamped := by
    obtain ⟨entry, hEntry, -⟩ | ⟨envelope, hEnvelope, -⟩ := hStamped
    · simp [start, Registry.new, Replication.new] at hEntry
    · simp [start] at hEnvelope

theorem Led.run {led : NodeId → RoomId → Nat → Prop} (h : Led led c)
    {events : List (FencedEvent σ)} (hHighest : c.RunPromotesHighest events) :
    ∃ led' : NodeId → RoomId → Nat → Prop, (∀ a room epoch, led a room epoch → led' a room epoch) ∧
      (∀ a b room epoch, led' a room epoch → led' b room epoch → a = b) ∧
      ∀ n node room epoch, (c.fencedRun (events.take n)).Stamped node room epoch →
        led' node room epoch := by
  induction events generalizing c led with
  | nil =>
    refine ⟨led, fun _ _ _ => id, h.unique, ?_⟩
    intro n node room epoch hStamped
    rw [List.take_nil] at hStamped
    exact h.stamps node room epoch hStamped
  | cons event events ih =>
    obtain ⟨led', hGrows, hLed⟩ := h.step hHighest.1
    obtain ⟨led'', hGrows', hUnique, hRun⟩ := ih hLed hHighest.2
    refine ⟨led'', fun a room epoch hOld => hGrows' a room epoch (hGrows a room epoch hOld),
      hUnique, ?_⟩
    intro n node room epoch hStamped
    cases n with
    | zero => exact hGrows' _ _ _ (hGrows _ _ _ (h.stamps node room epoch hStamped))
    | succ n => exact hRun n node room epoch hStamped

/-- Over steps in which every node that opens an epoch has seen the highest one, no two
nodes ever stamp a frame of one room with one epoch, and no two frames in flight carry
one epoch of a room from different nodes. -/
theorem one_leader_per_epoch (p : Deployment σ) (events : List (FencedEvent σ))
    (hHighest : (start p).RunPromotesHighest events) :
    (∀ m n a b room epoch, ((start p).fencedRun (events.take m)).Stamped a room epoch →
      ((start p).fencedRun (events.take n)).Stamped b room epoch → a = b) ∧
    ∀ n, ∀ e₁ ∈ ((start p).fencedRun (events.take n)).net,
      ∀ e₂ ∈ ((start p).fencedRun (events.take n)).net,
        e₁.message.stamp.isSome → e₁.message.stamp = e₂.message.stamp → e₁.src = e₂.src := by
  obtain ⟨led, -, hUnique, hStamps⟩ := (led_start p).run hHighest
  constructor
  · intro m n a b room epoch hA hB
    exact hUnique a b room epoch (hStamps m a room epoch hA) (hStamps n b room epoch hB)
  · intro n e₁ h₁ e₂ h₂ hSome hSame
    obtain ⟨⟨room, epoch⟩, hStamp⟩ := Option.isSome_iff_exists.mp hSome
    refine hUnique e₁.src e₂.src room epoch (hStamps n _ _ _ ?_) (hStamps n _ _ _ ?_)
    · exact .inr ⟨e₁, h₁, rfl, hStamp⟩
    · exact .inr ⟨e₂, h₂, rfl, hSame ▸ hStamp⟩

section Witness

local instance epochIdBytes : IdBytes := IdBytes.spelled

/-- A write through the first replica, which opens its first epoch. -/
def ledWrite : List (FencedEvent Content) :=
  [.live (.write [65] 1 0 [49] [114] [slotSet 0]) (by simp)]

theorem one_leader_per_epoch_led :
    (∀ m n a b room epoch,
      ((start trioDeployment).fencedRun (ledWrite.take m)).Stamped a room epoch →
      ((start trioDeployment).fencedRun (ledWrite.take n)).Stamped b room epoch → a = b) ∧
    ∀ n, ∀ e₁ ∈ ((start trioDeployment).fencedRun (ledWrite.take n)).net,
      ∀ e₂ ∈ ((start trioDeployment).fencedRun (ledWrite.take n)).net,
        e₁.message.stamp.isSome → e₁.message.stamp = e₂.message.stamp → e₁.src = e₂.src :=
  one_leader_per_epoch trioDeployment ledWrite ⟨fun _ _ _ _ => Nat.zero_le _, trivial⟩

/-- The first replica leads, and its frame reaches the others. The second replica loses
the link to it and takes over. -/
def takeover : List (FencedEvent Content) :=
  [.live (.write [65] 1 0 [49] [114] [slotSet 0]) (by simp), .live (.dispatch [65]) (by simp),
    .live (.deliver 0) (by simp), .live (.deliver 1) (by simp),
    .live (.liveness [66] {[65]}) (by simp),
    .live (.write [66] 2 0 [49] [114] [slotSet 1]) (by simp), .live (.dispatch [66]) (by simp)]

/-- The first replica comes back from its disk, knows of no epoch above its own, and opens
the epoch the second one leads at. The third replica applies the frames of both. -/
def recovery : List (FencedEvent Content) :=
  takeover ++
    [.restart [65] (((start trioDeployment).fencedRun takeover).nodes [65]).hub,
      .live (.write [65] 3 0 [49] [114] [slotSet 2]) (by simp), .live (.dispatch [65]) (by simp)]

theorem two_leaders_at_one_epoch :
    ¬∀ events : List (FencedEvent Content), ∀ m n a b room epoch,
      ((start trioDeployment).fencedRun (events.take m)).Stamped a room epoch →
      ((start trioDeployment).fencedRun (events.take n)).Stamped b room epoch → a = b := by
  intro h
  have hNet : ∀ src, (∃ envelope ∈ ((start trioDeployment).fencedRun recovery).net,
      envelope.src = src ∧ envelope.message.stamp = some ([114], 2)) →
      ((start trioDeployment).fencedRun (recovery.take 10)).Stamped src [114] 2 :=
    fun src hSrc => .inr hSrc
  have hSame := h recovery 10 10 [65] [66] [114] 2 (hNet [65] (by decide +kernel))
    (hNet [66] (by decide +kernel))
  exact absurd hSame (by decide)

end Witness

end Cluster

end Server

end CrdtSync
