import CrdtSync.Core.Restored
import CrdtSync.Server.Cluster

/-!
# Majority durability

A follower acknowledges a count. The count stands for the leader's own positions as
long as every frame a follower applies continues the leader's log where the
follower's stops, every head a follower reports agrees with the leader's log, and no
write is answered because its batch was logged before. Over such steps a watermark
never claims what the follower does not hold, so every released answer is backed by
a majority.
-/

namespace CrdtSync

namespace Server

variable {σ : Type} {ring : Ring}

/-- What every node has sequenced for every room. -/
abbrev Histories := NodeId → RoomId → List OpId

namespace Histories

variable {hist hist' : Histories}

/-- `follower` holds the first `w` ops of `node`'s log. -/
def Backs (hist : Histories) (node : NodeId) (room : RoomId) (follower : NodeId) (w : Nat) : Prop :=
  w ≤ (hist node room).length ∧ ∀ id ∈ (hist node room).take w, id ∈ hist follower room

def Majority (ring : Ring) (hist : Histories) (room : RoomId) (ops : List OpId) : Prop :=
  (ring.replicasFor room).length / 2 + 1 ≤
    ((ring.replicasFor room).filter fun node => ∀ id ∈ ops, id ∈ hist node room).length

instance (ring : Ring) (hist : Histories) (room : RoomId) (ops : List OpId) :
    Decidable (hist.Majority ring room ops) := inferInstanceAs (Decidable (_ ≤ _))

/-- No log lost or reordered anything. -/
def Extends (hist hist' : Histories) : Prop := ∀ node room, hist node room <+: hist' node room

theorem take_eq_of_initial {l l' : List OpId} (h : l <+: l') {w : Nat} (hw : w ≤ l.length) :
    l'.take w = l.take w := by
  obtain ⟨rest, rfl⟩ := h
  exact List.take_append_of_le_length hw

theorem Backs.mono (hExt : Extends hist hist') {node : NodeId} {room : RoomId} {follower : NodeId}
    {w : Nat} (h : hist.Backs node room follower w) : hist'.Backs node room follower w := by
  refine ⟨h.1.trans (hExt node room).length_le, ?_⟩
  rw [take_eq_of_initial (hExt node room) h.1]
  exact fun id hId => (hExt follower room).subset (h.2 id hId)

theorem Majority.mono (hExt : Extends hist hist') {room : RoomId} {ops : List OpId}
    (h : hist.Majority ring room ops) : hist'.Majority ring room ops := by
  refine h.trans (List.Sublist.length_le ?_)
  apply List.monotone_filter_right
  intro node hNode
  rw [decide_eq_true_eq] at hNode ⊢
  exact fun id hId => (hExt node room).subset (hNode id hId)

end Histories

open Histories

/-- What a frame in flight from `src` to `dst` may still claim. -/
def Message.Backed (hist : Histories) (src dst : NodeId) : Message σ → Prop
  | .replicateSnapshot room _ _ _ _ history => history <+: hist src room
  | .replicaAck room throughSeq => hist.Backs dst room src throughSeq
  | _ => True

theorem Message.Backed.mono {hist hist' : Histories} (hExt : Extends hist hist') {src dst : NodeId}
    {frame : Message σ} (h : frame.Backed hist src dst) : frame.Backed hist' src dst := by
  cases frame with
  | replicateSnapshot room seq state epoch creator history => exact h.trans (hExt src room)
  | replicaAck room throughSeq => exact Backs.mono hExt h
  | replicate | replicateMeta | followerHeads => trivial

namespace Registry

variable {hist hist' : Histories} {node : NodeId} {r r' : Registry σ}

/-- Everything a node believes about its followers is so. -/
structure Durable (ring : Ring) (hist : Histories) (node : NodeId) (r : Registry σ) : Prop where
  sameRing : r.membership.ring = ring
  selfId : r.membership.selfId = node
  watermarks : ∀ room follower, hist.Backs node room follower (r.replication.acked room follower)
  pendingAcks : ∀ entry ∈ r.pendingAcks, entry.accepted.room = entry.room ∧
    node ∈ ring.replicasFor entry.room ∧
      ∀ id ∈ entry.accepted.ops, id ∈ (hist node entry.room).take entry.seq
  outbox : ∀ entry ∈ r.outbox, hist.Majority ring entry.2.room entry.2.ops
  pending : ∀ entry ∈ r.replication.pending, entry.2.Backed hist node entry.1

theorem Durable.mono (hExt : Extends hist hist') (h : r.Durable ring hist node) :
    r.Durable ring hist' node where
  sameRing := h.sameRing
  selfId := h.selfId
  watermarks room follower := (h.watermarks room follower).mono hExt
  pendingAcks entry hEntry := by
    obtain ⟨hRoom, hReplica, hOps⟩ := h.pendingAcks entry hEntry
    refine ⟨hRoom, hReplica, fun id hId => ?_⟩
    exact ((hExt node entry.room).take entry.seq).subset (hOps id hId)
  outbox entry hEntry := (h.outbox entry hEntry).mono hExt
  pending entry hEntry := (h.pending entry hEntry).mono hExt

theorem mem_replicasFor_of_serves {m : Membership} {room : RoomId}
    (h : m.redirectIfNotLeader room = none) : m.selfId ∈ m.ring.replicasFor room := by
  unfold Membership.redirectIfNotLeader at h
  rw [Option.filter_eq_none_iff] at h
  cases hLive : m.effectivePrimaryFor room with
  | some leader =>
    have hSelf : leader = m.selfId := by
      have hNot := h leader (by rw [hLive]; rfl)
      simpa [Membership.isSelf] using hNot
    rw [← hSelf]
    exact List.mem_of_find?_eq_some hLive
  | none =>
    cases hPrimary : m.primaryFor room with
    | none => exact absurd (List.head?_eq_none_iff.mp hPrimary) (m.ring.nonempty room)
    | some leader =>
      have hSelf : leader = m.selfId := by
        have hNot := h leader (by rw [hLive, hPrimary]; rfl)
        simpa [Membership.isSelf] using hNot
      rw [← hSelf]
      exact List.mem_of_head? hPrimary

theorem Durable.majority (h : r.Durable ring hist node) {room : RoomId} {seq : Nat}
    (hNode : node ∈ ring.replicasFor room) (hQuorum : r.writeHasMajority room seq)
    {ops : List OpId} (hOps : ∀ id ∈ ops, id ∈ (hist node room).take seq) :
    hist.Majority ring room ops := by
  let holds : NodeId → Bool := fun other => ∀ id ∈ ops, id ∈ hist other room
  have hSelf : holds node = true := by
    simp only [holds, decide_eq_true_eq]
    exact fun id hId => List.mem_of_mem_take (hOps id hId)
  have hFollower : ∀ other, seq ≤ r.replication.watermark room other → holds other = true := by
    intro other hSeq
    simp only [holds, decide_eq_true_eq]
    intro id hId
    exact (h.watermarks room other).2 id ((List.take_prefix_take_left hSeq).subset (hOps id hId))
  have hCount : (ring.replicasFor room).length / 2 + 1 ≤
      1 + (((ring.replicasFor room).filter fun other => !decide (other = node)).filter fun other =>
        r.replication.watermark room other ≥ seq).length := by
    have hMet := hQuorum
    simp only [writeHasMajority, quorum, quorumMet, Membership.replicasFor, Membership.isSelf,
      h.sameRing, h.selfId, decide_eq_true_eq] at hMet
    exact hMet
  -- the replica set is this node and the others
  have hSplit : (ring.replicasFor room).Perm
      (node :: (ring.replicasFor room).filter fun other => !decide (other = node)) := by
    have hErase := List.perm_cons_erase hNode
    rw [(ring.nodup room).erase_eq_filter] at hErase
    simpa only [bne, beq_eq_decide] using hErase
  unfold Majority
  refine hCount.trans ?_
  rw [(hSplit.filter _).length_eq, List.filter_cons_of_pos hSelf, List.length_cons, Nat.add_comm]
  apply Nat.succ_le_succ
  apply List.Sublist.length_le
  apply List.monotone_filter_right
  intro other hOther
  exact hFollower other (by simpa using hOther)

theorem Durable.releasePendingAcks (h : r.Durable ring hist node) (room : RoomId) :
    (r.releasePendingAcks room).Durable ring hist node where
  sameRing := h.sameRing
  selfId := h.selfId
  watermarks := h.watermarks
  pendingAcks := by
    intro entry hEntry
    apply h.pendingAcks
    simp only [Registry.releasePendingAcks, List.partition_eq_filter_filter, List.mem_filter] at hEntry
    exact hEntry.1
  outbox := by
    intro entry hEntry
    simp only [Registry.releasePendingAcks, List.partition_eq_filter_filter, List.mem_append,
      List.mem_map, List.mem_filter, Bool.and_eq_true, decide_eq_true_eq] at hEntry
    rcases hEntry with hOld | ⟨released, ⟨hReleased, rfl, hQuorum⟩, rfl⟩
    · exact h.outbox entry hOld
    · obtain ⟨hRoom, hReplica, hOps⟩ := h.pendingAcks released hReleased
      dsimp only
      rw [hRoom]
      exact h.majority hReplica hQuorum hOps
  pending := h.pending

theorem Durable.recordReplicaAck (h : r.Durable ring hist node) {follower : NodeId} {room : RoomId}
    {throughSeq : Nat} (hAck : hist.Backs node room follower throughSeq) :
    (r.recordReplicaAck follower room throughSeq).Durable ring hist node := by
  unfold Registry.recordReplicaAck
  split
  · exact h
  · apply Durable.releasePendingAcks
    refine ⟨h.sameRing, h.selfId, ?_, h.pendingAcks, h.outbox, h.pending⟩
    intro other node'
    rcases Replication.acked_setWatermark r.replication follower room other node'
      (max (r.replication.watermark room follower) throughSeq) with ⟨rfl, rfl, hSet⟩ | hKept
    · rcases max_choice (r.replication.watermark other node') throughSeq with hMax | hMax
      · exact (hSet.trans hMax).symm ▸ h.watermarks other node'
      · exact (hSet.trans hMax).symm ▸ hAck
    · exact hKept.symm ▸ h.watermarks other node'

theorem Durable.sends (h : r.Durable ring hist node) {acked : RoomId → NodeId → Nat}
    (hSends : Sends acked r r') (hHist : ∀ room, hist node room = r.hub.history room)
    (hAcked : ∀ room follower, hist.Backs node room follower (acked room follower)) :
    r'.Durable ring hist node where
  sameRing := hSends.membership ▸ h.sameRing
  selfId := hSends.membership ▸ h.selfId
  watermarks := hSends.acked ▸ hAcked
  pendingAcks := hSends.pendingAcks ▸ h.pendingAcks
  outbox := hSends.outbox ▸ h.outbox
  pending := by
    intro entry hEntry
    rcases hSends.pending entry hEntry with hOld | hNew
    · exact h.pending entry hOld
    · obtain ⟨dst, frame⟩ := entry
      cases frame with
      | replicateSnapshot room seq state epoch creator history =>
        change history <+: hist node room
        rw [hHist, hNew.2.1]
      | replicaAck room throughSeq => exact absurd hNew id
      | replicate | replicateMeta | followerHeads => trivial

/-- The hub and the epochs say nothing about the followers. -/
theorem Durable.of_hub (h : r.Durable ring hist node) (hub : Hub σ) (epochs : LeadershipEpochs) :
    ({ r with hub, epochs } : Registry σ).Durable ring hist node :=
  ⟨h.sameRing, h.selfId, h.watermarks, h.pendingAcks, h.outbox, h.pending⟩

/-- The answer to a batch that was served, over the log the batch left. -/
theorem Durable.acknowledge (h : r.Durable ring hist node) {conn : ConnId} {room : RoomId}
    {res : Response} (hNode : node ∈ ring.replicasFor room)
    (hRes : ∀ accepted ∈ res.accepted, accepted.room = room ∧
      ∀ id ∈ accepted.ops, id ∈ (hist node room).take (r.hub.seq room))
    (hStale : res.broadcast = [] → ∀ accepted ∈ res.accepted,
      hist.Majority ring room accepted.ops) :
    (r.acknowledge conn room res).Durable ring hist node := by
  unfold Registry.acknowledge
  cases hAccepted : res.accepted with
  | none => exact h
  | some accepted =>
    obtain ⟨hRoom, hOps⟩ := hRes accepted hAccepted
    have hReleased : hist.Majority ring room accepted.ops →
        ({ r with outbox := r.outbox ++ [(conn, accepted)] } : Registry σ).Durable ring hist node := by
      intro hMajority
      refine ⟨h.sameRing, h.selfId, h.watermarks, h.pendingAcks, ?_, h.pending⟩
      intro entry hEntry
      rcases List.mem_append.mp hEntry with hOld | hNew
      · exact h.outbox entry hOld
      · rw [List.mem_singleton.mp hNew]
        exact hRoom.symm ▸ hMajority
    dsimp only
    cases hFresh : res.broadcast with
    | nil => exact hReleased (hStale hFresh accepted hAccepted)
    | cons op ops =>
      cases hQuorum : r.writeHasMajority room (r.hub.seq room) with
      | true => exact hReleased (h.majority hNode hQuorum hOps)
      | false =>
        refine ⟨h.sameRing, h.selfId, h.watermarks, ?_, h.outbox, h.pending⟩
        intro entry hEntry
        rcases List.mem_append.mp hEntry with hOld | hNew
        · exact h.pendingAcks entry hOld
        · rw [List.mem_singleton.mp hNew]
          exact ⟨hRoom, hNode, hOps⟩

theorem hub_acknowledge (r : Registry σ) (conn : ConnId) (room : RoomId) (res : Response) :
    (r.acknowledge conn room res).hub = r.hub := by
  unfold acknowledge
  split
  · rfl
  · dsimp only
    split <;> rfl

end Registry

/-- The last position a batch takes in a log that holds it. -/
def lastPosition (history : List OpId) (ops : List Op) : Nat :=
  (ops.map fun op => history.idxOf op.id + 1).foldr max 0

theorem mem_take_lastPosition {history : List OpId} {ops : List Op} {op : Op} (hOp : op ∈ ops)
    (hHeld : op.id ∈ history) : op.id ∈ history.take (lastPosition history ops) := by
  have hLe : history.idxOf op.id + 1 ≤ lastPosition history ops := by
    unfold lastPosition
    induction ops with
    | nil => cases hOp
    | cons other ops ih =>
      rw [List.map_cons, List.foldr_cons]
      rcases List.mem_cons.mp hOp with rfl | hOp
      · exact le_max_left _ _
      · exact (ih hOp).trans (le_max_right _ _)
  rw [List.mem_take_iff_getElem]
  refine ⟨history.idxOf op.id, ?_, List.getElem_idxOf _⟩
  have hIn := List.idxOf_lt_length_of_mem hHeld
  omega

namespace Cluster

variable [Folds σ] {c : Cluster σ}

/-- When a frame may be applied: ops continue the sender's log where the receiver's
stops, a snapshot extends what the receiver holds, and a reported head agrees with
the receiver's log. -/
def FrameAgrees (c : Cluster σ) (src dst : NodeId) : Message σ → Prop
  | .replicate room ops _ epoch _ => (c.nodes dst).replicaGate src room epoch = .apply →
    c.history dst room ++ (((c.nodes dst).hub.room room).fresh ∅ ops).map Op.id <+:
      c.history src room
  | .replicateSnapshot room _ _ epoch _ history =>
    (c.nodes dst).replicaGate src room epoch = .apply → c.history dst room <+: history
  | .followerHeads reporter heads => reporter = src → ∀ room ∈ (c.nodes dst).roomsLedFor src,
    (c.history dst room).take ((c.nodes dst).reportedFloor heads room) <+: c.history src room
  | _ => True

instance (c : Cluster σ) (src dst : NodeId) : (frame : Message σ) →
    Decidable (c.FrameAgrees src dst frame)
  | .replicate .. => inferInstanceAs (Decidable (_ → _))
  | .replicateSnapshot .. => inferInstanceAs (Decidable (_ → _))
  | .followerHeads .. => inferInstanceAs (Decidable (_ → _))
  | .replicateMeta .. => inferInstanceAs (Decidable True)
  | .replicaAck .. => inferInstanceAs (Decidable True)

/-- A step the count argument survives: a batch that is served and logs nothing was
already carried to a majority, a frame agrees with the receiver, and no disk is lost. -/
def StepAgrees (c : Cluster σ) : Event → Prop
  | .write node _ _ _ room ops =>
    (c.nodes node).membership.redirectIfNotLeader room = none →
      (∀ op ∈ ops, op.isAdmissible) → ((c.nodes node).hub.room room).fresh ∅ ops = [] → ops ≠ [] →
        (c.nodes node).writeHasMajority room (lastPosition (c.history node room) ops)
  | .deliver index => ∀ e ∈ c.net[index]?, c.FrameAgrees e.src e.dst e.message
  | .wipe _ => False
  | _ => True

instance (c : Cluster σ) : (event : Event) → Decidable (c.StepAgrees event)
  | .write .. => inferInstanceAs (Decidable (_ → _))
  | .deliver _ => inferInstanceAs (Decidable (∀ e ∈ _, _))
  | .wipe _ => inferInstanceAs (Decidable False)
  | .dispatch _ => inferInstanceAs (Decidable True)
  | .linkUp .. => inferInstanceAs (Decidable True)
  | .liveness .. => inferInstanceAs (Decidable True)
  | .compact .. => inferInstanceAs (Decidable True)
  | .disconnect .. => inferInstanceAs (Decidable True)

def RunAgrees (c : Cluster σ) : List Event → Prop
  | [] => True
  | event :: events => c.StepAgrees event ∧ (c.step event).RunAgrees events

instance : (c : Cluster σ) → (events : List Event) → Decidable (c.RunAgrees events)
  | _, [] => inferInstanceAs (Decidable True)
  | c, event :: events =>
    have : Decidable ((c.step event).RunAgrees events) := instDecidableRunAgrees _ events
    inferInstanceAs (Decidable (_ ∧ _))

/-- Everything the nodes believe about each other, and every claim in flight, is so. -/
structure Durable (ring : Ring) (c : Cluster σ) : Prop where
  nodes : ∀ node, (c.nodes node).Durable ring c.history node
  net : ∀ e ∈ c.net, e.message.Backed c.history e.src e.dst

omit [Folds σ] in
theorem durable_start (p : Deployment σ) : (start p).Durable p.ring where
  nodes node := by
    refine ⟨rfl, rfl, ?_, by simp [start, Registry.new], by simp [start, Registry.new],
      by simp [start, Registry.new, Replication.new]⟩
    intro room follower
    exact ⟨Nat.zero_le _, by simp [start, Registry.new, Replication.new]⟩
  net := by simp [start]

omit [Folds σ] in
theorem history_act (c : Cluster σ) (node : NodeId) (r : Registry σ) (posted : List (Envelope σ))
    (other : NodeId) (room : RoomId) :
    (c.act node r posted).history other room =
      if other = node then r.hub.history room else c.history other room := by
  unfold history act
  by_cases hOther : other = node
  · subst hOther
    simp
  · simp [hOther]

omit [Folds σ] in
/-- One node moves on, its logs only growing. -/
theorem Durable.act (h : c.Durable ring) (node : NodeId) {r : Registry σ}
    {posted : List (Envelope σ)}
    (hExt : ∀ room, (c.nodes node).hub.history room <+: r.hub.history room)
    (hStep : ∀ hist : Histories, Extends c.history hist →
      (∀ room, hist node room = r.hub.history room) →
      (c.nodes node).Durable ring hist node →
        r.Durable ring hist node ∧ ∀ e ∈ posted, e.message.Backed hist e.src e.dst) :
    (c.act node r posted).Durable ring := by
  have hExtends : Extends c.history (c.act node r posted).history := by
    intro other room
    rw [history_act]
    split
    · next hOther => exact hOther ▸ hExt room
    · exact List.prefix_rfl
  obtain ⟨hNode, hPosted⟩ := hStep (c.act node r posted).history hExtends
    (fun room => by rw [history_act, if_pos rfl]) ((h.nodes node).mono hExtends)
  constructor
  · intro other
    by_cases hOther : other = node
    · subst hOther
      simpa [Cluster.act] using hNode
    · simpa [Cluster.act, hOther] using (h.nodes other).mono hExtends
  · intro e hEnvelope
    rcases List.mem_append.mp hEnvelope with hOld | hNew
    · exact (h.net e hOld).mono hExtends
    · exact hPosted e hNew

omit [Folds σ] in
/-- A node whose logs stay as they are, posting nothing. -/
theorem Durable.act_nil (h : c.Durable ring) (node : NodeId) {r : Registry σ}
    (hSame : ∀ room, r.hub.history room = (c.nodes node).hub.history room)
    (hStep : ∀ hist : Histories, (∀ room, hist node room = (c.nodes node).hub.history room) →
      (c.nodes node).Durable ring hist node → r.Durable ring hist node) :
    (c.act node r []).Durable ring := by
  refine h.act node (fun room => by rw [hSame]) ?_
  intro hist _ hHist hNode
  exact ⟨hStep hist (fun room => (hHist room).trans (hSame room)) hNode, by simp⟩

theorem Durable.write (h : c.Durable ring) (hs : c.Sequenced) {node : NodeId} {conn : ConnId}
    {channel : Nat} {actor : Bytes} {room : RoomId} {ops : List Op}
    (hAgrees : c.StepAgrees (.write node conn channel actor room ops)) :
    (c.step (.write node conn channel actor room ops)).Durable ring := by
  unfold Cluster.step
  obtain hEq | ⟨res, r₁, r₂, hOps, hSends, hEq⟩ :=
    (c.nodes node).deliver_cases conn channel actor room ops
  · dsimp only
    rw [hEq]
    exact h.act_nil node (fun _ => rfl) fun _ _ hNode => hNode
  · obtain ⟨hServes, hAdmissible, hAccepted, hBroadcast, hub, rfl, hHistory, hHub⟩ :=
      Registry.handleOps_eq_some hOps
    have hAck : (r₂.acknowledge conn room res).hub = hub :=
      (r₂.hub_acknowledge conn room res).trans hSends.hub
    have hGrown : ∀ other, hub.history other =
        if other = room then (c.nodes node).hub.history room ++
          (((c.nodes node).hub.room room).fresh ∅ ops).map Op.id
        else (c.nodes node).hub.history other := by
      intro other
      rw [hHistory, Hub.history_ingest]
    dsimp only
    rw [hEq]
    refine h.act node ?_ ?_
    · intro other
      rw [hAck, hGrown]
      split
      · next hOther => exact hOther ▸ List.prefix_append _ _
      · exact List.prefix_rfl
    · intro hist _ hHist hNode
      refine ⟨?_, by simp⟩
      have hReplica : node ∈ ring.replicasFor room := by
        have hMem := Registry.mem_replicasFor_of_serves hServes
        rwa [hNode.sameRing, hNode.selfId] at hMem
      have hServed := hNode.of_hub hub (c.nodes node).epochs
      have hSent := hServed.sends hSends (fun other => by rw [hHist, hAck]) hServed.watermarks
      -- every op of the batch is in the log the batch left
      have hHeld : ∀ op ∈ ops, op.id ∈ hist node room := by
        intro op hOp
        rw [hHist, hAck, hGrown, if_pos rfl]
        obtain hSeen | hBatch | hNew :=
          ((c.nodes node).hub.room room).seen_or_fresh ∅ hOp (hAdmissible op hOp)
        · exact List.mem_append_left _ (((hs.nodes node).hub room).seen _ hSeen)
        · cases hBatch
        · exact List.mem_append_right _ hNew
      have hLength : (hist node room).length = r₂.hub.seq room := by
        rw [hHist, hAck, hSends.hub]
        exact (hHub (hs.nodes node).hub).length_history room
      apply hSent.acknowledge hReplica
      · intro accepted hMem
        obtain ⟨hRoom, hIds, -⟩ := hAccepted accepted hMem
        refine ⟨hRoom, ?_⟩
        rw [← hLength, List.take_length, hIds]
        intro id hId
        obtain ⟨op, hOp, rfl⟩ := List.mem_map.mp hId
        exact hHeld op hOp
      · intro hEmpty accepted hMem
        obtain ⟨-, hIds, hSome⟩ := hAccepted accepted hMem
        rw [hIds]
        rw [hBroadcast] at hEmpty
        have hSame : hist node room = c.history node room := by
          rw [hHist, hAck, hGrown, if_pos rfl, hEmpty]
          simp [history]
        refine hNode.majority hReplica (hAgrees hServes hAdmissible hEmpty hSome) ?_
        intro id hId
        obtain ⟨op, hOp, rfl⟩ := List.mem_map.mp hId
        rw [hSame]
        exact mem_take_lastPosition hOp (hSame ▸ hHeld op hOp)

/-- A frame that is handled: what it changes is backed, and so is what goes back. -/
theorem Durable.receive (h : c.Durable ring) (hs : c.Sequenced) {e : Envelope σ} (he : e ∈ c.net)
    (hAgrees : c.FrameAgrees e.src e.dst e.message) :
    (c.act e.dst ((c.nodes e.dst).receive e.src e.message).1
      (((c.nodes e.dst).receive e.src e.message).2.map fun reply =>
        ⟨e.dst, e.src, reply⟩)).Durable ring := by
  obtain ⟨src, dst, message⟩ := e
  have hBacked := h.net _ he
  dsimp only at hBacked ⊢
  cases message with
  | replicate room ops baseSeq epoch creator =>
    change (c.act dst ((c.nodes dst).applyReplicate src room ops epoch creator).1
      (((c.nodes dst).applyReplicate src room ops epoch creator).2.map _)).Durable ring
    obtain hEq | ⟨hGate, epochs, hub, hEq, hHistory, hHub⟩ :=
      (c.nodes dst).applyReplicate_cases src room ops epoch creator
    · rw [hEq]
      exact h.act_nil dst (fun _ => rfl) fun _ _ hNode => hNode
    · have hContinues : hub.history room <+: c.history src room := by
        rw [hHistory, Hub.history_ingest, if_pos rfl]
        exact hAgrees hGate
      rw [hEq]
      refine h.act dst ?_ ?_
      · intro other
        rw [hHistory, Hub.history_ingest]
        split
        · next hOther => exact hOther ▸ List.prefix_append _ _
        · exact List.prefix_rfl
      · intro hist hExt hHist hNode
        refine ⟨hNode.of_hub hub epochs, ?_⟩
        intro reply hReply
        obtain rfl := List.mem_singleton.mp hReply
        -- the acknowledged count is where the leader's own log has got to
        have hPrefix : hist dst room <+: hist src room := by
          rw [hHist]
          exact hContinues.trans (hExt src room)
        have hLength : (hist dst room).length = hub.seq room := by
          rw [hHist]
          exact (hHub (hs.nodes dst).hub).length_history room
        refine ⟨hLength ▸ hPrefix.length_le, ?_⟩
        rw [← hLength, take_eq_of_initial hPrefix le_rfl, List.take_length]
        exact fun id hId => hId
  | replicateMeta room epoch creator =>
    obtain ⟨epochs, hub, hEq, hHistory, -⟩ :=
      (c.nodes dst).applyReplicateMeta_eq src room epoch creator
    change (c.act dst ((c.nodes dst).applyReplicateMeta src room epoch creator) []).Durable ring
    rw [hEq]
    exact h.act_nil dst hHistory fun _ _ hNode => hNode.of_hub hub epochs
  | replicateSnapshot room seq state epoch creator history =>
    change (c.act dst
      ((c.nodes dst).applyReplicateSnapshot src room seq state epoch creator history).1
      (((c.nodes dst).applyReplicateSnapshot src room seq state epoch creator history).2.map
        _)).Durable ring
    obtain hEq | ⟨hGate, epochs, hub, hEq, hHistory, hHub⟩ :=
      (c.nodes dst).applyReplicateSnapshot_cases src room seq state epoch creator history
    · rw [hEq]
      exact h.act_nil dst (fun _ => rfl) fun _ _ hNode => hNode
    · have hExtends : c.history dst room <+: history := hAgrees hGate
      rw [hEq]
      refine h.act dst ?_ ?_
      · intro other
        rw [hHistory]
        split
        · next hOther => exact hOther ▸ hExtends
        · exact List.prefix_rfl
      · intro hist hExt hHist hNode
        refine ⟨hNode.of_hub hub epochs, ?_⟩
        intro reply hReply
        obtain rfl := List.mem_singleton.mp hReply
        have hInstalled : hist dst room = history := by rw [hHist, hHistory, if_pos rfl]
        have hPrefix : hist dst room <+: hist src room := by
          rw [hInstalled]
          exact List.IsPrefix.trans hBacked (hExt src room)
        have hLength : (hist dst room).length = hub.seq room := by
          rw [hHist]
          exact (hHub (hs.nodes dst).hub (hs.net _ he)).length_history room
        refine ⟨hLength ▸ hPrefix.length_le, ?_⟩
        rw [← hLength, take_eq_of_initial hPrefix le_rfl, List.take_length]
        exact fun id hId => hId
  | replicaAck room throughSeq =>
    refine h.act dst (fun other => ?_) fun hist hExt hHist hNode => ⟨?_, by simp [Registry.receive]⟩
    · change _ <+: ((c.nodes dst).recordReplicaAck src room throughSeq).hub.history other
      unfold Registry.recordReplicaAck
      split <;> exact List.prefix_rfl
    · exact hNode.recordReplicaAck (Backs.mono hExt hBacked)
  | followerHeads reporter heads =>
    change (c.act dst ((c.nodes dst).applyFollowerHeads src reporter heads) []).Durable ring
    unfold Registry.applyFollowerHeads
    by_cases hReporter : reporter = src
    · rw [if_neg (by simpa using hReporter)]
      obtain ⟨acked, hSends, hCredits⟩ :=
        (c.nodes dst).sends_catchUpFollowerReporting src heads
      refine h.act dst (fun other => by rw [hSends.hub]) fun hist hExt hHist hNode => ⟨?_, by simp⟩
      rw [hSends.hub] at hHist
      refine hNode.sends hSends hHist ?_
      intro other follower
      rcases hCredits other follower with hKept | ⟨rfl, hLed, hFloor⟩
      · exact hKept.symm ▸ hNode.watermarks other follower
      · -- the report counts no further than the logs agree
        have hLength : (c.nodes dst).reportedFloor heads other ≤ (hist dst other).length := by
          rw [hHist, (hs.nodes dst).hub.length_history]
          exact Nat.min_le_right _ _
        have hAgree : (hist dst other).take (acked other follower) <+: hist follower other := by
          rw [hFloor, hHist]
          exact (hAgrees hReporter other hLed).trans (hExt follower other)
        exact ⟨hFloor ▸ hLength, fun id hId => hAgree.subset hId⟩
    · rw [if_pos hReporter]
      exact h.act_nil dst (fun _ => rfl) fun _ _ hNode => hNode

theorem Durable.step (h : c.Durable ring) (hs : c.Sequenced) {event : Event}
    (hAgrees : c.StepAgrees event) : (c.step event).Durable ring := by
  cases event with
  | write node conn channel actor room ops => exact h.write hs hAgrees
  | dispatch node =>
    refine h.act node (fun _ => List.prefix_rfl) fun hist _ _ hNode => ⟨?_, ?_⟩
    · exact ⟨hNode.sameRing, hNode.selfId, hNode.watermarks, hNode.pendingAcks, hNode.outbox,
        by simp⟩
    · intro e hEnvelope
      obtain ⟨frame, hFrame, rfl⟩ := List.mem_map.mp hEnvelope
      exact hNode.pending frame hFrame
  | deliver index =>
    cases hNet : c.net[index]? with
    | none => exact (step_deliver_of_none hNet).symm ▸ h
    | some e =>
      rw [step_deliver_of_some hNet]
      exact h.receive hs (List.mem_of_getElem? hNet) (hAgrees e hNet)
  | linkUp node peer =>
    have hCaught := (c.nodes node).sends_catchUpFollower peer
    have hReported := ((c.nodes node).catchUpFollower peer).sends_reportHeadsTo peer
    refine h.act_nil node (fun room => by rw [hReported.hub, hCaught.hub]) ?_
    intro hist hHist hNode
    have hDialed := hNode.sends hCaught hHist hNode.watermarks
    exact hDialed.sends hReported (fun room => by rw [hHist, hCaught.hub]) hDialed.watermarks
  | liveness node down =>
    refine h.act_nil node (fun _ => rfl) fun _ _ hNode => ?_
    exact ⟨hNode.sameRing, hNode.selfId, hNode.watermarks, hNode.pendingAcks, hNode.outbox,
      hNode.pending⟩
  | compact node room =>
    refine h.act_nil node (fun _ => Hub.history_compact ..) fun _ _ hNode => ?_
    exact hNode.of_hub _ _
  | disconnect node conn =>
    refine h.act_nil node (fun _ => rfl) fun _ _ hNode => ?_
    refine ⟨hNode.sameRing, hNode.selfId, hNode.watermarks, ?_, hNode.outbox, hNode.pending⟩
    intro entry hEntry
    exact hNode.pendingAcks entry (List.mem_filter.mp hEntry).1
  | wipe node => exact absurd hAgrees id

theorem durable_run (h : c.Durable ring) (hs : c.Sequenced) {events : List Event}
    (hAgrees : c.RunAgrees events) : (c.run events).Durable ring := by
  induction events generalizing c with
  | nil => exact h
  | cons event events ih => exact ih (h.step hs hAgrees.1) (hs.step event) hAgrees.2

/-- Over steps that agree, every answer a leader has released is held by a majority,
and no watermark claims a position the follower does not hold. -/
theorem released_by_majority (p : Deployment σ) (events : List Event)
    (hAgrees : (start p).RunAgrees events) :
    let c := (start p).run events
    (∀ node, ∀ entry ∈ (c.nodes node).outbox,
      Majority p.ring c.history entry.2.room entry.2.ops) ∧
    ∀ node room follower, ∀ id ∈ (c.history node room).take
      ((c.nodes node).replication.watermark room follower), id ∈ c.history follower room := by
  have hDurable := durable_run (durable_start p) (sequenced_start p) hAgrees
  exact ⟨fun node => (hDurable.nodes node).outbox,
    fun node room follower => ((hDurable.nodes node).watermarks room follower).2⟩

section Witness

local instance durabilityIdBytes : IdBytes := IdBytes.spelled

/-- Three nodes that replicate every room. -/
def trioRing : Ring where
  members := [[65], [66], [67]]
  replicasFor _ := [[65], [66], [67]]
  nodup _ := by decide
  nonempty _ := by decide
  placed _ _ h := h

def trioDeployment : Deployment Content where
  ring := trioRing
  server node := if node = [65] then ⟨101⟩ else if node = [66] then ⟨102⟩ else ⟨103⟩
  content := Content.new
  compactionThreshold := 0

/-- The `seq`th op of a client, setting a root slot. -/
def slotSet (seq : Nat) : Op :=
  ⟨⟨⟨1⟩, seq⟩, ⟨seq + 1, ⟨1⟩, 0⟩, ROOT_ID, .mapSet [97] (.int 1), none, none⟩

/-- The write reaches the first follower, whose ack releases the answer. -/
def mirroredWrite : List Event :=
  [.write [65] 1 0 [49] [114] [slotSet 0], .dispatch [65], .deliver 0, .deliver 2]

theorem released_by_majority_mirrored :
    let c := (start trioDeployment).run mirroredWrite
    (∀ node, ∀ entry ∈ (c.nodes node).outbox,
      Majority trioRing c.history entry.2.room entry.2.ops) ∧
    ∀ node room follower, ∀ id ∈ (c.history node room).take
      ((c.nodes node).replication.watermark room follower), id ∈ c.history follower room :=
  released_by_majority trioDeployment mirroredWrite (by decide +kernel)

/-- The frames of the first write are dropped. The follower that gets the second
write's frame acknowledges one op, and the answer to the first write is released. -/
theorem released_after_dropped_frame :
    ¬∀ events : List Event, (∀ node, Event.wipe node ∉ events) → ∀ node,
      ∀ entry ∈ (((start trioDeployment).run events).nodes node).outbox,
        Majority trioRing ((start trioDeployment).run events).history entry.2.room
          entry.2.ops := by
  intro h
  have hHeld := h [.write [65] 1 0 [49] [114] [slotSet 0], .dispatch [65],
    .write [65] 1 0 [49] [114] [slotSet 1], .dispatch [65], .deliver 2, .deliver 4] (by simp) [65]
  exact absurd hHeld (by decide +kernel)

end Witness

end Cluster

end Server

end CrdtSync
