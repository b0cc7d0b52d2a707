import CrdtSync.Server.Frames

/-!
# The cluster

Nodes over one ring, and the frames in flight between them. A frame that was sent
stays in flight, so it may arrive late, more than once, in any order or never.
Whatever happens, every node's log agrees with what that node sequenced.
-/

namespace CrdtSync

namespace Server

variable {σ : Type}

structure Envelope (σ : Type) where
  src : NodeId
  dst : NodeId
  message : Message σ

structure Cluster (σ : Type) where
  nodes : NodeId → Registry σ
  net : List (Envelope σ)

/-- What the nodes of a cluster start from. -/
structure Deployment (σ : Type) where
  ring : Ring
  server : NodeId → ClientId
  content : σ
  compactionThreshold : Nat

inductive Event
  | write (node : NodeId) (conn : ConnId) (channel : Nat) (actor : Bytes) (room : RoomId)
      (ops : List Op)
  | dispatch (node : NodeId)
  | deliver (index : Nat)
  | linkUp (node peer : NodeId)
  | liveness (node : NodeId) (down : Finset NodeId)
  | compact (node : NodeId) (room : RoomId)
  | disconnect (node : NodeId) (conn : ConnId)
  | wipe (node : NodeId)

/-- The node comes back without its disk. -/
def Registry.wiped (r : Registry σ) : Registry σ :=
  .new r.membership.ring r.membership.selfId
    (.new r.hub.server r.hub.content r.hub.compactionThreshold)

/-- The frames queued since the last drain, and the node without them. -/
def Registry.takeReplication (r : Registry σ) : List (NodeId × Message σ) × Registry σ :=
  (r.replication.pending, { r with replication := { r.replication with pending := [] } })

namespace Cluster

def start (p : Deployment σ) : Cluster σ :=
  ⟨fun node => .new p.ring node (.new (p.server node) p.content p.compactionThreshold), []⟩

def act (c : Cluster σ) (node : NodeId) (r : Registry σ) (posted : List (Envelope σ)) : Cluster σ :=
  ⟨Function.update c.nodes node r, c.net ++ posted⟩

def history (c : Cluster σ) (node : NodeId) (room : RoomId) : List OpId :=
  (c.nodes node).hub.history room

variable [Folds σ]

def step (c : Cluster σ) : Event → Cluster σ
  | .write node conn channel actor room ops =>
    c.act node ((c.nodes node).deliver conn channel actor room ops) []
  | .dispatch node =>
    let (frames, r) := (c.nodes node).takeReplication
    c.act node r (frames.map fun frame => ⟨node, frame.1, frame.2⟩)
  | .deliver index =>
    match c.net[index]? with
    | none => c
    | some envelope =>
      let (r, replies) := (c.nodes envelope.dst).receive envelope.src envelope.message
      c.act envelope.dst r (replies.map fun reply => ⟨envelope.dst, envelope.src, reply⟩)
  | .linkUp node peer => c.act node (((c.nodes node).catchUpFollower peer).reportHeadsTo peer) []
  | .liveness node down =>
    let r := c.nodes node
    c.act node { r with membership := { r.membership with down } } []
  | .compact node room =>
    let r := c.nodes node
    c.act node { r with hub := r.hub.compact room } []
  | .disconnect node conn => c.act node ((c.nodes node).disconnect conn) []
  | .wipe node => c.act node (c.nodes node).wiped []

def run (c : Cluster σ) (events : List Event) : Cluster σ := events.foldl step c

end Cluster

namespace Registry

variable {r r' : Registry σ}

section Gate

theorem gateReplicaFrame_cases (r : Registry σ) (sender : NodeId) (room : RoomId) (epoch : Nat) :
    (r.replicaGate sender room epoch = .apply ∧
        ∃ epochs, r.gateReplicaFrame sender room epoch = (.apply, { r with epochs })) ∨
      ∃ gate, gate ≠ .apply ∧ r.replicaGate sender room epoch = gate ∧
        r.gateReplicaFrame sender room epoch = (gate, r) := by
  unfold gateReplicaFrame
  cases hGate : r.replicaGate sender room epoch with
  | apply => exact .inl ⟨rfl, _, rfl⟩
  | reject => exact .inr ⟨.reject, by decide, rfl, rfl⟩
  | fenced => exact .inr ⟨.fenced, by decide, rfl, rfl⟩

theorem adoptReplicatedMeta_eq (r : Registry σ) (room : RoomId) (creator : Option Bytes) :
    ∃ hub, r.adoptReplicatedMeta room creator = { r with hub } ∧
      (∀ other, hub.history other = r.hub.history other) ∧ (r.hub.Sequenced → hub.Sequenced) := by
  cases creator with
  | none => exact ⟨r.hub, rfl, fun _ => rfl, id⟩
  | some creator => exact ⟨_, rfl, fun _ => Hub.history_ensureCreator .., fun h => h.ensureCreator room creator⟩

theorem applyReplicateMeta_eq (r : Registry σ) (sender : NodeId) (room : RoomId) (epoch : Nat)
    (creator : Option Bytes) :
    ∃ epochs hub, r.applyReplicateMeta sender room epoch creator = { r with epochs, hub } ∧
      (∀ other, hub.history other = r.hub.history other) ∧ (r.hub.Sequenced → hub.Sequenced) := by
  have hSame : ∃ epochs hub, r = { r with epochs, hub } ∧
      (∀ other, hub.history other = r.hub.history other) ∧ (r.hub.Sequenced → hub.Sequenced) :=
    ⟨r.epochs, r.hub, rfl, fun _ => rfl, id⟩
  unfold applyReplicateMeta
  cases creator with
  | none => exact hSame
  | some creator =>
    dsimp only
    split
    · exact hSame
    · obtain ⟨-, epochs, hGate⟩ | ⟨gate, hNot, -, hGate⟩ := r.gateReplicaFrame_cases sender room epoch
      · rw [hGate]
        exact ⟨_, _, rfl, fun _ => Hub.history_ensureCreator .., fun h => h.ensureCreator room creator⟩
      · rw [hGate]
        cases gate with
        | apply => exact absurd rfl hNot
        | reject | fenced => exact hSame

/-- A snapshot that is applied replaces the room; any other leaves the node alone. -/
theorem applyReplicateSnapshot_cases (r : Registry σ) (sender : NodeId) (room : RoomId) (seq : Nat)
    (state : DocState σ) (epoch : Nat) (creator : Option Bytes) (history : List OpId) :
    r.applyReplicateSnapshot sender room seq state epoch creator history = (r, []) ∨
    r.replicaGate sender room epoch = .apply ∧ ∃ epochs hub,
      r.applyReplicateSnapshot sender room seq state epoch creator history =
        ({ r with epochs, hub }, [.replicaAck room (hub.seq room)]) ∧
      (∀ other, hub.history other = if other = room then history else r.hub.history other) ∧
      (r.hub.Sequenced → (Message.replicateSnapshot room seq state epoch creator history).Sequenced →
        hub.Sequenced) := by
  unfold applyReplicateSnapshot
  obtain ⟨hApply, epochs, hGate⟩ | ⟨gate, hNot, -, hGate⟩ := r.gateReplicaFrame_cases sender room epoch
  · rw [hGate]
    obtain ⟨hub, hAdopt, hHistory, hSequenced⟩ := adoptReplicatedMeta_eq { r with
      epochs, hub := r.hub.installSnapshot room state seq creator history } room creator
    refine .inr ⟨hApply, epochs, hub, ?_, ?_, ?_⟩
    · dsimp only
      rw [hAdopt]
    · intro other
      rw [hHistory other]
      exact Hub.history_installSnapshot ..
    · exact fun hs hFrame => hSequenced (hs.installSnapshot room creator hFrame.1 hFrame.2)
  · rw [hGate]
    cases gate with
    | apply => exact absurd rfl hNot
    | reject | fenced => exact .inl rfl

variable [Folds σ]

/-- An ops frame that is applied extends the room by what it did not hold; any other
leaves the node alone. -/
theorem applyReplicate_cases (r : Registry σ) (sender : NodeId) (room : RoomId) (ops : List Op)
    (epoch : Nat) (creator : Option Bytes) :
    r.applyReplicate sender room ops epoch creator = (r, []) ∨
    r.replicaGate sender room epoch = .apply ∧ ∃ epochs hub,
      r.applyReplicate sender room ops epoch creator =
        ({ r with epochs, hub }, [.replicaAck room (hub.seq room)]) ∧
      (∀ other, hub.history other = (r.hub.ingest room ops).2.history other) ∧
      (r.hub.Sequenced → hub.Sequenced) := by
  unfold applyReplicate
  obtain ⟨hApply, epochs, hGate⟩ | ⟨gate, hNot, -, hGate⟩ := r.gateReplicaFrame_cases sender room epoch
  · rw [hGate]
    obtain ⟨hub, hAdopt, hHistory, hSequenced⟩ := adoptReplicatedMeta_eq { r with
      epochs, hub := (r.hub.ingest room ops).2 } room creator
    refine .inr ⟨hApply, epochs, hub, ?_, hHistory, fun hs => hSequenced (hs.ingest room ops)⟩
    dsimp only
    rw [hAdopt]
  · rw [hGate]
    cases gate with
    | apply => exact absurd rfl hNot
    | reject | fenced => exact .inl rfl

end Gate

section Write

variable [Folds σ]

/-- A write that is served: the leader logs what is new and owes the author an answer. -/
theorem handleOps_eq_some {channel : Nat} {actor : Bytes} {room : RoomId} {ops : List Op}
    {res : Response} (h : r.handleOps channel actor room ops = some (res, r')) :
    r.membership.redirectIfNotLeader room = none ∧ (∀ op ∈ ops, op.isAdmissible) ∧
    (∀ accepted ∈ res.accepted, accepted.room = room ∧ accepted.ops = ops.map Op.id ∧ ops ≠ []) ∧
    res.broadcast = (r.hub.room room).fresh ∅ ops ∧ ∃ hub, r' = { r with hub } ∧
      (∀ other, hub.history other = (r.hub.ingest room ops).2.history other) ∧
      (r.hub.Sequenced → hub.Sequenced) := by
  unfold handleOps at h
  by_cases hAdmissible : ops.all Op.isAdmissible = true
  · rw [if_neg (by simp [hAdmissible])] at h
    cases hLeader : r.membership.redirectIfNotLeader room with
    | some leader =>
      rw [hLeader] at h
      cases h
    | none =>
      rw [hLeader] at h
      obtain ⟨rfl, rfl⟩ := Prod.mk.inj (Option.some.inj h)
      refine ⟨rfl, List.all_eq_true.mp hAdmissible, ?_, Hub.ingest_fst .., _, rfl,
        fun _ => Hub.history_ensureCreator .., fun hs => (hs.ingest room ops).ensureCreator room actor⟩
      intro accepted hAccepted
      obtain ⟨through, hThrough, rfl⟩ := Option.map_eq_some_iff.mp hAccepted
      refine ⟨rfl, rfl, ?_⟩
      rintro rfl
      cases hThrough
  · rw [if_pos (by simp [hAdmissible])] at h
    cases h

theorem deliver_cases (r : Registry σ) (conn : ConnId) (channel : Nat) (actor : Bytes)
    (room : RoomId) (ops : List Op) :
    r.deliver conn channel actor room ops = r ∨
    ∃ res r₁ r₂, r.handleOps channel actor room ops = some (res, r₁) ∧
      Sends r₁.replication.acked r₁ r₂ ∧
      r.deliver conn channel actor room ops = r₂.acknowledge conn room res := by
  unfold deliver
  cases hOps : r.handleOps channel actor room ops with
  | none => exact .inl rfl
  | some served =>
    obtain ⟨res, r₁⟩ := served
    refine .inr ⟨res, r₁, _, rfl, ?_, rfl⟩
    split
    · exact sends_enqueueReplication ..
    · split
      · exact sends_enqueueRootReplication ..
      · exact Sends.refl r₁

end Write

/-- The log is in order, and so is every snapshot still queued. -/
structure Sequenced (r : Registry σ) : Prop where
  hub : r.hub.Sequenced
  pending : ∀ entry ∈ r.replication.pending, entry.2.Sequenced

theorem Sequenced.sends (h : r.Sequenced) {acked : RoomId → NodeId → Nat} (hSends : Sends acked r r') :
    r'.Sequenced where
  hub := hSends.hub ▸ h.hub
  pending := by
    intro entry hEntry
    rcases hSends.pending entry hEntry with hOld | hNew
    · exact h.pending entry hOld
    · exact h.hub.carries hNew

theorem Sequenced.recordReplicaAck (h : r.Sequenced) (follower : NodeId) (room : RoomId)
    (throughSeq : Nat) : (r.recordReplicaAck follower room throughSeq).Sequenced := by
  unfold Registry.recordReplicaAck
  split
  · exact h
  · exact ⟨h.hub, h.pending⟩

theorem Sequenced.applyFollowerHeads (h : r.Sequenced) (sender reporter : NodeId)
    (heads : List (RoomId × Nat)) : (r.applyFollowerHeads sender reporter heads).Sequenced := by
  unfold Registry.applyFollowerHeads
  split
  · exact h
  · obtain ⟨acked, hSends, -⟩ := r.sends_catchUpFollowerReporting sender heads
    exact h.sends hSends

theorem Sequenced.acknowledge (h : r.Sequenced) (conn : ConnId) (room : RoomId) (res : Response) :
    (r.acknowledge conn room res).Sequenced := by
  unfold Registry.acknowledge
  split
  · exact h
  · dsimp only
    split
    · exact ⟨h.hub, h.pending⟩
    · exact ⟨h.hub, h.pending⟩

variable [Folds σ]

theorem Sequenced.receive (h : r.Sequenced) (sender : NodeId) {message : Message σ}
    (hMessage : message.Sequenced) :
    (r.receive sender message).1.Sequenced ∧
      ∀ reply ∈ (r.receive sender message).2, reply.Sequenced := by
  cases message with
  | replicate room ops baseSeq epoch creator =>
    change (r.applyReplicate sender room ops epoch creator).1.Sequenced ∧
      ∀ reply ∈ (r.applyReplicate sender room ops epoch creator).2, reply.Sequenced
    obtain hEq | ⟨-, epochs, hub, hEq, -, hHub⟩ := r.applyReplicate_cases sender room ops epoch creator
    · rw [hEq]
      exact ⟨h, by simp⟩
    · rw [hEq]
      exact ⟨⟨hHub h.hub, h.pending⟩, by simp [Message.Sequenced]⟩
  | replicateMeta room epoch creator =>
    obtain ⟨epochs, hub, hEq, -, hHub⟩ := r.applyReplicateMeta_eq sender room epoch creator
    refine ⟨?_, by simp [Registry.receive]⟩
    change (r.applyReplicateMeta sender room epoch creator).Sequenced
    rw [hEq]
    exact ⟨hHub h.hub, h.pending⟩
  | replicateSnapshot room seq state epoch creator history =>
    change (r.applyReplicateSnapshot sender room seq state epoch creator history).1.Sequenced ∧
      ∀ reply ∈ (r.applyReplicateSnapshot sender room seq state epoch creator history).2,
        reply.Sequenced
    obtain hEq | ⟨-, epochs, hub, hEq, -, hHub⟩ :=
      r.applyReplicateSnapshot_cases sender room seq state epoch creator history
    · rw [hEq]
      exact ⟨h, by simp⟩
    · rw [hEq]
      exact ⟨⟨hHub h.hub hMessage, h.pending⟩, by simp [Message.Sequenced]⟩
  | replicaAck room throughSeq =>
    exact ⟨h.recordReplicaAck sender room throughSeq, by simp [Registry.receive]⟩
  | followerHeads reporter heads =>
    exact ⟨h.applyFollowerHeads sender reporter heads, by simp [Registry.receive]⟩

theorem Sequenced.deliver (h : r.Sequenced) (conn : ConnId) (channel : Nat) (actor : Bytes)
    (room : RoomId) (ops : List Op) : (r.deliver conn channel actor room ops).Sequenced := by
  obtain hEq | ⟨res, r₁, r₂, hOps, hSends, hEq⟩ := r.deliver_cases conn channel actor room ops
  · exact hEq.symm ▸ h
  · obtain ⟨-, -, -, -, hub, rfl, -, hHub⟩ := handleOps_eq_some hOps
    have hServed : ({ r with hub } : Registry σ).Sequenced := ⟨hHub h.hub, h.pending⟩
    rw [hEq]
    exact (hServed.sends hSends).acknowledge conn room res

end Registry

namespace Cluster

variable {c : Cluster σ}

structure Sequenced (c : Cluster σ) : Prop where
  nodes : ∀ node, (c.nodes node).Sequenced
  net : ∀ envelope ∈ c.net, envelope.message.Sequenced

theorem sequenced_start (p : Deployment σ) : (start p).Sequenced where
  nodes node := ⟨Hub.sequenced_new _ _ _, by simp [start, Registry.new, Replication.new]⟩
  net := by simp [start]

theorem Sequenced.act (h : c.Sequenced) (node : NodeId) {r : Registry σ} (hr : r.Sequenced)
    {posted : List (Envelope σ)} (hPosted : ∀ envelope ∈ posted, envelope.message.Sequenced) :
    (c.act node r posted).Sequenced where
  nodes other := by
    by_cases hOther : other = node
    · subst hOther
      simpa [Cluster.act] using hr
    · simpa [Cluster.act, hOther] using h.nodes other
  net envelope hEnvelope := by
    rcases List.mem_append.mp hEnvelope with hOld | hNew
    · exact h.net envelope hOld
    · exact hPosted envelope hNew

theorem Sequenced.act_nil (h : c.Sequenced) (node : NodeId) {r : Registry σ} (hr : r.Sequenced) :
    (c.act node r []).Sequenced := h.act node hr (by simp)

variable [Folds σ]

theorem step_deliver_of_none {index : Nat} (h : c.net[index]? = none) :
    c.step (.deliver index) = c := by
  simp only [step, h]

theorem step_deliver_of_some {index : Nat} {envelope : Envelope σ}
    (h : c.net[index]? = some envelope) :
    c.step (.deliver index) =
      c.act envelope.dst ((c.nodes envelope.dst).receive envelope.src envelope.message).1
        (((c.nodes envelope.dst).receive envelope.src envelope.message).2.map fun reply =>
          ⟨envelope.dst, envelope.src, reply⟩) := by
  simp only [step, h]

theorem Sequenced.step (h : c.Sequenced) (event : Event) : (c.step event).Sequenced := by
  cases event with
  | write node conn channel actor room ops =>
    exact h.act_nil node ((h.nodes node).deliver conn channel actor room ops)
  | dispatch node =>
    have hDrained : (c.nodes node).takeReplication.2.Sequenced :=
      ⟨(h.nodes node).hub, by simp [Registry.takeReplication]⟩
    refine h.act node hDrained ?_
    intro envelope hEnvelope
    obtain ⟨frame, hFrame, rfl⟩ := List.mem_map.mp hEnvelope
    exact (h.nodes node).pending frame hFrame
  | deliver index =>
    cases hNet : c.net[index]? with
    | none => exact (step_deliver_of_none hNet).symm ▸ h
    | some envelope =>
      have hMessage := h.net envelope (List.mem_of_getElem? hNet)
      obtain ⟨hNode, hReplies⟩ := (h.nodes envelope.dst).receive envelope.src hMessage
      rw [step_deliver_of_some hNet]
      refine h.act envelope.dst hNode ?_
      intro reply hReply
      obtain ⟨message, hMem, rfl⟩ := List.mem_map.mp hReply
      exact hReplies message hMem
  | linkUp node peer =>
    have hCaught := (h.nodes node).sends ((c.nodes node).sends_catchUpFollower peer)
    exact h.act_nil node (hCaught.sends (Registry.sends_reportHeadsTo _ peer))
  | liveness node down =>
    exact h.act_nil node ⟨(h.nodes node).hub, (h.nodes node).pending⟩
  | compact node room =>
    exact h.act_nil node (r := { c.nodes node with hub := (c.nodes node).hub.compact room })
      ⟨(h.nodes node).hub.compact room, (h.nodes node).pending⟩
  | disconnect node conn =>
    exact h.act_nil node ⟨(h.nodes node).hub, (h.nodes node).pending⟩
  | wipe node =>
    refine h.act_nil node (r := (c.nodes node).wiped) ⟨Hub.sequenced_new _ _ _, ?_⟩
    simp [Registry.wiped, Registry.new, Replication.new]

/-- Every node of every run holds, in its log, its dedup set and its replica, exactly
what it sequenced. -/
theorem sequenced_run (h : c.Sequenced) (events : List Event) : (c.run events).Sequenced := by
  induction events generalizing c with
  | nil => exact h
  | cons event events ih => exact ih (h.step event)

end Cluster

end Server

end CrdtSync
