import CrdtSync.Server.Registry

/-!
# What a node sends

Queueing replication frames changes nothing of a node but its queue and its
epochs, and a snapshot it queues is its own room at its own head. So every
snapshot that travels agrees with what its sender had sequenced, and installing
one keeps the room in order.
-/

namespace CrdtSync

namespace Server

variable {σ : Type}

/-- A frame this node would build: its snapshots are its own rooms. -/
def Hub.Carries (h : Hub σ) : Message σ → Prop
  | .replicateSnapshot room seq state _ _ history =>
    state = (h.room room).doc.toDocState ∧ history = h.history room ∧ seq = h.seq room
  | .replicaAck _ _ => False
  | _ => True

/-- A snapshot frame stands for what was sequenced up to its position. -/
def Message.Sequenced : Message σ → Prop
  | .replicateSnapshot _ seq state _ _ history =>
    history.length = seq ∧ (Document.decoded state).known = history.toFinset
  | _ => True

theorem Hub.Sequenced.carries {h : Hub σ} (hs : h.Sequenced) {frame : Message σ}
    (hFrame : h.Carries frame) : frame.Sequenced := by
  cases frame with
  | replicateSnapshot room seq state epoch creator history =>
    obtain ⟨rfl, rfl, rfl⟩ := hFrame
    exact ⟨(hs room).head, (hs room).known⟩
  | replicate | replicateMeta | replicaAck | followerHeads => trivial

theorem Replication.acked_setWatermark (p : Replication σ) (follower : NodeId)
    (room other : RoomId) (node : NodeId) (w : Nat) :
    other = room ∧ node = follower ∧ (p.setWatermark follower room w).acked other node = w ∨
      (p.setWatermark follower room w).acked other node = p.acked other node := by
  unfold setWatermark
  by_cases hRoom : other = room
  · subst hRoom
    by_cases hNode : node = follower
    · subst hNode
      simp
    · simp [hNode]
  · simp [hRoom]

namespace Registry

variable {r r' r'' : Registry σ}

/-- `r'` is `r` with frames of its own queued and with `acked` for watermarks. -/
structure Sends (acked : RoomId → NodeId → Nat) (r r' : Registry σ) : Prop where
  membership : r'.membership = r.membership
  hub : r'.hub = r.hub
  pendingAcks : r'.pendingAcks = r.pendingAcks
  outbox : r'.outbox = r.outbox
  acked : r'.replication.acked = acked
  pending : ∀ entry ∈ r'.replication.pending,
    entry ∈ r.replication.pending ∨ r.hub.Carries entry.2

namespace Sends

theorem refl (r : Registry σ) : Sends r.replication.acked r r :=
  ⟨rfl, rfl, rfl, rfl, rfl, fun _ => .inl⟩

theorem trans {acked acked' : RoomId → NodeId → Nat} (h : Sends acked r r')
    (h' : Sends acked' r' r'') : Sends acked' r r'' where
  membership := h'.membership.trans h.membership
  hub := h'.hub.trans h.hub
  pendingAcks := h'.pendingAcks.trans h.pendingAcks
  outbox := h'.outbox.trans h.outbox
  acked := h'.acked
  pending := by
    intro entry hEntry
    rcases h'.pending entry hEntry with hOld | hNew
    · exact h.pending entry hOld
    · exact .inr (h.hub ▸ hNew)

theorem epochs (r : Registry σ) (epochs : LeadershipEpochs) :
    Sends r.replication.acked r { r with epochs } := ⟨rfl, rfl, rfl, rfl, rfl, fun _ => .inl⟩

end Sends

theorem sends_enqueue (r : Registry σ) (follower : NodeId) {frame : Message σ}
    (hFrame : r.hub.Carries frame) : Sends r.replication.acked r (r.enqueue follower frame) := by
  refine ⟨rfl, rfl, rfl, rfl, rfl, ?_⟩
  intro entry hEntry
  rcases List.mem_append.mp hEntry with hOld | hNew
  · exact .inl hOld
  · rw [List.mem_singleton.mp hNew]
    exact .inr hFrame

theorem sends_foldl {β : Type} {f : Registry σ → β → Registry σ} (l : List β) (r : Registry σ)
    (hf : ∀ b ∈ l, ∀ r', r'.hub = r.hub → Sends r'.replication.acked r' (f r' b)) :
    Sends r.replication.acked r (l.foldl f r) := by
  have hFold : ∀ r', Sends r.replication.acked r r' → Sends r.replication.acked r (l.foldl f r') := by
    induction l with
    | nil => exact fun r' h => h
    | cons b l ih =>
      intro r' h
      have hStep := hf b List.mem_cons_self r' h.hub
      rw [h.acked] at hStep
      exact ih (fun b hb => hf b (List.mem_cons_of_mem _ hb)) _ (h.trans hStep)
  exact hFold r (Sends.refl r)

theorem sends_claimAndPersistEpoch (r : Registry σ) (room : RoomId) :
    Sends r.replication.acked r (r.claimAndPersistEpoch room).2 := Sends.epochs ..

theorem sends_enqueueAll (r : Registry σ) (followers : List NodeId) {frame : Message σ}
    (hFrame : r.hub.Carries frame) : Sends r.replication.acked r (r.enqueueAll followers frame) :=
  sends_foldl followers r fun follower _ r' hr' => sends_enqueue r' follower (hr' ▸ hFrame)

theorem sends_stamped (r : Registry σ) (room : RoomId) (followers : List NodeId)
    (frame : Nat → Message σ) (hFrame : ∀ epoch, r.hub.Carries (frame epoch)) :
    Sends r.replication.acked r ((r.claimAndPersistEpoch room).2.enqueueAll followers
      (frame (r.claimAndPersistEpoch room).1)) := by
  have hAll := sends_enqueueAll (r.claimAndPersistEpoch room).2 followers
    (hFrame (r.claimAndPersistEpoch room).1)
  exact (sends_claimAndPersistEpoch r room).trans hAll

theorem sends_enqueueReplication (r : Registry σ) (room : RoomId) (ops : List Op) :
    Sends r.replication.acked r (r.enqueueReplication room ops) := by
  unfold enqueueReplication
  dsimp only
  split
  · exact Sends.refl r
  · exact sends_stamped r room _ (fun epoch => .replicate room ops (r.hub.baseSeq room) epoch
      (r.hub.roomCreator room)) fun _ => trivial

theorem sends_enqueueRootReplication (r : Registry σ) (room : RoomId) :
    Sends r.replication.acked r (r.enqueueRootReplication room) := by
  unfold enqueueRootReplication
  split
  · exact Sends.refl r
  · next creator _ =>
    dsimp only
    split
    · exact Sends.refl r
    · exact sends_stamped r room _ (fun epoch => .replicateMeta room epoch (some creator))
        fun _ => trivial

theorem sends_reportHeadsTo (r : Registry σ) (leader : NodeId) :
    Sends r.replication.acked r (r.reportHeadsTo leader) := by
  unfold reportHeadsTo
  split
  · exact Sends.refl r
  · exact sends_enqueue r leader trivial

theorem sends_catchUpRoomFrame (r : Registry σ) (room : RoomId) (floor : Nat) :
    Sends r.replication.acked r (r.catchUpRoomFrame room floor).2 := by
  unfold catchUpRoomFrame
  dsimp only
  split
  · split
    · exact Sends.refl r
    · exact sends_claimAndPersistEpoch r room
  · exact sends_claimAndPersistEpoch r room
  · exact sends_claimAndPersistEpoch r room

theorem carries_catchUpRoomFrame (r : Registry σ) (room : RoomId) (floor : Nat) :
    ∀ frame ∈ (r.catchUpRoomFrame room floor).1, r.hub.Carries frame := by
  intro frame hFrame
  unfold catchUpRoomFrame at hFrame
  dsimp only at hFrame
  split at hFrame
  · split at hFrame
    · cases hFrame
    · obtain rfl := Option.some.inj hFrame
      trivial
  · obtain rfl := Option.some.inj hFrame
    trivial
  · next seq state history hCatchUp =>
    obtain rfl := Option.some.inj hFrame
    unfold Hub.catchUp at hCatchUp
    split at hCatchUp
    · cases hCatchUp
    · next replica hRoom =>
      unfold Room.catchUp at hCatchUp
      split at hCatchUp
      · obtain ⟨rfl, rfl, rfl⟩ := Catchup.snapshot.inj hCatchUp
        refine ⟨?_, ?_, ?_⟩ <;> simp only [Hub.history, Hub.seq, Hub.room_of_getElem? hRoom]
      · cases hCatchUp

theorem mem_dial_push {dial : DialFrames σ} {frame : Option (Message σ)} {m : Message σ}
    (h : m ∈ (dial.push frame).deltas ++ (dial.push frame).roots) :
    m ∈ dial.deltas ++ dial.roots ∨ m ∈ frame := by
  unfold DialFrames.push at h
  split at h
  · exact .inl h
  · simp only [← List.append_assoc, List.mem_append, List.mem_singleton] at h ⊢
    rcases h with h | rfl
    · exact .inl h
    · exact .inr rfl
  · simp only [List.mem_append, List.mem_singleton] at h ⊢
    rcases h with (h | rfl) | h
    · exact .inl (.inl h)
    · exact .inr rfl
    · exact .inl (.inr h)

theorem sends_enqueueDial (r : Registry σ) (follower : NodeId) {dial : DialFrames σ}
    (hDial : ∀ frame ∈ dial.deltas ++ dial.roots, r.hub.Carries frame) :
    Sends r.replication.acked r (r.enqueueDial follower dial) :=
  sends_foldl _ r fun frame hFrame r' hr' => sends_enqueue r' follower (hr' ▸ hDial frame hFrame)

/-- What a catch-up loop keeps: the frames it dials are the hub's own. -/
def Dials (r : Registry σ) (W : RoomId → NodeId → Nat → Prop) (s : DialFrames σ × Registry σ) :
    Prop :=
  (∀ frame ∈ s.1.deltas ++ s.1.roots, r.hub.Carries frame) ∧
    ∃ acked, Sends acked r s.2 ∧ ∀ room node, W room node (acked room node)

theorem Dials.enqueueDial {W : RoomId → NodeId → Nat → Prop} {s : DialFrames σ × Registry σ}
    (h : Dials r W s) (follower : NodeId) :
    ∃ acked, Sends acked r (s.2.enqueueDial follower s.1) ∧
      ∀ room node, W room node (acked room node) := by
  obtain ⟨hDial, acked, hSends, hW⟩ := h
  have hQueued := sends_enqueueDial s.2 follower (hSends.hub ▸ hDial)
  rw [hSends.acked] at hQueued
  exact ⟨acked, hSends.trans hQueued, hW⟩

/-- A room's frame joins the dial, whatever `credited` made of the watermarks. -/
theorem Dials.push {W : RoomId → NodeId → Nat → Prop} {s : DialFrames σ × Registry σ}
    {credited : Registry σ} {acked : RoomId → NodeId → Nat} (h : Dials r W s)
    (hCredited : Sends acked s.2 credited) (hW : ∀ room node, W room node (acked room node))
    (room : RoomId) (floor : Nat) :
    Dials r W (s.1.push (credited.catchUpRoomFrame room floor).1,
      (credited.catchUpRoomFrame room floor).2) := by
  obtain ⟨hDial, acked', hSends, -⟩ := h
  have hFrame := sends_catchUpRoomFrame credited room floor
  rw [hCredited.acked] at hFrame
  refine ⟨?_, acked, (hSends.trans hCredited).trans hFrame, hW⟩
  intro frame hMem
  rcases mem_dial_push hMem with hOld | hNew
  · exact hDial frame hOld
  · rw [← hSends.hub, ← hCredited.hub]
    exact carries_catchUpRoomFrame _ _ _ frame hNew

theorem Dials.start (r : Registry σ) {W : RoomId → NodeId → Nat → Prop}
    (hW : ∀ room node, W room node (r.replication.acked room node)) : Dials r W (⟨[], []⟩, r) :=
  ⟨by simp, _, Sends.refl r, hW⟩

theorem Dials.foldl {W : RoomId → NodeId → Nat → Prop}
    {f : DialFrames σ × Registry σ → RoomId → DialFrames σ × Registry σ} {rooms : List RoomId}
    {s : DialFrames σ × Registry σ} (h : Dials r W s)
    (hf : ∀ room ∈ rooms, ∀ s, Dials r W s → Dials r W (f s room)) :
    Dials r W (rooms.foldl f s) := by
  induction rooms generalizing s with
  | nil => exact h
  | cons room rooms ih =>
    exact ih (hf room List.mem_cons_self s h) fun room hRoom => hf room (List.mem_cons_of_mem _ hRoom)

/-- The watermarks a catch-up leaves: each as it was. -/
def Keeps (r : Registry σ) (room : RoomId) (node : NodeId) (w : Nat) : Prop :=
  w = r.replication.acked room node

/-- The watermarks a report leaves: each as it was, or the follower's at its floor. -/
def Credits (r : Registry σ) (follower : NodeId) (heads : List (RoomId × Nat)) (room : RoomId)
    (node : NodeId) (w : Nat) : Prop :=
  r.Keeps room node w ∨
    node = follower ∧ room ∈ r.roomsLedFor follower ∧ w = r.reportedFloor heads room

theorem sends_catchUpFollower (r : Registry σ) (follower : NodeId) :
    Sends r.replication.acked r (r.catchUpFollower follower) := by
  have hStart : Dials r r.Keeps (⟨[], []⟩, r) := Dials.start r fun _ _ => rfl
  have hTurn : ∀ room ∈ r.roomsLedFor follower, ∀ s, Dials r r.Keeps s →
      Dials r r.Keeps (catchUpRoom follower s room) := by
    intro room _ s hs
    have ⟨_, acked, hSends, hW⟩ := hs
    exact hs.push (Sends.refl s.2) (hSends.acked ▸ hW) room _
  obtain ⟨acked, hSends, hAcked⟩ := (hStart.foldl hTurn).enqueueDial follower
  obtain rfl : acked = r.replication.acked := funext fun room => funext fun node => hAcked room node
  exact hSends

theorem sends_setWatermark (r : Registry σ) (follower : NodeId) (room : RoomId) (w : Nat) :
    Sends (r.replication.setWatermark follower room w).acked r
      (r.setWatermark follower room w) :=
  ⟨rfl, rfl, rfl, rfl, rfl, fun _ => .inl⟩

/-- A report moves the follower's watermarks to its floors, and no other. -/
theorem sends_catchUpFollowerReporting (r : Registry σ) (follower : NodeId)
    (heads : List (RoomId × Nat)) :
    ∃ acked, Sends acked r (r.catchUpFollowerReporting follower heads) ∧
      ∀ room node, r.Credits follower heads room node (acked room node) := by
  have hStart : Dials r (r.Credits follower heads) (⟨[], []⟩, r) :=
    Dials.start r fun _ _ => .inl rfl
  have hTurn : ∀ room ∈ r.roomsLedFor follower, ∀ s, Dials r (r.Credits follower heads) s →
      Dials r (r.Credits follower heads) (reportRoom follower heads s room) := by
    intro room hRoom s hs
    have ⟨_, acked, hSends, hW⟩ := hs
    have hFloor : s.2.reportedFloor heads room = r.reportedFloor heads room := by
      simp only [reportedFloor, hSends.hub]
    refine hs.push (sends_setWatermark s.2 follower room _) ?_ room _
    intro other node
    rcases Replication.acked_setWatermark s.2.replication follower room other node
      (s.2.reportedFloor heads room) with ⟨rfl, rfl, hSet⟩ | hKept
    · exact .inr ⟨rfl, hRoom, hSet.trans hFloor⟩
    · rw [hKept, hSends.acked]
      exact hW other node
  exact (hStart.foldl hTurn).enqueueDial follower

end Registry

end Server

end CrdtSync
