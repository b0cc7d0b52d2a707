import CrdtSync.Core.Restored
import CrdtSync.Server.Cluster

/-!
# Catching a follower up

A leader answers a report of durable heads with one frame for every room it leads,
built from a count. The frame brings the follower everything the leader had
logged exactly when it is a snapshot, or the follower already held what the
leader logged up to that count.
-/

namespace CrdtSync

namespace Server

variable {σ : Type}

/-- The room a frame is about. -/
def Message.room? : Message σ → Option RoomId
  | .replicate room _ _ _ _ => some room
  | .replicateMeta room _ _ => some room
  | .replicateSnapshot room _ _ _ _ _ => some room
  | .replicaAck room _ => some room
  | .followerHeads _ _ => none

def Hub.catchUpFrame (h : Hub σ) (room : RoomId) (floor epoch : Nat) : Option (Message σ) :=
  match h.catchUp room floor with
  | .ops [] =>
    if (h.roomCreator room).isNone || h.seq room = 0 then none
    else some (.replicateMeta room epoch (h.roomCreator room))
  | .ops ops => some (.replicate room ops (h.baseSeq room) epoch (h.roomCreator room))
  | .snapshot seq state history =>
    some (.replicateSnapshot room seq state epoch (h.roomCreator room) history)

theorem Hub.room?_catchUpFrame (h : Hub σ) (room : RoomId) (floor epoch : Nat) :
    ∀ frame ∈ h.catchUpFrame room floor epoch, frame.room? = some room := by
  intro frame hFrame
  unfold catchUpFrame at hFrame
  split at hFrame
  · split at hFrame
    · cases hFrame
    · obtain rfl := Option.some.inj hFrame
      rfl
  · obtain rfl := Option.some.inj hFrame
    rfl
  · obtain rfl := Option.some.inj hFrame
    rfl

namespace DialFrames

def about (dial : DialFrames σ) (room : RoomId) : List (Message σ) :=
  (dial.deltas ++ dial.roots).filter fun frame => frame.room? = some room

theorem about_push_of_ne {dial : DialFrames σ} {frame : Option (Message σ)} {room : RoomId}
    (h : ∀ m ∈ frame, m.room? ≠ some room) : (dial.push frame).about room = dial.about room := by
  unfold about push
  split
  · rfl
  · next other epoch creator =>
    have hOther := h _ rfl
    simp only [List.filter_append, List.filter_cons, hOther, decide_false, List.filter_nil,
      List.append_nil, Bool.false_eq_true, if_false]
  · next m _ _ =>
    have hOther := h _ rfl
    simp only [List.filter_append, List.filter_cons, hOther, decide_false, List.filter_nil,
      List.append_nil, Bool.false_eq_true, if_false]

theorem about_push {dial : DialFrames σ} {frame : Option (Message σ)} {room : RoomId}
    (hNone : dial.about room = []) (h : ∀ m ∈ frame, m.room? = some room) :
    (dial.push frame).about room = frame.toList := by
  unfold about at hNone
  rw [List.filter_append, List.append_eq_nil_iff] at hNone
  unfold about push
  split
  · rw [List.filter_append, hNone.1, hNone.2]
    rfl
  · next other epoch creator =>
    have hRoom := h _ rfl
    simp only [List.filter_append, hNone.1, hNone.2, List.filter_cons, hRoom, decide_true,
      if_true, List.filter_nil, List.nil_append, Option.toList_some]
  · next m _ _ =>
    have hRoom := h _ rfl
    simp only [List.filter_append, hNone.1, hNone.2, List.filter_cons, hRoom, decide_true,
      if_true, List.filter_nil, List.nil_append, List.append_nil, Option.toList_some]

end DialFrames

namespace Registry

/-- The frames a report makes the leader queue for one room. -/
def dialedFor (r : Registry σ) (follower : NodeId) (heads : List (RoomId × Nat)) (room : RoomId) :
    List (Message σ) :=
  (((r.applyFollowerHeads follower follower heads).replication.pending.drop
    r.replication.pending.length).map Prod.snd).filter fun frame => frame.room? = some room

/-- Whether a replication frame passes the gate. -/
def admits (r : Registry σ) (sender : NodeId) : Message σ → Bool
  | .replicate room _ _ epoch _ => r.replicaGate sender room epoch = .apply
  | .replicateMeta room epoch _ => r.replicaGate sender room epoch = .apply
  | .replicateSnapshot room _ _ epoch _ _ => r.replicaGate sender room epoch = .apply
  | _ => true

def receiveAll [Folds σ] (r : Registry σ) (sender : NodeId) (frames : List (Message σ)) :
    Registry σ :=
  frames.foldl (fun r frame => (r.receive sender frame).1) r

theorem catchUpRoomFrame_eq (r : Registry σ) (room : RoomId) (floor : Nat) :
    ∃ epoch, (r.catchUpRoomFrame room floor).1 = r.hub.catchUpFrame room floor epoch := by
  refine ⟨(r.claimAndPersistEpoch room).1, ?_⟩
  unfold catchUpRoomFrame Hub.catchUpFrame
  cases hCatchUp : r.hub.catchUp room floor with
  | ops ops =>
    cases ops with
    | nil =>
      dsimp only
      split <;> rfl
    | cons op ops => rfl
  | snapshot seq state history => rfl

theorem pending_enqueueDial (r : Registry σ) (follower : NodeId) (dial : DialFrames σ) :
    (r.enqueueDial follower dial).replication.pending =
      r.replication.pending ++ (dial.deltas ++ dial.roots).map fun frame => (follower, frame) := by
  unfold enqueueDial
  induction dial.deltas ++ dial.roots generalizing r with
  | nil => simp
  | cons frame frames ih =>
    rw [List.foldl_cons, ih]
    simp [enqueue, Replication.enqueue]

theorem pending_catchUpRoomFrame (r : Registry σ) (room : RoomId) (floor : Nat) :
    (r.catchUpRoomFrame room floor).2.replication.pending = r.replication.pending := by
  unfold catchUpRoomFrame
  dsimp only
  split
  · split <;> rfl
  · rfl
  · rfl

/-- One turn of the reporting loop: the room's own frame, and nothing queued yet. -/
theorem reportRoom_spec (follower : NodeId) (heads : List (RoomId × Nat))
    (s : DialFrames σ × Registry σ) (room : RoomId) :
    (reportRoom follower heads s room).2.hub = s.2.hub ∧
      (reportRoom follower heads s room).2.replication.pending = s.2.replication.pending ∧
      ∃ epoch, (reportRoom follower heads s room).1 =
        s.1.push (s.2.hub.catchUpFrame room (s.2.reportedFloor heads room) epoch) := by
  obtain ⟨epoch, hFrame⟩ := catchUpRoomFrame_eq
    (s.2.setWatermark follower room (s.2.reportedFloor heads room)) room
    (s.2.reportedFloor heads room)
  refine ⟨(sends_catchUpRoomFrame _ _ _).hub, pending_catchUpRoomFrame _ _ _, epoch, ?_⟩
  exact congrArg s.1.push hFrame

/-- The reporting loop dials every room once, with the frame the hub gives for it. -/
theorem about_reportingLoop (follower : NodeId) (heads : List (RoomId × Nat)) (room : RoomId)
    (rooms : List RoomId) (hNodup : rooms.Nodup) (s : DialFrames σ × Registry σ) :
    (rooms.foldl (reportRoom follower heads) s).2.replication.pending = s.2.replication.pending ∧
      (room ∉ rooms → (rooms.foldl (reportRoom follower heads) s).1.about room = s.1.about room) ∧
      (room ∈ rooms → s.1.about room = [] →
        ∃ epoch, (rooms.foldl (reportRoom follower heads) s).1.about room =
          (s.2.hub.catchUpFrame room (s.2.reportedFloor heads room) epoch).toList) := by
  induction rooms generalizing s with
  | nil => exact ⟨rfl, fun _ => rfl, fun h => absurd h (by simp)⟩
  | cons head rooms ih =>
    obtain ⟨hHead, hNodup⟩ := List.nodup_cons.mp hNodup
    obtain ⟨hHub, hPending, epoch, hDial⟩ := reportRoom_spec follower heads s head
    have hAbout := s.2.hub.room?_catchUpFrame head (s.2.reportedFloor heads head) epoch
    have hOther : room ≠ head →
        (reportRoom follower heads s head).1.about room = s.1.about room := by
      intro hNe
      rw [hDial]
      apply DialFrames.about_push_of_ne
      intro m hm hSame
      exact hNe (Option.some.inj (hSame.symm.trans (hAbout m hm)))
    obtain ⟨hPending', hSkip, hTake⟩ := ih hNodup (reportRoom follower heads s head)
    refine ⟨hPending'.trans hPending, ?_, ?_⟩
    · intro hRoom
      rw [List.mem_cons, not_or] at hRoom
      exact (hSkip hRoom.2).trans (hOther hRoom.1)
    · intro hRoom hNone
      rcases List.mem_cons.mp hRoom with rfl | hRoom
      · refine ⟨epoch, (hSkip hHead).trans ?_⟩
        rw [hDial]
        exact DialFrames.about_push hNone hAbout
      · have hNe : room ≠ head := fun hEq => hHead (hEq ▸ hRoom)
        have hFloor : (reportRoom follower heads s head).2.reportedFloor heads room =
            s.2.reportedFloor heads room := by simp only [reportedFloor, hHub]
        obtain ⟨epoch', hFrame⟩ := hTake hRoom ((hOther hNe).trans hNone)
        exact ⟨epoch', by rw [List.foldl_cons, hFrame, hHub, hFloor]⟩

theorem nodup_roomsLedFor (r : Registry σ) (follower : NodeId) : (r.roomsLedFor follower).Nodup := by
  unfold roomsLedFor
  split
  · exact List.nodup_nil
  · have hKeys : r.hub.roomIds.Nodup := by
      refine Std.ExtTreeMap.distinct_keys.imp ?_
      rintro a b hNe rfl
      exact hNe Std.ReflOrd.compare_self
    exact hKeys.filter _

/-- The leader queues for the room exactly the frame its own hub gives from the
reported floor. -/
theorem dialedFor_eq (r : Registry σ) (follower : NodeId) (heads : List (RoomId × Nat))
    {room : RoomId} (hRoom : room ∈ r.roomsLedFor follower) :
    ∃ epoch, r.dialedFor follower heads room =
      (r.hub.catchUpFrame room (r.reportedFloor heads room) epoch).toList := by
  obtain ⟨hPending, -, hTake⟩ := about_reportingLoop follower heads room (r.roomsLedFor follower)
    (r.nodup_roomsLedFor follower) (⟨[], []⟩, r)
  obtain ⟨epoch, hAbout⟩ := hTake hRoom rfl
  refine ⟨epoch, ?_⟩
  unfold dialedFor applyFollowerHeads
  rw [if_neg (by simp)]
  unfold catchUpFollowerReporting
  dsimp only at hPending hAbout ⊢
  rw [pending_enqueueDial, hPending, List.drop_left, List.map_map, ← hAbout]
  simp [DialFrames.about, Function.comp_def]

theorem getElem?_of_mem_roomsLedFor {r : Registry σ} {follower : NodeId} {room : RoomId}
    (h : room ∈ r.roomsLedFor follower) : ∃ replica, r.hub.rooms[room]? = some replica := by
  unfold roomsLedFor at h
  split at h
  · cases h
  · have hKey := (List.mem_filter.mp h).1
    rw [Hub.roomIds, Std.ExtTreeMap.mem_keys] at hKey
    exact ⟨_, Std.ExtTreeMap.getElem?_eq_some_getElem hKey⟩

section Apply

variable [Folds σ]

/-- A snapshot that passes the gate makes the follower's room the leader's. -/
theorem history_receive_snapshot {r : Registry σ} {sender : NodeId} {room : RoomId} {seq : Nat}
    {state : DocState σ} {epoch : Nat} {creator : Option Bytes} {history : List OpId}
    (h : r.admits sender (.replicateSnapshot room seq state epoch creator history)) :
    (r.receive sender (.replicateSnapshot room seq state epoch creator history)).1.hub.history room =
      history := by
  change (r.applyReplicateSnapshot sender room seq state epoch creator history).1.hub.history room = _
  have hGate : r.replicaGate sender room epoch = .apply := by simpa [admits] using h
  unfold applyReplicateSnapshot
  obtain ⟨-, epochs, hEq⟩ | ⟨gate, hNot, hOther, -⟩ := r.gateReplicaFrame_cases sender room epoch
  · rw [hEq]
    obtain ⟨hub, hAdopt, hHistory, -⟩ := adoptReplicatedMeta_eq { r with
      epochs, hub := r.hub.installSnapshot room state seq creator history } room creator
    dsimp only
    rw [hAdopt, hHistory room, Hub.history_installSnapshot, if_pos rfl]
  · exact absurd (hOther.symm.trans hGate) hNot

/-- An ops frame that passes the gate adds the ops the follower did not hold. -/
theorem history_receive_replicate {r : Registry σ} {sender : NodeId} {room : RoomId} {ops : List Op}
    {baseSeq epoch : Nat} {creator : Option Bytes}
    (h : r.admits sender (.replicate room ops baseSeq epoch creator)) :
    (r.receive sender (.replicate room ops baseSeq epoch creator)).1.hub.history room =
      r.hub.history room ++ ((r.hub.room room).fresh ∅ ops).map Op.id := by
  change (r.applyReplicate sender room ops epoch creator).1.hub.history room = _
  have hGate : r.replicaGate sender room epoch = .apply := by simpa [admits] using h
  unfold applyReplicate
  obtain ⟨-, epochs, hEq⟩ | ⟨gate, hNot, hOther, -⟩ := r.gateReplicaFrame_cases sender room epoch
  · rw [hEq]
    obtain ⟨hub, hAdopt, hHistory, -⟩ := adoptReplicatedMeta_eq { r with
      epochs, hub := (r.hub.ingest room ops).2 } room creator
    dsimp only
    rw [hAdopt, hHistory room, Hub.history_ingest, if_pos rfl]
  · exact absurd (hOther.symm.trans hGate) hNot

theorem history_receive_meta (r : Registry σ) (sender : NodeId) (room : RoomId) (epoch : Nat)
    (creator : Option Bytes) (other : RoomId) :
    (r.receive sender (.replicateMeta room epoch creator)).1.hub.history other =
      r.hub.history other := by
  obtain ⟨epochs, hub, hEq, hHistory, -⟩ := r.applyReplicateMeta_eq sender room epoch creator
  change (r.applyReplicateMeta sender room epoch creator).hub.history other = _
  rw [hEq]
  exact hHistory other

end Apply

end Registry

namespace Hub

/-- An applied batch is held from then on. -/
theorem mem_history_append_fresh {h : Hub σ} (hs : h.Sequenced) {room : RoomId} {ops : List Op}
    {op : Op} (hOp : op ∈ ops) (hAdmissible : op.isAdmissible) :
    op.id ∈ h.history room ++ ((h.room room).fresh ∅ ops).map Op.id := by
  obtain hSeen | hBatch | hNew := (h.room room).seen_or_fresh ∅ hOp hAdmissible
  · exact List.mem_append_left _ ((hs room).seen _ hSeen)
  · cases hBatch
  · exact List.mem_append_right _ hNew

theorem caughtUp_iff [Folds σ] {leader : Hub σ} (hLeader : leader.Sequenced) {r : Registry σ}
    (hFollower : r.hub.Sequenced) {room : RoomId} {replica : Room σ}
    (hRoom : leader.rooms[room]? = some replica) {floor epoch : Nat} (sender : NodeId)
    (hApplied : ∀ frame ∈ (leader.catchUpFrame room floor epoch).toList, r.admits sender frame) :
    (∀ id ∈ leader.history room,
        id ∈ (r.receiveAll sender (leader.catchUpFrame room floor epoch).toList).hub.history room) ↔
      floor < leader.baseSeq room ∨ ∀ id ∈ (leader.history room).take floor,
        id ∈ r.hub.history room ∨ id ∈ (leader.history room).drop floor := by
  have hReplica := room_of_getElem? hRoom
  have hSequenced : replica.Sequenced := hReplica ▸ hLeader room
  have hCatchUp : leader.catchUp room floor = replica.catchUp floor := by
    simp only [catchUp, hRoom]
  rcases Nat.lt_or_ge floor replica.baseSeq with hBelow | hAbove
  · -- below the compaction floor the whole replica travels
    have hFrame : leader.catchUpFrame room floor epoch = some (.replicateSnapshot room replica.head
        replica.doc.toDocState epoch (leader.roomCreator room) replica.history) := by
      simp only [catchUpFrame, hCatchUp, Room.catchUp, if_pos hBelow]
    rw [hFrame] at hApplied ⊢
    have hHistory := Registry.history_receive_snapshot (hApplied _ List.mem_cons_self)
    refine iff_of_true ?_ (.inl (by rwa [baseSeq, hReplica]))
    intro id hId
    change id ∈ (r.receive sender _).1.hub.history room
    rw [hHistory]
    rwa [history, hReplica] at hId
  · have hBase : ¬floor < leader.baseSeq room := by
      rw [baseSeq, hReplica]
      omega
    have hOps : replica.catchUp floor = .ops (replica.log.drop (floor - replica.baseSeq)) := by
      simp only [Room.catchUp, if_neg (show ¬floor < replica.baseSeq by omega)]
    -- the tail past the floor, by id
    have hTail : (replica.log.drop (floor - replica.baseSeq)).map Op.id =
        (leader.history room).drop floor := by
      rw [List.map_drop, hSequenced.log, List.drop_drop, Nat.add_sub_cancel' hAbove, history, hReplica]
    have hSplit : ∀ id ∈ leader.history room, id ∈ (leader.history room).take floor ∨
        id ∈ (leader.history room).drop floor := by
      intro id hId
      rw [← List.mem_append, List.take_append_drop]
      exact hId
    rw [or_iff_right hBase]
    cases hDrop : replica.log.drop (floor - replica.baseSeq) with
    | nil =>
      -- nothing past the floor: the frame, if any, carries no op
      have hNone : (leader.history room).drop floor = [] := by rw [← hTail, hDrop]; rfl
      have hSame : (r.receiveAll sender (leader.catchUpFrame room floor epoch).toList).hub.history
          room = r.hub.history room := by
        unfold catchUpFrame
        rw [hCatchUp, hOps, hDrop]
        dsimp only
        split
        · rfl
        · exact Registry.history_receive_meta ..
      rw [hSame, hNone]
      constructor
      · exact fun h id hId => .inl (h id (List.mem_of_mem_take hId))
      · intro h id hId
        rcases hSplit id hId with hTake | hLate
        · exact (h id hTake).resolve_right (by simp)
        · rw [hNone] at hLate
          cases hLate
    | cons op ops =>
      have hFrame : leader.catchUpFrame room floor epoch = some (.replicate room (op :: ops)
          (leader.baseSeq room) epoch (leader.roomCreator room)) := by
        simp only [catchUpFrame, hCatchUp, hOps, hDrop]
      rw [hFrame] at hApplied ⊢
      have hHistory := Registry.history_receive_replicate (hApplied _ List.mem_cons_self)
      have hGets : (r.receiveAll sender [.replicate room (op :: ops) (leader.baseSeq room) epoch
          (leader.roomCreator room)]).hub.history room =
            r.hub.history room ++ ((r.hub.room room).fresh ∅ (op :: ops)).map Op.id := hHistory
      rw [Option.toList_some, hGets]
      rw [hDrop] at hTail
      have hAdmissible : ∀ other ∈ op :: ops, other.isAdmissible := fun other hOther =>
        hSequenced.admissible other (List.mem_of_mem_drop (hDrop ▸ hOther))
      constructor
      · intro h id hId
        rcases List.mem_append.mp (h id (List.mem_of_mem_take hId)) with hHeld | hNew
        · exact .inl hHeld
        · obtain ⟨other, hOther, rfl⟩ := List.mem_map.mp hNew
          rw [← hTail]
          exact .inr (List.mem_map_of_mem (Room.mem_fresh hOther).1)
      · intro h id hId
        have hLate : id ∈ (leader.history room).drop floor →
            id ∈ r.hub.history room ++ ((r.hub.room room).fresh ∅ (op :: ops)).map Op.id := by
          rw [← hTail]
          intro hMem
          obtain ⟨other, hOther, rfl⟩ := List.mem_map.mp hMem
          exact mem_history_append_fresh hFollower hOther (hAdmissible other hOther)
        rcases hSplit id hId with hTake | hMem
        · exact (h id hTake).elim (List.mem_append_left _) hLate
        · exact hLate hMem

end Hub

namespace Cluster

variable [Folds σ]

theorem sequenced_receiveAll {r : Registry σ} (h : r.Sequenced) (sender : NodeId)
    {frames : List (Message σ)} (hFrames : ∀ frame ∈ frames, frame.Sequenced) :
    (r.receiveAll sender frames).Sequenced := by
  induction frames generalizing r with
  | nil => exact h
  | cons frame frames ih =>
    exact ih (h.receive sender (hFrames frame List.mem_cons_self)).1
      fun other hOther => hFrames other (List.mem_cons_of_mem _ hOther)

/-- A leader answers a report at the end of `before`; the follower applies what the
leader queued for the room at the end of `after`. It then holds all the leader had
logged exactly when the leader sent a snapshot, or every op the leader had logged up
to the reported floor was already the follower's, or is logged again past the floor. -/
theorem caught_up_iff (p : Deployment σ) (before after : List Event) (leader follower : NodeId)
    (heads : List (RoomId × Nat)) (room : RoomId)
    (hRoom : room ∈ (((start p).run before).nodes leader).roomsLedFor follower)
    (hApplied : ∀ frame ∈ (((start p).run before).nodes leader).dialedFor follower heads room,
      (((start p).run (before ++ after)).nodes follower).admits leader frame) :
    let l := ((start p).run before).nodes leader
    let f := ((start p).run (before ++ after)).nodes follower
    let f' := f.receiveAll leader (l.dialedFor follower heads room)
    ((∀ id ∈ l.hub.history room, id ∈ f'.hub.history room) ∧
        (l.hub.room room).doc.known ⊆ (f'.hub.room room).doc.known) ↔
      l.reportedFloor heads room < l.hub.baseSeq room ∨
        ∀ id ∈ (l.hub.history room).take (l.reportedFloor heads room),
          id ∈ f.hub.history room ∨
            id ∈ (l.hub.history room).drop (l.reportedFloor heads room) := by
  intro l f f'
  have hLeader : l.Sequenced := (sequenced_run (sequenced_start p) before).nodes leader
  have hFollower : f.Sequenced :=
    (sequenced_run (sequenced_start p) (before ++ after)).nodes follower
  obtain ⟨epoch, hDialed⟩ := l.dialedFor_eq follower heads hRoom
  obtain ⟨replica, hReplica⟩ := Registry.getElem?_of_mem_roomsLedFor hRoom
  have hCaught := Hub.caughtUp_iff hLeader.hub hFollower.hub hReplica leader (hDialed ▸ hApplied)
  rw [← hDialed] at hCaught
  have hFrames : ∀ frame ∈ l.dialedFor follower heads room, frame.Sequenced := by
    intro frame hFrame
    unfold Registry.dialedFor at hFrame
    obtain ⟨entry, hEntry, rfl⟩ := List.mem_map.mp (List.mem_filter.mp hFrame).1
    exact (hLeader.applyFollowerHeads follower follower heads).pending entry
      (List.mem_of_mem_drop hEntry)
  have hAfter : f'.Sequenced := sequenced_receiveAll hFollower leader hFrames
  -- a document holds exactly what its room has sequenced
  have hDoc : (∀ id ∈ l.hub.history room, id ∈ f'.hub.history room) →
      (l.hub.room room).doc.known ⊆ (f'.hub.room room).doc.known := by
    intro h id hId
    rw [(hLeader.hub room).known, List.mem_toFinset] at hId
    rw [(hAfter.hub room).known, List.mem_toFinset]
    exact h id hId
  rw [← hCaught, and_iff_left_of_imp hDoc]

section Witness

local instance catchUpIdBytes : IdBytes := IdBytes.spelled

/-- Two nodes that both replicate every room. -/
def pairRing : Ring where
  members := [[65], [66]]
  replicasFor _ := [[65], [66]]
  nodup _ := by decide
  nonempty _ := by decide
  placed _ _ h := h

def pairDeployment : Deployment Content where
  ring := pairRing
  server node := if node = [65] then ⟨101⟩ else ⟨102⟩
  content := Content.new
  compactionThreshold := 0

def slotOp (client : ClientId) : Op :=
  ⟨⟨client, 0⟩, ⟨1, client, 0⟩, ROOT_ID, .mapSet [97] (.int 1), none, none⟩

theorem caught_up_wiped_follower :
    let l := ((start pairDeployment).run [.write [65] 1 0 [49] [114] [slotOp ⟨1⟩]]).nodes [65]
    let f := ((start pairDeployment).run
      ([.write [65] 1 0 [49] [114] [slotOp ⟨1⟩]] ++ [.wipe [66]])).nodes [66]
    let f' := f.receiveAll [65] (l.dialedFor [66] [] [114])
    (∀ id ∈ l.hub.history [114], id ∈ f'.hub.history [114]) ∧
      (l.hub.room [114]).doc.known ⊆ (f'.hub.room [114]).doc.known := by
  refine (caught_up_iff pairDeployment [.write [65] 1 0 [49] [114] [slotOp ⟨1⟩]] [.wipe [66]]
    [65] [66] [] [114] ?_ ?_).mpr (.inr ?_)
  · decide +kernel
  · decide +kernel
  · decide +kernel

/-- Both nodes logged one op as leaders, and the heads they report are equal: the
leader sends no op. -/
theorem caught_up_fails_on_equal_heads :
    ¬∀ (before after : List Event) (leader follower : NodeId) (room : RoomId),
      room ∈ (((start pairDeployment).run before).nodes leader).roomsLedFor follower →
      (∀ frame ∈ (((start pairDeployment).run before).nodes leader).dialedFor follower
          (((start pairDeployment).run before).nodes follower).durableHeads room,
        (((start pairDeployment).run (before ++ after)).nodes follower).admits leader frame) →
      ∀ id ∈ ((start pairDeployment).run before).history leader room,
        id ∈ ((((start pairDeployment).run (before ++ after)).nodes follower).receiveAll leader
          ((((start pairDeployment).run before).nodes leader).dialedFor follower
            (((start pairDeployment).run before).nodes follower).durableHeads room)).hub.history
              room := by
  intro h
  have hHolds := h [.liveness [66] {[65]}, .write [66] 1 0 [49] [114] [slotOp ⟨2⟩],
    .liveness [66] ∅, .write [65] 1 0 [49] [114] [slotOp ⟨1⟩]] [] [65] [66] [114]
    (by decide +kernel) (by decide +kernel) ⟨⟨1⟩, 0⟩ (by decide +kernel)
  exact absurd hHolds (by decide +kernel)

end Witness

end Cluster

end Server

end CrdtSync
