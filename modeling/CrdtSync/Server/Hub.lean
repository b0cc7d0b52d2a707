import CrdtSync.Core.Known

/-!
# The hub

The server side of a room: the merged replica, the retained part of the op log,
the dedup set and the compaction floor. Only the main stream is modelled, and a
write that reaches the store is taken to be durable.
-/

namespace CrdtSync

namespace Server

open Lib
open Std (ExtTreeMap)

abbrev RoomId := Bytes

/-- `history` names the op at every sequence, those compaction dropped from `log`
included. It is there for the statements: no operation reads it. -/
structure Room (σ : Type) where
  doc : Document σ
  log : List Op
  seen : Finset OpId
  baseSeq : Nat
  creator : Option Bytes
  history : List OpId

/-- What a subscriber needs to catch up: the ops past its position, or the whole
replica at the head. -/
inductive Catchup (σ : Type)
  | ops (ops : List Op)
  | snapshot (seq : Nat) (state : DocState σ) (history : List OpId)

structure Hub (σ : Type) where
  server : ClientId
  content : σ
  rooms : ExtTreeMap RoomId (Room σ) compare
  compactionThreshold : Nat

def ANON_PREFIX : Bytes := [97, 110, 111, 110, 58]

def isAuthenticated (actor : Bytes) : Bool := !ANON_PREFIX.isPrefixOf actor

variable {σ : Type}

namespace Room

def new (server : ClientId) (content : σ) : Room σ :=
  ⟨Document.new server content, [], ∅, 0, none, []⟩

/-- The high-water server sequence. -/
def head (r : Room σ) : Nat := r.baseSeq + r.log.length

/-- The ops of a batch that would grow the log, deduped within the batch too. -/
def fresh (r : Room σ) (batch : Finset OpId) : List Op → List Op
  | [] => []
  | op :: ops =>
    if op.isAdmissible ∧ op.id ∉ r.seen ∧ op.id ∉ batch then op :: r.fresh (insert op.id batch) ops
    else r.fresh batch ops

/-- Fold the logged ops into the replica and drop them. -/
def compact (r : Room σ) : Room σ := { r with baseSeq := r.baseSeq + r.log.length, log := [] }

def catchUp (r : Room σ) (lastSeenSeq : Nat) : Catchup σ :=
  if lastSeenSeq < r.baseSeq then .snapshot r.head r.doc.toDocState r.history
  else .ops (r.log.drop (lastSeenSeq - r.baseSeq))

variable [Folds σ]

def commit (r : Room σ) (op : Op) : Room σ :=
  { r with
    seen := insert op.id r.seen
    doc := r.doc.apply op
    log := r.log ++ [op]
    history := r.history ++ [op.id] }

end Room

namespace Hub

def new (server : ClientId) (content : σ) (compactionThreshold : Nat) : Hub σ :=
  ⟨server, content, ∅, compactionThreshold⟩

def room (h : Hub σ) (id : RoomId) : Room σ := h.rooms[id]?.getD (Room.new h.server h.content)

def roomIds (h : Hub σ) : List RoomId := h.rooms.keys

def holdsRoom (h : Hub σ) (id : RoomId) : Bool := h.rooms.contains id

def seq (h : Hub σ) (id : RoomId) : Nat := (h.room id).head

def baseSeq (h : Hub σ) (id : RoomId) : Nat := (h.room id).baseSeq

def roomCreator (h : Hub σ) (id : RoomId) : Option Bytes := (h.room id).creator

def set (h : Hub σ) (id : RoomId) (r : Room σ) : Hub σ := { h with rooms := h.rooms.insert id r }

/-- An unknown room yields an empty delta. -/
def catchUp (h : Hub σ) (id : RoomId) (lastSeenSeq : Nat) : Catchup σ :=
  match h.rooms[id]? with
  | none => .ops []
  | some r => r.catchUp lastSeenSeq

def compact (h : Hub σ) (id : RoomId) : Hub σ :=
  match h.rooms[id]? with
  | none => h
  | some r => h.set id r.compact

/-- Make `actor` the creator of a room that has none. Also answers whether it did. -/
def ensureCreator (h : Hub σ) (id : RoomId) (actor : Bytes) : Bool × Hub σ :=
  if !isAuthenticated actor then (false, h)
  else
    match h.rooms[id]? with
    | none => (false, h)
    | some r =>
      if r.creator.isNone then (true, h.set id { r with creator := some actor }) else (false, h)

/-- Replace a room by a snapshot, landed at the sequence it stands for. `state` is what its bytes
are decoded to; a frame whose bytes are refused is one that does not arrive. -/
def installSnapshot (h : Hub σ) (id : RoomId) (state : DocState σ) (seq : Nat)
    (creator : Option Bytes) (history : List OpId) : Hub σ :=
  let root := h.roomCreator id
  let doc := Document.decoded state
  h.set id ⟨doc, [], doc.seen, seq, root.or (creator.filter isAuthenticated), history⟩

variable [Folds σ]

/-- Commit a batch: log and apply what is admissible and new, and compact a log
that has grown to the threshold. Also answers the ops newly applied. -/
def ingest (h : Hub σ) (id : RoomId) (ops : List Op) : List Op × Hub σ :=
  let fresh := (h.room id).fresh ∅ ops
  let r := fresh.foldl Room.commit (h.room id)
  let h := h.set id r
  if h.compactionThreshold > 0 ∧ r.log.length ≥ h.compactionThreshold then (fresh, h.compact id)
  else (fresh, h)

end Hub

/-- The log, the dedup set and the replica all agree with what was sequenced. -/
structure Room.Sequenced (r : Room σ) : Prop where
  head : r.history.length = r.head
  log : r.log.map Op.id = r.history.drop r.baseSeq
  admissible : ∀ op ∈ r.log, op.isAdmissible
  seen : ∀ id ∈ r.seen, id ∈ r.history
  known : r.doc.known = r.history.toFinset

def Hub.Sequenced (h : Hub σ) : Prop := ∀ id, (h.room id).Sequenced

namespace Room

variable {r : Room σ}

theorem sequenced_new (server : ClientId) (content : σ) : (Room.new server content).Sequenced where
  head := rfl
  log := rfl
  admissible := by simp [Room.new]
  seen := by simp [Room.new]
  known := rfl

theorem Sequenced.compact (h : r.Sequenced) : r.compact.Sequenced where
  head := by simpa [Room.compact, Room.head] using h.head
  log := by
    have hLen : r.history.length ≤ r.baseSeq + r.log.length := h.head.le
    simp [Room.compact, List.drop_eq_nil_of_le hLen]
  admissible := by simp [Room.compact]
  seen := h.seen
  known := h.known

theorem mem_fresh {batch : Finset OpId} {ops : List Op} {op : Op} (h : op ∈ r.fresh batch ops) :
    op ∈ ops ∧ op.isAdmissible ∧ op.id ∉ r.seen := by
  induction ops generalizing batch with
  | nil => cases h
  | cons other ops ih =>
    unfold fresh at h
    by_cases hNew : other.isAdmissible ∧ other.id ∉ r.seen ∧ other.id ∉ batch
    · rw [if_pos hNew, List.mem_cons] at h
      obtain rfl | h := h
      · exact ⟨List.mem_cons_self, hNew.1, hNew.2.1⟩
      · exact ⟨List.mem_cons_of_mem _ (ih h).1, (ih h).2⟩
    · rw [if_neg hNew] at h
      exact ⟨List.mem_cons_of_mem _ (ih h).1, (ih h).2⟩

theorem seen_or_fresh (r : Room σ) (batch : Finset OpId) {ops : List Op} {op : Op} (hOp : op ∈ ops)
    (hAdmissible : op.isAdmissible) :
    op.id ∈ r.seen ∨ op.id ∈ batch ∨ op.id ∈ (r.fresh batch ops).map Op.id := by
  induction ops generalizing batch with
  | nil => cases hOp
  | cons other ops ih =>
    unfold fresh
    by_cases hNew : other.isAdmissible ∧ other.id ∉ r.seen ∧ other.id ∉ batch
    · rw [if_pos hNew, List.map_cons, List.mem_cons]
      obtain rfl | hOp := List.mem_cons.mp hOp
      · exact .inr (.inr (.inl rfl))
      · obtain h | h | h := ih (insert other.id batch) hOp
        · exact .inl h
        · rcases Finset.mem_insert.mp h with h | h
          · exact .inr (.inr (.inl h))
          · exact .inr (.inl h)
        · exact .inr (.inr (.inr h))
    · rw [if_neg hNew]
      obtain rfl | hOp := List.mem_cons.mp hOp
      · simp only [not_and, not_not] at hNew
        by_cases hSeen : op.id ∈ r.seen
        · exact .inl hSeen
        · exact .inr (.inl (hNew hAdmissible hSeen))
      · exact ih batch hOp

variable [Folds σ]

theorem Sequenced.commit (h : r.Sequenced) {op : Op} (hOp : op.isAdmissible) :
    (r.commit op).Sequenced where
  head := by simpa [Room.commit, Room.head, ← Nat.add_assoc] using h.head
  log := by
    have hBase : r.baseSeq ≤ r.history.length := h.head ▸ Nat.le_add_right _ _
    simp [Room.commit, h.log, List.drop_append_of_le_length hBase]
  admissible := by
    intro other hOther
    rcases List.mem_append.mp hOther with hOld | hNew
    · exact h.admissible other hOld
    · rwa [List.mem_singleton.mp hNew]
  seen := by
    intro id hId
    rcases Finset.mem_insert.mp hId with rfl | hId
    · exact List.mem_append_right _ (List.mem_singleton.mpr rfl)
    · exact List.mem_append_left _ (h.seen id hId)
  known := by
    change (r.doc.apply op).known = _
    rw [Document.known_apply r.doc hOp, h.known]
    simp [Room.commit]

theorem Sequenced.foldl_commit (h : r.Sequenced) {ops : List Op}
    (hOps : ∀ op ∈ ops, op.isAdmissible) : (ops.foldl Room.commit r).Sequenced := by
  induction ops generalizing r with
  | nil => exact h
  | cons op ops ih =>
    exact ih (h.commit (hOps op List.mem_cons_self)) fun op hOp => hOps op (List.mem_cons_of_mem _ hOp)

theorem history_foldl_commit (ops : List Op) (r : Room σ) :
    (ops.foldl commit r).history = r.history ++ ops.map Op.id := by
  induction ops generalizing r with
  | nil => simp
  | cons op ops ih => rw [List.foldl_cons, ih]; simp [commit]

end Room

namespace Hub

variable {h : Hub σ}

/-- The ids a room has sequenced, in order. -/
def history (h : Hub σ) (id : RoomId) : List OpId := (h.room id).history

theorem Sequenced.length_history (hs : h.Sequenced) (id : RoomId) :
    (h.history id).length = h.seq id := (hs id).head

theorem sequenced_new (server : ClientId) (content : σ) (threshold : Nat) :
    (Hub.new server content threshold).Sequenced := by
  intro id
  simpa [Hub.new, room] using Room.sequenced_new server content

@[simp]
theorem room_set (h : Hub σ) (id other : RoomId) (r : Room σ) :
    (h.set id r).room other = if other = id then r else h.room other := by
  simp only [room, set, getElem?_insert_ite]
  split <;> rfl

theorem Sequenced.set (hs : h.Sequenced) (id : RoomId) {r : Room σ} (hr : r.Sequenced) :
    (h.set id r).Sequenced := by
  intro other
  rw [room_set]
  split
  · exact hr
  · exact hs other

theorem room_of_getElem? {id : RoomId} {r : Room σ} (hr : h.rooms[id]? = some r) : h.room id = r := by
  simp [room, hr]

theorem Sequenced.compact (hs : h.Sequenced) (id : RoomId) : (h.compact id).Sequenced := by
  unfold Hub.compact
  cases hRoom : h.rooms[id]? with
  | none => exact hs
  | some r => exact hs.set id (room_of_getElem? hRoom ▸ (hs id).compact)

@[simp]
theorem history_compact (h : Hub σ) (id other : RoomId) :
    (h.compact id).history other = h.history other := by
  unfold Hub.compact history
  cases hRoom : h.rooms[id]? with
  | none => rfl
  | some r =>
    rw [room_set]
    split
    · next hEq => rw [hEq, room_of_getElem? hRoom]; rfl
    · rfl

@[simp]
theorem history_ensureCreator (h : Hub σ) (id other : RoomId) (actor : Bytes) :
    (h.ensureCreator id actor).2.history other = h.history other := by
  unfold ensureCreator
  split
  · rfl
  · cases hRoom : h.rooms[id]? with
    | none => rfl
    | some r =>
      dsimp only
      split
      · unfold history
        rw [room_set]
        split
        · next hEq => rw [hEq, room_of_getElem? hRoom]
        · rfl
      · rfl

theorem Sequenced.ensureCreator (hs : h.Sequenced) (id : RoomId) (actor : Bytes) :
    (h.ensureCreator id actor).2.Sequenced := by
  unfold Hub.ensureCreator
  split
  · exact hs
  · cases hRoom : h.rooms[id]? with
    | none => exact hs
    | some r =>
      dsimp only
      split
      · have hr := room_of_getElem? hRoom ▸ hs id
        exact hs.set id ⟨hr.head, hr.log, hr.admissible, hr.seen, hr.known⟩
      · exact hs

theorem history_installSnapshot (h : Hub σ) (id other : RoomId) (state : DocState σ) (seq : Nat)
    (creator : Option Bytes) (history : List OpId) :
    (h.installSnapshot id state seq creator history).history other =
      if other = id then history else h.history other := by
  unfold Hub.history installSnapshot
  rw [room_set]
  split <;> rfl

theorem Sequenced.installSnapshot (hs : h.Sequenced) (id : RoomId) {state : DocState σ} {seq : Nat}
    (creator : Option Bytes) {history : List OpId} (hSeq : history.length = seq)
    (hKnown : (Document.decoded state).known = history.toFinset) :
    (h.installSnapshot id state seq creator history).Sequenced := by
  refine hs.set id ⟨hSeq, ?_, ?_, ?_, hKnown⟩
  · simp [List.drop_eq_nil_of_le hSeq.le]
  · simp
  · intro other hOther
    rw [← List.mem_toFinset, ← hKnown, Document.mem_known]
    exact .inl hOther

variable [Folds σ]

theorem history_ingest (h : Hub σ) (id other : RoomId) (ops : List Op) :
    (h.ingest id ops).2.history other =
      if other = id then h.history id ++ ((h.room id).fresh ∅ ops).map Op.id else h.history other := by
  have hSet : (h.set id (((h.room id).fresh ∅ ops).foldl Room.commit (h.room id))).history other =
      if other = id then h.history id ++ ((h.room id).fresh ∅ ops).map Op.id
      else h.history other := by
    unfold history
    rw [room_set]
    split
    · exact Room.history_foldl_commit _ _
    · rfl
  unfold ingest
  dsimp only
  split
  · rw [history_compact, hSet]
  · exact hSet

theorem ingest_fst (h : Hub σ) (id : RoomId) (ops : List Op) :
    (h.ingest id ops).1 = (h.room id).fresh ∅ ops := by
  unfold ingest
  dsimp only
  split <;> rfl

theorem Sequenced.ingest (hs : h.Sequenced) (id : RoomId) (ops : List Op) :
    (h.ingest id ops).2.Sequenced := by
  have hFresh : ∀ op ∈ (h.room id).fresh ∅ ops, op.isAdmissible :=
    fun op hOp => (Room.mem_fresh hOp).2.1
  have hSet := hs.set id ((hs id).foldl_commit hFresh)
  unfold Hub.ingest
  dsimp only
  split
  · exact hSet.compact id
  · exact hSet

end Hub

end Server

end CrdtSync
