import CrdtSync.Core.Client
import CrdtSync.Core.Merged
import CrdtSync.Core.ReadBack
import CrdtSync.Server.Hub

/-!
# Catching up

A room is its ops folded in order, and its log is what of them lies past the
compaction floor. So whatever a subscriber has folded up to an earlier head, the
delta it is answered with lands it where the room is, and so does a snapshot that is
read back as the room it was cut from.
-/

namespace CrdtSync

namespace Server

variable {σ : Type}

/-- What happens at a hub: batches and compactions, of any room. -/
inductive HubEvent
  | ingest (room : RoomId) (ops : List Op)
  | compact (room : RoomId)

/-- A hub, with every op it has newly logged in one room. -/
structure Stream (σ : Type) where
  hub : Hub σ
  logged : List Op

/-- The frame a catch-up is served as, a snapshot's bytes decoded where it is received. -/
def Catchup.frame [Folds σ] : Catchup σ → CrdtSync.Message σ
  | .ops delta => .ops delta
  | .snapshot seq state _ => .snapshot seq state.reread

/-- The positions past `cursor` that a catch-up lands. -/
def Catchup.positions (cursor : Nat) : Catchup σ → List Nat
  | .ops delta => List.range' (cursor + 1) delta.length
  | .snapshot seq _ _ => List.range' (cursor + 1) (seq - cursor)

/-- A room's stream, and a subscriber to it with the catch-ups it was served, each at the
cursor it asked from. -/
structure Subscription (σ : Type) where
  stream : Stream σ
  subscriber : CrdtSync.Room σ
  served : List (Nat × Catchup σ)

inductive SubscriptionEvent
  | hub (event : HubEvent)
  | catchUp

namespace Room

variable {r : Room σ}

variable [Folds σ]

/-- The replica a fresh server room folds its ops into. -/
def folded (server : ClientId) (content : σ) (logged : List Op) : Document σ :=
  logged.foldl Document.apply (Document.new server content)

/-- The room holds `logged`, folded, and retains what lies past its floor. -/
structure Holds (server : ClientId) (content : σ) (logged : List Op) (r : Room σ) : Prop where
  doc : r.doc = folded server content logged
  log : r.log = logged.drop r.baseSeq
  floor : r.baseSeq ≤ logged.length

variable {server : ClientId} {content : σ} {logged : List Op}

theorem holds_new (server : ClientId) (content : σ) :
    Holds server content [] (Room.new server content) := ⟨rfl, rfl, le_rfl⟩

theorem Holds.head (h : Holds server content logged r) : r.head = logged.length := by
  have hFloor := h.floor
  rw [Room.head, h.log, List.length_drop]
  omega

theorem Holds.commit (h : Holds server content logged r) (op : Op) :
    Holds server content (logged ++ [op]) (r.commit op) where
  doc := by
    rw [folded, List.foldl_append, ← folded, ← h.doc]
    rfl
  log := by
    change r.log ++ [op] = (logged ++ [op]).drop r.baseSeq
    rw [h.log, List.drop_append_of_le_length h.floor]
  floor := h.floor.trans (by simp)

theorem Holds.foldl_commit (h : Holds server content logged r) (ops : List Op) :
    Holds server content (logged ++ ops) (ops.foldl Room.commit r) := by
  induction ops generalizing r logged with
  | nil => simpa using h
  | cons op ops ih =>
    have hRest := ih (h.commit op)
    rwa [List.append_assoc] at hRest

theorem Holds.compact (h : Holds server content logged r) :
    Holds server content logged r.compact where
  doc := h.doc
  log := (List.drop_eq_nil_of_le h.head.ge).symm
  floor := h.head.le

theorem Holds.catchUp (h : Holds server content logged r) (cursor : Nat) :
    r.catchUp cursor = .ops (logged.drop cursor) ∨
      r.catchUp cursor = .snapshot logged.length r.doc.toDocState r.history := by
  unfold Room.catchUp
  split
  · exact .inr (by rw [h.head])
  · next hFloor =>
    refine .inl ?_
    rw [h.log, List.drop_drop]
    congr 2
    omega

end Room

namespace Hub

theorem catchUp_eq (h : Hub σ) (id : RoomId) (cursor : Nat) :
    h.catchUp id cursor = (h.room id).catchUp cursor := by
  unfold Hub.catchUp Hub.room
  cases h.rooms[id]? with
  | none =>
    have hFloor : ¬cursor < (Room.new h.server h.content).baseSeq := Nat.not_lt_zero _
    rw [Option.getD_none, Room.catchUp, if_neg hFloor]
    simp [Room.new]
  | some r => rfl

theorem room_compact (h : Hub σ) (id other : RoomId) :
    (h.compact id).room other = h.room other ∨ (h.compact id).room other = (h.room other).compact := by
  unfold Hub.compact
  cases hRoom : h.rooms[id]? with
  | none => exact .inl rfl
  | some r =>
    rw [room_set]
    split
    · next hEq => exact .inr (by rw [hEq, room_of_getElem? hRoom])
    · exact .inl rfl

variable [Folds σ]

theorem room_ingest (h : Hub σ) (id other : RoomId) (ops : List Op) :
    let r := if other = id then (h.ingest id ops).1.foldl Room.commit (h.room id) else h.room other
    (h.ingest id ops).2.room other = r ∨ (h.ingest id ops).2.room other = r.compact := by
  rw [ingest_fst]
  unfold ingest
  dsimp only
  split
  · obtain hSame | hCompact := room_compact
      (h.set id (((h.room id).fresh ∅ ops).foldl Room.commit (h.room id))) id other
    · exact .inl (by rw [hSame, room_set])
    · exact .inr (by rw [hCompact, room_set])
  · exact .inl (by rw [room_set])

end Hub

namespace Stream

variable [Folds σ]

def new (server : ClientId) (content : σ) (compactionThreshold : Nat) : Stream σ :=
  ⟨Hub.new server content compactionThreshold, []⟩

def step (room : RoomId) (s : Stream σ) : HubEvent → Stream σ
  | .ingest other ops =>
    let (fresh, hub) := s.hub.ingest other ops
    ⟨hub, if room = other then s.logged ++ fresh else s.logged⟩
  | .compact other => { s with hub := s.hub.compact other }

def run (room : RoomId) (s : Stream σ) (events : List HubEvent) : Stream σ :=
  events.foldl (step room) s

def Holds (server : ClientId) (content : σ) (room : RoomId) (s : Stream σ) : Prop :=
  Room.Holds server content s.logged (s.hub.room room)

variable {server : ClientId} {content : σ} {room : RoomId} {s : Stream σ}

theorem holds_new (server : ClientId) (content : σ) (threshold : Nat) (room : RoomId) :
    (new server content threshold).Holds server content room :=
  Room.holds_new server content

theorem Holds.step (h : s.Holds server content room) (event : HubEvent) :
    (s.step room event).Holds server content room := by
  cases event with
  | ingest other ops =>
    have hRoom : Room.Holds server content
        (if room = other then s.logged ++ (s.hub.ingest other ops).1 else s.logged)
        (if room = other then (s.hub.ingest other ops).1.foldl Room.commit (s.hub.room other)
          else s.hub.room room) := by
      split
      · next hEq => exact (hEq ▸ h : Room.Holds _ _ _ (s.hub.room other)).foldl_commit _
      · exact h
    change Room.Holds server content _ ((s.hub.ingest other ops).2.room room)
    obtain hSame | hCompact := s.hub.room_ingest other room ops
    · rw [hSame]
      exact hRoom
    · rw [hCompact]
      exact hRoom.compact
  | compact other =>
    change Room.Holds server content _ ((s.hub.compact other).room room)
    obtain hSame | hCompact := s.hub.room_compact other room
    · rw [hSame]
      exact h
    · rw [hCompact]
      exact Room.Holds.compact h

theorem Holds.run (h : s.Holds server content room) (events : List HubEvent) :
    (s.run room events).Holds server content room := by
  induction events generalizing s with
  | nil => exact h
  | cons event events ih => exact ih (h.step event)

/-- The ops of a stream are only ever added to. -/
theorem logged_step (s : Stream σ) (event : HubEvent) : s.logged <+: (s.step room event).logged := by
  cases event with
  | ingest other ops =>
    change s.logged <+: if room = other then _ else s.logged
    split
    · exact List.prefix_append ..
    · exact List.prefix_rfl
  | compact other => exact List.prefix_rfl

end Stream

theorem merged_folded [Folds σ] (a b : ClientId) (content : σ) (logged : List Op) :
    (Room.folded a content logged).merged = (Room.folded b content logged).merged := by
  have hNew : (Document.new a content).merged = (Document.new b content).merged := rfl
  exact Document.merged_foldl_apply_congr hNew logged

section Subscriber

variable [IdBytes] {logged later : List Op} {c : CrdtSync.Room Content}

/-- The merged state as its bytes have it. -/
def written (d : Document Content) : Merged Content := (Document.decoded d.toDocState.bytes).merged

theorem written_congr {d d' : Document Content} (h : d'.merged = d.merged) : written d' = written d := by
  rw [Document.eq_heldBy h]
  rfl

/-- What a catch-up carries, told from the ops the room had logged by some later time. -/
def Catchup.Serves (logged : List Op) (cursor : Nat) : Catchup Content → Prop
  | .ops delta => ∃ before after, before.length = cursor ∧ logged = before ++ delta ++ after
  | .snapshot seq state _ => ∃ before after, before.length = seq ∧ cursor ≤ seq ∧
      logged = before ++ after ∧
      ∀ client, (Document.decoded state).merged = (Room.folded client Content.new before).merged

theorem Catchup.Serves.mono {cursor : Nat} {answer : Catchup Content} (h : answer.Serves logged cursor)
    (hLater : logged <+: later) : answer.Serves later cursor := by
  obtain ⟨rest, rfl⟩ := hLater
  cases answer with
  | ops delta =>
    obtain ⟨before, after, hLength, rfl⟩ := h
    exact ⟨before, after ++ rest, hLength, by simp⟩
  | snapshot seq state history =>
    obtain ⟨before, after, hLength, hCursor, rfl, hState⟩ := h
    exact ⟨before, after ++ rest, hLength, hCursor, by simp, hState⟩

/-- The subscriber goes on as a replica of the first ops of the stream, up to its position. -/
structure Follows (logged : List Op) (c : CrdtSync.Room Content) : Prop where
  seen : c.lastSeenSeq ≤ logged.length
  doc : ∀ (client : ClientId) (ops : List Op), written (ops.foldl Document.apply c.doc) =
    written (ops.foldl Document.apply (Room.folded client Content.new (logged.take c.lastSeenSeq)))

theorem Follows.mono (h : Follows logged c) (hLater : logged <+: later) : Follows later c where
  seen := h.seen.trans hLater.length_le
  doc := by
    obtain ⟨rest, rfl⟩ := hLater
    rw [List.take_append_of_le_length h.seen]
    exact h.doc

theorem follows_of_merged {server : ClientId} (hSeen : c.lastSeenSeq ≤ logged.length)
    (hDoc : c.doc.merged = (Room.folded server Content.new (logged.take c.lastSeenSeq)).merged) :
    Follows logged c where
  seen := hSeen
  doc _ ops := written_congr
    (Document.merged_foldl_apply_congr (hDoc.trans (merged_folded ..)) ops)

namespace Stream

variable {server : ClientId} {room : RoomId} {s : Stream Content}

theorem Holds.seq (h : s.Holds server Content.new room) : s.hub.seq room = s.logged.length :=
  Room.Holds.head h

theorem Holds.folded (h : s.Holds server Content.new room) : (s.hub.room room).doc.Folded := by
  rw [Room.Holds.doc h]
  exact (Document.folded_new server).foldl_apply s.logged

/-- A catch-up carries what lies between the cursor and the head, and one that is taken leaves the
subscriber at the head. -/
theorem Holds.answer (h : s.Holds server Content.new room) (hCursor : c.lastSeenSeq ≤ s.logged.length) :
    (s.hub.catchUp room c.lastSeenSeq).Serves s.logged c.lastSeenSeq ∧
      (s.hub.catchUp room c.lastSeenSeq).positions c.lastSeenSeq =
        List.range' (c.lastSeenSeq + 1) (s.logged.length - c.lastSeenSeq) ∧
      ∀ c', c.receive (s.hub.catchUp room c.lastSeenSeq).frame = .ok c' →
        c'.lastSeenSeq = s.logged.length := by
  have hSplit := List.take_append_drop c.lastSeenSeq s.logged
  have hTaken : (s.logged.take c.lastSeenSeq).length = c.lastSeenSeq := List.length_take_of_le hCursor
  rw [s.hub.catchUp_eq]
  obtain hDelta | hSnapshot := Room.Holds.catchUp h c.lastSeenSeq
  · rw [hDelta]
    refine ⟨⟨_, [], hTaken, by rw [List.append_nil, hSplit]⟩, ?_, fun c' hReceive => ?_⟩
    · rw [Catchup.positions, List.length_drop]
    · cases hReceive
      change c.lastSeenSeq + (s.logged.drop c.lastSeenSeq).length = _
      rw [List.length_drop]
      omega
  · rw [hSnapshot]
    refine ⟨⟨s.logged, [], rfl, hCursor, by simp, fun client => ?_⟩, rfl, fun c' hReceive => ?_⟩
    · rw [Document.merged_decoded, Room.Holds.doc h]
      exact merged_folded ..
    · rw [Catchup.frame] at hReceive
      cases hState : (s.hub.room room).doc.toDocState.reread with
      | none =>
        rw [hState] at hReceive
        cases hReceive
      | some state =>
        rw [hState] at hReceive
        cases hReceive
        rfl

theorem Holds.catchUp_cases (h : s.Holds server Content.new room) (cursor : Nat) :
    ¬cursor < (s.hub.room room).baseSeq ∧
        s.hub.catchUp room cursor = .ops (s.logged.drop cursor) ∨
      cursor < (s.hub.room room).baseSeq ∧ ∃ history, s.hub.catchUp room cursor =
        .snapshot s.logged.length (s.hub.room room).doc.toDocState history := by
  rw [s.hub.catchUp_eq]
  obtain hDelta | hSnapshot := Room.Holds.catchUp h cursor
  · refine .inl ⟨fun hBelow => ?_, hDelta⟩
    rw [Room.catchUp, if_pos hBelow] at hDelta
    cases hDelta
  · refine .inr ⟨?_, _, hSnapshot⟩
    by_contra hAbove
    rw [Room.catchUp, if_neg hAbove] at hSnapshot
    cases hSnapshot

/-- One catch-up leaves the subscriber going on as the room does, where a snapshot it is answered
with stands for the room. -/
theorem Holds.catchUp (h : s.Holds server Content.new room) (hFollows : Follows s.logged c)
    (hStands : c.lastSeenSeq < (s.hub.room room).baseSeq → (s.hub.room room).doc.toDocState.Stands) :
    ∃ c', c.receive (s.hub.catchUp room c.lastSeenSeq).frame = .ok c' ∧ Follows s.logged c' ∧
      c'.lastSeenSeq = s.logged.length := by
  have hAnswer := (h.answer hFollows.seen).2.2
  obtain ⟨-, hDelta⟩ | ⟨hBelow, history, hSnapshot⟩ := h.catchUp_cases c.lastSeenSeq
  · rw [hDelta] at hAnswer ⊢
    have hSeen := hAnswer _ rfl
    refine ⟨_, rfl, ⟨hSeen.le, fun client ops => ?_⟩, hSeen⟩
    rw [hSeen, List.take_length]
    change written (ops.foldl Document.apply ((s.logged.drop c.lastSeenSeq).foldl Document.apply c.doc)) = _
    have hRoom : (s.logged.drop c.lastSeenSeq).foldl Document.apply
        (Room.folded client Content.new (s.logged.take c.lastSeenSeq)) =
          Room.folded client Content.new s.logged := by
      rw [Room.folded, ← List.foldl_append, List.take_append_drop]
      rfl
    have hWhole := hFollows.doc client (s.logged.drop c.lastSeenSeq ++ ops)
    rwa [List.foldl_append, List.foldl_append, hRoom] at hWhole
  · obtain ⟨d, hDecode, -, hGoesOn⟩ := h.folded.goes_on (hStands hBelow)
    rw [hSnapshot] at hAnswer ⊢
    have hFrame : (Catchup.snapshot s.logged.length (s.hub.room room).doc.toDocState history).frame =
        .snapshot s.logged.length (some d.toDocState) := by
      rw [Catchup.frame, DocState.reread, hDecode]
      rfl
    rw [hFrame] at hAnswer ⊢
    have hSeen := hAnswer _ rfl
    refine ⟨_, rfl, ⟨hSeen.le, fun client ops => ?_⟩, hSeen⟩
    rw [hSeen, List.take_length]
    have hAdopted : ((Document.decoded d.toDocState).adoptAs c.doc.client c.doc.nextSeq).merged =
        d.merged := rfl
    calc written (ops.foldl Document.apply
          ((Document.decoded d.toDocState).adoptAs c.doc.client c.doc.nextSeq))
      _ = written (ops.foldl Document.apply d) :=
        written_congr (Document.merged_foldl_apply_congr hAdopted ops)
      _ = written (ops.foldl Document.apply (s.hub.room room).doc) :=
        congrArg (fun s => (Document.decoded s).merged) (hGoesOn ops)
      _ = written (ops.foldl Document.apply (Room.folded client Content.new s.logged)) := by
        rw [Room.Holds.doc h]
        exact written_congr (Document.merged_foldl_apply_congr (merged_folded ..) ops)

/-- The subscriber is landed just where a snapshot it is answered with is read back as bytes that
say the same. -/
theorem Holds.lands_iff (h : s.Holds server Content.new room) (hSeen : c.lastSeenSeq ≤ s.logged.length)
    (hDoc : c.doc.merged = (Room.folded server Content.new (s.logged.take c.lastSeenSeq)).merged) :
    (∃ c', c.receive (s.hub.catchUp room c.lastSeenSeq).frame = .ok c' ∧
        c'.lastSeenSeq = s.hub.seq room ∧ written c'.doc = written (s.hub.room room).doc) ↔
      (c.lastSeenSeq < (s.hub.room room).baseSeq → (s.hub.room room).doc.toDocState.ReadsBack) := by
  have hFolded := h.folded
  have hAnswer := (h.answer hSeen).2.2
  obtain ⟨hAbove, hDelta⟩ | ⟨hBelow, history, hSnapshot⟩ := h.catchUp_cases c.lastSeenSeq
  · refine iff_of_true ?_ fun hBelow => absurd hBelow hAbove
    rw [hDelta] at hAnswer ⊢
    refine ⟨_, rfl, (hAnswer _ rfl).trans h.seq.symm, ?_⟩
    change written ((s.logged.drop c.lastSeenSeq).foldl Document.apply c.doc) = _
    refine written_congr ?_
    rw [Document.merged_foldl_apply_congr hDoc, Room.folded, ← List.foldl_append,
      List.take_append_drop, Room.Holds.doc h]
    rfl
  · rw [hSnapshot, Catchup.frame] at hAnswer ⊢
    constructor
    · rintro ⟨c', hReceive, -, hWritten⟩ -
      cases hReread : (s.hub.room room).doc.toDocState.reread with
      | none =>
        rw [hReread] at hReceive
        cases hReceive
      | some state =>
        rw [hReread] at hReceive
        cases hReceive
        obtain ⟨d, hDecode, rfl⟩ := Option.map_eq_some_iff.mp hReread
        have hSeen := congrArg Merged.seen hWritten
        have hContent := congrArg Merged.content hWritten
        obtain ⟨hBack, hWaits⟩ := hFolded.sound.of_decodeState hFolded.noted hDecode hSeen
        exact ⟨d.content, hBack, hContent, hWaits⟩
    · intro hBack
      obtain ⟨state, hReread, hBytes⟩ := hFolded.readsBack_iff.mpr (hBack hBelow)
      rw [hReread] at hAnswer ⊢
      refine ⟨_, rfl, (hAnswer _ rfl).trans h.seq.symm, ?_⟩
      have hAdopted : ((Document.decoded state).adoptAs c.doc.client c.doc.nextSeq).merged =
          (Document.decoded state).merged := rfl
      exact (written_congr hAdopted).trans (congrArg (fun s => (Document.decoded s).merged) hBytes)

end Stream

namespace Subscription

variable {server : ClientId} {room : RoomId} {t : Subscription Content}

def new (server : ClientId) (compactionThreshold : Nat) (client : ClientId) : Subscription Content :=
  ⟨Stream.new server Content.new compactionThreshold,
    CrdtSync.Room.subscribe client Content.new, []⟩

/-- A catch-up asks from where the subscriber's last one left it. One that is refused leaves the
subscriber as it is. -/
def step (room : RoomId) (t : Subscription Content) : SubscriptionEvent → Subscription Content
  | .hub event => { t with stream := t.stream.step room event }
  | .catchUp =>
    let cursor := t.subscriber.resume
    let answer := t.stream.hub.catchUp room cursor
    match t.subscriber.receive answer.frame with
    | .ok subscriber => { t with subscriber, served := t.served ++ [(cursor, answer)] }
    | .error _ => t

def run (room : RoomId) (t : Subscription Content) (events : List SubscriptionEvent) :
    Subscription Content :=
  events.foldl (step room) t

/-- A snapshot that would be served now stands for the room. -/
def Stands (room : RoomId) (t : Subscription Content) : Prop :=
  t.subscriber.lastSeenSeq < (t.stream.hub.room room).baseSeq →
    (t.stream.hub.room room).doc.toDocState.Stands

/-- Every snapshot served on the way stands for the room it is cut from. -/
def AllStand (room : RoomId) (t : Subscription Content) : List SubscriptionEvent → Prop
  | [] => True
  | .hub event :: events => (t.step room (.hub event)).AllStand room events
  | .catchUp :: events => t.Stands room ∧ (t.step room .catchUp).AllStand room events

/-- The catch-ups that were taken each carried the positions from their cursor on, and together
they carried every position once. -/
structure Caught (server : ClientId) (room : RoomId) (t : Subscription Content) : Prop where
  stream : t.stream.Holds server Content.new room
  seen : t.subscriber.lastSeenSeq ≤ t.stream.logged.length
  positions : (t.served.flatMap fun answer => answer.2.positions answer.1) =
    List.range' 1 t.subscriber.lastSeenSeq
  serves : ∀ answer ∈ t.served, answer.2.Serves t.stream.logged answer.1

theorem caught_new (server : ClientId) (threshold : Nat) (client : ClientId) (room : RoomId) :
    (new server threshold client).Caught server room where
  stream := Stream.holds_new server Content.new threshold room
  seen := le_rfl
  positions := rfl
  serves := by simp [new]

theorem step_of_receive {c : CrdtSync.Room Content}
    (hReceive : t.subscriber.receive
      (t.stream.hub.catchUp room t.subscriber.lastSeenSeq).frame = .ok c) :
    t.step room .catchUp = { t with
      subscriber := c
      served := t.served ++
        [(t.subscriber.lastSeenSeq, t.stream.hub.catchUp room t.subscriber.lastSeenSeq)] } := by
  simp only [step, CrdtSync.Room.resume, hReceive]

theorem Caught.step (h : t.Caught server room) (event : SubscriptionEvent) :
    (t.step room event).Caught server room := by
  cases event with
  | hub event =>
    have hLater : t.stream.logged <+: (t.stream.step room event).logged := t.stream.logged_step event
    exact ⟨h.stream.step event, h.seen.trans hLater.length_le, h.positions,
      fun answer hAnswer => (h.serves answer hAnswer).mono hLater⟩
  | catchUp =>
    obtain ⟨hServes, hPositions, hLands⟩ := h.stream.answer h.seen
    cases hReceive : t.subscriber.receive
        (t.stream.hub.catchUp room t.subscriber.lastSeenSeq).frame with
    | error e =>
      have hSame : t.step room .catchUp = t := by
        simp only [Subscription.step, CrdtSync.Room.resume, hReceive]
      rwa [hSame]
    | ok c =>
      have hSeen := hLands c hReceive
      rw [step_of_receive hReceive]
      refine ⟨h.stream, hSeen.le, ?_, fun answer hAnswer => ?_⟩
      · have hBefore := h.seen
        rw [List.flatMap_append, List.flatMap_singleton, h.positions, hPositions, hSeen, Nat.add_comm,
          List.range'_append_1]
        congr 1
        omega
      · obtain hOld | hNew := List.mem_append.mp hAnswer
        · exact h.serves answer hOld
        · rw [List.mem_singleton.mp hNew]
          exact hServes

theorem Caught.run (h : t.Caught server room) (events : List SubscriptionEvent) :
    (t.run room events).Caught server room := by
  induction events generalizing t with
  | nil => exact h
  | cons event events ih => exact ih (h.step event)

theorem Caught.lands (h : t.Caught server room) (hFollows : Follows t.stream.logged t.subscriber)
    (hStands : t.Stands room) :
    Follows (t.step room .catchUp).stream.logged (t.step room .catchUp).subscriber ∧
      (t.step room .catchUp).subscriber.lastSeenSeq = t.stream.logged.length ∧
      written (t.step room .catchUp).subscriber.doc = written (t.stream.hub.room room).doc := by
  obtain ⟨c, hReceive, hLater, hSeen⟩ := h.stream.catchUp hFollows hStands
  rw [step_of_receive hReceive]
  refine ⟨hLater, hSeen, ?_⟩
  have hDoc := hLater.doc server []
  rw [hSeen, List.take_length] at hDoc
  rw [Room.Holds.doc h.stream]
  exact hDoc

theorem follows_run {events : List SubscriptionEvent} (h : t.Caught server room)
    (hFollows : Follows t.stream.logged t.subscriber) (hStand : t.AllStand room events) :
    Follows (t.run room events).stream.logged (t.run room events).subscriber := by
  induction events generalizing t with
  | nil => exact hFollows
  | cons event events ih =>
    cases event with
    | hub event => exact ih (h.step _) (hFollows.mono (t.stream.logged_step event)) hStand
    | catchUp => exact ih (h.step _) (h.lands hFollows hStand.1).1 hStand.2

end Subscription

/-- Whatever a hub has ingested and compacted: a subscriber that holds the first ops of a room
is landed at the room by one catch-up just where a snapshot it is answered with is read back as
bytes that say the same. One that catches up again and again is served every position
once, none skipped and none twice, and where every snapshot on the way stands for the room, it is
landed at the room each time. -/
theorem catch_up_lands_at_the_room (server : ClientId) (threshold : Nat) (room : RoomId) :
    (∀ (events : List HubEvent) (c : CrdtSync.Room Content),
      let s := (Stream.new server Content.new threshold).run room events
      c.lastSeenSeq ≤ s.logged.length →
      c.doc.merged = (Room.folded server Content.new (s.logged.take c.lastSeenSeq)).merged →
      ((∃ c', c.receive (s.hub.catchUp room c.lastSeenSeq).frame = .ok c' ∧
          c'.lastSeenSeq = s.hub.seq room ∧ written c'.doc = written (s.hub.room room).doc) ↔
        (c.lastSeenSeq < (s.hub.room room).baseSeq → (s.hub.room room).doc.toDocState.ReadsBack))) ∧
    ∀ (client : ClientId) (turns : List SubscriptionEvent),
      let t := (Subscription.new server threshold client).run room turns
      (t.served.flatMap fun answer => answer.2.positions answer.1) =
          List.range' 1 t.subscriber.lastSeenSeq ∧
        (∀ answer ∈ t.served, answer.2.Serves t.stream.logged answer.1) ∧
        ((Subscription.new server threshold client).AllStand room turns → t.Stands room →
          (t.step room .catchUp).subscriber.lastSeenSeq = t.stream.hub.seq room ∧
            written (t.step room .catchUp).subscriber.doc = written (t.stream.hub.room room).doc) := by
  constructor
  · intro events c s hSeen hDoc
    have hStream := (Stream.holds_new server Content.new threshold room).run events
    exact Stream.Holds.lands_iff hStream hSeen hDoc
  · intro client turns t
    have hCaught := (Subscription.caught_new server threshold client room).run turns
    refine ⟨hCaught.positions, hCaught.serves, fun hStand hStands => ?_⟩
    have hFollows := Subscription.follows_run (Subscription.caught_new server threshold client room)
      (@follows_of_merged _ [] _ server le_rfl rfl) hStand
    obtain ⟨-, hSeen, hWritten⟩ := hCaught.lands hFollows hStands
    exact ⟨hSeen.trans hCaught.stream.seq.symm, hWritten⟩

end Subscriber

section Witness

local instance resumeIdBytes : IdBytes := IdBytes.spelled

/-- The `seq`th op of a client, setting a root slot. -/
def rootWrite (seq : Nat) : Op :=
  ⟨⟨⟨1⟩, seq⟩, ⟨seq + 1, ⟨1⟩, 0⟩, ROOT_ID, .mapSet [97] (.int 1), none, none⟩

/-- Two ops logged, folded into a snapshot and followed by a third. -/
def compactedRoom : List HubEvent :=
  [.ingest [114] [rootWrite 0, rootWrite 1], .compact [114], .ingest [114] [rootWrite 2]]

/-- A subscriber that has folded the first op: what it misses is compacted away. -/
def lateSubscriber : CrdtSync.Room Content :=
  ⟨Room.folded ⟨5⟩ Content.new [rootWrite 0], 1, [], []⟩

theorem catch_up_lands_at_the_room_compacted :
    (let s := (Stream.new ⟨9⟩ Content.new 0).run [114] compactedRoom
      ∃ c', lateSubscriber.receive (s.hub.catchUp [114] lateSubscriber.lastSeenSeq).frame = .ok c' ∧
        c'.lastSeenSeq = s.hub.seq [114] ∧ written c'.doc = written (s.hub.room [114]).doc) ∧
      let t := (Subscription.new ⟨9⟩ 0 ⟨5⟩).run [114] (compactedRoom.map .hub)
      (t.step [114] .catchUp).subscriber.lastSeenSeq = 3 := by
  have hLogged : ((Stream.new ⟨9⟩ Content.new 0).run [114] compactedRoom).logged =
      [rootWrite 0, rootWrite 1, rootWrite 2] := by decide +kernel
  have hLands := (catch_up_lands_at_the_room ⟨9⟩ 0 [114]).1 compactedRoom lateSubscriber
  dsimp only at hLands ⊢
  rw [hLogged] at hLands
  constructor
  · refine (hLands (by decide) (merged_folded ..)).mpr fun _ => ?_
    decide +kernel
  · have hRun := (catch_up_lands_at_the_room ⟨9⟩ 0 [114]).2 ⟨5⟩ (compactedRoom.map .hub)
    refine (hRun.2.2 trivial fun _ => ⟨⟨_, ?_, .refl _⟩, ?_⟩).1.trans ?_
    · decide +kernel
    · decide +kernel
    · decide +kernel

/-- Moves whose log closes a cycle are folded into a snapshot. -/
def crossedRoom : List HubEvent := [.ingest [114] Document.crossedOps, .compact [114]]

/-- A fresh subscriber to that room is answered with a snapshot it refuses. -/
theorem crossed_room_not_caught_up :
    ¬∀ (events : List HubEvent) (c : CrdtSync.Room Content),
      let s := (Stream.new ⟨9⟩ Content.new 0).run [114] events
      c.lastSeenSeq ≤ s.logged.length →
      c.doc.merged = (Room.folded ⟨9⟩ Content.new (s.logged.take c.lastSeenSeq)).merged →
      ∃ c', c.receive (s.hub.catchUp [114] c.lastSeenSeq).frame = .ok c' := by
  intro hAll
  obtain ⟨c', hReceive⟩ := hAll crossedRoom (CrdtSync.Room.subscribe ⟨5⟩ Content.new) (Nat.zero_le _) rfl
  have hRefused : ((CrdtSync.Room.subscribe ⟨5⟩ Content.new).receive
      (((Stream.new ⟨9⟩ Content.new 0).run [114] crossedRoom).hub.catchUp [114] 0).frame).toOption.isSome =
        false := by decide +kernel
  change CrdtSync.Room.receive _ (((Stream.new ⟨9⟩ Content.new 0).run [114] crossedRoom).hub.catchUp
    [114] 0).frame = .ok c' at hReceive
  rw [hReceive] at hRefused
  cases hRefused

end Witness

end Server

end CrdtSync
