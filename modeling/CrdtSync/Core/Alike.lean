import CrdtSync.Core.Restored
import CrdtSync.Core.Traced

/-!
# What no fold reads

Whether a handle is flagged away, whether it owns its halves and in which order the
placements of a node came in: contents that differ in these alone answer every op alike, and
go on differing in these alone.
-/

namespace CrdtSync

open Lib
open Std (ExtTreeMap)

def LwwMap.clear (m : LwwMap) : LwwMap := { m with displaced := false }

def FugueList.clear {V : Type} (l : FugueList V) : FugueList V := { l with displaced := false }

def Counter.clear (n : Counter) : Counter := { n with displaced := false }

/-! ### What a flag does not touch -/

section Maps

variable {m m' : LwwMap}

theorem LwwMap.slots_clear (h : m'.clear = m.clear) : m'.slots = m.slots := by
  have hSlots := congrArg LwwMap.slots h
  exact hSlots

theorem LwwMap.get_clear (h : m'.clear = m.clear) (key : Bytes) : m'.get key = m.get key := by
  rw [get, get, slots_clear h]

theorem LwwMap.set_clear (h : m'.clear = m.clear) (key : Bytes) (value : Element) (stamp : Stamp) :
    (m'.set key value stamp).1.clear = (m.set key value stamp).1.clear ∧
      (m'.set key value stamp).2 = (m.set key value stamp).2 := by
  have hSet : ∀ m : LwwMap, (m.clear.set key value stamp).1 = (m.set key value stamp).1.clear ∧
      (m.clear.set key value stamp).2 = (m.set key value stamp).2 := by
    intro m
    unfold LwwMap.set LwwMap.clear
    dsimp only
    split
    · exact ⟨rfl, rfl⟩
    · split
      · exact ⟨rfl, rfl⟩
      · split <;> exact ⟨rfl, rfl⟩
  rw [← (hSet m').1, ← (hSet m').2, h]
  exact hSet m

theorem LwwMap.delete_clear (h : m'.clear = m.clear) (key : Bytes) (stamp : Stamp) :
    (m'.delete key stamp).1.clear = (m.delete key stamp).1.clear ∧
      (m'.delete key stamp).2 = (m.delete key stamp).2 := by
  have hDelete : ∀ m : LwwMap, (m.clear.delete key stamp).1 = (m.delete key stamp).1.clear ∧
      (m.clear.delete key stamp).2 = (m.delete key stamp).2 := by
    intro m
    unfold LwwMap.delete LwwMap.clear
    dsimp only
    split
    · exact ⟨rfl, rfl⟩
    · split <;> exact ⟨rfl, rfl⟩
  rw [← (hDelete m').1, ← (hDelete m').2, h]
  exact hDelete m

theorem LwwMap.setRegister_clear (h : m'.clear = m.clear) (key : Bytes) (value : Scalar)
    (stamp : Stamp) :
    (m'.setRegister key value stamp).1.clear = (m.setRegister key value stamp).1.clear ∧
      (m'.setRegister key value stamp).2 = (m.setRegister key value stamp).2 := by
  have hId := congrArg LwwMap.id h
  change m'.id = m.id at hId
  unfold LwwMap.setRegister
  rw [LwwMap.slots_clear h, hId]
  split
  · refine ⟨?_, rfl⟩
    simp only [LwwMap.clear]
  · exact LwwMap.set_clear h key _ stamp

end Maps

namespace FugueList

open Runs

variable {V : Type} {f g : FugueList V → FugueList V}

/-- A change that neither reads nor writes the flag. -/
def Clears (f : FugueList V → FugueList V) : Prop := ∀ l, f l.clear = (f l).clear

theorem Clears.congr (h : Clears f) {l l' : FugueList V} (hSame : l'.clear = l.clear) :
    (f l').clear = (f l).clear := by
  rw [← h l', ← h l, hSame]

theorem clears_deleteId (id : Stamp) : Clears fun l : FugueList V => l.deleteId id := by
  intro l
  unfold deleteId clear
  dsimp only
  split <;> rfl

theorem clears_setMovedAway (id : Stamp) (away : Bool) :
    Clears fun l : FugueList V => l.setMovedAway id away := by
  intro l
  unfold setMovedAway clear
  dsimp only
  split <;> rfl

theorem setMovedAway_comm (l : FugueList V) {id id' : Stamp} {away away' : Bool}
    (h : id' = id → away' = away) :
    (l.setMovedAway id' away').setMovedAway id away = (l.setMovedAway id away).setMovedAway id' away' := by
  have hModify : ∀ (l : FugueList V) (id : Stamp) (away : Bool), l.setMovedAway id away =
      { l with nodes := l.nodes.modify (seqKey id) fun n => { n with movedAway := away } } := by
    intro l id away
    unfold setMovedAway
    have hNodes : ∀ node, l.nodes[seqKey id]? = some node →
        l.nodes.insert (seqKey id) { node with movedAway := away } =
          l.nodes.modify (seqKey id) fun n => { n with movedAway := away } := by
      intro node hNode
      refine ExtTreeMap.ext_getElem? fun k => ?_
      rw [getElem?_insert_ite, ExtTreeMap.getElem?_modify]
      split
      next hKey =>
        rw [if_pos (Std.compare_eq_iff_eq.mpr hKey.symm), hNode]
        rfl
      next hKey => rw [if_neg fun hSame => hKey (Std.compare_eq_iff_eq.mp hSame).symm]
    have hNone : l.nodes[seqKey id]? = none →
        l.nodes.modify (seqKey id) (fun n => { n with movedAway := away }) = l.nodes := by
      intro hNode
      refine ExtTreeMap.ext_getElem? fun k => ?_
      rw [ExtTreeMap.getElem?_modify]
      split
      next hKey => rw [hNode, ← Std.compare_eq_iff_eq.mp hKey, hNode, Option.map_none]
      next => rfl
    split
    next node hNode => rw [hNodes node hNode]
    next hNode => rw [hNone hNode]
  simp only [hModify]
  congr 1
  refine modify_comm l.nodes fun hKey n => ?_
  have hSame : id' = id := by simpa using congrArg seqStamp hKey
  rw [h hSame]

theorem clears_seat (id : Stamp) (value : V) (anchor : Anchor) :
    Clears fun l : FugueList V => l.seat id value anchor := by
  intro l
  have hDead : takeDead l.clear.dead id = takeDead l.dead id := rfl
  simp only [seat, hDead]
  cases takeDead l.dead id with
  | none => rfl
  | some dead =>
    exact clears_deleteId id { l with nodes := l.nodes.insert (seqKey id) ⟨value, anchor, false⟩, dead }

variable [SeqValue V]

theorem clears_insertAt (id : Stamp) (value : V) (anchor : Anchor) :
    Clears fun l : FugueList V => l.insertAt id value anchor := by
  intro l
  have hSeated : l.clear.seated id = l.seated id := rfl
  simp only [insertAt, hSeated]
  cases l.seated id with
  | vacant => exact clears_seat id value anchor l
  | live seated =>
    dsimp only
    split
    · exact clears_seat id value anchor l
    · rfl
  | dead seated =>
    dsimp only
    split
    · exact clears_seat id value anchor l
    · rfl

theorem clears_reseat (id : Stamp) (value : V) (anchor : Anchor) :
    Clears fun l : FugueList V => l.reseat id value anchor := by
  intro l
  have hYields : l.clear.yieldsToSeated id = l.yieldsToSeated id := rfl
  simp only [reseat, hYields]
  split
  · rfl
  · exact clears_seat id value anchor l

theorem clears_rejoin (id : Stamp) (value : V) (anchor : Anchor) :
    Clears fun l : FugueList V => l.rejoin id value anchor := by
  intro l
  have hYields : l.clear.yieldsToSeated id = l.yieldsToSeated id := rfl
  have hAnchor : l.clear.anchorOf id = l.anchorOf id := rfl
  simp only [rejoin, hYields, hAnchor]
  split
  · rfl
  · exact clears_seat id value _ l

end FugueList

namespace Content

theorem clears_deleteIds (ids : List Stamp) : FugueList.Clears (deleteIds ids) := by
  intro l
  unfold deleteIds
  induction ids generalizing l with
  | nil => rfl
  | cons id ids ih =>
    have hDelete : l.clear.deleteId id = (l.deleteId id).clear := FugueList.clears_deleteId id l
    rw [List.foldl_cons, List.foldl_cons, hDelete, ih]

theorem clears_insertRun [IdBytes] (base : Stamp) (k : Nat) (s : List Char) (anchor : Anchor) :
    FugueList.Clears (insertRun base k s anchor) := by
  intro l
  induction s generalizing l k anchor with
  | nil => rfl
  | cons c s ih =>
    unfold insertRun
    dsimp only
    have hInsert : l.clear.insertAt (base.runMember k) (.scalar (.int c.toNat)) anchor =
        (l.insertAt (base.runMember k) (.scalar (.int c.toNat)) anchor).clear :=
      FugueList.clears_insertAt ..
    rw [hInsert, ih]

def seatBirth [IdBytes] (c : Content) (claim : Claim) (list child : ElementId) (stamp : Stamp)
    (element : Element) (anchor : Anchor) : Content :=
  let c := c.seatClaim claim list stamp element anchor
  let c := match claim with
    | .refused =>
      if c.placements.contains child then c
      else { c with revealedPending := insert child c.revealedPending }
    | .joined => c
    | .fresh | .evicted =>
      { c.pushPlacement child ⟨list, stamp⟩ with
        revealedPending := c.revealedPending.erase child }
  let c := match c.parents[list]? with
    | some owner => { c with moves := c.moves.setBase child owner }
    | none => c
  match claim with
  | .joined | .evicted => c.refoldMoves
  | .fresh | .refused => c

/-- The two contents differ in what no fold reads. -/
structure Alike (c c' : Content) : Prop where
  maps : EntriesAgree (fun m m' => m'.clear = m.clear) c.maps c'.maps
  lists : EntriesAgree (fun l l' => l'.clear = l.clear) c.lists c'.lists
  texts : EntriesAgree (fun t t' => t'.clear = t.clear) c.texts c'.texts
  counters : EntriesAgree (fun n n' => n'.clear = n.clear) c.counters c'.counters
  xmlElements : EntriesAgree (fun x x' => x'.tag = x.tag) c.xmlElements c'.xmlElements
  xmlFragments : EntriesAgree (fun _ _ => True) c.xmlFragments c'.xmlFragments
  parents : c'.parents = c.parents
  moves : c'.moves = c.moves
  placements : EntriesAgree List.Perm c.placements c'.placements
  placementIndex : c'.placementIndex = c.placementIndex
  revealedPending : c'.revealedPending = c.revealedPending
  ranged : c'.ranged = c.ranged
  acl : c'.acl = c.acl

namespace Alike

variable {c c' c'' : Content}

theorem refl (c : Content) : Alike c c where
  maps := .refl (R := fun m m' : LwwMap => m'.clear = m.clear) (fun _ => rfl) _
  lists := .refl (R := fun l l' : FugueList Element => l'.clear = l.clear) (fun _ => rfl) _
  texts := .refl (R := fun t t' : FugueList Element => t'.clear = t.clear) (fun _ => rfl) _
  counters := .refl (R := fun n n' : Counter => n'.clear = n.clear) (fun _ => rfl) _
  xmlElements := .refl (R := fun x x' : XmlElement => x'.tag = x.tag) (fun _ => rfl) _
  xmlFragments := .refl (fun _ => trivial) _
  parents := rfl
  moves := rfl
  placements := .refl List.Perm.refl _
  placementIndex := rfl
  revealedPending := rfl
  ranged := rfl
  acl := rfl

theorem symm (h : Alike c c') : Alike c' c where
  maps := h.maps.symm fun _ _ => Eq.symm
  lists := h.lists.symm fun _ _ => Eq.symm
  texts := h.texts.symm fun _ _ => Eq.symm
  counters := h.counters.symm fun _ _ => Eq.symm
  xmlElements := h.xmlElements.symm fun _ _ => Eq.symm
  xmlFragments := h.xmlFragments.symm fun _ _ => id
  parents := h.parents.symm
  moves := h.moves.symm
  placements := h.placements.symm fun _ _ => List.Perm.symm
  placementIndex := h.placementIndex.symm
  revealedPending := h.revealedPending.symm
  ranged := h.ranged.symm
  acl := h.acl.symm

theorem trans (h : Alike c c') (h' : Alike c' c'') : Alike c c'' where
  maps := h.maps.trans (fun _ _ _ h h' => h'.trans h) h'.maps
  lists := h.lists.trans (fun _ _ _ h h' => h'.trans h) h'.lists
  texts := h.texts.trans (fun _ _ _ h h' => h'.trans h) h'.texts
  counters := h.counters.trans (fun _ _ _ h h' => h'.trans h) h'.counters
  xmlElements := h.xmlElements.trans (fun _ _ _ h h' => h'.trans h) h'.xmlElements
  xmlFragments := h.xmlFragments.trans (fun _ _ _ _ h' => h') h'.xmlFragments
  parents := h'.parents.trans h.parents
  moves := h'.moves.trans h.moves
  placements := h.placements.trans (fun _ _ _ => List.Perm.trans) h'.placements
  placementIndex := h'.placementIndex.trans h.placementIndex
  revealedPending := h'.revealedPending.trans h.revealedPending
  ranged := h'.ranged.trans h.ranged
  acl := h'.acl.trans h.acl

/-! ### Flags and slots -/

theorem setMapDisplaced (c : Content) (id : ElementId) (away : Bool) :
    Alike c (c.setMapDisplaced id away) :=
  { refl c with maps := (refl c).maps.modify_right id fun _ _ h => h }

theorem setListDisplaced (c : Content) (id : ElementId) (away : Bool) :
    Alike c (c.setListDisplaced id away) :=
  { refl c with lists := (refl c).lists.modify_right id fun _ _ h => h }

/-- Flagging a handle is seen by no fold. -/
theorem setDisplaced (c : Content) (away : Bool) (e : Element) : Alike c (c.setDisplaced away e) := by
  unfold Content.setDisplaced
  split
  · exact setMapDisplaced c _ away
  · exact setListDisplaced c _ away
  · exact { refl c with texts := (refl c).texts.modify_right _ fun _ _ h => h }
  · exact { refl c with counters := (refl c).counters.modify_right _ fun _ _ h => h }
  · split
    · exact refl c
    next x hx =>
      have hFlagged : Alike c
          { c with xmlElements := c.xmlElements.insert _ { x with displaced := away } } :=
        { refl c with xmlElements := (refl c).xmlElements.insert_right hx rfl }
      dsimp only
      split
      · refine Alike.trans ?_ (setListDisplaced ..)
        split
        · exact hFlagged.trans (setMapDisplaced ..)
        · exact hFlagged
      · split
        · exact hFlagged.trans (setMapDisplaced ..)
        · exact hFlagged
  · split
    · exact refl c
    next f hf =>
      have hFlagged : Alike c
          { c with xmlFragments := c.xmlFragments.insert _ { f with displaced := away } } :=
        { refl c with xmlFragments := (refl c).xmlFragments.insert_right hf trivial }
      dsimp only
      split
      · exact hFlagged.trans (setListDisplaced ..)
      · exact hFlagged
  · exact refl c

theorem flagged (h : Alike c c') (away : Bool) (e : Element) :
    Alike (c.setDisplaced away e) (c'.setDisplaced away e) :=
  ((setDisplaced c away e).symm.trans h).trans (setDisplaced c' away e)

theorem putMap (h : Alike c c') (id : ElementId) {written written' : LwwMap × Option Element}
    (hMap : written'.1.clear = written.1.clear) (hOld : written'.2 = written.2) :
    Alike (c.putMap id written) (c'.putMap id written') := by
  have hPut : Alike { c with maps := c.maps.insert id written.1 }
      { c' with maps := c'.maps.insert id written'.1 } :=
    { h with maps := h.maps.insert id hMap }
  unfold Content.putMap
  rw [hOld]
  cases written.2 with
  | none => exact hPut
  | some old => exact hPut.flagged true old

theorem shows (h : Alike c c') (map : ElementId) (key : Bytes) (element : Element) :
    c'.shows map key element = c.shows map key element := by
  unfold Content.shows
  obtain ⟨hNone, hNone'⟩ | ⟨m, m', hm, hm', hMap⟩ := h.maps.cases_at map
  · rw [hNone, hNone']
  · rw [hm, hm', Option.bind_some, Option.bind_some, LwwMap.get_clear hMap]

theorem installAt (h : Alike c c') (map : ElementId) {m m' : LwwMap} (hMap : m'.clear = m.clear)
    (key : Bytes) (element : Element) (stamp : Stamp) :
    Alike (c.installAt map m key element stamp) (c'.installAt map m' key element stamp) := by
  obtain ⟨hSet, hOld⟩ := LwwMap.set_clear hMap key element stamp
  have hPut := h.putMap map hSet hOld
  unfold Content.installAt
  dsimp only
  rw [hPut.shows]
  split
  · exact hPut.flagged false element
  · exact hPut.flagged true element

theorem onMap (h : Alike c c') (map : ElementId) {write : LwwMap → LwwMap × Option Element}
    (hWrite : ∀ m m' : LwwMap, m'.clear = m.clear →
      (write m').1.clear = (write m).1.clear ∧ (write m').2 = (write m).2) :
    Alike (c.onMap map write) (c'.onMap map write) := by
  unfold Content.onMap
  obtain ⟨hNone, hNone'⟩ | ⟨m, m', hm, hm', hMap⟩ := h.maps.cases_at map
  · rw [hNone, hNone']
    exact h
  · rw [hm, hm']
    exact h.putMap map (hWrite m m' hMap).1 (hWrite m m' hMap).2

/-! ### Containers -/

theorem link (h : Alike c c') (child parent : ElementId) :
    Alike (c.link child parent) (c'.link child parent) :=
  { h with
    parents := congrArg (fun parents : Parents => parents.insert child parent) h.parents
    moves := congrArg (fun m : TreeMoves => m.setBase child parent) h.moves }

theorem registerMap (h : Alike c c') (id : ElementId) : Alike (c.registerMap id) (c'.registerMap id) :=
  { h with maps := h.maps.insertIfNew id rfl }

theorem registerList (h : Alike c c') (id : ElementId) :
    Alike (c.registerList id) (c'.registerList id) :=
  { h with lists := h.lists.insertIfNew id rfl }

theorem register (h : Alike c c') (id : ElementId) (kind : Container) :
    Alike (c.register id kind) (c'.register id kind) := by
  cases kind with
  | map => exact h.registerMap id
  | list => exact h.registerList id
  | text => exact { h with texts := h.texts.insertIfNew id rfl }
  | xmlElement tag =>
    have hElement : ∀ x x' : XmlElement, x'.tag = x.tag →
        Alike { c with xmlElements := c.xmlElements.insertIfNew id x }
          { c' with xmlElements := c'.xmlElements.insertIfNew id x' } := fun x x' hTag =>
      { h with xmlElements := h.xmlElements.insertIfNew id hTag }
    have hFresh := hElement
      ⟨tag, false, !c.maps.contains (XmlElement.attrsId id), !c.lists.contains (XmlElement.childrenId id)⟩
      ⟨tag, false, !c'.maps.contains (XmlElement.attrsId id),
        !c'.lists.contains (XmlElement.childrenId id)⟩ rfl
    have hHalves := (hFresh.registerMap (XmlElement.attrsId id)).registerList (XmlElement.childrenId id)
    exact { hHalves with
      parents := congrArg (fun parents : Parents =>
        (parents.insert (XmlElement.attrsId id) id).insert (XmlElement.childrenId id) id) hHalves.parents
      moves := congrArg (fun m : TreeMoves =>
        (m.setBase (XmlElement.attrsId id) id).setBase (XmlElement.childrenId id) id) hHalves.moves }
  | xmlFragment =>
    have hFragment : ∀ f f' : XmlFragment,
        Alike { c with xmlFragments := c.xmlFragments.insertIfNew id f }
          { c' with xmlFragments := c'.xmlFragments.insertIfNew id f' } := fun f f' =>
      { h with xmlFragments := h.xmlFragments.insertIfNew id trivial }
    exact ((hFragment _ _).registerList (XmlElement.childrenId id)).link (XmlElement.childrenId id) id

theorem createContainer (h : Alike c c') (map : ElementId) (key : Bytes) (stamp : Stamp)
    (kind : Container) :
    Alike (c.createContainer map key stamp kind) (c'.createContainer map key stamp kind) := by
  unfold Content.createContainer
  rw [h.maps.contains_eq]
  split
  · exact h
  · have hRegistered := h.register (containerId map key kind) kind
    dsimp only
    obtain ⟨hNone, hNone'⟩ | ⟨m, m', hm, hm', hMap⟩ := hRegistered.maps.cases_at map
    · rw [hNone, hNone']
      exact hRegistered
    · rw [hm, hm']
      exact (hRegistered.installAt map hMap key _ stamp).link _ map

theorem installPayload (h : Alike c c') (ranged : ElementId) (kind : ElementKind) :
    Alike (c.installPayload ranged kind) (c'.installPayload ranged kind) := by
  unfold Content.installPayload
  dsimp only
  split
  · exact (h.register ..).link ..
  · exact (h.register ..).link ..
  · exact (h.register ..).link ..
  · exact h

theorem createRanged (h : Alike c c') (stamp : Stamp) (start stop : RangeAnchor) (payload : RangedInit)
    (name : Option Bytes) :
    Alike (c.createRanged stamp start stop payload name)
      (c'.createRanged stamp start stop payload name) := by
  have hStored : ∀ {c c' : Content} (stored : Payload), Alike c c' →
      Alike { c with ranged := c.ranged.insert (rangedId stamp) ⟨start, stop, stored, name, false⟩ }
        { c' with ranged := c'.ranged.insert (rangedId stamp) ⟨start, stop, stored, name, false⟩ } :=
    fun stored h => { h with ranged := congrArg (fun m : Registry RangedEntry => m.insert _ _) h.ranged }
  unfold Content.createRanged
  dsimp only
  rw [h.ranged]
  split
  · exact h
  · cases payload with
    | scalar value => exact h.ranged ▸ hStored _ h
    | composite kind =>
      have hInstalled := h.installPayload (rangedId stamp) kind
      exact hStored _ hInstalled

theorem applyCounter (h : Alike c c') (map : ElementId) (key : Bytes) (stamp : Stamp)
    (delta : Counter → Counter) (hDelta : ∀ n n' : Counter, n'.clear = n.clear →
      (delta n').clear = (delta n).clear) :
    Alike (c.applyCounter map key stamp delta) (c'.applyCounter map key stamp delta) := by
  unfold Content.applyCounter
  obtain ⟨hNone, hNone'⟩ | ⟨m, m', hm, hm', hMap⟩ := h.maps.cases_at map
  · rw [hNone, hNone']
    exact h
  · rw [hm, hm']
    dsimp only
    generalize ElementId.derive map key .counter = id
    have hCounter : (c'.counters[id]?.getD Counter.new).clear =
        (c.counters[id]?.getD Counter.new).clear := by
      obtain ⟨hNone, hNone'⟩ | ⟨n, n', hn, hn', hSame⟩ := h.counters.cases_at id
      · rw [hNone, hNone']
      · rw [hn, hn']
        exact hSame
    have hFolded : Alike
        { c with counters := c.counters.insert id (delta (c.counters[id]?.getD Counter.new)) }
        { c' with counters := c'.counters.insert id (delta (c'.counters[id]?.getD Counter.new)) } :=
      { h with counters := h.counters.insert id (hDelta _ _ hCounter) }
    exact hFolded.installAt map hMap key _ stamp

theorem inc_clear (author : ClientId) (amount : Nat) (n n' : Counter) (h : n'.clear = n.clear) :
    (n'.inc author amount).clear = (n.inc author amount).clear := by
  have hEntries := congrArg Counter.entries h
  change n'.entries = n.entries at hEntries
  simp only [Counter.clear, Counter.inc, hEntries]

theorem dec_clear (author : ClientId) (amount : Nat) (n n' : Counter) (h : n'.clear = n.clear) :
    (n'.dec author amount).clear = (n.dec author amount).clear := by
  have hEntries := congrArg Counter.entries h
  change n'.entries = n.entries at hEntries
  simp only [Counter.clear, Counter.dec, hEntries]

/-! ### Sequences and moves -/

theorem onText [IdBytes] (h : Alike c c') (id : ElementId) {f : FugueList Element → FugueList Element}
    (hf : FugueList.Clears f) : Alike (c.onText id f) (c'.onText id f) :=
  { h with texts := h.texts.modify id fun _ _ hSame => hf.congr hSame }

theorem onList [IdBytes] (h : Alike c c') (id : ElementId) {f : FugueList Element → FugueList Element}
    (hf : FugueList.Clears f) : Alike (c.onList id f) (c'.onList id f) :=
  { h with lists := h.lists.modify id fun _ _ hSame => hf.congr hSame }

theorem setAway (h : Alike c c') (p : Placement) (away : Bool) :
    Alike (c.setAway p away) (c'.setAway p away) :=
  { h with lists := h.lists.modify p.list fun _ _ hSame =>
      (FugueList.clears_setMovedAway p.stamp away).congr hSame }

theorem insertionSort_places [IdBytes] {places places' : List Placement} (h : places.Perm places') :
    (places'.insertionSort fun p q =>
      (toLex (IdBytes.asBytes p.list, p.stamp) : Bytes ×ₗ Stamp) ≤ toLex (IdBytes.asBytes q.list, q.stamp)) =
    places.insertionSort fun p q =>
      (toLex (IdBytes.asBytes p.list, p.stamp) : Bytes ×ₗ Stamp) ≤ toLex (IdBytes.asBytes q.list, q.stamp) := by
  refine List.Perm.eq_of_pairwise (fun p q _ _ hpq hqp => ?_) (List.pairwise_insertionSort _ _)
    (List.pairwise_insertionSort _ _)
    ((List.perm_insertionSort _ _).trans (h.symm.trans (List.perm_insertionSort _ _).symm))
  have hKey := toLex.injective (le_antisymm hpq hqp)
  obtain ⟨hList, hStamp⟩ := Prod.mk.injEq .. ▸ hKey
  obtain ⟨list, stamp⟩ := p
  obtain ⟨list', stamp'⟩ := q
  have hSame : list = list' := IdBytes.injective hList
  exact Placement.mk.injEq .. ▸ ⟨hSame, hStamp⟩

theorem isTombstonedNode (h : Alike c c') (p : Placement) :
    c'.isTombstonedNode p = c.isTombstonedNode p := by
  unfold Content.isTombstonedNode
  obtain ⟨hNone, hNone'⟩ | ⟨l, l', hl, hl', hList⟩ := h.lists.cases_at p.list
  · rw [hNone, hNone']
  · have hDead := congrArg FugueList.dead hList
    change l'.dead = l.dead at hDead
    rw [hl, hl', Option.any_some, Option.any_some, FugueList.isTombstoned, hDead]
    rfl

theorem livePlacement (h : Alike c c') (effList : ElementId) {places places' : List Placement}
    (hPlaces : places.Perm places') :
    c'.livePlacement effList places' = c.livePlacement effList places := by
  have hAny : places'.any c'.isTombstonedNode = places.any c.isTombstonedNode := by
    rw [funext h.isTombstonedNode]
    exact hPlaces.any_eq.symm
  unfold Content.livePlacement
  have hMax : ∀ {l l' : List Stamp}, l.Perm l' → l'.max? = l.max? := by
    intro l l' hPerm
    ext stamp
    simp only [List.max?_eq_some_iff, hPerm.mem_iff]
  rw [hAny, hMax ((hPlaces.filter _).map _)]

theorem effectiveList (h : Alike c c') (node : ElementId) :
    c'.effectiveList node = c.effectiveList node := by
  unfold Content.effectiveList
  rw [h.moves]

theorem setAway_comm (c : Content) {p q : Placement} {away away' : Bool}
    (h : p = q → away = away') :
    (c.setAway p away).setAway q away' = (c.setAway q away').setAway p away := by
  unfold Content.setAway
  have hLists : ∀ l : Registry (FugueList Element),
      (l.modify p.list fun l => l.setMovedAway p.stamp away).modify q.list
          (fun l => l.setMovedAway q.stamp away') =
        (l.modify q.list fun l => l.setMovedAway q.stamp away').modify p.list
          fun l => l.setMovedAway p.stamp away := by
    intro l
    refine modify_comm l fun hList l => FugueList.setMovedAway_comm l fun hStamp => ?_
    obtain ⟨list, stamp⟩ := p
    obtain ⟨list', stamp'⟩ := q
    dsimp only at hList hStamp
    rw [hList, hStamp] at h
    exact (h rfl).symm
  dsimp only
  rw [hLists]

/-- The placements of a node are suppressed and shown in any order. -/
theorem foldl_suppressions (h : Alike c c') {folded folded' : Content} (hFolded : Alike folded folded')
    (effList : ElementId) {places places' : List Placement} (hPlaces : places.Perm places') :
    Alike ((c.suppressions effList places).foldl (fun c (p, away) => c.setAway p away) folded)
      ((c'.suppressions effList places').foldl (fun c (p, away) => c.setAway p away) folded') := by
  unfold Content.suppressions
  rw [h.livePlacement effList hPlaces]
  let row (p : Placement) : Placement × Bool :=
    (p, !(p.list = effList && some p.stamp = c.livePlacement effList places))
  have hOrder : (places'.map row).foldl (fun c (p, away) => c.setAway p away) folded' =
      (places.map row).foldl (fun c (p, away) => c.setAway p away) folded' := by
    refine ((hPlaces.map row).foldl_eq' (fun x hx y hy folded => ?_) folded').symm
    obtain ⟨p, -, rfl⟩ := List.mem_map.mp hx
    obtain ⟨q, -, rfl⟩ := List.mem_map.mp hy
    exact setAway_comm folded fun hSame => congrArg (fun p => (row p).2) hSame
  change Alike ((places.map row).foldl _ folded) ((places'.map row).foldl _ folded')
  rw [hOrder]
  clear hOrder
  generalize places.map row = rows
  induction rows generalizing folded folded' with
  | nil => exact hFolded
  | cons row rows ih => exact ih (hFolded.setAway row.1 row.2)

theorem governed (h : Alike c c') :
    List.Forall₂ (fun row row' => row.1 = row'.1 ∧ row.2.1 = row'.2.1 ∧ row.2.2.Perm row'.2.2)
      c.governed c'.governed := by
  refine List.rel_filterMap (fun e e' hEntry => ?_) h.placements.toList
  obtain ⟨node, places⟩ := e
  obtain ⟨node', places'⟩ := e'
  obtain ⟨hNode, hPlaces⟩ := hEntry
  dsimp only at hNode hPlaces ⊢
  rw [hNode, h.effectiveList]
  cases c.effectiveList node' with
  | none => exact .none
  | some effList => exact .some ⟨rfl, rfl, hPlaces⟩

theorem refoldMoves (h : Alike c c') : Alike c.refoldMoves c'.refoldMoves := by
  have hFolded : Alike
      ((c.governed.flatMap fun row => c.suppressions row.2.1 row.2.2).foldl
        (fun c place => c.setAway place.1 place.2) c)
      ((c'.governed.flatMap fun row => c'.suppressions row.2.1 row.2.2).foldl
        (fun c place => c.setAway place.1 place.2) c') := by
    rw [List.foldl_flatMap, List.foldl_flatMap]
    refine List.rel_foldl (fun folded folded' hFolded row row' hRow => ?_) h h.governed
    obtain ⟨node, effList, places⟩ := row
    obtain ⟨node', effList', places'⟩ := row'
    obtain ⟨-, hList, hPlaces⟩ := hRow
    dsimp only at hList hPlaces ⊢
    rw [← hList]
    exact h.foldl_suppressions hFolded effList hPlaces
  have hParents : c'.governed.foldl (fun parents row => parents.insert row.1 row.2.1) c'.parents =
      c.governed.foldl (fun parents row => parents.insert row.1 row.2.1) c.parents := by
    refine (List.rel_foldl (fun parents parents' hSame row row' hRow => ?_) h.parents.symm
      h.governed : _ = _).symm
    obtain ⟨node, effList, places⟩ := row
    obtain ⟨node', effList', places'⟩ := row'
    obtain ⟨hNode, hList, -⟩ := hRow
    dsimp only at hNode hList ⊢
    rw [hSame, hNode, hList]
  exact { hFolded with parents := hParents }

theorem pushPlacement (h : Alike c c') (node : ElementId) (p : Placement) :
    Alike (c.pushPlacement node p) (c'.pushPlacement node p) := by
  have hPlaces : ((c.placements[node]?.getD []) ++ [p]).Perm
      ((c'.placements[node]?.getD []) ++ [p]) := by
    refine List.Perm.append_right _ ?_
    obtain ⟨hNone, hNone'⟩ | ⟨places, places', hp, hp', hSame⟩ := h.placements.cases_at node
    · rw [hNone, hNone']
    · rw [hp, hp']
      exact hSame
  exact { h with placements := h.placements.insert node hPlaces }

theorem seatClaim [IdBytes] (h : Alike c c') (claim : Claim) (list : ElementId) (stamp : Stamp)
    (element : Element) (anchor : Anchor) :
    Alike (c.seatClaim claim list stamp element anchor)
      (c'.seatClaim claim list stamp element anchor) := by
  cases claim with
  | fresh => exact h.onList list (FugueList.clears_insertAt stamp element anchor)
  | joined => exact h.onList list (FugueList.clears_rejoin stamp element anchor)
  | evicted => exact h.onList list (FugueList.clears_reseat stamp element anchor)
  | refused => exact h

/-- A node that keeps some placement keeps it, and one that loses its last awaits another. -/
theorem dropPlacement (h : Alike c c') (held : ElementId) {rest rest' : List Placement}
    (hRest : rest.Perm rest') :
    Alike
      (if !rest.isEmpty then { c with placements := c.placements.insert held rest }
      else
        { c with
          placements := c.placements.erase held
          revealedPending := insert held c.revealedPending
          parents := match c.moves.parentOf held with
            | some owner => c.parents.insert held (XmlElement.childrenId owner)
            | none => c.parents.erase held })
      (if !rest'.isEmpty then { c' with placements := c'.placements.insert held rest' }
      else
        { c' with
          placements := c'.placements.erase held
          revealedPending := insert held c'.revealedPending
          parents := match c'.moves.parentOf held with
            | some owner => c'.parents.insert held (XmlElement.childrenId owner)
            | none => c'.parents.erase held }) := by
  rw [← hRest.isEmpty_eq]
  split
  · exact { h with placements := h.placements.insert held hRest }
  · exact { h with
      placements := h.placements.erase held
      revealedPending := congrArg (insert held) h.revealedPending
      parents := by rw [h.moves, h.parents] }

theorem evictPlacement (h : Alike c c') (list : ElementId) (stamp : Stamp) (held : ElementId) :
    Alike (c.evictPlacement list stamp held) (c'.evictPlacement list stamp held) := by
  have hOwner : c'.parents[list]? = c.parents[list]? := by rw [h.parents]
  unfold Content.evictPlacement
  rw [hOwner]
  cases c.parents[list]? with
  | none =>
    dsimp only
    obtain ⟨hNone, hNone'⟩ | ⟨places, places', hp, hp', hPlaces⟩ := h.placements.cases_at held
    · rw [hNone, hNone']
      exact h
    · rw [hp, hp']
      exact h.dropPlacement held (hPlaces.filter _)
  | some owner =>
    have hWithdrawn : Alike { c with moves := c.moves.remove stamp held owner }
        { c' with moves := c'.moves.remove stamp held owner } :=
      { h with moves := congrArg (fun m : TreeMoves => m.remove stamp held owner) h.moves }
    dsimp only
    obtain ⟨hNone, hNone'⟩ | ⟨places, places', hp, hp', hPlaces⟩ := h.placements.cases_at held
    · rw [hNone, hNone']
      exact hWithdrawn
    · rw [hp, hp']
      exact hWithdrawn.dropPlacement held (hPlaces.filter _)

theorem claimPlacement [IdBytes] (h : Alike c c') (list : ElementId) (stamp : Stamp)
    (node : ElementId) :
    (c'.claimPlacement list stamp node).1 = (c.claimPlacement list stamp node).1 ∧
      Alike (c.claimPlacement list stamp node).2 (c'.claimPlacement list stamp node).2 := by
  have hIndex : ∀ {c c' : Content}, Alike c c' → Alike
      { c with placementIndex := c.placementIndex.insert (placementKey list stamp) node }
      { c' with placementIndex := c'.placementIndex.insert (placementKey list stamp) node } :=
    fun h => { h with
      placementIndex := congrArg (fun index : ExtTreeMap (ElementId ×ₗ Stamp) ElementId compare =>
        index.insert (placementKey list stamp) node) h.placementIndex }
  unfold Content.claimPlacement
  dsimp only
  rw [h.placementIndex]
  cases c.placementIndex[placementKey list stamp]? with
  | none => exact ⟨rfl, h.placementIndex ▸ hIndex h⟩
  | some held =>
    dsimp only
    split
    · exact ⟨rfl, h⟩
    · split
      · exact ⟨rfl, h⟩
      · exact ⟨rfl, hIndex (h.evictPlacement list stamp held)⟩

theorem seatBirth [IdBytes] (h : Alike c c') (claim : Claim) (list child : ElementId) (stamp : Stamp)
    (element : Element) (anchor : Anchor) :
    Alike (c.seatBirth claim list child stamp element anchor)
      (c'.seatBirth claim list child stamp element anchor) := by
  have hSeated := h.seatClaim claim list stamp element anchor
  have hPushed := hSeated.pushPlacement child ⟨list, stamp⟩
  have hPlaced : Alike
      { (c.seatClaim claim list stamp element anchor).pushPlacement child ⟨list, stamp⟩ with
        revealedPending := (c.seatClaim claim list stamp element anchor).revealedPending.erase child }
      { (c'.seatClaim claim list stamp element anchor).pushPlacement child ⟨list, stamp⟩ with
        revealedPending :=
          (c'.seatClaim claim list stamp element anchor).revealedPending.erase child } :=
    { hPushed with
      revealedPending := congrArg (fun s : Finset ElementId => s.erase child)
        hSeated.revealedPending }
  have hBased : ∀ {c c' : Content}, Alike c c' → Alike
      (match c.parents[list]? with
        | some owner => { c with moves := c.moves.setBase child owner }
        | none => c)
      (match c'.parents[list]? with
        | some owner => { c' with moves := c'.moves.setBase child owner }
        | none => c') := by
    intro c c' h
    have hOwner : c'.parents[list]? = c.parents[list]? := by rw [h.parents]
    rw [hOwner]
    cases c.parents[list]? with
    | none => exact h
    | some owner =>
      exact { h with moves := congrArg (fun m : TreeMoves => m.setBase child owner) h.moves }
  cases claim with
  | fresh => exact hBased hPlaced
  | evicted => exact (hBased hPlaced).refoldMoves
  | joined => exact (hBased hSeated).refoldMoves
  | refused =>
    refine hBased ?_
    dsimp only
    rw [hSeated.placements.contains_eq]
    split
    · exact hSeated
    · exact { hSeated with revealedPending := congrArg (insert child) hSeated.revealedPending }

theorem insertXmlChild [IdBytes] (h : Alike c c') (list : ElementId) (tag : Option Bytes)
    (anchor : Anchor) (stamp : Stamp) :
    Alike (c.insertXmlChild list tag anchor stamp) (c'.insertXmlChild list tag anchor stamp) := by
  have hBorn : ∀ child container element, Alike
      (let c := { c.register child container with
        parents := (c.register child container).parents.insert child list }
      (c.claimPlacement list stamp child).2.seatBirth (c.claimPlacement list stamp child).1 list child
        stamp element anchor)
      (let c := { c'.register child container with
        parents := (c'.register child container).parents.insert child list }
      (c.claimPlacement list stamp child).2.seatBirth (c.claimPlacement list stamp child).1 list child
        stamp element anchor) := by
    intro child container element
    have hRegistered := h.register child container
    have hLinked : Alike
        { c.register child container with
          parents := (c.register child container).parents.insert child list }
        { c'.register child container with
          parents := (c'.register child container).parents.insert child list } :=
      { hRegistered with
        parents := congrArg (fun parents : Parents => parents.insert child list) hRegistered.parents }
    obtain ⟨hClaim, hSettled⟩ := hLinked.claimPlacement list stamp child
    dsimp only
    rw [hClaim]
    exact hSettled.seatBirth _ list child stamp element anchor
  unfold Content.insertXmlChild
  rw [h.lists.contains_eq]
  split
  · exact h
  · cases tag with
    | none => exact hBorn _ _ _
    | some tag => exact hBorn _ _ _

theorem isMovable (h : Alike c c') (node : ElementId) : c'.isMovable node = c.isMovable node := by
  unfold Content.isMovable
  rw [h.placements.contains_eq, h.revealedPending]

theorem nodeElement (h : Alike c c') (node : ElementId) : c'.nodeElement node = c.nodeElement node := by
  unfold Content.nodeElement
  rw [h.xmlElements.contains_eq, h.texts.contains_eq]

theorem applyMove [IdBytes] (h : Alike c c') (dest node : ElementId) (anchor : Anchor) (stamp : Stamp) :
    Alike (c.applyMove dest node anchor stamp) (c'.applyMove dest node anchor stamp) := by
  have hMoved : ∀ {c c' : Content} (owner : ElementId), Alike c c' → Alike
      ({ c with
        moves := c.moves.apply stamp node owner
        revealedPending := c.revealedPending.erase node } : Content).refoldMoves
      ({ c' with
        moves := c'.moves.apply stamp node owner
        revealedPending := c'.revealedPending.erase node } : Content).refoldMoves :=
    fun owner h => refoldMoves { h with
      moves := congrArg (fun m : TreeMoves => m.apply stamp node owner) h.moves
      revealedPending := congrArg (fun s : Finset ElementId => s.erase node) h.revealedPending }
  have hOwner : c'.parents[dest]? = c.parents[dest]? := by rw [h.parents]
  unfold Content.applyMove
  rw [h.isMovable, h.lists.contains_eq, hOwner, h.nodeElement]
  split
  · exact h
  · split
    next owner element _ _ =>
      obtain ⟨hClaim, hSettled⟩ := h.claimPlacement dest stamp node
      generalize c.claimPlacement dest stamp node = settled at hClaim hSettled ⊢
      generalize c'.claimPlacement dest stamp node = settled' at hClaim hSettled ⊢
      obtain ⟨claim, d⟩ := settled
      obtain ⟨claim', d'⟩ := settled'
      dsimp only at hClaim hSettled ⊢
      subst hClaim
      have hSeated := hSettled.seatClaim claim' dest stamp element anchor
      have hPushed := hSeated.pushPlacement node ⟨dest, stamp⟩
      cases claim' with
      | refused => exact hSettled
      | joined => exact hMoved owner hSeated
      | fresh | evicted => exact hMoved owner hPushed
    next => exact h

theorem applyReveal (h : Alike c c') (node : ElementId) (tag : Option Bytes) :
    Alike (c.applyReveal node tag) (c'.applyReveal node tag) := by
  unfold Content.applyReveal
  rw [h.nodeElement]
  split
  · exact h
  · exact { h.register node _ with
      revealedPending := congrArg (insert node) (h.register node _).revealedPending }

theorem deleteFromList [IdBytes] (h : Alike c c') (list : ElementId) (id : Stamp) :
    Alike (c.deleteFromList list id) (c'.deleteFromList list id) := by
  have hDeleted := h.onList list (FugueList.clears_deleteId id)
  unfold Content.deleteFromList
  dsimp only
  rw [hDeleted.placementIndex]
  split
  · exact hDeleted.refoldMoves
  · exact hDeleted

/-! ### One mutation -/

theorem applyKind [IdBytes] (h : Alike c c') (target : ElementId) (kind : OpKind) (stamp : Stamp)
    (author : ClientId) :
    Alike (c.applyKind target kind stamp author) (c'.applyKind target kind stamp author) := by
  cases kind with
  | listInsert value anchor => exact h.onList target (FugueList.clears_insertAt stamp _ anchor)
  | listDelete id => exact h.deleteFromList target id
  | xmlInsertChild tag anchor => exact h.insertXmlChild target tag anchor stamp
  | xmlMove node anchor => exact h.applyMove target node anchor stamp
  | xmlReveal node tag => exact h.applyReveal node tag
  | rangedCreate start stop payload name => exact h.createRanged stamp start stop payload name
  | rangedSetPayload id value =>
    exact { h with ranged := congrArg (fun m : Registry RangedEntry => m.modify id _) h.ranged }
  | rangedDelete id =>
    exact { h with ranged := congrArg (fun m : Registry RangedEntry => m.modify id _) h.ranged }
  | aclGrant subject grant effect scope grantor =>
    exact { h with acl := congrArg (fun m : Registry AclEntry => m.insertIfNew (aclId stamp) _) h.acl }
  | aclRevoke id => exact { h with acl := congrArg (fun m : Registry AclEntry => m.modify id _) h.acl }
  | textInsert s anchor => exact h.onText target (clears_insertRun stamp 0 s anchor)
  | textDelete ids => exact h.onText target (clears_deleteIds ids)
  | mapCreate key => exact h.createContainer target key stamp .map
  | listCreate key => exact h.createContainer target key stamp .list
  | textCreate key => exact h.createContainer target key stamp .text
  | xmlElementCreate key tag => exact h.createContainer target key stamp (.xmlElement tag)
  | xmlFragmentCreate key => exact h.createContainer target key stamp .xmlFragment
  | counterInc key amount => exact h.applyCounter target key stamp (fun n => n.inc author amount) (inc_clear author amount)
  | counterDec key amount => exact h.applyCounter target key stamp (fun n => n.dec author amount) (dec_clear author amount)
  | mapSet key value =>
    exact h.onMap target fun _ _ hMap => LwwMap.set_clear hMap key (.scalar value) stamp
  | mapDelete key => exact h.onMap target fun _ _ hMap => LwwMap.delete_clear hMap key stamp
  | registerSet key value =>
    exact h.onMap target fun _ _ hMap => LwwMap.setRegister_clear hMap key value stamp

theorem isSome_displacedContainer (h : Alike c c') (id : ElementId) :
    (c'.displacedContainer id).isSome = (c.displacedContainer id).isSome := by
  simp only [Content.displacedContainer, Option.isSome_or, Option.isSome_map, h.maps.isSome_eq,
    h.lists.isSome_eq, h.texts.isSome_eq, h.xmlElements.isSome_eq, h.xmlFragments.isSome_eq, h.ranged]

theorem materialised (h : Alike c c') (target : ElementId) :
    c'.materialised target = c.materialised target := by
  have hParent : ∀ id, c'.parentOf id = c.parentOf id := by
    intro id
    unfold Content.parentOf
    rw [h.parents, h.ranged]
  have hLoop : ∀ steps target, c'.materialisedLoop steps target = c.materialisedLoop steps target := by
    intro steps
    induction steps with
    | zero => exact fun _ => rfl
    | succ steps ih =>
      intro target
      unfold materialisedLoop
      rw [← Option.not_isSome, ← Option.not_isSome, h.isSome_displacedContainer, hParent]
      simp only [ih]
  unfold Content.materialised
  rw [h.parents, hLoop]

theorem ready [IdBytes] (h : Alike c c') (op : Op) : c'.ready op = c.ready op := by
  have hRead : ∀ {m m' : Registry (FugueList Element)} (id : ElementId)
      (p : FugueList Element → Bool), (∀ l, p l.clear = p l) →
        EntriesAgree (fun l l' => l'.clear = l.clear) m m' → m'[id]?.any p = m[id]?.any p := by
    intro m m' id p hp hAgree
    obtain ⟨hNone, hNone'⟩ | ⟨l, l', hl, hl', hSame⟩ := hAgree.cases_at id
    · rw [hNone, hNone']
    · rw [hl, hl', Option.any_some, Option.any_some, ← hp l', hSame, hp l]
  unfold Content.ready
  cases op.kind <;> simp only [h.materialised, h.lists.contains_eq, h.isMovable, h.ranged, h.acl]
  case listDelete id => exact hRead op.target _ (fun _ => rfl) h.lists
  case textDelete ids => rw [hRead op.target _ (fun _ => rfl) h.texts]

/-! ### The snapshot -/

theorem storedPlacements [IdBytes] (h : Alike c c') : c'.storedPlacements = c.storedPlacements := by
  unfold Content.storedPlacements
  refine ExtTreeMap.ext_getElem? fun node => ?_
  rw [ExtTreeMap.getElem?_map, ExtTreeMap.getElem?_map, ExtTreeMap.getElem?_filter',
    ExtTreeMap.getElem?_filter']
  obtain ⟨hNone, hNone'⟩ | ⟨places, places', hp, hp', hPlaces⟩ := h.placements.cases_at node
  · rw [hNone, hNone']
    rfl
  · have hAny : places'.any c'.isTombstonedNode = places.any c.isTombstonedNode := by
      rw [funext h.isTombstonedNode]
      exact hPlaces.any_eq.symm
    rw [hp, hp', Option.filter_some, Option.filter_some, hAny, hPlaces.length_eq]
    split
    · rw [Option.map_some, Option.map_some, insertionSort_places hPlaces]
    · rfl

theorem stored [IdBytes] (h : Alike c c') : c'.stored = c.stored := by
  have hMap : ∀ {α : Type} {R : α → α → Prop} {m m' : Registry α} (f : α → α),
      (∀ v v', R v v' → f v' = f v) → EntriesAgree R m m' →
        (m'.map fun _ => f) = m.map fun _ => f := by
    intro α R m m' f hf hAgree
    refine ExtTreeMap.ext_getElem? fun k => ?_
    rw [ExtTreeMap.getElem?_map, ExtTreeMap.getElem?_map]
    obtain ⟨hNone, hNone'⟩ | ⟨v, v', hv, hv', hSame⟩ := hAgree.cases_at k
    · rw [hNone, hNone']
    · rw [hv, hv', Option.map_some, Option.map_some, hf v v' hSame]
  have hList : ∀ l l' : FugueList Element, l'.clear = l.clear →
      ({ l'.unmoved with displaced := false } : FugueList Element) =
        { l.unmoved with displaced := false } :=
    fun _ _ hSame => congrArg FugueList.unmoved hSame
  have hMaps := hMap (fun m : LwwMap => { m with displaced := false }) (fun _ _ => id) h.maps
  have hLists := hMap (fun l : FugueList Element => { l.unmoved with displaced := false }) hList h.lists
  have hTexts := hMap (fun l : FugueList Element => { l.unmoved with displaced := false }) hList h.texts
  have hCounters := hMap (fun n : Counter => { n with displaced := false }) (fun _ _ => id) h.counters
  have hElements := hMap (fun x : XmlElement => ⟨x.tag, false, true, true⟩)
    (fun x x' hTag => by rw [hTag]) h.xmlElements
  have hFragments := hMap (fun _ : XmlFragment => ⟨false, true⟩) (fun _ _ _ => rfl) h.xmlFragments
  unfold Content.stored
  simp only [hMaps, hLists, hTexts, hCounters, hElements, hFragments, h.parents, h.moves,
    h.storedPlacements, h.ranged, h.acl]

end Alike

end Content

/-! ### Replicas -/

/-- Two alike contents, folded side by side. -/
def Twins : Type := {c : Content × Content // c.1.Alike c.2}

section Twins

variable [IdBytes]

instance : Folds Twins where
  ready t op := t.1.1.ready op
  applyKind t target kind stamp author :=
    ⟨(t.1.1.applyKind target kind stamp author, t.1.2.applyKind target kind stamp author),
      t.2.applyKind target kind stamp author⟩
  restored _ := none
  observedStamps _ := []

theorem foldsHom_left : FoldsHom fun t : Twins => t.1.1 := ⟨fun _ _ => rfl, fun _ _ _ _ _ => rfl⟩

theorem foldsHom_right : FoldsHom fun t : Twins => t.1.2 :=
  ⟨fun t op => t.2.ready op, fun _ _ _ _ _ => rfl⟩

theorem Document.alike_foldl_apply {d : Document Content} {c : Content} (h : d.content.Alike c)
    (ops : List Op) : ∃ c', (ops.foldl Document.apply d).content.Alike c' ∧
      ops.foldl Document.apply { d with content := c } =
        { ops.foldl Document.apply d with content := c' } := by
  have hFold : ∀ {f : Twins → Content} (_ : FoldsHom f) (t : Document Twins),
      ops.foldl Document.apply (t.mapContent f) = (ops.foldl Document.apply t).mapContent f := by
    intro f hf t
    induction ops generalizing t with
    | nil => rfl
    | cons op ops ih => rw [List.foldl_cons, List.foldl_cons, mapContent_apply t hf, ih]
  let t : Document Twins := d.mapContent fun _ => ⟨(d.content, c), h⟩
  have hLeft := hFold foldsHom_left t
  have hRight := hFold foldsHom_right t
  refine ⟨(ops.foldl Document.apply t).content.1.2, ?_, ?_⟩
  · have hContent := congrArg (fun d : Document Content => d.toDocState.content) hLeft
    change (ops.foldl Document.apply d).content = (ops.foldl Document.apply t).content.1.1 at hContent
    rw [hContent]
    exact (ops.foldl Document.apply t).content.2
  · change ops.foldl Document.apply d = _ at hLeft
    rw [hLeft]
    exact hRight

end Twins

end CrdtSync
