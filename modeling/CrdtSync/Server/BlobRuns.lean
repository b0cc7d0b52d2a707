import CrdtSync.Server.Blobs

/-!
# What a blob store holds over its runs

Calls fail, processes are killed and power is lost at any file operation. A store opens again
whatever was left, and every handle it knows resolves to the bytes that were put under it; a handle
a call has returned is never lost. Both are true of all bytes but those an object of which was
renamed into place by a call that stopped before the directory was synced: the next put of them
finds the object in place and leaves it unsynced, and a power loss may take it.
-/

namespace CrdtSync.Server.Blobs

open Lib Directory StoreFiles

/-- A store, or none that is open, on its disk, with what was put under each handle that was drawn,
the handles that were returned, those of blobs that ride inline, and the bytes exposed. -/
structure State where
  disk : Disk
  store : Option Index
  puts : List (Uuid × Bytes)
  returned : List (Uuid × Bytes)
  inline : List (Uuid × Bytes)
  exposed : List Bytes

def State.empty : State := ⟨⟨⟨∅, []⟩, ⟨∅, []⟩⟩, none, [], [], [], []⟩

/-- The handles drawn so far. -/
def State.drawn (s : State) : List Uuid := (s.puts ++ s.inline).map Prod.fst

section Runs

variable [ContentSha] (held : Set Bytes)

/-- Every object in place has been synced into its directory, but those of exposed bytes. -/
def Settled (exposed : List Bytes) (objects : Directory FileName Bytes) : Prop :=
  ∀ name : FileName, '.' ∉ name → name ∉ exposed.map (objectPath ∘ sha) → ∀ file,
    objects.now[name]? = some file → ∀ files ∈ objects.past, files[name]? = some file

/-- The bytes a call stopped at the `k`-th file operation exposes: it has renamed their object into
place, and not synced the directory. -/
def State.exposedBy (s : State) (draws : Draws) (bytes : Bytes) (k : Nat) : List Bytes :=
  if objectOps s.disk draws bytes ≠ [] ∧ k = 4 then bytes :: s.exposed else s.exposed

def State.stored (s : State) (out : BlobRef × Disk × Index) (bytes : Bytes) : State :=
  { s with
    disk := out.2.1
    store := some out.2.2
    puts := (out.1.id, bytes) :: s.puts
    returned := (out.1.id, bytes) :: s.returned }

/-- A put on an open store. -/
def State.put (s : State) (out : BlobRef × Disk × Index) (bytes : Bytes) : State :=
  match out.1.inlined with
  | none => s.stored out bytes
  | some _ =>
    { s with disk := out.2.1, store := some out.2.2, inline := (out.1.id, bytes) :: s.inline }

/-- One step. The handle a call draws is one that was not drawn before, and the bytes it stores are
of a set in which the hash tells contents apart. -/
inductive Step : State → State → Prop
  | openStore {s : State} {index : Index} :
      Blobs.openStore s.disk = .ok index → Step s { s with store := some index }
  | put {s : State} {index : Index} {draws : Draws} {bytes mime : Bytes} :
      s.store = some index → bytes ∈ held → draws.id ∉ s.drawn →
      Step s (s.put (Blobs.put s.disk index draws bytes mime) bytes)
  | putFetchable {s : State} {index : Index} {draws : Draws} {bytes mime : Bytes} :
      s.store = some index → bytes ∈ held → draws.id ∉ s.drawn →
      Step s (s.stored (Blobs.putFetchable s.disk index draws bytes mime) bytes)
  /-- The call fails at a file operation, or the process is killed there. -/
  | stopped {s : State} {index : Index} {draws : Draws} {bytes : Bytes} {part : Bytes → Bytes}
      {k : Nat} {left : Option Index} :
      s.store = some index → bytes ∈ held → draws.id ∉ s.drawn → left = some index ∨ left = none →
      Step s { s with
        disk := s.disk.cut draws bytes part k
        store := left
        puts := (draws.id, bytes) :: s.puts
        exposed := s.exposedBy draws bytes k }
  /-- Power is lost at a file operation. -/
  | lost {s : State} {index : Index} {draws : Draws} {bytes : Bytes} {part : Bytes → Bytes}
      {k : Nat} {disk : Disk} :
      s.store = some index → bytes ∈ held → draws.id ∉ s.drawn →
      (s.disk.cut draws bytes part k).objects.Survives disk.objects →
      (s.disk.cut draws bytes part k).refs.Survives disk.refs →
      Step s { s with disk, store := none, puts := (draws.id, bytes) :: s.puts }
  | closed {s : State} : Step s { s with store := none }
  | powerLoss {s : State} {disk : Disk} :
      s.disk.objects.Survives disk.objects → s.disk.refs.Survives disk.refs →
      Step s { s with disk, store := none }

inductive Reaches : State → Prop
  | empty : Reaches .empty
  | step {s s' : State} : Reaches s → Step held s s' → Reaches s'

def IsObject (puts : List (Uuid × Bytes)) (name : FileName) (content : Bytes) : Prop :=
  (∃ id, (id, content) ∈ puts) ∧ name = objectPath (sha content)

/-- A ref is of a handle that was drawn, and the object it resolves to is there to stay, or its
bytes are exposed. -/
def IsRef (exposed : List Bytes) (puts : List (Uuid × Bytes)) (objects : Directory FileName Bytes)
    (name : FileName) (content : Bytes) : Prop :=
  ∃ id bytes, (id, bytes) ∈ puts ∧ name = refPath id ∧ content = sha bytes ∧
    (bytes ∈ exposed ∨ objects.Keeps (objectPath (sha bytes)) bytes)

structure SoundDisk (exposed : List Bytes) (disk : Disk) (puts returned : List (Uuid × Bytes)) :
    Prop where
  objects : ∀ name, '.' ∉ name → disk.objects.Only name (IsObject puts name)
  refs : ∀ name, '.' ∉ name → disk.refs.Only name (IsRef exposed puts disk.objects name)
  returned : ∀ entry ∈ returned, entry ∈ puts ∧ disk.refs.Keeps (refPath entry.1) (sha entry.2)

structure Sound (s : State) : Prop where
  disk : SoundDisk s.exposed s.disk s.puts s.returned
  settled : Settled s.exposed s.disk.objects
  held : (∀ entry ∈ s.puts, entry.2 ∈ held) ∧ ∀ bytes ∈ s.exposed, bytes ∈ held
  distinct : s.drawn.Nodup
  known : ∀ index, s.store = some index → ∀ id content, index[id]? = some content →
    s.disk.refs.now[refPath id]? = some ⟨content, true⟩
  index : ∀ index, s.store = some index → ∀ entry ∈ s.returned, index[entry.1]? = some (sha entry.2)

end Runs

section Disk

variable [ContentSha] {held : Set Bytes} {disk disk' : Disk} {puts returned : List (Uuid × Bytes)}
variable {draws : Draws} {bytes : Bytes} {part : Bytes → Bytes} {k : Nat} {exposed : List Bytes}

theorem SoundDisk.survives (h : SoundDisk exposed disk puts returned)
    (hObjects : disk.objects.Survives disk'.objects) (hRefs : disk.refs.Survives disk'.refs) :
    SoundDisk exposed disk' puts returned where
  objects name hName := (h.objects name hName).survives hObjects
  refs name hName := by
    refine ((h.refs name hName).survives hRefs).mono ?_
    rintro content ⟨id, bytes, hPut, hPath, hSha, hKeeps⟩
    exact ⟨id, bytes, hPut, hPath, hSha, hKeeps.imp_right fun hKeeps => hKeeps.survives hObjects⟩
  returned entry hEntry :=
    ⟨(h.returned entry hEntry).1, (h.returned entry hEntry).2.survives hRefs⟩

theorem settled_of_past {objects : Directory FileName Bytes} (h : objects.past = []) :
    Settled exposed objects := by
  intro name _ _ file _ files hFiles
  rw [h] at hFiles
  cases hFiles

/-- The object of some bytes, where it is in place, has those bytes, and keeps them unless they are
exposed. -/
theorem SoundDisk.keeps_object (h : SoundDisk exposed disk puts returned)
    (hSettled : Settled exposed disk.objects) (hSha : Set.InjOn sha held)
    (hHeld : (∀ entry ∈ puts, entry.2 ∈ held) ∧ ∀ bytes ∈ exposed, bytes ∈ held)
    (hBytes : bytes ∈ held) (hIn : disk.objects.now[objectPath (sha bytes)]?.isSome) :
    bytes ∈ exposed ∨ disk.objects.Keeps (objectPath (sha bytes)) bytes := by
  by_cases hExposed : bytes ∈ exposed
  · exact .inl hExposed
  have hName : objectPath (sha bytes) ∉ exposed.map (objectPath ∘ sha) := by
    intro hIn
    obtain ⟨other, hOther, hSame⟩ := List.mem_map.mp hIn
    exact hExposed (hSha (hHeld.2 _ hOther) hBytes (hexName_injective hSame) ▸ hOther)
  right
  obtain ⟨⟨content, synced⟩, hFile⟩ := Option.isSome_iff_exists.mp hIn
  obtain ⟨hSynced, ⟨id, hPut⟩, hPath⟩ :=
    h.objects _ (not_mem_objectPath _) _ List.mem_cons_self _ hFile
  obtain rfl : synced = true := hSynced
  obtain rfl : content = bytes := hSha (hHeld.1 _ hPut) hBytes (hexName_injective hPath).symm
  intro files hFiles
  rcases List.mem_cons.mp hFiles with rfl | hFiles
  · exact hFile
  · exact hSettled _ (not_mem_objectPath _) hName _ hFile files hFiles

section Cut

variable (draws bytes part k)

/-- The object of a call is in place already or written anew. -/
theorem objects_cut_cases (disk : Disk) :
    disk.objects.now[objectPath (sha bytes)]?.isSome ∧ objectOps disk draws bytes = [] ∧
        (disk.cut draws bytes part k).objects = disk.objects ∨
      disk.objects.now[objectPath (sha bytes)]? = none ∧
        objectOps disk draws bytes =
          atomicWriteTo draws.objectTmp (objectPath (sha bytes)) bytes ∧
        (disk.cut draws bytes part k).objects = disk.objects.run
          (cutAt part k (atomicWriteTo draws.objectTmp (objectPath (sha bytes)) bytes)) := by
  unfold Disk.cut objectOps
  dsimp only
  split
  next hIn => exact .inl ⟨hIn, rfl, by simp [cutAt, run]⟩
  next hNew => exact .inr ⟨by simpa using hNew, rfl, rfl⟩

/-- The refs of a call are untouched until its object is in place, for good unless its bytes are
exposed. -/
theorem refs_cut_cases (h : SoundDisk exposed disk puts returned)
    (hSettled : Settled exposed disk.objects) (hSha : Set.InjOn sha held)
    (hHeld : (∀ entry ∈ puts, entry.2 ∈ held) ∧ ∀ bytes ∈ exposed, bytes ∈ held)
    (hBytes : bytes ∈ held) :
    (disk.cut draws bytes part k).refs = disk.refs ∨ bytes ∈ exposed ∨
      (disk.cut draws bytes part k).objects.Keeps (objectPath (sha bytes)) bytes := by
  rcases objects_cut_cases draws bytes part k disk with ⟨hIn, -, hObjects⟩ | ⟨-, hOps, hObjects⟩
  · exact .inr (hObjects ▸ h.keeps_object hSettled hSha hHeld hBytes hIn)
  · by_cases hDone : 5 ≤ k
    · refine .inr (.inr ?_)
      rw [hObjects, cutAt_of_length_le part (by exact hDone)]
      exact (run_atomicWrite _ (ne_tmp (not_mem_objectPath _) _ _).symm bytes).2.2
    · left
      have hNone : k - (objectOps disk draws bytes).length = 0 := by
        rw [hOps]
        exact Nat.sub_eq_zero_of_le (by change k ≤ 5; omega)
      unfold Disk.cut
      rw [hNone]
      rfl

end Cut

/-- Wherever a call is cut short, the objects that were kept are kept. -/
theorem keeps_object_cut {name : FileName} {content : Bytes} (hName : '.' ∉ name)
    (hKeeps : disk.objects.Keeps name content) :
    (disk.cut draws bytes part k).objects.Keeps name content := by
  rcases objects_cut_cases draws bytes part k disk with ⟨-, -, hObjects⟩ | ⟨hNew, -, hObjects⟩
  · exact hObjects ▸ hKeeps
  · rw [hObjects]
    refine hKeeps.cut (ne_tmp hName _ _) ?_ (ne_tmp (not_mem_objectPath _) _ _).symm part k
    rintro rfl
    rw [hKeeps _ List.mem_cons_self] at hNew
    cases hNew

/-- So are the refs of other handles. -/
theorem keeps_ref_cut {id : Uuid} {content : Bytes} (hId : id ≠ draws.id)
    (hKeeps : disk.refs.Keeps (refPath id) content) :
    (disk.cut draws bytes part k).refs.Keeps (refPath id) content :=
  hKeeps.cut (ne_tmp (not_mem_refPath _) _ _) (fun hSame => hId (refPath_injective hSame))
    (ne_tmp (not_mem_refPath _) _ _).symm part _

/-- Wherever a call is cut short, the objects that were synced are synced. -/
theorem Settled.agreesOff {objects objects' : Directory FileName Bytes} {touched : List FileName}
    {more : List Bytes} (h : Settled exposed objects)
    (hAgrees : AgreesOff touched objects objects') (hMore : exposed ⊆ more)
    (hTouched : ∀ name, '.' ∉ name → name ∉ more.map (objectPath ∘ sha) → name ∉ touched) :
    Settled more objects' := by
  intro name hName hExposed file hFile files hFiles
  have hOff := hTouched name hName hExposed
  have hOld : name ∉ exposed.map (objectPath ∘ sha) := fun hIn =>
    hExposed (List.map_subset _ hMore hIn)
  rw [hAgrees.now name hOff] at hFile
  obtain ⟨old, hIn, hSame⟩ := hAgrees.states name hOff files (List.mem_cons_of_mem _ hFiles)
  rw [hSame]
  rcases List.mem_cons.mp hIn with rfl | hIn
  · exact hFile
  · exact h name hName hOld file hFile old hIn

theorem Settled.cut {s : State} (h : Settled s.exposed s.disk.objects) (draws : Draws)
    (bytes : Bytes) (part : Bytes → Bytes) (k : Nat) :
    Settled (s.exposedBy draws bytes k) (s.disk.cut draws bytes part k).objects := by
  have hTmp (name : FileName) (hName : '.' ∉ name) :
      name ∉ [withExtension (objectPath (sha bytes)) (uuidName draws.objectTmp)] := by
    rw [List.mem_singleton]
    exact ne_tmp hName _ _
  unfold State.exposedBy
  rcases objects_cut_cases draws bytes part k s.disk with ⟨-, hOps, hObjects⟩ | ⟨-, hOps, hObjects⟩
  · rw [hObjects, if_neg fun hExposed => hExposed.1 hOps]
    exact h
  · rw [hObjects]
    by_cases hWindow : k = 4
    · have hNew : objectOps s.disk draws bytes ≠ [] := by
        rw [hOps]
        exact List.cons_ne_nil _ _
      rw [if_pos ⟨hNew, hWindow⟩, hWindow]
      refine h.agreesOff (run_renamed s.disk.objects (ne_tmp (not_mem_objectPath _) _ _).symm bytes).1
        (List.subset_cons_self _ _) fun name hName hExposed hIn => ?_
      rcases List.mem_cons.mp hIn with rfl | hIn
      · exact hTmp _ hName List.mem_cons_self
      · exact hExposed (List.mem_singleton.mp hIn ▸ List.mem_cons_self)
    · rw [if_neg fun hExposed => hWindow hExposed.2]
      by_cases hBefore : k ≤ 3
      · exact h.agreesOff (agreesOff_cut _ _ _ bytes part hBefore) (List.Subset.refl _)
          fun name hName _ => hTmp name hName
      · rw [cutAt_of_length_le part (show 5 ≤ k by omega)]
        exact settled_of_past
          (run_atomicWrite _ (ne_tmp (not_mem_objectPath _) _ _).symm _).2.1

theorem SoundDisk.cut {more : List Bytes} (h : SoundDisk exposed disk puts returned)
    (hSettled : Settled exposed disk.objects) (hSha : Set.InjOn sha held)
    (hHeld : (∀ entry ∈ puts, entry.2 ∈ held) ∧ ∀ bytes ∈ exposed, bytes ∈ held)
    (hBytes : bytes ∈ held) (hFresh : draws.id ∉ puts.map Prod.fst) (hMore : exposed ⊆ more)
    (part : Bytes → Bytes) (k : Nat) :
    SoundDisk more (disk.cut draws bytes part k) ((draws.id, bytes) :: puts) returned where
  objects name hName := by
    have hOld : disk.objects.Only name (IsObject ((draws.id, bytes) :: puts) name) :=
      (h.objects name hName).mono fun content hIs =>
        ⟨hIs.1.imp fun id hPut => List.mem_cons_of_mem _ hPut, hIs.2⟩
    rcases objects_cut_cases draws bytes part k disk with ⟨-, -, hObjects⟩ | ⟨-, -, hObjects⟩
    · exact hObjects ▸ hOld
    · rw [hObjects]
      exact hOld.cut (ne_tmp hName _ _) (fun hSame => ⟨⟨draws.id, List.mem_cons_self⟩, hSame⟩)
        (ne_tmp (not_mem_objectPath _) _ _).symm part k
  refs name hName := by
    have hOld : disk.refs.Only name
        (IsRef more ((draws.id, bytes) :: puts) (disk.cut draws bytes part k).objects name) := by
      refine (h.refs name hName).mono ?_
      rintro content ⟨id, other, hPut, hPath, hContent, hKeeps⟩
      exact ⟨id, other, List.mem_cons_of_mem _ hPut, hPath, hContent,
        hKeeps.imp (hMore ·) (keeps_object_cut (not_mem_objectPath _))⟩
    rcases refs_cut_cases draws bytes part k h hSettled hSha hHeld hBytes with hSame | hKeeps
    · exact hSame ▸ hOld
    · exact hOld.cut (ne_tmp hName _ _)
        (fun hSame => ⟨draws.id, bytes, List.mem_cons_self, hSame, rfl, hKeeps.imp_left (hMore ·)⟩)
        (ne_tmp (not_mem_refPath _) _ _).symm part _
  returned entry hEntry := by
    obtain ⟨hPut, hKeeps⟩ := h.returned entry hEntry
    refine ⟨List.mem_cons_of_mem _ hPut, keeps_ref_cut ?_ hKeeps⟩
    rintro hSame
    exact hFresh (hSame ▸ List.mem_map_of_mem hPut)

/-- A call that was not cut short. -/
theorem store_eq_cut (disk : Disk) (draws : Draws) (bytes : Bytes) :
    disk.store draws bytes =
      disk.cut draws bytes id ((objectOps disk draws bytes).length + 5) := by
  unfold Disk.store Disk.cut
  rw [cutAt_of_length_le id (Nat.le_add_right _ _), Nat.add_sub_cancel_left]
  rfl

theorem keeps_ref_store (disk : Disk) (draws : Draws) (bytes : Bytes) :
    (disk.store draws bytes).refs.Keeps (refPath draws.id) (sha bytes) :=
  (run_atomicWrite _ (ne_tmp (not_mem_refPath _) _ _).symm _).2.2

theorem settled_store (h : Settled exposed disk.objects) (draws : Draws) (bytes : Bytes) :
    Settled exposed (disk.store draws bytes).objects := by
  unfold Disk.store objectOps
  dsimp only
  split
  next => exact h
  next => exact settled_of_past (run_atomicWrite _ (ne_tmp (not_mem_objectPath _) _ _).symm _).2.1

end Disk

section Steps

variable [ContentSha] {held : Set Bytes} {s s' : State} {index : Index} {draws : Draws} {bytes : Bytes}
variable {part : Bytes → Bytes} {k : Nat}

/-- A ref in place is of a handle that was drawn. -/
theorem Sound.put_of_ref (h : Sound held s) {id : Uuid} {file : File Bytes}
    (hNow : s.disk.refs.now[refPath id]? = some file) :
    ∃ bytes, (id, bytes) ∈ s.puts ∧ file = ⟨sha bytes, true⟩ ∧
      (bytes ∈ s.exposed ∨ s.disk.objects.Keeps (objectPath (sha bytes)) bytes) := by
  obtain ⟨hSynced, own, bytes, hPut, hPath, hContent, hKeeps⟩ :=
    h.disk.refs _ (not_mem_refPath id) _ List.mem_cons_self file hNow
  rw [refPath_injective hPath]
  obtain ⟨content, synced⟩ := file
  obtain rfl : synced = true := hSynced
  obtain rfl : content = sha bytes := hContent
  exact ⟨bytes, hPut, rfl, hKeeps⟩

omit [ContentSha] in
theorem mem_drawn {id : Uuid} (h : (id, bytes) ∈ s.puts) : id ∈ s.drawn :=
  List.mem_map_of_mem (List.mem_append_left _ h)

omit [ContentSha] in
theorem mem_fst_drawn {id : Uuid} (h : id ∈ s.puts.map Prod.fst) : id ∈ s.drawn := by
  obtain ⟨⟨own, bytes⟩, hPut, rfl⟩ := List.mem_map.mp h
  exact mem_drawn hPut

/-- The handles drawn once one more is. -/
theorem Sound.nodup_drawn (h : Sound held s) (hFresh : draws.id ∉ s.drawn) (bytes : Bytes) :
    (((draws.id, bytes) :: s.puts ++ s.inline).map Prod.fst).Nodup :=
  List.nodup_cons.mpr ⟨hFresh, h.distinct⟩

/-- What an open store knows of the handles before a call it knows wherever the call is cut
short. -/
theorem Sound.known_cut (h : Sound held s) (hStore : s.store = some index)
    (hFresh : draws.id ∉ s.drawn) (bytes : Bytes) (part : Bytes → Bytes) (k : Nat)
    {id : Uuid} {content : Bytes} (hIndex : index[id]? = some content) :
    id ≠ draws.id ∧
      (s.disk.cut draws bytes part k).refs.now[refPath id]? = some ⟨content, true⟩ := by
  have hNow := h.known index hStore id content hIndex
  obtain ⟨own, hPut, -⟩ := h.put_of_ref hNow
  have hId : id ≠ draws.id := by
    rintro rfl
    exact hFresh (mem_drawn hPut)
  refine ⟨hId, Eq.trans ?_ hNow⟩
  exact now_cut _ (ne_tmp (not_mem_refPath _) _ _) (fun hSame => hId (refPath_injective hSame))
    (ne_tmp (not_mem_refPath _) _ _).symm part _

theorem Sound.store (hSha : Set.InjOn sha held) (h : Sound held s) (hStore : s.store = some index)
    (hBytes : bytes ∈ held) (hFresh : draws.id ∉ s.drawn) :
    Sound held { s with
      disk := s.disk.store draws bytes
      store := some (index.insert draws.id (sha bytes))
      puts := (draws.id, bytes) :: s.puts
      returned := (draws.id, bytes) :: s.returned } where
  disk := by
    have hCut := h.disk.cut h.settled hSha h.held hBytes (fun hIn => hFresh (mem_fst_drawn hIn))
      (List.Subset.refl _) id ((objectOps s.disk draws bytes).length + 5)
    rw [← store_eq_cut] at hCut
    refine ⟨hCut.objects, hCut.refs, fun entry hEntry => ?_⟩
    rcases List.mem_cons.mp hEntry with rfl | hEntry
    · exact ⟨List.mem_cons_self, keeps_ref_store _ _ _⟩
    · exact hCut.returned entry hEntry
  settled := settled_store h.settled draws bytes
  held := ⟨List.forall_mem_cons.mpr ⟨hBytes, h.held.1⟩, h.held.2⟩
  distinct := h.nodup_drawn hFresh bytes
  known := by
    intro after hAfter other content hIndex
    cases hAfter
    rw [getElem?_insert_ite] at hIndex
    split at hIndex
    next hSame =>
      cases hIndex
      rw [hSame]
      exact keeps_ref_store s.disk draws bytes _ List.mem_cons_self
    next =>
      have hCut := (h.known_cut hStore hFresh bytes id
        ((objectOps s.disk draws bytes).length + 5) hIndex).2
      rw [← store_eq_cut] at hCut
      exact hCut
  index := by
    intro after hAfter entry hEntry
    cases hAfter
    rw [getElem?_insert_ite]
    rcases List.mem_cons.mp hEntry with rfl | hEntry
    · rw [if_pos rfl]
    · have hOld := h.index index hStore entry hEntry
      rw [if_neg (h.known_cut hStore hFresh bytes id 0 hOld).1, hOld]

/-- A store opens whatever was left of it, and knows the handles that were returned. -/
theorem Sound.openStore (h : Sound held s) :
    ∃ index, Blobs.openStore s.disk = .ok index ∧ Sound held { s with store := some index } := by
  have hRef : ∀ entry ∈ s.disk.refs.now.toList, ∀ id, parseUuid entry.1 = some id →
      ∃ bytes, entry.1 = refPath id ∧ entry.2 = ⟨sha bytes, true⟩ := by
    rintro ⟨name, file⟩ hEntry id hParse
    rw [Std.ExtTreeMap.mem_toList_iff_getElem?_eq_some] at hEntry
    have hName : '.' ∉ name := fun hDot => by
      rw [parseUuid_dot hDot] at hParse
      cases hParse
    obtain ⟨-, own, bytes, -, rfl, -⟩ := h.disk.refs name hName _ List.mem_cons_self file hEntry
    rw [parseUuid_refPath] at hParse
    cases hParse
    obtain ⟨bytes, -, hFile, -⟩ := h.put_of_ref hEntry
    exact ⟨bytes, rfl, hFile⟩
  obtain ⟨index, hOpen, hFrom, hIn⟩ := foldlM_loadRef (fun entry hEntry id hParse => by
    obtain ⟨bytes, -, hFile⟩ := hRef entry hEntry id hParse
    rw [hFile]
    exact ContentSha.length_sha bytes) (∅ : Index)
  have hKnown : ∀ id content, index[id]? = some content →
      s.disk.refs.now[refPath id]? = some ⟨content, true⟩ := by
    intro id content hIndex
    rcases hFrom id content hIndex with hNone | ⟨entry, hEntry, hParse, rfl⟩
    · rw [Std.ExtTreeMap.getElem?_empty] at hNone
      cases hNone
    · obtain ⟨bytes, hName, hFile⟩ := hRef entry hEntry id hParse
      rw [← hName, Std.ExtTreeMap.mem_toList_iff_getElem?_eq_some.mp hEntry, hFile]
  refine ⟨index, hOpen, h.disk, h.settled, h.held, h.distinct, ?_, ?_⟩
  · intro other hOther
    cases hOther
    exact hKnown
  · intro other hOther entry hEntry
    cases hOther
    have hNow := (h.disk.returned entry hEntry).2 _ List.mem_cons_self
    obtain ⟨content, hContent⟩ := Option.isSome_iff_exists.mp (hIn entry.1 (.inl
      ⟨(refPath entry.1, ⟨sha entry.2, true⟩),
        Std.ExtTreeMap.mem_toList_iff_getElem?_eq_some.mpr hNow, parseUuid_refPath entry.1⟩))
    have hSame := (hKnown _ _ hContent).symm.trans hNow
    cases hSame
    exact hContent

/-- Nothing is asked of the index of a store that is not open. -/
theorem Sound.closed (hDisk : SoundDisk s.exposed s.disk s.puts s.returned)
    (hSettled : Settled s.exposed s.disk.objects)
    (hHeld : (∀ entry ∈ s.puts, entry.2 ∈ held) ∧ ∀ bytes ∈ s.exposed, bytes ∈ held)
    (hDistinct : s.drawn.Nodup) (hStore : s.store = none) : Sound held s where
  disk := hDisk
  settled := hSettled
  held := hHeld
  distinct := hDistinct
  known index hIndex := by rw [hStore] at hIndex; cases hIndex
  index index hIndex := by rw [hStore] at hIndex; cases hIndex

theorem subset_exposedBy (s : State) (draws : Draws) (bytes : Bytes) (k : Nat) :
    s.exposed ⊆ s.exposedBy draws bytes k := by
  unfold State.exposedBy
  split
  · exact List.subset_cons_self _ _
  · exact List.Subset.refl _

theorem Sound.held_exposedBy (h : Sound held s) (hBytes : bytes ∈ held) (draws : Draws) (k : Nat) :
    ∀ other ∈ s.exposedBy draws bytes k, other ∈ held := by
  unfold State.exposedBy
  split
  · exact List.forall_mem_cons.mpr ⟨hBytes, h.held.2⟩
  · exact h.held.2

theorem Sound.inline (h : Sound held s) (hStore : s.store = some index)
    (hFresh : draws.id ∉ s.drawn) (bytes : Bytes) :
    Sound held { s with store := some index, inline := (draws.id, bytes) :: s.inline } where
  disk := h.disk
  settled := h.settled
  held := h.held
  distinct := by
    have hPerm : ((s.puts ++ (draws.id, bytes) :: s.inline).map Prod.fst).Perm (draws.id :: s.drawn) :=
      (List.perm_middle).map Prod.fst
    exact hPerm.nodup_iff.mpr (List.nodup_cons.mpr ⟨hFresh, h.distinct⟩)
  known after hAfter := by cases hAfter; exact h.known index hStore
  index after hAfter := by cases hAfter; exact h.index index hStore

theorem Sound.step (hSha : Set.InjOn sha held) (h : Sound held s) (hStep : Step held s s') :
    Sound held s' := by
  cases hStep with
  | openStore hOpen =>
    obtain ⟨index, hIndex, hSound⟩ := h.openStore
    rw [hOpen] at hIndex
    cases hIndex
    exact hSound
  | @put index draws bytes mime hStore hBytes hFresh =>
    unfold Blobs.put
    split
    next => exact h.inline hStore hFresh bytes
    next => exact h.store hSha hStore hBytes hFresh
  | putFetchable hStore hBytes hFresh => exact h.store hSha hStore hBytes hFresh
  | @stopped index draws bytes part k left hStore hBytes hFresh hLeft =>
    have hIndex : ∀ other, left = some other → other = index := by
      rintro other rfl
      rcases hLeft with hSame | hNone
      · exact Option.some.inj hSame
      · cases hNone
    refine ⟨h.disk.cut h.settled hSha h.held hBytes (fun hIn => hFresh (mem_fst_drawn hIn))
        (subset_exposedBy ..) part k, h.settled.cut draws bytes part k,
      ⟨List.forall_mem_cons.mpr ⟨hBytes, h.held.1⟩, h.held_exposedBy hBytes draws k⟩,
      h.nodup_drawn hFresh bytes, ?_, ?_⟩
    · intro other hOther id content hContent
      rw [hIndex other hOther] at hContent
      exact (h.known_cut hStore hFresh bytes part k hContent).2
    · intro other hOther
      rw [hIndex other hOther]
      exact h.index index hStore
  | @lost index draws bytes part k disk hStore hBytes hFresh hObjects hRefs =>
    have hCut := h.disk.cut h.settled hSha h.held hBytes (fun hIn => hFresh (mem_fst_drawn hIn))
      (List.Subset.refl _) part k
    exact .closed (hCut.survives hObjects hRefs) (settled_of_past hObjects.1)
      ⟨List.forall_mem_cons.mpr ⟨hBytes, h.held.1⟩, h.held.2⟩ (h.nodup_drawn hFresh bytes) rfl
  | closed => exact .closed h.disk h.settled h.held h.distinct rfl
  | powerLoss hObjects hRefs =>
    exact .closed (h.disk.survives hObjects hRefs) (settled_of_past hObjects.1) h.held h.distinct rfl

theorem Sound.empty : Sound held State.empty := by
  have hOnly (name : FileName) (P : Bytes → Prop) :
      Only (⟨∅, []⟩ : Directory FileName Bytes) name P := by
    intro files hFiles file hFile
    rw [List.mem_singleton.mp hFiles, Std.ExtTreeMap.getElem?_empty] at hFile
    cases hFile
  exact .closed ⟨fun name _ => hOnly name _, fun name _ => hOnly name _, List.forall_mem_nil _⟩
    (settled_of_past rfl) ⟨List.forall_mem_nil _, List.forall_mem_nil _⟩ List.nodup_nil rfl

theorem Reaches.sound (hSha : Set.InjOn sha held) (h : Reaches held s) : Sound held s := by
  induction h with
  | empty => exact .empty
  | step _ hStep ih => exact ih.step hSha hStep

/-- A handle an open store knows resolves to what was put under it, or its object is gone and its
bytes were exposed. -/
theorem Sound.get_eq (hSha : Set.InjOn sha held) (h : Sound held s) (hStore : s.store = some index)
    {id : Uuid} {content : Bytes} (hIndex : index[id]? = some content) :
    ∃ bytes, (id, bytes) ∈ s.puts ∧ (get s.disk index id = .ok (some bytes) ∨
      get s.disk index id = .error .notFound ∧ bytes ∈ s.exposed) := by
  obtain ⟨bytes, hPut, hFile, hKeeps⟩ := h.put_of_ref (h.known index hStore id content hIndex)
  cases hFile
  refine ⟨bytes, hPut, ?_⟩
  rw [get, hIndex]
  dsimp only
  cases hObject : s.disk.objects.now[objectPath (sha bytes)]? with
  | none =>
    rcases hKeeps with hExposed | hKeeps
    · exact .inr ⟨rfl, hExposed⟩
    · rw [hKeeps _ List.mem_cons_self] at hObject
      cases hObject
  | some file =>
    obtain ⟨-, ⟨other, hOther⟩, hPath⟩ :=
      h.disk.objects _ (not_mem_objectPath _) _ List.mem_cons_self file hObject
    have hSame : bytes = file.content :=
      hSha (h.held.1 _ hPut) (h.held.1 _ hOther) (hexName_injective hPath)
    exact .inl (by rw [hSame])

/-- What an open store answers: to every handle nothing, the bytes put under it, or that exposed
bytes are gone; to a handle that was returned never nothing; to one that rides inline nothing. -/
structure Answers (s : State) (index : Index) : Prop where
  known : ∀ id, get s.disk index id = .ok none ∨ ∃ bytes, (id, bytes) ∈ s.puts ∧
    (get s.disk index id = .ok (some bytes) ∨
      get s.disk index id = .error .notFound ∧ bytes ∈ s.exposed)
  returned : ∀ entry ∈ s.returned, get s.disk index entry.1 = .ok (some entry.2) ∨
    get s.disk index entry.1 = .error .notFound ∧ entry.2 ∈ s.exposed
  inline : ∀ entry ∈ s.inline, get s.disk index entry.1 = .ok none

theorem Sound.answers (hSha : Set.InjOn sha held) (h : Sound held s)
    (hStore : s.store = some index) : Answers s index := by
  have hPuts : (s.puts.map Prod.fst).Nodup :=
    (h.distinct.sublist ((List.sublist_append_left ..).map Prod.fst))
  refine ⟨fun id => ?_, fun entry hEntry => ?_, fun entry hEntry => ?_⟩
  · cases hIndex : index[id]? with
    | none => exact .inl (by rw [get, hIndex])
    | some content => exact .inr (h.get_eq hSha hStore hIndex)
  · obtain ⟨bytes, hPut, hGet⟩ := h.get_eq hSha hStore (h.index index hStore entry hEntry)
    have hSame := List.inj_on_of_nodup_map hPuts hPut (h.disk.returned entry hEntry).1 rfl
    rw [← hSame]
    exact hGet
  · cases hIndex : index[entry.1]? with
    | none => rw [get, hIndex]
    | some content =>
      obtain ⟨bytes, hPut, -⟩ := h.get_eq hSha hStore hIndex
      have hApart := h.distinct
      rw [State.drawn, List.map_append, List.nodup_append] at hApart
      exact absurd rfl (hApart.2.2 _ (List.mem_map_of_mem hPut) entry.1 (List.mem_map_of_mem hEntry))

end Steps

section Examples

def greeting : Bytes := [104, 105]

def cheer : Bytes := [104, 111]

def greetingSha : Bytes :=
  [143, 67, 67, 70, 100, 143, 107, 150, 223, 137, 221, 169, 1, 197, 23, 107, 16, 166, 216, 57, 97,
  221, 60, 26, 200, 139, 89, 178, 220, 50, 122, 164]

def cheerSha : Bytes :=
  [168, 33, 198, 46, 129, 4, 248, 81, 157, 99, 155, 76, 9, 72, 174, 206, 100, 27, 20, 63, 102, 1,
  250, 20, 89, 147, 187, 46, 44, 114, 153, 212]

local instance spelledSha : ContentSha where
  sha bytes := if bytes = greeting then greetingSha else cheerSha
  length_sha bytes := by split <;> rfl

/-- A store is opened and a blob put into it. -/
def greeted : State :=
  State.stored { State.empty with store := some ∅ }
    (putFetchable State.empty.disk ∅ ⟨7, 1, 2⟩ greeting []) greeting

/-- The process is then killed as the next put syncs the objects' directory. -/
def killed : State :=
  { greeted with
    disk := greeted.disk.cut ⟨8, 3, 4⟩ cheer id 4
    store := none
    puts := (8, cheer) :: greeted.puts
    exposed := greeted.exposedBy ⟨8, 3, 4⟩ cheer 4 }

theorem injOn_greeting : Set.InjOn sha {greeting, cheer} := by
  rintro _ (rfl | rfl) _ (rfl | rfl) hSame
  · rfl
  · exact absurd hSame (by decide)
  · exact absurd hSame (by decide)
  · rfl

theorem reaches_greeted : Reaches {greeting, cheer} greeted :=
  .step (.step .empty (.openStore (show _ = Except.ok ∅ by rfl)))
    (.putFetchable rfl (.inl rfl) (by decide))

theorem reaches_killed : Reaches {greeting, cheer} killed :=
  .step reaches_greeted (.stopped rfl (.inr rfl) (by decide) (.inr rfl))

theorem exposed_killed : killed.exposed = [cheer] := by decide

end Examples

end CrdtSync.Server.Blobs
