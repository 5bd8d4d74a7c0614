import LlmCache.Store.DiskRestarts
import LlmCache.Store.TieredInterleaving

/-!
# The disk store under concurrent callers

A put makes the directory of the cache before it takes the lock, and a get tests
for the file before it opens it.  Between the two steps of a call others may run,
and a remove takes away the last file of a cache together with its directory.
-/

namespace LlmCache.Store.DiskInterleaving

open Errors Lib Payload LlmCache.Types DiskIsolation DiskChunks
open KeyedStore (Reply)
open DiskBackend (writeChunk fileName)
open DiskRestarts (Stores stores_congr)
open TieredInterleaving (Call Mutates effect)

/-- The step with which a call goes on, or how it ended. -/
inductive Phase where
  | ready (call : Call)
  | directoryMade (key : ChunkKey) (obj : KVPayload) (pin : Bool)
  | fileFound (key : ChunkKey)
  | returned (reply : Reply UnpackedPayload)
  | raised (err : Raised)
deriving DecidableEq

/-- The backend, where each call stands, and the calls that wrote or removed a
chunk so far. -/
structure World (ι : Type) where
  backend : DiskBackend
  phase : ι → Phase
  writes : List ι

/-- `path.parent.mkdir(parents=True, exist_ok=True)`. -/
def makeStep (s : DiskBackend) (key : ChunkKey) (obj : KVPayload) (pin : Bool) :
    Phase × DiskBackend :=
  let path := s.path key
  if path.hasNul then (.raised (.valueError "embedded null byte"), s)
  else
    let made := s.fs.makeDirs (s.locate path.parent)
    match made.1 with
    | .error err => (.raised (.osError err), { s with fs := made.2 })
    | .ok () => (.directoryMade key obj pin, { s with fs := made.2 })

/-- What a put does while it holds the lock. -/
def writeStep (json : JsonText) (s : DiskBackend) (key : ChunkKey) (obj : KVPayload) (pin : Bool) :
    Phase × DiskBackend :=
  let written := writeChunk json s (s.path key) obj
  match written.1 with
  | .error err => (.raised err, { s with fs := written.2 })
  | .ok () =>
      (.returned .done, { s with
        fs := written.2
        pinned := if pin then insert key s.pinned else s.pinned })

/-- `path.exists()` in `get`. -/
def findStep (s : DiskBackend) (key : ChunkKey) : Phase × DiskBackend :=
  let found := s.pathExists (s.path key)
  if found.1 then (.fileFound key, found.2) else (.returned (.object none), found.2)

/-- `get` from the opening of the file on. -/
def openStep (json : JsonText) (s : DiskBackend) (key : ChunkKey) : Phase × DiskBackend :=
  let read := s.fs.readFile (s.locate (s.path key))
  match read.1 with
  | .error err => (.raised (.osError err), { s with fs := read.2 })
  | .ok blob =>
      match unpackPayload json blob with
      | .error err => (.raised err, { s with fs := read.2 })
      | .ok payload => (.returned (.object (some payload)), { s with fs := read.2 })

def removeStep (s : DiskBackend) (key : ChunkKey) : Phase × DiskBackend :=
  let removed := s.remove key
  match removed.1 with
  | .error err => (.raised err, removed.2)
  | .ok flag => (.returned (.flag flag), removed.2)

/-- One step: where it leaves its caller, and the backend. -/
def diskStep (json : JsonText) (s : DiskBackend) : Phase → Phase × DiskBackend
  | .ready (.put key obj pin) => makeStep s key obj pin
  | .ready (.get key) => findStep s key
  | .ready (.remove key) => removeStep s key
  | .directoryMade key obj pin => writeStep json s key obj pin
  | .fileFound key => openStep json s key
  | .returned reply => (.returned reply, s)
  | .raised err => (.raised err, s)

/-- Whether a step from one phase to another wrote or removed a chunk. -/
def wrote : Phase → Phase → Bool
  | .directoryMade _ _ _, .returned _ => true
  | .ready (.remove _), .returned _ => true
  | _, _ => false

/-- The calls that wrote or removed a chunk, after a step. -/
def logged {ι : Type} (writes : List ι) (i : ι) (before after : Phase) : List ι :=
  if wrote before after then writes ++ [i] else writes

/-! ## Calls that run alone -/

/-- A call of the backend as one step. -/
def atomically (json : JsonText) (s : DiskBackend) : Call → Phase × DiskBackend
  | .put key obj pin =>
      (match (s.put json key obj pin).1 with
        | .error err => .raised err
        | .ok () => .returned .done, (s.put json key obj pin).2)
  | .get key =>
      (match (s.get json key).1 with
        | .error err => .raised err
        | .ok obj => .returned (.object obj), (s.get json key).2)
  | .remove key =>
      (match (s.remove key).1 with
        | .error err => .raised err
        | .ok flag => .returned (.flag flag), (s.remove key).2)

/-- With nothing in between, the steps of a call add up to it. -/
theorem diskStep_solo (json : JsonText) (s : DiskBackend) (call : Call) :
    let first := diskStep json s (.ready call)
    diskStep json first.2 first.1 = atomically json s call := by
  cases call with
  | put key obj pin =>
      simp only [diskStep, makeStep, atomically, DiskBackend.put]
      by_cases hnul : (s.path key).hasNul
      · simp only [hnul, if_true]
      · simp only [hnul, Bool.false_eq_true, if_false]
        rcases s.fs.makeDirs (s.locate (s.path key).parent) with ⟨err | ⟨⟩, fs⟩
        · rfl
        · have hpath : ({ s with fs := fs } : DiskBackend).path key = s.path key := rfl
          simp only [writeStep, hpath]
          rcases writeChunk json { s with fs := fs } (s.path key) obj with ⟨err | ⟨⟩, fs'⟩
          · rfl
          · rfl
  | get key =>
      by_cases hfound : (s.pathExists (s.path key)).1
      · have hbackend : (s.pathExists (s.path key)).2 =
            { s with fs := (s.pathExists (s.path key)).2.fs } := by
          unfold DiskBackend.pathExists
          split_ifs <;> rfl
        simp only [diskStep, findStep, atomically, DiskBackend.get, hfound, if_true, openStep]
        rw [hbackend]
        have hsame : ({ s with fs := (s.pathExists (s.path key)).2.fs } : DiskBackend).locate
            (({ s with fs := (s.pathExists (s.path key)).2.fs } : DiskBackend).path key) =
              s.locate (s.path key) := by
          unfold DiskBackend.pathExists
          split_ifs <;> rfl
        rw [hsame]
        rcases (s.pathExists (s.path key)).2.fs.readFile (s.locate (s.path key)) with
          ⟨err | blob, fs⟩
        · rfl
        · simp only
          cases unpackPayload json blob with
          | error err => rfl
          | ok payload => rfl
      · simp only [diskStep, findStep, atomically, DiskBackend.get, hfound, Bool.false_eq_true,
          if_false]
  | remove key =>
      simp only [diskStep, removeStep, atomically]
      rcases s.remove key with ⟨err | flag, s'⟩
      · rfl
      · rfl

/-! ## One cache in the tree -/

/-- No file is in the way of the directory of the cache, no temporary file of it
is a directory, and its chunks are the objects held. -/
structure Holding (json : JsonText) (id : String) (held : ChunkKey → Option KVPayload)
    (s : DiskBackend) : Prop where
  clear : ∀ l, l <:+ (s.root.join id).resolve s.fs.cwd → ∀ content,
    s.fs.node l ≠ some (.file content)
  temporary : ∀ key : ChunkKey, key.cacheId = id →
    s.fs.node (tmpAt s.root s.fs.cwd key) ≠ some .directory
  stores : ∀ key : ChunkKey, key.cacheId = id → Stores json s key (held key)

section Steps

variable {json : JsonText} {s : DiskBackend} {key k : ChunkKey} {id : String}
  {held : ChunkKey → Option KVPayload}

theorem directory_of_id (root : PurePath) (cwd : Location) (hid : key.cacheId = id) :
    directory root cwd key = (root.join id).resolve cwd := by
  rw [directory, hid]

theorem fileAt_inj_of_id (root : PurePath) (cwd : Location) (hid : key.cacheId = k.cacheId)
    (h : fileAt root cwd key = fileAt root cwd k) : key = k := by
  obtain ⟨hworker, hchunk⟩ := fileName_inj (List.cons.inj h).1
  cases key
  cases k
  simp_all

theorem inside_ne_directory (root : PurePath) (cwd : Location) (hid : k.cacheId = key.cacheId)
    (name : String) : name :: directory root cwd k ≠ directory root cwd key := by
  rw [directory_of_id root cwd hid, directory_of_id root cwd rfl]
  exact List.cons_ne_self _ _

theorem ne_of_suffix {dir l : Location} (h : l <:+ dir) (name : String) : l ≠ name :: dir := by
  rintro rfl
  have hlen := h.length_le
  rw [List.length_cons] at hlen
  omega

theorem file_of_stores {obj : Option KVPayload} (h : Stores json s key obj) :
    s.fs.node (fileAt s.root s.fs.cwd key) ≠ some .directory := by
  cases obj with
  | none =>
      intro hdir
      rw [h] at hdir
      cases hdir
  | some obj =>
      obtain ⟨blob, _, hfile⟩ := h
      intro hdir
      rw [hfile] at hdir
      cases hdir

theorem isSome_of_stores {obj : Option KVPayload} (h : Stores json s key obj) :
    (s.fs.node (fileAt s.root s.fs.cwd key)).isSome = obj.isSome := by
  cases obj with
  | none =>
      have hnone : s.fs.node (fileAt s.root s.fs.cwd key) = none := h
      rw [hnone]
      rfl
  | some obj =>
      obtain ⟨blob, _, hfile⟩ := h
      rw [hfile]
      rfl

theorem holding_of_step {s' : DiskBackend} {held' : ChunkKey → Option KVPayload}
    (hroot : s'.root = s.root) (hcwd : s'.fs.cwd = s.fs.cwd)
    (hclear : ∀ l, l <:+ (s.root.join id).resolve s.fs.cwd → ∀ content,
      s'.fs.node l ≠ some (.file content))
    (htmp : ∀ k : ChunkKey, k.cacheId = id →
      s'.fs.node (tmpAt s.root s.fs.cwd k) ≠ some .directory)
    (hstores : ∀ k : ChunkKey, k.cacheId = id → Stores json s' k (held' k)) :
    Holding json id held' s' := by
  refine ⟨?_, ?_, hstores⟩
  · rw [hroot, hcwd]
    exact hclear
  · rw [hroot, hcwd]
    exact htmp

theorem Holding.of_access (h : Holding json id held s) {s' : DiskBackend} {l : Location}
    (hroot : s'.root = s.root) (hfs : s'.fs = s.fs.access l) : Holding json id held s' := by
  have hnode : s'.fs.node = s.fs.node := by rw [hfs]; rfl
  have hcwd : s'.fs.cwd = s.fs.cwd := by rw [hfs]; rfl
  refine holding_of_step hroot hcwd ?_ ?_ fun k hk => ?_
  · rw [hnode]
    exact h.clear
  · rw [hnode]
    exact h.temporary
  · exact (stores_congr hroot hcwd (congrFun hnode _) _).mpr (h.stores k hk)

theorem makeStep_spec (hnul : (s.root.join id).hasNul = false) (h : Holding json id held s)
    (hid : key.cacheId = id) (obj : KVPayload) (pin : Bool) :
    (makeStep s key obj pin).1 = .directoryMade key obj pin ∧
      (makeStep s key obj pin).2.root = s.root ∧
      Holding json id held (makeStep s key obj pin).2 := by
  have hpath : (s.path key).hasNul = false := by rw [hasNul_path, hid, hnul]
  have hdir := directory_of_id s.root s.fs.cwd hid
  have hok : (s.fs.makeDirs (directory s.root s.fs.cwd key)).1 = .ok () := by
    apply FileSystem.makeDirs_ok
    rw [hdir]
    exact h.clear
  have hframe := FileSystem.frame_makeDirs s.fs (directory s.root s.fs.cwd key)
  have hmade := FileSystem.node_makeDirs_self hok
  obtain ⟨s', hstep, hroot, hfs⟩ : ∃ s', makeStep s key obj pin = (.directoryMade key obj pin, s') ∧
      s'.root = s.root ∧ s'.fs = (s.fs.makeDirs (directory s.root s.fs.cwd key)).2 := by
    refine ⟨{ s with fs := (s.fs.makeDirs (directory s.root s.fs.cwd key)).2 }, ?_, rfl, rfl⟩
    simp only [makeStep, hpath, Bool.false_eq_true, if_false, locate_parent, hok]
  rw [← hfs] at hframe hmade
  have hinside : ∀ {k : ChunkKey} (name : String), k.cacheId = id →
      s'.fs.node (name :: directory s.root s.fs.cwd k) =
        s.fs.node (name :: directory s.root s.fs.cwd k) := by
    intro k name hk
    apply hframe.node
    rw [directory_of_id _ _ hk, hdir]
    exact fun hsuffix => ne_of_suffix hsuffix name rfl
  rw [hstep]
  refine ⟨rfl, hroot, holding_of_step hroot hframe.cwd ?_ ?_ ?_⟩
  · intro l hl content
    have hnode : s'.fs.node l = some .directory := by
      rw [← hdir] at hl
      by_cases heq : l = directory s.root s.fs.cwd key
      · rw [heq, hmade]
      · exact FileSystem.node_of_suffix (by rw [hmade]; rfl) hl heq
    rw [hnode]
    exact fun hfile => by cases hfile
  · intro k hk
    rw [tmpAt, hinside _ hk]
    exact h.temporary k hk
  · intro k hk
    exact (stores_congr hroot hframe.cwd (hinside _ hk) _).mpr (h.stores k hk)

theorem writeStep_of_directory (h : Holding json id held s) (hid : key.cacheId = id)
    (hdir : s.fs.node (directory s.root s.fs.cwd key) = some .directory) (obj : KVPayload)
    (pin : Bool) :
    (∀ blob, packPayload json obj = .ok blob → (Json.obj obj.metadata).WellFormed →
        (writeStep json s key obj pin).1 = .returned .done ∧
          (writeStep json s key obj pin).2.root = s.root ∧
          Holding json id (Function.update held key (some obj))
            (writeStep json s key obj pin).2) ∧
      ∀ err, packPayload json obj = .error err →
        (writeStep json s key obj pin).1 = .raised err ∧
          (writeStep json s key obj pin).2.root = s.root ∧
          Holding json id held (writeStep json s key obj pin).2 := by
  have hcwd := (writeChunk_frame json s key obj).cwd
  obtain ⟨hwritten, hfailed⟩ := @writeChunk_spec json s key obj hdir (h.temporary key hid)
    (file_of_stores (h.stores key hid))
  have hclear : ∀ l, l <:+ (s.root.join id).resolve s.fs.cwd → ∀ name,
      l ≠ name :: directory s.root s.fs.cwd key := by
    intro l hl name
    rw [directory_of_id _ _ hid]
    exact ne_of_suffix hl name
  constructor
  · intro blob hpack hmeta
    obtain ⟨hok, hnode⟩ := hwritten blob hpack
    obtain ⟨s', hstep, hroot, hfs⟩ : ∃ s', writeStep json s key obj pin = (.returned .done, s') ∧
        s'.root = s.root ∧ s'.fs = (writeChunk json s (s.path key) obj).2 := by
      simp only [writeStep, hok]
      exact ⟨_, rfl, rfl, rfl⟩
    rw [← hfs] at hcwd hnode
    rw [hstep]
    refine ⟨rfl, hroot, holding_of_step hroot hcwd ?_ ?_ ?_⟩
    · intro l hl content
      rw [hnode, tmpAt, fileAt, if_neg (hclear l hl _), if_neg (hclear l hl _)]
      exact h.clear l hl content
    · intro k hk
      rw [hnode]
      split_ifs with htmp hfile
      · exact fun h => by cases h
      · exact fun h => by cases h
      · exact h.temporary k hk
    · intro k hk
      by_cases hself : k = key
      · rw [hself, Function.update_self]
        refine ⟨blob, ⟨hmeta, hpack⟩, ?_⟩
        rw [hroot, hcwd, hnode, if_neg (fileAt_ne_tmpAt _ _ _ _), if_pos rfl]
      · rw [Function.update_of_ne hself]
        apply (stores_congr hroot hcwd _ _).mpr (h.stores k hk)
        rw [hnode, if_neg (fileAt_ne_tmpAt _ _ _ _),
          if_neg fun heq => hself (fileAt_inj_of_id _ _ (hk.trans hid.symm) heq)]
  · intro err hpack
    obtain ⟨hraised, hnode⟩ := hfailed err hpack
    obtain ⟨s', hstep, hroot, hfs⟩ : ∃ s', writeStep json s key obj pin = (.raised err, s') ∧
        s'.root = s.root ∧ s'.fs = (writeChunk json s (s.path key) obj).2 := by
      simp only [writeStep, hraised]
      exact ⟨_, rfl, rfl, rfl⟩
    rw [← hfs] at hcwd hnode
    rw [hstep]
    refine ⟨rfl, hroot, holding_of_step hroot hcwd ?_ ?_ ?_⟩
    · intro l hl content
      rw [hnode, tmpAt, if_neg (hclear l hl _)]
      exact h.clear l hl content
    · intro k hk
      rw [hnode]
      split_ifs with htmp
      · exact fun h => by cases h
      · exact h.temporary k hk
    · intro k hk
      apply (stores_congr hroot hcwd _ _).mpr (h.stores k hk)
      rw [hnode, if_neg (fileAt_ne_tmpAt _ _ _ _)]

theorem writeStep_of_missing (h : Holding json id held s) (hid : key.cacheId = id)
    (hdir : s.fs.node (directory s.root s.fs.cwd key) ≠ some .directory) (obj : KVPayload)
    (pin : Bool) :
    (writeStep json s key obj pin).1 = .raised (.osError .fileNotFound) ∧
      (writeStep json s key obj pin).2.root = s.root ∧
      Holding json id held (writeStep json s key obj pin).2 := by
  have hmissing : s.fs.whyMissing (directory s.root s.fs.cwd key) = .fileNotFound := by
    apply FileSystem.whyMissing_of_no_file
    rw [directory_of_id _ _ hid]
    exact h.clear
  have hstep : writeStep json s key obj pin = (.raised (.osError .fileNotFound),
      { s with fs := s.fs.access (tmpAt s.root s.fs.cwd key) }) := by
    simp only [writeStep, writeChunk, locate_tmp, tmpAt, FileSystem.writeFile, dif_neg hdir,
      hmissing]
  rw [hstep]
  exact ⟨rfl, rfl, h.of_access rfl rfl⟩

theorem findStep_spec (hnul : (s.root.join id).hasNul = false) (h : Holding json id held s)
    (hid : key.cacheId = id) :
    (findStep s key).1 =
        (if (held key).isSome then .fileFound key else .returned (.object none)) ∧
      (findStep s key).2.root = s.root ∧ Holding json id held (findStep s key).2 := by
  have hpath : (s.path key).hasNul = false := by rw [hasNul_path, hid, hnul]
  have hfound : s.pathExists (s.path key) =
      ((held key).isSome, { s with fs := s.fs.access (fileAt s.root s.fs.cwd key) }) := by
    rw [DiskBackend.pathExists, hpath, if_neg Bool.false_ne_true, locate_path,
      isSome_of_stores (h.stores key hid)]
  have hsame : Holding json id held { s with fs := s.fs.access (fileAt s.root s.fs.cwd key) } :=
    h.of_access rfl rfl
  simp only [findStep, hfound]
  cases (held key).isSome with
  | true => exact ⟨rfl, rfl, hsame⟩
  | false => exact ⟨rfl, rfl, hsame⟩

theorem openStep_spec (hjson : json.Inverts) (h : Holding json id held s)
    (hid : key.cacheId = id) :
    (openStep json s key).1 = (match held key with
        | some obj => .returned (.object (some obj.fields))
        | none => .raised (.osError .fileNotFound)) ∧
      (openStep json s key).2.root = s.root ∧ Holding json id held (openStep json s key).2 := by
  have hstores := h.stores key hid
  have hsame : Holding json id held { s with fs := s.fs.access (fileAt s.root s.fs.cwd key) } :=
    h.of_access rfl rfl
  cases hheld : held key with
  | none =>
      rw [hheld] at hstores
      have hnone : s.fs.node (fileAt s.root s.fs.cwd key) = none := hstores
      have hmissing : s.fs.whyMissing (fileAt s.root s.fs.cwd key) = .fileNotFound := by
        apply FileSystem.whyMissing_of_no_file
        intro l hl content
        rw [fileAt, directory_of_id _ _ hid] at hl
        rcases List.suffix_cons_iff.mp hl with rfl | hl
        · rw [← directory_of_id s.root s.fs.cwd hid, ← fileAt, hnone]
          exact fun h => by cases h
        · exact h.clear l hl content
      simp only [openStep, locate_path, FileSystem.readFile, hnone, hmissing]
      exact ⟨trivial, trivial, hsame⟩
  | some obj =>
      rw [hheld] at hstores
      obtain ⟨blob, hframed, hfile⟩ := hstores
      have hunpack := unpackPayload_of_pack hjson hframed.1 hframed.2
      simp only [openStep, locate_path, FileSystem.readFile, hfile, hunpack]
      exact ⟨trivial, trivial, hsame⟩

/-- Removing a chunk leaves its directory as it was, or removes it too. -/
theorem node_directory_remove (hpath : (s.path key).hasNul = false) {content : List UInt8}
    (hfile : s.fs.node (fileAt s.root s.fs.cwd key) = some (.file content)) :
    (s.remove key).2.fs.node (directory s.root s.fs.cwd key) = none ∨
      (s.remove key).2.fs.node (directory s.root s.fs.cwd key) =
        s.fs.node (directory s.root s.fs.cwd key) := by
  have hasked : (s.fs.access (fileAt s.root s.fs.cwd key)).node
      (fileAt s.root s.fs.cwd key) = some (.file content) := hfile
  have hunlinked := (FileSystem.unlink_of_file hasked).2
  rw [remove_eq, hpath, if_neg Bool.false_ne_true]
  simp only [hfile]
  rw [FileSystem.node_rmdir]
  split_ifs
  · exact .inl rfl
  · right
    rw [hunlinked, if_neg (directory_ne_fileAt _ _ _)]
    rfl

theorem removeStep_spec (hnul : (s.root.join id).hasNul = false) (h : Holding json id held s)
    (hid : key.cacheId = id) :
    (removeStep s key).1 = .returned (.flag (held key).isSome) ∧
      (removeStep s key).2.root = s.root ∧
      Holding json id (Function.update held key none) (removeStep s key).2 := by
  have hpath : (s.path key).hasNul = false := by rw [hasNul_path, hid, hnul]
  have hstores := h.stores key hid
  cases hheld : held key with
  | none =>
      rw [hheld] at hstores
      have hnone : s.fs.node (fileAt s.root s.fs.cwd key) = none := hstores
      have hupdate : Function.update held key none = held := by
        rw [← hheld, Function.update_eq_self]
      simp only [removeStep, remove_eq, hpath, Bool.false_eq_true, if_false, hnone, hupdate]
      exact ⟨rfl, trivial, h.of_access rfl rfl⟩
  | some obj =>
      rw [hheld] at hstores
      obtain ⟨blob, _, hfile⟩ := hstores
      have hframe := remove_frame s key
      have hdir := node_directory_remove hpath hfile
      obtain ⟨s', hstep, hroot, hfs⟩ : ∃ s', removeStep s key = (.returned (.flag true), s') ∧
          s'.root = s.root ∧ s'.fs = (s.remove key).2.fs := by
        refine ⟨(s.remove key).2, ?_, root_remove, rfl⟩
        simp only [removeStep, remove_eq, hpath, Bool.false_eq_true, if_false, hfile]
      rw [← hfs] at hframe hdir
      have hgone : s'.fs.node (fileAt s.root s.fs.cwd key) = none := by
        rw [hfs]
        exact remove_of_file hpath hfile
      rw [hstep]
      refine ⟨rfl, hroot, holding_of_step hroot hframe.cwd ?_ ?_ ?_⟩
      · intro l hl content
        by_cases heq : l = directory s.root s.fs.cwd key
        · rw [heq]
          rcases hdir with hnone | hsame
          · rw [hnone]
            exact fun h => by cases h
          · rw [hsame, directory_of_id _ _ hid]
            exact h.clear _ (List.suffix_refl _) content
        · rw [hframe.node l]
          · exact h.clear l hl content
          · rintro (rfl | rfl)
            · exact heq rfl
            · rw [fileAt, directory_of_id _ _ hid] at hl
              exact ne_of_suffix hl _ rfl
      · intro k hk
        rw [hframe.node]
        · exact h.temporary k hk
        · rintro (heq | heq)
          · exact inside_ne_directory _ _ (hk.trans hid.symm) _ heq
          · exact fileAt_ne_tmpAt _ _ _ _ heq.symm
      · intro k hk
        by_cases hself : k = key
        · rw [hself, Function.update_self, Stores, hroot, hframe.cwd, hgone]
        · rw [Function.update_of_ne hself]
          apply (stores_congr hroot hframe.cwd _ _).mpr (h.stores k hk)
          apply hframe.node
          rintro (heq | heq)
          · exact inside_ne_directory _ _ (hk.trans hid.symm) _ heq
          · exact hself (fileAt_inj_of_id _ _ (hk.trans hid.symm) heq)

end Steps

/-! ## Runs -/

variable {ι : Type} [DecidableEq ι]

namespace World

def step (json : JsonText) (w : World ι) (i : ι) : World ι :=
  let next := diskStep json w.backend (w.phase i)
  { backend := next.2
    phase := Function.update w.phase i next.1
    writes := logged w.writes i (w.phase i) next.1 }

/-- The callers' calls, none of them started. -/
def init (s : DiskBackend) (calls : ι → Call) : World ι :=
  ⟨s, fun i => .ready (calls i), []⟩

/-- The callers as a machine: a step raises when it ends its call with an error. -/
def callers (json : JsonText) (ι : Type) [DecidableEq ι] : Machine (World ι) ι Raised Unit where
  step w i :=
    (match (w.step json i).phase i with
      | .raised err => .error err
      | _ => .ok (), w.step json i)

end World

/-! ## What the calls leave -/

/-- The key that a call is about. -/
def keyOf : Call → ChunkKey
  | .put key _ _ => key
  | .get key => key
  | .remove key => key

/-- What the puts and removes left under a key. -/
def held (calls : ι → Call) (initial : ChunkKey → Option KVPayload) (writes : List ι)
    (key : ChunkKey) : Option KVPayload :=
  writes.foldl (fun obj i => if Mutates key (calls i) then effect (calls i) obj else obj)
    (initial key)

/-- The object was there at first or was put by one of the calls. -/
def WasPut (calls : ι → Call) (initial : ChunkKey → Option KVPayload) (writes : List ι)
    (key : ChunkKey) (obj : KVPayload) : Prop :=
  initial key = some obj ∨ ∃ i ∈ writes, ∃ pin, calls i = .put key obj pin

/-- Where a call stands agrees with what it is and with what was written. -/
def Agrees (json : JsonText) (nul : Bool) (calls : ι → Call)
    (initial : ChunkKey → Option KVPayload) (writes : List ι) (i : ι) : Phase → Prop
  | .ready call => call = calls i
  | .directoryMade key obj pin => nul = false ∧ calls i = .put key obj pin
  | .fileFound key => nul = false ∧ calls i = .get key
  | .returned .done => nul = false ∧ i ∈ writes
  | .returned (.object payload) => ∀ p, payload = some p → ∃ key obj, calls i = .get key ∧
      p = obj.fields ∧ WasPut calls initial writes key obj
  | .returned (.flag _) => True
  | .raised err => err = .osError .fileNotFound ∨ ∃ key obj pin, calls i = .put key obj pin ∧
      (packPayload json obj = .error err ∨ nul = true ∧ err = .valueError "embedded null byte")

/-- The backend holds what the calls left, and each call stands where it can. -/
structure Inv (json : JsonText) (id : String) (root : PurePath) (calls : ι → Call)
    (initial : ChunkKey → Option KVPayload) (w : World ι) : Prop where
  root_eq : w.backend.root = root
  holding : (root.join id).hasNul = false → Holding json id (held calls initial w.writes) w.backend
  agrees : ∀ i, Agrees json (root.join id).hasNul calls initial w.writes i (w.phase i)

section Invariant

variable {json : JsonText} {id : String} {root : PurePath} {calls : ι → Call}
  {initial : ChunkKey → Option KVPayload} {writes : List ι} {w : World ι} {i : ι}

omit [DecidableEq ι] in
theorem held_snoc (key : ChunkKey) :
    held calls initial (writes ++ [i]) key =
      if Mutates key (calls i) then effect (calls i) (held calls initial writes key)
      else held calls initial writes key := by
  rw [held, List.foldl_append]
  rfl

omit [DecidableEq ι] in
theorem held_snoc_put {key : ChunkKey} {obj : KVPayload} {pin : Bool}
    (hi : calls i = .put key obj pin) :
    held calls initial (writes ++ [i]) =
      Function.update (held calls initial writes) key (some obj) := by
  funext k
  rw [held_snoc, hi, Function.update_apply]
  exact if_congr eq_comm rfl rfl

omit [DecidableEq ι] in
theorem held_snoc_remove {key : ChunkKey} (hi : calls i = .remove key) :
    held calls initial (writes ++ [i]) =
      Function.update (held calls initial writes) key none := by
  funext k
  rw [held_snoc, hi, Function.update_apply]
  exact if_congr eq_comm rfl rfl

omit [DecidableEq ι] in
theorem held_snoc_get {key : ChunkKey} (hi : calls i = .get key) :
    held calls initial (writes ++ [i]) = held calls initial writes := by
  funext k
  rw [held_snoc, hi]
  exact if_neg not_false

omit [DecidableEq ι] in
theorem agrees_mono {nul : Bool} {more : List ι} {p : Phase}
    (h : Agrees json nul calls initial writes i p) :
    Agrees json nul calls initial (writes ++ more) i p := by
  cases p with
  | returned reply =>
      cases reply with
      | done => exact ⟨h.1, List.mem_append_left _ h.2⟩
      | object payload =>
          intro p hp
          obtain ⟨key, obj, hi, hfields, hput⟩ := h p hp
          refine ⟨key, obj, hi, hfields, hput.imp_right ?_⟩
          rintro ⟨j, hj, hput⟩
          exact ⟨j, List.mem_append_left _ hj, hput⟩
      | flag value => trivial
  | ready call => exact h
  | directoryMade key obj pin => exact h
  | fileFound key => exact h
  | raised err => exact h

omit [DecidableEq ι] in
theorem wasPut_of_held {key : ChunkKey} {obj : KVPayload}
    (h : held calls initial writes key = some obj) : WasPut calls initial writes key obj := by
  induction writes using List.reverseRecOn with
  | nil => exact .inl h
  | append_singleton writes i ih =>
      have hbefore : WasPut calls initial writes key obj →
          WasPut calls initial (writes ++ [i]) key obj := by
        refine Or.imp_right ?_
        rintro ⟨j, hj, hput⟩
        exact ⟨j, List.mem_append_left _ hj, hput⟩
      cases hi : calls i with
      | put k o pin =>
          rw [held_snoc_put hi] at h
          by_cases hk : key = k
          · rw [hk, Function.update_self] at h
            refine .inr ⟨i, List.mem_append_right _ (List.mem_singleton.mpr rfl), pin, ?_⟩
            rw [hi, hk, Option.some.inj h]
          · rw [Function.update_of_ne hk] at h
            exact hbefore (ih h)
      | remove k =>
          rw [held_snoc_remove hi] at h
          by_cases hk : key = k
          · rw [hk, Function.update_self] at h
            cases h
          · rw [Function.update_of_ne hk] at h
            exact hbefore (ih h)
      | get k =>
          rw [held_snoc_get hi] at h
          exact hbefore (ih h)

/-- What one step does for the caller that takes it. -/
structure Outcome (json : JsonText) (id : String) (root : PurePath) (calls : ι → Call)
    (initial : ChunkKey → Option KVPayload) (writes : List ι) (i : ι)
    (next : Phase × DiskBackend) : Prop where
  root_eq : next.2.root = root
  holding : (root.join id).hasNul = false → Holding json id (held calls initial writes) next.2
  agrees : Agrees json (root.join id).hasNul calls initial writes i next.1

omit [DecidableEq ι] in
theorem cacheId_of_call (hcalls : ∀ i, (keyOf (calls i)).cacheId = id) {call : Call}
    (hcall : calls i = call) : (keyOf call).cacheId = id :=
  hcall ▸ hcalls i

omit [DecidableEq ι] in
theorem outcome_ready (hcalls : ∀ i, (keyOf (calls i)).cacheId = id)
    (h : Inv json id root calls initial w) (hi : w.phase i = .ready (calls i)) :
    Outcome json id root calls initial
      (logged w.writes i (w.phase i) (diskStep json w.backend (w.phase i)).1) i
      (diskStep json w.backend (w.phase i)) := by
  have hroot := h.root_eq
  rw [hi]
  cases hcall : calls i with
  | put key obj pin =>
      have hid : key.cacheId = id := cacheId_of_call hcalls hcall
      have hlogged : ∀ p, logged w.writes i (.ready (.put key obj pin)) p = w.writes :=
        fun p => rfl
      simp only [diskStep, hlogged]
      cases hnul : (root.join id).hasNul with
      | true =>
          have hpath : (w.backend.path key).hasNul = true := by
            rw [hasNul_path, hroot, hid, hnul]
          simp only [makeStep, hpath, if_true]
          refine ⟨hroot, ?_, .inr ⟨key, obj, pin, hcall, .inr ⟨hnul, rfl⟩⟩⟩
          rw [hnul]
          exact fun h => by cases h
      | false =>
          obtain ⟨hphase, hroot', hholding⟩ :=
            makeStep_spec (hroot ▸ hnul) (h.holding hnul) hid obj pin
          refine ⟨hroot'.trans hroot, fun _ => hholding, ?_⟩
          rw [hphase]
          exact ⟨hnul, hcall⟩
  | get key =>
      have hid : key.cacheId = id := cacheId_of_call hcalls hcall
      have hlogged : ∀ p, logged w.writes i (.ready (.get key)) p = w.writes := fun p => rfl
      simp only [diskStep, hlogged]
      cases hnul : (root.join id).hasNul with
      | true =>
          have hpath : (w.backend.path key).hasNul = true := by
            rw [hasNul_path, hroot, hid, hnul]
          simp only [findStep, DiskBackend.pathExists, hpath, if_true, Bool.false_eq_true, if_false]
          refine ⟨hroot, ?_, fun p hp => by cases hp⟩
          rw [hnul]
          exact fun h => by cases h
      | false =>
          obtain ⟨hphase, hroot', hholding⟩ :=
            findStep_spec (hroot ▸ hnul) (h.holding hnul) hid
          refine ⟨hroot'.trans hroot, fun _ => hholding, ?_⟩
          rw [hphase]
          split_ifs
          · exact ⟨hnul, hcall⟩
          · exact fun p hp => by cases hp
  | remove key =>
      have hid : key.cacheId = id := cacheId_of_call hcalls hcall
      have hlogged : ∀ reply, logged w.writes i (.ready (.remove key)) (.returned reply) =
          w.writes ++ [i] := fun reply => rfl
      simp only [diskStep]
      cases hnul : (root.join id).hasNul with
      | true =>
          have hpath : (w.backend.path key).hasNul = true := by
            rw [hasNul_path, hroot, hid, hnul]
          simp only [removeStep, remove_eq, hpath, if_true, hlogged]
          refine ⟨hroot, ?_, trivial⟩
          rw [hnul]
          exact fun h => by cases h
      | false =>
          obtain ⟨hphase, hroot', hholding⟩ :=
            removeStep_spec (hroot ▸ hnul) (h.holding hnul) hid
          rw [hphase, hlogged]
          refine ⟨hroot'.trans hroot, fun _ => ?_, ?_⟩
          · rw [held_snoc_remove hcall]
            exact hholding
          · rw [hphase]
            trivial

omit [DecidableEq ι] in
theorem outcome_directoryMade (hcalls : ∀ i, (keyOf (calls i)).cacheId = id)
    (hmeta : ∀ i key obj pin, calls i = .put key obj pin → (Json.obj obj.metadata).WellFormed)
    (h : Inv json id root calls initial w) {key : ChunkKey} {obj : KVPayload} {pin : Bool}
    (hi : w.phase i = .directoryMade key obj pin) :
    Outcome json id root calls initial
      (logged w.writes i (w.phase i) (diskStep json w.backend (w.phase i)).1) i
      (diskStep json w.backend (w.phase i)) := by
  have hagrees := h.agrees i
  rw [hi] at hagrees ⊢
  obtain ⟨hnul, hcall⟩ := hagrees
  have hid : key.cacheId = id := cacheId_of_call hcalls hcall
  have hholding := h.holding hnul
  have hraised : ∀ err, logged w.writes i (.directoryMade key obj pin) (.raised err) = w.writes :=
    fun err => rfl
  simp only [diskStep]
  by_cases hdir : w.backend.fs.node (directory w.backend.root w.backend.fs.cwd key) =
      some .directory
  · obtain ⟨hwritten, hfailed⟩ := writeStep_of_directory hholding hid hdir obj pin
    cases hpack : packPayload json obj with
    | ok blob =>
        obtain ⟨hphase, hroot, hnext⟩ := hwritten blob hpack (hmeta i key obj pin hcall)
        have hlogged : logged w.writes i (.directoryMade key obj pin) (.returned .done) =
            w.writes ++ [i] := rfl
        rw [hphase, hlogged]
        refine ⟨hroot.trans h.root_eq, fun _ => ?_, ?_⟩
        · rw [held_snoc_put hcall]
          exact hnext
        · rw [hphase]
          exact ⟨hnul, List.mem_append_right _ (List.mem_singleton.mpr rfl)⟩
    | error err =>
        obtain ⟨hphase, hroot, hnext⟩ := hfailed err hpack
        rw [hphase, hraised]
        refine ⟨hroot.trans h.root_eq, fun _ => hnext, ?_⟩
        rw [hphase]
        exact .inr ⟨key, obj, pin, hcall, .inl hpack⟩
  · obtain ⟨hphase, hroot, hnext⟩ := writeStep_of_missing hholding hid hdir obj pin
    rw [hphase, hraised]
    refine ⟨hroot.trans h.root_eq, fun _ => hnext, ?_⟩
    rw [hphase]
    exact .inl rfl

omit [DecidableEq ι] in
theorem outcome_fileFound (hjson : json.Inverts)
    (hcalls : ∀ i, (keyOf (calls i)).cacheId = id) (h : Inv json id root calls initial w)
    {key : ChunkKey} (hi : w.phase i = .fileFound key) :
    Outcome json id root calls initial
      (logged w.writes i (w.phase i) (diskStep json w.backend (w.phase i)).1) i
      (diskStep json w.backend (w.phase i)) := by
  have hagrees := h.agrees i
  rw [hi] at hagrees ⊢
  obtain ⟨hnul, hcall⟩ := hagrees
  have hid : key.cacheId = id := cacheId_of_call hcalls hcall
  have hlogged : ∀ p, logged w.writes i (.fileFound key) p = w.writes := fun p => rfl
  obtain ⟨hphase, hroot, hnext⟩ := openStep_spec hjson (h.holding hnul) hid
  simp only [diskStep, hlogged]
  refine ⟨hroot.trans h.root_eq, fun _ => hnext, ?_⟩
  rw [hphase]
  cases hheld : held calls initial w.writes key with
  | none => exact .inl rfl
  | some obj =>
      intro p hp
      exact ⟨key, obj, hcall, (Option.some.inj hp).symm, wasPut_of_held hheld⟩

theorem inv_step (hjson : json.Inverts) (hcalls : ∀ i, (keyOf (calls i)).cacheId = id)
    (hmeta : ∀ i key obj pin, calls i = .put key obj pin → (Json.obj obj.metadata).WellFormed)
    (h : Inv json id root calls initial w) (i : ι) :
    Inv json id root calls initial (w.step json i) := by
  -- a call that has ended does not move
  have hwrites : (∃ reply, w.phase i = .returned reply) ∨ (∃ err, w.phase i = .raised err) →
      (w.step json i).writes = w.writes := by
    rintro (⟨_, hi⟩ | ⟨_, hi⟩)
    all_goals
      simp only [World.step, hi]
      rfl
  have houtcome : Outcome json id root calls initial (w.step json i).writes i
      (diskStep json w.backend (w.phase i)) := by
    have hagrees := h.agrees i
    cases hi : w.phase i with
    | ready call =>
        rw [hi] at hagrees
        have hready : w.phase i = .ready (calls i) := hi.trans (congrArg Phase.ready hagrees)
        rw [← hi]
        exact outcome_ready hcalls h hready
    | directoryMade key obj pin =>
        rw [← hi]
        exact outcome_directoryMade hcalls hmeta h hi
    | fileFound key =>
        rw [← hi]
        exact outcome_fileFound hjson hcalls h hi
    | returned reply =>
        rw [hi] at hagrees
        rw [hwrites (.inl ⟨reply, hi⟩)]
        exact ⟨h.root_eq, h.holding, hagrees⟩
    | raised err =>
        rw [hi] at hagrees
        rw [hwrites (.inr ⟨err, hi⟩)]
        exact ⟨h.root_eq, h.holding, hagrees⟩
  refine ⟨houtcome.root_eq, houtcome.holding, ?_⟩
  intro j
  by_cases hj : j = i
  · rw [hj]
    have hphase : (w.step json i).phase i = (diskStep json w.backend (w.phase i)).1 :=
      Function.update_self ..
    rw [hphase]
    exact houtcome.agrees
  · have hphase : (w.step json i).phase j = w.phase j := Function.update_of_ne hj ..
    have hwrites : ∃ more, (w.step json i).writes = w.writes ++ more := by
      simp only [World.step, logged]
      split_ifs
      · exact ⟨_, rfl⟩
      · exact ⟨[], (List.append_nil _).symm⟩
    obtain ⟨more, hmore⟩ := hwrites
    rw [hphase, hmore]
    exact agrees_mono (h.agrees j)

/-- The step does not open a path that has gone since the first step of its call:
a put that is to write finds the directory of the cache, and a get that is to
open its file finds that. -/
def InPlace (w : World ι) (i : ι) : Prop :=
  match w.phase i with
  | .directoryMade key _ _ =>
      w.backend.fs.node (directory w.backend.root w.backend.fs.cwd key) = some .directory
  | .fileFound key => (w.backend.fs.node (fileAt w.backend.root w.backend.fs.cwd key)).isSome
  | _ => True

/-- No call was told that a file is not there. -/
def NoneMissing (w : World ι) : Prop :=
  ∀ i, w.phase i ≠ .raised (.osError .fileNotFound)

theorem packPayload_error {obj : KVPayload} {err : Raised}
    (h : packPayload json obj = .error err) : err ≠ .osError .fileNotFound := by
  rw [packPayload] at h
  cases hlength : LittleEndian.toBytesUnsigned 4 (headerBytes json obj).length with
  | none =>
      rw [hlength] at h
      rw [← Except.error.inj h]
      exact fun h => by cases h
  | some length =>
      rw [hlength] at h
      cases h

omit [DecidableEq ι] in
theorem ready_not_missing (hcalls : ∀ i, (keyOf (calls i)).cacheId = id)
    (h : Inv json id root calls initial w) (i : ι) :
    (diskStep json w.backend (.ready (calls i))).1 ≠ .raised (.osError .fileNotFound) := by
  have hroot := h.root_eq
  cases hcall : calls i with
  | put key obj pin =>
      have hid : key.cacheId = id := cacheId_of_call hcalls hcall
      simp only [diskStep]
      cases hnul : (root.join id).hasNul with
      | true =>
          have hpath : (w.backend.path key).hasNul = true := by
            rw [hasNul_path, hroot, hid, hnul]
          simp only [makeStep, hpath, if_true]
          exact fun h => by cases h
      | false =>
          rw [(makeStep_spec (hroot ▸ hnul) (h.holding hnul) hid obj pin).1]
          exact fun h => by cases h
  | get key =>
      simp only [diskStep, findStep]
      split_ifs
      · exact fun h => by cases h
      · exact fun h => by cases h
  | remove key =>
      have hid : key.cacheId = id := cacheId_of_call hcalls hcall
      simp only [diskStep]
      cases hnul : (root.join id).hasNul with
      | true =>
          have hpath : (w.backend.path key).hasNul = true := by
            rw [hasNul_path, hroot, hid, hnul]
          simp only [removeStep, remove_eq, hpath, if_true]
          exact fun h => by cases h
      | false =>
          rw [(removeStep_spec (hroot ▸ hnul) (h.holding hnul) hid).1]
          exact fun h => by cases h

omit [DecidableEq ι] in
/-- A step meets a missing file exactly where a path has gone. -/
theorem missing_iff (hjson : json.Inverts) (hcalls : ∀ i, (keyOf (calls i)).cacheId = id)
    (hmeta : ∀ i key obj pin, calls i = .put key obj pin → (Json.obj obj.metadata).WellFormed)
    (h : Inv json id root calls initial w) (hnone : w.phase i ≠ .raised (.osError .fileNotFound)) :
    (diskStep json w.backend (w.phase i)).1 = .raised (.osError .fileNotFound) ↔
      ¬InPlace w i := by
  have hagrees := h.agrees i
  unfold InPlace
  cases hi : w.phase i with
  | ready call =>
      rw [hi] at hagrees
      rw [show call = calls i from hagrees]
      exact iff_of_false (ready_not_missing hcalls h i) (not_not_intro trivial)
  | directoryMade key obj pin =>
      rw [hi] at hagrees
      obtain ⟨hnul, hcall⟩ := hagrees
      have hid : key.cacheId = id := cacheId_of_call hcalls hcall
      simp only [diskStep]
      by_cases hdir : w.backend.fs.node (directory w.backend.root w.backend.fs.cwd key) =
          some .directory
      · obtain ⟨hwritten, hfailed⟩ := writeStep_of_directory (h.holding hnul) hid hdir obj pin
        apply iff_of_false _ (not_not_intro hdir)
        cases hpack : packPayload json obj with
        | ok blob =>
            rw [(hwritten blob hpack (hmeta i key obj pin hcall)).1]
            exact fun h => by cases h
        | error err =>
            rw [(hfailed err hpack).1]
            exact fun h => packPayload_error hpack (Phase.raised.inj h)
      · rw [(writeStep_of_missing (h.holding hnul) hid hdir obj pin).1]
        exact iff_of_true rfl hdir
  | fileFound key =>
      rw [hi] at hagrees
      obtain ⟨hnul, hcall⟩ := hagrees
      have hid : key.cacheId = id := cacheId_of_call hcalls hcall
      have hholding := h.holding hnul
      simp only [diskStep]
      rw [(openStep_spec hjson hholding hid).1, isSome_of_stores (hholding.stores key hid)]
      cases held calls initial w.writes key with
      | none => simp
      | some obj => simp
  | returned reply => exact iff_of_false (fun h => by cases h) (not_not_intro trivial)
  | raised err =>
      rw [hi] at hnone
      exact iff_of_false hnone (not_not_intro trivial)

/-- One step keeps all calls from missing a file exactly when its path is in
place. -/
theorem noneMissing_step_iff (hjson : json.Inverts)
    (hcalls : ∀ i, (keyOf (calls i)).cacheId = id)
    (hmeta : ∀ i key obj pin, calls i = .put key obj pin → (Json.obj obj.metadata).WellFormed)
    (h : Inv json id root calls initial w) (hnone : NoneMissing w) (i : ι) :
    NoneMissing (w.step json i) ↔ InPlace w i := by
  have hself : (w.step json i).phase i = (diskStep json w.backend (w.phase i)).1 :=
    Function.update_self ..
  have hmissing := missing_iff hjson hcalls hmeta h (hnone i)
  constructor
  · intro hnext
    by_contra hplace
    exact hnext i (hself.trans (hmissing.mpr hplace))
  · intro hplace j
    by_cases hj : j = i
    · rw [hj, hself]
      exact fun hraised => hmissing.mp hraised hplace
    · have hother : (w.step json i).phase j = w.phase j := Function.update_of_ne hj ..
      rw [hother]
      exact hnone j

omit [DecidableEq ι] in
theorem held_of_no_remove {key : ChunkKey} {obj : KVPayload} {pin : Bool}
    (hi : calls i = .put key obj pin) (before : List ι) {after : List ι}
    (hremove : ∀ j ∈ after, calls j ≠ .remove key) :
    ∃ j ∈ i :: after, ∃ obj' pin', calls j = .put key obj' pin' ∧
      held calls initial (before ++ i :: after) key = some obj' ∧
      ((∀ k ∈ after, ∀ o p, calls k ≠ .put key o p) → obj' = obj) := by
  induction after using List.reverseRecOn with
  | nil =>
      refine ⟨i, List.mem_singleton.mpr rfl, obj, pin, hi, ?_, fun _ => rfl⟩
      rw [held_snoc_put hi, Function.update_self]
  | append_singleton after j ih =>
      have hsplit : before ++ i :: (after ++ [j]) = (before ++ i :: after) ++ [j] := by simp
      have hlater : j ∈ i :: (after ++ [j]) := by simp
      obtain ⟨k, hk, obj', pin', hput, hheld, honly⟩ :=
        ih fun k hk => hremove k (List.mem_append_left _ hk)
      have hk' : k ∈ i :: (after ++ [j]) := by
        rcases List.mem_cons.mp hk with rfl | hk
        · exact List.mem_cons_self ..
        · exact List.mem_cons_of_mem _ (List.mem_append_left _ hk)
      have hkept : held calls initial ((before ++ i :: after) ++ [j]) key =
          held calls initial (before ++ i :: after) key →
          ∃ k ∈ i :: (after ++ [j]), ∃ obj' pin', calls k = .put key obj' pin' ∧
            held calls initial (before ++ i :: (after ++ [j])) key = some obj' ∧
            ((∀ k ∈ after ++ [j], ∀ o p, calls k ≠ .put key o p) → obj' = obj) := by
        intro hsame
        refine ⟨k, hk', obj', pin', hput, ?_, fun hnone => honly fun k hk =>
          hnone k (List.mem_append_left _ hk)⟩
        rw [hsplit, hsame, hheld]
      cases hj : calls j with
      | put key' obj₁ pin₁ =>
          by_cases hkey : key = key'
          · refine ⟨j, hlater, obj₁, pin₁, hkey ▸ hj, ?_, ?_⟩
            · rw [hsplit, held_snoc_put hj, hkey, Function.update_self]
            · intro hnone
              exact absurd (hkey ▸ hj) (hnone j (List.mem_append_right _
                (List.mem_singleton.mpr rfl)) obj₁ pin₁)
          · apply hkept
            rw [held_snoc_put hj, Function.update_of_ne hkey]
      | remove key' =>
          have hkey : key ≠ key' := by
            rintro rfl
            exact hremove j (List.mem_append_right _ (List.mem_singleton.mpr rfl)) hj
          apply hkept
          rw [held_snoc_remove hj, Function.update_of_ne hkey]
      | get key' =>
          apply hkept
          rw [held_snoc_get hj]

/-- No call is told that a file is not there; only a put raises, for an object or a
path that cannot be written.  A get returns nothing or an object that was put for
its key.  A put that returned and that no remove of its key follows leaves an
object stored, its own if no put of the key follows either. -/
structure Sound (json : JsonText) (calls : ι → Call) (initial : ChunkKey → Option KVPayload)
    (w : World ι) : Prop where
  noneMissing : NoneMissing w
  got : ∀ i key payload, calls i = .get key → w.phase i = .returned (.object (some payload)) →
    ∃ obj, payload = obj.fields ∧ WasPut calls initial w.writes key obj
  refused : ∀ i err, w.phase i = .raised err → ∃ key obj pin, calls i = .put key obj pin ∧
    (packPayload json obj = .error err ∨ (w.backend.path key).hasNul = true)
  kept : ∀ i key obj pin, calls i = .put key obj pin → w.phase i = .returned .done →
    ∃ before after, w.writes = before ++ i :: after ∧
      ((∀ j ∈ after, calls j ≠ .remove key) →
        ∃ j ∈ i :: after, ∃ obj' pin', calls j = .put key obj' pin' ∧
          (w.backend.get json key).1 = .ok (some obj'.fields) ∧
          ((∀ k ∈ after, ∀ o p, calls k ≠ .put key o p) → obj' = obj))

omit [DecidableEq ι] in
theorem sound_iff (hjson : json.Inverts) (hcalls : ∀ i, (keyOf (calls i)).cacheId = id)
    (h : Inv json id root calls initial w) : Sound json calls initial w ↔ NoneMissing w := by
  refine ⟨fun hsound => hsound.noneMissing, fun hnone => ⟨hnone, ?_, ?_, ?_⟩⟩
  · intro i key payload hcall hi
    have hagrees := h.agrees i
    rw [hi] at hagrees
    obtain ⟨key', obj, hcall', hfields, hput⟩ := hagrees payload rfl
    obtain rfl : key = key' := Call.get.inj (hcall.symm.trans hcall')
    exact ⟨obj, hfields, hput⟩
  · intro i err hi
    have hagrees := h.agrees i
    rw [hi] at hagrees
    rcases hagrees with rfl | ⟨key, obj, pin, hcall, hpack | ⟨hnul, _⟩⟩
    · exact absurd hi (hnone i)
    · exact ⟨key, obj, pin, hcall, .inl hpack⟩
    · refine ⟨key, obj, pin, hcall, .inr ?_⟩
      have hid : key.cacheId = id := cacheId_of_call hcalls hcall
      rw [hasNul_path, h.root_eq, hid, hnul]
  · intro i key obj pin hcall hi
    have hagrees := h.agrees i
    rw [hi] at hagrees
    obtain ⟨hnul, hmem⟩ := hagrees
    have hid : key.cacheId = id := cacheId_of_call hcalls hcall
    obtain ⟨before, after, hsplit⟩ := List.append_of_mem hmem
    refine ⟨before, after, hsplit, fun hremove => ?_⟩
    obtain ⟨j, hj, obj', pin', hput, hheld, honly⟩ := held_of_no_remove hcall before hremove
    refine ⟨j, hj, obj', pin', hput, ?_, honly⟩
    have hstores := (h.holding hnul).stores key hid
    rw [hsplit, hheld] at hstores
    obtain ⟨blob, hframed, hfile⟩ := hstores
    have hpath : (w.backend.path key).hasNul = false := by
      rw [hasNul_path, h.root_eq, hid, hnul]
    rw [get_fst, hpath, hfile]
    simp only [Bool.false_eq_true, if_false, unpackPayload_of_pack hjson hframed.1 hframed.2]
    rfl

end Invariant

/-- In every interleaving of calls on one cache, all is well in all states exactly
when every second step of a call finds its path in place. -/
theorem interleaved_iff {json : JsonText} (hjson : json.Inverts) {id : String} {calls : ι → Call}
    (hcalls : ∀ i, (keyOf (calls i)).cacheId = id)
    (hmeta : ∀ i key obj pin, calls i = .put key obj pin → (Json.obj obj.metadata).WellFormed)
    {initial : ChunkKey → Option KVPayload} {s : DiskBackend} (hstart : Holding json id initial s)
    (schedule : List ι) :
    (World.callers json ι).Always (Sound json calls initial) (World.init s calls) schedule ↔
      (World.callers json ι).StepsMeet InPlace (World.init s calls) schedule := by
  have hinit : Inv json id s.root calls initial (World.init s calls) :=
    ⟨rfl, fun _ => hstart, fun i => rfl⟩
  have hsound : Sound json calls initial (World.init s calls) :=
    (sound_iff hjson hcalls hinit).mpr fun i h => by cases h
  apply Machine.always_iff_stepsMeet (World.callers json ι) (R := fun _ _ => True)
    (J := Inv json id s.root calls initial) ?_ ?_ hinit hsound (Machine.stepsMeet_true ..)
  · exact fun w i h _ => inv_step hjson hcalls hmeta h i
  · intro w i h _ hw
    have hnext := inv_step hjson hcalls hmeta h i
    exact (sound_iff hjson hcalls hnext).trans
      (noneMissing_step_iff hjson hcalls hmeta h hw.noneMissing i)

theorem holding_of_tidy {json : JsonText} {s : DiskBackend} (ht : Tidy json s) {id : String}
    (hsafe : SafeId id) : ∃ initial, Holding json id initial s := by
  have hstored : ∀ key : ChunkKey, ∃ obj, key.cacheId = id → Stores json s key obj := by
    intro key
    cases hnode : s.fs.node (fileAt s.root s.fs.cwd key) with
    | none => exact ⟨none, fun _ => hnode⟩
    | some n =>
        by_cases hid : key.cacheId = id
        · obtain ⟨obj, blob, hframed, rfl⟩ := chunk_of_node ht (hid ▸ hsafe) hnode
          exact ⟨some obj, fun _ => ⟨blob, hframed, hnode⟩⟩
        · exact ⟨none, fun h => absurd h hid⟩
  choose initial hinitial using hstored
  refine ⟨initial, ?_, ?_, hinitial⟩
  · intro l hl content
    rw [PurePath.resolve_join_plain s.root hsafe.plain] at hl
    rcases List.suffix_cons_iff.mp hl with rfl | hl
    · exact ht.directories id content
    · by_cases heq : l = rootLocation s
      · rw [heq, ht.root]
        exact fun h => by cases h
      · have hroot : (s.fs.node (rootLocation s)).isSome := by
          rw [ht.root]
          rfl
        rw [FileSystem.node_of_suffix hroot hl heq]
        exact fun h => by cases h
  · intro key hid
    rw [tmpAt_eq (hid ▸ hsafe)]
    exact node_ne_directory ht _ _

/-! ### Runs that fail -/

def chunkKey (index : Nat) : ChunkKey :=
  ⟨"kb", index, 0⟩

/-- A chunk that is put and removed, a put of another chunk and a get of the first. -/
def sampleCalls : Fin 4 → Call :=
  ![.put (chunkKey 0) samplePayload false, .remove (chunkKey 0),
    .put (chunkKey 1) samplePayload false, .get (chunkKey 0)]

theorem sampleStore_node {l : Location} {n : Node} (h : sampleStore.fs.node l = some n) :
    l <:+ ["store"] ∧ n = .directory := by
  have hnone : ∀ l, l ≠ [] → ({} : FileSystem).node l = none := by
    intro l hl
    cases l with
    | nil => exact absurd rfl hl
    | cons name l => rfl
  by_cases hl : l <:+ ["store"]
  · refine ⟨hl, ?_⟩
    rcases List.suffix_cons_iff.mp hl with rfl | hl
    · exact (Option.some.inj h).symm
    · obtain rfl := List.suffix_nil.mp hl
      exact (Option.some.inj h).symm
  · have hframe := (FileSystem.frame_makeDirs ({} : FileSystem) ["store"]).node l hl
    have hempty : l ≠ [] := by
      rintro rfl
      exact hl (List.nil_suffix ..)
    have hnode : sampleStore.fs.node l = none := hframe.trans (hnone l hempty)
    rw [hnode] at h
    cases h

theorem sampleStore_holding : Holding sampleJson "kb" (fun _ => none) sampleStore := by
  have hlen : ((sampleStore.root.join "kb").resolve sampleStore.fs.cwd).length = 2 := by
    decide +kernel
  have hnot : ∀ (name : String) (key : ChunkKey), key.cacheId = "kb" →
      ¬name :: directory sampleStore.root sampleStore.fs.cwd key <:+ ["store"] := by
    intro name key hid hsuffix
    have hle := hsuffix.length_le
    rw [directory_of_id _ _ hid, List.length_cons, hlen] at hle
    exact absurd hle (by decide)
  refine ⟨?_, ?_, ?_⟩
  · intro l _ content hfile
    cases (sampleStore_node hfile).2
  · intro key hid hdir
    exact hnot _ key hid (sampleStore_node hdir).1
  · intro key hid
    cases hnode : sampleStore.fs.node (fileAt sampleStore.root sampleStore.fs.cwd key) with
    | none => exact hnode
    | some n => exact absurd (sampleStore_node hnode).1 (hnot _ key hid)

theorem sampleCalls_id : ∀ i, (keyOf (sampleCalls i)).cacheId = "kb" := by
  decide

theorem sampleCalls_object : ∀ i key obj pin, sampleCalls i = .put key obj pin →
    obj = samplePayload
  | 0, _, _, _, h => by
      cases h
      rfl
  | 1, _, _, _, h => by cases h
  | 2, _, _, _, h => by
      cases h
      rfl
  | 3, _, _, _, h => by cases h

theorem sampleCalls_metadata (i : Fin 4) (key : ChunkKey) (obj : KVPayload) (pin : Bool)
    (h : sampleCalls i = .put key obj pin) : (Json.obj obj.metadata).WellFormed := by
  rw [sampleCalls_object i key obj pin h]
  exact wellFormed_samplePayload

theorem interleaved_iff_sample :
    (World.callers sampleJson (Fin 4)).Always (Sound sampleJson sampleCalls fun _ => none)
        (World.init sampleStore sampleCalls) [0, 0, 3, 2, 3, 2, 1] ↔
      (World.callers sampleJson (Fin 4)).StepsMeet InPlace
        (World.init sampleStore sampleCalls) [0, 0, 3, 2, 3, 2, 1] :=
  interleaved_iff sampleJson_inverts sampleCalls_id sampleCalls_metadata sampleStore_holding _

/-- Removing the last chunk of the cache takes away the directory that a put has
made, and the file that a get has found. -/
theorem removed_between_steps :
    ((World.callers sampleJson (Fin 4)).exec (World.init sampleStore sampleCalls)
        [0, 0, 2, 1, 2]).phase 2 = .raised (.osError .fileNotFound) ∧
      ((World.callers sampleJson (Fin 4)).exec (World.init sampleStore sampleCalls)
        [0, 0, 3, 1, 3]).phase 3 = .raised (.osError .fileNotFound) ∧
      Holding sampleJson "kb" (fun _ => none) sampleStore :=
  ⟨by decide +kernel, by decide +kernel, sampleStore_holding⟩

end LlmCache.Store.DiskInterleaving
