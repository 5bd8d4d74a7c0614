import LlmCache.Store.Disk

/-!
# Which files a key owns

The calls for one key make the directories on the way to its file, write and
move its temporary file, and may remove its file and its directory.  So two
keys stay out of each other's way exactly when neither file is the other one or
on the way to it, and they stay in the root exactly when their directories do.
-/

namespace LlmCache.Store.DiskIsolation

open Errors Lib Payload LlmCache.Types DiskBackend

/-! ## Names -/

/-- The name of the temporary file. -/
def tmpName (key : ChunkKey) : String :=
  String.ofList ((toString key.workerId).toList ++ '_' :: (toString key.chunkIndex).toList) ++
    ".tmp"

theorem toList_fileName (key : ChunkKey) :
    (fileName key).toList =
      ((toString key.workerId).toList ++ '_' :: (toString key.chunkIndex).toList) ++
        '.' :: ['k', 'v', 'p'] := by
  simp [fileName]

theorem toList_tmpName (key : ChunkKey) :
    (tmpName key).toList =
      ((toString key.workerId).toList ++ '_' :: (toString key.chunkIndex).toList) ++
        '.' :: ['t', 'm', 'p'] := by
  simp [tmpName]

private theorem plain_of_toList {name : String} {m n : Int} {a b c : Char}
    (h : name.toList = ((toString m).toList ++ '_' :: (toString n).toList) ++ '.' :: [a, b, c])
    (hslash : '/' ∉ [a, b, c]) : PurePath.Plain name where
  nonempty := by
    rintro rfl
    simp at h
  no_slash := by
    rw [h]
    have hm := notMem_toString_int (c := '/') (by decide) (by decide) m
    have hn := notMem_toString_int (c := '/') (by decide) (by decide) n
    simp only [List.mem_append, List.mem_cons, not_or]
    exact ⟨⟨hm, by decide, hn⟩, by decide, by simpa using hslash⟩
  ne_dot := by
    rintro rfl
    have hlength := congrArg List.length h
    simp at hlength
    omega
  ne_dotdot := by
    rintro rfl
    have hlength := congrArg List.length h
    simp at hlength
    omega

theorem plain_fileName (key : ChunkKey) : PurePath.Plain (fileName key) :=
  plain_of_toList (toList_fileName key) (by decide)

theorem plain_tmpName (key : ChunkKey) : PurePath.Plain (tmpName key) :=
  plain_of_toList (toList_tmpName key) (by decide)

theorem nameWithSuffix_fileName (key : ChunkKey) :
    PurePath.nameWithSuffix (fileName key) ".tmp" = tmpName key := by
  have hname : fileName key = String.ofList (((toString key.workerId).toList ++
      '_' :: (toString key.chunkIndex).toList) ++ '.' :: ['k', 'v', 'p']) := by
    rw [← toList_fileName, String.ofList_toList]
  rw [hname, PurePath.nameWithSuffix_dot (by simp) (by simp) (by decide), tmpName]

theorem fileName_ne_tmpName (key k : ChunkKey) : fileName key ≠ tmpName k := by
  intro h
  have hsplit := congrArg (fun name : String => splitLast '.' name.toList) h
  simp only [toList_fileName, toList_tmpName] at hsplit
  rw [splitLast_append _ (by decide), splitLast_append _ (by decide)] at hsplit
  simp at hsplit

theorem fileName_inj {key k : ChunkKey} (h : fileName key = fileName k) :
    key.workerId = k.workerId ∧ key.chunkIndex = k.chunkIndex := by
  have hstem := congrArg (fun name : String => splitLast '.' name.toList) h
  simp only [toList_fileName] at hstem
  rw [splitLast_append _ (by decide), splitLast_append _ (by decide)] at hstem
  have hsplit := congrArg (splitLast '_') (Prod.mk.inj (Option.some.inj hstem)).1
  have hunder : ∀ n : Int, '_' ∉ (toString n).toList :=
    notMem_toString_int (by decide) (by decide)
  rw [splitLast_append _ (hunder _), splitLast_append _ (hunder _)] at hsplit
  obtain ⟨hworker, hchunk⟩ := Prod.mk.inj (Option.some.inj hsplit)
  exact ⟨toString_int_inj hworker, toString_int_inj hchunk⟩

/-! ## Locations -/

/-- The directory that `root / cache_id` stands for. -/
def directory (root : PurePath) (cwd : Location) (key : ChunkKey) : Location :=
  (root.join key.cacheId).resolve cwd

/-- Where the chunk of a key is kept. -/
def fileAt (root : PurePath) (cwd : Location) (key : ChunkKey) : Location :=
  fileName key :: directory root cwd key

def tmpAt (root : PurePath) (cwd : Location) (key : ChunkKey) : Location :=
  tmpName key :: directory root cwd key

/-- The root lies on the way to the location, or is the location. -/
def Inside (root : PurePath) (cwd : Location) (location : Location) : Prop :=
  root.resolve cwd <:+ location

section Locations

variable (s : DiskBackend) (key : ChunkKey)

theorem locate_path : s.locate (s.path key) = fileAt s.root s.fs.cwd key :=
  PurePath.resolve_join_plain _ (plain_fileName key) _

theorem locate_parent : s.locate (s.path key).parent = directory s.root s.fs.cwd key := by
  rw [path, PurePath.parent_join_plain _ (plain_fileName key)]
  rfl

theorem locate_tmp : s.locate ((s.path key).withSuffix ".tmp") = tmpAt s.root s.fs.cwd key := by
  have htmp := nameWithSuffix_fileName key
  rw [path, PurePath.withSuffix_join_plain _ (plain_fileName key) (htmp ▸ plain_tmpName key), htmp]
  exact PurePath.resolve_join_plain _ (plain_tmpName key) _

theorem fileAt_ne_tmpAt (root : PurePath) (cwd : Location) (key k : ChunkKey) :
    fileAt root cwd key ≠ tmpAt root cwd k := fun h =>
  fileName_ne_tmpName key k (List.cons.inj h).1

end Locations

/-! ## What the calls change and ask for -/

open FileSystem (Frame)

/-- What the calls for a key may change. -/
def touched (root : PurePath) (cwd : Location) (key : ChunkKey) : Set Location :=
  {l | l <:+ directory root cwd key ∨ l = tmpAt root cwd key ∨ l = fileAt root cwd key}

/-- What the calls for a key may hand to the system, from a given tree. -/
def asked (root : PurePath) (fs : FileSystem) (key : ChunkKey) : Set Location :=
  {l | l = directory root fs.cwd key ∨ l = tmpAt root fs.cwd key ∨ l = fileAt root fs.cwd key ∨
    l <:+ directory root fs.cwd key ∧ fs.node l = none}

section Frames

variable {json : JsonText} {s : DiskBackend} {key : ChunkKey}

theorem writeChunk_frame (json : JsonText) (s : DiskBackend) (key : ChunkKey)
    (obj : KVPayload) :
    Frame {tmpAt s.root s.fs.cwd key, fileAt s.root s.fs.cwd key}
      {tmpAt s.root s.fs.cwd key, fileAt s.root s.fs.cwd key} s.fs
      (writeChunk json s (s.path key) obj).2 := by
  simp only [writeChunk, locate_tmp, locate_path]
  generalize tmpAt s.root s.fs.cwd key = tmp
  generalize fileAt s.root s.fs.cwd key = file
  have htmp : ({tmp} : Set Location) ⊆ {tmp, file} := by simp
  have hopened := (FileSystem.frame_writeFile s.fs [] tmp).mono htmp htmp
  generalize s.fs.writeFile [] tmp = opened at hopened ⊢
  rcases opened with ⟨err | _, opened⟩
  · exact hopened
  · cases packPayload json obj with
    | error err => exact hopened
    | ok blob =>
        have hwritten := (FileSystem.frame_writeFile opened blob tmp).mono htmp htmp
        have hmoved := (hopened.trans hwritten).trans (FileSystem.frame_replace _ tmp file)
        simp only
        generalize (opened.writeFile blob tmp).2.replace tmp file = moved at hmoved ⊢
        rcases moved with ⟨err | _, moved⟩
        · exact hmoved
        · exact hmoved

@[simp] theorem root_put (obj : KVPayload) (pin : Bool) :
    (s.put json key obj pin).2.root = s.root := by
  unfold put
  by_cases hnul : (s.path key).hasNul
  · rw [if_pos hnul]
  · rw [if_neg hnul]
    simp only
    split
    · rfl
    · split <;> rfl

theorem put_frame_made (json : JsonText) {s : DiskBackend} {key : ChunkKey}
    (hnul : (s.path key).hasNul = false) (obj : KVPayload) (pin : Bool) :
    Frame {tmpAt s.root s.fs.cwd key, fileAt s.root s.fs.cwd key}
      {tmpAt s.root s.fs.cwd key, fileAt s.root s.fs.cwd key}
      (s.fs.makeDirs (directory s.root s.fs.cwd key)).2 (s.put json key obj pin).2.fs := by
  have hcwd : (s.fs.makeDirs (directory s.root s.fs.cwd key)).2.cwd = s.fs.cwd :=
    (FileSystem.frame_makeDirs _ _).cwd
  have hpath : ¬(s.path key).hasNul = true := Bool.not_eq_true _ ▸ hnul
  rw [put, if_neg hpath, locate_parent]
  simp only
  generalize s.fs.makeDirs (directory s.root s.fs.cwd key) = made at hcwd ⊢
  rcases made with ⟨err | _, made⟩
  · exact Frame.refl _ _ _
  · have hwritten :=
      writeChunk_frame json { s with fs := made } key obj
    simp only [path] at hcwd hwritten ⊢
    rw [hcwd] at hwritten
    generalize writeChunk json { s with fs := made } _ obj = written at hwritten ⊢
    rcases written with ⟨err | _, written⟩
    · exact hwritten
    · exact hwritten

theorem put_frame (json : JsonText) (s : DiskBackend) (key : ChunkKey) (obj : KVPayload)
    (pin : Bool) :
    Frame (touched s.root s.fs.cwd key) (asked s.root s.fs key) s.fs
      (s.put json key obj pin).2.fs := by
  cases hnul : (s.path key).hasNul with
  | true =>
      rw [put, if_pos hnul]
      exact Frame.refl _ _ _
  | false =>
      have hmade : Frame (touched s.root s.fs.cwd key) (asked s.root s.fs key) s.fs
          (s.fs.makeDirs (directory s.root s.fs.cwd key)).2 := by
        apply (FileSystem.frame_makeDirs s.fs (directory s.root s.fs.cwd key)).mono
        · exact fun l hl => .inl hl
        · exact fun l hl => hl.imp_right fun h => .inr (.inr h)
      apply hmade.trans
      apply (put_frame_made json hnul obj pin).mono
      · rintro l (rfl | rfl)
        · exact .inr (.inl rfl)
        · exact .inr (.inr rfl)
      · rintro l (rfl | rfl)
        · exact .inr (.inl rfl)
        · exact .inr (.inr (.inl rfl))

theorem fileAt_mem_asked (root : PurePath) (fs : FileSystem) (key : ChunkKey) :
    ({fileAt root fs.cwd key} : Set Location) ⊆ asked root fs key := by
  rintro l rfl
  exact .inr (.inr (.inl rfl))

theorem contains_frame (s : DiskBackend) (key : ChunkKey) :
    Frame ∅ {fileAt s.root s.fs.cwd key} s.fs (s.contains key).2.fs := by
  rw [contains, pathExists, locate_path]
  split_ifs
  · exact Frame.refl _ _ _
  · exact s.fs.frame_access _

@[simp] theorem root_contains : (s.contains key).2.root = s.root := by
  rw [contains, pathExists]
  split_ifs <;> rfl

@[simp] theorem pinned_contains : (s.contains key).2.pinned = s.pinned := by
  rw [contains, pathExists]
  split_ifs <;> rfl

theorem contains_fst :
    (s.contains key).1 =
      (!(s.path key).hasNul && (s.fs.node (fileAt s.root s.fs.cwd key)).isSome) := by
  rw [contains, pathExists, locate_path]
  split_ifs with hnul <;> simp [hnul]

theorem get_frame (json : JsonText) (s : DiskBackend) (key : ChunkKey) :
    Frame ∅ {fileAt s.root s.fs.cwd key} s.fs (s.get json key).2.fs := by
  have hfound : Frame ∅ {fileAt s.root s.fs.cwd key} s.fs (s.pathExists (s.path key)).2.fs :=
    contains_frame s key
  rw [DiskBackend.get, locate_path]
  simp only
  split_ifs
  · have hread := hfound.trans
      (FileSystem.frame_readFile (s.pathExists (s.path key)).2.fs _)
    generalize (s.pathExists (s.path key)).2.fs.readFile _ = read at hread ⊢
    rcases read with ⟨err | blob, read⟩
    · exact hread
    · exact hread
  · exact hfound

@[simp] theorem root_get : (s.get json key).2.root = s.root := by
  have hfound : (s.pathExists (s.path key)).2.root = s.root := root_contains
  rw [DiskBackend.get]
  simp only
  split_ifs
  · split <;> rfl
  · exact hfound

@[simp] theorem pinned_get : (s.get json key).2.pinned = s.pinned := by
  have hfound : (s.pathExists (s.path key)).2.pinned = s.pinned := pinned_contains
  rw [DiskBackend.get]
  simp only
  split_ifs
  · split <;> rfl
  · exact hfound

/-- What `get` answers: it depends on what is at the file of the key only. -/
theorem get_fst :
    (s.get json key).1 =
      if (s.path key).hasNul then .ok none
      else
        match s.fs.node (fileAt s.root s.fs.cwd key) with
        | none => .ok none
        | some .directory => .error (.osError .isADirectory)
        | some (.file content) => (unpackPayload json content).map some := by
  rw [DiskBackend.get, locate_path, pathExists, locate_path]
  by_cases hnul : (s.path key).hasNul
  · simp [hnul]
  · cases hnode : s.fs.node (fileAt s.root s.fs.cwd key) with
    | none => simp [hnul]
    | some n =>
        cases n with
        | directory => simp [hnul, hnode, FileSystem.readFile]
        | file content => simp [hnul, hnode, FileSystem.readFile]

theorem remove_eq :
    s.remove key =
      if (s.path key).hasNul then (.ok false, { s with pinned := s.pinned.erase key })
      else
        let file := fileAt s.root s.fs.cwd key
        let unlinked := ((s.fs.access file).unlink file).2
        match s.fs.node file with
        | none =>
            (.ok false, { s with pinned := s.pinned.erase key, fs := s.fs.access file })
        | some .directory =>
            (.error (.osError .isADirectory),
              { s with pinned := s.pinned.erase key, fs := unlinked })
        | some (.file _) =>
            (.ok true,
              { s with
                pinned := s.pinned.erase key
                fs := (unlinked.rmdir (directory s.root s.fs.cwd key)).2 }) := by
  have hlocate : ({ s with pinned := s.pinned.erase key } : DiskBackend).locate (s.path key) =
      fileAt s.root s.fs.cwd key := locate_path s key
  by_cases hnul : (s.path key).hasNul
  · simp [remove, pathExists, hnul]
  · simp only [remove, pathExists, hnul, hlocate, locate_path, locate_parent]
    cases hnode : s.fs.node (fileAt s.root s.fs.cwd key) with
    | none => rfl
    | some n =>
        have hasked : (s.fs.access (fileAt s.root s.fs.cwd key)).node
            (fileAt s.root s.fs.cwd key) = some n := hnode
        cases n with
        | directory => simp [FileSystem.unlink_of_directory hasked]
        | file content => simp [(FileSystem.unlink_of_file hasked).1]

@[simp] theorem root_remove : (s.remove key).2.root = s.root := by
  rw [remove_eq]
  split_ifs
  · rfl
  · simp only
    split <;> rfl

theorem remove_frame (s : DiskBackend) (key : ChunkKey) :
    Frame {directory s.root s.fs.cwd key, fileAt s.root s.fs.cwd key}
      {directory s.root s.fs.cwd key, fileAt s.root s.fs.cwd key} s.fs
      (s.remove key).2.fs := by
  rw [remove_eq]
  split_ifs
  · exact Frame.refl _ _ _
  · generalize directory s.root s.fs.cwd key = dir
    generalize fileAt s.root s.fs.cwd key = file
    have hdir : ({dir} : Set Location) ⊆ {dir, file} := by simp
    have hfile : ({file} : Set Location) ⊆ {dir, file} := by simp
    have hasked := (s.fs.frame_access file).mono (Set.empty_subset {dir, file}) hfile
    have hunlinked := hasked.trans ((FileSystem.frame_unlink _ file).mono hfile hfile)
    simp only
    split
    · exact hasked
    · exact hunlinked
    · exact hunlinked.trans ((FileSystem.frame_rmdir _ dir).mono hdir hdir)

theorem remove_of_file {content : List UInt8} (hnul : (s.path key).hasNul = false)
    (hnode : s.fs.node (fileAt s.root s.fs.cwd key) = some (.file content)) :
    (s.remove key).2.fs.node (fileAt s.root s.fs.cwd key) = none := by
  rw [remove_eq, hnul, if_neg Bool.false_ne_true]
  simp only
  rw [hnode]
  simp only
  rw [FileSystem.node_rmdir]
  split_ifs
  · rfl
  · have hasked : (s.fs.access (fileAt s.root s.fs.cwd key)).node
        (fileAt s.root s.fs.cwd key) = some (.file content) := hnode
    rw [(FileSystem.unlink_of_file hasked).2, if_pos rfl]

end Frames

/-! ## Isolation and confinement -/

/-- A backend on the root, with the directory above the root in place. -/
structure Ready (root : PurePath) (cwd : Location) (s : DiskBackend) : Prop where
  root_eq : s.root = root
  cwd_eq : s.fs.cwd = cwd
  above : s.fs.node (root.resolve cwd).tail = some .directory

/-- No system call refuses the path of the key. -/
def Usable (root : PurePath) (key : ChunkKey) : Prop :=
  ((root.join key.cacheId).join (fileName key)).hasNul = false

/-- `get` and `contains` answer the same for the key. -/
def SameReads (json : JsonText) (key : ChunkKey) (s s' : DiskBackend) : Prop :=
  (s'.get json key).1 = (s.get json key).1 ∧ (s'.contains key).1 = (s.contains key).1

/-- A put or a removal of the key leaves what the other one reads. -/
def Isolated (json : JsonText) (root : PurePath) (cwd : Location) (key other : ChunkKey) : Prop :=
  ∀ s, Ready root cwd s →
    (∀ obj pin, SameReads json other s (s.put json key obj pin).2) ∧
      SameReads json other s (s.remove key).2

/-- Every call about the key asks for locations inside the root only. -/
def Confined (json : JsonText) (root : PurePath) (cwd : Location) (key : ChunkKey) : Prop :=
  ∀ s op, Ready root cwd s → op.key = some key →
    ∀ l ∈ (step json s op).2.fs.accessed, l ∈ s.fs.accessed ∨ Inside root cwd l

section Sufficient

variable {json : JsonText} {root : PurePath} {cwd : Location} {key other : ChunkKey}
  {s s' : DiskBackend}

theorem sameReads_of_node (json : JsonText) (hroot : s'.root = s.root) (hcwd : s'.fs.cwd = s.fs.cwd)
    (hnode : Usable s.root key →
      s'.fs.node (fileAt s.root s.fs.cwd key) = s.fs.node (fileAt s.root s.fs.cwd key)) :
    SameReads json key s s' := by
  have hpath : s'.path key = s.path key := by rw [path, path, hroot]
  rw [SameReads, get_fst, get_fst, contains_fst, contains_fst, hpath, hroot, hcwd]
  by_cases hnul : (s.path key).hasNul
  · simp [hnul]
  · rw [hnode (Bool.eq_false_of_not_eq_true hnul)]
    exact ⟨rfl, rfl⟩

theorem put_of_not_usable (h : ¬Usable s.root key) (obj : KVPayload) (pin : Bool) :
    (s.put json key obj pin).2 = s := by
  have hnul : (s.path key).hasNul := eq_true_of_ne_false h
  rw [put, if_pos hnul]

theorem remove_of_not_usable (h : ¬Usable s.root key) : (s.remove key).2.fs = s.fs := by
  have hnul : (s.path key).hasNul := eq_true_of_ne_false h
  rw [remove_eq, if_pos hnul]

theorem fileAt_notMem_touched (h : ¬fileAt root cwd other <:+ fileAt root cwd key) :
    fileAt root cwd other ∉ touched root cwd key := by
  rintro (hway | htmp | hfile)
  · exact h (hway.trans (List.suffix_cons _ _))
  · exact fileAt_ne_tmpAt _ _ _ _ htmp
  · exact h (hfile ▸ List.suffix_rfl)

theorem isolated_of_not_suffix
    (h : Usable root key → Usable root other → ¬fileAt root cwd other <:+ fileAt root cwd key) :
    Isolated json root cwd key other := by
  intro s hs
  obtain ⟨rfl, rfl, -⟩ := hs
  by_cases husable : Usable s.root key
  · refine ⟨fun obj pin => ?_, ?_⟩
    · have hframe := put_frame json s key obj pin
      apply sameReads_of_node json (root_put obj pin) hframe.cwd
      intro hother
      exact hframe.node _ (fileAt_notMem_touched (h husable hother))
    · have hframe := remove_frame s key
      apply sameReads_of_node json root_remove hframe.cwd
      intro hother
      apply hframe.node
      rintro (hdir | hfile)
      · exact h husable hother (hdir ▸ List.suffix_cons _ _)
      · exact h husable hother (hfile ▸ List.suffix_rfl)
  · refine ⟨fun obj pin => ?_, ?_⟩
    · rw [put_of_not_usable husable]
      exact ⟨rfl, rfl⟩
    · have hsame := remove_of_not_usable husable
      exact sameReads_of_node json root_remove (by rw [hsame]) fun _ => by rw [hsame]

/-- Where the directory lies inside the root, so does all that a call asks for. -/
theorem inside_of_mem_asked {l : Location} (hs : Ready root cwd s)
    (hinside : Inside root cwd (directory root cwd key)) (hl : l ∈ asked s.root s.fs key) :
    Inside root cwd l := by
  obtain ⟨rfl, rfl, habove⟩ := hs
  have hchild : ∀ name, Inside s.root s.fs.cwd (name :: directory s.root s.fs.cwd key) :=
    fun name => hinside.trans (List.suffix_cons name _)
  rcases hl with rfl | rfl | rfl | ⟨hway, hmissing⟩
  · exact hinside
  · exact hchild _
  · exact hchild _
  · rcases List.suffix_or_suffix_of_suffix hinside hway with hin | hout
    · exact hin
    · -- above the root nothing is missing
      by_cases heq : l = s.root.resolve s.fs.cwd
      · rw [heq]
        exact List.suffix_rfl
      · exfalso
        have htail : l <:+ (s.root.resolve s.fs.cwd).tail := by
          cases hloc : s.root.resolve s.fs.cwd with
          | nil =>
              rw [hloc] at hout heq
              exact absurd (List.suffix_nil.mp hout) heq
          | cons name parent =>
              rw [hloc] at hout heq
              exact (List.suffix_cons_iff.mp hout).resolve_left heq
        by_cases hlast : l = (s.root.resolve s.fs.cwd).tail
        · rw [hlast, habove] at hmissing
          cases hmissing
        · rw [FileSystem.node_of_suffix (by rw [habove]; rfl) htail hlast] at hmissing
          cases hmissing

/-- What any call about the key changes and asks for. -/
theorem step_frame {op : KeyedStore.Op ChunkKey KVPayload} (hop : op.key = some key) :
    Frame (touched s.root s.fs.cwd key) (asked s.root s.fs key) s.fs (step json s op).2.fs := by
  have hfile := fileAt_mem_asked s.root s.fs key
  cases op with
  | put k obj pin =>
      obtain rfl := Option.some.inj hop
      exact put_frame json s k obj pin
  | get k =>
      obtain rfl := Option.some.inj hop
      exact (get_frame json s k).mono (Set.empty_subset _) hfile
  | contains k =>
      obtain rfl := Option.some.inj hop
      exact (contains_frame s k).mono (Set.empty_subset _) hfile
  | remove k =>
      obtain rfl := Option.some.inj hop
      apply (remove_frame s k).mono
      · rintro l (rfl | rfl)
        · exact .inl List.suffix_rfl
        · exact .inr (.inr rfl)
      · rintro l (rfl | rfl)
        · exact .inl rfl
        · exact hfile rfl
  | pin k => exact Frame.refl _ _ _
  | unpin k => exact Frame.refl _ _ _
  | clear => cases hop

theorem step_of_not_usable {op : KeyedStore.Op ChunkKey KVPayload} (hop : op.key = some key)
    (h : ¬Usable s.root key) : (step json s op).2.fs = s.fs := by
  have hnul : (s.path key).hasNul := eq_true_of_ne_false h
  have hexists : s.pathExists (s.path key) = (false, s) := if_pos hnul
  cases op with
  | put k obj pin =>
      obtain rfl := Option.some.inj hop
      rw [step, put_of_not_usable h]
  | get k =>
      obtain rfl := Option.some.inj hop
      simp [step, DiskBackend.get, hexists]
  | contains k =>
      obtain rfl := Option.some.inj hop
      simp [step, DiskBackend.contains, hexists]
  | remove k =>
      obtain rfl := Option.some.inj hop
      exact remove_of_not_usable h
  | pin k => rfl
  | unpin k => rfl
  | clear => cases hop

theorem confined_of_inside
    (h : Usable root key → Inside root cwd (directory root cwd key)) :
    Confined json root cwd key := by
  intro s op hs hop l hl
  by_cases husable : Usable s.root key
  · apply ((step_frame hop).asked l hl).symm.imp_right
    have hinside := h (hs.root_eq ▸ husable)
    exact inside_of_mem_asked hs hinside
  · rw [step_of_not_usable hop husable] at hl
    exact .inl hl

end Sufficient

section Necessary

variable {json : JsonText} {root : PurePath} {cwd dir : Location} {key other : ChunkKey}

/-- A tree that holds nothing but the way to a directory. -/
def wayTo (cwd dir : Location) : FileSystem :=
  { (({ cwd := cwd } : FileSystem).makeDirs dir).2 with accessed := [] }

theorem cwd_wayTo (cwd dir : Location) : (wayTo cwd dir).cwd = cwd :=
  (FileSystem.frame_makeDirs { cwd := cwd } dir).cwd

theorem node_wayTo (cwd dir l : Location) :
    (wayTo cwd dir).node l = if l <:+ dir then some .directory else none := by
  have hempty : ∀ l : Location, l ≠ [] → ({ cwd := cwd } : FileSystem).node l = none := by
    intro l hl
    cases l with
    | nil => exact absurd rfl hl
    | cons name parent => rfl
  have hok : (({ cwd := cwd } : FileSystem).makeDirs dir).1 = .ok () := by
    apply FileSystem.makeDirs_ok
    intro l _ content hfile
    cases l with
    | nil => cases hfile
    | cons name parent => cases hfile
  have hself : (wayTo cwd dir).node dir = some .directory := FileSystem.node_makeDirs_self hok
  split_ifs with hl
  · by_cases heq : l = dir
    · rw [heq, hself]
    · exact FileSystem.node_of_suffix (by rw [hself]; rfl) hl heq
  · have hframe := FileSystem.frame_makeDirs { cwd := cwd } dir
    have hne : l ≠ [] := by
      rintro rfl
      exact hl List.nil_suffix
    exact (hframe.node l hl).trans (hempty l hne)

theorem ready_wayTo (h : (root.resolve cwd).tail <:+ dir) :
    Ready root cwd { root := root, fs := wayTo cwd dir } where
  root_eq := rfl
  cwd_eq := cwd_wayTo cwd dir
  above := by rw [node_wayTo, if_pos h]

theorem inside_of_confined (h : Confined json root cwd key) (husable : Usable root key) :
    Inside root cwd (directory root cwd key) := by
  let s : DiskBackend := { root := root, fs := wayTo cwd (root.resolve cwd) }
  let obj : KVPayload := { data := [], numTokens := 0, numLayers := 0 }
  have hready : Ready root cwd s := ready_wayTo (List.tail_suffix _)
  have hcwd : s.fs.cwd = cwd := cwd_wayTo _ _
  -- the first call is for the directory
  have hmade : directory s.root s.fs.cwd key ∈
      (s.fs.makeDirs (directory s.root s.fs.cwd key)).2.accessed :=
    FileSystem.mem_accessed_makeDirs _
  have hasked := (put_frame_made json (s := s) husable obj false).kept _ hmade
  rw [hcwd] at hasked
  exact (h s (.put key obj false) hready rfl _ hasked).resolve_left List.not_mem_nil

theorem fileAt_not_suffix (h : Inside root cwd (directory root cwd key)) :
    ¬fileAt root cwd key <:+ root.resolve cwd := by
  intro hsuffix
  have hlength := hsuffix.length_le
  have hlength' := h.length_le
  rw [fileAt, List.length_cons] at hlength
  omega

/-- Making one file of two: removing it changes what `contains` answers for the other. -/
theorem fileAt_ne_of_isolated (h : Isolated json root cwd key other) (husable : Usable root key)
    (hother : Usable root other) (hinside : Inside root cwd (directory root cwd other)) :
    fileAt root cwd other ≠ fileAt root cwd key := by
  intro hsame
  let fs := wayTo cwd (directory root cwd other)
  let s : DiskBackend :=
    { root := root, fs := (fs.writeFile [] (fileAt root cwd other)).2 }
  have hframe := FileSystem.frame_writeFile fs [] (fileAt root cwd other)
  have hcwd : s.fs.cwd = cwd := hframe.cwd.trans (cwd_wayTo _ _)
  have hnode : s.fs.node (fileAt root cwd other) = some (.file []) := by
    have hok : (fs.writeFile [] (fileAt root cwd other)).1 = .ok () := by
      apply FileSystem.writeFile_ok_iff.mpr
      rw [node_wayTo, if_pos List.suffix_rfl, node_wayTo, if_neg]
      · exact ⟨rfl, by simp⟩
      · intro hsuffix
        have hlength := hsuffix.length_le
        rw [List.length_cons] at hlength
        omega
    exact (FileSystem.node_writeFile _ _).trans (if_pos ⟨rfl, hok⟩)
  have hready : Ready root cwd s := by
    refine ⟨rfl, hcwd, ?_⟩
    have habove : (root.resolve cwd).tail <:+ directory root cwd other :=
      (List.tail_suffix _).trans hinside
    rw [hframe.node, node_wayTo, if_pos habove]
    intro heq
    have hlength := (heq ▸ habove : fileAt root cwd other <:+ _).length_le
    rw [fileAt, List.length_cons] at hlength
    omega
  have hgone : (s.remove key).2.fs.node (fileAt root cwd other) = none := by
    have hremoved := @remove_of_file s key [] husable (hcwd.symm ▸ hsame ▸ hnode)
    rw [hcwd] at hremoved
    rw [hsame, hremoved]
  have hnul : (s.path other).hasNul = false := hother
  have hnul' : ((s.remove key).2.path other).hasNul = false := by
    rw [path, root_remove]
    exact hother
  have hanswer := (h s hready).2.2
  rw [contains_fst, contains_fst, root_remove, (remove_frame s key).cwd, hcwd,
    hnode, hgone, hnul, hnul'] at hanswer
  cases hanswer

/-- Where the file of one key is on the way to the other's, a put makes it a directory. -/
theorem not_suffix_of_isolated (h : Isolated json root cwd key other) (husable : Usable root key)
    (hother : Usable root other) (hinside : Inside root cwd (directory root cwd other)) :
    ¬fileAt root cwd other <:+ fileAt root cwd key := by
  intro hsuffix
  have hway : fileAt root cwd other <:+ directory root cwd key :=
    (List.suffix_cons_iff.mp hsuffix).resolve_left
      (fileAt_ne_of_isolated h husable hother hinside)
  let s : DiskBackend := { root := root, fs := wayTo cwd (root.resolve cwd) }
  let obj : KVPayload := { data := [], numTokens := 0, numLayers := 0 }
  have hready : Ready root cwd s := ready_wayTo (List.tail_suffix _)
  have hcwd : s.fs.cwd = cwd := cwd_wayTo _ _
  have hbefore : s.fs.node (fileAt root cwd other) = none :=
    (node_wayTo _ _ _).trans (if_neg (fileAt_not_suffix hinside))
  have hmade : (s.fs.makeDirs (directory root cwd key)).1 = .ok () := by
    apply FileSystem.makeDirs_ok
    intro l _ content
    rw [node_wayTo]
    split_ifs <;> simp
  have hafter : (s.put json key obj false).2.fs.node (fileAt root cwd other) =
      some .directory := by
    have hput := put_frame_made json (s := s) husable obj false
    rw [hcwd] at hput
    rw [hput.node]
    · have hdir := FileSystem.node_makeDirs_self hmade
      by_cases heq : fileAt root cwd other = directory root cwd key
      · rw [heq, hdir]
      · exact FileSystem.node_of_suffix (by rw [hdir]; rfl) hway heq
    · rintro (htmp | hfile)
      · exact fileAt_ne_tmpAt _ _ _ _ htmp
      · exact fileAt_ne_of_isolated h husable hother hinside hfile
  have hnul : (s.path other).hasNul = false := hother
  have hnul' : ((s.put json key obj false).2.path other).hasNul = false := by
    rw [path, root_put]
    exact hother
  have hanswer := ((h s hready).1 obj false).2
  rw [contains_fst, contains_fst, root_put, (put_frame json s key obj false).cwd, hcwd, hbefore,
    hafter, hnul, hnul'] at hanswer
  cases hanswer

end Necessary

/-! ## Which keys keep apart -/

/-- The directories of the keys that the system accepts lie in the root, and
neither file is the other one or on the way to it. -/
def KeepsApart (root : PurePath) (cwd : Location) (key other : ChunkKey) : Prop :=
  (Usable root key → Inside root cwd (directory root cwd key)) ∧
    (Usable root other → Inside root cwd (directory root cwd other)) ∧
    (Usable root key → Usable root other →
      ¬fileAt root cwd key <:+ fileAt root cwd other ∧
        ¬fileAt root cwd other <:+ fileAt root cwd key)

theorem isolated_confined_iff_keepsApart (json : JsonText) (root : PurePath) (cwd : Location)
    (key other : ChunkKey) :
    (Isolated json root cwd key other ∧ Isolated json root cwd other key ∧
        Confined json root cwd key ∧ Confined json root cwd other) ↔
      KeepsApart root cwd key other := by
  constructor
  · rintro ⟨hkey, hother, hin, hin'⟩
    refine ⟨inside_of_confined hin, inside_of_confined hin', fun h h' => ⟨?_, ?_⟩⟩
    · exact not_suffix_of_isolated hother h' h (inside_of_confined hin h)
    · exact not_suffix_of_isolated hkey h h' (inside_of_confined hin' h')
  · rintro ⟨hin, hin', happart⟩
    refine ⟨?_, ?_, confined_of_inside hin, confined_of_inside hin'⟩
    · exact isolated_of_not_suffix fun h h' => (happart h h').2
    · exact isolated_of_not_suffix fun h h' => (happart h' h).1

/-- `DiskBackend("/store")` on a tree with nothing in it. -/
def sampleStore : DiskBackend where
  root := PurePath.ofString "/store"
  fs := (({} : FileSystem).makeDirs ["store"]).2

/-- The chunk of `a` is gone when that of `./a` is removed, and the directory of
`/etc` is asked for. -/
theorem dot_aliases_and_absolute_escapes :
    DiskBackend.create {} "/store" none = .ok sampleStore ∧
      (let stored := (sampleStore.put sampleJson ⟨"a", 0, 0⟩ samplePayload false).2;
        (stored.contains ⟨"a", 0, 0⟩).1 = true ∧
          ((stored.remove ⟨"./a", 0, 0⟩).2.contains ⟨"a", 0, 0⟩).1 = false) ∧
      ["etc"] ∈
        (sampleStore.put sampleJson ⟨"/etc", 0, 0⟩ samplePayload false).2.fs.accessed ∧
      ¬Inside sampleStore.root sampleStore.fs.cwd ["etc"] := by
  refine ⟨rfl, ?_, ?_, ?_⟩
  · decide +kernel
  · decide +kernel
  · simp only [Inside]
    decide +kernel

/-- Keys whose ids are plain names keep apart. -/
theorem keepsApart_of_plain (root : PurePath) (cwd : Location) {key other : ChunkKey}
    (hkey : PurePath.Plain key.cacheId) (hother : PurePath.Plain other.cacheId)
    (hne : key ≠ other) : KeepsApart root cwd key other := by
  have hdir : ∀ k : ChunkKey, PurePath.Plain k.cacheId →
      directory root cwd k = k.cacheId :: root.resolve cwd := fun k hk =>
    PurePath.resolve_join_plain root hk cwd
  have hsame : ∀ k k' : ChunkKey, PurePath.Plain k.cacheId → PurePath.Plain k'.cacheId →
      fileAt root cwd k <:+ fileAt root cwd k' → k = k' := by
    intro k k' hk hk' hsuffix
    rw [fileAt, fileAt, hdir k hk, hdir k' hk'] at hsuffix
    have heq := hsuffix.eq_of_length (by simp)
    obtain ⟨hname, hrest⟩ := List.cons.inj heq
    obtain ⟨hworker, hchunk⟩ := fileName_inj hname
    cases k
    cases k'
    simp_all
  refine ⟨fun _ => ?_, fun _ => ?_, fun _ _ => ⟨fun h => ?_, fun h => ?_⟩⟩
  · rw [Inside, hdir key hkey]
    exact List.suffix_cons _ _
  · rw [Inside, hdir other hother]
    exact List.suffix_cons _ _
  · exact hne (hsame key other hkey hother h)
  · exact hne (hsame other key hother hkey h).symm

end LlmCache.Store.DiskIsolation
