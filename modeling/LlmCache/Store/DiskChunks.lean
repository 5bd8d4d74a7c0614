import LlmCache.Store.DiskIsolation

/-!
# The store on plain cache ids

Under a root that holds nothing but chunks with plain ids, and temporary files
of such chunks, every call does what it is meant to.
-/

namespace LlmCache.Store.DiskChunks

open Errors Lib Payload LlmCache.Types DiskBackend DiskIsolation

/-- An id that is one component of a path and that the system accepts. -/
structure SafeId (id : String) : Prop where
  plain : PurePath.Plain id
  no_nul : '\x00' ∉ id.toList

/-- The object has metadata that JSON gives back, and the blob is its frame. -/
def Framed (json : JsonText) (obj : KVPayload) (blob : List UInt8) : Prop :=
  (Json.obj obj.metadata).WellFormed ∧ packPayload json obj = .ok blob

/-- The location of the root. -/
def rootLocation (s : DiskBackend) : Location :=
  s.root.resolve s.fs.cwd

/-- Under the root there are cache directories with chunks and temporary files. -/
structure Tidy (json : JsonText) (s : DiskBackend) : Prop where
  no_nul : s.root.hasNul = false
  root : s.fs.node (rootLocation s) = some .directory
  directories : ∀ dir content, s.fs.node (dir :: rootLocation s) ≠ some (.file content)
  files : ∀ name dir n, s.fs.node (name :: dir :: rootLocation s) = some n →
    ∃ key : ChunkKey, SafeId key.cacheId ∧ dir = key.cacheId ∧
      (name = tmpName key ∧ (∃ content, n = .file content) ∨
        name = fileName key ∧ ∃ obj blob, Framed json obj blob ∧ n = .file blob)

section Locations

variable {json : JsonText} {s : DiskBackend} {key : ChunkKey}

theorem directory_eq (hsafe : SafeId key.cacheId) :
    directory s.root s.fs.cwd key = key.cacheId :: rootLocation s :=
  PurePath.resolve_join_plain s.root hsafe.plain s.fs.cwd

theorem fileAt_eq (hsafe : SafeId key.cacheId) :
    fileAt s.root s.fs.cwd key = fileName key :: key.cacheId :: rootLocation s := by
  rw [fileAt, directory_eq hsafe]

theorem tmpAt_eq (hsafe : SafeId key.cacheId) :
    tmpAt s.root s.fs.cwd key = tmpName key :: key.cacheId :: rootLocation s := by
  rw [tmpAt, directory_eq hsafe]

theorem directory_ne_tmpAt (root : PurePath) (cwd : Location) (key : ChunkKey) :
    directory root cwd key ≠ tmpAt root cwd key := (List.cons_ne_self _ _).symm

theorem directory_ne_fileAt (root : PurePath) (cwd : Location) (key : ChunkKey) :
    directory root cwd key ≠ fileAt root cwd key := (List.cons_ne_self _ _).symm

theorem fileAt_inj {k : ChunkKey} (hsafe : SafeId key.cacheId) (hsafe' : SafeId k.cacheId)
    (h : fileAt s.root s.fs.cwd key = fileAt s.root s.fs.cwd k) : key = k := by
  rw [fileAt_eq hsafe, fileAt_eq hsafe'] at h
  obtain ⟨hname, hrest⟩ := List.cons.inj h
  obtain ⟨hworker, hchunk⟩ := fileName_inj hname
  cases key
  cases k
  simp_all

theorem hasNul_path (s : DiskBackend) (key : ChunkKey) :
    (s.path key).hasNul = (s.root.join key.cacheId).hasNul := by
  have hfile : '\x00' ∉ (fileName key).toList := by
    rw [toList_fileName]
    have hm := notMem_toString_int (c := '\x00') (by decide) (by decide) key.workerId
    have hn := notMem_toString_int (c := '\x00') (by decide) (by decide) key.chunkIndex
    simp only [List.mem_append, List.mem_cons, not_or]
    exact ⟨⟨hm, by decide, hn⟩, by decide, by decide⟩
  rw [path, PurePath.hasNul_join_plain _ (plain_fileName key), decide_eq_false hfile,
    Bool.or_false]

theorem usable_of_safe (hnul : s.root.hasNul = false) (hsafe : SafeId key.cacheId) :
    (s.path key).hasNul = false := by
  rw [hasNul_path, PurePath.hasNul_join_plain _ hsafe.plain, hnul]
  simp [hsafe.no_nul]

end Locations

section Put

variable {json : JsonText} {s : DiskBackend} {key : ChunkKey} {l : Location}

theorem node_above_root (ht : Tidy json s) (hl : l <:+ rootLocation s) :
    s.fs.node l = some .directory := by
  by_cases heq : l = rootLocation s
  · rw [heq, ht.root]
  · apply FileSystem.node_of_suffix _ hl heq
    rw [ht.root]
    rfl

theorem makeDirs_spec (ht : Tidy json s) (hsafe : SafeId key.cacheId) :
    (s.fs.makeDirs (directory s.root s.fs.cwd key)).1 = .ok () ∧
      ∀ l, (s.fs.makeDirs (directory s.root s.fs.cwd key)).2.node l =
        if l = directory s.root s.fs.cwd key then some .directory else s.fs.node l := by
  rw [directory_eq hsafe]
  have hok : (s.fs.makeDirs (key.cacheId :: rootLocation s)).1 = .ok () := by
    apply FileSystem.makeDirs_ok
    intro l hl content
    rcases List.suffix_cons_iff.mp hl with rfl | hl
    · exact ht.directories _ content
    · rw [node_above_root ht hl]
      simp
  refine ⟨hok, fun l => ?_⟩
  split_ifs with heq
  · rw [heq]
    exact FileSystem.node_makeDirs_self hok
  · by_cases hl : l <:+ key.cacheId :: rootLocation s
    · have hnode := node_above_root ht ((List.suffix_cons_iff.mp hl).resolve_left heq)
      rw [hnode]
      exact FileSystem.node_makeDirs_of_isSome hnode
    · exact (FileSystem.frame_makeDirs _ _).node l hl

/-- In a directory where neither name is taken by another one, a chunk is
written, or an empty temporary file stays. -/
theorem writeChunk_spec {obj : KVPayload}
    (hdir : s.fs.node (directory s.root s.fs.cwd key) = some .directory)
    (htmp : s.fs.node (tmpAt s.root s.fs.cwd key) ≠ some .directory)
    (hfile : s.fs.node (fileAt s.root s.fs.cwd key) ≠ some .directory) :
    (∀ blob, packPayload json obj = .ok blob →
        (writeChunk json s (s.path key) obj).1 = .ok () ∧
          ∀ l, (writeChunk json s (s.path key) obj).2.node l =
            if l = tmpAt s.root s.fs.cwd key then none
            else if l = fileAt s.root s.fs.cwd key then some (.file blob) else s.fs.node l) ∧
      ∀ err, packPayload json obj = .error err →
        (writeChunk json s (s.path key) obj).1 = .error err ∧
          ∀ l, (writeChunk json s (s.path key) obj).2.node l =
            if l = tmpAt s.root s.fs.cwd key then some (.file []) else s.fs.node l := by
  have hne : tmpAt s.root s.fs.cwd key ≠ fileAt s.root s.fs.cwd key :=
    (fileAt_ne_tmpAt _ _ key key).symm
  have hnedir := directory_ne_tmpAt s.root s.fs.cwd key
  obtain ⟨hopen, hopened⟩ := FileSystem.writeFile_of_directory [] hdir htmp
  rw [← tmpAt] at hopen hopened
  refine ⟨fun blob hpack => ?_, fun err hpack => ?_⟩
  · have hdir' := (hopened (directory s.root s.fs.cwd key)).trans ((if_neg hnedir).trans hdir)
    have htmp' := (hopened (tmpAt s.root s.fs.cwd key)).trans (if_pos rfl)
    have hplace : (s.fs.writeFile [] (tmpAt s.root s.fs.cwd key)).2.node
        (tmpName key :: directory s.root s.fs.cwd key) ≠ some .directory := by
      rw [← tmpAt, htmp']
      simp
    obtain ⟨-, hwritten⟩ := FileSystem.writeFile_of_directory blob hdir' hplace
    rw [← tmpAt] at hwritten
    have hboth : ∀ l, ((s.fs.writeFile [] (tmpAt s.root s.fs.cwd key)).2.writeFile blob
        (tmpAt s.root s.fs.cwd key)).2.node l =
          if l = tmpAt s.root s.fs.cwd key then some (.file blob) else s.fs.node l := by
      intro l
      rw [hwritten, hopened]
      split_ifs <;> rfl
    have hwritable := (hboth (fileAt s.root s.fs.cwd key)).trans (if_neg hne.symm)
    rw [fileAt] at hwritable hfile
    obtain ⟨hok, hmoved⟩ := FileSystem.replace_of_file ((hboth _).trans (if_pos rfl))
      ((hboth _).trans ((if_neg hnedir).trans hdir)) (hwritable ▸ hfile) hne
    rw [← fileAt] at hok hmoved
    simp only [writeChunk, locate_tmp, locate_path, hopen, hpack, hok]
    refine ⟨trivial, fun l => ?_⟩
    rw [hmoved, hboth]
    split_ifs <;> rfl
  · simp only [writeChunk, locate_tmp, hopen, hpack]
    exact ⟨trivial, hopened⟩

/-- The backend once the directory of the key is made. -/
def made (s : DiskBackend) (key : ChunkKey) : DiskBackend :=
  { s with fs := (s.fs.makeDirs (directory s.root s.fs.cwd key)).2 }

theorem cwd_made (s : DiskBackend) (key : ChunkKey) : (made s key).fs.cwd = s.fs.cwd :=
  (FileSystem.frame_makeDirs _ _).cwd

theorem put_eq (ht : Tidy json s) (hsafe : SafeId key.cacheId) (obj : KVPayload) (pin : Bool) :
    s.put json key obj pin =
      ((writeChunk json (made s key) (s.path key) obj).1,
        { s with
          fs := (writeChunk json (made s key) (s.path key) obj).2
          pinned :=
            if pin ∧ (writeChunk json (made s key) (s.path key) obj).1 = .ok () then
              insert key s.pinned
            else s.pinned }) := by
  have hnul : ¬(s.path key).hasNul = true := by
    rw [usable_of_safe ht.no_nul hsafe]
    exact Bool.false_ne_true
  rw [put, if_neg hnul, locate_parent]
  simp only [(makeDirs_spec ht hsafe).1]
  rw [← made]
  rcases writeChunk json (made s key) (s.path key) obj with ⟨err | ⟨⟩, fs⟩
  · simp
  · cases pin <;> simp

theorem node_ne_directory (ht : Tidy json s) (name dir : String) :
    s.fs.node (name :: dir :: rootLocation s) ≠ some .directory := by
  intro hnode
  obtain ⟨k, -, -, hcases⟩ := ht.files _ _ _ hnode
  rcases hcases with ⟨-, content, hfile⟩ | ⟨-, obj, blob, -, hfile⟩
  · cases hfile
  · cases hfile

theorem put_spec (ht : Tidy json s) (hsafe : SafeId key.cacheId) (obj : KVPayload) (pin : Bool) :
    (∀ blob, packPayload json obj = .ok blob →
        (s.put json key obj pin).1 = .ok () ∧
          (s.put json key obj pin).2.pinned = (if pin then insert key s.pinned else s.pinned) ∧
          ∀ l, (s.put json key obj pin).2.fs.node l =
            if l = tmpAt s.root s.fs.cwd key then none
            else if l = fileAt s.root s.fs.cwd key then some (.file blob)
            else if l = directory s.root s.fs.cwd key then some .directory else s.fs.node l) ∧
      ∀ err, packPayload json obj = .error err →
        (s.put json key obj pin).1 = .error err ∧ (s.put json key obj pin).2.pinned = s.pinned ∧
          ∀ l, (s.put json key obj pin).2.fs.node l =
            if l = tmpAt s.root s.fs.cwd key then some (.file [])
            else if l = directory s.root s.fs.cwd key then some .directory else s.fs.node l := by
  have hcwd := cwd_made s key
  have hpath : s.path key = (made s key).path key := rfl
  have hroot : (made s key).root = s.root := rfl
  have hmade : ∀ l, (made s key).fs.node l =
      if l = directory s.root s.fs.cwd key then some .directory else s.fs.node l :=
    (makeDirs_spec ht hsafe).2
  have hfile : ∀ name, (made s key).fs.node (name :: directory s.root s.fs.cwd key) ≠
      some .directory := by
    intro name
    rw [hmade, if_neg (List.cons_ne_self _ _), directory_eq hsafe]
    exact node_ne_directory ht _ _
  have hwrite := @writeChunk_spec json (made s key) key obj
  rw [hcwd, hroot] at hwrite
  obtain ⟨hok, herror⟩ := hwrite ((hmade _).trans (if_pos rfl)) (hfile _) (hfile _)
  rw [put_eq ht hsafe, hpath]
  refine ⟨fun blob hpack => ?_, fun err hpack => ?_⟩
  · obtain ⟨hres, hnode⟩ := hok blob hpack
    refine ⟨hres, by simp [hres], fun l => ?_⟩
    rw [hnode, hmade]
  · obtain ⟨hres, hnode⟩ := herror err hpack
    refine ⟨hres, by simp [hres], fun l => ?_⟩
    rw [hnode, hmade]

end Put

section Tidy

variable {json : JsonText} {s s' : DiskBackend} {key : ChunkKey}

theorem chunk_of_node (ht : Tidy json s) (hsafe : SafeId key.cacheId) {n : Node}
    (h : s.fs.node (fileAt s.root s.fs.cwd key) = some n) :
    ∃ obj blob, Framed json obj blob ∧ n = .file blob := by
  rw [fileAt_eq hsafe] at h
  obtain ⟨k, -, -, hcases⟩ := ht.files _ _ _ h
  rcases hcases with ⟨htmp, -⟩ | ⟨-, hchunk⟩
  · exact absurd htmp (fileName_ne_tmpName key k)
  · exact hchunk

/-- A step that touches one directory, its temporary file and its chunk. -/
theorem tidy_of_step (ht : Tidy json s) (hsafe : SafeId key.cacheId) (hroot : s'.root = s.root)
    (hcwd : s'.fs.cwd = s.fs.cwd)
    (hkeep : ∀ l, l ≠ tmpAt s.root s.fs.cwd key → l ≠ fileAt s.root s.fs.cwd key →
      l ≠ directory s.root s.fs.cwd key → s'.fs.node l = s.fs.node l)
    (hdir : ∀ content, s'.fs.node (directory s.root s.fs.cwd key) ≠ some (.file content))
    (htmp : ∀ n, s'.fs.node (tmpAt s.root s.fs.cwd key) = some n → ∃ content, n = .file content)
    (hfile : ∀ n, s'.fs.node (fileAt s.root s.fs.cwd key) = some n →
      ∃ obj blob, Framed json obj blob ∧ n = .file blob) : Tidy json s' := by
  have hlocation : rootLocation s' = rootLocation s := by
    rw [rootLocation, rootLocation, hroot, hcwd]
  rw [directory_eq hsafe, tmpAt_eq hsafe, fileAt_eq hsafe] at hkeep
  rw [directory_eq hsafe] at hdir
  rw [tmpAt_eq hsafe] at htmp
  rw [fileAt_eq hsafe] at hfile
  have hlength : ∀ {a b : Location}, a.length ≠ b.length → a ≠ b := fun h heq =>
    h (congrArg List.length heq)
  refine ⟨hroot ▸ ht.no_nul, ?_, ?_, ?_⟩
  · rw [hlocation, hkeep, ht.root]
    all_goals apply hlength; simp only [List.length_cons]; omega
  · intro dir content
    rw [hlocation]
    by_cases heq : dir = key.cacheId
    · rw [heq]
      exact hdir content
    · rw [hkeep]
      · exact ht.directories dir content
      · apply hlength
        simp only [List.length_cons]
        omega
      · apply hlength
        simp only [List.length_cons]
        omega
      · exact fun h => heq (List.cons.inj h).1
  · intro name dir n hn
    rw [hlocation] at hn
    by_cases hself : dir = key.cacheId ∧ (name = tmpName key ∨ name = fileName key)
    · obtain ⟨rfl, rfl | rfl⟩ := hself
      · exact ⟨key, hsafe, rfl, .inl ⟨rfl, htmp n hn⟩⟩
      · exact ⟨key, hsafe, rfl, .inr ⟨rfl, hfile n hn⟩⟩
    · rw [hkeep] at hn
      · exact ht.files name dir n hn
      · intro h
        obtain ⟨hname, hrest⟩ := List.cons.inj h
        exact hself ⟨(List.cons.inj hrest).1, .inl hname⟩
      · intro h
        obtain ⟨hname, hrest⟩ := List.cons.inj h
        exact hself ⟨(List.cons.inj hrest).1, .inr hname⟩
      · apply hlength
        simp only [List.length_cons]
        omega

theorem tidy_put (ht : Tidy json s) (hsafe : SafeId key.cacheId) {obj : KVPayload}
    (hmeta : (Json.obj obj.metadata).WellFormed) (pin : Bool) :
    Tidy json (s.put json key obj pin).2 := by
  have hne : fileAt s.root s.fs.cwd key ≠ tmpAt s.root s.fs.cwd key := fileAt_ne_tmpAt _ _ _ _
  have hdirtmp := directory_ne_tmpAt s.root s.fs.cwd key
  have hdirfile := directory_ne_fileAt s.root s.fs.cwd key
  obtain ⟨hok, herror⟩ := put_spec ht hsafe obj pin
  cases hpack : packPayload json obj with
  | ok blob =>
      obtain ⟨-, -, hnode⟩ := hok blob hpack
      apply tidy_of_step ht hsafe (root_put obj pin) (put_frame json s key obj pin).cwd
      · intro l htmp hfile hdir
        rw [hnode, if_neg htmp, if_neg hfile, if_neg hdir]
      · intro content
        rw [hnode, if_neg hdirtmp, if_neg hdirfile, if_pos rfl]
        simp
      · intro n hn
        rw [hnode, if_pos rfl] at hn
        cases hn
      · intro n hn
        rw [hnode, if_neg hne, if_pos rfl] at hn
        exact ⟨obj, blob, ⟨hmeta, hpack⟩, (Option.some.inj hn).symm⟩
  | error err =>
      obtain ⟨-, -, hnode⟩ := herror err hpack
      apply tidy_of_step ht hsafe (root_put obj pin) (put_frame json s key obj pin).cwd
      · intro l htmp _ hdir
        rw [hnode, if_neg htmp, if_neg hdir]
      · intro content
        rw [hnode, if_neg hdirtmp, if_pos rfl]
        simp
      · intro n hn
        rw [hnode, if_pos rfl] at hn
        exact ⟨[], (Option.some.inj hn).symm⟩
      · intro n hn
        rw [hnode, if_neg hne, if_neg hdirfile.symm] at hn
        exact chunk_of_node ht hsafe hn

theorem remove_spec (ht : Tidy json s) (hsafe : SafeId key.cacheId) :
    (s.remove key).1 = .ok (s.fs.node (fileAt s.root s.fs.cwd key)).isSome ∧
      (s.remove key).2.pinned = s.pinned.erase key ∧
      (s.remove key).2.fs.node (fileAt s.root s.fs.cwd key) = none ∧
      (∀ content, (s.remove key).2.fs.node (directory s.root s.fs.cwd key) ≠
        some (.file content)) ∧
      ∀ l, l ≠ fileAt s.root s.fs.cwd key → l ≠ directory s.root s.fs.cwd key →
        (s.remove key).2.fs.node l = s.fs.node l := by
  have hnul := usable_of_safe ht.no_nul hsafe
  have hdirectory : ∀ content, s.fs.node (directory s.root s.fs.cwd key) ≠
      some (.file content) := by
    rw [directory_eq hsafe]
    exact ht.directories _
  have hframe := remove_frame s key
  have hkeep : ∀ l, l ≠ fileAt s.root s.fs.cwd key → l ≠ directory s.root s.fs.cwd key →
      (s.remove key).2.fs.node l = s.fs.node l := by
    intro l hfile hdir
    apply hframe.node
    simp [hfile, hdir]
  cases hnode : s.fs.node (fileAt s.root s.fs.cwd key) with
  | none =>
      have hremove : s.remove key = (.ok false,
          { s with
            pinned := s.pinned.erase key
            fs := s.fs.access (fileAt s.root s.fs.cwd key) }) := by
        rw [remove_eq, hnul]
        simp [hnode]
      rw [hremove]
      exact ⟨rfl, rfl, hnode, hdirectory, fun l _ _ => rfl⟩
  | some n =>
      obtain ⟨obj, blob, -, rfl⟩ := chunk_of_node ht hsafe hnode
      have hgone := remove_of_file hnul hnode
      have hasked : (s.fs.access (fileAt s.root s.fs.cwd key)).node
          (fileAt s.root s.fs.cwd key) = some (.file blob) := hnode
      have hunlink := FileSystem.unlink_of_file hasked
      refine ⟨?_, ?_, hgone, ?_, hkeep⟩
      · rw [remove_eq, hnul]
        simp [hnode]
      · rw [remove_eq, hnul]
        simp [hnode]
      · intro content
        rw [remove_eq, hnul]
        simp only [Bool.false_eq_true, if_false, hnode]
        rw [FileSystem.node_rmdir]
        split_ifs
        · simp
        · rw [hunlink.2, if_neg (directory_ne_fileAt _ _ _)]
          exact hdirectory content

theorem tidy_remove (ht : Tidy json s) (hsafe : SafeId key.cacheId) :
    Tidy json (s.remove key).2 := by
  obtain ⟨-, -, hgone, hdir, hkeep⟩ := remove_spec ht hsafe
  apply tidy_of_step ht hsafe root_remove (remove_frame s key).cwd
  · exact fun l _ hfile hdir => hkeep l hfile hdir
  · exact hdir
  · intro n hn
    rw [hkeep _ (fileAt_ne_tmpAt _ _ _ _).symm (directory_ne_tmpAt _ _ _).symm,
      tmpAt_eq hsafe] at hn
    obtain ⟨k, -, -, hcases⟩ := ht.files _ _ _ hn
    rcases hcases with ⟨-, htmp⟩ | ⟨hfile, -⟩
    · exact htmp
    · exact absurd hfile.symm (fileName_ne_tmpName k key)
  · intro n hn
    rw [hgone] at hn
    cases hn

theorem tidy_of_same_nodes (ht : Tidy json s) (hroot : s'.root = s.root)
    (hcwd : s'.fs.cwd = s.fs.cwd) (hnode : ∀ l, s'.fs.node l = s.fs.node l) :
    Tidy json s' := by
  have hlocation : rootLocation s' = rootLocation s := by
    rw [rootLocation, rootLocation, hroot, hcwd]
  refine ⟨hroot ▸ ht.no_nul, ?_, ?_, ?_⟩
  · rw [hlocation, hnode, ht.root]
  · intro dir content
    rw [hlocation, hnode]
    exact ht.directories dir content
  · intro name dir n hn
    rw [hlocation, hnode] at hn
    exact ht.files name dir n hn

/-- What `get` and `contains` answer for a key of a tidy store. -/
theorem reads_spec (hjson : json.Inverts) (ht : Tidy json s) (hsafe : SafeId key.cacheId) :
    (s.contains key).1 = (s.fs.node (fileAt s.root s.fs.cwd key)).isSome ∧
      (s.fs.node (fileAt s.root s.fs.cwd key) = none → (s.get json key).1 = .ok none) ∧
      ∀ obj blob, Framed json obj blob →
        s.fs.node (fileAt s.root s.fs.cwd key) = some (.file blob) →
          (s.get json key).1 = .ok (some obj.fields) := by
  have hnul := usable_of_safe ht.no_nul hsafe
  refine ⟨?_, fun hnone => ?_, fun obj blob hframed hfile => ?_⟩
  · rw [contains_fst, hnul]
    rfl
  · rw [get_fst, hnul, hnone]
    rfl
  · rw [get_fst, hnul, hfile]
    simp only [Bool.false_eq_true, if_false, unpackPayload_of_pack hjson hframed.1 hframed.2]
    rfl

/-! ### The listing -/

theorem parseFile_fileName (key : ChunkKey) :
    parseFile key.cacheId (fileName key) = some key := by
  have hworker : ∀ c ∈ (toString key.workerId).toList, decide (c ≠ '_') = true := by
    intro c hc
    rw [decide_eq_true_eq]
    rintro rfl
    exact notMem_toString_int (by decide) (by decide) _ hc
  rw [parseFile, toList_fileName, splitLast_append _ (by decide)]
  simp only [bind, Option.bind]
  rw [List.takeWhile_append_of_pos hworker, List.dropWhile_append_of_pos hworker]
  have hread : ∀ n : Int, pyInt n.repr.toList = some n := fun n => by
    rw [← Int.toString_eq_repr, pyInt_toString]
  simp [hread]

theorem parseFile_tmpName (dir : String) (key : ChunkKey) :
    parseFile dir (tmpName key) = none := by
  rw [parseFile, toList_tmpName, splitLast_append _ (by decide)]
  simp

theorem mem_keys_iff (ht : Tidy json s) :
    key ∈ s.keys ↔
      SafeId key.cacheId ∧ (s.fs.node (fileAt s.root s.fs.cwd key)).isSome := by
  have hnode : ∀ name parent, name :: parent ∈ s.fs.nodes.keys ↔
      (s.fs.node (name :: parent)).isSome := fun name parent => AList.lookup_isSome.symm
  rw [DiskBackend.keys, List.mem_filterMap]
  constructor
  · rintro ⟨location, hmem, hparse⟩
    split at hparse
    · rename_i file cacheDir above
      split_ifs at hparse with habove
      rw [habove] at hmem
      obtain ⟨n, hn⟩ := Option.isSome_iff_exists.mp ((hnode _ _).mp hmem)
      obtain ⟨k, hsafe, rfl, hcases⟩ := ht.files _ _ _ hn
      rcases hcases with ⟨rfl, -⟩ | ⟨rfl, -⟩
      · rw [parseFile_tmpName] at hparse
        cases hparse
      · rw [parseFile_fileName] at hparse
        obtain rfl := Option.some.inj hparse
        refine ⟨hsafe, ?_⟩
        rw [fileAt_eq hsafe]
        exact (hnode _ _).mp hmem
    · cases hparse
  · rintro ⟨hsafe, hsome⟩
    rw [fileAt_eq hsafe] at hsome
    refine ⟨_, (hnode _ _).mpr hsome, ?_⟩
    exact (if_pos rfl).trans (parseFile_fileName key)

end Tidy

end LlmCache.Store.DiskChunks
