import LlmCache.Store.DiskChunks

/-!
# The disk store across restarts

A new backend on an old root finds the chunks by their file names alone.  Over
any run of puts and removes, in however many backends one after another, the
names listed are those of the chunks put and not removed, and a cache without
chunks has no directory.
-/

namespace LlmCache.Store.DiskRestarts

open Errors Lib Payload LlmCache.Types DiskBackend DiskIsolation DiskChunks
open KeyedStore (Reply)

/-- What happens to a root: a new backend is opened on it, or the one in use is
called. -/
inductive Call where
  | reopen (capacityBytes : Option Nat)
  | put (key : ChunkKey) (obj : KVPayload) (pin : Bool)
  | remove (key : ChunkKey)

/-- The backend in use, as restarts and calls follow one another. -/
def restarts (json : JsonText) (root : String) :
    Machine DiskBackend Call Raised (Reply UnpackedPayload) where
  step s call :=
    match call with
    | .reopen capacityBytes =>
        match create s.fs root capacityBytes with
        | .error err => (.error err, s)
        | .ok s' => (.ok .done, s')
    | .put key obj pin => DiskBackend.step json s (.put key obj pin)
    | .remove key => DiskBackend.step json s (.remove key)

/-- The ids are plain names, and the framing gives back what is put. -/
def Admissible (json : JsonText) : Call → Prop
  | .reopen _ => True
  | .put key obj _ => PurePath.Plain key.cacheId ∧ ∃ blob, Framed json obj blob
  | .remove key => PurePath.Plain key.cacheId

/-- The system accepts the id of the call. -/
def Call.NulFree : Call → Prop
  | .reopen _ => True
  | .put key .. | .remove key => '\x00' ∉ key.cacheId.toList

/-- What an entry of a history says about a key: the object it has been given, or
that it has been removed. -/
def tells : Call × Except Raised (Reply UnpackedPayload) → Option (ChunkKey × Option KVPayload)
  | (.put key obj _, .ok _) => some (key, some obj)
  | (.remove key, .ok _) => some (key, none)
  | _ => none

/-- The object that has been put last and not been removed since. -/
def held (past : List (Call × Except Raised (Reply UnpackedPayload))) (key : ChunkKey) :
    Option KVPayload :=
  (Machine.lastOf tells past key).join

/-- The file of a key has the frame of the object it holds, or is not there. -/
def Stores (json : JsonText) (s : DiskBackend) (key : ChunkKey) : Option KVPayload → Prop
  | none => s.fs.node (fileAt s.root s.fs.cwd key) = none
  | some obj => ∃ blob, Framed json obj blob ∧
      s.fs.node (fileAt s.root s.fs.cwd key) = some (.file blob)

/-- Under the root there are chunks in their directories and nothing else. -/
structure Clean (json : JsonText) (s : DiskBackend) : Prop where
  tidy : Tidy json s
  chunks : ∀ name dir, (s.fs.node (name :: dir :: rootLocation s)).isSome →
    ∃ key : ChunkKey, SafeId key.cacheId ∧ dir = key.cacheId ∧ name = fileName key
  occupied : ∀ dir, s.fs.node (dir :: rootLocation s) = some .directory →
    ∃ name, (s.fs.node (name :: dir :: rootLocation s)).isSome

section Steps

variable {json : JsonText} {s s' : DiskBackend} {key : ChunkKey}

theorem safeId_of_plain (hplain : PurePath.Plain key.cacheId)
    (hnul : '\x00' ∉ key.cacheId.toList) : SafeId key.cacheId :=
  ⟨hplain, hnul⟩

theorem rootLocation_congr (hroot : s'.root = s.root) (hcwd : s'.fs.cwd = s.fs.cwd) :
    rootLocation s' = rootLocation s := by
  rw [rootLocation, rootLocation, hroot, hcwd]

theorem fileAt_congr (hroot : s'.root = s.root) (hcwd : s'.fs.cwd = s.fs.cwd) (k : ChunkKey) :
    fileAt s'.root s'.fs.cwd k = fileAt s.root s.fs.cwd k := by
  rw [hroot, hcwd]

/-! ## Puts -/

theorem clean_put (h : Clean json s) (hsafe : SafeId key.cacheId) {obj : KVPayload}
    {blob : List UInt8} (hframed : Framed json obj blob) (pin : Bool) :
    Clean json (s.put json key obj pin).2 := by
  have hroot : (s.put json key obj pin).2.root = s.root := root_put obj pin
  have hlocation := rootLocation_congr hroot (put_frame json s key obj pin).cwd
  obtain ⟨-, -, hnode⟩ := (put_spec h.tidy hsafe obj pin).1 blob hframed.2
  rw [tmpAt_eq hsafe, fileAt_eq hsafe, directory_eq hsafe] at hnode
  refine ⟨tidy_put h.tidy hsafe hframed.1 pin, ?_, ?_⟩
  · intro name dir hsome
    rw [hlocation, hnode] at hsome
    split_ifs at hsome with htmp hfile hdir
    · cases hsome
    · obtain ⟨rfl, hrest⟩ := List.cons.inj hfile
      exact ⟨key, hsafe, (List.cons.inj hrest).1, rfl⟩
    · exact absurd (congrArg List.length hdir) (by simp)
    · exact h.chunks name dir hsome
  · intro dir hdir
    rw [hlocation] at hdir ⊢
    by_cases hsame : dir = key.cacheId
    · refine ⟨fileName key, ?_⟩
      rw [hsame, hnode, if_neg, if_pos rfl]
      · rfl
      · intro heq
        exact fileName_ne_tmpName key key (List.cons.inj heq).1
    · have hold : s.fs.node (dir :: rootLocation s) = some .directory := by
        rw [hnode, if_neg, if_neg, if_neg] at hdir
        · exact hdir
        · intro heq
          exact hsame (List.cons.inj heq).1
        · intro heq
          exact absurd (congrArg List.length heq) (by simp)
        · intro heq
          exact absurd (congrArg List.length heq) (by simp)
      obtain ⟨name, hname⟩ := h.occupied dir hold
      refine ⟨name, ?_⟩
      have hother : ∀ file, name :: dir :: rootLocation s ≠
          file :: key.cacheId :: rootLocation s := by
        intro file heq
        exact hsame (List.cons.inj (List.cons.inj heq).2).1
      rw [hnode, if_neg (hother _), if_neg (hother _), if_neg]
      · exact hname
      · intro heq
        exact absurd (congrArg List.length heq) (by simp)

theorem stores_put_self (h : Clean json s) (hsafe : SafeId key.cacheId) {obj : KVPayload}
    {blob : List UInt8} (hframed : Framed json obj blob) (pin : Bool) :
    Stores json (s.put json key obj pin).2 key (some obj) := by
  obtain ⟨-, -, hnode⟩ := (put_spec h.tidy hsafe obj pin).1 blob hframed.2
  refine ⟨blob, hframed, ?_⟩
  rw [fileAt_congr (root_put obj pin) (put_frame json s key obj pin).cwd, hnode,
    if_neg (fileAt_ne_tmpAt _ _ _ _), if_pos rfl]

theorem stores_congr (hroot : s'.root = s.root) (hcwd : s'.fs.cwd = s.fs.cwd) {k : ChunkKey}
    (hnode : s'.fs.node (fileAt s.root s.fs.cwd k) = s.fs.node (fileAt s.root s.fs.cwd k))
    (obj : Option KVPayload) : Stores json s' k obj ↔ Stores json s k obj := by
  cases obj with
  | none => rw [Stores, Stores, fileAt_congr hroot hcwd, hnode]
  | some obj => simp only [Stores, fileAt_congr hroot hcwd, hnode]

theorem node_put_other (h : Clean json s) (hsafe : SafeId key.cacheId) {obj : KVPayload}
    {blob : List UInt8} (hframed : Framed json obj blob) (pin : Bool) {k : ChunkKey}
    (hsafe' : SafeId k.cacheId) (hk : k ≠ key) :
    (s.put json key obj pin).2.fs.node (fileAt s.root s.fs.cwd k) =
      s.fs.node (fileAt s.root s.fs.cwd k) := by
  obtain ⟨-, -, hnode⟩ := (put_spec h.tidy hsafe obj pin).1 blob hframed.2
  rw [hnode, if_neg (fileAt_ne_tmpAt _ _ _ _), if_neg fun heq => hk (fileAt_inj hsafe' hsafe heq),
    if_neg]
  rw [fileAt_eq hsafe', directory_eq hsafe]
  intro heq
  exact absurd (congrArg List.length heq) (by simp)

/-! ## Removes -/

theorem directory_remove (h : Clean json s) (hsafe : SafeId key.cacheId)
    (hdir : (s.remove key).2.fs.node (key.cacheId :: rootLocation s) = some .directory) :
    ∃ name, ((s.remove key).2.fs.node (name :: key.cacheId :: rootLocation s)).isSome := by
  have hnul := usable_of_safe h.tidy.no_nul hsafe
  rw [remove_eq, hnul, if_neg Bool.false_ne_true] at hdir ⊢
  simp only at hdir ⊢
  cases hnode : s.fs.node (fileAt s.root s.fs.cwd key) with
  | none =>
      rw [hnode] at hdir
      exact h.occupied key.cacheId hdir
  | some n =>
      obtain ⟨obj, blob, -, rfl⟩ := chunk_of_node h.tidy hsafe hnode
      rw [hnode] at hdir
      simp only [directory_eq hsafe] at hdir ⊢
      rw [FileSystem.node_rmdir] at hdir
      split_ifs at hdir with hremoved
      have hfailed := fun hok => hremoved ⟨rfl, hok⟩
      obtain ⟨child, hchild⟩ := (FileSystem.rmdir_of_directory hdir).resolve_left hfailed
      refine ⟨child, ?_⟩
      rw [FileSystem.node_rmdir, if_neg]
      · exact hchild
      · rintro ⟨heq, -⟩
        exact absurd (congrArg List.length heq) (by simp)

theorem clean_remove (h : Clean json s) (hsafe : SafeId key.cacheId) :
    Clean json (s.remove key).2 := by
  have hroot : (s.remove key).2.root = s.root := root_remove
  have hlocation := rootLocation_congr hroot (remove_frame s key).cwd
  obtain ⟨-, -, hgone, -, hkeep⟩ := remove_spec h.tidy hsafe
  rw [fileAt_eq hsafe] at hgone
  rw [fileAt_eq hsafe, directory_eq hsafe] at hkeep
  have hlength : ∀ {a b : Location}, a.length ≠ b.length → a ≠ b := fun hne heq =>
    hne (congrArg List.length heq)
  refine ⟨tidy_remove h.tidy hsafe, ?_, ?_⟩
  · intro name dir hsome
    rw [hlocation] at hsome
    by_cases hfile : name :: dir :: rootLocation s = fileName key :: key.cacheId :: rootLocation s
    · rw [hfile, hgone] at hsome
      cases hsome
    · rw [hkeep _ hfile (hlength (by simp))] at hsome
      exact h.chunks name dir hsome
  · intro dir hdir
    rw [hlocation] at hdir ⊢
    by_cases hsame : dir = key.cacheId
    · rw [hsame] at hdir ⊢
      exact directory_remove h hsafe hdir
    · have hother : ∀ name, (s.remove key).2.fs.node (name :: dir :: rootLocation s) =
          s.fs.node (name :: dir :: rootLocation s) := by
        intro name
        apply hkeep
        · intro heq
          exact hsame (List.cons.inj (List.cons.inj heq).2).1
        · exact hlength (by simp)
      rw [hkeep _ (hlength (by simp)) fun heq => hsame (List.cons.inj heq).1] at hdir
      obtain ⟨name, hname⟩ := h.occupied dir hdir
      exact ⟨name, (hother name).symm ▸ hname⟩

theorem stores_remove_self (h : Clean json s) (hsafe : SafeId key.cacheId) :
    Stores json (s.remove key).2 key none := by
  obtain ⟨-, -, hgone, -, -⟩ := remove_spec h.tidy hsafe
  rw [Stores, fileAt_congr root_remove (remove_frame s key).cwd]
  exact hgone

theorem node_remove_other (h : Clean json s) (hsafe : SafeId key.cacheId) {k : ChunkKey}
    (hsafe' : SafeId k.cacheId) (hk : k ≠ key) :
    (s.remove key).2.fs.node (fileAt s.root s.fs.cwd k) =
      s.fs.node (fileAt s.root s.fs.cwd k) := by
  obtain ⟨-, -, -, -, hkeep⟩ := remove_spec h.tidy hsafe
  apply hkeep
  · exact fun heq => hk (fileAt_inj hsafe' hsafe heq)
  · rw [fileAt_eq hsafe', directory_eq hsafe]
    intro heq
    exact absurd (congrArg List.length heq) (by simp)

/-! ## Calls with a NUL character in the id -/

theorem hasNul_of_nul (hplain : PurePath.Plain key.cacheId) (hnul : '\x00' ∈ key.cacheId.toList) :
    (s.path key).hasNul = true := by
  rw [path, PurePath.hasNul_join_plain _ (plain_fileName key),
    PurePath.hasNul_join_plain _ hplain]
  simp [hnul]

theorem put_of_nul (hplain : PurePath.Plain key.cacheId) (hnul : '\x00' ∈ key.cacheId.toList)
    (obj : KVPayload) (pin : Bool) :
    s.put json key obj pin = (.error (.valueError "embedded null byte"), s) := by
  rw [put, if_pos (hasNul_of_nul hplain hnul)]

theorem remove_of_nul (hplain : PurePath.Plain key.cacheId)
    (hnul : '\x00' ∈ key.cacheId.toList) :
    s.remove key = (.ok false, { s with pinned := s.pinned.erase key }) := by
  rw [remove_eq, if_pos (hasNul_of_nul hplain hnul)]

/-! ## Restarts -/

theorem clean_of_same_nodes (h : Clean json s) (hroot : s'.root = s.root)
    (hcwd : s'.fs.cwd = s.fs.cwd) (hnode : ∀ l, s'.fs.node l = s.fs.node l) : Clean json s' := by
  have hlocation := rootLocation_congr hroot hcwd
  refine ⟨tidy_of_same_nodes h.tidy hroot hcwd hnode, ?_, ?_⟩
  · intro name dir hsome
    rw [hlocation, hnode] at hsome
    exact h.chunks name dir hsome
  · intro dir hdir
    rw [hlocation] at hdir ⊢
    rw [hnode] at hdir
    obtain ⟨name, hname⟩ := h.occupied dir hdir
    exact ⟨name, (hnode _).symm ▸ hname⟩

theorem create_of_tidy (ht : Tidy json s) {root : String} (hroot : s.root = PurePath.ofString root)
    (capacityBytes : Option Nat) :
    ∃ s', create s.fs root capacityBytes = .ok s' ∧ s'.root = s.root ∧ s'.fs.cwd = s.fs.cwd ∧
      ∀ l, s'.fs.node l = s.fs.node l := by
  have hok : (s.fs.makeDirs (rootLocation s)).1 = .ok () := by
    apply FileSystem.makeDirs_ok
    intro l hl content
    rw [node_above_root ht hl]
    simp
  have hnode : ∀ l, (s.fs.makeDirs (rootLocation s)).2.node l = s.fs.node l := by
    intro l
    by_cases hl : l <:+ rootLocation s
    · have hnode := node_above_root ht hl
      rw [hnode]
      exact FileSystem.node_makeDirs_of_isSome hnode
    · exact (FileSystem.frame_makeDirs _ _).node l hl
  have hnul : ¬s.root.hasNul = true := by
    rw [ht.no_nul]
    exact Bool.false_ne_true
  let opened : DiskBackend :=
    ⟨s.root, (s.fs.makeDirs (rootLocation s)).2, capacityBytes, ∅⟩
  refine ⟨opened, ?_, rfl, (FileSystem.frame_makeDirs _ _).cwd, hnode⟩
  rw [rootLocation] at hok
  rw [create]
  simp only [← hroot, hok, if_neg hnul]
  rfl

end Steps

/-! ## Runs -/

/-- The backend is on the root, which is clean, and each key has what the history
tells. -/
structure Faithful (json : JsonText) (root : String)
    (past : List (Call × Except Raised (Reply UnpackedPayload))) (s : DiskBackend) : Prop where
  root : s.root = PurePath.ofString root
  clean : Clean json s
  stores : ∀ key, SafeId key.cacheId → Stores json s key (held past key)
  safe : ∀ key, (held past key).isSome → SafeId key.cacheId
  answered : ∀ entry ∈ past, entry.1.NulFree → ∃ reply, entry.2 = .ok reply

section Runs

variable {json : JsonText} {root : String} {s s' : DiskBackend}
  {past : List (Call × Except Raised (Reply UnpackedPayload))}

theorem held_snoc_of_tells {entry : Call × Except Raised (Reply UnpackedPayload)}
    {key : ChunkKey} {obj : Option KVPayload} (h : tells entry = some (key, obj)) (k : ChunkKey) :
    held (past ++ [entry]) k = if k = key then obj else held past k := by
  rw [held, Machine.lastOf_snoc, h]
  by_cases hk : key = k
  · rw [if_pos hk.symm]
    simp only [if_pos hk, Option.join_some]
  · rw [if_neg (Ne.symm hk)]
    simp only [if_neg hk, held]

theorem held_snoc_of_silent {entry : Call × Except Raised (Reply UnpackedPayload)}
    (h : tells entry = none) (k : ChunkKey) : held (past ++ [entry]) k = held past k := by
  rw [held, Machine.lastOf_snoc, h, held]

theorem answered_snoc {entry : Call × Except Raised (Reply UnpackedPayload)}
    (h : ∀ entry ∈ past, entry.1.NulFree → ∃ reply, entry.2 = .ok reply)
    (hentry : entry.1.NulFree → ∃ reply, entry.2 = .ok reply) :
    ∀ e ∈ past ++ [entry], e.1.NulFree → ∃ reply, e.2 = .ok reply := by
  intro e he
  rcases List.mem_append.mp he with hold | hnew
  · exact h e hold
  · rw [List.mem_singleton.mp hnew]
    exact hentry

theorem faithful_put (h : Faithful json root past s) {key : ChunkKey}
    (hplain : PurePath.Plain key.cacheId) {obj : KVPayload} {blob : List UInt8}
    (hframed : Framed json obj blob) (pin : Bool) :
    Faithful json root (past ++ [(.put key obj pin, ((restarts json root).step s
      (.put key obj pin)).1)]) (s.put json key obj pin).2 := by
  have hanswer : ((restarts json root).step s (.put key obj pin)).1 =
      (s.put json key obj pin).1.map fun _ => .done := rfl
  rw [hanswer]
  by_cases hnul : '\x00' ∈ key.cacheId.toList
  · rw [put_of_nul hplain hnul]
    refine ⟨h.root, h.clean, ?_, ?_, answered_snoc h.answered fun hfree => absurd hnul hfree⟩
    · intro k hsafe
      rw [held_snoc_of_silent rfl]
      exact h.stores k hsafe
    · intro k hsome
      rw [held_snoc_of_silent rfl] at hsome
      exact h.safe k hsome
  · have hsafe := safeId_of_plain hplain hnul
    obtain ⟨hok, -, -⟩ := (put_spec h.clean.tidy hsafe obj pin).1 blob hframed.2
    have htells : tells (.put key obj pin,
        (s.put json key obj pin).1.map fun _ => Reply.done) = some (key, some obj) := by
      rw [hok]
      rfl
    refine ⟨(root_put obj pin).trans h.root, clean_put h.clean hsafe hframed pin, ?_, ?_,
      answered_snoc h.answered fun _ => ⟨.done, by rw [hok]; rfl⟩⟩
    · intro k hsafe'
      rw [held_snoc_of_tells htells]
      split_ifs with hk
      · rw [hk]
        exact stores_put_self h.clean hsafe hframed pin
      · rw [stores_congr (root_put obj pin) (put_frame json s key obj pin).cwd
          (node_put_other h.clean hsafe hframed pin hsafe' hk)]
        exact h.stores k hsafe'
    · intro k hsome
      rw [held_snoc_of_tells htells] at hsome
      split_ifs at hsome with hk
      · rw [hk]
        exact hsafe
      · exact h.safe k hsome

theorem faithful_remove (h : Faithful json root past s) {key : ChunkKey}
    (hplain : PurePath.Plain key.cacheId) :
    Faithful json root (past ++ [(.remove key, ((restarts json root).step s (.remove key)).1)])
      (s.remove key).2 := by
  have hanswer : ((restarts json root).step s (.remove key)).1 = (s.remove key).1.map .flag := rfl
  rw [hanswer]
  by_cases hnul : '\x00' ∈ key.cacheId.toList
  · have hsafe : ∀ k : ChunkKey, SafeId k.cacheId → k ≠ key := by
      rintro k hsafe rfl
      exact hsafe.no_nul hnul
    have htells : tells (.remove key, (s.remove key).1.map Reply.flag) = some (key, none) := by
      rw [remove_of_nul hplain hnul]
      rfl
    have hnone : held past key = none := by
      by_contra hsome
      exact (h.safe key (Option.isSome_iff_ne_none.mpr hsome)).no_nul hnul
    have hsame : ∀ k, held (past ++ [(.remove key, (s.remove key).1.map Reply.flag)]) k =
        held past k := by
      intro k
      rw [held_snoc_of_tells htells]
      split_ifs with hk
      · rw [hk, hnone]
      · rfl
    have hfs : (s.remove key).2.fs = s.fs := by rw [remove_of_nul hplain hnul]
    refine ⟨root_remove.trans h.root, ?_, ?_, ?_, answered_snoc h.answered fun hfree =>
      absurd hnul hfree⟩
    · exact clean_of_same_nodes h.clean root_remove (by rw [hfs]) fun l => by rw [hfs]
    · intro k hsafe'
      rw [hsame, stores_congr root_remove (by rw [hfs]) (by rw [hfs])]
      exact h.stores k hsafe'
    · intro k hsome
      rw [hsame] at hsome
      exact h.safe k hsome
  · have hsafe := safeId_of_plain hplain hnul
    obtain ⟨hok, -⟩ := remove_spec h.clean.tidy hsafe
    have htells : tells (.remove key, (s.remove key).1.map Reply.flag) = some (key, none) := by
      rw [hok]
      rfl
    refine ⟨root_remove.trans h.root, clean_remove h.clean hsafe, ?_, ?_,
      answered_snoc h.answered fun _ => ⟨_, by rw [hok]; rfl⟩⟩
    · intro k hsafe'
      rw [held_snoc_of_tells htells]
      split_ifs with hk
      · rw [hk]
        exact stores_remove_self h.clean hsafe
      · rw [stores_congr root_remove (remove_frame s key).cwd
          (node_remove_other h.clean hsafe hsafe' hk)]
        exact h.stores k hsafe'
    · intro k hsome
      rw [held_snoc_of_tells htells] at hsome
      split_ifs at hsome with hk
      · cases hsome
      · exact h.safe k hsome

theorem faithful_step (h : Faithful json root past s) {call : Call}
    (hcall : Admissible json call) :
    Faithful json root (past ++ [(call, ((restarts json root).step s call).1)])
      ((restarts json root).step s call).2 := by
  cases call with
  | put key obj pin =>
      obtain ⟨hplain, blob, hframed⟩ := hcall
      exact faithful_put h hplain hframed pin
  | remove key => exact faithful_remove h hcall
  | reopen capacityBytes =>
      obtain ⟨opened, hopen, hroot, hcwd, hnode⟩ :=
        create_of_tidy h.clean.tidy h.root capacityBytes
      have hstep : (restarts json root).step s (.reopen capacityBytes) = (.ok .done, opened) := by
        simp only [restarts, hopen]
      rw [hstep]
      refine ⟨hroot.trans h.root, clean_of_same_nodes h.clean hroot hcwd hnode, ?_, ?_,
        answered_snoc h.answered fun _ => ⟨.done, rfl⟩⟩
      · intro k hsafe
        rw [held_snoc_of_silent rfl, stores_congr hroot hcwd (hnode _)]
        exact h.stores k hsafe
      · intro k hsome
        rw [held_snoc_of_silent rfl] at hsome
        exact h.safe k hsome

theorem faithful_create {fs : FileSystem} {capacityBytes : Option Nat}
    (hopen : create fs root capacityBytes = .ok s)
    (hempty : ∀ name, fs.node (name :: (PurePath.ofString root).resolve fs.cwd) = none) :
    Faithful json root [] s := by
  unfold create at hopen
  simp only at hopen
  split_ifs at hopen with hnul
  cases hmade : (fs.makeDirs ((PurePath.ofString root).resolve fs.cwd)).1 with
  | error err =>
      rw [hmade] at hopen
      cases hopen
  | ok u =>
      rw [hmade] at hopen
      obtain rfl := (Except.ok.inj hopen).symm
      have hcwd : (fs.makeDirs ((PurePath.ofString root).resolve fs.cwd)).2.cwd = fs.cwd :=
        (FileSystem.frame_makeDirs _ _).cwd
      have hself := FileSystem.node_makeDirs_self hmade
      have hnothing : ∀ name, (fs.makeDirs ((PurePath.ofString root).resolve fs.cwd)).2.node
          (name :: (PurePath.ofString root).resolve fs.cwd) = none := by
        intro name
        rw [(FileSystem.frame_makeDirs _ _).node, hempty]
        intro hsuffix
        have hlength := hsuffix.length_le
        rw [List.length_cons] at hlength
        omega
      have hchild : ∀ name dir, (fs.makeDirs ((PurePath.ofString root).resolve fs.cwd)).2.node
          (name :: dir :: (PurePath.ofString root).resolve fs.cwd) = none := by
        intro name dir
        by_contra hsome
        have hparent := FileSystem.node_parent (Option.isSome_iff_ne_none.mpr hsome)
        rw [hnothing] at hparent
        cases hparent
      have hlocation : ∀ pinned, rootLocation ⟨PurePath.ofString root,
          (fs.makeDirs ((PurePath.ofString root).resolve fs.cwd)).2, capacityBytes, pinned⟩ =
            (PurePath.ofString root).resolve fs.cwd := by
        intro pinned
        rw [rootLocation, hcwd]
      refine ⟨rfl, ⟨⟨Bool.eq_false_of_not_eq_true hnul, ?_, ?_, ?_⟩, ?_, ?_⟩, ?_, ?_, ?_⟩
      · rw [hlocation]
        exact hself
      · intro dir content
        rw [hlocation, hnothing]
        simp
      · intro name dir n hn
        rw [hlocation, hchild] at hn
        cases hn
      · intro name dir hsome
        rw [hlocation, hchild] at hsome
        cases hsome
      · intro dir hdir
        rw [hlocation, hnothing] at hdir
        cases hdir
      · intro key hsafe
        rw [show held [] key = none from rfl, Stores, fileAt_eq hsafe, hlocation]
        exact hchild _ _
      · intro key hsome
        cases hsome
      · intro entry hentry
        cases hentry

/-! ## Listing, reading and clearing -/

/-- The listing reads the locations one by one, and each key is read at one. -/
theorem keys_eq_filterMap (h : Clean json s) :
    ∃ read : Location → Option ChunkKey, s.keys = s.fs.nodes.keys.filterMap read ∧
      ∀ location ∈ s.fs.nodes.keys, ∀ key, read location = some key →
        location = fileName key :: key.cacheId :: rootLocation s := by
  refine ⟨_, rfl, ?_⟩
  intro location hmem key hparse
  split at hparse
  · rename_i file cacheDir above
    split_ifs at hparse with habove
    rw [habove] at hmem ⊢
    obtain ⟨k, hsafe, rfl, rfl⟩ := h.chunks file cacheDir
      (AList.lookup_isSome.mpr (AList.mem_keys.mpr hmem))
    rw [parseFile_fileName] at hparse
    obtain rfl := Option.some.inj hparse
    rfl
  · cases hparse

theorem nodup_keys (h : Clean json s) : s.keys.Nodup := by
  obtain ⟨read, hkeys, hread⟩ := keys_eq_filterMap h
  rw [hkeys, List.Nodup, List.pairwise_filterMap]
  have hnodup : s.fs.nodes.keys.Nodup := s.fs.nodes.nodupKeys
  apply hnodup.imp_of_mem
  intro l l' hl hl' hne key hkey key' hkey'
  rintro rfl
  exact hne ((hread l hl key hkey).trans (hread l' hl' key hkey').symm)

/-- Removing keys with safe ids, each of the keys listed among them. -/
theorem removeKeys_spec (h : Clean json s) {keys : List ChunkKey}
    (hsafe : ∀ key ∈ keys, SafeId key.cacheId) :
    (removeKeys keys s).1 = .ok () ∧ Clean json (removeKeys keys s).2 ∧
      ∀ k, SafeId k.cacheId → ((k ∈ (removeKeys keys s).2.keys) ↔ k ∈ s.keys ∧ k ∉ keys) := by
  induction keys generalizing s with
  | nil => exact ⟨rfl, h, fun k _ => by simp [removeKeys]⟩
  | cons key rest ih =>
      have hkey := hsafe key (List.mem_cons_self ..)
      have hrest : ∀ k ∈ rest, SafeId k.cacheId := fun k hk => hsafe k (List.mem_cons_of_mem _ hk)
      obtain ⟨hok, -⟩ := remove_spec h.tidy hkey
      have hclean := clean_remove h hkey
      obtain ⟨hdone, hleft, hlisted⟩ := ih hclean hrest
      have hstep : removeKeys (key :: rest) s = removeKeys rest (s.remove key).2 := by
        simp only [removeKeys, hok]
      rw [hstep]
      refine ⟨hdone, hleft, fun k hk => ?_⟩
      rw [hlisted k hk, mem_keys_iff hclean.tidy, mem_keys_iff h.tidy,
        fileAt_congr root_remove (remove_frame s key).cwd, List.mem_cons, not_or]
      by_cases hsame : k = key
      · have hgone : (s.remove key).2.fs.node (fileAt s.root s.fs.cwd k) = none := by
          rw [hsame]
          exact (remove_spec h.tidy hkey).2.2.1
        rw [hgone]
        simp [hsame]
      · rw [node_remove_other h hkey hk hsame]
        simp [hsame]

theorem root_empty_of_no_keys (h : Clean json s) (hnone : ∀ key, SafeId key.cacheId → key ∉ s.keys)
    (name : String) : s.fs.node (name :: rootLocation s) = none := by
  cases hnode : s.fs.node (name :: rootLocation s) with
  | none => rfl
  | some n =>
      cases n with
      | file content => exact absurd hnode (h.tidy.directories name content)
      | directory =>
          obtain ⟨file, hfile⟩ := h.occupied name hnode
          obtain ⟨key, hsafe, rfl, rfl⟩ := h.chunks file name hfile
          rw [← fileAt_eq hsafe] at hfile
          exact absurd ((mem_keys_iff h.tidy).mpr ⟨hsafe, hfile⟩) (hnone key hsafe)

theorem Faithful.mem_keys_iff {root : String}
    {past : List (Call × Except Raised (Reply UnpackedPayload))}
    (h : Faithful json root past s) (key : ChunkKey) :
    key ∈ s.keys ↔ (held past key).isSome := by
  rw [DiskChunks.mem_keys_iff h.clean.tidy]
  constructor
  · rintro ⟨hsafe, hsome⟩
    have hstores := h.stores key hsafe
    cases hheld : held past key with
    | none =>
        rw [hheld] at hstores
        rw [hstores] at hsome
        cases hsome
    | some obj => rfl
  · intro hsome
    have hsafe := h.safe key hsome
    have hstores := h.stores key hsafe
    obtain ⟨obj, hobj⟩ := Option.isSome_iff_exists.mp hsome
    rw [hobj] at hstores
    obtain ⟨blob, -, hfile⟩ := hstores
    exact ⟨hsafe, by rw [hfile]; rfl⟩

theorem Faithful.get_fst {root : String}
    {past : List (Call × Except Raised (Reply UnpackedPayload))}
    (h : Faithful json root past s) (hjson : json.Inverts) {key : ChunkKey}
    (hplain : PurePath.Plain key.cacheId) :
    (s.get json key).1 = .ok ((held past key).map KVPayload.fields) := by
  by_cases hnul : '\x00' ∈ key.cacheId.toList
  · have hheld : held past key = none := by
      by_contra hsome
      exact (h.safe key (Option.isSome_iff_ne_none.mpr hsome)).no_nul hnul
    rw [DiskIsolation.get_fst, if_pos (hasNul_of_nul hplain hnul), hheld]
    rfl
  · have hkey := safeId_of_plain hplain hnul
    obtain ⟨-, hmissing, hread⟩ := reads_spec hjson h.clean.tidy hkey
    have hstores := h.stores key hkey
    cases hheld : held past key with
    | none =>
        rw [hheld] at hstores
        exact hmissing hstores
    | some obj =>
        rw [hheld] at hstores
        obtain ⟨blob, hframed, hfile⟩ := hstores
        exact hread obj blob hframed hfile

end Runs

/-- Over any run of puts and removes with restarts in between, the listing is
what has been put and not removed, each key once, every key reads as the object
put last, caches without chunks have no directory, and `clear` leaves the root
empty. -/
theorem restarts_enumerate (json : JsonText) (hjson : json.Inverts) (fs : FileSystem)
    (root : String) (capacityBytes : Option Nat) (start : DiskBackend)
    (hopen : create fs root capacityBytes = .ok start)
    (hempty : ∀ name, fs.node (name :: (PurePath.ofString root).resolve fs.cwd) = none)
    (calls : List Call) (hcalls : ∀ call ∈ calls, Admissible json call) :
    let past := (restarts json root).trace start calls
    let s := (restarts json root).exec start calls
    let cleared := DiskBackend.step json s .clear
    (∀ entry ∈ past, entry.1.NulFree → ∃ reply, entry.2 = .ok reply) ∧
      s.keys.Nodup ∧ (∀ key, key ∈ s.keys ↔ (held past key).isSome) ∧
      (∀ key, PurePath.Plain key.cacheId →
        (s.get json key).1 = .ok ((held past key).map KVPayload.fields)) ∧
      (∀ dir, s.fs.node (dir :: rootLocation s) = some .directory →
        ∃ key ∈ s.keys, key.cacheId = dir) ∧
      cleared.1 = .ok .done ∧ cleared.2.keys = [] ∧
        ∀ name, cleared.2.fs.node (name :: rootLocation cleared.2) = none := by
  intro past s cleared
  have hrun : Faithful json root past s := by
    have hstart : Faithful json root [] start := faithful_create hopen hempty
    exact (restarts json root).history_induction (G := fun _ => Admissible json)
      (I := Faithful json root) (fun _ _ _ h hcall => faithful_step h hcall) [] hstart
      ((restarts json root).stepsMeet_of_forall hcalls start)
  have hsafe : ∀ key ∈ s.keys, SafeId key.cacheId := fun key hkey =>
    ((mem_keys_iff hrun.clean.tidy).mp hkey).1
  obtain ⟨hdone, hclean, hleft⟩ := removeKeys_spec hrun.clean hsafe
  have hnone : ∀ key, SafeId key.cacheId → key ∉ cleared.2.keys := by
    intro key hkey hmem
    have hmust := (hleft key hkey).mp hmem
    exact hmust.2 hmust.1
  refine ⟨hrun.answered, nodup_keys hrun.clean, hrun.mem_keys_iff, ?_, ?_, ?_, ?_, ?_⟩
  · intro key hplain
    exact hrun.get_fst hjson hplain
  · intro dir hdir
    obtain ⟨name, hname⟩ := hrun.clean.occupied dir hdir
    obtain ⟨key, hkey, rfl, rfl⟩ := hrun.clean.chunks name dir hname
    rw [← fileAt_eq hkey] at hname
    exact ⟨key, (mem_keys_iff hrun.clean.tidy).mpr ⟨hkey, hname⟩, rfl⟩
  · show (removeKeys s.keys s).1.map _ = _
    rw [hdone]
    rfl
  · apply List.eq_nil_iff_forall_not_mem.mpr
    intro key hmem
    exact hnone key ((mem_keys_iff hclean.tidy).mp hmem).1 hmem
  · exact root_empty_of_no_keys hclean hnone

/-- Two caches, one of which is removed by a backend that has not put it. -/
theorem restarts_enumerate_sample :
    let calls : List Call := [.put ⟨"a", 0, 0⟩ samplePayload false,
      .put ⟨".b c", -1, 2⟩ samplePayload true, .reopen (some 5), .remove ⟨"a", 0, 0⟩]
    let s := (restarts sampleJson "/store").exec sampleStore calls
    ⟨".b c", -1, 2⟩ ∈ s.keys ∧ ⟨"a", 0, 0⟩ ∉ s.keys ∧
      (s.get sampleJson ⟨".b c", -1, 2⟩).1 = .ok (some samplePayload.fields) := by
  intro calls s
  have hplain : ∀ id : String, id ≠ "" → '/' ∉ id.toList → id ≠ "." → id ≠ ".." →
      PurePath.Plain id := fun _ h₁ h₂ h₃ h₄ => ⟨h₁, h₂, h₃, h₄⟩
  have ha : PurePath.Plain "a" := by
    apply hplain <;> decide +kernel
  have hb : PurePath.Plain ".b c" := by
    apply hplain <;> decide +kernel
  have hframed : ∃ blob, Framed sampleJson samplePayload blob := by
    rcases packPayload_cases sampleJson samplePayload with ⟨-, blob, hpack⟩ | ⟨hlong, -⟩
    · exact ⟨blob, wellFormed_samplePayload, hpack⟩
    · exact absurd hlong (by decide +kernel)
  have hcalls : ∀ call ∈ calls, Admissible sampleJson call := by
    intro call hcall
    simp only [calls, List.mem_cons, List.not_mem_nil, or_false] at hcall
    rcases hcall with rfl | rfl | rfl | rfl
    · exact ⟨ha, hframed⟩
    · exact ⟨hb, hframed⟩
    · trivial
    · exact ha
  obtain ⟨-, -, hlisted, hread, -⟩ := restarts_enumerate sampleJson sampleJson_inverts {} "/store"
    none sampleStore rfl (fun _ => rfl) calls hcalls
  have hheld : held ((restarts sampleJson "/store").trace sampleStore calls) ⟨".b c", -1, 2⟩ =
      some samplePayload := by
    decide +kernel
  have hgone : held ((restarts sampleJson "/store").trace sampleStore calls) ⟨"a", 0, 0⟩ =
      none := by
    decide +kernel
  refine ⟨?_, ?_, ?_⟩
  · rw [hlisted, hheld]
    rfl
  · rw [hlisted, hgone]
    exact Bool.false_ne_true
  · rw [hread _ hb, hheld]
    rfl

end LlmCache.Store.DiskRestarts
