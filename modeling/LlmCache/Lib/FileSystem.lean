import Mathlib.Data.Set.Insert
import LlmCache.Lib.OrderedDict
import LlmCache.Lib.Paths

/-!
# A tree of files

Directories and files at their locations, without links, and the system calls
on them.  A call that fails says why and leaves the tree alone.  The locations
that are handed to calls are kept.
-/

namespace LlmCache.Lib

inductive Node where
  | directory
  | file (content : List UInt8)
deriving DecidableEq

inductive OSError where
  | fileNotFound
  | fileExists
  | notADirectory
  | isADirectory
  | directoryNotEmpty
deriving DecidableEq, Repr

/-- What is at a location; `/` is a directory. -/
def nodeAt (nodes : OrderedDict Location Node) : Location → Option Node
  | [] => some .directory
  | name :: location => nodes.lookup (name :: location)

/-- A tree: everything in it is in a directory.  The locations handed to calls
are listed newest first. -/
structure FileSystem where
  cwd : Location := []
  nodes : OrderedDict Location Node := ∅
  closed : ∀ name location, (nodeAt nodes (name :: location)).isSome →
    nodeAt nodes location = some .directory := by
      simp [nodeAt]
  accessed : List Location := []

namespace FileSystem

variable (fs : FileSystem)

def node (location : Location) : Option Node :=
  nodeAt fs.nodes location

def access (location : Location) : FileSystem :=
  { fs with accessed := location :: fs.accessed }

theorem node_parent {name : String} {location : Location} {fs : FileSystem}
    (h : (fs.node (name :: location)).isSome) : fs.node location = some .directory :=
  fs.closed name location h

private theorem nodeAt_setItem (nodes : OrderedDict Location Node) (name : String)
    (location l : Location) (n : Node) :
    nodeAt (OrderedDict.setItem nodes (name :: location) n) l =
      if l = name :: location then some n else nodeAt nodes l := by
  cases l with
  | nil => simp [nodeAt]
  | cons x l => exact OrderedDict.lookup_setItem ..

private theorem nodeAt_erase (nodes : OrderedDict Location Node) (name : String)
    (location l : Location) :
    nodeAt (nodes.erase (name :: location)) l =
      if l = name :: location then none else nodeAt nodes l := by
  cases l with
  | nil => simp [nodeAt]
  | cons x l => exact OrderedDict.lookup_erase ..

/-- Put a node into a directory, in the place of a node that nothing is under. -/
def setNode (name : String) (location : Location) (n : Node)
    (hparent : fs.node location = some .directory)
    (hplace : fs.node (name :: location) ≠ some .directory) : FileSystem :=
  { fs with
    nodes := OrderedDict.setItem fs.nodes (name :: location) n
    closed := by
      intro x l hx
      rw [nodeAt_setItem] at hx ⊢
      have hl : (nodeAt fs.nodes l) = some .directory := by
        split_ifs at hx with heq
        · obtain ⟨rfl, rfl⟩ := List.cons.inj heq
          exact hparent
        · exact fs.closed x l hx
      have hne : l ≠ name :: location := by
        rintro rfl
        exact hplace hl
      rw [if_neg hne, hl] }

/-- Take away a node that nothing is under. -/
def removeNode (name : String) (location : Location)
    (hempty : ∀ child, fs.node (child :: name :: location) = none) : FileSystem :=
  { fs with
    nodes := fs.nodes.erase (name :: location)
    closed := by
      intro x l hx
      rw [nodeAt_erase] at hx ⊢
      split_ifs at hx with heq
      · cases hx
      · have hne : l ≠ name :: location := by
          rintro rfl
          have hnone := hempty x
          rw [node] at hnone
          rw [hnone] at hx
          cases hx
        rw [if_neg hne, fs.closed x l hx] }

@[simp] theorem node_access (location l : Location) : (fs.access location).node l = fs.node l := rfl

@[simp] theorem accessed_access (location : Location) :
    (fs.access location).accessed = location :: fs.accessed := rfl

theorem node_setNode (name : String) (location l : Location) (n : Node)
    (hparent : fs.node location = some .directory)
    (hplace : fs.node (name :: location) ≠ some .directory) :
    (fs.setNode name location n hparent hplace).node l =
      if l = name :: location then some n else fs.node l :=
  nodeAt_setItem ..

@[simp] theorem accessed_setNode (name : String) (location : Location) (n : Node)
    (hparent : fs.node location = some .directory)
    (hplace : fs.node (name :: location) ≠ some .directory) :
    (fs.setNode name location n hparent hplace).accessed = fs.accessed := rfl

theorem node_removeNode (name : String) (location l : Location)
    (hempty : ∀ child, fs.node (child :: name :: location) = none) :
    (fs.removeNode name location hempty).node l =
      if l = name :: location then none else fs.node l :=
  nodeAt_erase ..

@[simp] theorem accessed_removeNode (name : String) (location : Location)
    (hempty : ∀ child, fs.node (child :: name :: location) = none) :
    (fs.removeNode name location hempty).accessed = fs.accessed := rfl

theorem nothing_under_file {fs : FileSystem} {location : Location} {content : List UInt8}
    (h : fs.node location = some (.file content)) (child : String) :
    fs.node (child :: location) = none := by
  by_contra hsome
  rw [← ne_eq, ← Option.isSome_iff_ne_none] at hsome
  rw [fs.node_parent hsome] at h
  cases h

/-! ## System calls -/

/-- Why a location that is no directory cannot be passed through. -/
def whyMissing : Location → OSError
  | [] => .fileNotFound
  | name :: parent =>
      match fs.node (name :: parent) with
      | some (.file _) => .notADirectory
      | some .directory => .fileNotFound
      | none => whyMissing parent

/-- `os.mkdir`. -/
def mkdir : Location → Except OSError Unit × FileSystem
  | [] => (.error .fileExists, fs.access [])
  | name :: parent =>
      if hparent : fs.node parent = some .directory then
        if hplace : fs.node (name :: parent) = none then
          (.ok (), (fs.setNode name parent .directory hparent (by simp [hplace])).access
            (name :: parent))
        else (.error .fileExists, fs.access (name :: parent))
      else (.error (fs.whyMissing parent), fs.access (name :: parent))

/-- `path.mkdir(exist_ok=True)`. -/
def mkdirExistOk (location : Location) : Except OSError Unit × FileSystem :=
  let made := fs.mkdir location
  match made.1 with
  | .ok () => made
  | .error err =>
      if made.2.node location = some .directory then (.ok (), made.2) else (.error err, made.2)

/-- `path.mkdir(parents=True, exist_ok=True)`. -/
def makeDirs : FileSystem → Location → Except OSError Unit × FileSystem
  | fs, [] => fs.mkdirExistOk []
  | fs, name :: parent =>
      let made := fs.mkdir (name :: parent)
      if made.1 = .error .fileNotFound then
        let above := made.2.makeDirs parent
        match above.1 with
        | .error err => (.error err, above.2)
        | .ok () => above.2.mkdirExistOk (name :: parent)
      else fs.mkdirExistOk (name :: parent)

/-- Open for writing and write: a file that is there is replaced. -/
def writeFile (content : List UInt8) : Location → Except OSError Unit × FileSystem
  | [] => (.error .isADirectory, fs.access [])
  | name :: parent =>
      if hparent : fs.node parent = some .directory then
        if hplace : fs.node (name :: parent) = some .directory then
          (.error .isADirectory, fs.access (name :: parent))
        else
          (.ok (), (fs.setNode name parent (.file content) hparent hplace).access (name :: parent))
      else (.error (fs.whyMissing parent), fs.access (name :: parent))

/-- `os.unlink`. -/
def unlink : Location → Except OSError Unit × FileSystem
  | [] => (.error .isADirectory, fs.access [])
  | name :: parent =>
      match h : fs.node (name :: parent) with
      | none => (.error (fs.whyMissing (name :: parent)), fs.access (name :: parent))
      | some .directory => (.error .isADirectory, fs.access (name :: parent))
      | some (.file _) =>
          (.ok (), (fs.removeNode name parent (nothing_under_file h)).access (name :: parent))

/-- Nothing is in the directory. -/
def isEmptyDirectory (location : Location) : Bool :=
  fs.nodes.keys.all fun l => l = [] || l.tail ≠ location

theorem nothing_under_empty {fs : FileSystem} {location : Location}
    (h : fs.isEmptyDirectory location = true) (child : String) :
    fs.node (child :: location) = none := by
  apply AList.lookup_eq_none.mpr
  intro hmem
  have hchild := List.all_eq_true.mp h _ (AList.mem_keys.mp hmem)
  simp at hchild

/-- `os.rmdir`. -/
def rmdir : Location → Except OSError Unit × FileSystem
  | [] => (.error .directoryNotEmpty, fs.access [])
  | name :: parent =>
      match fs.node (name :: parent) with
      | none => (.error (fs.whyMissing (name :: parent)), fs.access (name :: parent))
      | some (.file _) => (.error .notADirectory, fs.access (name :: parent))
      | some .directory =>
          if h : fs.isEmptyDirectory (name :: parent) then
            (.ok (), (fs.removeNode name parent (nothing_under_empty h)).access (name :: parent))
          else (.error .directoryNotEmpty, fs.access (name :: parent))

/-- `os.replace` of a file. -/
def replace (src dst : Location) : Except OSError Unit × FileSystem :=
  match fs.node src with
  | none => (.error (fs.whyMissing src), fs.access src)
  | some .directory => (.error .notADirectory, fs.access src)
  | some (.file content) =>
      let written := (fs.access src).writeFile content dst
      match written.1 with
      | .error err => (.error err, written.2)
      | .ok () => if src = dst then written else written.2.unlink src

/-- The content of a file. -/
def readFile (location : Location) : Except OSError (List UInt8) × FileSystem :=
  match fs.node location with
  | none => (.error (fs.whyMissing location), fs.access location)
  | some .directory => (.error .isADirectory, fs.access location)
  | some (.file content) => (.ok content, fs.access location)

/-! ## What the calls change -/

variable {fs : FileSystem}

theorem node_mkdir (location l : Location) :
    (fs.mkdir location).2.node l =
      if l = location ∧ (fs.mkdir location).1 = .ok () then some .directory else fs.node l := by
  cases location with
  | nil => simp [mkdir]
  | cons name parent =>
      by_cases hparent : fs.node parent = some .directory
      · by_cases hplace : fs.node (name :: parent) = none
        · simp [mkdir, hparent, hplace, node_setNode]
        · simp [mkdir, hparent, hplace]
      · simp [mkdir, hparent]

theorem node_mkdirExistOk (location l : Location) :
    (fs.mkdirExistOk location).2.node l = (fs.mkdir location).2.node l := by
  unfold mkdirExistOk
  rcases fs.mkdir location with ⟨err | _, made⟩
  · simp only
    split_ifs <;> rfl
  · rfl

theorem accessed_mkdir (location : Location) :
    (fs.mkdir location).2.accessed = location :: fs.accessed := by
  cases location with
  | nil => rfl
  | cons name parent =>
      simp only [mkdir]
      split_ifs <;> rfl

theorem node_makeDirs_of_isSome {location l : Location} {n : Node} (hl : fs.node l = some n) :
    (fs.makeDirs location).2.node l = some n := by
  have hmkdir : ∀ {fs : FileSystem} (location : Location), fs.node l = some n →
      (fs.mkdir location).2.node l = some n := by
    intro fs location hl
    cases location with
    | nil => exact hl
    | cons name parent =>
        by_cases hparent : fs.node parent = some .directory
        · by_cases hplace : fs.node (name :: parent) = none
          · have hne : l ≠ name :: parent := by
              rintro rfl
              rw [hplace] at hl
              cases hl
            simp [mkdir, hparent, hplace, node_setNode, hne, hl]
          · simp [mkdir, hparent, hplace, hl]
        · simp [mkdir, hparent, hl]
  induction location generalizing fs with
  | nil =>
      rw [makeDirs, node_mkdirExistOk]
      exact hmkdir [] hl
  | cons name parent ih =>
      have habove := ih (hmkdir (name :: parent) hl)
      rw [makeDirs]
      simp only
      split_ifs
      · generalize (fs.mkdir (name :: parent)).2.makeDirs parent = above at habove ⊢
        rcases above with ⟨err | _, above⟩
        · exact habove
        · rw [node_mkdirExistOk]
          exact hmkdir _ habove
      · rw [node_mkdirExistOk]
        exact hmkdir _ hl

theorem node_mkdirExistOk_self {location : Location}
    (h : (fs.mkdirExistOk location).1 = .ok ()) :
    (fs.mkdirExistOk location).2.node location = some .directory := by
  rw [node_mkdirExistOk, node_mkdir]
  unfold mkdirExistOk at h
  split_ifs with hmade
  · rfl
  · have hnode : (fs.mkdir location).2.node location = fs.node location := by
      rw [node_mkdir, if_neg hmade]
    generalize fs.mkdir location = made at h hmade hnode
    rcases made with ⟨err | _, made⟩
    · simp only at h
      split_ifs at h with hdirectory
      rw [← hnode, hdirectory]
    · exact absurd ⟨rfl, rfl⟩ hmade

theorem node_makeDirs_self {location : Location} (h : (fs.makeDirs location).1 = .ok ()) :
    (fs.makeDirs location).2.node location = some .directory := by
  cases location with
  | nil => rfl
  | cons name parent =>
      rw [makeDirs] at h ⊢
      simp only at h ⊢
      split_ifs at h ⊢
      · generalize (fs.mkdir (name :: parent)).2.makeDirs parent = above at h ⊢
        rcases above with ⟨err | _, above⟩
        · cases h
        · exact node_mkdirExistOk_self h
      · exact node_mkdirExistOk_self h

/-- Everything above a node is a directory. -/
theorem node_of_suffix {location l : Location} (h : (fs.node location).isSome)
    (hl : l <:+ location) (hne : l ≠ location) : fs.node l = some .directory := by
  induction location with
  | nil => exact absurd (List.suffix_nil.mp hl) hne
  | cons name parent ih =>
      have hparent : fs.node parent = some .directory := fs.node_parent h
      have hl' : l <:+ parent := (List.suffix_cons_iff.mp hl).resolve_left hne
      by_cases heq : l = parent
      · rw [heq, hparent]
      · exact ih (by simp [hparent]) hl' heq

theorem whyMissing_of_no_file {location : Location}
    (h : ∀ l, l <:+ location → ∀ content, fs.node l ≠ some (.file content)) :
    fs.whyMissing location = .fileNotFound := by
  induction location with
  | nil => rfl
  | cons name parent ih =>
      rw [whyMissing]
      cases hnode : fs.node (name :: parent) with
      | none => exact ih fun l hl => h l (hl.trans (List.suffix_cons name parent))
      | some n =>
          cases n with
          | directory => rfl
          | file content => exact absurd hnode (h _ List.suffix_rfl content)

theorem whyMissing_of_file {location : Location} {content : List UInt8}
    (h : fs.node location = some (.file content)) : fs.whyMissing location = .notADirectory := by
  cases location with
  | nil => cases h
  | cons name parent => simp [whyMissing, h]

theorem parent_missing_of_mkdir {name : String} {parent : Location}
    (h : (fs.mkdir (name :: parent)).1 = .error .fileNotFound) : fs.node parent = none := by
  cases hparent : fs.node parent with
  | none => rfl
  | some n =>
      cases n with
      | directory =>
          by_cases hplace : fs.node (name :: parent) = none <;>
            simp [mkdir, hparent, hplace] at h
      | file content => simp [mkdir, hparent, whyMissing_of_file hparent] at h

theorem node_writeFile {content : List UInt8} (location l : Location) :
    (fs.writeFile content location).2.node l =
      if l = location ∧ (fs.writeFile content location).1 = .ok () then some (.file content)
      else fs.node l := by
  cases location with
  | nil => simp [writeFile]
  | cons name parent =>
      by_cases hparent : fs.node parent = some .directory
      · by_cases hplace : fs.node (name :: parent) = some .directory
        · simp [writeFile, hparent, hplace]
        · simp [writeFile, hparent, hplace, node_setNode]
      · simp [writeFile, hparent]

theorem writeFile_ok_iff {content : List UInt8} {name : String} {parent : Location} :
    (fs.writeFile content (name :: parent)).1 = .ok () ↔
      fs.node parent = some .directory ∧ fs.node (name :: parent) ≠ some .directory := by
  by_cases hparent : fs.node parent = some .directory
  · by_cases hplace : fs.node (name :: parent) = some .directory <;>
      simp [writeFile, hparent, hplace]
  · simp [writeFile, hparent]

theorem writeFile_of_directory (content : List UInt8) {name : String} {parent : Location}
    (hparent : fs.node parent = some .directory)
    (hplace : fs.node (name :: parent) ≠ some .directory) :
    (fs.writeFile content (name :: parent)).1 = .ok () ∧
      ∀ l, (fs.writeFile content (name :: parent)).2.node l =
        if l = name :: parent then some (.file content) else fs.node l := by
  have hok : (fs.writeFile content (name :: parent)).1 = .ok () :=
    writeFile_ok_iff.mpr ⟨hparent, hplace⟩
  refine ⟨hok, fun l => ?_⟩
  rw [node_writeFile, hok]
  simp

theorem accessed_writeFile {content : List UInt8} (location : Location) :
    (fs.writeFile content location).2.accessed = location :: fs.accessed := by
  cases location with
  | nil => rfl
  | cons name parent =>
      simp only [writeFile]
      split_ifs <;> rfl

theorem unlink_of_file {location : Location} {content : List UInt8}
    (h : fs.node location = some (.file content)) :
    (fs.unlink location).1 = .ok () ∧
      ∀ l, (fs.unlink location).2.node l = if l = location then none else fs.node l := by
  cases location with
  | nil => cases h
  | cons name parent =>
      simp only [unlink]
      split
      · rename_i hnone
        rw [h] at hnone
        cases hnone
      · rename_i hdirectory
        rw [h] at hdirectory
        cases hdirectory
      · exact ⟨rfl, fun l => fs.node_removeNode name parent l (nothing_under_file h)⟩

theorem unlink_of_not_file {location : Location}
    (h : ∀ content, fs.node location ≠ some (.file content)) :
    (∃ err, (fs.unlink location).1 = .error err) ∧
      ∀ l, (fs.unlink location).2.node l = fs.node l := by
  cases location with
  | nil => exact ⟨⟨_, rfl⟩, fun l => rfl⟩
  | cons name parent =>
      simp only [unlink]
      split
      · exact ⟨⟨_, rfl⟩, fun l => rfl⟩
      · exact ⟨⟨_, rfl⟩, fun l => rfl⟩
      · rename_i content hfile
        exact absurd hfile (h content)

theorem unlink_of_directory {location : Location} (h : fs.node location = some .directory) :
    (fs.unlink location).1 = .error .isADirectory := by
  cases location with
  | nil => rfl
  | cons name parent =>
      simp only [unlink]
      split
      · rename_i hnone
        rw [h] at hnone
        cases hnone
      · rfl
      · rename_i hfile
        rw [h] at hfile
        cases hfile

theorem node_unlink_of_ne {location l : Location} (hl : l ≠ location) :
    (fs.unlink location).2.node l = fs.node l := by
  cases hnode : fs.node location with
  | none => exact (unlink_of_not_file (by simp [hnode])).2 l
  | some n =>
      cases n with
      | directory => exact (unlink_of_not_file (by simp [hnode])).2 l
      | file content => rw [(unlink_of_file hnode).2, if_neg hl]

theorem accessed_unlink (location : Location) :
    (fs.unlink location).2.accessed = location :: fs.accessed := by
  cases location with
  | nil => rfl
  | cons name parent =>
      simp only [unlink]
      split <;> rfl

theorem node_rmdir (location l : Location) :
    (fs.rmdir location).2.node l =
      if l = location ∧ (fs.rmdir location).1 = .ok () then none else fs.node l := by
  cases location with
  | nil => simp [rmdir]
  | cons name parent =>
      cases hnode : fs.node (name :: parent) with
      | none => simp [rmdir, hnode]
      | some n =>
          cases n with
          | file content => simp [rmdir, hnode]
          | directory =>
              by_cases hempty : fs.isEmptyDirectory (name :: parent) = true
              · simp [rmdir, hnode, hempty, node_removeNode]
              · simp [rmdir, hnode, hempty]

theorem rmdir_of_directory {name : String} {parent : Location}
    (h : fs.node (name :: parent) = some .directory) :
    (fs.rmdir (name :: parent)).1 = .ok () ∨
      ∃ child, (fs.node (child :: name :: parent)).isSome := by
  by_cases hempty : fs.isEmptyDirectory (name :: parent) = true
  · left
    simp [rmdir, h, hempty]
  · right
    rw [isEmptyDirectory, Bool.not_eq_true, List.all_eq_false] at hempty
    obtain ⟨l, hmem, hchild⟩ := hempty
    cases l with
    | nil => simp at hchild
    | cons child location =>
        have hlocation : location = name :: parent := by
          by_contra hne
          exact hchild (by simp [hne])
        rw [hlocation] at hmem
        exact ⟨child, AList.lookup_isSome.mpr (AList.mem_keys.mpr hmem)⟩

theorem accessed_rmdir (location : Location) :
    (fs.rmdir location).2.accessed = location :: fs.accessed := by
  cases location with
  | nil => rfl
  | cons name parent =>
      simp only [rmdir]
      split
      · rfl
      · rfl
      · split_ifs <;> rfl

theorem replace_of_file {src : Location} {name : String} {parent : Location}
    {content : List UInt8} (hsrc : fs.node src = some (.file content))
    (hparent : fs.node parent = some .directory)
    (hplace : fs.node (name :: parent) ≠ some .directory) (hne : src ≠ name :: parent) :
    (fs.replace src (name :: parent)).1 = .ok () ∧
      ∀ l, (fs.replace src (name :: parent)).2.node l =
        if l = src then none else if l = name :: parent then some (.file content)
        else fs.node l := by
  obtain ⟨hok, hnode⟩ : ((fs.access src).writeFile content (name :: parent)).1 = .ok () ∧
      ∀ l, ((fs.access src).writeFile content (name :: parent)).2.node l =
        if l = name :: parent then some (.file content) else fs.node l :=
    writeFile_of_directory content hparent hplace
  have hkept := hnode src
  rw [if_neg hne, hsrc] at hkept
  obtain ⟨hunlinked, hgone⟩ := unlink_of_file hkept
  have hreplace : fs.replace src (name :: parent) =
      ((fs.access src).writeFile content (name :: parent)).2.unlink src := by
    simp only [replace, hsrc, hok, if_neg hne]
  rw [hreplace]
  refine ⟨hunlinked, fun l => ?_⟩
  rw [hgone, hnode]

/-! ## Frames -/

/-- From one tree to the next only the locations in `changed` may differ, and
only those in `asked` are newly handed to calls. -/
structure Frame (changed asked : Set Location) (fs fs' : FileSystem) : Prop where
  cwd : fs'.cwd = fs.cwd
  node : ∀ l, l ∉ changed → fs'.node l = fs.node l
  asked : ∀ l ∈ fs'.accessed, l ∈ asked ∨ l ∈ fs.accessed
  kept : ∀ l ∈ fs.accessed, l ∈ fs'.accessed

namespace Frame

variable {changed asked changed' asked' : Set Location} {fs₁ fs₂ fs₃ : FileSystem}

theorem refl (changed asked : Set Location) (fs : FileSystem) : Frame changed asked fs fs where
  cwd := rfl
  node := fun _ _ => rfl
  asked := fun _ hl => .inr hl
  kept := fun _ hl => hl

theorem mono (h : Frame changed asked fs₁ fs₂) (hchanged : changed ⊆ changed')
    (hasked : asked ⊆ asked') : Frame changed' asked' fs₁ fs₂ where
  cwd := h.cwd
  node := fun l hl => h.node l fun hl' => hl (hchanged hl')
  asked := fun l hl => (h.asked l hl).imp_left fun hl' => hasked hl'
  kept := h.kept

theorem trans (h : Frame changed asked fs₁ fs₂) (h' : Frame changed asked fs₂ fs₃) :
    Frame changed asked fs₁ fs₃ where
  cwd := h'.cwd.trans h.cwd
  node := fun l hl => (h'.node l hl).trans (h.node l hl)
  asked := fun l hl => (h'.asked l hl).elim .inl (h.asked l)
  kept := fun l hl => h'.kept l (h.kept l hl)

end Frame

theorem frame_access (location : Location) : Frame ∅ {location} fs (fs.access location) where
  cwd := rfl
  node := fun _ _ => rfl
  asked := fun _ hl => List.mem_cons.mp hl
  kept := fun _ hl => List.mem_cons_of_mem _ hl

/-- A call that hands over one location and changes nothing else. -/
theorem Frame.of_one {location : Location} {fs fs' : FileSystem} (hcwd : fs'.cwd = fs.cwd)
    (hnode : ∀ l, l ≠ location → fs'.node l = fs.node l)
    (haccessed : fs'.accessed = location :: fs.accessed) :
    Frame {location} {location} fs fs' where
  cwd := hcwd
  node := hnode
  asked := fun _ hl => List.mem_cons.mp (haccessed ▸ hl)
  kept := fun _ hl => haccessed ▸ List.mem_cons_of_mem _ hl

theorem frame_mkdir (fs : FileSystem) (location : Location) :
    Frame {location} {location} fs (fs.mkdir location).2 := by
  apply Frame.of_one
  · cases location with
    | nil => rfl
    | cons name parent =>
        simp only [mkdir]
        split_ifs <;> rfl
  · intro l hl
    rw [node_mkdir, if_neg fun h => hl h.1]
  · exact accessed_mkdir location

theorem frame_mkdirExistOk (fs : FileSystem) (location : Location) :
    Frame {location} {location} fs (fs.mkdirExistOk location).2 := by
  have hmade := frame_mkdir fs location
  unfold mkdirExistOk
  generalize fs.mkdir location = made at hmade ⊢
  rcases made with ⟨err | _, made⟩
  · simp only
    split_ifs <;> exact hmade
  · exact hmade

/-- Making directories asks for the last of them and for missing ones above it. -/
theorem frame_makeDirs (fs : FileSystem) (location : Location) :
    Frame {l | l <:+ location} {l | l = location ∨ l <:+ location ∧ fs.node l = none} fs
      (fs.makeDirs location).2 := by
  induction location generalizing fs with
  | nil =>
      apply (frame_mkdirExistOk fs []).mono
      · rintro l rfl
        exact List.suffix_rfl
      · exact fun l hl => .inl hl
  | cons name parent ih =>
      have hself : ({name :: parent} : Set Location) ⊆ {l | l <:+ name :: parent} := by
        rintro l rfl
        exact List.suffix_rfl
      have hasked : ({name :: parent} : Set Location) ⊆
          {l | l = name :: parent ∨ l <:+ name :: parent ∧ fs.node l = none} :=
        fun l hl => .inl hl
      rw [makeDirs]
      simp only
      split_ifs with hmissing
      · have hmkdir := (frame_mkdir fs (name :: parent)).mono hself hasked
        have habove : Frame {l | l <:+ name :: parent}
            {l | l = name :: parent ∨ l <:+ name :: parent ∧ fs.node l = none}
            (fs.mkdir (name :: parent)).2 ((fs.mkdir (name :: parent)).2.makeDirs parent).2 := by
          apply (ih (fs.mkdir (name :: parent)).2).mono
          · exact fun l hl => hl.trans (List.suffix_cons name parent)
          · rintro l (rfl | ⟨hsuffix, hgone⟩)
            · exact .inr ⟨List.suffix_cons name l, parent_missing_of_mkdir hmissing⟩
            · rw [node_mkdir] at hgone
              split_ifs at hgone
              exact .inr ⟨hsuffix.trans (List.suffix_cons name parent), hgone⟩
        have hboth := hmkdir.trans habove
        generalize (fs.mkdir (name :: parent)).2.makeDirs parent = above at hboth ⊢
        rcases above with ⟨err | _, above⟩
        · exact hboth
        · exact hboth.trans ((frame_mkdirExistOk _ (name :: parent)).mono hself hasked)
      · exact (frame_mkdirExistOk fs (name :: parent)).mono hself hasked

theorem mem_accessed_makeDirs (location : Location) :
    location ∈ (fs.makeDirs location).2.accessed := by
  cases location with
  | nil => exact List.mem_cons_self
  | cons name parent =>
      have hmkdir : name :: parent ∈ (fs.mkdir (name :: parent)).2.accessed := by
        rw [accessed_mkdir]
        exact List.mem_cons_self
      have habove := (frame_makeDirs _ parent).kept _ hmkdir
      rw [makeDirs]
      simp only
      split_ifs
      · generalize (fs.mkdir (name :: parent)).2.makeDirs parent = above at habove ⊢
        rcases above with ⟨err | _, above⟩
        · exact habove
        · exact (frame_mkdirExistOk _ _).kept _ habove
      · unfold mkdirExistOk
        generalize fs.mkdir (name :: parent) = made at hmkdir ⊢
        rcases made with ⟨err | _, made⟩
        · simp only
          split_ifs <;> exact hmkdir
        · exact hmkdir

theorem makeDirs_ok {location : Location}
    (h : ∀ l, l <:+ location → ∀ content, fs.node l ≠ some (.file content)) :
    (fs.makeDirs location).1 = .ok () := by
  have hplace : ∀ {fs : FileSystem} {name : String} {parent : Location},
      fs.node parent = some .directory →
      (∀ content, fs.node (name :: parent) ≠ some (.file content)) →
      (fs.mkdirExistOk (name :: parent)).1 = .ok () ∧
        (fs.mkdir (name :: parent)).1 ≠ .error .fileNotFound := by
    intro fs name parent hparent hfile
    cases hnode : fs.node (name :: parent) with
    | none => simp [mkdirExistOk, mkdir, hparent, hnode]
    | some n =>
        cases n with
        | directory => simp [mkdirExistOk, mkdir, hparent, hnode]
        | file content => exact absurd hnode (hfile content)
  induction location generalizing fs with
  | nil => rfl
  | cons name parent ih =>
      have hself := h _ List.suffix_rfl
      have habove : ∀ l, l <:+ parent → ∀ content, fs.node l ≠ some (.file content) :=
        fun l hl => h l (hl.trans (List.suffix_cons name parent))
      rw [makeDirs]
      by_cases hparent : fs.node parent = some .directory
      · obtain ⟨hok, hfound⟩ := hplace hparent hself
        rw [if_neg hfound]
        exact hok
      · have hmkdir : fs.mkdir (name :: parent) =
            (.error .fileNotFound, fs.access (name :: parent)) := by
          simp [mkdir, hparent, whyMissing_of_no_file habove]
        have hmade : ((fs.access (name :: parent)).makeDirs parent).1 = .ok () := ih habove
        have hparent' := node_makeDirs_self hmade
        have hnot : ¬(name :: parent) <:+ parent := fun h => by
          have hlength := h.length_le
          rw [List.length_cons] at hlength
          omega
        simp only [hmkdir, if_true, hmade]
        apply (hplace hparent' _).1
        intro content
        rw [(frame_makeDirs _ parent).node _ hnot]
        exact hself content

theorem frame_writeFile (fs : FileSystem) (content : List UInt8) (location : Location) :
    Frame {location} {location} fs (fs.writeFile content location).2 := by
  apply Frame.of_one
  · cases location with
    | nil => rfl
    | cons name parent =>
        simp only [writeFile]
        split_ifs <;> rfl
  · intro l hl
    rw [node_writeFile, if_neg fun h => hl h.1]
  · exact accessed_writeFile location

theorem frame_unlink (fs : FileSystem) (location : Location) :
    Frame {location} {location} fs (fs.unlink location).2 := by
  apply Frame.of_one
  · cases location with
    | nil => rfl
    | cons name parent =>
        simp only [unlink]
        split <;> rfl
  · exact fun l hl => node_unlink_of_ne hl
  · exact accessed_unlink location

theorem frame_rmdir (fs : FileSystem) (location : Location) :
    Frame {location} {location} fs (fs.rmdir location).2 := by
  apply Frame.of_one
  · cases location with
    | nil => rfl
    | cons name parent =>
        simp only [rmdir]
        split
        · rfl
        · rfl
        · split_ifs <;> rfl
  · intro l hl
    rw [node_rmdir, if_neg fun h => hl h.1]
  · exact accessed_rmdir location

theorem frame_readFile (fs : FileSystem) (location : Location) :
    Frame ∅ {location} fs (fs.readFile location).2 := by
  unfold readFile
  split <;> exact fs.frame_access location

theorem frame_replace (fs : FileSystem) (src dst : Location) :
    Frame {src, dst} {src, dst} fs (fs.replace src dst).2 := by
  have hsrc : ({src} : Set Location) ⊆ {src, dst} := by simp
  have hdst : ({dst} : Set Location) ⊆ {src, dst} := by simp
  have haccess := (fs.frame_access src).mono (Set.empty_subset {src, dst}) hsrc
  unfold replace
  split
  · exact haccess
  · exact haccess
  · rename_i content _
    have hwritten := haccess.trans ((frame_writeFile _ content dst).mono hdst hdst)
    simp only
    generalize (fs.access src).writeFile content dst = written at hwritten ⊢
    rcases written with ⟨err | _, written⟩
    · exact hwritten
    · simp only
      split_ifs
      · exact hwritten
      · exact hwritten.trans ((frame_unlink _ src).mono hsrc hsrc)

end FileSystem

end LlmCache.Lib
