import LlmCache.Lib.Strings

/-!
# Paths

Pure POSIX paths as `pathlib` keeps them, and the locations they stand for.
-/

namespace LlmCache.Lib

/-- A pure path: empty components and `.` are dropped, `..` is kept. -/
structure PurePath where
  absolute : Bool
  parts : List String
deriving DecidableEq, Repr

/-- A place in the tree of files, its names from the innermost one up to `/`. -/
abbrev Location := List String

namespace PurePath

def ofString (text : String) : PurePath where
  absolute := text.toList.head? = some '/'
  parts := (text.toList.splitOn '/').filterMap fun part =>
    if part = [] ∨ part = ['.'] then none else some (String.ofList part)

/-- `p / text`; an absolute component restarts the path. -/
def join (p : PurePath) (text : String) : PurePath :=
  if (ofString text).absolute then ofString text
  else { p with parts := p.parts ++ (ofString text).parts }

def parent (p : PurePath) : PurePath :=
  { p with parts := p.parts.dropLast }

def name (p : PurePath) : String :=
  p.parts.getLast?.getD ""

/-- A name with its suffix replaced.  A name that starts with its only dot, or
ends with its last one, has no suffix. -/
def nameWithSuffix (name suffix : String) : String :=
  match splitLast '.' name.toList with
  | none => name ++ suffix
  | some (stem, extension) =>
      if stem = [] ∨ extension = [] then name ++ suffix else String.ofList stem ++ suffix

/-- `p.with_suffix(suffix)` of a path that has a name. -/
def withSuffix (p : PurePath) (suffix : String) : PurePath :=
  { p with parts := p.parts.dropLast ++ [nameWithSuffix p.name suffix] }

/-- A path with a NUL character is refused by every system call. -/
def hasNul (p : PurePath) : Bool :=
  p.parts.any fun part => '\x00' ∈ part.toList

/-- One component: `..` steps up, and `/` is above itself. -/
def walk (location : Location) (part : String) : Location :=
  if part = ".." then location.tail else part :: location

/-- The location that a path stands for, seen from the working directory. -/
def resolve (p : PurePath) (cwd : Location) : Location :=
  p.parts.foldl walk (if p.absolute then [] else cwd)

/-! ## A plain name at the end of a path -/

/-- A name that stands for itself in a path. -/
structure Plain (name : String) : Prop where
  nonempty : name ≠ ""
  no_slash : '/' ∉ name.toList
  ne_dot : name ≠ "."
  ne_dotdot : name ≠ ".."

theorem ofString_of_plain {name : String} (h : Plain name) : ofString name = ⟨false, [name]⟩ := by
  have hempty : name.toList ≠ [] := fun hnil => h.nonempty (String.toList_eq_nil_iff.mp hnil)
  have hdot : name.toList ≠ ['.'] := fun hdot => h.ne_dot (String.toList_injective hdot)
  have hhead : name.toList.head? ≠ some '/' := fun hhead => h.no_slash (List.mem_of_head? hhead)
  rw [ofString, List.splitOn_eq_singleton h.no_slash]
  simp [hempty, hdot, hhead]

theorem join_plain (p : PurePath) {name : String} (h : Plain name) :
    p.join name = { p with parts := p.parts ++ [name] } := by
  simp [join, ofString_of_plain h]

theorem walk_plain (location : Location) {name : String} (h : Plain name) :
    walk location name = name :: location :=
  if_neg h.ne_dotdot

theorem resolve_join_plain (p : PurePath) {name : String} (h : Plain name) (cwd : Location) :
    (p.join name).resolve cwd = name :: p.resolve cwd := by
  simp [join_plain p h, resolve, walk_plain _ h]

@[simp] theorem parent_join_plain (p : PurePath) {name : String} (h : Plain name) :
    (p.join name).parent = p := by
  simp [join_plain p h, parent]

@[simp] theorem name_join_plain (p : PurePath) {name : String} (h : Plain name) :
    (p.join name).name = name := by
  simp [join_plain p h, PurePath.name]

theorem withSuffix_join_plain (p : PurePath) {name suffix : String} (h : Plain name)
    (h' : Plain (nameWithSuffix name suffix)) :
    (p.join name).withSuffix suffix = p.join (nameWithSuffix name suffix) := by
  rw [withSuffix, name_join_plain p h, join_plain p h, join_plain p h']
  simp

theorem hasNul_join_plain (p : PurePath) {name : String} (h : Plain name) :
    (p.join name).hasNul = (p.hasNul || decide ('\x00' ∈ name.toList)) := by
  simp [join_plain p h, hasNul]

theorem nameWithSuffix_dot {stem extension : List Char} (hstem : stem ≠ [])
    (hextension : extension ≠ []) (hdot : '.' ∉ extension) (suffix : String) :
    nameWithSuffix (String.ofList (stem ++ '.' :: extension)) suffix =
      String.ofList stem ++ suffix := by
  simp [nameWithSuffix, splitLast_append stem hdot, hstem, hextension]

end PurePath

end LlmCache.Lib
