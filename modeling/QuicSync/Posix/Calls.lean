import QuicSync.Posix.Tree

/-!
# File system calls

The calls of the descriptor-relative file system interface that a program makes as the owner of
all entries, over a `World`: the tree, the trees before it and the clock.  A call either fails
with an error number and changes nothing, or is one change of the tree, which the world records.

* `walk` and `locate` resolve a path name: separators, `.` and `..`, and symbolic links up to the
  usual bound of forty.
* An open descriptor of a directory or a file is its path; nothing here moves a directory.
* Looking a name up needs the search permission of its directory, adding or removing it the write
  permission.  Both set the modification time of the directory to the current time.
* An entry that exists is reported before a missing write permission, as the kernel does.

Renaming a directory and names that end in a separator or in a dot are refused with `inval`:
they are not modelled.
-/

namespace QuicSync

namespace Posix

/-- Error numbers. -/
inductive Errno where
  | noent
  | exist
  | notdir
  | isdir
  | loop
  | notempty
  | acces
  | inval
  deriving DecidableEq, Repr

/-- A file system over time. -/
structure World where
  /-- The current tree. -/
  tree : Tree
  /-- The trees before it, the latest first. -/
  past : List Tree
  /-- The time of each change. -/
  clock : ℕ → ℤ

namespace World

/-- The time of the next change. -/
def now (w : World) : ℤ := w.clock w.past.length

/-- Change the tree. -/
def record (w : World) (t : Tree) : World := { w with tree := t, past := w.tree :: w.past }

@[simp] theorem record_tree (w : World) (t : Tree) : (w.record t).tree = t := rfl

@[simp] theorem record_past (w : World) (t : Tree) : (w.record t).past = w.tree :: w.past := rfl

@[simp] theorem record_clock (w : World) (t : Tree) : (w.record t).clock = w.clock := rfl

end World

/-! ### Path resolution -/

/-- The separator of path names. -/
def separator : UInt8 := 47

/-- The name of a directory in itself. -/
def dot : Name := [46]

/-- The name of its parent in a directory. -/
def dotdot : Name := [46, 46]

/-- The most symbolic links followed in one resolution. -/
def maxLinks : ℕ := 40

/-- A directory in which names may be looked up. -/
def search (t : Tree) (dir : Path) : Except Errno Unit :=
  match t.get dir with
  | none => .error .noent
  | some i =>
    if i.IsDir then if i.Searchable then .ok () else .error .acces
    else .error .notdir

/-- Where the resolution of a name relative to a directory starts. -/
def start (dir : Path) (name : Name) : Path := if name.head? = some separator then [] else dir

/-- Resolve names one after the other; `follow` goes on after a symbolic link. -/
def walkWith (t : Tree) (follow : Path → List Name → Except Errno Path) :
    Path → List Name → Except Errno Path
  | dir, [] => .ok dir
  | dir, c :: cs => do
    search t dir
    if c = [] ∨ c = dot then walkWith t follow dir cs
    else if c = dotdot then walkWith t follow dir.dropLast cs
    else
      match t.get (dir ++ [c]) with
      | none => .error .noent
      | some i =>
        match i.node with
        | .symlink target => follow (start dir target) (target.splitOn separator ++ cs)
        | _ => walkWith t follow (dir ++ [c]) cs

/-- Resolve names one after the other, following at most `n` symbolic links. -/
def walk (t : Tree) : ℕ → Path → List Name → Except Errno Path
  | 0 => walkWith t fun _ _ => .error .loop
  | n + 1 => walkWith t (walk t n)

/-- The directory and the last name of a path name. -/
def locate (t : Tree) (dir : Path) (name : Name) : Except Errno (Path × Name) :=
  let names := name.splitOn separator
  let last := names.getLastD []
  if last = [] ∨ last = dot ∨ last = dotdot then .error .inval
  else do
    let parent ← walk t maxLinks (start dir name) names.dropLast
    search t parent
    .ok (parent, last)

/-- A name that is one component. -/
def Plain (name : Name) : Prop :=
  name ≠ [] ∧ name ≠ dot ∧ name ≠ dotdot ∧ separator ∉ name

instance (name : Name) : Decidable (Plain name) := inferInstanceAs (Decidable (_ ∧ _))

/-- A plain name is looked up in the directory itself. -/
theorem locate_plain {t : Tree} {dir : Path} {name : Name} (h : Plain name) :
    locate t dir name = (search t dir).map fun _ => (dir, name) := by
  obtain ⟨hne, hdot, hdotdot, hsep⟩ := h
  have hsplit : name.splitOn separator = [name] := by
    refine List.splitOnP_eq_singleton fun x hx => ?_
    rw [beq_eq_false_iff_ne]
    rintro rfl
    exact hsep hx
  have hstart : start dir name = dir := by
    refine if_neg fun hhead => hsep ?_
    exact List.mem_of_mem_head? (Option.mem_def.2 hhead)
  have hwalk : walk t maxLinks dir [] = .ok dir := rfl
  have hlast : [name].getLastD [] = name := rfl
  simp only [locate, hsplit, hlast, List.dropLast_singleton, hstart, hwalk, hne, hdot, hdotdot,
    or_self, if_false]
  cases hsearch : search t dir with
  | error e => simp [bind, Except.bind, hsearch, Except.map]
  | ok u => simp [bind, Except.bind, hsearch, Except.map]

/-! ### Opening -/

/-- How a file is opened: for reading or for writing, as a directory, following links or not. -/
structure OpenFlags where
  write : Bool
  directory : Bool
  nofollow : Bool

/-- The rights to open an entry that has been resolved. -/
def access (t : Tree) (p : Path) (flags : OpenFlags) : Except Errno Path :=
  match t.get p with
  | none => .error .noent
  | some i =>
    if flags.directory ∧ ¬ i.IsDir then .error .notdir
    else if flags.write then
      if i.IsDir then .error .isdir
      else if i.Writable then .ok p else .error .acces
    else if i.Readable then .ok p else .error .acces

/-- Open an existing entry. -/
def openat (w : World) (dir : Path) (name : Name) (flags : OpenFlags) : Except Errno Path := do
  let (parent, last) ← locate w.tree dir name
  match w.tree.get (parent ++ [last]) with
  | none => .error .noent
  | some i =>
    match i.node with
    | .symlink target =>
      if flags.nofollow then .error .loop
      else do
        let p ← walk w.tree maxLinks (start parent target) (target.splitOn separator)
        access w.tree p flags
    | _ => access w.tree (parent ++ [last]) flags

/-! ### Changes -/

/-- A directory to which entries may be added and from which they may be removed. -/
def mayWrite (t : Tree) (dir : Path) : Except Errno Unit :=
  match t.get dir with
  | none => .error .noent
  | some i => if i.Writable then .ok () else .error .acces

/-- Add an entry under a new name. -/
def create (w : World) (dir : Path) (name : Name) (i : Inode) : Except Errno (World × Path) := do
  let (parent, last) ← locate w.tree dir name
  match w.tree.get (parent ++ [last]) with
  | some _ => .error .exist
  | none => do
    mayWrite w.tree parent
    .ok (w.record ((w.tree.insert (parent ++ [last]) i).touch parent w.now), parent ++ [last])

/-- Create a file for writing; fails if the name is taken. -/
def openatExcl (w : World) (dir : Path) (name : Name) (mode : UInt32) :
    Except Errno (World × Path) :=
  create w dir name ⟨.file [], mode, w.now⟩

def mkdirat (w : World) (dir : Path) (name : Name) (mode : UInt32) : Except Errno World := do
  let (w, _) ← create w dir name ⟨.directory, mode, w.now⟩
  .ok w

def symlinkat (w : World) (target : List UInt8) (dir : Path) (name : Name) :
    Except Errno World := do
  let (w, _) ← create w dir name ⟨.symlink target, 0o777, w.now⟩
  .ok w

/-- Remove a name: of a directory that is empty, or of anything else. -/
def unlinkat (w : World) (dir : Path) (name : Name) (removedir : Bool) : Except Errno World := do
  let (parent, last) ← locate w.tree dir name
  match w.tree.get (parent ++ [last]) with
  | none => .error .noent
  | some i => do
    mayWrite w.tree parent
    if removedir then
      if ¬ i.IsDir then .error .notdir
      else if w.tree.HasChild (parent ++ [last]) then .error .notempty
      else .ok (w.record ((w.tree.erase (parent ++ [last])).touch parent w.now))
    else if i.IsDir then .error .isdir
    else .ok (w.record ((w.tree.erase (parent ++ [last])).touch parent w.now))

/-- Move an entry that is not a directory, over an entry that is not a directory if there is one. -/
def renameat (w : World) (dir : Path) (name : Name) (dir' : Path) (name' : Name) :
    Except Errno World := do
  let (parent, last) ← locate w.tree dir name
  let (parent', last') ← locate w.tree dir' name'
  match w.tree.get (parent ++ [last]) with
  | none => .error .noent
  | some i => do
    mayWrite w.tree parent
    mayWrite w.tree parent'
    if i.IsDir then .error .inval
    else if w.tree.IsDir (parent' ++ [last']) then .error .isdir
    else if parent ++ [last] = parent' ++ [last'] then .ok w
    else .ok (w.record ((((w.tree.erase (parent ++ [last])).insert (parent' ++ [last']) i).touch
      parent w.now).touch parent' w.now))

/-- Set the permission bits of an open entry. -/
def fchmod (w : World) (p : Path) (mode : UInt32) : World :=
  w.record (w.tree.modify p (fun i => { i with mode := mode &&& 0o7777 }) fun _ => rfl)

/-- Set the modification time of an open entry. -/
def futimens (w : World) (p : Path) (mtime : ℤ) : World := w.record (w.tree.touch p mtime)

/-- Set the modification time of an entry without following it. -/
def utimensat (w : World) (dir : Path) (name : Name) (mtime : ℤ) : Except Errno World := do
  let (parent, last) ← locate w.tree dir name
  match w.tree.get (parent ++ [last]) with
  | none => .error .noent
  | some _ => .ok (w.record (w.tree.touch (parent ++ [last]) mtime))

/-- Replace the content of an open file. -/
def write (w : World) (p : Path) (content : List UInt8) : World :=
  match w.tree.get p with
  | some ⟨.file _, mode, _⟩ => w.record (w.tree.insert p ⟨.file content, mode, w.now⟩)
  | _ => w

end Posix

end QuicSync
