import QuicSync.Filesystem.Paths

/-!
# Opening regular files for reading

`openRegular` opens a file below a root without following a link: as the content that a source
sends, and as the basis that a destination updates.  An entry that is missing or is not a regular
file is no error.

* `openRegular_eq_some_iff`: which paths name a file, and which file.
* `openRegular_congr`: **read confinement**: the answer depends on nothing but the unprotected
  entries below the root.
-/

namespace QuicSync

open Posix

/-- Read only, not following links. -/
def regularFlags : OpenFlags := ⟨false, false, true⟩

namespace Regular

/-- An error of this module for an error number. -/
def systemFailure (message : String) (error : Errno) : QuicSyncError :=
  QuicSyncError.new .io none (.system message error)

end Regular

/-- The loop of `openRegular` over the ancestors that are left; none if an entry on the way is
missing or is not a directory. -/
def openFileAncestors (w : World) : Path → List Bytes → Except QuicSyncError (Option Path)
  | directory, [] => .ok (some directory)
  | directory, ancestor :: ancestors =>
    match openat w directory ancestor directoryFlags with
    | .ok directory => openFileAncestors w directory ancestors
    | .error error =>
      if error = .noent ∨ error = .notdir ∨ error = .loop then .ok none
      else .error (Regular.systemFailure "open file ancestor: " error)

/-- Open the last component; none if it is missing or is not a regular file. -/
def openFileLeaf (w : World) (directory : Path) (leaf : Bytes) :
    Except QuicSyncError (Option Path) :=
  match openat w directory leaf regularFlags with
  | .ok file =>
    match (w.tree.get file).map Inode.node with
    | some (.file _) => .ok (some file)
    | _ => .ok none
  | .error error =>
    if error = .noent ∨ error = .loop then .ok none
    else .error (Regular.systemFailure "open file: " error)

/-- Open a regular file without following links. -/
def openRegular (w : World) (root : RootHandle) (path : RelativePath) :
    Except QuicSyncError (Option Path) := do
  rejectProtected path
  match ← openFileAncestors w root.path path.components.dropLast with
  | none => .ok none
  | some directory => openFileLeaf w directory (path.components.getLast path.ne_nil)

/-- The content of an open file. -/
def contentOf (w : World) (file : Path) : Bytes :=
  match (w.tree.get file).map Inode.node with
  | some (.file content) => content
  | _ => []

/-! ### Looking up one name -/

section

variable {w w' : World} {dir p : Path} {name : Name} {flags : OpenFlags}

/-- Opening a plain name without following links looks at the directory and at the entry. -/
theorem openat_plain (hplain : Plain name) (hflags : flags.nofollow = true) :
    openat w dir name flags =
      match search w.tree dir with
      | .error e => .error e
      | .ok () =>
        match w.tree.get (dir ++ [name]) with
        | none => .error .noent
        | some i =>
          match i.node with
          | .symlink _ => .error .loop
          | _ => access w.tree (dir ++ [name]) flags := by
  unfold openat
  rw [locate_plain hplain]
  cases search w.tree dir with
  | error e => rfl
  | ok u =>
    change (match w.tree.get (dir ++ [name]) with
      | none => _
      | some i => _) = _
    cases w.tree.get (dir ++ [name]) with
    | none => rfl
    | some i =>
      simp only
      cases i.node with
      | symlink target => simp only [hflags, if_true]
      | file content => rfl
      | directory => rfl
      | special => rfl

theorem search_congr (h : SameEntry (w.tree.get dir) (w'.tree.get dir)) :
    search w.tree dir = search w'.tree dir := by
  unfold search
  cases hi : w.tree.get dir with
  | none =>
    rw [hi] at h
    rw [SameEntry.none_iff.1 h]
  | some i =>
    rw [hi] at h
    obtain ⟨⟨node, mode, t⟩, hj, hnode, hmode, -⟩ := SameEntry.some_iff.1 h
    obtain rfl : node = i.node := hnode
    obtain rfl : mode = i.mode := hmode
    rw [hj]
    rfl

theorem access_congr (h : SameEntry (w.tree.get p) (w'.tree.get p)) :
    access w.tree p flags = access w'.tree p flags := by
  unfold access
  cases hi : w.tree.get p with
  | none =>
    rw [hi] at h
    rw [SameEntry.none_iff.1 h]
  | some i =>
    rw [hi] at h
    obtain ⟨⟨node, mode, t⟩, hj, hnode, hmode, -⟩ := SameEntry.some_iff.1 h
    obtain rfl : node = i.node := hnode
    obtain rfl : mode = i.mode := hmode
    rw [hj]
    rfl

theorem openat_congr (hplain : Plain name) (hflags : flags.nofollow = true)
    (hdir : SameEntry (w.tree.get dir) (w'.tree.get dir))
    (hentry : SameEntry (w.tree.get (dir ++ [name])) (w'.tree.get (dir ++ [name]))) :
    openat w dir name flags = openat w' dir name flags := by
  rw [openat_plain hplain hflags, openat_plain hplain hflags, search_congr hdir,
    access_congr hentry]
  cases hi : w.tree.get (dir ++ [name]) with
  | none =>
    rw [hi] at hentry
    rw [SameEntry.none_iff.1 hentry]
  | some i =>
    rw [hi] at hentry
    obtain ⟨j, hj, hnode, -⟩ := SameEntry.some_iff.1 hentry
    rw [hj]
    simp only [hnode]

/-- What is opened by a plain name is the entry itself. -/
theorem openat_ok (hplain : Plain name) (hflags : flags.nofollow = true)
    (h : openat w dir name flags = .ok p) : p = dir ++ [name] := by
  rw [openat_plain hplain hflags] at h
  have haccess : access w.tree (dir ++ [name]) flags = .ok p := by
    split at h
    · cases h
    · split at h
      · cases h
      · split at h
        · cases h
        · exact h
  unfold access at haccess
  split at haccess
  · cases haccess
  · split_ifs at haccess
    · exact (Except.ok.inj haccess).symm
    · exact (Except.ok.inj haccess).symm

/-- Opening a file for reading without following links. -/
theorem openat_regular_eq_ok_iff (hplain : Plain name) :
    openat w dir name regularFlags = .ok p ↔ w.tree.Enterable dir ∧
      (∃ i, w.tree.get (dir ++ [name]) = some i ∧ (∀ target, i.node ≠ .symlink target) ∧
        i.Readable) ∧ p = dir ++ [name] := by
  rw [openat_plain hplain rfl]
  cases hsearch : search w.tree dir with
  | error e =>
    refine iff_of_false (fun h => nomatch h) fun h => ?_
    rw [search_eq_ok_iff (u := ()).2 h.1] at hsearch
    cases hsearch
  | ok u =>
    have henter := search_eq_ok_iff.1 hsearch
    cases hi : w.tree.get (dir ++ [name]) with
    | none =>
      refine iff_of_false (fun h => nomatch h) ?_
      rintro ⟨-, ⟨i, hi', -⟩, -⟩
      cases hi'
    | some i =>
      have haccess : access w.tree (dir ++ [name]) regularFlags = .ok p ↔
          i.Readable ∧ p = dir ++ [name] := by
        unfold access regularFlags
        rw [hi]
        simp only [Bool.false_eq_true, false_and, if_false]
        split
        · rename_i hread
          exact ⟨fun h => ⟨hread, (Except.ok.inj h).symm⟩, fun h => congrArg Except.ok h.2.symm⟩
        · rename_i hread
          exact iff_of_false (fun h => nomatch h) fun h => hread h.1
      cases hnode : i.node with
      | symlink target =>
        refine iff_of_false (by simp [hnode]) ?_
        rintro ⟨-, ⟨j, hj, hlink, -⟩, -⟩
        obtain rfl := Option.some.inj hj
        exact hlink target hnode
      | file content => simp [hnode, haccess, henter]
      | directory => simp [hnode, haccess, henter]
      | special => simp [hnode, haccess, henter]

/-! ### Which paths name a file -/

/-- The names lead from a directory through directories that may be read and searched. -/
def Leads (t : Tree) (dir : Path) : List Bytes → Prop
  | [] => True
  | c :: cs => t.Enterable dir ∧ (∃ i, t.get (dir ++ [c]) = some i ∧ i.IsDir ∧ i.Readable) ∧
      Leads t (dir ++ [c]) cs

/-- A path names a regular file that may be read, through directories and no link. -/
def NamesFile (t : Tree) (root : RootHandle) (path : RelativePath) (content : Bytes) : Prop :=
  Unprotected path ∧ Leads t root.path path.components.dropLast ∧
    t.Enterable (parentOf root path).directory ∧
    ∃ mode mtime, t.get (root.at path) = some ⟨.file content, mode, mtime⟩ ∧
      Inode.Readable ⟨.file content, mode, mtime⟩

theorem openFileAncestors_eq_some_iff {cs : List Bytes} (hcs : ∀ c ∈ cs, Plain c) :
    openFileAncestors w dir cs = .ok (some p) ↔ Leads w.tree dir cs ∧ p = dir ++ cs := by
  induction cs generalizing dir with
  | nil =>
    unfold openFileAncestors Leads
    simp [eq_comm]
  | cons c cs ih =>
    have hplain := hcs c List.mem_cons_self
    have ih' : openFileAncestors w (dir ++ [c]) cs = .ok (some p) ↔
        Leads w.tree (dir ++ [c]) cs ∧ p = dir ++ [c] ++ cs :=
      ih fun c hc => hcs c (List.mem_cons_of_mem _ hc)
    have hopen : openat w dir c ⟨false, true, true⟩ = .ok (dir ++ [c]) ↔ _ :=
      openat_directory_eq_ok_iff hplain
    rw [List.append_assoc, List.singleton_append] at ih'
    unfold openFileAncestors Leads
    cases h : openat w dir c directoryFlags with
    | ok d =>
      obtain rfl := openat_ok hplain rfl h
      obtain ⟨henter, hentry, -⟩ := hopen.1 h
      simp only [ih', henter, hentry, true_and]
    | error e =>
      have hnot : ¬ (w.tree.Enterable dir ∧
          ∃ i, w.tree.get (dir ++ [c]) = some i ∧ i.IsDir ∧ i.Readable) := by
        rintro ⟨henter, hentry⟩
        have hok := hopen.2 ⟨henter, hentry, rfl⟩
        rw [show (⟨false, true, true⟩ : OpenFlags) = directoryFlags from rfl, h] at hok
        cases hok
      refine iff_of_false ?_ fun hleads => hnot ⟨hleads.1.1, hleads.1.2.1⟩
      simp only
      split_ifs <;> simp

theorem openFileLeaf_eq_some_iff (hplain : Plain name) :
    openFileLeaf w dir name = .ok (some p) ↔ w.tree.Enterable dir ∧ p = dir ++ [name] ∧
      ∃ content mode mtime, w.tree.get p = some ⟨.file content, mode, mtime⟩ ∧
        Inode.Readable ⟨.file content, mode, mtime⟩ := by
  have hopen (file : Path) : openat w dir name regularFlags = .ok file ↔ _ :=
    openat_regular_eq_ok_iff hplain
  unfold openFileLeaf
  constructor
  · intro h
    cases hok : openat w dir name regularFlags with
    | error e =>
      rw [hok] at h
      simp only at h
      split_ifs at h
      cases h
    | ok file =>
      obtain ⟨henter, ⟨⟨node, mode, mtime⟩, hi, -, hread⟩, rfl⟩ := (hopen file).1 hok
      simp only [hok, hi, Option.map_some] at h
      cases node with
      | file content =>
        cases h
        exact ⟨henter, rfl, content, mode, mtime, hi, hread⟩
      | directory => cases h
      | symlink target => cases h
      | special => cases h
  · rintro ⟨henter, rfl, content, mode, mtime, hi, hread⟩
    have hok := (hopen (dir ++ [name])).2 ⟨henter, ⟨_, hi, by simp, hread⟩, rfl⟩
    simp only [hok, hi, Option.map_some]

/-- **Which paths name a file**: those that lead to a regular file through directories only. -/
theorem openRegular_eq_some_iff {root : RootHandle} {path : RelativePath} :
    openRegular w root path = .ok (some p) ↔
      p = root.at path ∧ ∃ content, NamesFile w.tree root path content := by
  have hplain : ∀ c ∈ path.components.dropLast, Plain c := fun c hc =>
    path.plain (List.mem_of_mem_dropLast hc)
  have hleaf := plain_leaf root path
  unfold openRegular
  simp only [bind_eq_ok_iff, rejectProtected_eq_ok_iff, exists_and_left, exists_const]
  constructor
  · rintro ⟨hprot, directory, hancestors, h⟩
    cases directory with
    | none => cases h
    | some directory =>
      obtain ⟨hleads, rfl⟩ := (openFileAncestors_eq_some_iff hplain).1 hancestors
      obtain ⟨henter, hp, content, mode, mtime, hi, hread⟩ := (openFileLeaf_eq_some_iff hleaf).1 h
      obtain rfl : p = root.at path := hp.trans (parentOf_directory_leaf root path)
      exact ⟨rfl, content, hprot, hleads, henter, mode, mtime, hi, hread⟩
  · rintro ⟨rfl, content, hprot, hleads, henter, mode, mtime, hi, hread⟩
    refine ⟨hprot, some _, (openFileAncestors_eq_some_iff hplain).2 ⟨hleads, rfl⟩, ?_⟩
    exact (openFileLeaf_eq_some_iff hleaf).2 ⟨henter, (parentOf_directory_leaf root path).symm,
      content, mode, mtime, hi, hread⟩

theorem contentOf_namesFile {root : RootHandle} {path : RelativePath} {content : Bytes}
    (h : NamesFile w.tree root path content) : contentOf w (root.at path) = content := by
  obtain ⟨-, -, -, mode, mtime, hi, -⟩ := h
  unfold contentOf
  rw [hi]
  rfl

/-! ### Confinement -/

/-- Two trees have the same entries at and below a root, but for what is below protected names and
for the modification times of directories. -/
def SameBelow (root : RootHandle) (t t' : Tree) : Prop :=
  ∀ p : Path, (∀ c ∈ p, c ∉ protectedComponents) →
    SameEntry (t.get (root.path ++ p)) (t'.get (root.path ++ p))

theorem openFileAncestors_congr {root : RootHandle} (h : SameBelow root w.tree w'.tree)
    {cs : List Bytes} {q : Path} (hq : ∀ c ∈ q ++ cs, c ∉ protectedComponents)
    (hcs : ∀ c ∈ cs, Plain c) :
    openFileAncestors w (root.path ++ q) cs = openFileAncestors w' (root.path ++ q) cs := by
  induction cs generalizing q with
  | nil => rfl
  | cons c cs ih =>
    have hplain := hcs c List.mem_cons_self
    have hdir := h q fun c hc => hq c (List.mem_append_left _ hc)
    have hentry := h (q ++ [c]) fun d hd => hq d (by
      obtain hd | hd := List.mem_append.1 hd
      · exact List.mem_append_left _ hd
      · exact List.mem_append_right _ (List.mem_singleton.1 hd ▸ List.mem_cons_self))
    rw [← List.append_assoc] at hentry
    have hopen : openat w (root.path ++ q) c directoryFlags =
        openat w' (root.path ++ q) c directoryFlags := openat_congr hplain rfl hdir hentry
    have hrest := ih (q := q ++ [c]) (by simpa using hq) fun c hc => hcs c (List.mem_cons_of_mem _ hc)
    rw [← List.append_assoc] at hrest
    unfold openFileAncestors
    rw [hopen]
    cases hok : openat w' (root.path ++ q) c directoryFlags with
    | error e => rfl
    | ok d =>
      obtain rfl := openat_ok hplain rfl hok
      exact hrest

theorem SameEntry.node_eq {a b : Option Inode} (h : SameEntry a b) :
    a.map Inode.node = b.map Inode.node := by
  cases a with
  | none => rw [SameEntry.none_iff.1 h]
  | some i =>
    obtain ⟨j, rfl, hnode, -⟩ := SameEntry.some_iff.1 h
    exact congrArg some hnode.symm

theorem openFileLeaf_congr (hplain : Plain name)
    (hdir : SameEntry (w.tree.get dir) (w'.tree.get dir))
    (hentry : SameEntry (w.tree.get (dir ++ [name])) (w'.tree.get (dir ++ [name]))) :
    openFileLeaf w dir name = openFileLeaf w' dir name := by
  unfold openFileLeaf
  rw [openat_congr hplain rfl hdir hentry]
  cases hok : openat w' dir name regularFlags with
  | error e => rfl
  | ok file =>
    obtain rfl := openat_ok hplain rfl hok
    simp only [SameEntry.node_eq hentry]

/-- **Read confinement**: trees with the same unprotected entries below the root give the same
answer, and the same content. -/
theorem openRegular_congr {root : RootHandle} (h : SameBelow root w.tree w'.tree)
    (path : RelativePath) :
    openRegular w root path = openRegular w' root path ∧
      ∀ file, openRegular w root path = .ok (some file) → contentOf w file = contentOf w' file := by
  constructor
  · unfold openRegular
    cases hprot : rejectProtected path with
    | error e => rfl
    | ok u =>
      have hun := rejectProtected_eq_ok_iff.1 hprot
      have hdrop : ∀ c ∈ path.components.dropLast, c ∉ protectedComponents := fun c hc =>
        hun c (List.mem_of_mem_dropLast hc)
      have hplain : ∀ c ∈ path.components.dropLast, Plain c := fun c hc =>
        path.plain (List.mem_of_mem_dropLast hc)
      have hancestors : openFileAncestors w root.path path.components.dropLast =
          openFileAncestors w' root.path path.components.dropLast := by
        have heq := openFileAncestors_congr h (q := []) hdrop hplain
        rwa [List.append_nil] at heq
      have hleaf : openFileLeaf w (parentOf root path).directory (parentOf root path).leaf =
          openFileLeaf w' (parentOf root path).directory (parentOf root path).leaf := by
        refine openFileLeaf_congr (plain_leaf root path) (h _ hdrop) ?_
        rw [parentOf_directory_leaf]
        exact h path.components hun
      rw [hancestors]
      cases hdir : openFileAncestors w' root.path path.components.dropLast with
      | error e => rfl
      | ok directory =>
        cases directory with
        | none => rfl
        | some directory =>
          obtain ⟨-, rfl⟩ := (openFileAncestors_eq_some_iff hplain).1 hdir
          exact hleaf
  · intro file hfile
    obtain ⟨rfl, content, hprot, -⟩ := openRegular_eq_some_iff.1 hfile
    have hentry := h path.components hprot
    unfold contentOf RootHandle.at
    rw [SameEntry.node_eq hentry]

end

end QuicSync
