import QuicSync.Posix.CallSpecs
import QuicSync.Effect.Fallible

/-!
# Reading a file tree

The calls that read by path name, relative to a directory that is open.  They follow symbolic links
on the way, and all but `lstat` and `readlink` at the end too.

* `Tree.children`: the names in a directory; they come without an order.
* `walk_eq_ok_iff`: the path name of an entry that exists and is not a link means that entry, and
  resolves exactly where the directories on the way may be searched.  When the reading calls
  succeed on such entries, and what they return, follows.
-/

namespace QuicSync

namespace Posix

variable {t : Tree} {p dir : Path} {name : Name} {i : Inode}

/-- The names in a directory. -/
def Tree.children (t : Tree) (p : Path) : Finset Name :=
  (t.entries.keys.filter fun c => c ≠ [] ∧ c.dropLast = p).image fun c => c.getLastD []

theorem Tree.mem_children : name ∈ t.children p ↔ ∃ i, t.get (p ++ [name]) = some i := by
  unfold Tree.children
  rw [Finset.mem_image]
  constructor
  · rintro ⟨c, hc, rfl⟩
    -- a path is its parent and its last name
    obtain ⟨hkey, hne, rfl⟩ := Finset.mem_filter.1 hc
    rw [List.getLastD_eq_getLast?, List.getLast?_eq_some_getLast hne, Option.getD_some,
      List.dropLast_append_getLast]
    exact Finmap.mem_iff.1 (Finmap.mem_keys.1 hkey)
  · rintro ⟨i, hi⟩
    refine ⟨p ++ [name], Finset.mem_filter.2 ⟨?_, by simp, by simp⟩, by simp⟩
    exact Finmap.mem_keys.2 (Finmap.mem_of_lookup_eq_some hi)

/-- The names in a directory that may be read. -/
def readDir (t : Tree) (dir : Path) (names : List Name) : Except Errno (Finset Name) := do
  let p ← walk t maxLinks dir names
  match t.get p with
  | none => .error .noent
  | some i =>
    if ¬ i.IsDir then .error .notdir
    else if i.Readable then .ok (t.children p)
    else .error .acces

/-- The inode of an entry; a symbolic link is not followed. -/
def lstat (t : Tree) (dir : Path) (names : List Name) : Except Errno Inode := do
  let parent ← walk t maxLinks dir names.dropLast
  search t parent
  match t.get (parent ++ [names.getLastD []]) with
  | none => .error .noent
  | some i => .ok i

/-- The content of a file that may be read. -/
def readFile (t : Tree) (dir : Path) (names : List Name) : Except Errno (List UInt8) := do
  let p ← walk t maxLinks dir names
  match t.get p with
  | none => .error .noent
  | some i =>
    match i.node with
    | .file content => if i.Readable then .ok content else .error .acces
    | .directory => .error .isdir
    | _ => .error .inval

/-- The target of a symbolic link. -/
def readlink (t : Tree) (dir : Path) (names : List Name) : Except Errno (List UInt8) := do
  let i ← lstat t dir names
  match i.node with
  | .symlink target => .ok target
  | _ => .error .inval

/-! ### Entries that exist -/

/-- Every name is one component. -/
def PlainNames (names : List Name) : Prop := ∀ c ∈ names, Plain c

/-- What has an entry below it is a directory. -/
theorem Tree.isDir_of_below {q : Path} (h : t.get (p ++ q) = some i) (hq : q ≠ []) :
    t.IsDir p := by
  have hdir := Tree.isDir_dropLast h (by simp [hq])
  rw [List.dropLast_append_of_ne_nil hq] at hdir
  exact hdir.of_append

/-- The directories on the way to an entry may be searched. -/
def Tree.Reachable (t : Tree) (dir : Path) (names : List Name) : Prop :=
  ∀ k < names.length, t.Enterable (dir ++ names.take k)

theorem Tree.reachable_nil : t.Reachable dir [] := fun _ hk => absurd hk (Nat.not_lt_zero _)

theorem Tree.reachable_cons {names : List Name} :
    t.Reachable dir (name :: names) ↔ t.Enterable dir ∧ t.Reachable (dir ++ [name]) names := by
  constructor
  · intro h
    refine ⟨by simpa using h 0 (by simp), fun k hk => ?_⟩
    simpa using h (k + 1) (by simpa using hk)
  · rintro ⟨hdir, hrest⟩ k hk
    cases k with
    | zero => simpa using hdir
    | succ k => simpa using hrest k (by simpa using hk)

theorem Tree.reachable_concat {names : List Name} :
    t.Reachable dir (names ++ [name]) ↔ t.Reachable dir names ∧ t.Enterable (dir ++ names) := by
  induction names generalizing dir with
  | nil =>
    rw [List.nil_append, Tree.reachable_cons, List.append_nil]
    exact ⟨fun h => ⟨Tree.reachable_nil, h.1⟩, fun h => ⟨h.2, Tree.reachable_nil⟩⟩
  | cons c cs ih =>
    rw [List.cons_append, Tree.reachable_cons, Tree.reachable_cons, ih, List.append_assoc,
      and_assoc]
    rfl

/-- A directory is not a link. -/
theorem Inode.IsDir.ne_symlink (h : i.IsDir) (target : List UInt8) : i.node ≠ .symlink target := by
  rw [Inode.IsDir] at h
  rw [h]
  intro h'
  cases h'

/-- The path name of an entry that is not a link means that entry, where it can be reached. -/
theorem walkWith_eq_ok_iff {follow : Path → List Name → Except Errno Path} {names : List Name}
    (hplain : PlainNames names) (hget : t.get (dir ++ names) = some i)
    (hlink : ∀ target, i.node ≠ .symlink target) :
    walkWith t follow dir names = .ok p ↔ p = dir ++ names ∧ t.Reachable dir names := by
  induction names generalizing dir with
  | nil =>
    rw [walkWith, List.append_nil, Except.ok.injEq, eq_comm]
    exact ⟨fun h => ⟨h, Tree.reachable_nil⟩, fun h => h.1⟩
  | cons c cs ih =>
    obtain ⟨hne, hdot, hdotdot, -⟩ := hplain c List.mem_cons_self
    rw [List.append_cons] at hget ⊢
    have hrest := ih (fun x hx => hplain x (List.mem_cons_of_mem _ hx)) hget
    have hstep : walkWith t follow dir (c :: cs) = (do
        search t dir
        walkWith t follow (dir ++ [c]) cs) := by
      rw [walkWith, if_neg (not_or.2 ⟨hne, hdot⟩), if_neg hdotdot]
      -- the entry is a directory, or the last one and not a link
      obtain ⟨j, hj, hnode⟩ : ∃ j, t.get (dir ++ [c]) = some j ∧
          ∀ target, j.node ≠ .symlink target := by
        cases cs with
        | nil => exact ⟨i, by rwa [List.append_nil] at hget, hlink⟩
        | cons c' cs =>
          obtain ⟨j, hj, hdir⟩ := Tree.isDir_of_below hget (List.cons_ne_nil c' cs)
          exact ⟨j, hj, hdir.ne_symlink⟩
      rw [hj]
      cases hnode' : j.node with
      | symlink target => exact absurd hnode' (hnode target)
      | file content => simp only [hnode']
      | directory => simp only [hnode']
      | special => simp only [hnode']
    rw [hstep, bind_eq_ok_iff, Tree.reachable_cons]
    simp only [hrest, search_eq_ok_iff, exists_const]
    exact and_left_comm

theorem walk_eq_ok_iff {n : ℕ} {names : List Name} (hplain : PlainNames names)
    (hget : t.get (dir ++ names) = some i) (hlink : ∀ target, i.node ≠ .symlink target) :
    walk t n dir names = .ok p ↔ p = dir ++ names ∧ t.Reachable dir names := by
  cases n with
  | zero => exact walkWith_eq_ok_iff hplain hget hlink
  | succ n => exact walkWith_eq_ok_iff hplain hget hlink

theorem readDir_eq_ok_iff {names : List Name} {s : Finset Name} (hplain : PlainNames names)
    (hget : t.get (dir ++ names) = some i) (hdir : i.IsDir) :
    readDir t dir names = .ok s ↔
      t.Reachable dir names ∧ i.Readable ∧ s = t.children (dir ++ names) := by
  unfold readDir
  simp only [bind_eq_ok_iff, walk_eq_ok_iff hplain hget hdir.ne_symlink]
  constructor
  · rintro ⟨p, ⟨rfl, hreach⟩, h⟩
    simp only [hget, hdir, not_true_eq_false, if_false] at h
    split at h
    · rename_i hread
      cases h
      exact ⟨hreach, hread, rfl⟩
    · cases h
  · rintro ⟨hreach, hread, rfl⟩
    refine ⟨_, ⟨rfl, hreach⟩, ?_⟩
    simp [hget, hdir, hread]

theorem lstat_eq_ok_iff {names : List Name} {j : Inode} (hplain : PlainNames names)
    (hne : names ≠ []) (hget : t.get (dir ++ names) = some i) :
    lstat t dir names = .ok j ↔ t.Reachable dir names ∧ j = i := by
  obtain ⟨before, last, rfl⟩ : ∃ before last, names = before ++ [last] :=
    ⟨names.dropLast, names.getLast hne, (List.dropLast_append_getLast hne).symm⟩
  rw [← List.append_assoc] at hget
  obtain ⟨k, hk, hkdir⟩ := Tree.isDir_of_below hget (List.cons_ne_nil _ _)
  have hparent := fun p => walk_eq_ok_iff (p := p) (n := maxLinks)
    (fun c hc => hplain c (List.mem_append_left _ hc)) hk hkdir.ne_symlink
  unfold lstat
  simp only [List.dropLast_concat, List.getLastD_concat, bind_eq_ok_iff, hparent,
    search_eq_ok_iff, Tree.reachable_concat, exists_const]
  constructor
  · rintro ⟨p, ⟨rfl, hreach⟩, henter, h⟩
    rw [hget] at h
    exact ⟨⟨hreach, henter⟩, (Except.ok.inj h).symm⟩
  · rintro ⟨⟨hreach, henter⟩, rfl⟩
    refine ⟨_, ⟨rfl, hreach⟩, henter, ?_⟩
    rw [hget]

theorem readFile_eq_ok_iff {names : List Name} {content content' : List UInt8} {mode : UInt32}
    {mtime : ℤ} (hplain : PlainNames names)
    (hget : t.get (dir ++ names) = some ⟨.file content, mode, mtime⟩) :
    readFile t dir names = .ok content' ↔ t.Reachable dir names ∧
      (⟨.file content, mode, mtime⟩ : Inode).Readable ∧ content' = content := by
  unfold readFile
  simp only [bind_eq_ok_iff, walk_eq_ok_iff hplain hget (fun _ h => nomatch h)]
  constructor
  · rintro ⟨p, ⟨rfl, hreach⟩, h⟩
    rw [hget] at h
    simp only at h
    split at h
    · rename_i hread
      exact ⟨hreach, hread, (Except.ok.inj h).symm⟩
    · cases h
  · rintro ⟨hreach, hread, rfl⟩
    refine ⟨_, ⟨rfl, hreach⟩, ?_⟩
    rw [hget]
    exact if_pos hread

theorem readlink_eq_ok_iff {names : List Name} {target : List UInt8} (hplain : PlainNames names)
    (hne : names ≠ []) (hget : t.get (dir ++ names) = some i) :
    readlink t dir names = .ok target ↔ t.Reachable dir names ∧ i.node = .symlink target := by
  unfold readlink
  simp only [bind_eq_ok_iff, lstat_eq_ok_iff hplain hne hget]
  constructor
  · rintro ⟨j, ⟨hreach, rfl⟩, h⟩
    split at h
    · cases h
      exact ⟨hreach, by assumption⟩
    · cases h
  · rintro ⟨hreach, hnode⟩
    refine ⟨i, ⟨hreach, rfl⟩, ?_⟩
    rw [hnode]

end Posix

end QuicSync
