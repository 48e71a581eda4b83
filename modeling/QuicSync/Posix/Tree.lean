import Mathlib.Data.Finmap
import Mathlib.Data.List.Basic

/-!
# File trees

A file tree maps absolute paths, as lists of names, to inodes.  `Tree` carries its
well-formedness: an entry other than the root of the file system lies in a directory.  The three
changes keep it.

* `Tree.insert` puts an inode at a path whose parent is a directory; it does nothing where the
  result would not be a tree.
* `Tree.erase` removes an entry without children.
* `Tree.modify` changes the mode or the modification time of an entry.

All entries belong to one owner, and there are no hard links: an entry is its own inode.
-/

namespace QuicSync

namespace Posix

/-- A file name. -/
abbrev Name := List UInt8

/-- An absolute path. -/
abbrev Path := List Name

/-- What an inode is. -/
inductive Node where
  /-- A regular file with its content. -/
  | file (content : List UInt8)
  /-- A directory; its entries are those of the tree below it. -/
  | directory
  /-- A symbolic link with its target. -/
  | symlink (target : List UInt8)
  /-- A device, a socket or a pipe. -/
  | special
  deriving DecidableEq, Repr

/-- An inode: what it is, its permission bits and its modification time in nanoseconds. -/
structure Inode where
  node : Node
  mode : UInt32
  mtime : ℤ
  deriving DecidableEq, Repr

namespace Inode

/-- The inode is a directory. -/
def IsDir (i : Inode) : Prop := i.node = .directory

instance (i : Inode) : Decidable i.IsDir := inferInstanceAs (Decidable (_ = _))

/-- The owner may read. -/
def Readable (i : Inode) : Prop := i.mode.toNat.testBit 8

/-- The owner may write. -/
def Writable (i : Inode) : Prop := i.mode.toNat.testBit 7

/-- The owner may search the directory. -/
def Searchable (i : Inode) : Prop := i.mode.toNat.testBit 6

instance (i : Inode) : Decidable i.Readable := inferInstanceAs (Decidable (_ = _))

instance (i : Inode) : Decidable i.Writable := inferInstanceAs (Decidable (_ = _))

instance (i : Inode) : Decidable i.Searchable := inferInstanceAs (Decidable (_ = _))

end Inode

/-- A file tree. -/
structure Tree where
  /-- The entries. -/
  entries : Finmap fun _ : Path => Inode
  /-- An entry lies in a directory. -/
  closed : ∀ p ∈ entries, p ≠ [] → ∃ i, entries.lookup p.dropLast = some i ∧ i.IsDir

namespace Tree

variable {t : Tree} {p q : Path} {i : Inode}

/-- The tree without entries. -/
def empty : Tree := ⟨∅, fun _ h => absurd h Finmap.notMem_empty⟩

/-- The inode at a path. -/
def get (t : Tree) (p : Path) : Option Inode := t.entries.lookup p

@[simp] theorem get_empty (p : Path) : empty.get p = none := Finmap.lookup_empty p

/-- The path is a directory. -/
def IsDir (t : Tree) (p : Path) : Prop := ∃ i ∈ t.get p, i.IsDir

instance (t : Tree) (p : Path) : Decidable (t.IsDir p) :=
  decidable_of_iff ((t.get p).any fun i => decide i.IsDir) (by simp [IsDir, Option.any_eq_true])

/-- Some entry lies directly below the path. -/
def HasChild (t : Tree) (p : Path) : Prop := ∃ c ∈ t.entries.keys, c ≠ [] ∧ c.dropLast = p

instance (t : Tree) (p : Path) : Decidable (t.HasChild p) :=
  inferInstanceAs (Decidable (∃ c ∈ t.entries.keys, _))

theorem hasChild_iff : t.HasChild p ↔ ∃ name i, t.get (p ++ [name]) = some i := by
  constructor
  · rintro ⟨c, hc, hne, rfl⟩
    refine ⟨c.getLast hne, ?_⟩
    rw [List.dropLast_append_getLast]
    exact Finmap.mem_iff.1 (Finmap.mem_keys.1 hc)
  · rintro ⟨name, i, h⟩
    exact ⟨p ++ [name], Finmap.mem_keys.2 (Finmap.mem_of_lookup_eq_some h), by simp, by simp⟩

/-- An entry lies in a directory. -/
theorem isDir_dropLast (h : t.get p = some i) (hp : p ≠ []) : t.IsDir p.dropLast := by
  obtain ⟨j, hj, hdir⟩ := t.closed p (Finmap.mem_of_lookup_eq_some h) hp
  exact ⟨j, hj, hdir⟩

/-- The inode may be put at the path: the parent is a directory, and only a directory replaces an
entry with children. -/
def CanInsert (t : Tree) (p : Path) (i : Inode) : Prop :=
  (p = [] ∨ t.IsDir p.dropLast) ∧ (i.IsDir ∨ ¬ t.HasChild p)

instance (t : Tree) (p : Path) (i : Inode) : Decidable (t.CanInsert p i) :=
  inferInstanceAs (Decidable (_ ∧ _))

theorem ne_dropLast {α : Type} {l : List α} (h : l ≠ []) : l ≠ l.dropLast := by
  intro heq
  have hlen := congrArg List.length heq
  have hpos := List.length_pos_iff.2 h
  rw [List.length_dropLast] at hlen
  omega

/-- Put an inode at a path. -/
def insert (t : Tree) (p : Path) (i : Inode) : Tree :=
  if h : t.CanInsert p i then
    { entries := t.entries.insert p i
      closed := by
        intro q hq hne
        obtain rfl | hmem := (Finmap.mem_insert).1 hq
        · obtain rfl | ⟨j, hj, hdir⟩ := h.1
          · exact absurd rfl hne
          · exact ⟨j, by rwa [Finmap.lookup_insert_of_ne _ (ne_dropLast hne).symm], hdir⟩
        · obtain ⟨j, hj, hdir⟩ := t.closed q hmem hne
          by_cases hp : q.dropLast = p
          · subst hp
            obtain hi | hi := h.2
            · exact ⟨i, Finmap.lookup_insert _, hi⟩
            · exact absurd ⟨q, Finmap.mem_keys.2 hmem, hne, rfl⟩ hi
          · exact ⟨j, by rwa [Finmap.lookup_insert_of_ne _ hp], hdir⟩ }
  else t

/-- Remove an entry without children. -/
def erase (t : Tree) (p : Path) : Tree :=
  if h : t.HasChild p then t
  else
    { entries := t.entries.erase p
      closed := by
        intro q hq hne
        obtain ⟨-, hq⟩ := Finmap.mem_erase.1 hq
        obtain ⟨j, hj, hdir⟩ := t.closed q hq hne
        by_cases hp : q.dropLast = p
        · exact absurd ⟨q, Finmap.mem_keys.2 hq, hne, hp⟩ h
        · exact ⟨j, by rwa [Finmap.lookup_erase_ne hp], hdir⟩ }

/-- Change an inode without changing what it is. -/
def modify (t : Tree) (p : Path) (f : Inode → Inode) (hf : ∀ i, (f i).node = i.node) : Tree :=
  match h : t.get p with
  | none => t
  | some i =>
    { entries := t.entries.insert p (f i)
      closed := by
        intro q hq hne
        have hq' : q ∈ t.entries := by
          obtain rfl | hq := (Finmap.mem_insert).1 hq
          · exact Finmap.mem_of_lookup_eq_some h
          · exact hq
        obtain ⟨j, hj, hdir⟩ := t.closed q hq' hne
        by_cases hp : q.dropLast = p
        · subst hp
          obtain rfl := Option.some.inj (hj.symm.trans h)
          exact ⟨f j, Finmap.lookup_insert _, (hf j).trans hdir⟩
        · exact ⟨j, by rwa [Finmap.lookup_insert_of_ne _ hp], hdir⟩ }

theorem get_insert (h : t.CanInsert p i) (q : Path) :
    (t.insert p i).get q = if q = p then some i else t.get q := by
  rw [insert, dif_pos h]
  split
  · rename_i hq
    subst hq
    exact Finmap.lookup_insert _
  · rename_i hq
    exact Finmap.lookup_insert_of_ne _ hq

theorem get_erase (h : ¬ t.HasChild p) (q : Path) :
    (t.erase p).get q = if q = p then none else t.get q := by
  rw [erase, dif_neg h]
  split
  · rename_i hq
    subst hq
    exact Finmap.lookup_erase _ _
  · rename_i hq
    exact Finmap.lookup_erase_ne hq

theorem get_modify (t : Tree) (p : Path) (f : Inode → Inode) (hf : ∀ i, (f i).node = i.node)
    (q : Path) : (t.modify p f hf).get q = if q = p then (t.get p).map f else t.get q := by
  unfold modify
  split
  · rename_i h
    split
    · rename_i hq
      subst hq
      rw [h]
      rfl
    · rfl
  · rename_i i h
    split
    · rename_i hq
      subst hq
      exact (Finmap.lookup_insert _).trans (by rw [h]; rfl)
    · rename_i hq
      exact Finmap.lookup_insert_of_ne _ hq

/-- Set the modification time of an entry. -/
def touch (t : Tree) (p : Path) (now : ℤ) : Tree :=
  t.modify p (fun i => { i with mtime := now }) fun _ => rfl

theorem get_touch (t : Tree) (p : Path) (now : ℤ) (q : Path) :
    (t.touch p now).get q =
      if q = p then (t.get p).map fun i => { i with mtime := now } else t.get q :=
  get_modify t p _ _ q

end Tree

end Posix

end QuicSync
