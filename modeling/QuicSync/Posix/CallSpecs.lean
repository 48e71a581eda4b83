import QuicSync.Effect.Fallible
import QuicSync.Posix.Calls
import Mathlib.Logic.Relation

/-!
# What the calls do

For each call on a plain name, when it succeeds and what the tree is afterwards, and the errors
that a caller tells apart.

`Tree.added`, `Tree.removed` and `Tree.renamed` are the trees after a successful call; their
`get_` lemmas say what is at every path.  `SameEntry` compares entries up to the modification
time of a directory, which every change of its entries sets.
-/

namespace QuicSync

namespace Posix

/-! ### Entries up to directory times -/

/-- An inode without the modification time of a directory. -/
def Inode.settled (i : Inode) : Inode := if i.IsDir then { i with mtime := 0 } else i

/-- The same entry, up to the modification time of a directory. -/
def SameEntry (a b : Option Inode) : Prop := a.map Inode.settled = b.map Inode.settled

namespace SameEntry

variable {a b c : Option Inode} {i j : Inode}

theorem refl (a : Option Inode) : SameEntry a a := rfl

theorem of_eq (h : a = b) : SameEntry a b := congrArg _ h

theorem symm (h : SameEntry a b) : SameEntry b a := Eq.symm h

theorem trans (h : SameEntry a b) (h' : SameEntry b c) : SameEntry a c := Eq.trans h h'

theorem touched {i : Inode} (h : i.IsDir) (m : ℤ) :
    SameEntry (some i) (some { i with mtime := m }) := by
  have h' : ({ i with mtime := m } : Inode).IsDir := h
  simp only [SameEntry, Option.map_some, Inode.settled, if_pos h, if_pos h']

theorem some_iff : SameEntry (some i) b ↔ ∃ j, b = some j ∧ j.node = i.node ∧ j.mode = i.mode ∧
    (¬ i.IsDir → j.mtime = i.mtime) := by
  cases b with
  | none => simp [SameEntry]
  | some j =>
    simp only [SameEntry, Option.map_some, Option.some.injEq, exists_eq_left', Inode.settled]
    obtain ⟨n, m, t⟩ := i
    obtain ⟨n', m', t'⟩ := j
    simp only [Inode.IsDir]
    by_cases hn : n = .directory <;> by_cases hn' : n' = .directory <;>
      simp only [hn, hn', if_true, if_false, Inode.mk.injEq, not_true_eq_false, not_false_eq_true,
        false_imp_iff, true_imp_iff, and_true] <;> grind

theorem none_iff : SameEntry none b ↔ b = none := by
  cases b <;> simp [SameEntry]

/-- The same entry has the same permissions. -/
theorem permissions (h : SameEntry (some i) b)
    (hdir : i.IsDir) : ∃ j, b = some j ∧ j.IsDir ∧ (j.Readable ↔ i.Readable) ∧
      (j.Searchable ↔ i.Searchable) ∧ (j.Writable ↔ i.Writable) := by
  obtain ⟨j, hj, hnode, hmode, -⟩ := some_iff.1 h
  refine ⟨j, hj, hnode.trans hdir, ?_⟩
  unfold Inode.Readable Inode.Searchable Inode.Writable
  rw [hmode]
  exact ⟨Iff.rfl, Iff.rfl, Iff.rfl⟩

end SameEntry

namespace Tree

variable {t : Tree} {p q dir dir' : Path} {name name' : Name} {i : Inode} {now : ℤ}

/-! ### Parents and children -/

/-- A directory in which names may be looked up. -/
def Enterable (t : Tree) (dir : Path) : Prop := ∃ i, t.get dir = some i ∧ i.IsDir ∧ i.Searchable

/-- A directory whose entries may be changed. -/
def WritableAt (t : Tree) (dir : Path) : Prop := ∃ i, t.get dir = some i ∧ i.Writable

theorem Enterable.isDir (h : t.Enterable dir) : t.IsDir dir := by
  obtain ⟨i, hi, hdir, -⟩ := h
  exact ⟨i, hi, hdir⟩

theorem ne_append_singleton (l : Path) (name : Name) : l ≠ l ++ [name] := by simp

/-- Only a directory has children. -/
theorem HasChild.isDir (h : t.HasChild p) : t.IsDir p := by
  obtain ⟨name, i, hi⟩ := hasChild_iff.1 h
  have hdir := isDir_dropLast hi (by simp)
  rwa [List.dropLast_concat] at hdir

/-- The ancestors of a directory are directories. -/
theorem IsDir.of_append {l : Path} (h : t.IsDir (p ++ l)) : t.IsDir p := by
  induction l using List.reverseRecOn with
  | nil => rwa [List.append_nil] at h
  | append_singleton l name ih =>
    obtain ⟨i, hi, -⟩ := h
    have hdir := isDir_dropLast hi (by simp)
    rw [← List.append_assoc, List.dropLast_concat] at hdir
    exact ih hdir

/-! ### Trees after a change -/

/-- The tree after adding an entry. -/
def added (t : Tree) (dir : Path) (name : Name) (i : Inode) (now : ℤ) : Tree :=
  (t.insert (dir ++ [name]) i).touch dir now

/-- The tree after removing an entry. -/
def removed (t : Tree) (dir : Path) (name : Name) (now : ℤ) : Tree :=
  (t.erase (dir ++ [name])).touch dir now

/-- The tree after moving an entry. -/
def renamed (t : Tree) (dir : Path) (name : Name) (dir' : Path) (name' : Name) (i : Inode)
    (now : ℤ) : Tree :=
  (((t.erase (dir ++ [name])).insert (dir' ++ [name']) i).touch dir now).touch dir' now

theorem get_added (now : ℤ) (hdir : t.IsDir dir) (hnone : t.get (dir ++ [name]) = none) (q : Path) :
    (t.added dir name i now).get q = if q = dir ++ [name] then some i
      else if q = dir then (t.get q).map fun i => { i with mtime := now } else t.get q := by
  have hcan : t.CanInsert (dir ++ [name]) i := by
    refine ⟨Or.inr (by rwa [List.dropLast_concat]), Or.inr fun hchild => ?_⟩
    obtain ⟨j, hj, -⟩ := hchild.isDir
    rw [hnone] at hj
    cases hj
  rw [added, get_touch, get_insert hcan, get_insert hcan, if_neg (ne_append_singleton dir name)]
  by_cases hq : q = dir
  · subst hq
    rw [if_pos rfl, if_neg (ne_append_singleton _ _), if_pos rfl]
  · rw [if_neg hq, if_neg hq]

theorem get_removed (now : ℤ) (hchild : ¬ t.HasChild (dir ++ [name])) (q : Path) :
    (t.removed dir name now).get q = if q = dir ++ [name] then none
      else if q = dir then (t.get q).map fun i => { i with mtime := now } else t.get q := by
  rw [removed, get_touch, get_erase hchild, get_erase hchild, if_neg (ne_append_singleton dir name)]
  by_cases hq : q = dir
  · subst hq
    rw [if_pos rfl, if_neg (ne_append_singleton _ _), if_pos rfl]
  · rw [if_neg hq, if_neg hq]

theorem get_renamed (now : ℤ) (hsrc : t.get (dir ++ [name]) = some i) (hi : ¬ i.IsDir)
    (hdir : t.IsDir dir) (hdir' : t.IsDir dir') (hdst : ¬ t.IsDir (dir' ++ [name']))
    (hne : dir ++ [name] ≠ dir' ++ [name']) (q : Path) :
    (t.renamed dir name dir' name' i now).get q = if q = dir' ++ [name'] then some i
      else if q = dir ++ [name] then none
      else if q = dir ∨ q = dir' then (t.get q).map fun i => { i with mtime := now }
      else t.get q := by
  have hsrcdir : ¬ t.IsDir (dir ++ [name]) := by
    rintro ⟨j, hj, hjdir⟩
    rw [hsrc] at hj
    cases hj
    exact hi hjdir
  have herase : ¬ t.HasChild (dir ++ [name]) := fun h => hsrcdir h.isDir
  have hdirne : dir' ≠ dir ++ [name] := by
    rintro rfl
    exact hsrcdir hdir'
  have hdstne : dir ≠ dir' ++ [name'] := by
    rintro rfl
    exact hdst hdir
  have hcan : (t.erase (dir ++ [name])).CanInsert (dir' ++ [name']) i := by
    refine ⟨Or.inr ?_, Or.inr fun hchild => hdst ?_⟩
    · obtain ⟨j, hj, hjdir⟩ := hdir'
      refine ⟨j, ?_, hjdir⟩
      rwa [List.dropLast_concat, get_erase herase, if_neg hdirne]
    · obtain ⟨j, hj, hjdir⟩ := hchild.isDir
      rw [get_erase herase, if_neg hne.symm] at hj
      exact ⟨j, hj, hjdir⟩
  have hins := get_insert hcan
  rw [renamed, get_touch, get_touch, get_touch, hins, hins, hins]
  rw [get_erase herase, get_erase herase, get_erase herase]
  rw [if_neg (ne_append_singleton dir' name'), if_neg hdirne, if_neg hdstne,
    if_neg (ne_append_singleton dir name)]
  by_cases h1 : q = dir' ++ [name']
  · subst h1
    rw [if_neg (ne_append_singleton dir' name').symm, if_neg hdstne.symm, if_pos rfl, if_pos rfl]
  · by_cases h2 : q = dir ++ [name]
    · subst h2
      rw [if_neg hdirne.symm, if_neg (ne_append_singleton dir name).symm, if_neg h1, if_neg h1,
        if_pos rfl, if_pos rfl]
    · rw [if_neg h1, if_neg h2, if_neg h1, if_neg h2]
      by_cases h3 : q = dir'
      · subst h3
        rw [if_pos rfl, if_pos (Or.inr rfl)]
        by_cases h4 : q = dir
        · subst h4
          rw [if_pos rfl]
          cases t.get q <;> rfl
        · rw [if_neg h4]
      · by_cases h4 : q = dir
        · subst h4
          rw [if_neg h3, if_pos rfl, if_pos (Or.inl rfl)]
        · rw [if_neg h3, if_neg h4, if_neg (not_or.2 ⟨h4, h3⟩)]

/-! ### What a change leaves alone -/

/-- A directory that is touched stays the same entry. -/
theorem sameEntry_map_touch (h : t.IsDir q) :
    SameEntry (t.get q) ((t.get q).map fun i => { i with mtime := now }) := by
  obtain ⟨i, hi, hdir⟩ := h
  rw [Option.mem_def.1 hi]
  exact SameEntry.touched hdir now

theorem sameEntry_added (hdir : t.IsDir dir) (hnone : t.get (dir ++ [name]) = none)
    (hq : q ≠ dir ++ [name]) : SameEntry (t.get q) ((t.added dir name i now).get q) := by
  rw [get_added now hdir hnone, if_neg hq]
  split
  · rename_i h
    subst h
    exact sameEntry_map_touch hdir
  · exact SameEntry.refl _

theorem sameEntry_removed (hdir : t.IsDir dir) (hchild : ¬ t.HasChild (dir ++ [name]))
    (hq : q ≠ dir ++ [name]) : SameEntry (t.get q) ((t.removed dir name now).get q) := by
  rw [get_removed now hchild, if_neg hq]
  split
  · rename_i h
    subst h
    exact sameEntry_map_touch hdir
  · exact SameEntry.refl _

theorem sameEntry_renamed (hsrc : t.get (dir ++ [name]) = some i) (hi : ¬ i.IsDir)
    (hdir : t.IsDir dir) (hdir' : t.IsDir dir') (hdst : ¬ t.IsDir (dir' ++ [name']))
    (hne : dir ++ [name] ≠ dir' ++ [name']) (hq : q ≠ dir ++ [name]) (hq' : q ≠ dir' ++ [name']) :
    SameEntry (t.get q) ((t.renamed dir name dir' name' i now).get q) := by
  rw [get_renamed now hsrc hi hdir hdir' hdst hne, if_neg hq', if_neg hq]
  split
  · rename_i h
    obtain rfl | rfl := h
    · exact sameEntry_map_touch hdir
    · exact sameEntry_map_touch hdir'
  · exact SameEntry.refl _

end Tree

/-! ### Histories -/

/-- The second world comes from the first by changes that are each allowed. -/
def Evolves (Allowed : Tree → Tree → Prop) : World → World → Prop :=
  Relation.ReflTransGen fun w w' => ∃ t, w' = w.record t ∧ Allowed w.tree t

namespace Evolves

variable {Allowed Allowed' : Tree → Tree → Prop} {w w' w'' : World} {t : Tree}

theorem refl (w : World) : Evolves Allowed w w := Relation.ReflTransGen.refl

theorem trans (h : Evolves Allowed w w') (h' : Evolves Allowed w' w'') : Evolves Allowed w w'' :=
  Relation.ReflTransGen.trans h h'

theorem record (h : Allowed w.tree t) : Evolves Allowed w (w.record t) := .single ⟨t, rfl, h⟩

theorem mono (hsub : ∀ t t', Allowed t t' → Allowed' t t') (h : Evolves Allowed w w') :
    Evolves Allowed' w w' := by
  refine Relation.ReflTransGen.mono ?_ w w' h
  rintro _ _ ⟨t, ht, hall⟩
  exact ⟨t, ht, hsub _ _ hall⟩

/-- What every allowed change preserves, a history preserves. -/
theorem preserves {P : Tree → Tree → Prop} (hrefl : ∀ t, P t t)
    (htrans : ∀ t u v, P t u → Allowed u v → P t v) (h : Evolves Allowed w w') :
    P w.tree w'.tree := by
  induction h with
  | refl => exact hrefl _
  | tail _ hstep ih =>
    obtain ⟨t, rfl, hall⟩ := hstep
    exact htrans _ _ _ ih hall

end Evolves

/-! ### The calls on plain names -/

section

variable {w w' : World} {dir dir' p : Path} {name name' : Name} {i : Inode}

theorem search_eq_ok_iff {t : Tree} {u : Unit} : search t dir = .ok u ↔ t.Enterable dir := by
  unfold search Tree.Enterable
  cases t.get dir with
  | none => simp
  | some i =>
    simp only [Option.some.injEq, exists_eq_left']
    split_ifs <;> simp [*]

theorem mayWrite_eq_ok_iff {t : Tree} {u : Unit} : mayWrite t dir = .ok u ↔ t.WritableAt dir := by
  unfold mayWrite Tree.WritableAt
  cases t.get dir with
  | none => simp
  | some i =>
    simp only [Option.some.injEq, exists_eq_left']
    split_ifs with h <;> simp [h]

theorem mayWrite_acces {t : Tree} (h : t.Enterable dir) (hw : ¬ t.WritableAt dir) :
    mayWrite t dir = .error .acces := by
  obtain ⟨i, hi, -⟩ := h
  unfold mayWrite
  rw [hi]
  exact if_neg fun h => hw ⟨i, hi, h⟩

theorem locate_eq_ok_iff {t : Tree} {r : Path × Name} (h : Plain name) :
    locate t dir name = .ok r ↔ t.Enterable dir ∧ r = (dir, name) := by
  rw [locate_plain h, ← search_eq_ok_iff (u := ())]
  cases search t dir <;> simp [Except.map, eq_comm]

theorem locate_of_enterable {t : Tree} (h : Plain name) (hd : t.Enterable dir) :
    locate t dir name = .ok (dir, name) :=
  (locate_eq_ok_iff h).2 ⟨hd, rfl⟩

/-- Opening a directory without following links. -/
theorem openat_directory_eq_ok_iff (h : Plain name) :
    openat w dir name ⟨false, true, true⟩ = .ok p ↔ w.tree.Enterable dir ∧
      (∃ i, w.tree.get (dir ++ [name]) = some i ∧ i.IsDir ∧ i.Readable) ∧ p = dir ++ [name] := by
  unfold openat
  simp only [bind_eq_ok_iff, locate_eq_ok_iff h]
  constructor
  · rintro ⟨_, ⟨hd, rfl⟩, hopen⟩
    refine ⟨hd, ?_⟩
    simp only at hopen
    split at hopen
    · cases hopen
    · rename_i i hi
      have hacc : access w.tree (dir ++ [name]) ⟨false, true, true⟩ = .ok p := by
        split at hopen
        · cases hopen
        · exact hopen
      unfold access at hacc
      rw [hi] at hacc
      simp only [true_and, Bool.false_eq_true, if_false] at hacc
      split_ifs at hacc with h₁ h₂
      · cases hacc
        exact ⟨⟨i, hi, h₁, h₂⟩, rfl⟩
  · rintro ⟨hd, ⟨i, hi, hdir, hread⟩, rfl⟩
    refine ⟨_, ⟨hd, rfl⟩, ?_⟩
    have hnode : i.node = .directory := hdir
    simp only [hi, hnode, access, hdir, hread, not_true_eq_false, and_false, if_false, if_true,
      Bool.false_eq_true]

/-- Opening a file for writing without following links. -/
theorem openat_write_eq_ok_iff (h : Plain name) :
    openat w dir name ⟨true, false, true⟩ = .ok p ↔ w.tree.Enterable dir ∧
      (∃ i, w.tree.get (dir ++ [name]) = some i ∧ ¬ i.IsDir ∧ (∀ target, i.node ≠ .symlink target) ∧
        i.Writable) ∧ p = dir ++ [name] := by
  unfold openat
  simp only [bind_eq_ok_iff, locate_eq_ok_iff h]
  constructor
  · rintro ⟨_, ⟨hd, rfl⟩, hopen⟩
    refine ⟨hd, ?_⟩
    simp only at hopen
    split at hopen
    · cases hopen
    · rename_i i hi
      split at hopen
      · cases hopen
      · rename_i hlink
        unfold access at hopen
        rw [hi] at hopen
        simp only [Bool.false_eq_true, false_and, if_false, if_true] at hopen
        split_ifs at hopen with h₁ h₂
        cases hopen
        exact ⟨⟨i, hi, h₁, fun target => hlink target, h₂⟩, rfl⟩
  · rintro ⟨hd, ⟨i, hi, hdir, hlink, hwrite⟩, rfl⟩
    refine ⟨_, ⟨hd, rfl⟩, ?_⟩
    simp only [hi, access, hdir, hwrite, Bool.false_eq_true, false_and, if_false, if_true]

theorem create_eq_ok_iff {r : World × Path} (h : Plain name) :
    create w dir name i = .ok r ↔ w.tree.Enterable dir ∧ w.tree.get (dir ++ [name]) = none ∧
      w.tree.WritableAt dir ∧ r = (w.record (w.tree.added dir name i w.now), dir ++ [name]) := by
  unfold create
  simp only [bind_eq_ok_iff, locate_eq_ok_iff h]
  constructor
  · rintro ⟨_, ⟨hd, rfl⟩, hcreate⟩
    simp only at hcreate
    split at hcreate
    · cases hcreate
    · rename_i hnone
      obtain ⟨_, hw, hr⟩ := bind_eq_ok_iff.1 hcreate
      cases hr
      exact ⟨hd, hnone, mayWrite_eq_ok_iff.1 hw, rfl⟩
  · rintro ⟨hd, hnone, hw, rfl⟩
    refine ⟨_, ⟨hd, rfl⟩, ?_⟩
    simp only [hnone]
    exact bind_eq_ok_iff.2 ⟨(), mayWrite_eq_ok_iff.2 hw, rfl⟩

theorem create_exist (h : Plain name) (hd : w.tree.Enterable dir)
    {j : Inode} (hj : w.tree.get (dir ++ [name]) = some j) :
    create w dir name i = .error .exist := by
  unfold create
  simp only [locate_of_enterable h hd, bind, Except.bind, hj]

theorem create_acces (h : Plain name) (hd : w.tree.Enterable dir)
    (hnone : w.tree.get (dir ++ [name]) = none) (hw : ¬ w.tree.WritableAt dir) :
    create w dir name i = .error .acces := by
  unfold create
  simp only [locate_of_enterable h hd, bind, Except.bind, hnone, mayWrite_acces hd hw]

theorem mkdirat_eq_ok_iff {mode : UInt32} (h : Plain name) :
    mkdirat w dir name mode = .ok w' ↔ w.tree.Enterable dir ∧
      w.tree.get (dir ++ [name]) = none ∧ w.tree.WritableAt dir ∧
      w' = w.record (w.tree.added dir name ⟨.directory, mode, w.now⟩ w.now) := by
  unfold mkdirat
  simp only [bind_eq_ok_iff, create_eq_ok_iff h]
  constructor
  · rintro ⟨_, ⟨hd, hnone, hw, rfl⟩, hr⟩
    cases hr
    exact ⟨hd, hnone, hw, rfl⟩
  · rintro ⟨hd, hnone, hw, rfl⟩
    exact ⟨_, ⟨hd, hnone, hw, rfl⟩, rfl⟩

theorem symlinkat_eq_ok_iff {target : List UInt8} (h : Plain name) :
    symlinkat w target dir name = .ok w' ↔ w.tree.Enterable dir ∧
      w.tree.get (dir ++ [name]) = none ∧ w.tree.WritableAt dir ∧
      w' = w.record (w.tree.added dir name ⟨.symlink target, 0o777, w.now⟩ w.now) := by
  unfold symlinkat
  simp only [bind_eq_ok_iff, create_eq_ok_iff h]
  constructor
  · rintro ⟨_, ⟨hd, hnone, hw, rfl⟩, hr⟩
    cases hr
    exact ⟨hd, hnone, hw, rfl⟩
  · rintro ⟨hd, hnone, hw, rfl⟩
    exact ⟨_, ⟨hd, hnone, hw, rfl⟩, rfl⟩

theorem unlinkat_eq_ok_iff {removedir : Bool} (h : Plain name) :
    unlinkat w dir name removedir = .ok w' ↔ w.tree.Enterable dir ∧ w.tree.WritableAt dir ∧
      (∃ i, w.tree.get (dir ++ [name]) = some i ∧ (i.IsDir ↔ removedir = true)) ∧
      ¬ w.tree.HasChild (dir ++ [name]) ∧ w' = w.record (w.tree.removed dir name w.now) := by
  have hleaf {i : Inode} (hi : w.tree.get (dir ++ [name]) = some i) (hdir : ¬ i.IsDir) :
      ¬ w.tree.HasChild (dir ++ [name]) := by
    intro hchild
    obtain ⟨j, hj, hjdir⟩ := hchild.isDir
    rw [hi] at hj
    cases hj
    exact hdir hjdir
  unfold unlinkat
  simp only [bind_eq_ok_iff, locate_eq_ok_iff h]
  constructor
  · rintro ⟨_, ⟨hd, rfl⟩, hcall⟩
    simp only at hcall
    split at hcall
    · cases hcall
    · rename_i i hi
      obtain ⟨_, hw, hr⟩ := bind_eq_ok_iff.1 hcall
      refine ⟨hd, mayWrite_eq_ok_iff.1 hw, ?_⟩
      split_ifs at hr with h₁ h₂ h₃ h₄
      · cases hr
        exact ⟨⟨i, hi, by simp [h₁, h₂]⟩, h₃, rfl⟩
      · cases hr
        exact ⟨⟨i, hi, by simp [h₁, h₄]⟩, hleaf hi h₄, rfl⟩
  · rintro ⟨hd, hw, ⟨i, hi, hdir⟩, hchild, rfl⟩
    refine ⟨_, ⟨hd, rfl⟩, ?_⟩
    simp only [hi]
    refine bind_eq_ok_iff.2 ⟨(), mayWrite_eq_ok_iff.2 hw, ?_⟩
    cases removedir with
    | true => simp [hdir, hchild, Tree.removed]
    | false =>
      have hdir' : ¬ i.IsDir := by simpa using hdir
      simp [hdir', Tree.removed]

theorem unlinkat_noent {removedir : Bool} (h : Plain name) (hd : w.tree.Enterable dir)
    (hnone : w.tree.get (dir ++ [name]) = none) :
    unlinkat w dir name removedir = .error .noent := by
  unfold unlinkat
  simp only [locate_of_enterable h hd, bind, Except.bind, hnone]

theorem unlinkat_acces {removedir : Bool} (h : Plain name) (hd : w.tree.Enterable dir)
    (hi : w.tree.get (dir ++ [name]) = some i) (hw : ¬ w.tree.WritableAt dir) :
    unlinkat w dir name removedir = .error .acces := by
  unfold unlinkat
  simp only [locate_of_enterable h hd, bind, Except.bind, hi, mayWrite_acces hd hw]

theorem renameat_eq_ok_iff (h : Plain name) (h' : Plain name') :
    renameat w dir name dir' name' = .ok w' ↔ w.tree.Enterable dir ∧ w.tree.Enterable dir' ∧
      w.tree.WritableAt dir ∧ w.tree.WritableAt dir' ∧ ¬ w.tree.IsDir (dir' ++ [name']) ∧
      ∃ i, w.tree.get (dir ++ [name]) = some i ∧ ¬ i.IsDir ∧
        w' = if dir ++ [name] = dir' ++ [name'] then w
          else w.record (w.tree.renamed dir name dir' name' i w.now) := by
  unfold renameat
  simp only [bind_eq_ok_iff, locate_eq_ok_iff h, locate_eq_ok_iff h']
  constructor
  · rintro ⟨_, ⟨hd, rfl⟩, _, ⟨hd', rfl⟩, hcall⟩
    simp only at hcall
    split at hcall
    · cases hcall
    · rename_i i hi
      obtain ⟨_, hw, hcall⟩ := bind_eq_ok_iff.1 hcall
      obtain ⟨_, hw', hcall⟩ := bind_eq_ok_iff.1 hcall
      refine ⟨hd, hd', mayWrite_eq_ok_iff.1 hw, mayWrite_eq_ok_iff.1 hw', ?_⟩
      split_ifs at hcall with h₁ h₂ h₃
      · cases hcall
        exact ⟨h₂, i, hi, h₁, (if_pos h₃).symm⟩
      · cases hcall
        exact ⟨h₂, i, hi, h₁, (if_neg h₃).symm⟩
  · rintro ⟨hd, hd', hw, hw', hdst, i, hi, hdir, rfl⟩
    refine ⟨_, ⟨hd, rfl⟩, _, ⟨hd', rfl⟩, ?_⟩
    simp only [hi]
    refine bind_eq_ok_iff.2 ⟨(), mayWrite_eq_ok_iff.2 hw, bind_eq_ok_iff.2
      ⟨(), mayWrite_eq_ok_iff.2 hw', ?_⟩⟩
    rw [if_neg hdir, if_neg hdst]
    split <;> rfl

theorem renameat_acces (h : Plain name) (h' : Plain name') (hd : w.tree.Enterable dir)
    (hd' : w.tree.Enterable dir') (hi : w.tree.get (dir ++ [name]) = some i)
    (hw : w.tree.WritableAt dir) (hw' : ¬ w.tree.WritableAt dir') :
    renameat w dir name dir' name' = .error .acces := by
  have hok : mayWrite w.tree dir = .ok () := mayWrite_eq_ok_iff.2 hw
  unfold renameat
  simp only [locate_of_enterable h hd, locate_of_enterable h' hd', bind, Except.bind, hi, hok,
    mayWrite_acces hd' hw']

theorem utimensat_eq_ok_iff {mtime : ℤ} (h : Plain name) :
    utimensat w dir name mtime = .ok w' ↔ w.tree.Enterable dir ∧
      (∃ i, w.tree.get (dir ++ [name]) = some i) ∧
      w' = w.record (w.tree.touch (dir ++ [name]) mtime) := by
  unfold utimensat
  simp only [bind_eq_ok_iff, locate_eq_ok_iff h]
  constructor
  · rintro ⟨_, ⟨hd, rfl⟩, hcall⟩
    simp only at hcall
    split at hcall
    · cases hcall
    · rename_i i hi
      cases hcall
      exact ⟨hd, ⟨i, hi⟩, rfl⟩
  · rintro ⟨hd, ⟨i, hi⟩, rfl⟩
    refine ⟨_, ⟨hd, rfl⟩, ?_⟩
    simp only [hi]

end

end Posix

end QuicSync
