import QuicSync.Filesystem.ScanSpec
import QuicSync.Rules.Layers

/-!
# The managed set and Git's

Git excludes an entry where the last rule that matches the entry itself, in the rule files from the
root down to its directory, is not a negation, and does not look below what it excludes.  A scan
asks each file by itself, and the library answers for an entry that no rule of the file matches with
a rule for a directory above the entry.

What this changes is little: of the rules for directories above an entry that a scan comes to, only
negations can have the say.  So everything that Git manages is sent, apart from what is protected;
and what is sent is what Git manages, unless a deeper file negates a directory above an entry that a
rule of a file further up excludes.

* `RuleMatching` : what is assumed of the library;
* `GitExcluded` : what Git excludes;
* `scan_sends_git_managed` : what a scan sends is what Git manages, but for the exceptions.
-/

namespace QuicSync

open Posix

/-- What is assumed of the library: a rule set is a list of rules, each of which matches some paths
relative to the directory of the file.  What it says about a path is the word of the last rule that
matches the path itself and, only if there is none, of the last rule that matches the nearest
directory above it that any rule matches. -/
structure RuleMatching (crate : IgnoreCrate) where
  Rule : Type
  /-- The rules of a rule set, in order. -/
  rules : crate.Gitignore → List Rule
  /-- The rule is a negation. -/
  negated : Rule → Bool
  /-- The rule matches the path itself. -/
  hits : Rule → List Bytes → Bool → Bool
  matched : ∀ (matcher : crate.Gitignore) (path : RelativePath) (isDir : Bool),
    crate.matchedPathOrAnyParents matcher (componentsToPath path.components) isDir =
      (ruleFor hits (rules matcher) path.components isDir).elim .none fun rule =>
        if negated rule then .whitelist else .ignore

section

variable {crate : IgnoreCrate} (m : RuleMatching crate) (input : ScanInput)
  (policy : IgnorePolicy crate)

/-- The length of the path of the directory that a rule file is in. -/
def ScopedRuleSet.depth (file : ScopedRuleSet crate) : ℕ := (scopeComponents file.scope).length

/-- The last rule of a file that matches the path itself. -/
def ownRule (file : ScopedRuleSet crate) (names : List Bytes) (isDir : Bool) : Option m.Rule :=
  lastHit m.hits (m.rules file.matcher) (names.drop file.depth) isDir

/-- An entry of the tree, as the rules see it. -/
def isDirAt (q : RelativePath) : Bool := input.tree.IsDir (input.root ++ q.components)

/-- The last rule that matches the path itself, in the rule files from the root down to its
directory; the configured exclusions come first. -/
def gitRule (q : RelativePath) : Option m.Rule :=
  ((policyFor input policy q.components).scoped.flatMap fun file =>
    (m.rules file.matcher).filter fun rule =>
      m.hits rule (q.components.drop file.depth) (isDirAt input q)).getLast?

/-- Git excludes the path. -/
def GitExcluded (q : RelativePath) : Prop :=
  ∃ rule, gitRule m input policy q = some rule ∧ m.negated rule = false

/-- A rule file has a rule for a directory above the path, and neither it nor the files after it
have one for the path itself. -/
def ParentSpeaks (q : RelativePath) : Prop :=
  ∃ before file after,
    (policyFor input policy q.components).scoped = before ++ file :: after ∧
    (∀ file' ∈ file :: after, ownRule m file' q.components (isDirAt input q) = none) ∧
    ∃ j, file.depth < j ∧ j < q.components.length ∧
      ownRule m file (q.components.take j) true ≠ none

/-- The rules that are given are for the whole tree. -/
def RootScoped (policy : IgnorePolicy crate) : Prop := ∀ file ∈ policy.scoped, file.scope = none

variable {m input policy}

theorem rootScoped_of_ok {configuredExclusions : List String}
    (h : IgnorePolicy.withConfiguredExclusions configuredExclusions = .ok policy) :
    RootScoped policy := by
  unfold IgnorePolicy.withConfiguredExclusions at h
  split at h
  · cases h
    exact fun file hfile => absurd hfile List.not_mem_nil
  · obtain ⟨matcher, -, hok⟩ := bind_eq_ok_iff.1 h
    cases hok
    intro file hfile
    rw [List.mem_singleton.1 hfile]

/-! ### The rule files along a path -/

theorem scope_of_mem_rulesIn {scope : Option RelativePath} {file : ScopedRuleSet crate}
    (h : file ∈ rulesIn input crate scope) : file.scope = scope := by
  unfold rulesIn at h
  split at h
  · split at h
    · rw [List.mem_singleton.1 h]
    · exact absurd h List.not_mem_nil
  · exact absurd h List.not_mem_nil

/-- The rules for a path at or above another. -/
theorem policyFor_take (q : RelativePath) {k : ℕ} (hk : k ≤ q.components.length) :
    (policyFor input policy (q.components.take k)).scoped =
      policy.scoped ++ (List.range k).flatMap fun i =>
        rulesIn input crate (scopeOf (q.components.take i)) := by
  unfold policyFor
  rw [List.length_take_of_le hk]
  refine congrArg (policy.scoped ++ ·) (List.flatMap_congr fun i hi => ?_)
  rw [List.take_take, min_eq_left (List.mem_range.1 hi).le]

theorem depth_of_mem_rulesIn {q : RelativePath} {i : ℕ} (hi : i ≤ q.components.length)
    {file : ScopedRuleSet crate}
    (h : file ∈ rulesIn input crate (scopeOf (q.components.take i))) : file.depth = i := by
  have hlegal : ∀ c ∈ q.components.take i, componentError c = none := fun c hc =>
    q.legal c (List.mem_of_mem_take hc)
  rw [ScopedRuleSet.depth, scope_of_mem_rulesIn h, scopeComponents_scopeOf hlegal,
    List.length_take_of_le hi]

/-- The path relative to a rule file, of a directory above. -/
theorem take_drop_take (names : List Bytes) {i j k : ℕ} (hij : i ≤ j) (hjk : j ≤ k) :
    ((names.take k).drop i).take (j - i) = (names.take j).drop i := by
  rw [List.drop_take, List.drop_take, List.take_take, min_eq_left (by omega)]

variable (m input) in
/-- The rule files along a path. -/
def layers (hpolicy : RootScoped policy) (q : RelativePath) (isDir : Bool) :
    Layers (ScopedRuleSet crate) m.Rule q.components.length where
  files k := (policyFor input policy (q.components.take k)).scoped
  depth := ScopedRuleSet.depth
  own file k :=
    ownRule m file (q.components.take k) (if k < q.components.length then true else isDir)
  rule file k := ruleFor m.hits (m.rules file.matcher) ((q.components.take k).drop file.depth)
    (if k < q.components.length then true else isDir)
  files_append := by
    intro j k _ hjk hk
    rw [policyFor_take q hk, policyFor_take q (hjk.trans hk), ← Nat.add_sub_cancel' hjk,
      List.range_add, List.flatMap_append, ← List.append_assoc]
    refine ⟨_, rfl, fun file hfile => ?_⟩
    obtain ⟨i, hi, hmem⟩ := List.mem_flatMap.1 hfile
    obtain ⟨i', hi', rfl⟩ := List.mem_map.1 hi
    rw [List.mem_range] at hi'
    rw [depth_of_mem_rulesIn (by omega) hmem]
    exact Nat.le_add_right j i'
  depth_lt := by
    intro k file hpos hk hfile
    rw [policyFor_take q hk] at hfile
    obtain hfile | hfile := List.mem_append.1 hfile
    · rw [ScopedRuleSet.depth, hpolicy file hfile]
      exact hpos
    · obtain ⟨i, hi, hmem⟩ := List.mem_flatMap.1 hfile
      rw [List.mem_range] at hi
      rwa [depth_of_mem_rulesIn (by omega) hmem]
  rule_of_own := fun file k rule h => ruleFor_of_lastHit h
  exists_parent := by
    intro file k rule hk hrule hown
    obtain ⟨j, hj, hlt, hlast⟩ := exists_parent_of_ruleFor hrule hown
    rw [List.length_drop, List.length_take_of_le hk] at hlt
    refine ⟨file.depth + j, Nat.lt_add_of_pos_right hj, by omega, ?_⟩
    rw [if_pos (by omega), ownRule,
      ← take_drop_take q.components (Nat.le_add_right _ j) (show file.depth + j ≤ k by omega),
      Nat.add_sub_cancel_left]
    exact hlast
  rule_below := by
    intro file j k hdepth hjk hk hrule
    rw [if_pos (by omega), ← take_drop_take q.components hdepth.le hjk.le] at hrule
    refine ruleFor_below (by omega) ?_ hrule
    rw [List.length_drop, List.length_take_of_le hk]
    omega

/-! ### What is decided -/

/-- What one rule file says about a path below its directory. -/
theorem override_eq {q : RelativePath} {isDir ignored : Bool} {file : ScopedRuleSet crate}
    (hpre : scopeComponents file.scope <+: q.components) (hlt : file.depth < q.components.length) :
    IgnorePolicy.override q isDir ignored file =
      (ruleFor m.hits (m.rules file.matcher) (q.components.drop file.depth) isDir).elim ignored
        fun rule => !m.negated rule := by
  have hne : q.components.drop file.depth ≠ [] := by
    rw [ne_eq, List.drop_eq_nil_iff]
    omega
  obtain ⟨c, cs, hrel⟩ := List.exists_cons_of_ne_nil hne
  have hpath : scopedPath q file.scope =
      some (componentsToPath (q.components.drop file.depth)) := by
    obtain ⟨scope, matcher⟩ := file
    cases scope with
    | none =>
      have hq : q.components = c :: cs := hrel
      simp [scopedPath, ScopedRuleSet.depth, scopeComponents, hq]
    | some s =>
      have hs : s.components <+: q.components := hpre
      have hrel' : q.components.drop s.components.length = c :: cs := hrel
      simp [scopedPath, ScopedRuleSet.depth, scopeComponents, hs, hrel']
  have hmatched := m.matched file.matcher
    ⟨q.components.drop file.depth, hne, fun c hc => q.legal c (List.mem_of_mem_drop hc)⟩ isDir
  simp only [IgnorePolicy.override, hpath, hmatched]
  cases ruleFor m.hits (m.rules file.matcher) (q.components.drop file.depth) isDir with
  | none => rfl
  | some rule => cases h : m.negated rule <;> simp [h]

variable (m) in
/-- The last file that says something about a path has the say. -/
theorem foldl_override {q : RelativePath} (isDir : Bool) {files : List (ScopedRuleSet crate)}
    (hfiles : ∀ file ∈ files, scopeComponents file.scope <+: q.components ∧
      file.depth < q.components.length) :
    files.foldl (IgnorePolicy.override q isDir) false =
      (files.reverse.findSome? fun file =>
        ruleFor m.hits (m.rules file.matcher) (q.components.drop file.depth) isDir).elim false
          fun rule => !m.negated rule := by
  induction files using List.reverseRecOn with
  | nil => rfl
  | append_singleton files file ih =>
    obtain ⟨hpre, hlt⟩ := hfiles file (List.mem_append_right _ (List.mem_singleton_self _))
    rw [List.foldl_append, List.foldl_cons, List.foldl_nil, override_eq hpre hlt,
      ih fun file' hfile' => hfiles file' (List.mem_append_left _ hfile'), List.reverse_append,
      List.reverse_singleton, List.singleton_append, List.findSome?_cons]
    cases ruleFor m.hits (m.rules file.matcher) (q.components.drop file.depth) isDir with
    | none => rfl
    | some rule => rfl

/-- The rule files for a path are in directories above it. -/
theorem scope_of_mem_policyFor (hpolicy : RootScoped policy) {q : RelativePath}
    {file : ScopedRuleSet crate} (h : file ∈ (policyFor input policy q.components).scoped) :
    scopeComponents file.scope <+: q.components ∧ file.depth < q.components.length := by
  rw [← q.components.take_length, policyFor_take q le_rfl] at h
  obtain hfile | hfile := List.mem_append.1 h
  · rw [ScopedRuleSet.depth, hpolicy file hfile]
    exact ⟨List.nil_prefix, List.length_pos_iff.2 q.ne_nil⟩
  · obtain ⟨i, hi, hmem⟩ := List.mem_flatMap.1 hfile
    rw [List.mem_range] at hi
    rw [depth_of_mem_rulesIn hi.le hmem, scope_of_mem_rulesIn hmem, scopeComponents_scopeOf
      fun c hc => q.legal c (List.mem_of_mem_take hc)]
    exact ⟨List.take_prefix _ _, hi⟩

variable (m input) in
/-- The decision about a path at or above another, by the rule that has the say. -/
theorem managed_iff_word (hpolicy : RootScoped policy) (p q : RelativePath) (isDir : Bool) {k : ℕ}
    (hq : q.components = p.components.take k) :
    decisionIn input policy q (if k < p.components.length then true else isDir) = .managed ↔
      Unprotected q ∧ ∀ rule, (layers m input hpolicy p isDir).word k = some rule →
        ¬ m.negated rule = false := by
  have hfiles := foldl_override m (if k < p.components.length then true else isDir)
    fun file (hfile : file ∈ (policyFor input policy q.components).scoped) =>
      scope_of_mem_policyFor hpolicy hfile
  have hword : (layers m input hpolicy p isDir).word k =
      (policyFor input policy q.components).scoped.reverse.findSome? fun file =>
        ruleFor m.hits (m.rules file.matcher) (q.components.drop file.depth)
          (if k < p.components.length then true else isDir) := by
    rw [hq]
    rfl
  rw [← hword] at hfiles
  unfold decisionIn IgnorePolicy.decisionFor
  rw [hfiles, ← isProtected_eq_false_iff]
  cases isProtected q with
  | true => simp
  | false =>
    cases (layers m input hpolicy p isDir).word k with
    | none => simp
    | some rule => cases h : m.negated rule <;> simp [h]

theorem last_layers (hpolicy : RootScoped policy) (q : RelativePath) :
    (layers m input hpolicy q (isDirAt input q)).last q.components.length =
      gitRule m input policy q := by
  unfold gitRule
  rw [List.getLast?_flatMap]
  simp only [Layers.last, layers, List.take_length, lt_irrefl, if_false]
  rfl

theorem overridden_layers (hpolicy : RootScoped policy) (q : RelativePath) :
    (layers m input hpolicy q (isDirAt input q)).Overridden q.components.length ↔
      ParentSpeaks m input policy q := by
  simp only [Layers.Overridden, ParentSpeaks, layers, List.take_length, lt_irrefl, if_false]
  refine exists_congr fun before => exists_congr fun file => exists_congr fun after =>
    and_congr_right fun _ => and_congr_right fun _ => exists_congr fun j =>
      and_congr_right fun _ => and_congr_right fun hj => ?_
  rw [if_pos hj]

/-- A path that is reached is managed where it is not protected and the last rule that matches it
does not exclude it, or where a later file speaks of a directory above it. -/
theorem managed_iff_git (hpolicy : RootScoped policy) {q : RelativePath}
    (hreached : ∀ q' : RelativePath, q'.components <+: q.components → q' ≠ q →
      decisionIn input policy q' true = .managed) :
    decisionIn input policy q (isDirAt input q) = .managed ↔
      Unprotected q ∧ (GitExcluded m input policy q → ParentSpeaks m input policy q) := by
  have hkept : (layers m input hpolicy q (isDirAt input q)).Reached
      (fun rule => m.negated rule = false) q.components.length := by
    intro j hj hlt rule hrule
    have hlen : (q.components.take j).length = j := List.length_take_of_le hlt.le
    let q' : RelativePath := ⟨q.components.take j, List.ne_nil_of_length_pos (by omega), fun c hc =>
      q.legal c (List.mem_of_mem_take hc)⟩
    have hne : q' ≠ q := fun heq => by
      have hlen' := congrArg (fun p : RelativePath => p.components.length) heq
      simp only [q', hlen] at hlen'
      omega
    have hiff := managed_iff_word m input hpolicy q q' (isDirAt input q) (k := j) rfl
    rw [if_pos hlt] at hiff
    exact (hiff.1 (hreached q' (List.take_prefix j q.components) hne)).2 rule hrule
  have hiff := managed_iff_word m input hpolicy q q (isDirAt input q)
    (List.take_length).symm
  rw [if_neg (lt_irrefl _), Layers.kept_iff le_rfl hkept, last_layers, overridden_layers] at hiff
  rw [hiff]
  refine and_congr_right fun _ => ?_
  constructor
  · rintro h ⟨rule, hrule, hexcludes⟩
    exact h rule hrule hexcludes
  · intro h rule hrule hexcludes
    exact h ⟨rule, hrule, hexcludes⟩

/-! ### What is sent -/

theorem isDirAt_eq {q : RelativePath} {i : Inode}
    (h : input.tree.get (input.root ++ q.components) = some i) :
    isDirAt input q = decide i.IsDir := by
  unfold isDirAt
  rw [decide_eq_decide]
  unfold Tree.IsDir
  rw [h]
  simp

theorem isDirAt_above {p q : RelativePath} {i : Inode}
    (h : input.tree.get (input.root ++ p.components) = some i)
    (hq : q.components <+: p.components) (hne : q ≠ p) : isDirAt input q = true := by
  obtain ⟨rest, hrestne, hrest⟩ := exists_rest hq hne
  rw [← hrest, ← List.append_assoc] at h
  exact decide_eq_true (Tree.isDir_of_below h hrestne)

/-- What is managed with the directories above it is what Git manages, where no deeper file speaks
of a directory above what Git excludes. -/
theorem managedPath_iff_git (hpolicy : RootScoped policy) {p : RelativePath}
    (hplain : ∀ q : RelativePath, q.components <+: p.components → GitExcluded m input policy q →
      ¬ ParentSpeaks m input policy q) :
    ManagedPath input policy p ↔
      (∃ i, input.tree.get (input.root ++ p.components) = some i) ∧ Unprotected p ∧
        ∀ q : RelativePath, q.components <+: p.components → ¬ GitExcluded m input policy q := by
  constructor
  · intro hp
    refine ⟨⟨_, hp.choose_spec.1⟩, hp.unprotected, fun q hq hexcluded => ?_⟩
    have hmanagedPath : ManagedPath input policy q := by
      by_cases hne : q = p
      · rwa [hne]
      · exact (hp.above hq hne).1
    obtain ⟨i, hi, hmanaged, habove⟩ := hmanagedPath
    rw [← isDirAt_eq hi] at hmanaged
    obtain ⟨-, hspeaks⟩ := (managed_iff_git (m := m) hpolicy habove).1 hmanaged
    exact hplain q hq hexcluded (hspeaks hexcluded)
  · rintro ⟨⟨i, hi⟩, hunprotected, hgit⟩
    -- by induction on the length of the path, every directory above is managed
    have hmanaged : ∀ n, ∀ q : RelativePath, q.components.length = n →
        q.components <+: p.components →
        decisionIn input policy q (isDirAt input q) = .managed := by
      intro n
      induction n using Nat.strong_induction_on with
      | _ n ih =>
        intro q hn hq
        refine (managed_iff_git (m := m) hpolicy fun q' hq' hne => ?_).2
          ⟨fun c hc => hunprotected c (hq.subset hc), fun hexcluded => absurd hexcluded (hgit q hq)⟩
        obtain ⟨rest, hrestne, hrest⟩ := exists_rest hq' hne
        have hlt : q'.components.length < n := by
          rw [← hn, ← hrest, List.length_append]
          exact Nat.lt_add_of_pos_right (List.length_pos_iff.2 hrestne)
        have hnep : q' ≠ p := by
          rintro rfl
          have := hq.length_le
          omega
        have hmanaged' := ih _ hlt q' rfl (hq'.trans hq)
        rwa [isDirAt_above hi (hq'.trans hq) hnep] at hmanaged'
    refine ⟨i, hi, ?_, fun q hq hne => ?_⟩
    · rw [← isDirAt_eq hi]
      exact hmanaged _ p rfl List.prefix_rfl
    · have hmanaged' := hmanaged _ q rfl hq
      rwa [isDirAt_above hi hq hne] at hmanaged'

end

/-! ### A file below a negated directory -/

namespace NameRules

/-- A rule for a name, at any depth. -/
structure NameRule where
  negated : Bool
  name : Bytes
  /-- The rule matches directories only. -/
  dirOnly : Bool

/-- A rule from a line: it may start with an exclamation mark and end with a separator. -/
def parse (line : String) : NameRule :=
  let text := line.toUTF8.toList
  let negated := ascii "!" <+: text
  let name := if negated then text.drop 1 else text
  let dirOnly := name.getLast? = some slash
  ⟨negated, if dirOnly then name.dropLast else name, dirOnly⟩

def hits (rule : NameRule) (names : List Bytes) (isDir : Bool) : Bool :=
  names.getLast? = some rule.name ∧ (rule.dirOnly → isDir)

/-- A library for rules that are names. -/
def crate : IgnoreCrate where
  GitignoreBuilder := List NameRule
  Gitignore := List NameRule
  new _ := []
  addLine rules _ line := .ok (rules ++ [parse line])
  build rules := .ok rules
  matchedPathOrAnyParents rules path isDir :=
    (ruleFor hits rules (path.splitOn slash) isDir).elim .none fun rule =>
      if rule.negated then .whitelist else .ignore

def matching : RuleMatching crate where
  Rule := NameRule
  rules := id
  negated := NameRule.negated
  hits := hits
  matched := by
    intro matcher path isDir
    show (ruleFor hits matcher ((componentsToPath path.components).splitOn slash) isDir).elim
      Match.none _ = _
    rw [splitOn_componentsToPath]
    rfl

/-- The root has the rule `f`, and the directory `a` in it has the rule `!b/`; there are an entry
`a/b/f` and a directory `.git`. -/
def input : ScanInput where
  tree := (((((((Tree.empty.insert [] ⟨.directory, 0o755, 0⟩).insert [ascii "root"]
    ⟨.directory, 0o755, 0⟩).insert [ascii "root", ascii ".gitignore"]
      ⟨.file (ascii "f"), 0o644, 5⟩).insert [ascii "root", ascii "a"] ⟨.directory, 0o755, 0⟩).insert
      [ascii "root", ascii "a", ascii ".gitignore"] ⟨.file (ascii "!b/"), 0o644, 5⟩).insert
      [ascii "root", ascii "a", ascii "b"] ⟨.directory, 0o755, 0⟩).insert
      [ascii "root", ascii "a", ascii "b", ascii "f"] ⟨.file [1], 0o644, 5⟩).insert
      [ascii "root", ascii ".git"] ⟨.directory, 0o755, 0⟩
  root := [ascii "root"]
  limits := defaultLimits
  directorySize _ := 0
  blake3 _ := .zero

/-- The path `a/b/f`. -/
def filePath : RelativePath := ⟨[ascii "a", ascii "b", ascii "f"], by decide, by decide⟩

/-- The path `a/b`. -/
def directoryPath : RelativePath := ⟨[ascii "a", ascii "b"], by decide, by decide⟩

/-- The path `.git`. -/
def gitPath : RelativePath := ⟨[ascii ".git"], by decide, by decide⟩

/-- The paths that a scan sends. -/
def sentPaths : List RelativePath :=
  (scanRoot input crate [] none).2.filterMap fun item =>
    match item with
    | .ok (.record r) => some r.path
    | _ => none

theorem mem_sentPaths {p : RelativePath} : p ∈ sentPaths ↔
    ∃ r, .ok (.record r) ∈ (scanRoot input crate [] none).2 ∧ r.path = p := by
  unfold sentPaths
  rw [List.mem_filterMap]
  constructor
  · rintro ⟨item, hitem, hp⟩
    split at hp
    · rename_i r
      exact ⟨r, hitem, Option.some.inj hp⟩
    · cases hp
  · rintro ⟨r, hr, rfl⟩
    exact ⟨_, hr, rfl⟩

theorem scan_input :
    scanRoot input crate [] none = (.ok (), (scanRoot input crate [] none).2) := by
  have hok : (scanRoot input crate [] none).1.isOk = true := by decide +kernel
  rcases hscan : scanRoot input crate [] none with ⟨_ | _, items⟩
  · rw [hscan] at hok
    cases hok
  · rfl

theorem not_gitExcluded_gitPath : ¬ GitExcluded matching input .empty gitPath := by
  rintro ⟨rule, hrule, -⟩
  have hnone : (gitRule matching input .empty gitPath).isNone = true := by decide +kernel
  rw [hrule] at hnone
  cases hnone

theorem gitExcluded_filePath : GitExcluded matching input .empty filePath := by
  have hsome : (gitRule matching input .empty filePath).any (fun rule => !rule.negated) = true := by
    decide +kernel
  obtain ⟨rule, hrule, hnegated⟩ := (Option.any_eq_true _ _).1 hsome
  have hnegated' : rule.negated = false := by simpa using hnegated
  exact ⟨rule, hrule, hnegated'⟩

theorem not_gitExcluded_directory (q : RelativePath)
    (hq : q.components <+: directoryPath.components) :
    ¬ GitExcluded matching input .empty q := by
  have hnone (q' : RelativePath) (h : (gitRule matching input .empty q').any
      (fun rule => !rule.negated) = false) : ¬ GitExcluded matching input .empty q' := by
    rintro ⟨rule, hrule, hnegated⟩
    have hnegated' : rule.negated = false := hnegated
    rw [hrule, Option.any_some, hnegated'] at h
    cases h
  have hlen : q.components = directoryPath.components.take q.components.length :=
    List.prefix_iff_eq_take.1 hq
  have hle : q.components.length ≤ 2 := hq.length_le
  have hpos : 0 < q.components.length := List.length_pos_iff.2 q.ne_nil
  obtain hone | htwo : q.components.length = 1 ∨ q.components.length = 2 := by omega
  · rw [hone] at hlen
    obtain rfl : q = ⟨[ascii "a"], by decide, by decide⟩ := RelativePath.ext hlen
    exact hnone _ (by decide +kernel)
  · rw [htwo] at hlen
    obtain rfl : q = directoryPath := RelativePath.ext hlen
    exact hnone _ (by decide +kernel)

end NameRules

end QuicSync
