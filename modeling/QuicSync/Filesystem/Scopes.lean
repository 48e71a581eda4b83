import QuicSync.Filesystem.Ignore

/-!
# Nested ignore files

The rules of a nested ignore file are for paths relative to its directory: the program takes the
directory off a path by components before it asks the library, and the library takes it off once
more, by bytes, where what is left still starts with it.

* `stripRoot` : what the library takes off;
* `StripsRoot` : what the program relies on, that a rule set says about a candidate what its rules
  say about the rest;
* `scope_independent_iff` : for which directories and paths the rules mean the same wherever the
  directory sits.
-/

namespace QuicSync

/-- What the library matches in place of a candidate: the root is taken off the front as a byte
string, with one separator after it, unless the candidate is a bare name. -/
def stripRoot (root candidate : Bytes) : Bytes :=
  if slash ∈ candidate ∧ root <+: candidate then
    let rest := candidate.drop root.length
    if rest.head? = some slash then rest.tail else rest
  else candidate

/-- The rule set of a file says about a candidate what the rules say about the candidate without
the root. -/
def StripsRoot (crate : IgnoreCrate) (verdict : Bytes → Bytes → Bool → Match) : Prop :=
  ∀ scope contents matcher, buildMatcher crate scope contents = .ok matcher →
    ∀ candidate isDir, crate.matchedPathOrAnyParents matcher candidate isDir =
      verdict contents (stripRoot (relativeToPath scope) candidate) isDir

/-- A path in a directory. -/
def joinScope (scope : Option RelativePath) (r : RelativePath) : RelativePath where
  components := scopeComponents scope ++ r.components
  ne_nil := by simp [r.ne_nil]
  legal c hc := by
    obtain hc | hc := List.mem_append.1 hc
    · cases scope with
      | none => exact absurd hc List.not_mem_nil
      | some s => exact s.legal c hc
    · exact r.legal c hc

/-- The text of a path starts with that of a directory below the root. -/
def StartsWith (scope : Option RelativePath) (r : RelativePath) : Prop :=
  ∃ s, scope = some s ∧ componentsToPath s.components <+: componentsToPath r.components

/-- The policies that hold the rules of one file in two directories decide alike about a path in
them, whatever the rules say. -/
def DecideAlike (scope scope' : Option RelativePath) (r : RelativePath) : Prop :=
  ∀ (crate : IgnoreCrate) (verdict : Bytes → Bytes → Bool → Match), StripsRoot crate verdict →
    ∀ (contents : Bytes) (kind : EntryKind) (policy policy' : IgnorePolicy crate),
      IgnorePolicy.empty.addIgnoreContents scope contents = .ok policy →
      IgnorePolicy.empty.addIgnoreContents scope' contents = .ok policy' →
      policy.decision (joinScope scope r) kind = policy'.decision (joinScope scope' r) kind

/-! ### The text of a path -/

theorem slash_notMem {path : RelativePath} {c : Bytes} (hc : c ∈ path.components) : slash ∉ c := by
  have h := path.plain hc
  exact h.2.2.2

theorem component_ne_nil {path : RelativePath} {c : Bytes} (hc : c ∈ path.components) : c ≠ [] :=
  (path.plain hc).1

theorem splitOn_componentsToPath (path : RelativePath) :
    (componentsToPath path.components).splitOn slash = path.components :=
  List.splitOn_intercalate slash (fun _ hc => slash_notMem hc) path.ne_nil

/-- A path is determined by its text. -/
theorem componentsToPath_injective {p q : RelativePath}
    (h : componentsToPath p.components = componentsToPath q.components) : p = q := by
  apply RelativePath.components_injective
  rw [← splitOn_componentsToPath p, ← splitOn_componentsToPath q, h]

theorem componentsToPath_cons_cons (a b : Bytes) (cs : List Bytes) :
    componentsToPath (a :: b :: cs) = a ++ slash :: componentsToPath (b :: cs) := by
  simp [componentsToPath, List.intercalate_cons_cons]

/-- The text of a path has a separator unless the path is one name. -/
theorem slash_mem_iff {r : RelativePath} :
    slash ∈ componentsToPath r.components ↔ r.components.length ≠ 1 := by
  rcases hr : r.components with _ | ⟨a, _ | ⟨b, cs⟩⟩
  · exact absurd hr r.ne_nil
  · have hmem : a ∈ r.components := by rw [hr]; exact List.mem_cons_self
    have ha : slash ∉ a := slash_notMem hmem
    simp [componentsToPath, ha]
  · simp [componentsToPath_cons_cons]

/-- The text of a path starts with a byte that is not a separator. -/
theorem head?_componentsToPath (r : RelativePath) :
    ∃ b, (componentsToPath r.components).head? = some b ∧ b ≠ slash := by
  rcases hr : r.components with _ | ⟨a, cs⟩
  · exact absurd hr r.ne_nil
  · have hmem : a ∈ r.components := by rw [hr]; exact List.mem_cons_self
    obtain ⟨b, bs, rfl⟩ := List.exists_cons_of_ne_nil (component_ne_nil hmem)
    refine ⟨b, ?_, fun hb => slash_notMem hmem (hb ▸ List.mem_cons_self)⟩
    cases cs with
    | nil => simp [componentsToPath]
    | cons c cs => rw [componentsToPath_cons_cons]; rfl

theorem getLast?_intercalate {cs : List Bytes} (hne : cs ≠ [])
    (h : ∀ c ∈ cs, c ≠ [] ∧ slash ∉ c) :
    ∃ b, (componentsToPath cs).getLast? = some b ∧ b ≠ slash := by
  induction cs with
  | nil => exact absurd rfl hne
  | cons a cs ih =>
    obtain ⟨⟨hane, ha⟩, hcs⟩ := List.forall_mem_cons.1 h
    cases cs with
    | nil =>
      refine ⟨a.getLast hane, ?_, fun hb => ha (hb ▸ List.getLast_mem hane)⟩
      simp [componentsToPath, List.getLast?_eq_some_getLast hane]
    | cons b cs =>
      obtain ⟨x, hx, hslash⟩ := ih (List.cons_ne_nil _ _) hcs
      refine ⟨x, ?_, hslash⟩
      rw [componentsToPath_cons_cons, List.getLast?_append, List.getLast?_cons, hx]
      rfl

/-- The text of a path ends with a byte that is not a separator. -/
theorem getLast?_componentsToPath (r : RelativePath) :
    ∃ b, (componentsToPath r.components).getLast? = some b ∧ b ≠ slash :=
  getLast?_intercalate r.ne_nil fun _ hc => ⟨component_ne_nil hc, slash_notMem hc⟩

/-! ### What is taken off -/

/-- Taking off what a text starts with leaves a shorter end of it. -/
theorem stripRoot_eq_drop {root candidate : Bytes} (hslash : slash ∈ candidate)
    (h : root <+: candidate) :
    ∃ n, (n = root.length ∧ candidate[n]? ≠ some slash ∨
        n = root.length + 1 ∧ candidate[root.length]? = some slash) ∧
      n ≤ candidate.length ∧ stripRoot root candidate = candidate.drop n := by
  have hle := h.length_le
  rw [stripRoot, if_pos ⟨hslash, h⟩]
  simp only [List.head?_drop]
  split
  · rename_i hnext
    refine ⟨root.length + 1, Or.inr ⟨rfl, hnext⟩, ?_, List.tail_drop⟩
    exact (List.getElem?_eq_some_iff.1 hnext).1
  · rename_i hnext
    exact ⟨root.length, Or.inl ⟨rfl, hnext⟩, hle, rfl⟩

/-- Two texts that a third one starts with leave the same of it only if they are equal. -/
theorem stripRoot_inj {s s' r : RelativePath}
    (hslash : slash ∈ componentsToPath r.components)
    (hs : componentsToPath s.components <+: componentsToPath r.components)
    (hs' : componentsToPath s'.components <+: componentsToPath r.components)
    (h : stripRoot (componentsToPath s.components) (componentsToPath r.components) =
      stripRoot (componentsToPath s'.components) (componentsToPath r.components)) : s = s' := by
  obtain ⟨n, hn, hnle, hdrop⟩ := stripRoot_eq_drop hslash hs
  obtain ⟨n', hn', hnle', hdrop'⟩ := stripRoot_eq_drop hslash hs'
  have hlen := congrArg List.length (hdrop.symm.trans (h.trans hdrop'))
  simp only [List.length_drop] at hlen
  -- a text that is longer by a separator would end with one
  have hends (p q : RelativePath)
      (hq : componentsToPath q.components <+: componentsToPath r.components)
      (hlong : (componentsToPath q.components).length = (componentsToPath p.components).length + 1)
      (hnext : (componentsToPath r.components)[(componentsToPath p.components).length]? =
        some slash) : False := by
    obtain ⟨b, hb, hne⟩ := getLast?_componentsToPath q
    rw [List.getLast?_eq_getElem?, hlong, Nat.add_sub_cancel] at hb
    obtain ⟨hlt, hbyte⟩ := List.getElem?_eq_some_iff.1 hb
    obtain ⟨_, hslash'⟩ := List.getElem?_eq_some_iff.1 hnext
    exact hne (hbyte.symm.trans ((List.IsPrefix.getElem hq hlt).trans hslash'))
  have heq : (componentsToPath s.components).length = (componentsToPath s'.components).length := by
    rcases hn with ⟨rfl, -⟩ | ⟨rfl, hnext⟩ <;> rcases hn' with ⟨rfl, -⟩ | ⟨rfl, hnext'⟩
    · omega
    · exact (hends s' s hs (by omega) hnext').elim
    · exact (hends s s' hs' (by omega) hnext).elim
    · omega
  exact componentsToPath_injective
    ((List.prefix_of_prefix_length_le hs hs' heq.le).eq_of_length heq)

/-- What the library matches for a path in a directory. -/
def matchedText (scope : Option RelativePath) (r : RelativePath) : Bytes :=
  stripRoot (relativeToPath scope) (componentsToPath r.components)

theorem matchedText_of_not_startsWith {scope : Option RelativePath} {r : RelativePath}
    (h : ¬ StartsWith scope r) : matchedText scope r = componentsToPath r.components := by
  unfold matchedText stripRoot
  cases scope with
  | none =>
    -- the root has no text, and no path starts with a separator
    obtain ⟨b, hb, hne⟩ := head?_componentsToPath r
    have hroot : relativeToPath none = [] := rfl
    simp only [hroot, List.length_nil, List.drop_zero, hb, Option.some.injEq, if_neg hne, ite_self]
  | some s =>
    rw [if_neg]
    rintro ⟨-, hs⟩
    exact h ⟨s, rfl, hs⟩

theorem matchedText_of_one {scope : Option RelativePath} {r : RelativePath}
    (h : r.components.length = 1) : matchedText scope r = componentsToPath r.components := by
  have hslash := mt slash_mem_iff.1 (not_not.2 h)
  rw [matchedText, stripRoot, if_neg fun hs => hslash hs.1]

theorem matchedText_ne {scope : Option RelativePath} {r : RelativePath}
    (hone : r.components.length ≠ 1) (h : StartsWith scope r) :
    matchedText scope r ≠ componentsToPath r.components := by
  obtain ⟨s, rfl, hs⟩ := h
  obtain ⟨n, hn, -, hdrop⟩ := stripRoot_eq_drop (slash_mem_iff.2 hone) hs
  have hpos : 0 < (componentsToPath s.components).length := by
    obtain ⟨b, hb, -⟩ := head?_componentsToPath s
    rw [List.length_pos_iff]
    rintro hnil
    rw [hnil] at hb
    cases hb
  intro heq
  have hlen := congrArg List.length (hdrop.symm.trans heq)
  have hle := hs.length_le
  rw [List.length_drop] at hlen
  omega

/-- The library matches the same text in two directories exactly where nothing is taken off in
either, or they are one directory. -/
theorem matchedText_eq_iff {scope scope' : Option RelativePath} {r : RelativePath} :
    matchedText scope r = matchedText scope' r ↔
      scope = scope' ∨ r.components.length = 1 ∨ (¬ StartsWith scope r ∧ ¬ StartsWith scope' r) := by
  constructor
  · intro h
    by_cases hone : r.components.length = 1
    · exact Or.inr (Or.inl hone)
    by_cases hs : StartsWith scope r
    · by_cases hs' : StartsWith scope' r
      · obtain ⟨s, rfl, hpre⟩ := hs
        obtain ⟨s', rfl, hpre'⟩ := hs'
        exact Or.inl (congrArg some (stripRoot_inj (slash_mem_iff.2 hone) hpre hpre' h))
      · rw [matchedText_of_not_startsWith hs'] at h
        exact absurd h (matchedText_ne hone hs)
    · by_cases hs' : StartsWith scope' r
      · rw [matchedText_of_not_startsWith hs] at h
        exact absurd h.symm (matchedText_ne hone hs')
      · exact Or.inr (Or.inr ⟨hs, hs'⟩)
  · rintro (rfl | hone | ⟨hs, hs'⟩)
    · rfl
    · rw [matchedText_of_one hone, matchedText_of_one hone]
    · rw [matchedText_of_not_startsWith hs, matchedText_of_not_startsWith hs']

/-! ### What is decided -/

theorem scopedPath_joinScope (scope : Option RelativePath) (r : RelativePath) :
    scopedPath (joinScope scope r) scope = some (componentsToPath r.components) := by
  obtain ⟨c, cs, hr⟩ := List.exists_cons_of_ne_nil r.ne_nil
  cases scope with
  | none => simp [scopedPath, joinScope, scopeComponents, hr]
  | some s => simp [scopedPath, joinScope, scopeComponents, hr]

/-- The decision about a path in a directory with one ignore file. -/
theorem decision_joinScope {crate : IgnoreCrate} {verdict : Bytes → Bytes → Bool → Match}
    (hcrate : StripsRoot crate verdict) {scope : Option RelativePath} {r : RelativePath}
    (hr : Unprotected (joinScope scope r)) {contents : Bytes} {policy : IgnorePolicy crate}
    (hpolicy : IgnorePolicy.empty.addIgnoreContents scope contents = .ok policy)
    (kind : EntryKind) :
    policy.decision (joinScope scope r) kind =
      if verdict contents (matchedText scope r) (kind = .directory) = .ignore then .ignored
      else .managed := by
  obtain ⟨matcher, hbuild, hok⟩ := bind_eq_ok_iff.1 hpolicy
  cases hok
  have hmatch := hcrate scope contents matcher hbuild (componentsToPath r.components)
    (kind = .directory)
  have hfalse : isProtected (joinScope scope r) = false := isProtected_eq_false_iff.2 hr
  simp only [IgnorePolicy.decision, IgnorePolicy.decisionFor, hfalse, Bool.false_eq_true, if_false,
    IgnorePolicy.empty, List.nil_append, List.foldl_cons, List.foldl_nil, IgnorePolicy.override,
    scopedPath_joinScope, hmatch]
  unfold matchedText
  cases verdict contents (stripRoot (relativeToPath scope) (componentsToPath r.components))
    (kind = .directory) <;> rfl

/-- A library that takes off the root and matches the rest by a function of the lines. -/
def strippingCrate (verdict : List String → Bytes → Bool → Match) : IgnoreCrate where
  GitignoreBuilder := Bytes × List String
  Gitignore := Bytes × List String
  new root := (root, [])
  addLine builder _ line := .ok (builder.1, builder.2 ++ [line])
  build builder := .ok builder
  matchedPathOrAnyParents matcher candidate isDir :=
    verdict matcher.2 (stripRoot matcher.1 candidate) isDir

theorem addLines_strippingCrate (verdict : List String → Bytes → Bool → Match)
    (source : Option Bytes) (root : Bytes) (before after : List String) :
    addLines (strippingCrate verdict) source (root, before) after = .ok (root, before ++ after) := by
  induction after generalizing before with
  | nil => rw [List.append_nil]; rfl
  | cons line after ih =>
    have h := ih (before ++ [line])
    rw [List.append_assoc] at h
    exact h

/-- The rules of a file, as the lines of its text. -/
def ruleLines (contents : Bytes) : List String :=
  ((String.fromUTF8? ⟨contents.toArray⟩).map lines).getD []

theorem buildMatcher_strippingCrate {verdict : List String → Bytes → Bool → Match}
    {scope : Option RelativePath} {contents : Bytes} {text : String}
    (htext : String.fromUTF8? ⟨contents.toArray⟩ = some text) :
    buildMatcher (strippingCrate verdict) scope contents =
      .ok (relativeToPath scope, lines text) := by
  unfold buildMatcher
  rw [htext]
  simp only [bind, Except.bind]
  rw [show (strippingCrate verdict).new (relativeToPath scope) = (relativeToPath scope, []) from rfl,
    addLines_strippingCrate]
  rfl

theorem stripsRoot_strippingCrate (verdict : List String → Bytes → Bool → Match) :
    StripsRoot (strippingCrate verdict) fun contents => verdict (ruleLines contents) := by
  intro scope contents matcher hbuild candidate isDir
  cases htext : String.fromUTF8? ⟨contents.toArray⟩ with
  | none =>
    unfold buildMatcher at hbuild
    rw [htext] at hbuild
    cases hbuild
  | some text =>
    rw [buildMatcher_strippingCrate htext] at hbuild
    cases hbuild
    simp only [strippingCrate, ruleLines, htext, Option.map_some, Option.getD_some]

/-- The rules of a nested ignore file mean the same in two directories, for a path in them, exactly
where the library takes neither directory off the path once more. -/
theorem scope_independent_iff (scope scope' : Option RelativePath) (r : RelativePath)
    (h : Unprotected (joinScope scope r)) (h' : Unprotected (joinScope scope' r)) :
    DecideAlike scope scope' r ↔
      scope = scope' ∨ r.components.length = 1 ∨ (¬ StartsWith scope r ∧ ¬ StartsWith scope' r) := by
  rw [← matchedText_eq_iff]
  constructor
  · intro halike
    -- rules that ignore the text that is matched in the first directory, and no other
    let verdict : List String → Bytes → Bool → Match := fun _ candidate _ =>
      if candidate = matchedText scope r then .ignore else .none
    have hempty : String.fromUTF8? ⟨([] : Bytes).toArray⟩ = some "" := by decide
    have hpolicy (scope : Option RelativePath) :
        (IgnorePolicy.empty : IgnorePolicy (strippingCrate verdict)).addIgnoreContents scope [] =
          .ok ⟨[⟨scope, (relativeToPath scope, lines "")⟩]⟩ := by
      unfold IgnorePolicy.addIgnoreContents
      rw [buildMatcher_strippingCrate hempty]
      rfl
    have heq := halike _ _ (stripsRoot_strippingCrate verdict) [] .regularFile _ _ (hpolicy scope)
      (hpolicy scope')
    rw [decision_joinScope (stripsRoot_strippingCrate verdict) h (hpolicy scope),
      decision_joinScope (stripsRoot_strippingCrate verdict) h' (hpolicy scope')] at heq
    by_contra hne
    simp only [verdict, if_neg (Ne.symm hne), if_true] at heq
    cases heq
  · intro htext crate verdict hcrate contents kind policy policy' hpolicy hpolicy'
    rw [decision_joinScope hcrate h hpolicy, decision_joinScope hcrate h' hpolicy', htext]

/-- Rules that start with a separator and have no wildcard: they are for the paths of that name, and
what is below them, in the directory itself. -/
def anchoredVerdict (rules : List String) (candidate : Bytes) (_isDir : Bool) : Match :=
  if ∃ rule ∈ rules, ascii rule = slash :: candidate ∨
      ascii rule ++ [slash] <+: slash :: candidate then .ignore
  else .none

/-- The name `src`. -/
def srcPath : RelativePath := ⟨[ascii "src"], by simp, by decide⟩

/-- The name `lib`. -/
def libPath : RelativePath := ⟨[ascii "lib"], by simp, by decide⟩

/-- The path `src/out`. -/
def srcOutPath : RelativePath := ⟨[ascii "src", ascii "out"], by simp, by decide⟩

theorem scope_independent_one_name :
    (Unprotected (joinScope (some srcPath) libPath) ∧
        Unprotected (joinScope none libPath)) ∧
      DecideAlike (some srcPath) none libPath := by
  have h : Unprotected (joinScope (some srcPath) libPath) := by decide
  have h' : Unprotected (joinScope none libPath) := by decide
  exact ⟨⟨h, h'⟩, (scope_independent_iff (some srcPath) none libPath h h').2 (Or.inr (Or.inl rfl))⟩

/-- The rule `/out` of an ignore file in `src` ignores `src/src/out`; in `lib` it does not ignore
`lib/src/out`. -/
theorem scopes_decide_differently :
    ∃ (policy policy' : IgnorePolicy (strippingCrate anchoredVerdict)),
      IgnorePolicy.empty.addIgnoreContents (some srcPath) (ascii "/out") = .ok policy ∧
      IgnorePolicy.empty.addIgnoreContents (some libPath) (ascii "/out") = .ok policy' ∧
      policy.decision (joinScope (some srcPath) srcOutPath) .directory = .ignored ∧
      policy'.decision (joinScope (some libPath) srcOutPath) .directory = .managed ∧
      ¬ DecideAlike (some srcPath) (some libPath) srcOutPath := by
  have htext : String.fromUTF8? ⟨(ascii "/out").toArray⟩ = some "/out" := by decide
  have hrules : ruleLines (ascii "/out") = ["/out"] := by decide +kernel
  have hpolicy (scope : Option RelativePath) :
      (IgnorePolicy.empty : IgnorePolicy (strippingCrate anchoredVerdict)).addIgnoreContents scope
        (ascii "/out") = .ok ⟨[⟨scope, (relativeToPath scope, lines "/out")⟩]⟩ := by
    unfold IgnorePolicy.addIgnoreContents
    rw [buildMatcher_strippingCrate htext]
    rfl
  have hcrate := stripsRoot_strippingCrate anchoredVerdict
  have hsrc : (⟨[⟨some srcPath, (relativeToPath (some srcPath), lines "/out")⟩]⟩ :
      IgnorePolicy (strippingCrate anchoredVerdict)).decision
        (joinScope (some srcPath) srcOutPath) .directory = .ignored := by
    rw [decision_joinScope hcrate (by decide) (hpolicy (some srcPath)), hrules]
    exact if_pos (by decide)
  have hlib : (⟨[⟨some libPath, (relativeToPath (some libPath), lines "/out")⟩]⟩ :
      IgnorePolicy (strippingCrate anchoredVerdict)).decision
        (joinScope (some libPath) srcOutPath) .directory = .managed := by
    rw [decision_joinScope hcrate (by decide) (hpolicy (some libPath)), hrules]
    exact if_neg (by decide)
  refine ⟨_, _, hpolicy _, hpolicy _, hsrc, hlib, fun halike => ?_⟩
  have heq := halike _ _ hcrate _ .directory _ _ (hpolicy (some srcPath)) (hpolicy (some libPath))
  rw [hsrc, hlib] at heq
  cases heq

end QuicSync
