import QuicSync.Traversal.DepthFirst
import Mathlib.Data.List.TakeWhile

/-!
# Work that waits for what lies below it

Requests come with keys, whose paths are lists over a linear order.  What a request asks for is
done at once, or it waits at the request's key: on a stack of keys, until a request comes that
does not lie below the key, or until the end.  What is done at once and what waits may depend on
what waits at the key already.

* `Deferral.next`, `Deferral.served` : the stack after a request, and what is done for it;
* `Deferral.chain_next`, `Deferral.prefix_of_mem_next` : the keys on the stack lie above each
  other and above the last request, whatever the requests;
* `Deferral.deferredAt_trace` : **what waits is done once**, and at each key in the order in which
  it was put there, whatever the requests;
* `Deferral.inOrder_trace` : for requests in lexicographic order, what waits at a key is done after
  everything strictly below the key and before everything that comes after the key and is not
  below it.
-/

namespace QuicSync

/-- A key on the stack and what waits there, in order. -/
structure Frame (κ δ : Type) where
  key : κ
  items : List δ

/-- What is done: at once, or after it has waited. -/
inductive Work (ν δ : Type) where
  | now (item : ν)
  | deferred (item : δ)

/-- Something that is done at a key. -/
structure Event (κ ν δ : Type) where
  key : κ
  work : Work ν δ

/-- How requests are shared out between what is done at once and what waits. -/
structure Deferral (α κ ω ν δ : Type) where
  /-- The path of a key. -/
  path : κ → List α
  /-- A key is determined by its path. -/
  injective : Function.Injective path
  /-- The key of a request. -/
  key : ω → κ
  /-- What a request does at once and what waits, given what waits at its key already. -/
  share : List δ → ω → Option ν × Option δ

variable {α κ ω ν δ : Type}

/-- The work has waited. -/
def Event.Deferred (e : Event κ ν δ) : Prop := ∃ item, e.work = .deferred item

/-- What is done when a key leaves the stack. -/
def Frame.events (f : Frame κ δ) : List (Event κ ν δ) :=
  f.items.map fun item => ⟨f.key, .deferred item⟩

section

variable [DecidableEq κ]

/-- The work that has waited at a key. -/
def Event.deferredAt (k : κ) (e : Event κ ν δ) : Option δ :=
  match e.work with
  | .now _ => none
  | .deferred item => if e.key = k then some item else none

/-- What waits at a key. -/
def waitingAt (k : κ) (stack : List (Frame κ δ)) : List δ :=
  stack.flatMap fun f => if f.key = k then f.items else []

/-- What waits at a key if it is the innermost one on the stack. -/
def waitingOnTop (k : κ) : List (Frame κ δ) → List δ
  | f :: _ => if f.key = k then f.items else []
  | [] => []

/-- Let something wait at a key. -/
def push (k : κ) (item : δ) : List (Frame κ δ) → List (Frame κ δ)
  | f :: stack =>
    if f.key = k then ⟨f.key, f.items ++ [item]⟩ :: stack else ⟨k, [item]⟩ :: f :: stack
  | [] => [⟨k, [item]⟩]

end

namespace Deferral

variable [LinearOrder α] [DecidableEq κ] (D : Deferral α κ ω ν δ)

/-- A request leaves a key that it does not lie below. -/
def leaves (r : ω) (f : Frame κ δ) : Bool := ¬ D.path f.key <+: D.path (D.key r)

/-- The keys that a request does not leave. -/
def kept (stack : List (Frame κ δ)) (r : ω) : List (Frame κ δ) := stack.dropWhile (D.leaves r)

/-- What a request does at once and what waits. -/
def shared (stack : List (Frame κ δ)) (r : ω) : Option ν × Option δ :=
  D.share (waitingOnTop (D.key r) (D.kept stack r)) r

/-- What is done for a request: what waits at the keys it leaves, and what it does at once. -/
def served (stack : List (Frame κ δ)) (r : ω) : List (Event κ ν δ) :=
  (stack.takeWhile (D.leaves r)).flatMap Frame.events ++
    ((D.shared stack r).1.map fun item => ⟨D.key r, .now item⟩).toList

/-- The stack after a request. -/
def next (stack : List (Frame κ δ)) (r : ω) : List (Frame κ δ) :=
  (D.shared stack r).2.elim (D.kept stack r) fun item => push (D.key r) item (D.kept stack r)

/-- The stack after requests. -/
def after : List (Frame κ δ) → List ω → List (Frame κ δ) := List.foldl D.next

/-- What is done for requests. -/
def events : List (Frame κ δ) → List ω → List (Event κ ν δ)
  | _, [] => []
  | stack, r :: rs => D.served stack r ++ events (D.next stack r) rs

/-- What the requests let wait, in order. -/
def deferrals : List (Frame κ δ) → List ω → List (κ × δ)
  | _, [] => []
  | stack, r :: rs =>
    ((D.shared stack r).2.map fun item => (D.key r, item)).toList ++
      deferrals (D.next stack r) rs

/-- All that is done for requests and at the end. -/
def trace (stack : List (Frame κ δ)) (rs : List ω) : List (Event κ ν δ) :=
  D.events stack rs ++ (D.after stack rs).flatMap Frame.events

/-- The keys on the stack lie strictly above each other, the innermost first. -/
def Chain (stack : List (Frame κ δ)) : Prop :=
  stack.Pairwise fun inner outer => Above D.path outer.key inner.key

variable {D} {stack : List (Frame κ δ)} {r : ω} {rs : List ω}

/-! ### The stack -/

omit [DecidableEq κ] in
theorem leaves_iff {f : Frame κ δ} :
    D.leaves r f = true ↔ ¬ D.path f.key <+: D.path (D.key r) := decide_eq_true_iff

omit [DecidableEq κ] in
theorem Chain.kept (h : D.Chain stack) (r : ω) : D.Chain (D.kept stack r) :=
  List.Pairwise.sublist (List.dropWhile_sublist _) h

omit [DecidableEq κ] in
/-- A request lies below the keys that it does not leave. -/
theorem prefix_of_mem_kept (h : D.Chain stack) {f : Frame κ δ} (hf : f ∈ D.kept stack r) :
    D.path f.key <+: D.path (D.key r) := by
  have hchain := h.kept r
  have htop := List.head?_dropWhile_not (D.leaves r) stack
  unfold Deferral.kept at hf hchain
  rcases hkept : stack.dropWhile (D.leaves r) with _ | ⟨t, rest⟩
  · rw [hkept] at hf
    cases hf
  · rw [hkept] at hf hchain htop
    have ht : D.path t.key <+: D.path (D.key r) := by simpa [leaves] using htop
    obtain rfl | hf := List.mem_cons.1 hf
    · exact ht
    · exact ((List.pairwise_cons.1 hchain).1 f hf).1.trans ht

theorem push_cons (k : κ) (item : δ) (f : Frame κ δ) (stack : List (Frame κ δ)) :
    push k item (f :: stack) = if f.key = k then ⟨f.key, f.items ++ [item]⟩ :: stack
      else ⟨k, [item]⟩ :: f :: stack := rfl

/-- The keys on the stack after something is put there. -/
theorem mem_push {k : κ} {item : δ} {f : Frame κ δ} (hf : f ∈ push k item stack) :
    f.key = k ∨ f ∈ stack := by
  rcases stack with _ | ⟨t, rest⟩
  · obtain rfl := List.mem_singleton.1 hf
    exact Or.inl rfl
  · rw [push_cons] at hf
    split at hf
    · rename_i ht
      obtain rfl | hf := List.mem_cons.1 hf
      · exact Or.inl ht
      · exact Or.inr (List.mem_cons_of_mem _ hf)
    · obtain rfl | hf := List.mem_cons.1 hf
      · exact Or.inl rfl
      · exact Or.inr hf

omit [LinearOrder α] in
theorem Chain.push (h : D.Chain stack) {k : κ} (hk : ∀ f ∈ stack, D.path f.key <+: D.path k)
    (item : δ) : D.Chain (push k item stack) := by
  rcases stack with _ | ⟨t, rest⟩
  · exact List.pairwise_singleton _ _
  · obtain ⟨htop, hrest⟩ := List.pairwise_cons.1 h
    rw [push_cons]
    split
    · exact List.pairwise_cons.2 ⟨htop, hrest⟩
    · rename_i hne
      have ht : Above D.path t.key k :=
        ⟨hk t List.mem_cons_self, fun heq => hne (D.injective heq)⟩
      refine List.pairwise_cons.2 ⟨fun f hf => ?_, h⟩
      obtain rfl | hf := List.mem_cons.1 hf
      · exact ht
      · exact (htop f hf).trans ht

theorem chain_next (h : D.Chain stack) (r : ω) : D.Chain (D.next stack r) := by
  unfold next
  cases (D.shared stack r).2 with
  | none => exact h.kept r
  | some item => exact (h.kept r).push (fun f hf => prefix_of_mem_kept h hf) item

/-- The keys on the stack after a request. -/
theorem mem_next {f : Frame κ δ} (hf : f ∈ D.next stack r) :
    f.key = D.key r ∨ f ∈ D.kept stack r := by
  unfold next at hf
  cases hitem : (D.shared stack r).2 with
  | none =>
    rw [hitem] at hf
    exact Or.inr hf
  | some item =>
    rw [hitem] at hf
    exact mem_push hf

/-- A request lies below the keys on the stack after it. -/
theorem prefix_of_mem_next (h : D.Chain stack) {f : Frame κ δ} (hf : f ∈ D.next stack r) :
    D.path f.key <+: D.path (D.key r) := by
  obtain hkey | hf := mem_next hf
  · have hpath : D.path f.key = D.path (D.key r) := congrArg D.path hkey
    exact hpath ▸ List.prefix_rfl
  · exact prefix_of_mem_kept h hf

theorem after_concat (stack : List (Frame κ δ)) (rs : List ω) (r : ω) :
    D.after stack (rs ++ [r]) = D.next (D.after stack rs) r := by
  rw [after, List.foldl_append]
  rfl

theorem chain_after (h : D.Chain stack) (rs : List ω) : D.Chain (D.after stack rs) := by
  induction rs generalizing stack with
  | nil => exact h
  | cons r rs ih => exact ih (chain_next h r)

/-! ### What waits is done once -/

theorem waitingAt_append (k : κ) (stack stack' : List (Frame κ δ)) :
    waitingAt k (stack ++ stack') = waitingAt k stack ++ waitingAt k stack' :=
  List.flatMap_append

theorem waitingAt_eq_nil {k : κ} (h : ∀ f ∈ stack, f.key ≠ k) : waitingAt k stack = [] := by
  refine List.flatMap_eq_nil_iff.2 fun f hf => ?_
  rw [if_neg (h f hf)]

theorem waitingAt_cons (k : κ) (f : Frame κ δ) (stack : List (Frame κ δ)) :
    waitingAt k (f :: stack) = (if f.key = k then f.items else []) ++ waitingAt k stack :=
  List.flatMap_cons

omit [LinearOrder α] in
/-- What is put on the stack waits behind what waits at its key already. -/
theorem waitingAt_push (h : D.Chain stack) {k : κ} (hk : ∀ f ∈ stack, D.path f.key <+: D.path k)
    (item : δ) (k' : κ) :
    waitingAt k' (push k item stack) = waitingAt k' stack ++ if k = k' then [item] else [] := by
  rcases stack with _ | ⟨t, rest⟩
  · simp [push, waitingAt]
  · obtain ⟨htop, -⟩ := List.pairwise_cons.1 h
    have ht := hk t List.mem_cons_self
    -- only the innermost key can be the one that something is put at
    have hrest : waitingAt k rest = [] := waitingAt_eq_nil fun f hf hkey => by
      subst hkey
      exact (htop f hf).not_above ⟨ht, (htop f hf).2.symm⟩
    rw [push_cons]
    by_cases hk' : k = k'
    · subst hk'
      split
      · rename_i hkey
        simp [waitingAt_cons, hkey, hrest]
      · rename_i hkey
        simp [waitingAt_cons, hkey, hrest]
    · split
      · rename_i hkey
        simp [waitingAt_cons, hkey, hk']
      · simp [waitingAt_cons, hk']

/-- What waits at a key when a request has been served, and what has been done there. -/
theorem waitingAt_next (h : D.Chain stack) (r : ω) (k : κ) :
    waitingAt k (D.next stack r) = waitingAt k (D.kept stack r) ++
      ((D.shared stack r).2.map fun item => (D.key r, item)).toList.filterMap fun p =>
        if p.1 = k then some p.2 else none := by
  unfold next
  cases (D.shared stack r).2 with
  | none => simp
  | some item =>
    have hpush := waitingAt_push (h.kept r) (fun f hf => prefix_of_mem_kept h hf) item k
    by_cases hk : D.key r = k <;> simpa [hk] using hpush

theorem deferredAt_events (k : κ) (stack : List (Frame κ δ)) :
    (stack.flatMap Frame.events : List (Event κ ν δ)).filterMap (Event.deferredAt k) =
      waitingAt k stack := by
  induction stack with
  | nil => rfl
  | cons f stack ih =>
    rw [List.flatMap_cons, List.filterMap_append, ih, waitingAt_cons]
    congr 1
    unfold Frame.events
    by_cases hk : f.key = k <;> simp [List.filterMap_map, Function.comp_def, Event.deferredAt, hk]

/-- What has waited is done when a request leaves the key; nothing else is. -/
theorem deferredAt_served (stack : List (Frame κ δ)) (r : ω) (k : κ) :
    (D.served stack r).filterMap (Event.deferredAt k) =
      waitingAt k (stack.takeWhile (D.leaves r)) := by
  unfold served
  rw [List.filterMap_append, deferredAt_events]
  cases (D.shared stack r).1 <;> simp [Event.deferredAt]

theorem trace_cons (stack : List (Frame κ δ)) (r : ω) (rs : List ω) :
    D.trace stack (r :: rs) = D.served stack r ++ D.trace (D.next stack r) rs := by
  unfold trace
  rw [events, List.append_assoc]
  rfl

/-- **What waits is done once**, and at each key in the order in which it was put there. -/
theorem deferredAt_trace (h : D.Chain stack) (rs : List ω) (k : κ) :
    (D.trace stack rs).filterMap (Event.deferredAt k) = waitingAt k stack ++
      (D.deferrals stack rs).filterMap fun p => if p.1 = k then some p.2 else none := by
  induction rs generalizing stack with
  | nil =>
    change (List.flatMap Frame.events stack).filterMap _ = _
    rw [deferredAt_events, deferrals, List.filterMap_nil, List.append_nil]
  | cons r rs ih =>
    -- a request moves what waits at the keys it leaves from the stack to the trace
    have hsplit : waitingAt k stack =
        waitingAt k (stack.takeWhile (D.leaves r)) ++ waitingAt k (D.kept stack r) := by
      rw [← waitingAt_append, kept, List.takeWhile_append_dropWhile]
    rw [trace_cons, List.filterMap_append, deferredAt_served, ih (chain_next h r),
      waitingAt_next h, deferrals, List.filterMap_append, hsplit]
    simp only [List.append_assoc]

/-! ### What waits is done in order -/

variable (D) in
/-- An event may come before another: what has waited at a key is not done before something
strictly below the key, and not after something that comes after the key and is not below it. -/
def InOrder (e e' : Event κ ν δ) : Prop :=
  (e.Deferred → ¬ Above D.path e.key e'.key) ∧
    (e'.Deferred → D.path e'.key < D.path e.key → D.path e'.key <+: D.path e.key)

omit [DecidableEq κ] in
/-- What is done when keys leave the stack is done at these keys. -/
theorem key_of_mem_flatMap {e : Event κ ν δ} (h : e ∈ stack.flatMap Frame.events) :
    ∃ f ∈ stack, e.key = f.key := by
  obtain ⟨f, hf, he⟩ := List.mem_flatMap.1 h
  obtain ⟨item, -, rfl⟩ := List.mem_map.1 he
  exact ⟨f, hf, rfl⟩

omit [DecidableEq κ] in
/-- What a request does at once. -/
theorem of_mem_now {o : Option ν} {k : κ} {e : Event κ ν δ}
    (h : e ∈ (o.map fun item => (⟨k, .now item⟩ : Event κ ν δ)).toList) :
    e.key = k ∧ ¬ e.Deferred := by
  simp only [Option.mem_toList, Option.map_eq_some_iff] at h
  obtain ⟨item, -, rfl⟩ := h
  refine ⟨rfl, ?_⟩
  rintro ⟨item', hitem⟩
  cases hitem

/-- What is done is done at a key that is on the stack or that a request comes with. -/
theorem key_of_mem_trace {e : Event κ ν δ} (he : e ∈ D.trace stack rs) :
    (∃ f ∈ stack, e.key = f.key) ∨ ∃ r ∈ rs, e.key = D.key r := by
  induction rs generalizing stack with
  | nil => exact Or.inl (key_of_mem_flatMap he)
  | cons r rs ih =>
    rw [trace_cons, List.mem_append] at he
    obtain he | he := he
    · obtain he | he := List.mem_append.1 he
      · obtain ⟨f, hf, hkey⟩ := key_of_mem_flatMap he
        exact Or.inl ⟨f, (List.takeWhile_sublist _).subset hf, hkey⟩
      · exact Or.inr ⟨r, List.mem_cons_self, (of_mem_now he).1⟩
    · obtain ⟨f, hf, hkey⟩ | ⟨r', hr', hkey⟩ := ih he
      · obtain hr | hf := mem_next hf
        · exact Or.inr ⟨r, List.mem_cons_self, hkey.trans hr⟩
        · exact Or.inl ⟨f, (List.dropWhile_sublist _).subset hf, hkey⟩
      · exact Or.inr ⟨r', List.mem_cons_of_mem _ hr', hkey⟩

section

omit [DecidableEq κ]

variable {e e' : Event κ ν δ}

theorem inOrder_of_key_eq (h : e.key = e'.key) : D.InOrder e e' := by
  refine ⟨fun _ habove => habove.2 (congrArg D.path h), fun _ hlt => ?_⟩
  exact absurd hlt (by simp [h])

theorem inOrder_of_above (h : Above D.path e'.key e.key) : D.InOrder e e' :=
  ⟨fun _ => h.not_above, fun _ _ => h.1⟩

theorem inOrder_of_outside (hle : D.path e.key ≤ D.path e'.key)
    (hout : ¬ D.path e.key <+: D.path e'.key) : D.InOrder e e' :=
  ⟨fun _ habove => hout habove.1, fun _ hlt => absurd hlt (not_lt.2 hle)⟩

theorem inOrder_of_now (hnow : ¬ e.Deferred)
    (h : D.path e'.key <+: D.path e.key ∨ D.path e.key ≤ D.path e'.key) : D.InOrder e e' := by
  refine ⟨fun hdeferred => absurd hdeferred hnow, fun _ hlt => ?_⟩
  obtain hpre | hle := h
  · exact hpre
  · exact absurd hlt (not_lt.2 hle)

/-- Keys leave the stack from the innermost one on. -/
theorem inOrder_flatMap (h : D.Chain stack) :
    (stack.flatMap Frame.events : List (Event κ ν δ)).Pairwise D.InOrder := by
  refine List.pairwise_flatMap.2 ⟨fun f _ => ?_, h.imp fun habove e he e' he' => ?_⟩
  · exact List.pairwise_map.2 (List.pairwise_of_forall fun _ _ => inOrder_of_key_eq rfl)
  · obtain ⟨item, -, rfl⟩ := List.mem_map.1 he
    obtain ⟨item', -, rfl⟩ := List.mem_map.1 he'
    exact inOrder_of_above habove

end

omit [DecidableEq κ] in
/-- What comes with or after a request that leaves a key comes after the key and is not below it. -/
theorem inOrder_of_leaves {e e' : Event κ ν δ} {f : Frame κ δ}
    (hf : f ∈ stack.takeWhile (D.leaves r)) (hle : D.path f.key ≤ D.path (D.key r))
    (hkey : e.key = f.key) (hr : D.path (D.key r) ≤ D.path e'.key) : D.InOrder e e' := by
  have hout := leaves_iff.1 (List.mem_takeWhile_imp hf)
  rw [← hkey] at hle hout
  exact inOrder_of_outside (hle.trans hr) fun hpre => hout (prefix_of_between hpre hle hr)

theorem inOrder_served (h : D.Chain stack)
    (hle : ∀ f ∈ stack, D.path f.key ≤ D.path (D.key r)) :
    (D.served stack r).Pairwise D.InOrder := by
  refine List.pairwise_append.2 ⟨inOrder_flatMap (h.sublist (List.takeWhile_sublist _)), ?_, ?_⟩
  · cases (D.shared stack r).1 with
    | none => exact .nil
    | some item => exact List.pairwise_singleton _ _
  · intro e he e' he'
    obtain ⟨f, hf, hkey⟩ := key_of_mem_flatMap he
    refine inOrder_of_leaves hf (hle f ((List.takeWhile_sublist _).subset hf)) hkey ?_
    rw [(of_mem_now he').1]

/-- What is done for a request comes before what is done later. -/
theorem inOrder_later (h : D.Chain stack)
    (hle : ∀ f ∈ stack, D.path f.key ≤ D.path (D.key r))
    (hr : ∀ r' ∈ rs, D.path (D.key r) ≤ D.path (D.key r')) {e e' : Event κ ν δ}
    (he : e ∈ D.served stack r) (he' : e' ∈ D.trace (D.next stack r) rs) : D.InOrder e e' := by
  have hkeys := key_of_mem_trace he'
  obtain he | he := List.mem_append.1 he
  · obtain ⟨f, hf, hkey⟩ := key_of_mem_flatMap he
    have hleave : D.path (D.key r) ≤ D.path e'.key → D.InOrder e e' :=
      inOrder_of_leaves hf (hle f ((List.takeWhile_sublist _).subset hf)) hkey
    obtain ⟨f', hf', hkey'⟩ | ⟨r', hr', hkey'⟩ := hkeys
    · obtain heq | hkept := mem_next hf'
      · exact hleave (by rw [hkey', heq])
      · have happend : D.Chain (stack.takeWhile (D.leaves r) ++ D.kept stack r) := by
          rw [kept, List.takeWhile_append_dropWhile]
          exact h
        apply inOrder_of_above
        rw [hkey, hkey']
        exact (List.pairwise_append.1 happend).2.2 f hf f' hkept
    · exact hleave (by rw [hkey']; exact hr r' hr')
  · obtain ⟨hkey, hnow⟩ := of_mem_now he
    refine inOrder_of_now hnow ?_
    rw [hkey]
    obtain ⟨f', hf', hkey'⟩ | ⟨r', hr', hkey'⟩ := hkeys
    · exact Or.inl (hkey' ▸ prefix_of_mem_next h hf')
    · exact Or.inr (hkey' ▸ hr r' hr')

/-- **What waits is done in order**: after everything strictly below its key, and before everything
that comes after its key and is not below it. -/
theorem inOrder_trace (h : D.Chain stack)
    (hsorted : rs.Pairwise fun r r' => D.path (D.key r) ≤ D.path (D.key r'))
    (hle : ∀ f ∈ stack, ∀ r ∈ rs, D.path f.key ≤ D.path (D.key r)) :
    (D.trace stack rs).Pairwise D.InOrder := by
  induction rs generalizing stack with
  | nil => exact inOrder_flatMap h
  | cons r rs ih =>
    obtain ⟨hr, hrs⟩ := List.pairwise_cons.1 hsorted
    have hstack : ∀ f ∈ stack, D.path f.key ≤ D.path (D.key r) := fun f hf =>
      hle f hf r List.mem_cons_self
    have hnext : ∀ f ∈ D.next stack r, ∀ r' ∈ rs, D.path f.key ≤ D.path (D.key r') := by
      intro f hf r' hr'
      have hpre : D.path f.key ≤ D.path (D.key r) := not_lt.1 (prefix_of_mem_next h hf).le
      exact hpre.trans (hr r' hr')
    rw [trace_cons]
    exact List.pairwise_append.2 ⟨inOrder_served h hstack, ih (chain_next h r) hrs hnext,
      fun e he e' he' => inOrder_later h hstack hr he he'⟩

section

omit [DecidableEq κ]

variable {es : List (Event κ ν δ)} {i j : ℕ} {e e' : Event κ ν δ}

theorem inOrder_of_lt (h : es.Pairwise D.InOrder) (hi : es[i]? = some e) (hj : es[j]? = some e')
    (hij : i < j) : D.InOrder e e' := by
  obtain ⟨hlti, rfl⟩ := List.getElem?_eq_some_iff.1 hi
  obtain ⟨hltj, rfl⟩ := List.getElem?_eq_some_iff.1 hj
  exact List.pairwise_iff_getElem.1 h i j hlti hltj hij

/-- What has waited at a key comes after everything strictly below the key. -/
theorem lt_of_above (h : es.Pairwise D.InOrder) (hi : es[i]? = some e) (hj : es[j]? = some e')
    (hdeferred : e.Deferred) (habove : Above D.path e.key e'.key) : j < i := by
  obtain hlt | rfl | hgt := lt_trichotomy i j
  · exact absurd habove ((inOrder_of_lt h hi hj hlt).1 hdeferred)
  · cases hi.symm.trans hj
    exact absurd rfl habove.2
  · exact hgt

/-- What has waited at a key comes before everything that comes after the key and is not below
it. -/
theorem lt_of_outside (h : es.Pairwise D.InOrder) (hi : es[i]? = some e) (hj : es[j]? = some e')
    (hdeferred : e.Deferred) (hlt : D.path e.key < D.path e'.key)
    (hout : ¬ D.path e.key <+: D.path e'.key) : i < j := by
  obtain hij | rfl | hgt := lt_trichotomy i j
  · exact hij
  · cases hi.symm.trans hj
    exact absurd hlt (lt_irrefl _)
  · exact absurd ((inOrder_of_lt h hj hi hgt).2 hdeferred hlt) hout

end

end Deferral

end QuicSync
