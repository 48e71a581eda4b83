import Mathlib.Tactic.Abel
import QuicSync.Process.Tasks
import QuicSync.Sync.Requesting
import QuicSync.Sync.Transfer

/-!
# Requesting files

The `requesting` task of the destination takes operations from the planner.  It retains the ones
that need no content at once, and opens a stream for each file upsert and receives the file in a job
of its own.  At most `capacity` jobs run at a time: with that many, the task waits for one of them
before it opens the next stream.  When the planner has ended, it waits for the jobs that are left.

`Requester` is the task with its jobs, and `Requester.step` is what they do at an event.  Jobs share
the file system and their calls interleave: a job creates its temporary file, writes to it in
pieces and returns it, or fails at any point.  `Requester.Sound` is what holds in every run.

A job goes on after the task that started it has failed: its worker cannot be cancelled.  What it
has staged is then removed.
-/

namespace QuicSync

open Posix

/-- What a job has come to. -/
inductive JobState where
  /-- The file has been requested, and nothing has been staged. -/
  | requested
  /-- The worker has created a temporary file and has written some bytes. -/
  | staging (file : StagedFile) (bytes : Bytes)
  /-- The job has returned a file with these bytes. -/
  | received (file : Transfer.ReceivedFile) (bytes : Bytes)
  | failed (error : Abort QuicSyncError)

/-- A job that receives the file for an operation. -/
structure Job where
  operation : Operation
  state : JobState

/-- What a job can do next. -/
inductive JobEvent where
  | create (random : Vector UInt8 16)
  | write (bytes : Bytes)
  | finish
  | fail (error : Abort QuicSyncError)

namespace Job

/-- The temporary file that a job has, with what has been written to it. -/
def files (job : Job) : List (StagedFile × Bytes) :=
  match job.state with
  | .staging file bytes => [(file, bytes)]
  | .received received bytes => [(received.file, bytes)]
  | .requested | .failed _ => []

/-- One event of a job, in the directory for temporary files. -/
def step (area : Path) (job : Job) (w : World) : JobEvent → Option (Job × World)
  | .create random =>
    match job.state with
    | .requested =>
      match openatExcl w area (StagedFile.name ⟨area, random⟩) 0o600 with
      | .ok (w', _) => some ({ job with state := .staging ⟨area, random⟩ [] }, w')
      | .error e => some ({ job with state := .failed (.error (Staging.systemFailure e)) }, w)
    | _ => none
  | .write bytes =>
    match job.state with
    | .staging file written =>
      some ({ job with state := .staging file (written ++ bytes) },
        Posix.write w (file.directory ++ [file.name]) (written ++ bytes))
    | _ => none
  | .finish =>
    match job.state with
    | .staging file bytes =>
      let received : Transfer.ReceivedFile := ⟨job.operation.id, job.operation.path, file⟩
      some ({ job with state := .received received bytes }, w)
    | _ => none
  | .fail e =>
    match job.state with
    | .requested => some ({ job with state := .failed e }, w)
    -- what has been staged is removed when it is dropped
    | .staging file _ => some ({ job with state := .failed e }, (file.drop.run w).2)
    | _ => none

end Job

/-- Where the task is. -/
inductive RequestTask where
  /-- It has not opened the directory for temporary files. -/
  | opening
  /-- It waits for an operation. -/
  | receiving
  /-- It has a file upsert and as many jobs as it may have: it waits for one of them. -/
  | full (operation : Operation)
  /-- It opens a stream for a file upsert. -/
  | requesting (operation : Operation)
  /-- There are no more operations: it waits for the jobs. -/
  | draining
  | returned (result : Except (Abort QuicSyncError) Unit)
  /-- The session has ended without it. -/
  | dropped

/-- The task and its jobs. -/
structure Requester where
  task : RequestTask
  /-- The directory for temporary files. -/
  area : Path
  pending : PendingCommit
  jobs : List Job
  world : World
  /-- The operations taken from the planner. -/
  taken : List Operation
  /-- The operations for which a stream has been opened. -/
  opened : List Operation
  /-- What `pending` holds, in the order in which it was staged: the operations, and what has been
  received for them. -/
  retained : List (Operation × Option (Transfer.ReceivedFile × Bytes))
  /-- The error with which `PendingCommit.stage` has failed, if it has. -/
  refused : Option QuicSyncError

/-- What the task or one of its jobs can do next. -/
inductive RequestEvent where
  | openArea
  | receive (operation : Operation)
  /-- The planner has gone and there are no more operations. -/
  | ended
  | openStream (result : Except QuicSyncError Unit)
  /-- The task joins a job that has returned. -/
  | join (i : ℕ)
  | finish
  | fail (error : Abort QuicSyncError)
  | job (i : ℕ) (event : JobEvent)
  /-- The file of a job that nobody joins is dropped. -/
  | discard (i : ℕ)

/-- The number of bytes of an address space: no collection in memory has as many elements. -/
def addressSpace : ℕ := 2 ^ 64

namespace Requester

def start (w : World) : Requester :=
  ⟨.opening, [], .default, [], w, [], [], [], none⟩

/-- The task has ended without its result: what it retained is dropped. -/
def abandon (s : Requester) (task : RequestTask) : Requester :=
  { s with
    task := task
    pending := .default
    world := ((dropChanges s.pending.changes).run s.world).2
    retained := [] }

/-- Retain an operation with what has been received for it, and go on. -/
def stage (s : Requester) (operation : Operation) (received : Option (Transfer.ReceivedFile × Bytes))
    (task : RequestTask) : Requester :=
  match (s.pending.stage operation (received.map fun r => r.1.file)).run s.world with
  | (.ok pending, w) =>
    { s with
      task := task
      pending := pending
      world := w
      retained := s.retained ++ [(operation, received)] }
  | (.error e, w) =>
    { s with world := w, refused := some e }.abandon (.returned (.error (.error e)))

/-- Take the result of a job. -/
def joined (s : Requester) (job : Job) (task : RequestTask) : Option Requester :=
  match job.state with
  | .received received bytes => some (s.stage job.operation (some (received, bytes)) task)
  | .failed e => some (s.abandon (.returned (.error e)))
  | .requested | .staging _ _ => none

/-- One event of the task or of a job. -/
def step (root : RootHandle) (capacity : ℕ) (s : Requester) : RequestEvent → Option Requester
  | .openArea =>
    match s.task with
    | .opening =>
      match (stagingDirectory root).run s.world with
      | (.ok area, w) => some { s with task := .receiving, area := area, world := w }
      | (.error e, w) => some { s with task := .returned (.error (.error e)), world := w }
    | _ => none
  | .receive operation =>
    match s.task with
    | .receiving =>
      -- what is retained is in memory
      if s.retained.length + s.jobs.length < addressSpace then
        let s := { s with taken := s.taken ++ [operation] }
        if operation.isUpsertFile then
          if s.jobs.length ≥ capacity then some { s with task := .full operation }
          else some { s with task := .requesting operation }
        else some (s.stage operation none .receiving)
      else none
    | _ => none
  | .ended =>
    match s.task with
    | .receiving => some { s with task := .draining }
    | _ => none
  | .openStream result =>
    match s.task, result with
    | .requesting operation, .ok () =>
      some { s with
        task := .receiving
        jobs := s.jobs ++ [⟨operation, .requested⟩]
        opened := s.opened ++ [operation] }
    | .requesting _, .error e => some (s.abandon (.returned (.error (.error e))))
    | _, _ => none
  | .join i =>
    match s.jobs[i]?, s.task with
    | some job, .full operation =>
      joined { s with jobs := s.jobs.eraseIdx i } job (.requesting operation)
    | some job, .draining => joined { s with jobs := s.jobs.eraseIdx i } job .draining
    | _, _ => none
  | .finish =>
    match s.task, s.jobs with
    | .draining, [] => some { s with task := .returned (.ok ()) }
    | _, _ => none
  | .fail e =>
    match s.task with
    | .returned _ | .dropped => none
    | _ => some (s.abandon (.returned (.error e)))
  | .job i event =>
    match s.jobs[i]? with
    | some job =>
      (job.step s.area s.world event).map fun (job, w) =>
        { s with jobs := s.jobs.set i job, world := w }
    | none => none
  | .discard i =>
    match s.jobs[i]?, s.task with
    | some ⟨_, .received received _⟩, .returned (.error _)
    | some ⟨_, .received received _⟩, .dropped =>
      some { s with jobs := s.jobs.eraseIdx i, world := (received.file.drop.run s.world).2 }
    | _, _ => none

end Requester

/-! ### What happens to temporary files -/

/-- Only the file of a name changes, and with it the modification time of its directory. -/
structure OnlyFile (area : Path) (name : Name) (w w' : World) : Prop where
  clock : w'.clock = w.clock
  directory : SameEntry (w.tree.get area) (w'.tree.get area)
  other : ∀ q, q ≠ area → q ≠ area ++ [name] → w'.tree.get q = w.tree.get q

section

variable {root : RootHandle} {area : Path} {name : Name} {w w' : World}

theorem OnlyFile.refl (area : Path) (name : Name) (w : World) : OnlyFile area name w w :=
  ⟨rfl, SameEntry.refl _, fun _ _ _ => rfl⟩

theorem OnlyFile.onlyStaging (h : OnlyFile (root.path ++ [stagingName]) name w w') :
    OnlyStaging root w w' := by
  refine ⟨h.clock, ?_, fun q hq hout => h.other q ?_ ?_⟩
  · refine SameEntry.of_eq (h.other _ ?_ ?_).symm
    · exact Tree.ne_append_singleton _ _
    · exact root_ne_staging root [name]
  · rintro rfl
    exact hout List.prefix_rfl
  · rintro rfl
    exact hout (List.prefix_append _ _)

/-- Another file stays ready. -/
theorem OnlyFile.ready {file : StagedFile} {bytes : Bytes}
    (h : OnlyFile (root.path ++ [stagingName]) name w w') (hready : Ready root file bytes w)
    (hname : file.name ≠ name) : Ready root file bytes w' := by
  refine hready.of_same (hready.directory ▸ h.directory) ?_
  rw [hready.directory]
  refine h.other _ (Tree.ne_append_singleton _ _).symm ?_
  intro heq
  exact hname (by simpa using heq)

theorem openatExcl_onlyFile {p : Path} {mode : UInt32} (hplain : Plain name)
    (h : openatExcl w area name mode = .ok (w', p)) :
    OnlyFile area name w w' ∧ w.tree.Enterable area ∧ w.tree.WritableAt area ∧
      w.tree.get (area ++ [name]) = none ∧
      ∃ m, w'.tree.get (area ++ [name]) = some ⟨.file [], mode, m⟩ := by
  obtain ⟨henter, hnone, hwrite, hr⟩ := (create_eq_ok_iff hplain).1 h
  obtain ⟨rfl, -⟩ := Prod.mk.inj hr
  have hget := Tree.get_added (i := ⟨.file [], mode, w.now⟩) w.now henter.isDir hnone
  refine ⟨⟨rfl, ?_, fun q hq hq' => ?_⟩, henter, hwrite, hnone, w.now, ?_⟩
  · exact Tree.sameEntry_added henter.isDir hnone (Tree.ne_append_singleton _ _)
  · rw [World.record_tree, hget, if_neg hq', if_neg hq]
  · rw [World.record_tree, hget, if_pos rfl]

theorem write_onlyFile {mode : UInt32} {old : Bytes} {m : ℤ} (content : Bytes)
    (h : w.tree.get (area ++ [name]) = some ⟨.file old, mode, m⟩) :
    OnlyFile area name w (Posix.write w (area ++ [name]) content) ∧
      ∃ m', (Posix.write w (area ++ [name]) content).tree.get (area ++ [name]) =
        some ⟨.file content, mode, m'⟩ := by
  have hcan : w.tree.CanInsert (area ++ [name]) ⟨.file content, mode, w.now⟩ := by
    refine ⟨Or.inr (Tree.isDir_dropLast h (by simp)), Or.inr fun hchild => ?_⟩
    obtain ⟨j, hj, hjdir⟩ := hchild.isDir
    rw [Option.mem_def, h] at hj
    cases hj
    cases hjdir
  have hwrite : Posix.write w (area ++ [name]) content =
      w.record (w.tree.insert (area ++ [name]) ⟨.file content, mode, w.now⟩) := by
    unfold Posix.write
    rw [h]
  rw [hwrite]
  refine ⟨⟨rfl, ?_, fun q _ hq' => ?_⟩, w.now, ?_⟩
  · rw [World.record_tree, Tree.get_insert hcan, if_neg (Tree.ne_append_singleton _ _)]
    exact SameEntry.refl _
  · rw [World.record_tree, Tree.get_insert hcan, if_neg hq']
  · rw [World.record_tree, Tree.get_insert hcan, if_pos rfl]

theorem drop_onlyFile (file : StagedFile) (w : World) :
    OnlyFile file.directory file.name w (file.drop.run w).2 := by
  rw [StagedFile.run_drop]
  cases hunlink : unlinkat w file.directory file.name false with
  | error e => exact OnlyFile.refl _ _ w
  | ok w' =>
    obtain ⟨henter, -, -, hleaf, rfl⟩ := (unlinkat_eq_ok_iff file.plain_name).1 hunlink
    refine ⟨rfl, ?_, fun q hq hq' => ?_⟩
    · exact Tree.sameEntry_removed henter.isDir hleaf (Tree.ne_append_singleton _ _)
    · rw [World.record_tree, Tree.get_removed _ hleaf, if_neg hq', if_neg hq]

/-- Opening the directory for temporary files creates at most it, also when it fails. -/
theorem stagingDirectory_keeps (root : RootHandle) (w : World) :
    OnlyStaging root w ((stagingDirectory root).run w).2 := by
  have hmkdir : Keeps (OnlyStaging root)
      (tolerate .exist (fun w => mkdirat w root.path stagingName 0o700) Staging.systemFailure) := by
    intro w
    unfold KeepsAt
    rw [run_tolerate]
    cases hcall : mkdirat w root.path stagingName 0o700 with
    | error e =>
      simp only
      split
      · exact OnlyStaging.refl root w
      · exact OnlyStaging.refl root w
    | ok w' =>
      obtain ⟨henter, hnone, -, rfl⟩ := (mkdirat_eq_ok_iff (by decide)).1 hcall
      refine ⟨rfl, Tree.sameEntry_added henter.isDir hnone (by simp), fun q hq hout => ?_⟩
      rw [World.record_tree, Tree.get_added _ henter.isDir hnone, if_neg, if_neg hq]
      exact fun heq => hout (heq ▸ List.prefix_rfl)
  have htrans : ∀ w₁ w₂ w₃ : World, OnlyStaging root w₁ w₂ → OnlyStaging root w₂ w₃ →
      OnlyStaging root w₁ w₃ := fun _ _ _ h h' => h.trans h'
  unfold stagingDirectory
  refine Keeps.bind htrans hmkdir (fun _ => Keeps.bind htrans ?_ fun directory =>
    Keeps.bind htrans (Keeps.get (OnlyStaging.refl root)) fun w' => ?_) w
  · intro w
    exact OnlyStaging.refl root w
  · split
    · exact Keeps.pure (OnlyStaging.refl root) _
    · exact Keeps.fail (OnlyStaging.refl root) _

end

/-- Temporary files that are there with the bytes written to them, under names of their own. -/
structure FilesReady (root : RootHandle) (files : List (StagedFile × Bytes)) (w : World) : Prop where
  ready : ∀ f ∈ files, Ready root f.1 f.2 w
  names : (files.map fun f => f.1.name).Nodup

namespace FilesReady

variable {root : RootHandle} {files files' : List (StagedFile × Bytes)} {file : StagedFile}
  {bytes : Bytes} {w w' : World}

theorem nil (root : RootHandle) (w : World) : FilesReady root [] w :=
  ⟨(fun _ hf => nomatch hf), List.nodup_nil⟩

theorem perm (h : FilesReady root files w) (hperm : files.Perm files') : FilesReady root files' w :=
  ⟨fun f hf => h.ready f (hperm.mem_iff.2 hf), (hperm.map _).nodup_iff.1 h.names⟩

theorem right (h : FilesReady root (files ++ files') w) : FilesReady root files' w := by
  refine ⟨fun f hf => h.ready f (List.mem_append_right _ hf), ?_⟩
  have hnames := h.names
  rw [List.map_append] at hnames
  exact (List.nodup_append.1 hnames).2.1

theorem head_ne (h : FilesReady root ((file, bytes) :: files) w) :
    ∀ f ∈ files, f.1.name ≠ file.name := by
  intro f hf heq
  exact (List.nodup_cons.1 h.names).1 (List.mem_map.2 ⟨f, hf, heq⟩)

/-- The files other than the one that changes stay ready. -/
theorem tail (h : FilesReady root ((file, bytes) :: files) w)
    (hw : OnlyFile (root.path ++ [stagingName]) file.name w w') : FilesReady root files w' := by
  refine ⟨fun f hf => ?_, (List.nodup_cons.1 h.names).2⟩
  exact hw.ready (h.ready f (List.mem_cons_of_mem _ hf)) (h.head_ne f hf)

theorem create {p : Path} (h : FilesReady root files w)
    (hdirectory : file.directory = root.path ++ [stagingName])
    (hcreate : openatExcl w file.directory file.name 0o600 = .ok (w', p)) :
    FilesReady root ((file, []) :: files) w' := by
  obtain ⟨honly, ⟨i, hi, hidir, hsearch⟩, ⟨j, hj, hwrite⟩, hnone, hentry⟩ :=
    openatExcl_onlyFile file.plain_name hcreate
  -- no file has the new name, which was free
  have hnew : ∀ f ∈ files, f.1.name ≠ file.name := by
    intro f hf heq
    obtain ⟨m, hm⟩ := (h.ready f hf).entry
    rw [(h.ready f hf).directory, heq, ← hdirectory, hnone] at hm
    cases hm
  obtain rfl : i = j := Option.some.inj (hi.symm.trans hj)
  have hdir := honly.directory
  rw [hi] at hdir
  obtain ⟨i', hi', hi'dir, -, hi'search, hi'write⟩ := hdir.permissions hidir
  refine ⟨fun f hf => ?_, ?_⟩
  · obtain rfl | hf := List.mem_cons.1 hf
    · exact ⟨hdirectory, ⟨i', hi', hi'dir, hi'search.2 hsearch⟩, ⟨i', hi', hi'write.2 hwrite⟩,
        hentry⟩
    · exact (hdirectory ▸ honly).ready (h.ready f hf) (hnew f hf)
  · rw [List.map_cons, List.nodup_cons]
    refine ⟨fun hmem => ?_, h.names⟩
    obtain ⟨f, hf, hname⟩ := List.mem_map.1 hmem
    exact hnew f hf hname

theorem write (h : FilesReady root ((file, bytes) :: files) w) (content : Bytes) :
    OnlyFile file.directory file.name w
        (Posix.write w (file.directory ++ [file.name]) content) ∧
      FilesReady root ((file, content) :: files)
        (Posix.write w (file.directory ++ [file.name]) content) := by
  have hready := h.ready _ List.mem_cons_self
  obtain ⟨m, hm⟩ := hready.entry
  obtain ⟨honly, hentry⟩ := write_onlyFile content hm
  generalize Posix.write w (file.directory ++ [file.name]) content = w' at honly hentry ⊢
  refine ⟨honly, ⟨fun f hf => ?_, h.names⟩⟩
  obtain rfl | hf := List.mem_cons.1 hf
  · obtain ⟨i, hi, hidir, hsearch⟩ := hready.enterable
    obtain ⟨j, hj, hwrite⟩ := hready.writableAt
    obtain rfl : i = j := Option.some.inj (hi.symm.trans hj)
    have hdir := honly.directory
    rw [hi] at hdir
    obtain ⟨i', hi', hi'dir, -, hi'search, hi'write⟩ := hdir.permissions hidir
    exact ⟨hready.directory, ⟨i', hi', hi'dir, hi'search.2 hsearch⟩,
      ⟨i', hi', hi'write.2 hwrite⟩, hentry⟩
  · exact (hready.directory ▸ honly).ready (h.ready f (List.mem_cons_of_mem _ hf)) (h.head_ne f hf)

theorem drop (h : FilesReady root ((file, bytes) :: files) w) :
    OnlyStaging root w (file.drop.run w).2 ∧ FilesReady root files (file.drop.run w).2 := by
  have honly := drop_onlyFile file w
  have hdirectory := (h.ready _ List.mem_cons_self).directory
  rw [hdirectory] at honly
  exact ⟨honly.onlyStaging, h.tail honly⟩

/-- Changes that are dropped take their files with them and no others. -/
theorem dropChanges {changes : List Change} {dropped : List (StagedFile × Bytes)}
    (h : FilesReady root (dropped ++ files) w)
    (hchanges : (changes.filterMap (·.2)).Perm (dropped.map (·.1))) :
    OnlyStaging root w ((QuicSync.dropChanges changes).run w).2 ∧
      FilesReady root files ((QuicSync.dropChanges changes).run w).2 := by
  induction changes generalizing dropped w with
  | nil => exact ⟨OnlyStaging.refl root w, h.right⟩
  | cons change changes ih =>
    obtain ⟨operation, _ | file⟩ := change
    · exact ih h hchanges
    · obtain ⟨⟨_, bytes⟩, hf, rfl⟩ := List.mem_map.1 (hchanges.mem_iff.1 List.mem_cons_self)
      obtain ⟨dropped₁, dropped₂, rfl⟩ := List.append_of_mem hf
      -- the file is dropped first, and the others stay ready
      have hfirst : FilesReady root ((_, bytes) :: (dropped₁ ++ dropped₂ ++ files)) w :=
        h.perm ((List.perm_middle).append_right files)
      obtain ⟨honly, hfiles⟩ := hfirst.drop
      rename_i file
      have hdrop : file.drop.run w = (.ok (), (file.drop.run w).2) := by
        rw [StagedFile.run_drop]
        cases unlinkat w file.directory file.name false <;> rfl
      have hrun : (QuicSync.dropChanges ((operation, some file) :: changes)).run w =
          (QuicSync.dropChanges changes).run (file.drop.run w).2 := Fallible.run_bind_ok hdrop
      rw [hrun]
      have hrest : (changes.filterMap (·.2)).Perm ((dropped₁ ++ dropped₂).map (·.1)) := by
        have hmiddle : ((dropped₁ ++ (file, bytes) :: dropped₂).map (·.1)).Perm
            (file :: (dropped₁ ++ dropped₂).map (·.1)) := (List.perm_middle).map _
        exact (hchanges.trans hmiddle).cons_inv
      obtain ⟨honly', hfiles'⟩ := ih hfiles hrest
      exact ⟨honly.trans honly', hfiles'⟩

end FilesReady

/-! ### What the task and its jobs can do -/

namespace RequestTask

/-- The operation that the task is about to open a stream for. -/
def current : RequestTask → List Operation
  | .full operation | .requesting operation => [operation]
  | _ => []

@[simp] theorem current_receiving : receiving.current = [] := rfl

/-- The task runs, or has returned what it retained. -/
def alive : RequestTask → Bool
  | .returned (.error _) | .dropped => false
  | _ => true

/-- The task has opened the directory for temporary files and runs. -/
def opened : RequestTask → Bool
  | .receiving | .full _ | .requesting _ | .draining => true
  | _ => false

end RequestTask

/-- The events at which the task can fail. -/
def RequestEvent.fails : RequestEvent → Bool
  | .fail _ | .openStream _ | .join _ => true
  | _ => false

namespace Requester

/-- Where an event leads: one case for each outcome. -/
inductive Move (root : RootHandle) (capacity : ℕ) (s : Requester) :
    RequestEvent → Requester → Prop
  | areaOpened {area : Path} {w : World} (htask : s.task = .opening)
      (hrun : (stagingDirectory root).run s.world = (.ok area, w)) :
      Move root capacity s .openArea { s with task := .receiving, area := area, world := w }
  | areaFailed {e : QuicSyncError} {w : World} (htask : s.task = .opening)
      (hrun : (stagingDirectory root).run s.world = (.error e, w)) :
      Move root capacity s .openArea
        { s with task := .returned (.error (.error e)), world := w }
  | take {operation : Operation} {task : RequestTask} (htask : s.task = .receiving)
      (hmemory : s.retained.length + s.jobs.length < addressSpace)
      (hupsert : operation.isUpsertFile = true)
      (hnext : task = .full operation ∨
        task = .requesting operation ∧ s.jobs.length < capacity) :
      Move root capacity s (.receive operation)
        { s with taken := s.taken ++ [operation], task := task }
  | takeDirect {operation : Operation} (htask : s.task = .receiving)
      (hmemory : s.retained.length + s.jobs.length < addressSpace)
      (hupsert : operation.isUpsertFile = false) :
      Move root capacity s (.receive operation)
        ({ s with taken := s.taken ++ [operation] }.stage operation none .receiving)
  | ended (htask : s.task = .receiving) : Move root capacity s .ended { s with task := .draining }
  | streamOpened {operation : Operation} (htask : s.task = .requesting operation) :
      Move root capacity s (.openStream (.ok ()))
        { s with
          task := .receiving
          jobs := s.jobs ++ [⟨operation, .requested⟩]
          opened := s.opened ++ [operation] }
  | joined {i : ℕ} {jobs₁ jobs₂ : List Job} {job : Job} {received : Transfer.ReceivedFile}
      {bytes : Bytes} {task : RequestTask} (hjobs : s.jobs = jobs₁ ++ job :: jobs₂)
      (hstate : job.state = .received received bytes)
      (htask : (∃ operation, s.task = .full operation ∧ task = .requesting operation) ∨
        s.task = .draining ∧ task = .draining) :
      Move root capacity s (.join i)
        ({ s with jobs := jobs₁ ++ jobs₂ }.stage job.operation (some (received, bytes)) task)
  | failed {event : RequestEvent} {jobs : List Job} {e : Abort QuicSyncError}
      (hevent : event.fails = true) (hjobs : jobs.Sublist s.jobs)
      (htask : ∀ result, s.task ≠ .returned result) :
      Move root capacity s event
        ({ s with jobs := jobs }.abandon (.returned (.error e)))
  | finished (htask : s.task = .draining) (hjobs : s.jobs = []) :
      Move root capacity s .finish { s with task := .returned (.ok ()) }
  | job {i : ℕ} {event : JobEvent} {jobs₁ jobs₂ : List Job} {job job' : Job} {w : World}
      (hjobs : s.jobs = jobs₁ ++ job :: jobs₂)
      (hstep : job.step s.area s.world event = some (job', w)) :
      Move root capacity s (.job i event) { s with jobs := jobs₁ ++ job' :: jobs₂, world := w }
  | discarded {i : ℕ} {jobs₁ jobs₂ : List Job} {job : Job} {received : Transfer.ReceivedFile}
      {bytes : Bytes} (hjobs : s.jobs = jobs₁ ++ job :: jobs₂)
      (hstate : job.state = .received received bytes) (htask : s.task.alive = false) :
      Move root capacity s (.discard i)
        { s with jobs := jobs₁ ++ jobs₂, world := (received.file.drop.run s.world).2 }

variable {root : RootHandle} {capacity : ℕ} {s s' : Requester}

/-- Joining a job. -/
theorem move_joined {i : ℕ} {jobs₁ jobs₂ : List Job} {job : Job} {task : RequestTask}
    (hjobs : s.jobs = jobs₁ ++ job :: jobs₂)
    (htask : (∃ operation, s.task = .full operation ∧ task = .requesting operation) ∨
      s.task = .draining ∧ task = .draining)
    (h : joined { s with jobs := jobs₁ ++ jobs₂ } job task = some s') :
    Move root capacity s (.join i) s' := by
  unfold joined at h
  split at h
  · rename_i received bytes hstate
    cases h
    exact .joined hjobs hstate htask
  · cases h
    refine .failed rfl ?_ fun result hreturned => ?_
    · rw [hjobs]
      exact (List.Sublist.refl jobs₁).append (List.sublist_cons_self job jobs₂)
    · obtain ⟨operation, hfull, -⟩ | ⟨hdraining, -⟩ := htask
      · rw [hreturned] at hfull
        cases hfull
      · rw [hreturned] at hdraining
        cases hdraining
  · cases h
  · cases h

/-- **Every event leads to one of the outcomes.** -/
theorem step_move {event : RequestEvent} (h : step root capacity s event = some s') :
    Move root capacity s event s' := by
  cases event with
  | openArea =>
    simp only [step] at h
    split at h
    · rename_i htask
      split at h
      · rename_i hrun
        cases h
        exact .areaOpened htask hrun
      · rename_i hrun
        cases h
        exact .areaFailed htask hrun
    · cases h
  | receive operation =>
    simp only [step] at h
    split at h
    · rename_i htask
      split at h
      · rename_i hmemory
        split at h
        · rename_i hupsert
          split at h
          · cases h
            exact .take htask hmemory hupsert (Or.inl rfl)
          · rename_i hroom
            cases h
            exact .take htask hmemory hupsert (Or.inr ⟨rfl, not_le.1 hroom⟩)
        · rename_i hupsert
          cases h
          exact .takeDirect htask hmemory (Bool.eq_false_iff.2 hupsert)
      · cases h
    · cases h
  | ended =>
    simp only [step] at h
    split at h
    · rename_i htask
      cases h
      exact .ended htask
    · cases h
  | openStream result =>
    simp only [step] at h
    split at h
    · rename_i htask
      cases h
      exact .streamOpened htask
    · rename_i htask
      cases h
      refine .failed rfl (List.Sublist.refl _) fun result hreturned => ?_
      rw [htask] at hreturned
      cases hreturned
    · cases h
  | join i =>
    simp only [step] at h
    split at h
    · rename_i job operation hjob htask
      obtain ⟨jobs₁, jobs₂, hjobs, -, herase⟩ := exists_split hjob
      rw [herase] at h
      exact move_joined hjobs (Or.inl ⟨operation, htask, rfl⟩) h
    · rename_i job hjob htask
      obtain ⟨jobs₁, jobs₂, hjobs, -, herase⟩ := exists_split hjob
      rw [herase] at h
      exact move_joined hjobs (Or.inr ⟨htask, rfl⟩) h
    · cases h
  | finish =>
    simp only [step] at h
    split at h
    · rename_i htask hjobs
      cases h
      exact .finished htask hjobs
    · cases h
  | fail e =>
    simp only [step] at h
    split at h
    · cases h
    · cases h
    · rename_i hreturned _
      cases h
      exact .failed rfl (List.Sublist.refl _) hreturned
  | job i event =>
    simp only [step] at h
    split at h
    · rename_i job hjob
      obtain ⟨⟨job', w⟩, hstep, rfl⟩ := Option.map_eq_some_iff.1 h
      obtain ⟨jobs₁, jobs₂, hjobs, hset, -⟩ := exists_split hjob
      rw [hset]
      exact .job hjobs hstep
    · cases h
  | discard i =>
    simp only [step] at h
    split at h
    · rename_i operation received bytes e hjob htask
      cases h
      obtain ⟨jobs₁, jobs₂, hjobs, -, herase⟩ := exists_split hjob
      rw [herase]
      exact .discarded hjobs rfl (by rw [htask]; rfl)
    · rename_i operation received bytes hjob htask
      cases h
      obtain ⟨jobs₁, jobs₂, hjobs, -, herase⟩ := exists_split hjob
      rw [herase]
      exact .discarded hjobs rfl (by rw [htask]; rfl)
    · cases h

/-- A staged operation is followed by what comes next, or by the failure. -/
theorem stage_task (s : Requester) (operation : Operation)
    (received : Option (Transfer.ReceivedFile × Bytes)) (task : RequestTask) :
    (s.stage operation received task).taken = s.taken ∧
      ((s.stage operation received task).task = task ∨
        ∃ e, (s.stage operation received task).task = .returned (.error e)) := by
  unfold stage
  split
  · exact ⟨rfl, Or.inl rfl⟩
  · exact ⟨rfl, Or.inr ⟨_, rfl⟩⟩

/-- The operations taken are those received. -/
theorem Move.taken {event : RequestEvent} (h : Move root capacity s event s') :
    s'.taken = s.taken ++ (match event with
      | .receive operation => [operation]
      | _ => []) := by
  cases h with
  | take => rfl
  | takeDirect => exact (stage_task _ _ _ _).1
  | joined =>
    rw [List.append_nil]
    exact (stage_task _ _ _ _).1
  | failed hevent =>
    split
    · cases hevent
    · exact (List.append_nil _).symm
  | areaOpened => exact (List.append_nil _).symm
  | areaFailed => exact (List.append_nil _).symm
  | ended => exact (List.append_nil _).symm
  | streamOpened => exact (List.append_nil _).symm
  | finished => exact (List.append_nil _).symm
  | job => exact (List.append_nil _).symm
  | discarded => exact (List.append_nil _).symm

/-- A job does not change where the task is. -/
theorem Move.task_eq {event : RequestEvent} (h : Move root capacity s event s')
    (hevent : (∃ i e, event = .job i e) ∨ ∃ i, event = .discard i) : s'.task = s.task := by
  obtain ⟨i, e, rfl⟩ | ⟨i, rfl⟩ := hevent
  · cases h with
    | job => rfl
    | failed hevent => cases hevent
  · cases h with
    | discarded => rfl
    | failed hevent => cases hevent

/-- The task waits for the last jobs, or has returned, only after the operations have ended. -/
theorem Move.drained {event : RequestEvent} (h : Move root capacity s event s')
    (hdrained : s'.task = .draining ∨ s'.task = .returned (.ok ())) :
    event = .ended ∨ (s.task = .draining ∨ s.task = .returned (.ok ())) ∧
      ∀ operation, event ≠ .receive operation := by
  cases h with
  | ended => exact Or.inl rfl
  | finished htask => exact Or.inr ⟨Or.inl htask, fun _ heq => nomatch heq⟩
  | job => exact Or.inr ⟨hdrained, fun _ heq => nomatch heq⟩
  | discarded => exact Or.inr ⟨hdrained, fun _ heq => nomatch heq⟩
  | joined hjobs hstate htask =>
    obtain ⟨operation, -, rfl⟩ | ⟨hdraining, -⟩ := htask
    · exfalso
      obtain htask | ⟨e, htask⟩ := (stage_task _ _ _ _).2 <;> rw [htask] at hdrained <;>
        obtain hdrained | hdrained := hdrained <;> cases hdrained
    · exact Or.inr ⟨Or.inl hdraining, fun _ heq => nomatch heq⟩
  | takeDirect =>
    exfalso
    obtain htask | ⟨e, htask⟩ := (stage_task _ _ _ _).2 <;> rw [htask] at hdrained <;>
      obtain hdrained | hdrained := hdrained <;> cases hdrained
  | take _ _ _ hnext =>
    obtain rfl | ⟨rfl, -⟩ := hnext <;> obtain hdrained | hdrained := hdrained <;> cases hdrained
  | areaOpened => obtain hdrained | hdrained := hdrained <;> cases hdrained
  | areaFailed => obtain hdrained | hdrained := hdrained <;> cases hdrained
  | streamOpened => obtain hdrained | hdrained := hdrained <;> cases hdrained
  | failed => obtain hdrained | hdrained := hdrained <;> cases hdrained

/-- A task that has failed stays so. -/
theorem Move.failed_task {event : RequestEvent} {e : Abort QuicSyncError}
    (h : Move root capacity s event s') (htask : s.task = .returned (.error e)) :
    s'.task = .returned (.error e) := by
  cases h with
  | job => exact htask
  | discarded => exact htask
  | failed _ _ hnot => exact absurd htask (hnot _)
  | areaOpened h => exact absurd (h.symm.trans htask) RequestTask.noConfusion
  | areaFailed h => exact absurd (h.symm.trans htask) RequestTask.noConfusion
  | take h => exact absurd (h.symm.trans htask) RequestTask.noConfusion
  | takeDirect h => exact absurd (h.symm.trans htask) RequestTask.noConfusion
  | ended h => exact absurd (h.symm.trans htask) RequestTask.noConfusion
  | streamOpened h => exact absurd (h.symm.trans htask) RequestTask.noConfusion
  | finished h => exact absurd (h.symm.trans htask) RequestTask.noConfusion
  | joined _ _ h =>
    obtain ⟨operation, h, -⟩ | ⟨h, -⟩ := h
    · exact absurd (h.symm.trans htask) RequestTask.noConfusion
    · exact absurd (h.symm.trans htask) RequestTask.noConfusion

/-- A job has failed. -/
def JobFailed (s : Requester) : Prop := ∃ job ∈ s.jobs, ∃ e, job.state = .failed e

theorem jobFailed_stage (s : Requester) (operation : Operation)
    (received : Option (Transfer.ReceivedFile × Bytes)) (task : RequestTask) :
    (s.stage operation received task).jobs = s.jobs := by
  unfold stage
  split
  · rfl
  · rfl

/-- A job that has failed stays until the task joins it and fails. -/
theorem Move.jobFailed {event : RequestEvent} (h : Move root capacity s event s')
    (hfailed : s.JobFailed) : s'.JobFailed ∨ ∃ e, s'.task = .returned (.error e) := by
  obtain ⟨j, hj, e, hstate⟩ := hfailed
  -- a job that has returned or goes on is another one
  have hother {jobs₁ jobs₂ : List Job} {job : Job} (hjobs : s.jobs = jobs₁ ++ job :: jobs₂)
      (hjob : ∀ e, job.state ≠ .failed e) : j ∈ jobs₁ ∨ j ∈ jobs₂ := by
    rw [hjobs] at hj
    obtain hj | hj := List.mem_append.1 hj
    · exact Or.inl hj
    · obtain rfl | hj := List.mem_cons.1 hj
      · exact absurd hstate (hjob e)
      · exact Or.inr hj
  cases h with
  | failed => exact Or.inr ⟨_, rfl⟩
  | areaOpened => exact Or.inl ⟨j, hj, e, hstate⟩
  | areaFailed => exact Or.inl ⟨j, hj, e, hstate⟩
  | take => exact Or.inl ⟨j, hj, e, hstate⟩
  | takeDirect =>
    refine Or.inl ⟨j, ?_, e, hstate⟩
    rw [jobFailed_stage]
    exact hj
  | ended => exact Or.inl ⟨j, hj, e, hstate⟩
  | streamOpened => exact Or.inl ⟨j, List.mem_append_left _ hj, e, hstate⟩
  | finished => exact Or.inl ⟨j, hj, e, hstate⟩
  | joined hjobs hreceived =>
    refine Or.inl ⟨j, ?_, e, hstate⟩
    rw [jobFailed_stage]
    refine List.mem_append.2 (hother hjobs fun e' heq => ?_)
    rw [hreceived] at heq
    cases heq
  | discarded hjobs hreceived =>
    refine Or.inl ⟨j, List.mem_append.2 (hother hjobs fun e' heq => ?_), e, hstate⟩
    rw [hreceived] at heq
    cases heq
  | @job _ event _ _ job _ _ hjobs hstep =>
    have hmem := hother hjobs fun e' heq => by
      unfold Job.step at hstep
      cases event <;> simp [heq] at hstep
    refine Or.inl ⟨j, List.mem_append.2 ?_, e, hstate⟩
    exact hmem.imp_right (List.mem_cons_of_mem _)

/-! ### What holds in every run -/

/-- The files that have been retained. -/
def retainedFiles (s : Requester) : List (StagedFile × Bytes) :=
  s.retained.flatMap fun r => (r.2.map fun f => (f.1.file, f.2)).toList

/-- The temporary files there are, with what has been written to them. -/
def files (s : Requester) : List (StagedFile × Bytes) :=
  s.retainedFiles ++ s.jobs.flatMap Job.files

/-- The temporary files are there, and nothing else in the tree has changed. -/
structure Stages (root : RootHandle) (w₀ : World) (s : Requester) : Prop where
  onlyStaging : OnlyStaging root w₀ s.world
  area : s.task.opened = true ∨ s.jobs ≠ [] → s.area = root.path ++ [stagingName]
  fresh : s.task = .opening → s.jobs = [] ∧ s.retained = []
  files : FilesReady root s.files s.world

/-- There are at most as many jobs as there may be. -/
structure Slots (capacity : ℕ) (s : Requester) : Prop where
  jobs : s.jobs.length ≤ capacity
  room : ∀ operation, s.task = .requesting operation → s.jobs.length < capacity
  idle : s.task = .returned (.ok ()) → s.jobs = []

/-- Every operation taken is in one place: retained, with a job, or about to get one. -/
structure Accounts (s : Requester) : Prop where
  changes : s.pending.changes.Perm (s.retained.map fun r => (r.1, r.2.map fun f => f.1.file))
  flow : s.task.alive = true →
    (s.retained.map (·.1) ++ s.jobs.map Job.operation ++ s.task.current).Perm s.taken
  ids : (s.taken.map fun o => o.id.get).Nodup
  origin : (∀ operation ∈ s.opened, operation ∈ s.taken) ∧
    (∀ job ∈ s.jobs, job.operation ∈ s.taken) ∧ ∀ r ∈ s.retained, r.1 ∈ s.taken
  upsert : (∀ operation ∈ s.task.current, operation.isUpsertFile = true) ∧
    ∀ job ∈ s.jobs, job.operation.isUpsertFile = true
  /-- A job returns what it was started for. -/
  own : ∀ job ∈ s.jobs, ∀ received bytes, job.state = .received received bytes →
    received.id = job.operation.id ∧ received.path = job.operation.path
  /-- What is retained was received for the operation that it is retained with. -/
  kept : ∀ r ∈ s.retained, r.2.isSome = r.1.isUpsertFile ∧
    ∀ f ∈ r.2, f.1.id = r.1.id ∧ f.1.path = r.1.path
  refused : s.refused = none

/-- What holds in every run. -/
structure Sound (root : RootHandle) (capacity : ℕ) (w₀ : World) (s : Requester) : Prop where
  stages : s.Stages root w₀
  slots : s.Slots capacity
  accounts : s.Accounts

theorem sound_start (root : RootHandle) (capacity : ℕ) (w : World) :
    (start w).Sound root capacity w where
  stages := ⟨OnlyStaging.refl root w, by simp [start, RequestTask.opened], fun _ => ⟨rfl, rfl⟩,
    FilesReady.nil root w⟩
  slots := ⟨Nat.zero_le _, by simp [start], fun _ => rfl⟩
  accounts := by
    refine ⟨.refl _, fun _ => .refl _, List.nodup_nil, ⟨?_, ?_, ?_⟩, ⟨?_, ?_⟩, ?_, ?_, rfl⟩ <;>
      simp [start, RequestTask.current]

variable {w₀ : World}

/-- The files of the jobs, with those of one of them in front. -/
theorem files_perm {jobs₁ jobs₂ : List Job} {job : Job} (hjobs : s.jobs = jobs₁ ++ job :: jobs₂) :
    s.files.Perm (job.files ++ (s.retainedFiles ++ (jobs₁ ++ jobs₂).flatMap Job.files)) := by
  unfold files
  rw [hjobs, List.flatMap_append, List.flatMap_append, List.flatMap_cons,
    ← Multiset.coe_eq_coe]
  simp only [← Multiset.coe_add]
  abel

/-- The changes hold the files that are retained. -/
theorem Accounts.dropped (h : s.Accounts) :
    (s.pending.changes.filterMap (·.2)).Perm (s.retainedFiles.map (·.1)) := by
  have hfiles (l : List (Operation × Option (Transfer.ReceivedFile × Bytes))) :
      ((l.map fun r => (r.1, r.2.map fun f => f.1.file)) : List Change).filterMap (·.2) =
        (l.flatMap fun r => (r.2.map fun f => (f.1.file, f.2)).toList).map (·.1) := by
    induction l with
    | nil => rfl
    | cons r l ih =>
      obtain ⟨operation, _ | f⟩ := r
      · exact ih
      · exact congrArg _ ih
  have hperm := h.changes.filterMap (·.2)
  rwa [hfiles] at hperm

/-- An operation that is new is retained. -/
theorem stage_of_new {operation : Operation} {received : Option (Transfer.ReceivedFile × Bytes)}
    (task : RequestTask) (hkind : received.isSome = operation.isUpsertFile)
    (hnew : ∀ c ∈ s.pending.changes, c.1.id ≠ operation.id) :
    ∃ pending : PendingCommit,
      s.stage operation received task = { s with
        task := task
        pending := pending
        retained := s.retained ++ [(operation, received)] } ∧
      pending.changes.Perm ((operation, received.map fun f => f.1.file) :: s.pending.changes) := by
  have hsome : (received.map fun f => f.1.file).isSome = operation.isUpsertFile := by
    rw [Option.isSome_map, hkind]
  have hrun : ∃ pending : PendingCommit,
      (s.pending.stage operation (received.map fun f => f.1.file)).run s.world =
        (.ok pending, s.world) ∧
      pending.changes.Perm ((operation, received.map fun f => f.1.file) :: s.pending.changes) := by
    unfold PendingCommit.stage
    rw [if_neg (not_not.2 hsome.symm), dif_neg (fun ⟨c, hc, hid⟩ => hnew c hc hid)]
    exact ⟨_, rfl, perm_insertChange _ _⟩
  obtain ⟨pending, hrun, hperm⟩ := hrun
  refine ⟨pending, ?_, hperm⟩
  unfold stage
  rw [hrun]

/-- Retaining one of the operations taken, in a state where everything else is in order. -/
theorem Sound.retain {operation : Operation} {received : Option (Transfer.ReceivedFile × Bytes)}
    {task : RequestTask} (honly : OnlyStaging root w₀ s.world)
    (harea : s.area = root.path ++ [stagingName])
    (hfiles : FilesReady root ((received.map fun f => (f.1.file, f.2)).toList ++ s.files) s.world)
    (htask : task.opened = true) (hjobs : s.jobs.length ≤ capacity)
    (hroom : ∀ operation, task = .requesting operation → s.jobs.length < capacity)
    (hchanges : s.pending.changes.Perm
      (s.retained.map fun r => (r.1, r.2.map fun f => f.1.file)))
    (hflow : (s.retained.map (·.1) ++ operation :: s.jobs.map Job.operation ++ task.current).Perm
      s.taken)
    (hids : (s.taken.map fun o => o.id.get).Nodup)
    (hopened : ∀ operation ∈ s.opened, operation ∈ s.taken)
    (hupsert : (∀ operation ∈ task.current, operation.isUpsertFile = true) ∧
      ∀ job ∈ s.jobs, job.operation.isUpsertFile = true)
    (hown : ∀ job ∈ s.jobs, ∀ received bytes, job.state = .received received bytes →
      received.id = job.operation.id ∧ received.path = job.operation.path)
    (hkept : ∀ r ∈ s.retained, r.2.isSome = r.1.isUpsertFile ∧
      ∀ f ∈ r.2, f.1.id = r.1.id ∧ f.1.path = r.1.path)
    (hrefused : s.refused = none) (hkind : received.isSome = operation.isUpsertFile)
    (hmatch : ∀ f ∈ received, f.1.id = operation.id ∧ f.1.path = operation.path) :
    (s.stage operation received task).Sound root capacity w₀ := by
  -- the identifiers of what is retained are those of other operations taken
  have hnew : ∀ c ∈ s.pending.changes, c.1.id ≠ operation.id := by
    intro c hc heq
    obtain ⟨r, hr, rfl⟩ := List.mem_map.1 (hchanges.mem_iff.1 hc)
    have hnodup := ((hflow.map fun o => o.id.get).nodup_iff).2 hids
    rw [List.map_append, List.map_append] at hnodup
    have hleft := (List.nodup_append.1 hnodup).1
    refine (List.nodup_append.1 hleft).2.2 r.1.id.get ?_ operation.id.get ?_ (congrArg _ heq)
    · exact List.mem_map_of_mem (List.mem_map_of_mem hr)
    · exact List.mem_map_of_mem List.mem_cons_self
  obtain ⟨pending, heq, hperm⟩ := stage_of_new task hkind hnew
  rw [heq]
  have hflow' : ((s.retained ++ [(operation, received)]).map (·.1) ++ s.jobs.map Job.operation ++
      task.current).Perm s.taken := by
    rw [List.map_append, List.map_singleton, List.append_assoc (s.retained.map (·.1))]
    exact hflow
  refine ⟨⟨honly, fun _ => harea, fun heq => ?_, hfiles.perm ?_⟩, ⟨hjobs, hroom, fun heq => ?_⟩,
    ⟨?_, fun _ => hflow', hids, ⟨hopened, fun job hjob => ?_, fun r hr => ?_⟩, hupsert, hown,
      fun r hr => ?_, hrefused⟩⟩
  · change task = _ at heq
    rw [heq] at htask
    cases htask
  · unfold files retainedFiles
    rw [List.flatMap_append, List.flatMap_singleton, ← Multiset.coe_eq_coe]
    simp only [← Multiset.coe_add]
    abel
  · change task = _ at heq
    rw [heq] at htask
    cases htask
  · rw [List.map_append, List.map_singleton]
    exact (hperm.trans (hchanges.cons _)).trans (List.perm_append_singleton _ _).symm
  · exact hflow'.mem_iff.1
      (List.mem_append_left _ (List.mem_append_right _ (List.mem_map_of_mem hjob)))
  · exact hflow'.mem_iff.1
      (List.mem_append_left _ (List.mem_append_left _ (List.mem_map_of_mem hr)))
  · obtain hr | hr := List.mem_append.1 hr
    · exact hkept r hr
    · obtain rfl := List.mem_singleton.1 hr
      exact ⟨hkind, hmatch⟩

/-- A task that ends without its result keeps the tree in order. -/
theorem Sound.abandon {jobs : List Job} {task : RequestTask} (h : s.Sound root capacity w₀)
    (hjobs : jobs.Sublist s.jobs) (htask : task.alive = false) :
    ({ s with jobs := jobs }.abandon task).Sound root capacity w₀ := by
  have hopened : task.opened = false ∧ task.current = [] := by
    cases task with
    | returned result => cases result <;> exact ⟨rfl, rfl⟩
    | dropped => exact ⟨rfl, rfl⟩
    | opening => cases htask
    | receiving => cases htask
    | full operation => cases htask
    | requesting operation => cases htask
    | draining => cases htask
  have hsub : (s.retainedFiles ++ jobs.flatMap Job.files).Sublist s.files :=
    (List.Sublist.refl _).append (hjobs.flatMap _)
  have hfiles : FilesReady root (s.retainedFiles ++ jobs.flatMap Job.files) s.world :=
    ⟨fun f hf => h.stages.files.ready f (hsub.subset hf),
      h.stages.files.names.sublist (hsub.map _)⟩
  obtain ⟨honly, hrest⟩ := hfiles.dropChanges h.accounts.dropped
  refine ⟨⟨h.stages.onlyStaging.trans honly, fun harea => h.stages.area (Or.inr ?_),
      fun hopening => ?_, hrest⟩,
    ⟨hjobs.length_le.trans h.slots.jobs, fun operation heq => ?_, fun heq => ?_⟩,
    ⟨.refl _, fun halive => ?_, h.accounts.ids, ⟨h.accounts.origin.1,
        fun job hjob => h.accounts.origin.2.1 job (hjobs.subset hjob), fun r hr => nomatch hr⟩,
      ⟨?_, fun job hjob => ?_⟩, fun job hjob => ?_, fun r hr => ?_, h.accounts.refused⟩⟩
  · obtain harea | harea := harea
    · exact absurd (hopened.1.symm.trans harea) Bool.false_ne_true
    · intro hnil
      rw [hnil] at hjobs
      exact harea (List.sublist_nil.1 hjobs)
  · change task = _ at hopening
    rw [hopening] at htask
    cases htask
  · change task = _ at heq
    rw [heq] at htask
    cases htask
  · change task = _ at heq
    rw [heq] at htask
    cases htask
  · exact absurd (htask.symm.trans halive) Bool.false_ne_true
  · intro operation hmem
    change operation ∈ task.current at hmem
    rw [hopened.2] at hmem
    cases hmem
  · exact h.accounts.upsert.2 job (hjobs.subset hjob)
  · exact h.accounts.own job (hjobs.subset hjob)
  · cases hr

/-- An event of a job changes its own file only. -/
theorem Sound.job {event : JobEvent} {jobs₁ jobs₂ : List Job} {job job' : Job} {w : World}
    (h : s.Sound root capacity w₀) (hjobs : s.jobs = jobs₁ ++ job :: jobs₂)
    (hstep : job.step s.area s.world event = some (job', w)) :
    { s with jobs := jobs₁ ++ job' :: jobs₂, world := w }.Sound root capacity w₀ := by
  have hmem : job ∈ s.jobs := hjobs ▸ List.mem_append_right _ List.mem_cons_self
  have harea : s.area = root.path ++ [stagingName] :=
    h.stages.area (Or.inr (List.ne_nil_of_mem hmem))
  have hfiles := h.stages.files.perm (files_perm hjobs)
  have hstaged : job'.operation = job.operation ∧ OnlyStaging root s.world w ∧
      FilesReady root
        (job'.files ++ (s.retainedFiles ++ (jobs₁ ++ jobs₂).flatMap Job.files)) w ∧
      ∀ received bytes, job'.state = .received received bytes →
        received.id = job'.operation.id ∧ received.path = job'.operation.path := by
    generalize hrest : s.retainedFiles ++ (jobs₁ ++ jobs₂).flatMap Job.files = rest at hfiles ⊢
    obtain ⟨operation, state⟩ := job
    cases event with
    | create random =>
      cases state with
      | requested =>
        simp only [Job.step] at hstep
        split at hstep
        · rename_i w' p hcreate
          cases hstep
          obtain ⟨honly, -⟩ := openatExcl_onlyFile (StagedFile.plain_name ⟨s.area, random⟩) hcreate
          rw [harea] at honly
          have hcreated : FilesReady root ((⟨s.area, random⟩, []) :: rest) w :=
            hfiles.create harea hcreate
          exact ⟨rfl, honly.onlyStaging, hcreated, fun _ _ hstate => nomatch hstate⟩
        · cases hstep
          exact ⟨rfl, OnlyStaging.refl root _, hfiles, fun _ _ hstate => nomatch hstate⟩
      | staging file bytes => cases hstep
      | received received bytes => cases hstep
      | failed e => cases hstep
    | write bytes =>
      cases state with
      | staging file written =>
        cases hstep
        obtain ⟨honly, hwritten⟩ := FilesReady.write hfiles (written ++ bytes)
        refine ⟨rfl, ?_, hwritten, fun _ _ hstate => nomatch hstate⟩
        have hdirectory := (hfiles.ready _ List.mem_cons_self).directory
        generalize Posix.write s.world (file.directory ++ [file.name]) (written ++ bytes) = w
          at honly
        rw [hdirectory] at honly
        exact honly.onlyStaging
      | requested => cases hstep
      | received received bytes => cases hstep
      | failed e => cases hstep
    | finish =>
      cases state with
      | staging file bytes =>
        cases hstep
        refine ⟨rfl, OnlyStaging.refl root _, hfiles, fun received bytes hstate => ?_⟩
        cases hstate
        exact ⟨rfl, rfl⟩
      | requested => cases hstep
      | received received bytes => cases hstep
      | failed e => cases hstep
    | fail e =>
      cases state with
      | requested =>
        cases hstep
        exact ⟨rfl, OnlyStaging.refl root _, hfiles, fun _ _ hstate => nomatch hstate⟩
      | staging file bytes =>
        cases hstep
        obtain ⟨honly, hrest⟩ := FilesReady.drop hfiles
        exact ⟨rfl, honly, hrest, fun _ _ hstate => nomatch hstate⟩
      | received received bytes => cases hstep
      | failed e => cases hstep
  obtain ⟨hoperation, honly, hready, hown⟩ := hstaged
  have hlength : (jobs₁ ++ job' :: jobs₂).length = s.jobs.length := by
    rw [hjobs, List.length_append, List.length_append, List.length_cons, List.length_cons]
  have hoperations : (jobs₁ ++ job' :: jobs₂).map Job.operation = s.jobs.map Job.operation := by
    rw [hjobs, List.map_append, List.map_append, List.map_cons, List.map_cons, hoperation]
  have hjob {P : Job → Prop} (hs : ∀ job ∈ s.jobs, P job) (hnew : P job') :
      ∀ job ∈ jobs₁ ++ job' :: jobs₂, P job := by
    intro j hj
    obtain hj | hj := List.mem_append.1 hj
    · exact hs j (hjobs ▸ List.mem_append_left _ hj)
    · obtain rfl | hj := List.mem_cons.1 hj
      · exact hnew
      · exact hs j (hjobs ▸ List.mem_append_right _ (List.mem_cons_of_mem _ hj))
  refine ⟨⟨h.stages.onlyStaging.trans honly, fun _ => harea, fun hopening => ?_, hready.perm ?_⟩,
    ⟨hlength ▸ h.slots.jobs, fun operation heq => hlength ▸ h.slots.room operation heq,
      fun heq => absurd (h.slots.idle heq) (List.ne_nil_of_mem hmem)⟩,
    ⟨h.accounts.changes, fun halive => hoperations ▸ h.accounts.flow halive, h.accounts.ids,
      ⟨h.accounts.origin.1, hjob h.accounts.origin.2.1 (hoperation ▸ h.accounts.origin.2.1 job hmem),
        h.accounts.origin.2.2⟩,
      ⟨h.accounts.upsert.1, hjob h.accounts.upsert.2 ?_⟩, hjob h.accounts.own hown,
      h.accounts.kept, h.accounts.refused⟩⟩
  · exact absurd (h.stages.fresh hopening).1 (List.ne_nil_of_mem hmem)
  · exact (files_perm (s := { s with jobs := jobs₁ ++ job' :: jobs₂, world := w }) rfl).symm
  · rw [hoperation]
    exact h.accounts.upsert.2 job hmem

/-- The files that are retained, and those of the jobs, after a job has gone. -/
theorem Sound.without {jobs₁ jobs₂ : List Job} {job : Job} {received : Transfer.ReceivedFile}
    {bytes : Bytes} (h : s.Sound root capacity w₀) (hjobs : s.jobs = jobs₁ ++ job :: jobs₂)
    (hstate : job.state = .received received bytes) :
    FilesReady root ((received.file, bytes) ::
      ({ s with jobs := jobs₁ ++ jobs₂ } : Requester).files) s.world := by
  have hfiles := h.stages.files.perm (files_perm hjobs)
  unfold Job.files at hfiles
  rw [hstate] at hfiles
  exact hfiles

/-- The directory for temporary files is opened, or not. -/
theorem Sound.openArea {result : Except QuicSyncError Path} {w : World} {area : Path}
    {task : RequestTask} (h : s.Sound root capacity w₀) (htask : s.task = .opening)
    (hrun : (stagingDirectory root).run s.world = (result, w))
    (harea : task.opened = true → area = root.path ++ [stagingName]) (hnext : task ≠ .opening)
    (hcurrent : task.current = []) :
    ({ s with task := task, area := area, world := w } : Requester).Sound root capacity w₀ := by
  have hkeeps := stagingDirectory_keeps root s.world
  rw [hrun] at hkeeps
  obtain ⟨hjobs, hretained⟩ := h.stages.fresh htask
  have hflow := h.accounts.flow (by rw [htask]; rfl)
  rw [htask] at hflow
  refine ⟨⟨h.stages.onlyStaging.trans hkeeps, ?_, fun heq => absurd heq hnext, ?_⟩,
    ⟨h.slots.jobs, ?_, fun _ => hjobs⟩, ⟨h.accounts.changes, fun _ => ?_, h.accounts.ids,
      h.accounts.origin, ⟨?_, h.accounts.upsert.2⟩, h.accounts.own, h.accounts.kept,
      h.accounts.refused⟩⟩
  · rintro (hopened | hne)
    · exact harea hopened
    · exact absurd hjobs hne
  · have hnil : ({ s with task := task, area := area, world := w } : Requester).files = [] := by
      simp [files, retainedFiles, hjobs, hretained]
    rw [hnil]
    exact FilesReady.nil root w
  · intro operation heq
    change task = _ at heq
    rw [heq] at hcurrent
    cases hcurrent
  · change (_ ++ task.current).Perm _
    rw [hcurrent]
    exact hflow
  · intro operation hmem
    change operation ∈ task.current at hmem
    rw [hcurrent] at hmem
    cases hmem

/-- A file upsert is taken. -/
theorem Sound.take {operation : Operation} {task : RequestTask} (h : s.Sound root capacity w₀)
    (htask : s.task = .receiving) (hupsert : operation.isUpsertFile = true)
    (hnext : task = .full operation ∨ task = .requesting operation ∧ s.jobs.length < capacity)
    (hids : ((s.taken ++ [operation]).map fun o => o.id.get).Nodup) :
    { s with taken := s.taken ++ [operation], task := task }.Sound root capacity w₀ := by
  have hflow := h.accounts.flow (by rw [htask]; rfl)
  rw [htask] at hflow
  have harea := h.stages.area (Or.inl (by rw [htask]; rfl))
  have hcurrent : task.current = [operation] ∧ task ≠ .opening ∧ task ≠ .returned (.ok ()) := by
    obtain rfl | ⟨rfl, -⟩ := hnext
    · exact ⟨rfl, nofun, nofun⟩
    · exact ⟨rfl, nofun, nofun⟩
  have horigin : (∀ operation' ∈ s.opened, operation' ∈ s.taken ++ [operation]) ∧
      (∀ job ∈ s.jobs, job.operation ∈ s.taken ++ [operation]) ∧
      ∀ r ∈ s.retained, r.1 ∈ s.taken ++ [operation] :=
    ⟨fun o ho => List.mem_append_left _ (h.accounts.origin.1 o ho),
      fun j hj => List.mem_append_left _ (h.accounts.origin.2.1 j hj),
      fun r hr => List.mem_append_left _ (h.accounts.origin.2.2 r hr)⟩
  refine ⟨⟨h.stages.onlyStaging, fun _ => harea, fun heq => absurd heq hcurrent.2.1, h.stages.files⟩,
    ⟨h.slots.jobs, ?_, fun heq => absurd heq hcurrent.2.2⟩, ⟨h.accounts.changes, fun _ => ?_, hids,
      horigin, ⟨?_, h.accounts.upsert.2⟩, h.accounts.own, h.accounts.kept, h.accounts.refused⟩⟩
  · intro operation' heq
    obtain rfl | ⟨rfl, hlt⟩ := hnext
    · cases heq
    · exact hlt
  · change (_ ++ task.current).Perm _
    rw [hcurrent.1]
    rw [RequestTask.current_receiving, List.append_nil] at hflow
    exact hflow.append_right [operation]
  · intro operation' hmem
    change operation' ∈ task.current at hmem
    rw [hcurrent.1] at hmem
    obtain rfl := List.mem_singleton.1 hmem
    exact hupsert

/-- An operation that needs no file is taken and retained. -/
theorem Sound.takeDirect {operation : Operation} (h : s.Sound root capacity w₀)
    (htask : s.task = .receiving) (hupsert : operation.isUpsertFile = false)
    (hids : ((s.taken ++ [operation]).map fun o => o.id.get).Nodup) :
    ({ s with taken := s.taken ++ [operation] }.stage operation none .receiving).Sound
      root capacity w₀ := by
  have hflow := h.accounts.flow (by rw [htask]; rfl)
  rw [htask, RequestTask.current_receiving, List.append_nil] at hflow
  have harea := h.stages.area (Or.inl (by rw [htask]; rfl))
  refine Sound.retain h.stages.onlyStaging harea h.stages.files rfl
    h.slots.jobs (fun _ heq => nomatch heq) h.accounts.changes ?_ hids
    (fun o ho => List.mem_append_left _ (h.accounts.origin.1 o ho))
    ⟨fun _ hmem => (List.not_mem_nil hmem).elim, h.accounts.upsert.2⟩ h.accounts.own h.accounts.kept
    h.accounts.refused hupsert.symm (fun _ hf => nomatch hf)
  rw [RequestTask.current_receiving, List.append_nil]
  exact (List.perm_middle.trans (hflow.cons operation)).trans
    (List.perm_append_singleton operation s.taken).symm

/-- A stream is opened and a job started. -/
theorem Sound.openStream {operation : Operation} (h : s.Sound root capacity w₀)
    (htask : s.task = .requesting operation) :
    ({ s with
      task := .receiving
      jobs := s.jobs ++ [⟨operation, .requested⟩]
      opened := s.opened ++ [operation] } : Requester).Sound root capacity w₀ := by
  have hflow := h.accounts.flow (by rw [htask]; rfl)
  rw [htask] at hflow
  have harea := h.stages.area (Or.inl (by rw [htask]; rfl))
  have htaken : operation ∈ s.taken :=
    hflow.mem_iff.1 (List.mem_append_right _ (List.mem_singleton_self operation))
  have hjob {P : Job → Prop} (hs : ∀ job ∈ s.jobs, P job) (hnew : P ⟨operation, .requested⟩) :
      ∀ job ∈ s.jobs ++ [⟨operation, .requested⟩], P job := by
    intro job hjob
    obtain hjob | hjob := List.mem_append.1 hjob
    · exact hs job hjob
    · obtain rfl := List.mem_singleton.1 hjob
      exact hnew
  refine ⟨⟨h.stages.onlyStaging, fun _ => harea, (fun heq => nomatch heq), ?_⟩,
    ⟨?_, (fun _ heq => nomatch heq), (fun heq => nomatch heq)⟩,
    ⟨h.accounts.changes, fun _ => ?_, h.accounts.ids,
      ⟨fun o ho => ?_, hjob h.accounts.origin.2.1 htaken, h.accounts.origin.2.2⟩,
      ⟨fun _ hmem => (List.not_mem_nil hmem).elim, hjob h.accounts.upsert.2 ?_⟩,
      hjob h.accounts.own (fun _ _ heq => nomatch heq), h.accounts.kept, h.accounts.refused⟩⟩
  · refine h.stages.files.perm ?_
    unfold files
    rw [List.flatMap_append]
    simp [Job.files, retainedFiles]
  · rw [List.length_append]
    exact h.slots.room operation htask
  · change (_ ++ (s.jobs ++ [_]).map Job.operation ++ []).Perm _
    rw [List.map_append, List.append_nil, ← List.append_assoc]
    exact hflow
  · obtain ho | ho := List.mem_append.1 ho
    · exact h.accounts.origin.1 o ho
    · obtain rfl := List.mem_singleton.1 ho
      exact htaken
  · exact h.accounts.upsert.1 operation (by rw [htask]; exact List.mem_singleton_self _)

/-- A job that has returned is joined. -/
theorem Sound.join {jobs₁ jobs₂ : List Job} {job : Job} {received : Transfer.ReceivedFile}
    {bytes : Bytes} {task : RequestTask} (h : s.Sound root capacity w₀)
    (hjobs : s.jobs = jobs₁ ++ job :: jobs₂) (hstate : job.state = .received received bytes)
    (htask : (∃ operation, s.task = .full operation ∧ task = .requesting operation) ∨
      s.task = .draining ∧ task = .draining) :
    ({ s with jobs := jobs₁ ++ jobs₂ }.stage job.operation (some (received, bytes)) task).Sound
      root capacity w₀ := by
  have hmem : job ∈ s.jobs := hjobs ▸ List.mem_append_right _ List.mem_cons_self
  have hlength : s.jobs.length = (jobs₁ ++ jobs₂).length + 1 := by
    rw [hjobs, List.length_append, List.length_append, List.length_cons, Nat.add_assoc]
  have hsub : ∀ j ∈ jobs₁ ++ jobs₂, j ∈ s.jobs := by
    intro j hj
    rw [hjobs]
    exact ((List.Sublist.refl jobs₁).append (List.sublist_cons_self job jobs₂)).subset hj
  have hboth : s.task.alive = true ∧ task.current = s.task.current ∧ task.opened = true := by
    obtain ⟨operation, hfull, rfl⟩ | ⟨hdraining, rfl⟩ := htask
    · rw [hfull]
      exact ⟨rfl, rfl, rfl⟩
    · rw [hdraining]
      exact ⟨rfl, rfl, rfl⟩
  have hle := h.slots.jobs
  have hflow := h.accounts.flow hboth.1
  refine Sound.retain h.stages.onlyStaging
    (h.stages.area (Or.inr (List.ne_nil_of_mem hmem))) (h.without hjobs hstate) hboth.2.2 ?_ ?_
    h.accounts.changes ?_ h.accounts.ids h.accounts.origin.1
    ⟨?_, fun j hj => h.accounts.upsert.2 j (hsub j hj)⟩
    (fun j hj => h.accounts.own j (hsub j hj)) h.accounts.kept h.accounts.refused ?_ ?_
  · change (jobs₁ ++ jobs₂).length ≤ capacity
    omega
  · intro operation _
    change (jobs₁ ++ jobs₂).length < capacity
    omega
  · rw [hboth.2.1]
    refine List.Perm.trans ?_ hflow
    rw [hjobs, List.map_append, List.map_append, List.map_cons]
    exact ((List.Perm.refl _).append List.perm_middle.symm).append_right _
  · rw [hboth.2.1]
    exact h.accounts.upsert.1
  · exact (h.accounts.upsert.2 job hmem).symm
  · intro f hf
    obtain rfl := Option.some.inj hf
    exact h.accounts.own job hmem received bytes hstate

/-- The file of a job that nobody joins is dropped. -/
theorem Sound.discard {jobs₁ jobs₂ : List Job} {job : Job} {received : Transfer.ReceivedFile}
    {bytes : Bytes} (h : s.Sound root capacity w₀) (hjobs : s.jobs = jobs₁ ++ job :: jobs₂)
    (hstate : job.state = .received received bytes) (htask : s.task.alive = false) :
    { s with jobs := jobs₁ ++ jobs₂, world := (received.file.drop.run s.world).2 }.Sound
      root capacity w₀ := by
  have hmem : job ∈ s.jobs := hjobs ▸ List.mem_append_right _ List.mem_cons_self
  have hsub : (jobs₁ ++ jobs₂).Sublist s.jobs := by
    rw [hjobs]
    exact (List.Sublist.refl jobs₁).append (List.sublist_cons_self job jobs₂)
  obtain ⟨honly, hfiles⟩ := (h.without hjobs hstate).drop
  refine ⟨⟨h.stages.onlyStaging.trans honly,
      fun _ => h.stages.area (Or.inr (List.ne_nil_of_mem hmem)), fun hopening => ?_, hfiles⟩,
    ⟨hsub.length_le.trans h.slots.jobs, fun operation heq => ?_,
      fun heq => absurd (h.slots.idle heq) (List.ne_nil_of_mem hmem)⟩,
    ⟨h.accounts.changes, fun halive => absurd (htask.symm.trans halive) Bool.false_ne_true,
      h.accounts.ids, ⟨h.accounts.origin.1, fun j hj => h.accounts.origin.2.1 j (hsub.subset hj),
        h.accounts.origin.2.2⟩, ⟨h.accounts.upsert.1, fun j hj => h.accounts.upsert.2 j (hsub.subset hj)⟩,
      fun j hj => h.accounts.own j (hsub.subset hj), h.accounts.kept, h.accounts.refused⟩⟩
  · exact absurd (h.stages.fresh hopening).1 (List.ne_nil_of_mem hmem)
  · change s.task = _ at heq
    rw [heq] at htask
    cases htask

/-- A task goes on without an operation of its own. -/
theorem Sound.next {task : RequestTask} (h : s.Sound root capacity w₀) (halive : s.task.alive = true)
    (hopened : s.task.opened = true) (hcurrent : s.task.current = []) (hnext : task ≠ .opening)
    (hcurrent' : task.current = []) (hidle : task = .returned (.ok ()) → s.jobs = []) : { s with task := task }.Sound root capacity w₀ := by
  have hflow := h.accounts.flow halive
  refine ⟨⟨h.stages.onlyStaging, fun _ => h.stages.area (Or.inl hopened),
      fun heq => absurd heq hnext, h.stages.files⟩, ⟨h.slots.jobs, ?_, hidle⟩,
    ⟨h.accounts.changes, fun _ => ?_, h.accounts.ids, h.accounts.origin, ⟨?_, h.accounts.upsert.2⟩,
      h.accounts.own, h.accounts.kept, h.accounts.refused⟩⟩
  · intro operation heq
    change task = _ at heq
    rw [heq] at hcurrent'
    cases hcurrent'
  · change (_ ++ task.current).Perm _
    rw [hcurrent', ← hcurrent]
    exact hflow
  · intro operation hmem
    change operation ∈ task.current at hmem
    rw [hcurrent'] at hmem
    cases hmem

/-- **What holds in every run is kept by every event**, if the operations taken have identifiers of
their own. -/
theorem Sound.move {event : RequestEvent} (h : s.Sound root capacity w₀)
    (hmove : Move root capacity s event s')
    (hids : ∀ operation, event = .receive operation →
      ((s.taken ++ [operation]).map fun o => o.id.get).Nodup) : s'.Sound root capacity w₀ := by
  cases hmove with
  | areaOpened htask hrun =>
    exact h.openArea htask hrun (fun _ => stagingDirectory_ok hrun) nofun rfl
  | areaFailed htask hrun => exact h.openArea htask hrun nofun nofun rfl
  | take htask hmemory hupsert hnext => exact h.take htask hupsert hnext (hids _ rfl)
  | takeDirect htask hmemory hupsert => exact h.takeDirect htask hupsert (hids _ rfl)
  | ended htask =>
    exact h.next (by rw [htask]; rfl) (by rw [htask]; rfl) (by rw [htask]; rfl) nofun rfl nofun
  | streamOpened htask => exact h.openStream htask
  | joined hjobs hstate htask => exact h.join hjobs hstate htask
  | failed hevent hjobs htask => exact h.abandon hjobs rfl
  | finished htask hjobs =>
    exact h.next (by rw [htask]; rfl) (by rw [htask]; rfl) (by rw [htask]; rfl) nofun rfl
      fun _ => hjobs
  | job hjobs hstep => exact h.job hjobs hstep
  | discarded hjobs hstate htask => exact h.discard hjobs hstate htask

end Requester

end QuicSync
