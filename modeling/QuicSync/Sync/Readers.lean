import QuicSync.Filesystem.Staging
import QuicSync.Stream.Incremental

/-!
# Blocking readers between tasks

File content crosses between a task and a blocking worker in chunks.  `Input` is the worker's
reader: it takes chunks from a channel and tells the end of the content, which has a marker of its
own, from a channel that closes.  `produce` is the worker's loop that cuts what it reads into
chunks.

* `Input.copy_eq`: reading to the end gives the chunks up to the marker put together, whatever the
  buffer of the reader; without the marker it gives an error.
* `Input.reader_reproduces`: what any sequence of reads returns.
* `produce_reads`: what is produced from content is the content, whatever the reads return.
-/

namespace QuicSync

/-- What is sent to a worker. -/
inductive Chunk where
  | data (bytes : Bytes)
  | «end»

/-- A reader of the chunks of a channel. -/
structure Input where
  /-- The chunks to come; then the channel is closed. -/
  rx : List Chunk
  /-- What is left of the current chunk. -/
  current : Bytes
  /-- The marker has been seen. -/
  ended : Bool

namespace Input

def new (rx : List Chunk) : Input := ⟨rx, [], false⟩

/-- The loop of `read` for a buffer of `n` bytes that is not empty. -/
def readLoop (n : ℕ) : List Chunk → Bytes → Bool → Except String (Bytes × Input)
  | [], current, ended =>
    if current ≠ [] ∨ ended then .ok (current.take n, ⟨[], current.drop n, ended⟩)
    else .error "transfer ended without marker"
  | chunk :: rx, current, ended =>
    if current ≠ [] ∨ ended then .ok (current.take n, ⟨chunk :: rx, current.drop n, ended⟩)
    else
      match chunk with
      | .data bytes => readLoop n rx bytes ended
      | .end => readLoop n rx current true

/-- Read into a buffer of `n` bytes; no bytes mean the end. -/
def read (input : Input) (n : ℕ) : Except String (Bytes × Input) :=
  if n = 0 then .ok ([], input) else readLoop n input.rx input.current input.ended

/-- What is left to read. -/
def size (input : Input) : ℕ :=
  input.current.length + (input.rx.map fun
    | .data bytes => bytes.length + 1
    | .end => 1).sum

theorem size_readLoop {n : ℕ} {rx : List Chunk} {current bytes : Bytes} {ended : Bool}
    {input' : Input} (h : readLoop n rx current ended = .ok (bytes, input')) (hne : bytes ≠ []) :
    input'.size < size ⟨rx, current, ended⟩ := by
  have hstop {rx : List Chunk} {current : Bytes} {ended : Bool}
      (h : (.ok (current.take n, ⟨rx, current.drop n, ended⟩) : Except String (Bytes × Input)) =
        .ok (bytes, input')) : input'.size < size ⟨rx, current, ended⟩ := by
    cases h
    have hlen := List.length_pos_iff.2 hne
    rw [List.length_take] at hlen
    simp only [size, List.length_drop]
    omega
  induction rx generalizing current ended with
  | nil =>
    unfold readLoop at h
    split_ifs at h
    exact hstop h
  | cons chunk rx ih =>
    unfold readLoop at h
    split_ifs at h with hnow
    · exact hstop h
    · cases chunk with
      | data b =>
        have hlt := ih h
        simp only [size, List.map_cons, List.sum_cons] at hlt ⊢
        omega
      | «end» =>
        have hlt := ih h
        simp only [size, List.map_cons, List.sum_cons] at hlt ⊢
        omega

/-- Read to the end, through a buffer of `n` bytes. -/
def copy (n : ℕ) (input : Input) : Content :=
  match _h : input.read n with
  | .error message => ⟨[], some message⟩
  | .ok (bytes, input') =>
    if _hne : bytes = [] then ⟨[], none⟩
    else
      let rest := copy n input'
      ⟨bytes ++ rest.bytes, rest.interrupted⟩
termination_by input.size
decreasing_by
  unfold read at _h
  split_ifs at _h
  · cases _h
    exact absurd rfl _hne
  · exact size_readLoop _h _hne

/-- Bytes in front of content. -/
def before (bytes : Bytes) (content : Content) : Content :=
  ⟨bytes ++ content.bytes, content.interrupted⟩

/-- The content in chunks: up to the marker, or interrupted without one. -/
def contentOf : List Chunk → Content
  | [] => ⟨[], some "transfer ended without marker"⟩
  | .end :: _ => ⟨[], none⟩
  | .data bytes :: rx => before bytes (contentOf rx)

theorem copy_error {n : ℕ} {input : Input} {message : String}
    (h : input.read n = .error message) : copy n input = ⟨[], some message⟩ := by
  rw [copy]
  split
  · rename_i h'
    rw [h] at h'
    cases h'
    rfl
  · rename_i h'
    rw [h] at h'
    cases h'

theorem copy_ok {n : ℕ} {input input' : Input} {bytes : Bytes}
    (h : input.read n = .ok (bytes, input')) :
    copy n input = if bytes = [] then ⟨[], none⟩ else before bytes (copy n input') := by
  rw [copy]
  split
  · rename_i h'
    rw [h] at h'
    cases h'
  · rename_i h'
    rw [h] at h'
    cases h'
    rfl

/-- What `read` does at once: return a part of the current chunk, or the end. -/
theorem readLoop_now {n : ℕ} {current : Bytes} {ended : Bool} (h : current ≠ [] ∨ ended = true)
    (rx : List Chunk) :
    readLoop n rx current ended = .ok (current.take n, ⟨rx, current.drop n, ended⟩) := by
  cases rx <;> exact if_pos h

/-- What is left to read. -/
def content (input : Input) : Content :=
  if input.ended then ⟨input.current, none⟩ else before input.current (contentOf input.rx)

@[simp] theorem before_nil (content : Content) : before [] content = content := rfl

theorem before_append (bytes bytes' : Bytes) (content : Content) :
    before (bytes ++ bytes') content = before bytes (before bytes' content) := by
  simp [before]

/-- A part of the current chunk comes first. -/
theorem content_take (rx : List Chunk) (current : Bytes) (ended : Bool) (n : ℕ) :
    content ⟨rx, current, ended⟩ = before (current.take n) (content ⟨rx, current.drop n, ended⟩) := by
  unfold content
  cases ended with
  | true => simp [before]
  | false =>
    simp only [Bool.false_eq_true, if_false]
    rw [← before_append, List.take_append_drop]

/-- **One read**: it returns some of what is left, or no bytes where the marker is all that is left,
or an error where nothing is.  The loop takes a chunk at each turn. -/
theorem readLoop_spec {n : ℕ} (hn : 0 < n) (rx : List Chunk) (current : Bytes) (ended : Bool) :
    (∃ bytes input', readLoop n rx current ended = .ok (bytes, input') ∧ bytes ≠ [] ∧
        bytes.length ≤ n ∧ content ⟨rx, current, ended⟩ = before bytes input'.content) ∨
      (content ⟨rx, current, ended⟩ = ⟨[], none⟩ ∧ ∃ input',
        readLoop n rx current ended = .ok ([], input') ∧ input'.content = ⟨[], none⟩ ∧
          input'.ended = true) ∨
      (content ⟨rx, current, ended⟩ = ⟨[], some "transfer ended without marker"⟩ ∧
        readLoop n rx current ended = .error "transfer ended without marker") := by
  by_cases hcurrent : current = []
  · subst hcurrent
    cases ended with
    | true =>
      refine Or.inr (Or.inl ⟨rfl, ⟨rx, [], true⟩, ?_, rfl, rfl⟩)
      rw [readLoop_now (Or.inr rfl), List.take_nil, List.drop_nil]
    | false =>
      cases rx with
      | nil => exact Or.inr (Or.inr ⟨rfl, rfl⟩)
      | cons chunk rx =>
        cases chunk with
        | data bytes => exact readLoop_spec hn rx bytes false
        | «end» =>
          refine Or.inr (Or.inl ⟨rfl, ⟨rx, [], true⟩, ?_, rfl, rfl⟩)
          have hloop : readLoop n (.end :: rx) [] false = readLoop n rx [] true := rfl
          rw [hloop, readLoop_now (Or.inr rfl), List.take_nil, List.drop_nil]
  · refine Or.inl ⟨current.take n, ⟨rx, current.drop n, ended⟩, readLoop_now (Or.inl hcurrent) rx,
      ?_, List.length_take_le n current, content_take rx current ended n⟩
    rw [Ne, List.take_eq_nil_iff]
    exact not_or.2 ⟨hn.ne', hcurrent⟩
termination_by rx.length

theorem read_of_pos {n : ℕ} (hn : 0 < n) (input : Input) :
    input.read n = readLoop n input.rx input.current input.ended := if_neg hn.ne'

/-- **Reading to the end**: the rest of the chunk, and then the chunks up to the marker. -/
theorem copy_eq {n : ℕ} (hn : 0 < n) (input : Input) : copy n input = input.content := by
  -- induction on what is left to read
  induction hsize : input.size using Nat.strong_induction_on generalizing input with
  | _ k ih =>
    have hread := read_of_pos hn input
    obtain ⟨bytes, input', hloop, hne, -, hcontent⟩ | ⟨hcontent, input', hloop, -⟩ |
      ⟨hcontent, hloop⟩ := readLoop_spec hn input.rx input.current input.ended
    · have hlt := size_readLoop hloop hne
      rw [copy_ok (hread.trans hloop), if_neg hne, ih _ (hsize ▸ hlt) _ rfl]
      exact hcontent.symm
    · rw [copy_ok (hread.trans hloop), if_pos rfl]
      exact hcontent.symm
    · rw [copy_error (hread.trans hloop)]
      exact hcontent.symm

/-- The content of a complete sequence of chunks. -/
theorem contentOf_complete (chunks : List Bytes) :
    contentOf (chunks.map .data ++ [.end]) = ⟨chunks.flatten, none⟩ := by
  induction chunks with
  | nil => rfl
  | cons bytes chunks ih =>
    rw [List.map_cons, List.cons_append, contentOf, ih]
    rfl

/-- The content of a sequence of chunks without the marker. -/
theorem contentOf_interrupted (chunks : List Bytes) :
    contentOf (chunks.map .data) = ⟨chunks.flatten, some "transfer ended without marker"⟩ := by
  induction chunks with
  | nil => rfl
  | cons bytes chunks ih =>
    rw [List.map_cons, contentOf, ih]
    rfl

/-! ### Sequences of reads -/

/-- The bytes that a read returns, or its error. -/
def answer (input : Input) (n : ℕ) : Except String Bytes := (input.read n).map Prod.fst

/-- The reader after a read.  A read that fails has taken every chunk, and the next one finds the
channel closed again. -/
def next (input : Input) (n : ℕ) : Input :=
  match input.read n with
  | .ok (_, input') => input'
  | .error _ => ⟨[], [], false⟩

/-- The reader after reads into buffers of the given sizes. -/
def after (input : Input) (sizes : List ℕ) : Input := sizes.foldl next input

/-- What the reads return. -/
def answers (input : Input) : List ℕ → List (Except String Bytes)
  | [] => []
  | n :: sizes => input.answer n :: (input.next n).answers sizes

/-- The bytes that have been returned, in order. -/
def returned (answers : List (Except String Bytes)) : Bytes :=
  answers.flatMap fun answer => answer.toOption.getD []

/-- The chunks of a sender that ends with the marker, or closes the channel without it. -/
def sequence (chunks : List Bytes) (complete : Bool) : List Chunk :=
  chunks.map .data ++ if complete then [.end] else []

theorem content_new (chunks : List Bytes) (complete : Bool) :
    (new (sequence chunks complete)).content =
      ⟨chunks.flatten, if complete then none else some "transfer ended without marker"⟩ := by
  cases complete with
  | true => exact contentOf_complete chunks
  | false =>
    have hsequence : sequence chunks false = chunks.map .data := List.append_nil _
    rw [hsequence]
    exact contentOf_interrupted chunks

/-- A read takes what it returns from what is left. -/
theorem content_next (input : Input) (n : ℕ) :
    input.content = before (returned [input.answer n]) (input.next n).content := by
  unfold returned answer next
  by_cases hn : n = 0
  · simp [read, hn, Except.map, Except.toOption]
  · obtain ⟨bytes, input', hloop, -, -, hcontent⟩ | ⟨hcontent, input', hloop, hcontent', -⟩ |
      ⟨hcontent, hloop⟩ := readLoop_spec (Nat.pos_of_ne_zero hn) input.rx input.current input.ended
    · rw [read_of_pos (Nat.pos_of_ne_zero hn), hloop]
      simpa [Except.map, Except.toOption] using hcontent
    · rw [read_of_pos (Nat.pos_of_ne_zero hn), hloop]
      simpa [Except.map, Except.toOption, hcontent'] using hcontent
    · rw [read_of_pos (Nat.pos_of_ne_zero hn), hloop]
      exact hcontent

/-- So do several reads. -/
theorem content_after (input : Input) (sizes : List ℕ) :
    input.content = before (returned (input.answers sizes)) (input.after sizes).content := by
  induction sizes generalizing input with
  | nil => rfl
  | cons n sizes ih =>
    have hsplit : returned (input.answers (n :: sizes)) =
        returned [input.answer n] ++ returned ((input.next n).answers sizes) := by
      simp [answers, returned]
    rw [hsplit, before_append, content_next input n, ih (input.next n)]
    rfl

/-- A reader that has seen the marker and has nothing left returns no bytes, whatever the reads. -/
theorem answers_of_ended {input : Input} (hended : input.ended = true)
    (hcurrent : input.current = []) (sizes : List ℕ) :
    ∀ answer ∈ input.answers sizes, answer = .ok [] := by
  induction sizes generalizing input with
  | nil => simp [answers]
  | cons n sizes ih =>
    have hread : input.read n = .ok ([], input) := by
      unfold read
      split
      · rfl
      · obtain ⟨rx, current, ended⟩ := input
        obtain rfl : current = [] := hcurrent
        rw [readLoop_now (Or.inr hended), List.take_nil, List.drop_nil]
    have hnext : input.next n = input := by
      unfold next
      rw [hread]
    rw [answers, hnext]
    intro answer hanswer
    obtain rfl | hanswer := List.mem_cons.1 hanswer
    · unfold Input.answer
      rw [hread]
      rfl
    · exact ih hended hcurrent answer hanswer

/-- What a read into a buffer that is not empty returns, by what is left. -/
theorem answer_cases {n : ℕ} (hn : 0 < n) (input : Input) :
    (∃ bytes, input.answer n = .ok bytes ∧ bytes ≠ [] ∧ bytes.length ≤ n ∧
        input.content.bytes ≠ []) ∨
      (input.answer n = .ok [] ∧ input.content = ⟨[], none⟩ ∧ (input.next n).ended = true ∧
        (input.next n).current = []) ∨
      (input.answer n = .error "transfer ended without marker" ∧
        input.content = ⟨[], some "transfer ended without marker"⟩) := by
  unfold answer next
  rw [read_of_pos hn]
  obtain ⟨bytes, input', hloop, hne, hlen, hcontent⟩ |
    ⟨hcontent, input', hloop, hcontent', hended⟩ | ⟨hcontent, hloop⟩ :=
      readLoop_spec hn input.rx input.current input.ended
  · rw [hloop]
    refine Or.inl ⟨bytes, rfl, hne, hlen, fun hnil => ?_⟩
    have hbytes : input.content.bytes = bytes ++ input'.content.bytes :=
      congrArg Content.bytes hcontent
    exact hne (List.append_eq_nil_iff.1 (hbytes.symm.trans hnil)).1
  · rw [hloop]
    refine Or.inr (Or.inl ⟨rfl, hcontent, hended, ?_⟩)
    rw [content, if_pos hended] at hcontent'
    exact congrArg Content.bytes hcontent'
  · rw [hloop]
    exact Or.inr (Or.inr ⟨rfl, hcontent⟩)

/-- **The reader reproduces the stream.**  After any reads, the bytes returned are a prefix of what
was sent, and the next one, unless its buffer is empty, returns more of it while there is more; then
no bytes from there on if the marker has been received, and an error if there is none. -/
theorem reader_reproduces (chunks : List Bytes) (complete : Bool) (sizes : List ℕ) (n : ℕ) :
    returned ((new (sequence chunks complete)).answers sizes) <+: chunks.flatten ∧
    (0 < n → returned ((new (sequence chunks complete)).answers sizes) ≠ chunks.flatten →
      ∃ bytes, ((new (sequence chunks complete)).after sizes).answer n = .ok bytes ∧ bytes ≠ [] ∧
        bytes.length ≤ n) ∧
    (0 < n → ((new (sequence chunks complete)).after sizes).answer n = .ok [] →
      complete = true ∧ returned ((new (sequence chunks complete)).answers sizes) = chunks.flatten ∧
      (((new (sequence chunks complete)).after sizes).next n).ended = true ∧
      ∀ more, ∀ answer ∈ (((new (sequence chunks complete)).after sizes).next n).answers more,
        answer = .ok []) ∧
    (0 < n → returned ((new (sequence chunks complete)).answers sizes) = chunks.flatten →
      ((new (sequence chunks complete)).after sizes).answer n =
        if complete then .ok [] else .error "transfer ended without marker") := by
  have hall := content_after (new (sequence chunks complete)) sizes
  rw [content_new] at hall
  generalize (new (sequence chunks complete)).after sizes = input at *
  generalize returned ((new (sequence chunks complete)).answers sizes) = got at *
  have hbytes : chunks.flatten = got ++ input.content.bytes := congrArg Content.bytes hall
  have hinterrupted : (if complete then none else some "transfer ended without marker") =
      input.content.interrupted := congrArg Content.interrupted hall
  have hgot : got = chunks.flatten ↔ input.content.bytes = [] := by
    rw [hbytes]
    simp
  refine ⟨⟨_, hbytes.symm⟩, fun hn hne => ?_, fun hn hok => ?_, fun hn heq => ?_⟩
  · obtain ⟨bytes, hanswer, hbytes, hlen, -⟩ | ⟨-, hcontent, -⟩ | ⟨-, hcontent⟩ :=
      answer_cases hn input
    · exact ⟨bytes, hanswer, hbytes, hlen⟩
    · exact absurd (hgot.2 (by rw [hcontent])) hne
    · exact absurd (hgot.2 (by rw [hcontent])) hne
  · obtain ⟨bytes, hanswer, hbytes, -⟩ | ⟨-, hcontent, hended, hcurrent⟩ | ⟨hanswer, -⟩ :=
      answer_cases hn input
    · exact absurd (Except.ok.inj (hanswer.symm.trans hok)) hbytes
    · rw [hcontent] at hinterrupted
      refine ⟨?_, hgot.2 (by rw [hcontent]), hended, answers_of_ended hended hcurrent⟩
      cases complete with
      | true => rfl
      | false => cases hinterrupted
    · rw [hanswer] at hok
      cases hok
  · obtain ⟨-, -, -, -, hcontent⟩ | ⟨hanswer, hcontent, -⟩ | ⟨hanswer, hcontent⟩ :=
      answer_cases hn input
    · exact absurd (hgot.1 heq) hcontent
    · rw [hcontent] at hinterrupted
      cases complete with
      | true => exact hanswer
      | false => cases hinterrupted
    · rw [hcontent] at hinterrupted
      cases complete with
      | true => cases hinterrupted
      | false => exact hanswer

/-- An empty chunk is not the end, and a channel that closes is an error again and again. -/
theorem reader_reproduces_closed : ∀ answer ∈
    [((new (sequence [[], [7]] false)).after [3]).answer 3,
      ((new (sequence [[], [7]] false)).after [3, 3]).answer 3],
    answer = .error "transfer ended without marker" := by
  intro answer hanswer
  obtain rfl | hanswer := List.mem_cons.1 hanswer
  · exact (reader_reproduces [[], [7]] false [3] 3).2.2.2 (by decide) rfl
  · obtain rfl := List.mem_singleton.1 hanswer
    exact (reader_reproduces [[], [7]] false [3, 3] 3).2.2.2 (by decide) rfl

end Input

namespace Transfer

/-- An error of this module. -/
def failure (message : String) : QuicSyncError :=
  QuicSyncError.new .operationFailed none (.text ("delta transfer: " ++ message))

/-- Cut what a reader returns into chunks: its reads, and what interrupts them, if anything does.
The chunks sent and the result. -/
def produce : List Bytes → Option String → List Bytes × Except QuicSyncError Unit
  | [], none => ([], .ok ())
  | [], some message => ([], .error (failure message))
  -- a read of no bytes is the end
  | [] :: _, _ => ([], .ok ())
  | bytes :: reads, interrupted =>
    let (chunks, result) := produce reads interrupted
    (bytes :: chunks, result)

/-- What is read is produced. -/
theorem produce_reads {n : ℕ} {content : Bytes} {reads : List Bytes} (h : Reads n content reads) :
    produce reads none = (reads, .ok ()) := by
  have hne : ∀ bytes ∈ reads, bytes ≠ [] := fun bytes hb => (h.chunk bytes hb).1
  clear h
  induction reads with
  | nil => rfl
  | cons bytes reads ih =>
    cases bytes with
    | nil => exact absurd rfl (hne [] List.mem_cons_self)
    | cons b bytes =>
      rw [produce, ih fun c hc => hne c (List.mem_cons_of_mem _ hc)]
      simp

end Transfer

end QuicSync
