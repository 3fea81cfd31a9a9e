/-
Module: JsonSidecar.File.Source
Purpose: Reading a stream of unknown length into memory through a buffer that grows with what was read.
  A stream delivers its bytes in portions of its own choice; it may report an interruption, after which
  it is asked again, or fail.  Sources are the streams whose answers are laid down beforehand.
Main exports: ByteStream, readGrowing, Delivery, Source, Source.stream
-/
import JsonSidecar.Blob.Error
import JsonSidecar.Bytes

namespace JsonSidecar

/-! ### Streams -/

/-- How a call for bytes ends: with a number of bytes at the front of the buffer, with an interruption, or
    with a failure. -/
inductive ReadAnswer where
  | count (n : Nat)
  | interrupted
  | failed (kind : IoKind)
deriving DecidableEq, Repr

/-- What a call leaves: its answer, all that it has written over the buffer from its front on, and the
    state of the stream.  It may have written more than it counts. -/
structure ReadCall (σ : Type) where
  answer : ReadAnswer
  written : Bytes
  next : σ

/-- Write over a buffer from its front on, and not beyond its end. -/
def overlay : Bytes → Bytes → Bytes
  | [], buffer => buffer
  | _, [] => []
  | b :: written, _ :: buffer => b :: overlay written buffer

theorem overlay_length (written buffer : Bytes) : (overlay written buffer).length = buffer.length := by
  fun_induction overlay written buffer with
  | case1 => rfl
  | case2 => rfl
  | case3 _ _ _ _ ih => exact congrArg Nat.succ ih

theorem overlay_ne_nil (written : Bytes) {buffer : Bytes} (room : buffer ≠ []) : overlay written buffer ≠ [] := by
  rw [← List.length_pos_iff, overlay_length]
  exact List.length_pos_iff.2 room

/-- A stream that is read through a buffer.  A call into a buffer with room delivers some of the bytes that
    are left, as many as it likes and fit, and none only where none are left.  It may fail, and it may first
    be interrupted some number of times. -/
structure ByteStream (σ : Type) where
  read : σ → Bytes → ReadCall σ
  left : σ → Bytes
  patience : σ → Bytes → Nat
  fits {state : σ} {buffer : Bytes} {n : Nat} : buffer ≠ [] → (read state buffer).answer = .count n →
    n ≤ buffer.length
  delivers {state : σ} {buffer : Bytes} {n : Nat} : buffer ≠ [] → (read state buffer).answer = .count n →
    n ≤ (left state).length ∧ (read state buffer).written.take n = (left state).take n ∧
      left (read state buffer).next = (left state).drop n
  ends {state : σ} {buffer : Bytes} : buffer ≠ [] → (read state buffer).answer = .count 0 → left state = []
  keeps {state : σ} {buffer : Bytes} : buffer ≠ [] → (read state buffer).answer = .interrupted →
    left (read state buffer).next = left state
  tires {state : σ} {buffer : Bytes} : buffer ≠ [] → (read state buffer).answer = .interrupted →
    patience (read state buffer).next (overlay (read state buffer).written buffer) < patience state buffer

/-! ### A growing buffer -/

section Reading

variable {σ : Type}

/-- What asking for bytes comes to in the end: a number of bytes at the front of the buffer or a failure, the
    buffer, and the state of the stream. -/
structure Asked (σ : Type) where
  result : Except IoKind Nat
  buffer : Bytes
  next : σ

/-- Ask for bytes until the answer is no interruption. -/
def ask (s : ByteStream σ) (buffer : Bytes) (room : buffer ≠ []) (state : σ) : Asked σ :=
  let call := s.read state buffer
  let filled := overlay call.written buffer
  match _answer : call.answer with
  | .count n => ⟨.ok n, filled, call.next⟩
  | .interrupted => ask s filled (overlay_ne_nil call.written room) call.next
  | .failed kind => ⟨.error kind, filled, call.next⟩
termination_by s.patience state buffer
decreasing_by exact s.tires room _answer

theorem left_ask {s : ByteStream σ} {buffer : Bytes} (room : buffer ≠ []) {state : σ} {n : Nat}
    (answered : (ask s buffer room state).result = .ok n) :
    n ≤ (s.left state).length ∧ s.left (ask s buffer room state).next = (s.left state).drop n := by
  fun_induction ask s buffer room state with
  | case1 buffer room state call filled count answer =>
      cases answered
      exact ⟨(s.delivers room answer).1, (s.delivers room answer).2.2⟩
  | case2 buffer room state call filled answer ih => exact s.keeps room answer ▸ ih answered
  | case3 => cases answered

/-- How much room is offered for the next read when some bytes are loaded. -/
def readIncrement (loaded : Nat) : Nat := 8192 + loaded / 2

/-- A buffer with as much room. -/
def freshBuffer (loaded : Nat) : Bytes := List.replicate (readIncrement loaded) 0

theorem freshBuffer_ne_nil (loaded : Nat) : freshBuffer loaded ≠ [] :=
  List.ne_nil_of_length_pos (by rw [freshBuffer, List.length_replicate, readIncrement]; omega)

/-- Read on behind some loaded bytes.  What a call counts is kept and the rest of the buffer cut off, until a
    call counts nothing. -/
def readOn (s : ByteStream σ) (loaded : Bytes) (state : σ) : Except IoKind Bytes × σ :=
  let asked := ask s (freshBuffer loaded.length) (freshBuffer_ne_nil loaded.length) state
  match _answered : asked.result with
  | .error kind => (.error kind, asked.next)
  | .ok n =>
    let data := (loaded ++ asked.buffer).take (loaded.length + n)
    if n = 0 then (.ok data, asked.next) else readOn s data asked.next
termination_by (s.left state).length
decreasing_by
  obtain ⟨some, rest⟩ := left_ask (freshBuffer_ne_nil loaded.length) _answered
  rw [rest, List.length_drop]
  omega

/-- Read everything that a stream delivers. -/
def readGrowing (s : ByteStream σ) (state : σ) : Except IoKind Bytes × σ := readOn s [] state

end Reading

/-! ### Sources -/

/-- How a source answers one call: with at most `limit + 1` bytes, with an interruption, or with a
    failure. -/
inductive Delivery where
  | portion (limit : Nat)
  | interrupted
  | failed (kind : IoKind)
deriving DecidableEq, Repr

/-- The bytes that a source has still to deliver, and how it will answer the next calls; when nothing is
    laid down it fills the buffer. -/
structure Source where
  content : Bytes
  script : List Delivery
deriving DecidableEq, Repr

namespace Source

/-- Deliver bytes as far as they fit a buffer. -/
def deliver (offered buffer : Bytes) (script : List Delivery) (content : Bytes) : ReadCall Source :=
  let written := List.zipWith (fun b _ => b) offered buffer
  ⟨.count written.length, written, ⟨content.drop written.length, script⟩⟩

/-- One call. -/
def read (source : Source) (buffer : Bytes) : ReadCall Source :=
  match source.script with
  | [] => deliver source.content buffer [] source.content
  | .portion limit :: script => deliver (source.content.take (limit + 1)) buffer script source.content
  | .interrupted :: script => ⟨.interrupted, [], ⟨source.content, script⟩⟩
  | .failed kind :: script => ⟨.failed kind, [], ⟨source.content, script⟩⟩

theorem zipWith_fst (offered buffer : Bytes) :
    List.zipWith (fun b _ => b) offered buffer = offered.take buffer.length := by
  induction offered generalizing buffer with
  | nil => rw [List.zipWith_nil_left, List.take_nil]
  | cons b offered ih =>
      cases buffer with
      | nil => rfl
      | cons _ buffer => exact congrArg (b :: ·) (ih buffer)

/-- The calls that deliver bytes take some from the front of the content. -/
theorem read_count {source : Source} {buffer : Bytes} {n : Nat} (some : buffer ≠ [])
    (answer : (source.read buffer).answer = .count n) :
    ∃ count, 0 < count ∧ count ≤ buffer.length ∧ n = min count source.content.length ∧
      (source.read buffer).written = source.content.take count ∧
      (source.read buffer).next.content = source.content.drop n := by
  have positive : 0 < buffer.length := List.length_pos_iff.2 some
  unfold read at answer ⊢
  split at answer
  · simp only [deliver, zipWith_fst, ReadAnswer.count.injEq] at answer ⊢
    subst answer
    exact ⟨_, positive, Nat.le_refl _, List.length_take .., rfl, rfl⟩
  · rename_i limit _ _
    simp only [deliver, zipWith_fst, List.take_take, ReadAnswer.count.injEq] at answer ⊢
    subst answer
    exact ⟨min buffer.length (limit + 1), by omega, by omega, List.length_take .., rfl, rfl⟩
  · cases answer
  · cases answer

/-- The calls that are interrupted use up an entry of the script. -/
theorem read_interrupted {source : Source} {buffer : Bytes} (answer : (source.read buffer).answer = .interrupted) :
    (source.read buffer).next.content = source.content ∧
      (source.read buffer).next.script.length < source.script.length := by
  unfold read at answer ⊢
  split at answer
  · cases answer
  · cases answer
  · rename_i script laid
    rw [laid]
    exact ⟨rfl, Nat.lt_succ_self _⟩
  · cases answer

/-- The stream of sources. -/
def stream : ByteStream Source where
  read := read
  left := content
  patience source _ := source.script.length
  fits some answer := by
    obtain ⟨count, -, room, rfl, -⟩ := read_count some answer
    omega
  delivers some answer := by
    obtain ⟨count, -, -, rfl, written, rest⟩ := read_count some answer
    refine ⟨Nat.min_le_right .., ?_, rest⟩
    rw [written, List.take_take]
    exact List.take_eq_take_iff.2 (by omega)
  ends some answer := by
    obtain ⟨count, positive, -, none, -⟩ := read_count some answer
    exact List.eq_nil_of_length_eq_zero (by omega)
  keeps _ answer := (read_interrupted answer).1
  tires _ answer := (read_interrupted answer).2

end Source

end JsonSidecar
