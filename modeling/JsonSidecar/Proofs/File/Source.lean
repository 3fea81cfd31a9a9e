/-
Module: JsonSidecar.Proofs.File.Source
Purpose: Reading through a growing buffer collects the whole stream.  The calls that go on are told by the record that is
  kept of them; the loop makes such calls and one more, and keeps just what they count, so neither the zeros that make
  room nor what a call writes beyond its count are left, and nothing is lost where the buffer grows.
Main exports: ByteStream.Passes, ask_passes, readOn_passes, ByteStream.logged, readGrowing_collects
-/
import JsonSidecar.File.Source

namespace JsonSidecar

variable {σ : Type}

/-! ### Buffers -/

/-- What a call counts is what it has written over the front of the buffer. -/
theorem take_overlay {written buffer : Bytes} {n : Nat} (some : n ≤ written.length) (room : n ≤ buffer.length) :
    (overlay written buffer).take n = written.take n := by
  fun_induction overlay written buffer generalizing n with
  | case1 buffer =>
      obtain rfl : n = 0 := Nat.le_zero.1 some
      rfl
  | case2 written =>
      obtain rfl : n = 0 := Nat.le_zero.1 room
      rfl
  | case3 b written _ buffer ih =>
      cases n with
      | zero => rfl
      | succ n => exact congrArg (b :: ·) (ih (Nat.le_of_succ_le_succ some) (Nat.le_of_succ_le_succ room))

/-- What is kept of a buffer behind loaded bytes. -/
theorem take_append_overlay (loaded : Bytes) {written buffer : Bytes} {n : Nat} (some : n ≤ written.length)
    (room : n ≤ buffer.length) :
    (loaded ++ overlay written buffer).take (loaded.length + n) = loaded ++ written.take n := by
  rw [List.take_append, List.take_of_length_le (Nat.le_add_right ..), Nat.add_sub_cancel_left, take_overlay some room]

/-! ### Calls that go on -/

namespace ReadAnswer

/-- Whether the calls go on behind an answer. -/
def goesOn : ReadAnswer → Bool
  | .count n => n ≠ 0
  | .interrupted => true
  | .failed _ => false

end ReadAnswer

/-- A call as it is seen from outside: the room that was offered and the answer. -/
structure ReadRecord where
  room : Nat
  answer : ReadAnswer
deriving DecidableEq, Repr

namespace ByteStream

/-- Calls into buffers with room, one behind the other, that go on all the time, with the bytes that they count. -/
inductive Passes (s : ByteStream σ) : σ → List ReadRecord → Bytes → σ → Prop where
  | refl {state : σ} : Passes s state [] [] state
  | interrupted {state last : σ} {buffer bytes : Bytes} {calls : List ReadRecord} : buffer ≠ [] →
      (s.read state buffer).answer = .interrupted → Passes s (s.read state buffer).next calls bytes last →
      Passes s state (⟨buffer.length, .interrupted⟩ :: calls) bytes last
  | portion {state last : σ} {buffer bytes : Bytes} {n : Nat} {calls : List ReadRecord} : buffer ≠ [] →
      (s.read state buffer).answer = .count (n + 1) → Passes s (s.read state buffer).next calls bytes last →
      Passes s state (⟨buffer.length, .count (n + 1)⟩ :: calls) ((s.read state buffer).written.take (n + 1) ++ bytes)
        last

variable {s : ByteStream σ} {state mid last : σ} {calls calls' : List ReadRecord} {bytes bytes' : Bytes}

namespace Passes

theorem trans (front : s.Passes state calls bytes mid) (behind : s.Passes mid calls' bytes' last) :
    s.Passes state (calls ++ calls') (bytes ++ bytes') last := by
  induction front with
  | refl => exact behind
  | interrupted room answer _ ih => exact .interrupted room answer (ih behind)
  | portion room answer _ ih =>
      rw [List.append_assoc]
      exact .portion room answer (ih behind)

/-- The bytes that are counted are those that the stream had left and has no more. -/
theorem left_eq (passes : s.Passes state calls bytes last) : s.left state = bytes ++ s.left last := by
  induction passes with
  | refl => rfl
  | interrupted room answer _ ih => rw [← ih, s.keeps room answer]
  | portion room answer _ ih =>
      obtain ⟨-, written, rest⟩ := s.delivers room answer
      rw [List.append_assoc, ← ih, written, rest, List.take_append_drop]

/-- What every call keeps holds behind them. -/
theorem keeps {holds : σ → Prop} (passes : s.Passes state calls bytes last)
    (step : ∀ state, holds state → ∀ buffer, holds (s.read state buffer).next) (first : holds state) : holds last := by
  induction passes with
  | refl => exact first
  | interrupted _ _ _ ih | portion _ _ _ ih => exact ih (step _ first _)

theorem goesOn (passes : s.Passes state calls bytes last) : ∀ call ∈ calls, call.answer.goesOn = true := by
  induction passes with
  | refl => exact nofun
  | interrupted _ _ _ ih | portion _ _ _ ih => exact List.forall_mem_cons.2 ⟨rfl, ih⟩

theorem room_pos (passes : s.Passes state calls bytes last) : ∀ call ∈ calls, 0 < call.room := by
  induction passes with
  | refl => exact nofun
  | interrupted room _ _ ih | portion room _ _ ih => exact List.forall_mem_cons.2 ⟨List.length_pos_iff.2 room, ih⟩

/-- Every call that is not interrupted takes a byte. -/
theorem calls_le (passes : s.Passes state calls bytes last) :
    (calls.filter fun call => call.answer ≠ .interrupted).length + (s.left last).length ≤ (s.left state).length := by
  induction passes with
  | refl => exact Nat.le_of_eq (Nat.zero_add _)
  | interrupted room answer _ ih =>
      rw [s.keeps room answer] at ih
      exact ih
  | portion room answer _ ih =>
      obtain ⟨some, -, rest⟩ := s.delivers room answer
      rw [rest, List.length_drop] at ih
      rw [List.filter_cons_of_pos (by simp), List.length_cons]
      omega

end Passes

end ByteStream

/-! ### The loop -/

section Loop

variable {s : ByteStream σ}

theorem ask_eq {buffer : Bytes} (room : buffer ≠ []) (state : σ) :
    ask s buffer room state =
      match (s.read state buffer).answer with
      | .count n => ⟨.ok n, overlay (s.read state buffer).written buffer, (s.read state buffer).next⟩
      | .interrupted => ask s (overlay (s.read state buffer).written buffer) (overlay_ne_nil _ room)
          (s.read state buffer).next
      | .failed kind => ⟨.error kind, overlay (s.read state buffer).written buffer, (s.read state buffer).next⟩ := by
  rw [ask]
  split <;> rename_i answer <;> rw [answer]

theorem readOn_eq {loaded : Bytes} {state : σ} {asked : Asked σ}
    (same : ask s (freshBuffer loaded.length) (freshBuffer_ne_nil loaded.length) state = asked) :
    readOn s loaded state =
      match asked.result with
      | .error kind => (.error kind, asked.next)
      | .ok n =>
        let data := (loaded ++ asked.buffer).take (loaded.length + n)
        if n = 0 then (.ok data, asked.next) else readOn s data asked.next := by
  subst same
  rw [readOn]
  split <;> rename_i answered <;> rw [answered]

/-- Asking passes through interruptions to a call that is answered, and leaves what that call leaves. -/
theorem ask_passes {buffer : Bytes} (room : buffer ≠ []) (state : σ) :
    ∃ calls state' buffer', s.Passes state calls [] state' ∧ buffer' ≠ [] ∧
      (ask s buffer room state).buffer = overlay (s.read state' buffer').written buffer' ∧
      (ask s buffer room state).next = (s.read state' buffer').next ∧
      match (ask s buffer room state).result with
      | .ok n => (s.read state' buffer').answer = .count n
      | .error kind => (s.read state' buffer').answer = .failed kind := by
  fun_induction ask s buffer room state with
  | case1 buffer room state call filled n answer => exact ⟨[], state, buffer, .refl, room, rfl, rfl, answer⟩
  | case2 buffer room state call filled answer ih =>
      obtain ⟨calls, state', buffer', passes, last⟩ := ih
      exact ⟨_, state', buffer', .interrupted room answer passes, last⟩
  | case3 buffer room state call filled kind answer => exact ⟨[], state, buffer, .refl, room, rfl, rfl, answer⟩

/-- A call has written what it counts. -/
theorem count_le_written {state : σ} {buffer : Bytes} {n : Nat} (room : buffer ≠ [])
    (answer : (s.read state buffer).answer = .count n) : n ≤ (s.read state buffer).written.length := by
  obtain ⟨some, written, -⟩ := s.delivers room answer
  have length := congrArg List.length written
  rw [List.length_take, List.length_take] at length
  omega

/-- Reading on makes calls that go on and one more.  It comes to the loaded bytes and those that the calls count, if
    the last call counts nothing, and to the failure of the last call otherwise. -/
theorem readOn_passes (loaded : Bytes) (state : σ) :
    ∃ calls bytes state' buffer', s.Passes state calls bytes state' ∧ buffer' ≠ [] ∧
      (readOn s loaded state).2 = (s.read state' buffer').next ∧
      ((s.read state' buffer').answer = .count 0 ∧ (readOn s loaded state).1 = .ok (loaded ++ bytes) ∨
        ∃ kind, (s.read state' buffer').answer = .failed kind ∧ (readOn s loaded state).1 = .error kind) := by
  fun_induction readOn s loaded state with
  | case1 loaded state asked kind answered =>
      obtain ⟨calls, state', buffer', passes, room, -, next, answer⟩ :=
        ask_passes (freshBuffer_ne_nil loaded.length) state
      rw [show (ask s _ _ state).result = _ from answered] at answer
      exact ⟨calls, [], state', buffer', passes, room, next, .inr ⟨kind, answer, rfl⟩⟩
  | case2 loaded state asked answered data =>
      obtain ⟨calls, state', buffer', passes, room, -, next, answer⟩ :=
        ask_passes (freshBuffer_ne_nil loaded.length) state
      rw [show (ask s _ _ state).result = _ from answered] at answer
      refine ⟨calls, [], state', buffer', passes, room, next, .inl ⟨answer, ?_⟩⟩
      rw [List.append_nil]
      exact congrArg Except.ok List.take_left
  | case3 loaded state asked n answered data more ih =>
      obtain ⟨calls, state', buffer', passes, room, filled, next, answer⟩ :=
        ask_passes (freshBuffer_ne_nil loaded.length) state
      rw [show (ask s _ _ state).result = _ from answered] at answer
      obtain ⟨n, rfl⟩ := Nat.exists_eq_succ_of_ne_zero more
      have kept : data = loaded ++ (s.read state' buffer').written.take (n + 1) := by
        show (loaded ++ asked.buffer).take _ = _
        rw [show asked.buffer = _ from filled]
        exact take_append_overlay loaded (count_le_written room answer) (s.fits room answer)
      obtain ⟨calls', bytes, state'', buffer'', passes', last⟩ := ih
      rw [show asked.next = _ from next] at passes'
      rw [kept, List.append_assoc] at last
      rw [kept]
      exact ⟨_, _, state'', buffer'', passes.trans (.portion room answer passes'), last⟩

end Loop

/-! ### Recorded calls -/

namespace ByteStream

/-- A stream that records its calls and is the same otherwise. -/
def logged (s : ByteStream σ) : ByteStream (σ × List ReadRecord) where
  read state buffer :=
    let call := s.read state.1 buffer
    ⟨call.answer, call.written, (call.next, state.2 ++ [⟨buffer.length, call.answer⟩])⟩
  left state := s.left state.1
  patience state := s.patience state.1
  fits := s.fits
  delivers := s.delivers
  ends := s.ends
  keeps := s.keeps
  tires := s.tires

variable {s : ByteStream σ}

/-- The record grows by the calls that go on and no others. -/
theorem Passes.logged {state last : σ × List ReadRecord} {calls : List ReadRecord} {bytes : Bytes}
    (passes : s.logged.Passes state calls bytes last) : last.2 = state.2 ++ calls := by
  induction passes with
  | refl => exact (List.append_nil _).symm
  | interrupted _ answer _ ih | portion _ answer _ ih =>
      rw [ih, ← answer]
      exact List.append_assoc ..

/-- To record the calls changes nothing else. -/
theorem ask_logged {buffer : Bytes} (room : buffer ≠ []) (state : σ) (log : List ReadRecord) :
    (ask s.logged buffer room (state, log)).result = (ask s buffer room state).result ∧
      (ask s.logged buffer room (state, log)).buffer = (ask s buffer room state).buffer ∧
      (ask s.logged buffer room (state, log)).next.1 = (ask s buffer room state).next := by
  fun_induction ask s buffer room state generalizing log with
  | case1 buffer room state call filled n answer =>
      have same : (s.logged.read (state, log) buffer).answer = .count n := answer
      rw [ask_eq, same]
      exact ⟨rfl, rfl, rfl⟩
  | case2 buffer room state call filled answer ih =>
      have same : (s.logged.read (state, log) buffer).answer = .interrupted := answer
      rw [ask_eq, same]
      exact ih _
  | case3 buffer room state call filled kind answer =>
      have same : (s.logged.read (state, log) buffer).answer = .failed kind := answer
      rw [ask_eq, same]
      exact ⟨rfl, rfl, rfl⟩

theorem readOn_logged (loaded : Bytes) (state : σ) (log : List ReadRecord) :
    (readOn s.logged loaded (state, log)).1 = (readOn s loaded state).1 := by
  fun_induction readOn s loaded state generalizing log with
  | case1 loaded state asked kind answered =>
      obtain ⟨result, -, -⟩ := ask_logged (freshBuffer_ne_nil loaded.length) state log
      rw [readOn_eq rfl, result, show (ask s _ _ state).result = _ from answered]
  | case2 loaded state asked answered data =>
      obtain ⟨result, buffer, -⟩ := ask_logged (freshBuffer_ne_nil loaded.length) state log
      rw [readOn_eq rfl, result, show (ask s _ _ state).result = _ from answered]
      exact congrArg (fun buffer => Except.ok ((loaded ++ buffer).take loaded.length)) buffer
  | case3 loaded state asked n answered data more ih =>
      obtain ⟨result, buffer, next⟩ := ask_logged (freshBuffer_ne_nil loaded.length) state log
      rw [readOn_eq rfl, result, show (ask s _ _ state).result = _ from answered]
      dsimp only
      rw [if_neg more, buffer]
      have parts : (ask s.logged _ (freshBuffer_ne_nil loaded.length) (state, log)).next = (asked.next, _) :=
        Prod.ext next rfl
      exact (congrArg (fun state => (readOn s.logged data state).1) parts).trans (ih _)

end ByteStream

/-- Reading through a growing buffer, for every stream and wherever it stands.  Every call is offered room, so the only
    one that counts nothing is the last, and it means the end; there is at most one call for each byte and one more,
    those apart that are interrupted.  What is read is exactly what was left, or the first failure. -/
theorem readGrowing_collects (s : ByteStream σ) (state : σ) :
    let recorded := readGrowing s.logged (state, [])
    let calls := recorded.2.2
    recorded.1 = (readGrowing s state).1 ∧
      (∀ call ∈ calls, 0 < call.room) ∧
      (calls.filter fun call => call.answer ≠ .interrupted).length ≤ (s.left state).length + 1 ∧
      ∃ before final, calls = before ++ [final] ∧ (∀ call ∈ before, call.answer.goesOn = true) ∧
        (final.answer = .count 0 ∧ (readGrowing s state).1 = .ok (s.left state) ∨
          ∃ kind, final.answer = .failed kind ∧ (readGrowing s state).1 = .error kind) := by
  intro recorded calls
  have same : recorded.1 = (readGrowing s state).1 := ByteStream.readOn_logged _ _ _
  obtain ⟨before, bytes, state', buffer', passes, room, next, outcome⟩ := readOn_passes (s := s.logged) [] (state, [])
  have log : calls = before ++ [⟨buffer'.length, (s.read state'.1 buffer').answer⟩] := by
    show recorded.2.2 = _
    rw [show recorded.2 = _ from next]
    exact congrArg (· ++ _) passes.logged
  have left : s.left state = bytes ++ s.left state'.1 := passes.left_eq
  have few : (before.filter _).length + (s.left state'.1).length ≤ (s.left state).length := passes.calls_le
  rw [log, ← same]
  refine ⟨rfl, ?_, ?_, before, _, rfl, passes.goesOn, ?_⟩
  · exact List.forall_mem_append.2 ⟨passes.room_pos, List.forall_mem_singleton.2 (List.length_pos_iff.2 room)⟩
  · have last := List.length_filter_le (fun call : ReadRecord => decide (call.answer ≠ .interrupted))
      [⟨buffer'.length, (s.read state'.1 buffer').answer⟩]
    rw [List.filter_append, List.length_append]
    rw [List.length_singleton] at last
    omega
  · rcases outcome with ⟨answer, result⟩ | ⟨kind, answer, result⟩
    · refine .inl ⟨answer, ?_⟩
      rw [left, s.ends room answer, List.append_nil]
      exact result
    · exact .inr ⟨kind, answer, result⟩

/-- A source that delivers less than fits and interrupts between its portions. -/
theorem readGrowing_collects_short_reads :
    let source : Source := ⟨[1, 2, 3], [.portion 1, .interrupted, .portion 0]⟩
    let calls := (readGrowing Source.stream.logged (source, [])).2.2
    (readGrowing Source.stream source).1.toOption = some [1, 2, 3] ∧ (∀ call ∈ calls, 0 < call.room) ∧
      (calls.filter fun call => call.answer ≠ .interrupted).length ≤ 4 := by
  intro source calls
  obtain ⟨-, room, few, -⟩ := readGrowing_collects Source.stream source
  exact ⟨by decide +kernel, room, few⟩

/-! ### Streams without failures -/

/-- From a state on in which no call fails a stream is read to its end. -/
theorem readGrowing_of_sound {s : ByteStream σ} (sound : σ → Prop)
    (step : ∀ state, sound state → ∀ buffer,
      sound (s.read state buffer).next ∧ ∀ kind, (s.read state buffer).answer ≠ .failed kind)
    {state : σ} (first : sound state) : (readGrowing s state).1 = .ok (s.left state) := by
  obtain ⟨_, bytes, state', buffer', passes, room, -, ⟨answer, read⟩ | ⟨kind, failed, -⟩⟩ := readOn_passes (s := s) [] state
  · rw [passes.left_eq, s.ends room answer, List.append_nil]
    exact read
  · exact absurd failed ((step _ (passes.keeps (fun state holds buffer => (step state holds buffer).1) first) _).2 _)

/-- A source that fills every buffer is read to its end. -/
theorem readGrowing_plain (content : Bytes) : (readGrowing Source.stream ⟨content, []⟩).1 = .ok content := by
  refine readGrowing_of_sound (fun source => source.script = []) (fun source plain buffer => ?_) rfl
  show (source.read buffer).next.script = [] ∧ ∀ kind, (source.read buffer).answer ≠ .failed kind
  rw [Source.read, plain]
  exact ⟨rfl, nofun⟩

end JsonSidecar
