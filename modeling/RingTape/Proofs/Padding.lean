import RingTape.Proofs.Outcomes
import RingTape.Proofs.Unread

/-!
Padding. A policy that stores a byte at the end of the input makes the input look as if it went on
with that byte for ever. So it cannot be told how many such bytes really stand there.

Of the two runs, the one on the shorter input comes to its end first, at a read that may be in any
turn of any loop, and the other one comes to its own end later. The relation between the inputs goes
through all this unchanged: as long as the shorter one lasts, both give the same byte, then the
policy stores what stands in the padding, and in the end both inputs are empty and the policy
answers for both.
-/

namespace RingTape

variable {κ : Type}

namespace ByteQueue

/-- The second queue goes on behind the first with some bytes `v`. -/
def Padded (v : UInt8) (q q' : ByteQueue) : Prop :=
  ∃ k, q'.unread = q.unread ++ List.replicate k v

theorem padded_replicate (v : UInt8) (bytes : List UInt8) (k : Nat) :
    Padded v ⟨bytes⟩ ⟨bytes ++ List.replicate k v⟩ := ⟨k, rfl⟩

/-- A policy that stores a byte cannot be told from more of these bytes. -/
theorem answerAlike_padded {eof : EofPolicy} {v : UInt8} (h : eof.value? = some v) :
    ByteSource.AnswerAlike eof (Padded v) := by
  rintro ⟨unread⟩ ⟨unread'⟩ ⟨k, hk⟩
  obtain rfl : unread' = unread ++ List.replicate k v := hk
  have hend : ByteSource.answer eof (⟨[]⟩ : ByteQueue) = (.ok (some v), ⟨[]⟩) := by
    rw [← h]
    rfl
  cases unread with
  | cons b bs => exact ⟨_, _, _, rfl, rfl, padded_replicate v bs k⟩
  | nil =>
      cases k with
      | zero => exact ⟨_, _, _, hend, hend, padded_replicate v [] 0⟩
      | succ k => exact ⟨_, _, _, hend, rfl, padded_replicate v [] k⟩

end ByteQueue

/-! ### Reading past the end -/

namespace Machine

variable {j : Job} {m : Machine ByteQueue κ}

theorem readByte_keep (h : m.source.unread = []) : m.readByte .keep = .ok m := by
  obtain ⟨tape, ip, steps, tracing, log, ⟨unread⟩, sink⟩ := m
  obtain rfl : unread = [] := h
  rfl

variable [ByteSink κ]

/-- A read past the end that is to keep the cell keeps the whole tape, in a step or behind a
burst. -/
theorem ReadsPastEnd.keeps_tape (hj : j.eof = .keep) (h : m.ReadsPastEnd j) :
    (∃ f, m.step j = .ok f ∧ f.tape = m.tape) ∧
      ∃ f, Burst.answer j .input m = .ok f ∧ f.tape = m.tape := by
  obtain ⟨hread, hunread⟩ := h
  obtain ⟨hl, s, hs, hc⟩ := exists_symbol_of_nextCommand? hread
  constructor
  · have hexecute : (m.note (m.entry s)).execute j s = .ok (m.note (m.entry s)) := by
      simp only [execute, hc, hj]
      exact readByte_keep (by rwa [source_note])
    exact ⟨_, step_of_execute hl hs hexecute, by rw [tape_next, tape_note]⟩
  · refine ⟨m.next, ?_, rfl⟩
    simp only [Burst.answer, checkLimit_of_not_spent hl, hj, Except.bind, readByte_keep hunread]
    rfl

end Machine

/-! ### Whole runs -/

namespace Execution

variable [ByteSink κ] {p : Program} {links : Links} {s : Settings} {e : Engine}

/-- A run on bytes breaks down at the limit only. -/
theorem cause_of_settles_error (hp : p.resolve = .ok links) (hsize : 1 ≤ s.tapeSize)
    (he : e = .burst → Burst.Codable p ∧ s.trace = false) {bytes : List UInt8} {sink : κ}
    {x : Execution ByteQueue κ}
    (hx : ofLinks e s p links (⟨bytes⟩ : ByteQueue) sink = .ok x) {b : Breakdown ByteQueue κ}
    (hb : x.Settles (.error b)) :
    b.cause = .fault (.limit (.stopped b.machine.steps b.machine.ip)) := by
  obtain ⟨x', hx', hjob, hstart, hxs⟩ := exists_of_resolve hp hsize he (⟨bytes⟩ : ByteQueue) sink
  obtain rfl := Except.ok.inj (hx.symm.trans hx')
  have hresolved : x.job.Resolved := hjob ▸ hp
  have hsupplied : x.start.Supplied x.job s.tapeSize.toNat := by
    rw [hjob, hstart]
    exact ⟨sound_startOf s p links (by omega) _ sink, ByteQueue.unfailing _⟩
  obtain ⟨n, g, -, -, ⟨heq, -⟩ | ⟨heq, -⟩⟩ :=
    hsupplied.settles_cases hresolved ((hxs _).1 hb)
  · cases heq
  · cases heq
    rfl

/-- The policies that store a zero or a 255 at the end of the input are padding: with however many
of these bytes behind the input, the run goes on for ever as before or ends as before, at the end of
the program or at the limit. A read past the end that is to keep the cell leaves the tape as it was.
All of this holds on both engines. -/
theorem runs_alike_padded (hp : p.resolve = .ok links) (hsize : 1 ≤ s.tapeSize)
    (he : e = .burst → Burst.Codable p ∧ s.trace = false) (bytes : List UInt8) (sink : κ) :
    (∀ eof v, (eof, v) = (EofPolicy.zero, (0 : UInt8)) ∨ (eof, v) = (EofPolicy.max, 255) →
      ∀ k, ∃ x y, ofLinks e (s.withEof eof) p links (⟨bytes⟩ : ByteQueue) sink = .ok x ∧
        ofLinks e (s.withEof eof) p links (⟨bytes ++ List.replicate k v⟩ : ByteQueue) sink =
          .ok y ∧
        x.AlikeButSource y ∧ ∀ b, x.Settles (.error b) →
          b.cause = .fault (.limit (.stopped b.machine.steps b.machine.ip))) ∧
    ∃ x, ofLinks e (s.withEof .keep) p links (⟨bytes⟩ : ByteQueue) sink = .ok x ∧
      ∀ m : Machine ByteQueue κ, m.ReadsPastEnd x.job →
        (∃ f, m.step x.job = .ok f ∧ f.tape = m.tape) ∧
          ∃ f, Burst.answer x.job .input m = .ok f ∧ f.tape = m.tape := by
  constructor
  · intro eof v hv k
    have hvalue : eof.value? = some v := by rcases hv with hv | hv <;> cases hv <;> rfl
    obtain ⟨x, y, hx, hy, halike⟩ := exists_alikeButSource (s := s.withEof eof) hp hsize he
      (ByteQueue.answerAlike_padded hvalue) (ByteQueue.padded_replicate v bytes k) sink
    exact ⟨x, y, hx, hy, halike, fun b =>
      cause_of_settles_error (s := s.withEof eof) hp hsize he hx⟩
  · obtain ⟨x, hx, hjob, -⟩ :=
      exists_of_resolve (s := s.withEof .keep) hp hsize he (⟨bytes⟩ : ByteQueue) sink
    exact ⟨x, hx, fun m hm => hm.keeps_tape (hjob ▸ rfl)⟩

/-- `,.,.` on one byte and on the same byte and a zero. -/
theorem byte_and_end_alike_padded :
    (Program.ofString ",.,.").resolve = .ok (.ofPairs []) ∧ ∃ x y f r,
      ofLinks .stepwise { tapeSize := 1, eof := .zero, limit := some 4, trace := false }
        (.ofString ",.,.") (.ofPairs []) (⟨[7]⟩ : ByteQueue) Output.emptyBuffer = .ok x ∧
      ofLinks .stepwise { tapeSize := 1, eof := .zero, limit := some 4, trace := false }
        (.ofString ",.,.") (.ofPairs []) (⟨[7, 0]⟩ : ByteQueue) Output.emptyBuffer = .ok y ∧
      x.Settles (.ok f) ∧ y.Settles (.ok (f.withSource r)) ∧ f.sink.bytes = #[7, 0] := by
  have hp : (Program.ofString ",.,.").resolve = .ok (.ofPairs []) := rfl
  obtain ⟨hpadded, -⟩ := runs_alike_padded (e := .stepwise)
    (s := { tapeSize := 1, eof := .keep, limit := some 4, trace := false }) hp (by decide)
    (fun h => by cases h) [7] Output.emptyBuffer
  obtain ⟨x, y, hx, hy, halike, -⟩ := hpadded .zero 0 (Or.inl rfl) 1
  obtain ⟨f, hf, hbytes⟩ : ∃ f, x.Settles (.ok f) ∧ f.sink.bytes = #[7, 0] := by
    obtain rfl := Except.ok.inj (hx.symm.trans rfl)
    exact ⟨_, ⟨20, rfl⟩, rfl⟩
  obtain ⟨r, hr⟩ := halike.forth hf
  exact ⟨hp, x, y, f, r, hx, hy, hf, hr, hbytes⟩

end Execution

end RingTape
