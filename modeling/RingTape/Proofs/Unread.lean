import RingTape.Proofs.Supply

/-!
Input that is not read. What a run does depends on the bytes that it has read and on nothing behind
them. As long as it never asks for a byte when there is none, the policy for the end of the input
does not show either, even if the run has used up its input to the last byte.

The induction goes along the run and takes the input apart on the way: what a run has used stands in
front of what it leaves, and instead of the latter there may be anything (`Reaches.exists_used`).
-/

namespace RingTape

variable {κ : Type}

namespace Machine

variable {j : Job} {m f : Machine ByteQueue κ} {n : Nat} {a : Attempt ByteQueue κ}

def ReadsPastEnd (j : Job) (m : Machine ByteQueue κ) : Prop :=
  m.nextCommand? j = some .read ∧ m.source.unread = []

instance : Decidable (m.ReadsPastEnd j) := inferInstanceAs (Decidable (_ ∧ _))

variable [ByteSink κ]

/-- A step uses a byte or none, and leaves the others unseen. -/
theorem exists_used_step (h : ¬ m.ReadsPastEnd j) :
    ∃ used, m.source.unread = used ++ (Attempt.source (m.step j)).unread ∧ ∀ eof rest,
      (m.withSource (⟨used ++ rest⟩ : ByteQueue)).step (j.withEof eof) =
        Attempt.withSource (⟨rest⟩ : ByteQueue) (m.step j) := by
  by_cases hread : m.nextCommand? j = some .read
  · cases hunread : m.source.unread with
    | nil => exact absurd ⟨hread, hunread⟩ h
    | cons b bs =>
        have hanswer (eof : EofPolicy) (q : ByteQueue) (rest : List UInt8)
            (hq : q.unread = b :: rest) : ByteSource.answer eof q = (.ok (some b), ⟨rest⟩) := by
          obtain ⟨unread⟩ := q
          subst hq
          rfl
        have hm := hanswer j.eof m.source bs hunread
        refine ⟨[b], ?_, fun eof rest => ?_⟩
        · rw [(step_withSource_of_answer hread hm hm).1]
          rfl
        · exact (step_withSource_of_answer hread hm (hanswer eof ⟨b :: rest⟩ rest rfl)).2
  · refine ⟨[], ?_, fun eof rest => ?_⟩
    · rw [(step_withSource hread j.eof m.source).1]
      rfl
    · exact (step_withSource hread eof _).2

/-- What a run has used stands in front of what it leaves, in place of which there may be anything,
under any policy. -/
theorem Reaches.exists_used (h : Reaches j (step j) n m f)
    (hread : ∀ k g, Reaches j (step j) k m g → ¬ g.ReadsPastEnd j) :
    ∃ used, m.source.unread = used ++ f.source.unread ∧ ∀ eof rest,
      Reaches (j.withEof eof) (step (j.withEof eof)) n
        (m.withSource (⟨used ++ rest⟩ : ByteQueue)) (f.withSource (⟨rest⟩ : ByteQueue)) := by
  induction h with
  | refl m => exact ⟨[], rfl, fun _ _ => .refl _⟩
  | head pending worked _ ih =>
      obtain ⟨used, hused, hstep⟩ := exists_used_step (hread 0 _ (.refl _))
      obtain ⟨used', hused', hrun⟩ := ih fun k g hg => hread (k + 1) g (.head pending worked hg)
      rw [worked] at hused hstep
      have hsource : (Attempt.source (.ok _) : ByteQueue).unread = _ := hused'
      refine ⟨used ++ used', ?_, fun eof rest => ?_⟩
      · rw [hused, hsource, List.append_assoc]
      · rw [List.append_assoc]
        exact .head pending (hstep eof _) (hrun eof rest)

theorem Settles.exists_used (h : Settles j (step j) m a)
    (hread : ∀ k g, Reaches j (step j) k m g → ¬ g.ReadsPastEnd j) :
    ∃ used, m.source.unread = used ++ (Attempt.source a).unread ∧ ∀ eof rest,
      Settles (j.withEof eof) (step (j.withEof eof)) (m.withSource (⟨used ++ rest⟩ : ByteQueue))
        (Attempt.withSource (⟨rest⟩ : ByteQueue) a) := by
  cases h with
  | finished run done =>
      obtain ⟨used, hused, hrun⟩ := run.exists_used hread
      exact ⟨used, hused, fun eof rest => .finished (hrun eof rest) done⟩
  | failed run pending broken =>
      obtain ⟨used, hused, hrun⟩ := run.exists_used hread
      obtain ⟨used', hused', hstep⟩ := exists_used_step (hread _ _ run)
      rw [broken] at hused' hstep
      refine ⟨used ++ used', ?_, fun eof rest => ?_⟩
      · rw [hused, hused', List.append_assoc]
      · rw [List.append_assoc]
        exact .failed (hrun eof _) pending (hstep eof rest)

end Machine

namespace Execution

variable [ByteSink κ] {p : Program} {links : Links} {s : Settings} {e : Engine}

/-- Input that is never read does not matter, nor does the policy before the end of the input. If a
run ends, at its end or at the limit, and has never read past the end of its input, it ends in the
same way under any policy when there is more input behind, all of which it leaves. Indeed any input
will do that starts with the bytes that it has read. -/
theorem unread_irrelevant (hp : p.resolve = .ok links) (hsize : 1 ≤ s.tapeSize)
    (he : e = .burst → Burst.Codable p ∧ s.trace = false) (bytes : List UInt8) (sink : κ) :
    ∃ x, ofLinks e s p links (⟨bytes⟩ : ByteQueue) sink = .ok x ∧
      ∀ a, x.Settles a →
        (∀ n g, Machine.Reaches x.job (Machine.step x.job) n x.start g →
          ¬ g.ReadsPastEnd x.job) →
        (∀ eof more, ∃ y,
          ofLinks e (s.withEof eof) p links (⟨bytes ++ more⟩ : ByteQueue) sink = .ok y ∧
          y.Settles (Attempt.withSource (⟨(Attempt.source a).unread ++ more⟩ : ByteQueue) a)) ∧
        ∀ eof bytes' read, read = bytes.length - (Attempt.source a).remaining →
          bytes.take read <+: bytes' → ∃ y,
            ofLinks e (s.withEof eof) p links (⟨bytes'⟩ : ByteQueue) sink = .ok y ∧
            y.Settles (Attempt.withSource (⟨bytes'.drop read⟩ : ByteQueue) a) := by
  obtain ⟨x, hx, hjob, hstart, hxs⟩ :=
    exists_of_resolve hp hsize he (⟨bytes⟩ : ByteQueue) sink
  refine ⟨x, hx, fun a ha hread => ?_⟩
  obtain ⟨used, hused, hsettles⟩ := ((hxs a).1 ha).exists_used hread
  rw [hjob, hstart] at hsettles
  rw [hstart] at hused
  have hbytes : bytes = used ++ (Attempt.source a).unread := hused
  -- any input that starts with what was used is an input that may be put in its place
  have hinput (eof : EofPolicy) (rest : List UInt8) : ∃ y,
      ofLinks e (s.withEof eof) p links (⟨used ++ rest⟩ : ByteQueue) sink = .ok y ∧
      y.Settles (Attempt.withSource (⟨rest⟩ : ByteQueue) a) := by
    obtain ⟨y, hy, hjob', hstart', hys⟩ :=
      exists_of_resolve (s := s.withEof eof) hp hsize he (⟨used ++ rest⟩ : ByteQueue) sink
    rw [hjob', hstart'] at hys
    exact ⟨y, hy, (hys _).2 (hsettles eof rest)⟩
  constructor
  · intro eof more
    rw [hbytes, List.append_assoc]
    exact hinput eof _
  · rintro eof bytes' read rfl ⟨rest, rfl⟩
    have hlength : bytes.length - (Attempt.source a).remaining = used.length := by
      rw [hbytes, List.length_append]
      exact Nat.add_sub_cancel _ _
    rw [hlength, hbytes, List.take_left, List.drop_left]
    exact hinput eof rest

/-- `,[.,]` hands on a seven and stops at a zero, so that the nine behind it is left. Without the
nine the input is used up to the last byte, and its end is still not seen. -/
theorem zero_ended_echo_unread :
    (Program.ofString ",[.,]").resolve = .ok (.ofPairs [(1, 4)]) ∧ ∃ x y z f,
      ofLinks .stepwise { tapeSize := 1, eof := .keep, limit := none, trace := false }
        (.ofString ",[.,]") (.ofPairs [(1, 4)]) (⟨[7, 0, 9]⟩ : ByteQueue) Output.emptyBuffer =
          .ok x ∧
      x.Settles (.ok f) ∧
      (∀ n g, Machine.Reaches x.job (Machine.step x.job) n x.start g →
        ¬ g.ReadsPastEnd x.job) ∧
      f.steps = 5 ∧ f.source.unread = [9] ∧ f.sink.bytes = #[7] ∧
      ofLinks .stepwise { tapeSize := 1, eof := .zero, limit := none, trace := false }
        (.ofString ",[.,]") (.ofPairs [(1, 4)]) (⟨[7, 0, 9, 5]⟩ : ByteQueue) Output.emptyBuffer =
          .ok y ∧
      y.Settles (.ok (f.withSource (⟨[9, 5]⟩ : ByteQueue))) ∧
      ofLinks .stepwise { tapeSize := 1, eof := .max, limit := none, trace := false }
        (.ofString ",[.,]") (.ofPairs [(1, 4)]) (⟨[7, 0]⟩ : ByteQueue) Output.emptyBuffer =
          .ok z ∧
      z.Settles (.ok (f.withSource (⟨[]⟩ : ByteQueue))) := by
  have hp : (Program.ofString ",[.,]").resolve = .ok (.ofPairs [(1, 4)]) := rfl
  obtain ⟨x, hx, hsame⟩ := unread_irrelevant (e := .stepwise)
    (s := { tapeSize := 1, eof := .keep, limit := none, trace := false }) hp (by decide)
    (fun h => by cases h) [7, 0, 9] Output.emptyBuffer
  obtain ⟨f, ha, hstart, hsteps, hunread, hbytes⟩ : ∃ f,
      x.start.Settles x.job (Machine.step x.job) (.ok f) ∧ x.start.steps = 0 ∧ f.steps = 5 ∧
        f.source.unread = [9] ∧ f.sink.bytes = #[7] := by
    obtain rfl := Except.ok.inj (hx.symm.trans rfl)
    exact ⟨_, Machine.settles_iff_drive.2 ⟨20, rfl⟩, rfl, rfl, rfl, rfl⟩
  have hall : ∀ i < 6,
      ¬ (Progress.ofAttempt (x.start.stepTimes x.job i)).machine.ReadsPastEnd x.job := by
    obtain rfl := Except.ok.inj (hx.symm.trans rfl)
    decide +kernel
  have hread : ∀ n g, Machine.Reaches x.job (Machine.step x.job) n x.start g →
      ¬ g.ReadsPastEnd x.job := by
    intro n g hg
    cases ha with
    | finished run done =>
        have hle := run.le_of_stuck (fun _ pending => absurd done pending) hg
        have hcount := run.steps
        have hlast := hall n (by omega)
        rwa [hg.stepTimes] at hlast
  have hx' : x.Settles (.ok f) := by
    obtain rfl := Except.ok.inj (hx.symm.trans rfl)
    exact (settles_stepwise_iff rfl).2 ha
  obtain ⟨hmore, hprefix⟩ := hsame _ hx' hread
  obtain ⟨y, hy, hys⟩ := hmore .zero [5]
  have hcount : 2 = [(7 : UInt8), 0, 9].length - f.source.remaining := by
    rw [ByteQueue.remaining, hunread]
    rfl
  obtain ⟨z, hz, hzs⟩ := hprefix .max [7, 0] 2 hcount List.prefix_rfl
  rw [show (Attempt.source (.ok f)).unread = [9] from hunread] at hys
  exact ⟨hp, x, y, z, f, hx, hx', hread, hsteps, hunread, hbytes, hy, hys, hz, hzs⟩

end Execution

end RingTape
