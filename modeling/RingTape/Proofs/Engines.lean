import RingTape.Proofs.Resolve
import RingTape.Proofs.Simulation

/-!
The two engines agree. A run in bursts and a run in steps of the same program with the same links
end in the same way or both go on for ever, whatever the size of a burst, since each round of the
one is at least one step of the other. This needs links that respect the program, which the links of
its matching do.
-/

namespace RingTape

theorem Program.admits_of_resolve {p : Program} {links : Links} (h : p.resolve = .ok links) :
    ∀ q ∈ links.pairs.toList, p.Admits q := by
  intro q hq
  obtain ⟨o, c, rfl, hm⟩ := (isMatching_of_resolve h).1.matched q hq
  have ho := fetch?_eq_some_iff.2 hm.opening
  have hc := fetch?_eq_some_iff.2 hm.closing
  refine ⟨Int.natCast_nonneg o, Int.ofNat_lt.2 (lt_of_fetch? ho), Int.natCast_nonneg c,
    Int.ofNat_lt.2 (lt_of_fetch? hc), ?_, ?_⟩
  · rw [ho]
    decide
  · rw [hc]
    decide

namespace Burst

variable {ι κ : Type} [ByteSource ι] [ByteSink κ]

/-- Runs in bursts of any size end as runs in steps do. -/
theorem settles_round_iff {j : Job} {r : Prepared} (hr : r.Mirrors j.program j.links) {batch : Nat}
    (hbatch : 1 ≤ batch) {m : Machine ι κ} (hm : Ready m) (a : Attempt ι κ) :
    m.Settles j (round j r batch) a ↔ m.Settles j (Machine.step j) a :=
  Machine.settles_iff_of_round_cases Ready (fun hm pending => round_cases hr hbatch hm pending) hm a

end Burst

namespace Execution

variable {ι κ : Type} {s : Settings} {tape : Tape} {p : Program} {links : Links} {source : ι}
  {sink : κ}

def jobOf (s : Settings) (p : Program) (links : Links) : Job :=
  { program := p, links, eof := s.eof, limit := s.limit }

def startOf (s : Settings) (tape : Tape) (source : ι) (sink : κ) : Machine ι κ :=
  { tape, tracing := s.trace, source, sink }

theorem exists_blank (h : 1 ≤ s.tapeSize) :
    ∃ tape, Tape.blank? s.tapeSize = some tape ∧ tape = .blank s.tapeSize.toNat (by omega) :=
  ⟨_, by rw [Tape.blank?, dif_pos h], rfl⟩

theorem ofLinks_stepwise (h : Tape.blank? s.tapeSize = some tape) :
    ofLinks .stepwise s p links source sink =
      .ok ⟨jobOf s p links, .stepwise, startOf s tape source sink⟩ := by
  simp only [ofLinks, h]
  rfl

theorem ofLinks_burst (h : Tape.blank? s.tapeSize = some tape) {r : Burst.Prepared}
    (hr : Burst.prepare p links = .ok r) :
    ofLinks .burst s p links source sink =
      .ok ⟨jobOf s p links, .burst r, startOf s tape source sink⟩ := by
  simp only [ofLinks, h, Worker.prepare, hr]
  rfl

variable [ByteSource ι] [ByteSink κ]

/-- On either engine a run is a run in steps, as long as bursts can be prepared and need not be
logged. -/
theorem exists_ofLinks {e : Engine} {ps : List (Int × Int)}
    (he : e = .burst → Burst.Codable p ∧ s.trace = false) (hps : ∀ q ∈ ps, p.Admits q)
    (htape : Tape.blank? s.tapeSize = some tape) (source : ι) (sink : κ) :
    ∃ x, ofLinks e s p (.ofPairs ps) source sink = .ok x ∧ x.job = jobOf s p (.ofPairs ps) ∧
      x.start = startOf s tape source sink ∧
      ∀ a : Attempt ι κ, x.Settles a ↔ x.start.Settles x.job (Machine.step x.job) a := by
  cases e with
  | stepwise => exact ⟨_, ofLinks_stepwise htape, rfl, rfl, fun a => settles_stepwise_iff rfl⟩
  | burst =>
      obtain ⟨hp, htrace⟩ := he rfl
      obtain ⟨r, hr, hmirrors⟩ := Burst.exists_prepared_mirrors hp hps
      have hready : Burst.Ready (startOf s tape source sink) := ⟨Int.le_refl 0, htrace⟩
      refine ⟨_, ofLinks_burst htape hr, rfl, rfl, fun a => ?_⟩
      rw [settles_burst_iff rfl]
      exact Burst.settles_round_iff hmirrors (by decide) hready a

/-- The engines cannot be told apart by how a run ends: in the machine that is left, with its tape,
its place, its count of steps and both its ends, in the cause of a breakdown, or in that the run
goes on for ever. The links need not match the brackets, though those that do are among them. -/
theorem stepwise_settles_iff_burst_settles (text : String) :
    (∀ links, (Program.ofString text).resolve = .ok links → links = .ofPairs links.pairs.toList ∧
      ∀ q ∈ links.pairs.toList, (Program.ofString text).Admits q) ∧
    ∀ ps : List (Int × Int), (∀ q ∈ ps, (Program.ofString text).Admits q) →
      ∀ s : Settings, 1 ≤ s.tapeSize → s.trace = false → ∀ (source : ι) (sink : κ),
        ∃ x y, ofLinks .stepwise s (.ofString text) (.ofPairs ps) source sink = .ok x ∧
          ofLinks .burst s (.ofString text) (.ofPairs ps) source sink = .ok y ∧
          ∀ a : Attempt ι κ, x.Settles a ↔ y.Settles a := by
  refine ⟨fun links h => ⟨(Program.isMatching_of_resolve h).2, Program.admits_of_resolve h⟩, ?_⟩
  intro ps hps s hsize htrace source sink
  obtain ⟨tape, htape, -⟩ := exists_blank hsize
  have hcodable := Burst.codable_ofString text
  obtain ⟨x, hx, hjob, hstart, hxs⟩ := exists_ofLinks (e := .stepwise)
    (fun _ => ⟨hcodable, htrace⟩) hps htape source sink
  obtain ⟨y, hy, hjob', hstart', hys⟩ := exists_ofLinks (e := .burst)
    (fun _ => ⟨hcodable, htrace⟩) hps htape source sink
  refine ⟨x, y, hx, hy, fun a => ?_⟩
  rw [hxs, hys, hjob, hjob', hstart, hstart']

/-- A loop linked twice over and a bracket that is not linked at all, on which both engines stop. -/
theorem both_stop_unlinked :
    (∀ q ∈ [((1 : Int), (4 : Int)), (1, 4)], (Program.ofString "+[,.]+]").Admits q) ∧
    ∃ x y : Execution ByteQueue Output, ∃ b,
      ofLinks .stepwise { tapeSize := 1, eof := .zero, limit := none, trace := false }
        (.ofString "+[,.]+]") (.ofPairs [(1, 4), (1, 4)]) ⟨[7]⟩ .emptyBuffer = .ok x ∧
      ofLinks .burst { tapeSize := 1, eof := .zero, limit := none, trace := false }
        (.ofString "+[,.]+]") (.ofPairs [(1, 4), (1, 4)]) ⟨[7]⟩ .emptyBuffer = .ok y ∧
      x.Settles (.error b) ∧ y.Settles (.error b) ∧
      b.cause = .fault (.bracket (.unlinked 6 (some "]"))) ∧ b.machine.sink.bytes = #[7, 0] := by
  have hps : ∀ q ∈ [((1 : Int), (4 : Int)), (1, 4)], (Program.ofString "+[,.]+]").Admits q := by
    intro q hq
    obtain rfl : q = (1, 4) := by simpa using hq
    exact ⟨by decide, by decide, by decide, by decide, by decide, by decide⟩
  obtain ⟨x, y, hx, hy, hsettles⟩ := (stepwise_settles_iff_burst_settles "+[,.]+]").2 _ hps
    { tapeSize := 1, eof := .zero, limit := none, trace := false } (by decide) rfl
    (⟨[7]⟩ : ByteQueue) Output.emptyBuffer
  -- the run in steps is computed, and the run in bursts follows it
  obtain rfl := Except.ok.inj ((ofLinks_stepwise rfl).symm.trans hx)
  refine ⟨hps, _, y, _, hx, hy, ⟨20, rfl⟩, (hsettles _).1 ⟨20, rfl⟩, ?_, ?_⟩
  · rfl
  · rfl

end Execution

end RingTape
