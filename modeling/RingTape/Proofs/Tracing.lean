import RingTape.Proofs.Interpretation

/-!
What cannot be seen. Neither the engine nor the trace makes a difference to anything but the log: a
trace is written beside the run and is not looked at by it, and the engine that works in bursts ends
as the stepwise one does, which also stands in for it where a trace is wanted.
-/

namespace RingTape

def Options.on (o : Options) (e : Engine) (trace : Bool) : Options :=
  { o with engine := .text e.name, trace }

theorem Options.runnable_on {o : Options} {eof : EofPolicy}
    (heof : EofPolicy.ofScalar? o.eof = some eof) (hsize : 1 ≤ o.tapeSize) (e : Engine)
    (trace : Bool) : (o.on e trace).Runnable e eof :=
  ⟨Engine.ofScalar?_name e, heof, hsize⟩

namespace Interpretation

variable {ι κ : Type} [ByteSource ι] [ByteSink κ]

theorem shows_of_shows {text : String} {o : Options} {eof : EofPolicy} {links : Links} {source : ι}
    {sink : Option Output} {v : Except Failure Result × ι × Output}
    (h : (Program.ofString (Source.strip text)).resolve = .ok links)
    (heof : EofPolicy.ofScalar? o.eof = some eof) (hsize : 1 ≤ o.tapeSize) (e e' : Engine)
    (t t' : Bool) (hv : (begin text (o.on e t) source sink).Shows v) :
    (begin text (o.on e' t') source sink).Shows v := by
  obtain ⟨a, ha, rfl⟩ := (shows_iff_settles h (o.runnable_on heof hsize e t)).1 hv
  -- the two runs start on the same tape with the same job, and differ only in whether they trace
  have halike : ((o.on e t).machine eof hsize source sink).Alike Eq
      ((o.on e' t').machine eof hsize source sink) := ⟨rfl, rfl, rfl, rfl, rfl⟩
  obtain ⟨a', ha', hends⟩ := halike.exists_settles Tape.symmetry_eq ha
  exact (shows_iff_settles h (o.runnable_on heof hsize e' t')).2
    ⟨a', ha', (seen_eq_of_alike hends _).symm⟩

/-- Neither the engine nor the trace can be seen. An interpretation shows the same on either engine,
traced or not, or nothing at all, whatever the source, the sink and the other options; and a run in
steps of any program under any links comes to the same machine traced and untraced. -/
theorem shows_iff_on :
    (∀ (text : String) (o : Options) (eof : EofPolicy), EofPolicy.ofScalar? o.eof = some eof →
      1 ≤ o.tapeSize → ∀ (source : ι) (sink : Option Output) (e e' : Engine) (t t' : Bool)
        (v : Except Failure Result × ι × Output),
        (begin text (o.on e t) source sink).Shows v ↔
          (begin text (o.on e' t') source sink).Shows v) ∧
    ∀ (s : Settings) (p : Program) (links : Links) (source : ι) (sink : κ), 1 ≤ s.tapeSize →
      ∃ x y, Execution.ofLinks .stepwise { s with trace := true } p links source sink = .ok x ∧
        Execution.ofLinks .stepwise { s with trace := false } p links source sink = .ok y ∧
        ∀ n, Progress.Alike Eq (x.run n) (y.run n) := by
  constructor
  · intro text o eof heof hsize source sink e e' t t' v
    cases h : (Program.ofString (Source.strip text)).resolve with
    | error f => rw [begin_of_fault h, begin_of_fault h]
    | ok links =>
        exact ⟨shows_of_shows h heof hsize e e' t t', shows_of_shows h heof hsize e' e t' t⟩
  · intro s p links source sink hsize
    obtain ⟨x, hx, hjob, hworker, hstart⟩ :=
      Execution.exists_stepwise (s := { s with trace := true }) hsize p links source sink
    obtain ⟨y, hy, hjob', hworker', hstart'⟩ :=
      Execution.exists_stepwise (s := { s with trace := false }) hsize p links source sink
    have halike : x.start.Alike Eq y.start := by
      rw [hstart, hstart']
      exact ⟨rfl, rfl, rfl, rfl, rfl⟩
    refine ⟨x, y, hx, hy, fun n => ?_⟩
    rw [Execution.run_stepwise hworker, Execution.run_stepwise hworker',
      show y.job = x.job from hjob'.trans hjob.symm]
    exact halike.advance_of_symmetry Tape.symmetry_eq _ n

/-- `,[.,]` stopped in front of its last symbol but one: in bursts, in steps and traced, what can be
seen is the byte that has been written and that nothing is left to read. -/
theorem echo_stopped_alike :
    EofPolicy.ofScalar? (.text "keep") = some .keep ∧ (1 : Int) ≤ 2 ∧
    (∀ (e : Engine) (t : Bool), ∃ r,
      (begin ",[.,]" (Options.on { tapeSize := 2, eof := .text "keep", limit := some 3 } e t)
        (⟨[7]⟩ : ByteQueue) (some .emptyList)).Shows
          (.ok r, ⟨[]⟩, .tee #[7] (.list #[7])) ∧
      r.ok = false ∧ r.output = #[7] ∧ r.error = some (.limit (.stopped 3 3))) ∧
    ∃ x y : Execution ByteQueue Output,
      Execution.ofLinks .stepwise { tapeSize := 2, eof := .keep, limit := none, trace := true }
        (.ofString ",]") {} ⟨[7]⟩ .emptyList = .ok x ∧
      Execution.ofLinks .stepwise { tapeSize := 2, eof := .keep, limit := none, trace := false }
        (.ofString ",]") {} ⟨[7]⟩ .emptyList = .ok y ∧
      Progress.Alike Eq (x.run 5) (y.run 5) := by
  obtain ⟨hinterpretations, hruns⟩ := shows_iff_on (ι := ByteQueue) (κ := Output)
  refine ⟨by decide, by decide, ?_, ?_⟩
  · intro e t
    have hshows := (hinterpretations ",[.,]"
      { tapeSize := 2, eof := .text "keep", limit := some 3 } .keep (by decide) (by decide) ⟨[7]⟩
      (some .emptyList) .stepwise e false t _).1 ⟨5, _, rfl, rfl⟩
    exact ⟨_, hshows, rfl, rfl, rfl⟩
  · obtain ⟨x, y, hx, hy, halike⟩ := hruns
      { tapeSize := 2, eof := .keep, limit := none, trace := true } (.ofString ",]") {} ⟨[7]⟩
      .emptyList (by decide)
    exact ⟨x, y, hx, hy, halike 5⟩

end Interpretation

end RingTape
