import RingTape.Interpretation
import RingTape.Proofs.Lockstep

/-!
What an interpretation shows. An interpretation ends in an answer: a result, the source and the sink
as they were left, and a log. The log tells which engine was at work; what is seen of the answer
apart from it does not. `shows_iff_settles` reduces an interpretation to a run in steps, whichever
engine was asked for: what can be seen of it is what can become of the machine that it starts from.
-/

namespace RingTape

/-- The sink behind a tee is given what the tee is given. -/
theorem Output.behind?_writeAll (o : Output) (bs : List UInt8) :
    (ByteSink.writeAll o bs).behind? = o.behind?.map (ByteSink.writeAll · bs) := by
  induction bs generalizing o with
  | nil => simp [ByteSink.writeAll]
  | cons b bs ih =>
      show (ByteSink.writeAll (o.write b.toNat) bs).behind? = _
      rw [ih]
      cases o <;> rfl

variable {ι : Type}

/-! ### Options that can be run -/

namespace Options

def settings (o : Options) (eof : EofPolicy) : Settings := ⟨o.tapeSize, eof, o.limit, o.trace⟩

structure Runnable (o : Options) (e : Engine) (eof : EofPolicy) : Prop where
  engine : Engine.ofScalar? o.engine = some e
  policy : EofPolicy.ofScalar? o.eof = some eof
  size : 1 ≤ o.tapeSize

def job (o : Options) (eof : EofPolicy) (text : String) (links : Links) : Job :=
  Execution.jobOf (o.settings eof) (.ofString (Source.strip text)) links

def machine (o : Options) (eof : EofPolicy) (h : 1 ≤ o.tapeSize) (source : ι)
    (sink : Option Output) : Machine ι Output :=
  Execution.startOf (o.settings eof) (.blank o.tapeSize.toNat (by omega)) source
    (Interpretation.outermost sink)

variable {o : Options} {e : Engine} {eof : EofPolicy}

/-- A trace is made by the stepwise engine. -/
theorem Runnable.configure_eq (h : o.Runnable e eof) :
    o.configure = .ok (if o.trace then .stepwise else e, o.settings eof) := by
  cases htrace : o.trace <;>
    simp [Options.configure, Engine.configure, h.engine, h.policy, settings, htrace, Except.map]

end Options

/-- What is seen of an answer: all but what was logged. -/
def Answer.sight (a : Answer ι) : Except Failure Result × ι × Output := (a.result, a.source, a.sink)

namespace Interpretation

/-! ### Answers to runs -/

def seen (program : String) : Attempt ι Output → Except Failure Result × ι × Output
  | .ok m =>
    (.ok { ok := true, output := m.sink.bytes, steps := m.steps, tape := some m.tape.cells,
           program }, m.source, m.sink)
  | .error ⟨.fault f, m⟩ =>
    (.ok { ok := false, output := m.sink.bytes, error := some f, program }, m.source, m.sink)
  | .error ⟨cause, m⟩ => (.error cause, m.source, m.sink)

theorem seen_eq_of_alike {a a' : Attempt ι Output} (h : Attempt.Alike Eq a a') (program : String) :
    seen program a = seen program a' := by
  cases h with
  | ok alike => simp only [seen, alike.tape, alike.steps, alike.source, alike.sink]
  | error cause alike => cases cause <;> simp only [seen, alike.source, alike.sink]

theorem sight_conclude_ok (program : String) (before : List Event) (x : Execution ι Output)
    (m : Machine ι Output) : (conclude program before x m none).sight = seen program (.ok m) := rfl

theorem sight_conclude_error (program : String) (before : List Event) (x : Execution ι Output)
    (b : Breakdown ι Output) :
    (conclude program before x b.machine (some b.cause)).sight = seen program (.error b) := by
  obtain ⟨cause, m⟩ := b
  cases cause <;> rfl

/-- Brackets without a partner are told whatever the options are. -/
theorem begin_of_fault {text : String} {f : BracketFault}
    (h : (Program.ofString (Source.strip text)).resolve = .error f) (o : Options) (source : ι)
    (sink : Option Output) : begin text o source sink = .settled
      { result := .ok { ok := false, output := #[], error := some (.bracket f),
                        program := Source.strip text }
        source, sink := outermost sink, events := [.refused f] } := by
  simp only [begin, h]

/-! ### What can be seen -/

variable [ByteSource ι]

/-- What an interpretation can be seen to end with, however many rounds that takes. -/
def Shows (i : Interpretation ι) (v : Except Failure Result × ι × Output) : Prop :=
  ∃ n a, i.advance n = .settled a ∧ a.sight = v

variable {v : Except Failure Result × ι × Output}

theorem shows_settled_iff {a : Answer ι} : Shows (.settled a) v ↔ v = a.sight := by
  simp [Shows, advance, eq_comm]

theorem shows_working_iff {program : String} {before : List Event} {x : Execution ι Output} :
    Shows (.working program before x x.start) v ↔ ∃ a, x.Settles a ∧ seen program a = v := by
  constructor
  · rintro ⟨n, answer, h, rfl⟩
    cases hrun : x.advance n x.start with
    | running m => simp [advance, hrun] at h
    | finished m =>
        simp only [advance, hrun, settled.injEq] at h
        exact ⟨.ok m, ⟨n, hrun⟩, h ▸ (sight_conclude_ok ..).symm⟩
    | failed b =>
        simp only [advance, hrun, settled.injEq] at h
        exact ⟨.error b, ⟨n, hrun⟩, h ▸ (sight_conclude_error ..).symm⟩
  · rintro ⟨a, ⟨n, hrun⟩, rfl⟩
    rw [Execution.run] at hrun
    cases a with
    | ok m =>
        refine ⟨n, conclude program before x m none, ?_, sight_conclude_ok ..⟩
        simp only [advance, hrun, Progress.ofAttempt]
    | error b =>
        refine ⟨n, conclude program before x b.machine (some b.cause), ?_, sight_conclude_error ..⟩
        simp only [advance, hrun, Progress.ofAttempt]

variable {text : String} {o : Options} {e : Engine} {eof : EofPolicy} {links : Links} {source : ι}
  {sink : Option Output}

/-- On either engine, traced or not, a text whose brackets match is run in steps. -/
theorem shows_iff_settles (h : (Program.ofString (Source.strip text)).resolve = .ok links)
    (ho : o.Runnable e eof) : (begin text o source sink).Shows v ↔
      ∃ a, (o.machine eof ho.size source sink).Settles (o.job eof text links)
        (Machine.step (o.job eof text links)) a ∧ seen (Source.strip text) a = v := by
  obtain ⟨ps, rfl, hps⟩ : ∃ ps, links = .ofPairs ps ∧
      ∀ q ∈ ps, (Program.ofString (Source.strip text)).Admits q :=
    ⟨_, (Program.isMatching_of_resolve h).2, Program.admits_of_resolve h⟩
  obtain ⟨tape, htape, rfl⟩ := Execution.exists_blank (s := o.settings eof) ho.size
  have hengine : (if o.trace then .stepwise else e) = Engine.burst →
      Burst.Codable (.ofString (Source.strip text)) ∧ (o.settings eof).trace = false := by
    intro he
    cases htrace : o.trace with
    | true => simp [htrace] at he
    | false => exact ⟨Burst.codable_ofString _, htrace⟩
  obtain ⟨x, hx, hjob, hstart, hsettles⟩ := Execution.exists_ofLinks hengine hps htape source
    (outermost sink)
  obtain ⟨before, hbegin⟩ : ∃ before, begin text o source sink =
      .working (Source.strip text) before x x.start := by
    simp only [begin, h, ho.configure_eq, hx]
    exact ⟨_, rfl⟩
  rw [hbegin, shows_working_iff]
  simp only [hsettles, hjob, hstart]
  rfl

end Interpretation

end RingTape
