import RingTape.Proofs.Outcomes
import RingTape.Proofs.Supply
import RingTape.Proofs.Tracing

/-!
Delivery. A machine never looks at its sink. It hands bytes over to it, and with another sink, of
whatever kind, it hands over the same bytes and does the same otherwise (`Settles.exists_bytes`).

With this, nothing is left that the result of an interpretation could depend on but the source text,
the options that say what is to be done, and the answers to its reads (`yields_iff`): not the
engine, not the trace, not the kind of the source and not the sink.
-/

namespace RingTape

variable {ι κ κ' : Type}

/-! ### Another sink -/

def Machine.withSink (k : κ') (m : Machine ι κ) : Machine ι κ' where
  tape := m.tape
  ip := m.ip
  steps := m.steps
  tracing := m.tracing
  log := m.log
  source := m.source
  sink := k

namespace Attempt

def withSink (k : κ') : Attempt ι κ → Attempt ι κ'
  | .ok m => .ok (m.withSink k)
  | .error ⟨cause, m⟩ => .error ⟨cause, m.withSink k⟩

def sink (a : Attempt ι κ) : κ := (Progress.ofAttempt a).machine.sink

@[simp] theorem sink_withSink (k : κ') (a : Attempt ι κ) :
    Attempt.sink (Attempt.withSink k a) = k := by
  rcases a with ⟨cause, m⟩ | m <;> rfl

theorem sink_map_next (a : Attempt ι κ) : Attempt.sink (a.map Machine.next) = a.sink := by
  rcases a with ⟨cause, m⟩ | m <;> rfl

theorem withSink_map_next (k : κ') (a : Attempt ι κ) :
    Attempt.withSink k (a.map Machine.next) = (Attempt.withSink k a).map Machine.next := by
  rcases a with ⟨cause, m⟩ | m <;> rfl

end Attempt

namespace Machine

variable {m f : Machine ι κ} {j : Job} {s : Symbol} {n : Nat} {a : Attempt ι κ}

theorem note_withSink (k : κ') (m : Machine ι κ) (e : LogEntry) :
    (m.withSink k).note e = (m.note e).withSink k := by
  unfold note
  split <;> simp_all [withSink]

theorem jump_withSink (k : κ') (links : Std.TreeMap Int Int) :
    (m.withSink k).jump links s = Attempt.withSink k (m.jump links s) := by
  cases hl : links[m.ip]? with
  | none =>
      rw [jump_of_no_link hl, jump_of_no_link (m := m.withSink k) hl]
      rfl
  | some t =>
      rw [jump_of_link hl, jump_of_link (m := m.withSink k) hl]
      rfl

theorem readByte_withSink [ByteSource ι] (k : κ') (eof : EofPolicy) :
    (m.withSink k).readByte eof = Attempt.withSink k (m.readByte eof) := by
  simp only [readByte, withSink]
  split
  · rfl
  · rfl
  · split <;> rfl

def writes (s : Symbol) (m : Machine ι κ) : List UInt8 :=
  if s.command? = some .write then [m.tape.current] else []

variable [ByteSource ι] [ByteSink κ] [ByteSink κ']

theorem execute_withSink (k : κ') : (m.withSink k).execute j s =
    Attempt.withSink (ByteSink.writeAll k (m.writes s)) (m.execute j s) := by
  cases hc : s.command? with
  | none =>
      simp only [execute, writes, hc]
      rfl
  | some o =>
      cases o <;> simp only [execute, writes, hc]
      case read => exact readByte_withSink k j.eof
      case openLoop =>
        by_cases hz : m.tape.current = 0
        · rw [if_pos hz, if_pos (show (m.withSink k).tape.current = 0 from hz)]
          exact jump_withSink k j.links.forward
        · rw [if_neg hz, if_neg (show ¬ (m.withSink k).tape.current = 0 from hz)]
          rfl
      case closeLoop =>
        by_cases hz : m.tape.current = 0
        · rw [if_pos hz, if_pos (show (m.withSink k).tape.current = 0 from hz)]
          rfl
        · rw [if_neg hz, if_neg (show ¬ (m.withSink k).tape.current = 0 from hz)]
          exact jump_withSink k j.links.backward
      all_goals rfl

theorem sink_execute :
    Attempt.sink (m.execute j s) = ByteSink.writeAll m.sink (m.writes s) := by
  have hself : m.execute j s =
      Attempt.withSink (ByteSink.writeAll m.sink (m.writes s)) (m.execute j s) :=
    execute_withSink m.sink
  rw [hself, Attempt.sink_withSink]

variable (κ')

/-- A step hands the same bytes over to any sink. -/
theorem exists_bytes_step (j : Job) (m : Machine ι κ) : ∃ bs,
    Attempt.sink (m.step j) = ByteSink.writeAll m.sink bs ∧ ∀ k : κ',
      (m.withSink k).step j = Attempt.withSink (ByteSink.writeAll k bs) (m.step j) := by
  cases hl : j.spent m.steps with
  | true =>
      refine ⟨[], by rw [step_of_spent hl]; rfl, fun k => ?_⟩
      rw [step_of_spent hl, step_of_spent (m := m.withSink k) hl]
      rfl
  | false =>
      cases hf : j.program.fetch? m.ip with
      | none =>
          refine ⟨[], by rw [step_of_no_symbol hl hf]; rfl, fun k => ?_⟩
          rw [step_of_no_symbol hl hf, step_of_no_symbol (m := m.withSink k) hl hf]
          rfl
      | some s =>
          refine ⟨(m.note (m.entry s)).writes s, ?_, fun k => ?_⟩
          · rw [step_of_symbol hl hf, Attempt.sink_map_next, sink_execute, sink_note]
          · rw [step_of_symbol hl hf, step_of_symbol (m := m.withSink k) hl hf, note_withSink,
              Attempt.withSink_map_next]
            exact congrArg (Except.map next) (execute_withSink k)

theorem Reaches.exists_bytes (h : Reaches j (step j) n m f) : ∃ bs,
    f.sink = ByteSink.writeAll m.sink bs ∧ ∀ k : κ',
      Reaches j (step j) n (m.withSink k) (f.withSink (ByteSink.writeAll k bs)) := by
  induction h with
  | refl m => exact ⟨[], rfl, fun k => .refl _⟩
  | @head n m m' f pending worked _ ih =>
      obtain ⟨bs, hsink, hstep⟩ := exists_bytes_step κ' j m
      obtain ⟨cs, hsink', hrun⟩ := ih
      rw [worked] at hsink hstep
      refine ⟨bs ++ cs, ?_, fun k => ?_⟩
      · rw [ByteSink.writeAll_append, ← hsink]
        exact hsink'
      · rw [ByteSink.writeAll_append]
        exact .head pending (hstep k) (hrun _)

/-- A run hands the same bytes over to any sink and ends alike. -/
theorem Settles.exists_bytes (h : Settles j (step j) m a) : ∃ bs,
    Attempt.sink a = ByteSink.writeAll m.sink bs ∧ ∀ k : κ',
      Settles j (step j) (m.withSink k) (Attempt.withSink (ByteSink.writeAll k bs) a) := by
  cases h with
  | finished run done =>
      obtain ⟨bs, hsink, hrun⟩ := run.exists_bytes κ'
      exact ⟨bs, hsink, fun k => .finished (hrun k) done⟩
  | @failed n g b run pending broken =>
      obtain ⟨bs, hsink, hrun⟩ := run.exists_bytes κ'
      obtain ⟨cs, hsink', hstep⟩ := exists_bytes_step κ' j g
      rw [broken] at hsink' hstep
      refine ⟨bs ++ cs, ?_, fun k => ?_⟩
      · rw [ByteSink.writeAll_append, ← hsink]
        exact hsink'
      · rw [ByteSink.writeAll_append]
        exact .failed (hrun k) pending (hstep _)

end Machine

namespace Output

theorem bytes_outermost (given : Option Output) : (Interpretation.outermost given).bytes = #[] := by
  cases given <;> rfl

/-- A sink in use holds what it has been given. -/
theorem bytes_writeAll_outermost (given : Option Output) (bs : List UInt8) :
    (ByteSink.writeAll (Interpretation.outermost given) bs).bytes = bs.toArray := by
  apply Array.toList_inj.1
  rw [bytes_writeAll, bytes_outermost]
  rfl

theorem textOfBytes_push (bytes : Array UInt8) (b : UInt8) :
    textOfBytes (bytes.push b) = (textOfBytes bytes).push (byteChar b) := by
  apply String.toList_inj.1
  simp [textOfBytes]

/-- A stream holds the characters of the bytes that it has been given. -/
theorem writeAll_stream (bytes : Array UInt8) (bs : List UInt8) :
    ByteSink.writeAll (stream bytes (textOfBytes bytes)) bs =
      stream (bytes ++ bs.toArray) (textOfBytes (bytes ++ bs.toArray)) := by
  induction bs generalizing bytes with
  | nil => simp [ByteSink.writeAll]
  | cons b bs ih =>
      have hwrite : write (stream bytes (textOfBytes bytes)) b.toNat =
          stream (bytes.push b) (textOfBytes (bytes.push b)) := by
        rw [write, ofInt_toNat, textOfBytes_push]
      show ByteSink.writeAll (write (stream bytes (textOfBytes bytes)) b.toNat) bs = _
      rw [hwrite, ih]
      simp

theorem writeAll_emptyStream (bytes : Array UInt8) :
    ByteSink.writeAll emptyStream bytes.toList = stream bytes (textOfBytes bytes) := by
  have hempty : emptyStream = stream #[] (textOfBytes #[]) := rfl
  rw [hempty, writeAll_stream]
  simp

end Output

/-! ### Results -/

def Result.refused (text : String) (f : BracketFault) : Result where
  ok := false
  output := #[]
  error := some (.bracket f)
  program := Source.strip text

namespace Interpretation

variable {text : String} {o : Options} {eof : EofPolicy} {given given' : Option Output}
  {result : Except Failure Result}

theorem result_withSource (q : κ) (program : String) (a : Attempt ι Output) :
    (seen program (Attempt.withSource q a)).1 = (seen program a).1 := by
  rcases a with ⟨_ | _, m⟩ | m <;> rfl

theorem result_withSink {k : Output} {a : Attempt ι Output} (h : k.bytes = (Attempt.sink a).bytes)
    (program : String) : (seen program (Attempt.withSink k a)).1 = (seen program a).1 := by
  rcases a with ⟨cause, m⟩ | m
  · replace h : k.bytes = m.sink.bytes := h
    cases cause <;> simp [Attempt.withSink, Machine.withSink, seen, h]
  · replace h : k.bytes = m.sink.bytes := h
    simp [Attempt.withSink, Machine.withSink, seen, h]

variable [ByteSource ι] {ι' : Type} [ByteSource ι'] {S : ι → ι' → Prop} {source : ι} {source' : ι'}

/-- The interpretation comes to this result, whatever it leaves of its source and its sink. -/
def Yields (i : Interpretation ι) (result : Except Failure Result) : Prop :=
  ∃ source sink, i.Shows (result, source, sink)

theorem shows_iff_of_fault {f : BracketFault} {v : Except Failure Result × ι × Output}
    (h : (Program.ofString (Source.strip text)).resolve = .error f) :
    (begin text o source given).Shows v ↔ v = (.ok (.refused text f), source, outermost given) := by
  rw [begin_of_fault h, shows_settled_iff]
  rfl

/-- What a sink in use has been given is the output of the result. -/
theorem bytes_of_shows {r : Result} {sink : Output} {source₁ : ι} {e : Engine}
    (ho : o.Runnable e eof) (h : (begin text o source given).Shows (.ok r, source₁, sink)) :
    sink.bytes = r.output := by
  cases hp : (Program.ofString (Source.strip text)).resolve with
  | error f =>
      obtain ⟨hr, -, rfl⟩ := by simpa only [Prod.mk.injEq] using (shows_iff_of_fault hp).1 h
      obtain rfl := Except.ok.inj hr
      exact Output.bytes_outermost given
  | ok links =>
      obtain ⟨a, -, hseen⟩ := (shows_iff_settles hp ho).1 h
      rcases a with ⟨_ | _, m⟩ | m
      all_goals simp only [seen, Prod.mk.injEq, Except.ok.injEq, reduceCtorEq, false_and] at hseen
      all_goals
        obtain ⟨rfl, -, rfl⟩ := hseen
        rfl

theorem yields_of_yields (heof : EofPolicy.ofScalar? o.eof = some eof) (hsize : 1 ≤ o.tapeSize)
    (hS : ByteSource.AnswerAlike eof S) (hq : S source source') (e e' : Engine) (t t' : Bool)
    (h : (begin text (o.on e t) source given).Yields result) :
    (begin text (o.on e' t') source' given').Yields result := by
  obtain ⟨source₁, sink₁, h⟩ := h
  cases hp : (Program.ofString (Source.strip text)).resolve with
  | error f =>
      obtain ⟨rfl, -⟩ := Prod.mk.inj ((shows_iff_of_fault hp).1 h)
      exact ⟨source', outermost given', (shows_iff_of_fault hp).2 rfl⟩
  | ok links =>
      -- from one interpretation to the other in three steps: the engine and the trace, the source,
      -- and the sink
      have hon := shows_of_shows hp heof hsize e e' t t' h
      obtain ⟨a, ha, hseen⟩ := (shows_iff_settles hp (o.runnable_on heof hsize e' t')).1 hon
      obtain ⟨r, -, hsource⟩ := ha.exists_withSource hS hq
      obtain ⟨bs, hbs, hsink⟩ := hsource.exists_bytes Output
      have hbytes : (ByteSink.writeAll (outermost given') bs).bytes =
          (Attempt.sink (Attempt.withSource r a)).bytes := by
        rw [hbs, Output.bytes_writeAll_outermost]
        exact (Output.bytes_writeAll_outermost given bs).symm
      refine ⟨_, _, (shows_iff_settles hp (o.runnable_on heof hsize e' t')).2
        ⟨_, hsink (outermost given'), Prod.ext ?_ rfl⟩⟩
      rw [result_withSink hbytes, result_withSource]
      exact congrArg Prod.fst hseen

/-- The result depends on nothing but the text, the options that say what is to be done, and the
answers to the reads. -/
theorem yields_iff (heof : EofPolicy.ofScalar? o.eof = some eof) (hsize : 1 ≤ o.tapeSize)
    (hS : ByteSource.AnswerAlike eof S) (hq : S source source') (e e' : Engine) (t t' : Bool) :
    (begin text (o.on e t) source given).Yields result ↔
      (begin text (o.on e' t') source' given').Yields result :=
  ⟨yields_of_yields heof hsize hS hq e e' t t',
    yields_of_yields heof hsize hS.symm hq e' e t' t⟩

end Interpretation

end RingTape
