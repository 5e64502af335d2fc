import RingTape.Proofs.Batches
import RingTape.Proofs.Lockstep

/-!
Supplies. A machine looks at its source only where it reads, and then at nothing but the answer: the
byte that is stored, that nothing is stored, or that the read has failed. So a machine can be given
another source, of whatever kind, and goes on as before as long as its reads are answered as before.
At the end of the input the answer is the policy's, which may therefore be another one, too.

Two lemmas say this of a step, one for the steps that read and one for all the others, and it is no
different for a burst. A run on sources that are always answered alike follows at once, in steps
(`Settles.exists_withSource`) and on any engine under any links (`setUpAlike_ofLinks`). Where the
answers are alike only along one run, the two lemmas are used step by step.
-/

namespace RingTape

open Text (CodecError)

variable {ι ι' κ : Type}

/-! ### Another source -/

def Machine.withSource (q : ι') (m : Machine ι κ) : Machine ι' κ where
  tape := m.tape
  ip := m.ip
  steps := m.steps
  tracing := m.tracing
  log := m.log
  source := q
  sink := m.sink

def Attempt.withSource (q : ι') : Attempt ι κ → Attempt ι' κ
  | .ok m => .ok (m.withSource q)
  | .error ⟨cause, m⟩ => .error ⟨cause, m.withSource q⟩

def Attempt.source (a : Attempt ι κ) : ι := (Progress.ofAttempt a).machine.source

def Job.withEof (j : Job) (eof : EofPolicy) : Job := { j with eof }

def Settings.withEof (s : Settings) (eof : EofPolicy) : Settings := { s with eof }

namespace Attempt

@[simp] theorem source_withSource (q : ι') (a : Attempt ι κ) :
    Attempt.source (Attempt.withSource q a) = q := by
  rcases a with ⟨cause, m⟩ | m <;> rfl

theorem source_map_next (a : Attempt ι κ) : Attempt.source (a.map Machine.next) = a.source := by
  rcases a with ⟨cause, m⟩ | m <;> rfl

theorem withSource_map_next (q : ι') (a : Attempt ι κ) :
    Attempt.withSource q (a.map Machine.next) = (Attempt.withSource q a).map Machine.next := by
  rcases a with ⟨cause, m⟩ | m <;> rfl

end Attempt

/-! ### Working alike -/

section Working

variable {S : ι → ι' → Prop} {j : Job} {work : Machine ι κ → Attempt ι κ}
  {work' : Machine ι' κ → Attempt ι' κ} {m f : Machine ι κ} {q' : ι'} {n : Nat} {a : Attempt ι κ}

namespace Machine

/-- On related sources the two ways of working do the same, and leave related sources. -/
def WorkAlike (S : ι → ι' → Prop) (work : Machine ι κ → Attempt ι κ)
    (work' : Machine ι' κ → Attempt ι' κ) : Prop :=
  ∀ m q', S m.source q' → ∃ r', S (Attempt.source (work m)) r' ∧
    work' (m.withSource q') = Attempt.withSource r' (work m)

theorem Reaches.exists_of_workAlike (hw : WorkAlike S work work') (hq : S m.source q')
    (h : Reaches j work n m f) :
    ∃ r', S f.source r' ∧ Reaches j work' n (m.withSource q') (f.withSource r') := by
  induction h generalizing q' with
  | refl m => exact ⟨q', hq, .refl _⟩
  | head pending worked _ ih =>
      obtain ⟨r, hr, hstep⟩ := hw _ _ hq
      rw [worked] at hr hstep
      obtain ⟨r', hr', hrun⟩ := ih hr
      exact ⟨r', hr', .head pending hstep hrun⟩

theorem Settles.exists_of_workAlike (hw : WorkAlike S work work') (hq : S m.source q')
    (h : Settles j work m a) : ∃ r', S (Attempt.source a) r' ∧
      Settles j work' (m.withSource q') (Attempt.withSource r' a) := by
  cases h with
  | finished run done =>
      obtain ⟨r', hr', hrun⟩ := run.exists_of_workAlike hw hq
      exact ⟨r', hr', .finished hrun done⟩
  | failed run pending broken =>
      obtain ⟨r, hr, hrun⟩ := run.exists_of_workAlike hw hq
      obtain ⟨r', hr', hstep⟩ := hw _ _ hr
      rw [broken] at hr' hstep
      exact ⟨r', hr', .failed hrun pending hstep⟩

end Machine

end Working

/-! ### Answers to reads -/

/-- The answer to a read under a policy for the end of the input: the byte to be stored, if any, and
the source that is left. -/
def ByteSource.answer [ByteSource ι] (eof : EofPolicy) (source : ι) :
    Except CodecError (Option UInt8) × ι :=
  match read source with
  | (.ok none, q) => (.ok eof.value?, q)
  | answered => answered

namespace Machine

variable {m : Machine ι κ} {j : Job} {s : Symbol} {eof : EofPolicy} {q : ι'}

section Reading

variable [ByteSource ι] [ByteSource ι']

/-- Reading looks at the answer alone. -/
theorem readByte_eq (eof : EofPolicy) (m : Machine ι κ) : m.readByte eof =
    match ByteSource.answer eof m.source with
    | (.error e, q) => (m.withSource q).fail (.codec e)
    | (.ok v, q) => .ok { m.withSource q with tape := v.elim m.tape m.tape.put } := by
  unfold readByte ByteSource.answer
  split
  · rename_i h
    simp only [h]
    rfl
  · rename_i h
    simp only [h]
    rfl
  · rename_i h
    simp only [h]
    split <;> rename_i hv <;> simp only [hv] <;> rfl

theorem readByte_withSource {r : ι} {r' : ι'} {v : Except CodecError (Option UInt8)}
    (h : ByteSource.answer eof m.source = (v, r)) {eof' : EofPolicy}
    (h' : ByteSource.answer eof' q = (v, r')) :
    Attempt.source (m.readByte eof) = r ∧
      (m.withSource q).readByte eof' = Attempt.withSource r' (m.readByte eof) := by
  rw [readByte_eq, readByte_eq, h, show ByteSource.answer eof' (m.withSource q).source = _ from h']
  cases v <;> exact ⟨rfl, rfl⟩

end Reading

/-! ### Steps -/

theorem note_withSource (q : ι') (m : Machine ι κ) (e : LogEntry) :
    (m.withSource q).note e = (m.note e).withSource q := by
  unfold note
  split <;> simp_all [withSource]

theorem jump_withSource (q : ι') (links : Std.TreeMap Int Int) :
    (m.withSource q).jump links s = Attempt.withSource q (m.jump links s) := by
  cases hl : links[m.ip]? with
  | none =>
      rw [jump_of_no_link hl, jump_of_no_link (m := m.withSource q) hl]
      rfl
  | some t =>
      rw [jump_of_link hl, jump_of_link (m := m.withSource q) hl]
      rfl

variable [ByteSource ι] [ByteSource ι'] [ByteSink κ]

/-- No symbol looks at the source but the one that reads. -/
theorem execute_withSource (h : s.command? ≠ some .read) (eof : EofPolicy) (q : ι') :
    (m.withSource q).execute (j.withEof eof) s = Attempt.withSource q (m.execute j s) := by
  cases hc : s.command? with
  | none =>
      simp only [execute, hc]
      rfl
  | some o =>
      cases o <;> simp only [execute, hc]
      case read => exact absurd hc h
      case openLoop =>
        by_cases hz : m.tape.current = 0
        · rw [if_pos hz, if_pos (show (m.withSource q).tape.current = 0 from hz)]
          exact jump_withSource q j.links.forward
        · rw [if_neg hz, if_neg (show ¬ (m.withSource q).tape.current = 0 from hz)]
          rfl
      case closeLoop =>
        by_cases hz : m.tape.current = 0
        · rw [if_pos hz, if_pos (show (m.withSource q).tape.current = 0 from hz)]
          rfl
        · rw [if_neg hz, if_neg (show ¬ (m.withSource q).tape.current = 0 from hz)]
          exact jump_withSource q j.links.backward
      all_goals rfl

theorem source_execute (h : s.command? ≠ some .read) :
    Attempt.source (m.execute j s) = m.source := by
  have hself : m.execute j s = Attempt.withSource m.source (m.execute j s) :=
    execute_withSource h j.eof m.source
  rw [hself, Attempt.source_withSource]

/-- A step that does not read is the same with any source and any policy. -/
theorem step_withSource (h : m.nextCommand? j ≠ some .read) (eof : EofPolicy) (q : ι') :
    Attempt.source (m.step j) = m.source ∧
      (m.withSource q).step (j.withEof eof) = Attempt.withSource q (m.step j) := by
  cases hl : j.spent m.steps with
  | true =>
      rw [step_of_spent hl, step_of_spent (j := j.withEof eof) (m := m.withSource q) hl]
      exact ⟨rfl, rfl⟩
  | false =>
      cases hf : j.program.fetch? m.ip with
      | none =>
          rw [step_of_no_symbol hl hf,
            step_of_no_symbol (j := j.withEof eof) (m := m.withSource q) hl hf]
          exact ⟨rfl, rfl⟩
      | some s =>
          have hc : s.command? ≠ some .read := by rwa [← nextCommand?_of_symbol hl hf]
          rw [step_of_symbol hl hf,
            step_of_symbol (j := j.withEof eof) (m := m.withSource q) hl hf, note_withSource]
          constructor
          · rw [Attempt.source_map_next, source_execute hc, source_note]
          · rw [Attempt.withSource_map_next]
            exact congrArg (Except.map next) (execute_withSource hc eof q)

/-- A step that reads is the same with any source that gives the same answer. -/
theorem step_withSource_of_answer (h : m.nextCommand? j = some .read) {r : ι} {r' : ι'}
    {v : Except CodecError (Option UInt8)} (hm : ByteSource.answer j.eof m.source = (v, r))
    (hq : ByteSource.answer eof q = (v, r')) :
    Attempt.source (m.step j) = r ∧
      (m.withSource q).step (j.withEof eof) = Attempt.withSource r' (m.step j) := by
  obtain ⟨hl, s, hf, hc⟩ := exists_symbol_of_nextCommand? h
  have hnote : ByteSource.answer j.eof (m.note (m.entry s)).source = (v, r) := by rwa [source_note]
  obtain ⟨hsource, heq⟩ := readByte_withSource hnote hq
  have hexecute : (m.note (m.entry s)).execute j s = (m.note (m.entry s)).readByte j.eof := by
    simp only [execute, hc]
  have hexecute' : ((m.note (m.entry s)).withSource q).execute (j.withEof eof) s =
      ((m.note (m.entry s)).withSource q).readByte eof := by
    simp only [execute, hc]
    rfl
  rw [step_of_symbol hl hf, step_of_symbol (j := j.withEof eof) (m := m.withSource q) hl hf,
    note_withSource, hexecute]
  constructor
  · rw [Attempt.source_map_next, hsource]
  · rw [Attempt.withSource_map_next]
    exact congrArg (Except.map next) (hexecute'.trans heq)

end Machine

/-! ### Bursts -/

namespace Burst

variable {m m' : Machine ι κ} {g : Registers} {k : Nat}

theorem checkLimit_withSource (j : Job) (m : Machine ι κ) (q : ι') :
    (m.withSource q).checkLimit j = Attempt.withSource q (m.checkLimit j) := by
  cases hl : j.spent m.steps with
  | true =>
      rw [Machine.checkLimit_of_spent hl, Machine.checkLimit_of_spent (m := m.withSource q) hl]
      rfl
  | false =>
      rw [Machine.checkLimit_of_not_spent hl,
        Machine.checkLimit_of_not_spent (m := m.withSource q) hl]
      rfl

theorem store_withSource (m : Machine ι κ) (r : Registers) (steps : Nat) (q : ι') :
    store (m.withSource q) r steps = (store m r steps).map (Machine.withSource q) := by
  unfold store
  split <;> rfl

end Burst

/-! ### Runs on sources that are answered alike -/

/-- Related sources are answered alike, and what is left of them is related again. -/
def ByteSource.AnswerAlike [ByteSource ι] [ByteSource ι'] (eof : EofPolicy) (S : ι → ι' → Prop) :
    Prop :=
  ∀ q q', S q q' → ∃ v r r', answer eof q = (v, r) ∧ answer eof q' = (v, r') ∧ S r r'

theorem ByteSource.AnswerAlike.symm [ByteSource ι] [ByteSource ι'] {eof : EofPolicy}
    {S : ι → ι' → Prop} (hS : AnswerAlike eof S) : AnswerAlike eof fun q' q => S q q' := by
  intro q' q hq
  obtain ⟨v, r, r', h, h', hr⟩ := hS q q' hq
  exact ⟨v, r', r, h', h, hr⟩

variable [ByteSource ι] [ByteSource ι'] [ByteSink κ] {S : ι → ι' → Prop} {q : ι} {q' : ι'}

namespace Machine

variable {m f : Machine ι κ} {j : Job} {n : Nat} {a : Attempt ι κ}

theorem exists_step_withSource (hS : ByteSource.AnswerAlike j.eof S) (hq : S m.source q') :
    ∃ r', S (Attempt.source (m.step j)) r' ∧
      (m.withSource q').step j = Attempt.withSource r' (m.step j) := by
  by_cases h : m.nextCommand? j = some .read
  · obtain ⟨v, r, r', hm, hr, hS'⟩ := hS _ _ hq
    obtain ⟨hsource, hstep⟩ := step_withSource_of_answer h hm hr
    exact ⟨r', hsource ▸ hS', hstep⟩
  · obtain ⟨hsource, hstep⟩ := step_withSource h j.eof q'
    exact ⟨q', hsource ▸ hq, hstep⟩

theorem workAlike_step (hS : ByteSource.AnswerAlike j.eof S) :
    WorkAlike (κ := κ) S (step j) (step j) :=
  fun _ _ hq => exists_step_withSource hS hq

/-- A run in steps on a source that is answered alike ends alike. -/
theorem Settles.exists_withSource (hS : ByteSource.AnswerAlike j.eof S) (hq : S m.source q')
    (h : Settles j (step j) m a) : ∃ r', S (Attempt.source a) r' ∧
      Settles j (step j) (m.withSource q') (Attempt.withSource r' a) :=
  h.exists_of_workAlike (workAlike_step hS) hq

end Machine

namespace Burst

variable {m : Machine ι κ} {j : Job}

/-- The only burst whose answer looks at the source is one that stops in front of a read. -/
theorem exists_answer_withSource (hS : ByteSource.AnswerAlike j.eof S) (stop : Stop)
    (hq : S m.source q') : ∃ r', S (Attempt.source (answer j stop m)) r' ∧
      answer j stop (m.withSource q') = Attempt.withSource r' (answer j stop m) := by
  cases stop with
  | ended | budget | stray => exact ⟨q', hq, rfl⟩
  | output =>
      refine ⟨q', ?_, ?_⟩
      · simp only [answer]
        cases hl : j.spent m.steps with
        | true =>
            rw [Machine.checkLimit_of_spent hl]
            exact hq
        | false =>
            rw [Machine.checkLimit_of_not_spent hl]
            exact hq
      · simp only [answer, checkLimit_withSource]
        cases m.checkLimit j <;> rfl
  | input =>
      cases hl : j.spent m.steps with
      | true =>
          simp only [answer, Machine.checkLimit_of_spent hl,
            Machine.checkLimit_of_spent (m := m.withSource q') hl]
          exact ⟨q', hq, rfl⟩
      | false =>
          obtain ⟨v, r, r', hm, hr, hS'⟩ := hS _ _ hq
          obtain ⟨hsource, hread⟩ := Machine.readByte_withSource hm hr
          simp only [answer, Machine.checkLimit_of_not_spent hl,
            Machine.checkLimit_of_not_spent (m := m.withSource q') hl]
          refine ⟨r', ?_, ?_⟩
          · show S (Attempt.source ((m.readByte j.eof).map Machine.next)) r'
            rw [Attempt.source_map_next, hsource]
            exact hS'
          · rw [Attempt.withSource_map_next]
            exact congrArg (Except.map Machine.next) hread
  | unlinked =>
      rw [answer, answer, show (m.withSource q').ip = m.ip from rfl]
      cases j.program.fetch? m.ip <;> exact ⟨q', hq, rfl⟩

theorem workAlike_round (hS : ByteSource.AnswerAlike j.eof S) (r : Prepared) (batch : Nat) :
    Machine.WorkAlike (κ := κ) S (round j r batch) (round j r batch) := by
  intro m q' hq
  cases hl : j.spent m.steps with
  | true =>
      rw [round_of_spent hl, round_of_spent (m := m.withSource q') hl]
      exact ⟨q', hq, rfl⟩
  | false =>
      have hload : load (m.withSource q') = load m := rfl
      rw [round_of_not_spent hl, round_of_not_spent (m := m.withSource q') hl]
      simp only [burst, hload, store_withSource, show (m.withSource q').steps = m.steps from rfl]
      cases hstore : store m _ _ with
      | none => exact ⟨q', hq, rfl⟩
      | some f =>
          refine exists_answer_withSource hS _ ?_
          rwa [source_of_store hstore]

end Burst

def Worker.round (w : Worker) (j : Job) : Machine ι κ → Attempt ι κ :=
  match w with
  | .stepwise => Machine.step j
  | .burst r => Burst.round j r Burst.batchSize

theorem Worker.workAlike_round {j : Job} (hS : ByteSource.AnswerAlike j.eof S) (w : Worker) :
    Machine.WorkAlike (κ := κ) S (w.round j) (w.round j) := by
  cases w with
  | stepwise => exact Machine.workAlike_step hS
  | burst r => exact Burst.workAlike_round hS r Burst.batchSize

namespace Execution

theorem settles_iff {x : Execution ι κ} {a : Attempt ι κ} :
    x.Settles a ↔ x.start.Settles x.job (x.worker.round x.job) a := by
  cases h : x.worker with
  | stepwise => exact settles_stepwise_iff h
  | burst r => exact settles_burst_iff h

/-- The two runs end alike or go on for ever: nothing differs between the machines that they leave
but the sources. -/
structure AlikeButSource (x : Execution ι κ) (y : Execution ι' κ) : Prop where
  forth {a : Attempt ι κ} : x.Settles a → ∃ r', y.Settles (Attempt.withSource r' a)
  back {a : Attempt ι' κ} : y.Settles a → ∃ r, x.Settles (Attempt.withSource r a)

variable {p : Program} {links : Links} {s : Settings} {e : Engine}

/-- On either engine a program whose brackets match is run in steps. -/
theorem exists_of_resolve (hp : p.resolve = .ok links) (hsize : 1 ≤ s.tapeSize)
    (he : e = .burst → Burst.Codable p ∧ s.trace = false) (source : ι) (sink : κ) :
    ∃ x, ofLinks e s p links source sink = .ok x ∧ x.job = jobOf s p links ∧
      x.start = startOf s (.blank s.tapeSize.toNat (Int.lt_toNat.2 hsize)) source sink ∧
      ∀ a, x.Settles a ↔ x.start.Settles x.job (Machine.step x.job) a := by
  obtain ⟨ps, rfl, hps⟩ : ∃ ps, links = .ofPairs ps ∧ ∀ q ∈ ps, p.Admits q :=
    ⟨_, (Program.isMatching_of_resolve hp).2, Program.admits_of_resolve hp⟩
  obtain ⟨tape, htape, rfl⟩ := exists_blank hsize
  exact exists_ofLinks he hps htape source sink

/-- The same work on sources that are answered alike. -/
theorem AlikeButSource.of_start (j : Job) (w : Worker) (m : Machine ι κ)
    (hS : ByteSource.AnswerAlike j.eof S) (hq : S m.source q') :
    AlikeButSource ⟨j, w, m⟩ ⟨j, w, m.withSource q'⟩ where
  forth ha := by
    obtain ⟨r', -, h⟩ := (settles_iff.1 ha).exists_of_workAlike (w.workAlike_round hS) hq
    exact ⟨r', settles_iff.2 h⟩
  back ha := by
    obtain ⟨r, -, h⟩ := (settles_iff.1 ha).exists_of_workAlike (w.workAlike_round hS.symm) hq
    exact ⟨r, settles_iff.2 h⟩

inductive SetUpAlike : Except Failure (Execution ι κ) → Except Failure (Execution ι' κ) → Prop
  | refused (f : Failure) : SetUpAlike (.error f) (.error f)
  | alike {x : Execution ι κ} {y : Execution ι' κ} (h : x.AlikeButSource y) :
      SetUpAlike (.ok x) (.ok y)

theorem SetUpAlike.exists_ok {r : Except Failure (Execution ι κ)} {y : Execution ι' κ}
    (h : SetUpAlike r (.ok y)) : ∃ x, r = .ok x ∧ x.AlikeButSource y := by
  cases h with
  | alike h => exact ⟨_, rfl, h⟩

/-- On sources that are answered alike every program runs alike, under whatever links, or cannot be
run at all. -/
theorem setUpAlike_ofLinks (e : Engine) (s : Settings) (p : Program) (links : Links)
    (hS : ByteSource.AnswerAlike s.eof S) (hq : S q q') (sink : κ) :
    SetUpAlike (ofLinks e s p links q sink) (ofLinks e s p links q' sink) := by
  unfold ofLinks
  cases Tape.blank? s.tapeSize with
  | none => exact .refused _
  | some tape =>
      cases Worker.prepare e p links with
      | error f => exact .refused f
      | ok w => exact .alike (.of_start (jobOf s p links) w (startOf s tape q sink) hS hq)

theorem setUpAlike_ofOptions (e : Engine) (o : Options) (p : Program) (links : Option Links)
    (hS : ∀ eof, ByteSource.AnswerAlike eof S) (hq : S q q') (sink : κ) :
    SetUpAlike (ofOptions e o p links q sink) (ofOptions e o p links q' sink) := by
  have hset (links : Links) :
      SetUpAlike ((e.configure o).mapError Failure.setup >>= fun s => ofLinks e s p links q sink)
        ((e.configure o).mapError Failure.setup >>= fun s => ofLinks e s p links q' sink) := by
    cases (e.configure o).mapError Failure.setup with
    | error f => exact .refused f
    | ok s => exact setUpAlike_ofLinks e s p links (hS s.eof) hq sink
  unfold ofOptions
  cases links with
  | some links => exact hset links
  | none =>
      cases p.resolve with
      | error f => exact .refused _
      | ok links => exact hset links

/-- On sources that are answered alike a program runs alike, on either engine. -/
theorem exists_alikeButSource (hp : p.resolve = .ok links) (hsize : 1 ≤ s.tapeSize)
    (he : e = .burst → Burst.Codable p ∧ s.trace = false)
    (hS : ByteSource.AnswerAlike s.eof S) (hq : S q q') (sink : κ) :
    ∃ x y, ofLinks e s p links q sink = .ok x ∧ ofLinks e s p links q' sink = .ok y ∧
      x.AlikeButSource y := by
  obtain ⟨y, hy, -⟩ := exists_of_resolve hp hsize he q' sink
  have halike := setUpAlike_ofLinks e s p links hS hq sink
  rw [hy] at halike
  obtain ⟨x, hx, h⟩ := halike.exists_ok
  exact ⟨x, y, hx, hy, h⟩

end Execution

end RingTape
