import RingTape.Proofs.Limit
import RingTape.Proofs.Lockstep

/-!
Steps that fail. There are four ways in which a step can fail, and `Fails` lists them in the order
in which a step comes upon them, each with the machine that it leaves: the steps are spent, nothing
stands at the place, a bracket has to jump and is linked to no place, or the source fails. The first
two come before anything is done at all; the others come behind the log entry and before anything
else. So a step that fails has changed nothing on the machine but its log and, if a read has failed,
its source, and can be done again once the cause is out of the way.
-/

namespace RingTape

def Job.withLinks (j : Job) (links : Links) : Job := { j with links }

/-- The links and one more, which leads from `place` to `target`, in the direction in which a
bracket `s` jumps. -/
def Links.join (l : Links) (s : Symbol) (place target : Int) : Links :=
  if s = .closing then l.add target place else l.add place target

namespace Links

variable {l : Links} {place target : Int}

theorem getElem?_forward_join : (l.join .opening place target).forward[place]? = some target := by
  rw [join, if_neg Symbol.opening_ne_closing, getElem?_forward_add, if_pos rfl]

theorem getElem?_backward_join :
    (l.join .closing place target).backward[place]? = some target := by
  rw [join, if_pos rfl, getElem?_backward_add, if_pos rfl]

end Links

namespace Machine

variable {ι κ : Type} {j : Job} {m g : Machine ι κ} {s : Symbol} {b : Breakdown ι κ}

inductive Stuck (j : Job) (m : Machine ι κ) : Symbol → Prop
  | opening (zero : m.tape.current = 0) (missing : j.links.forward[m.ip]? = none) :
      Stuck j m .opening
  | closing (nonzero : m.tape.current ≠ 0) (missing : j.links.backward[m.ip]? = none) :
      Stuck j m .closing

theorem stuck_iff : m.Stuck j s ↔
    s = .opening ∧ m.tape.current = 0 ∧ j.links.forward[m.ip]? = none ∨
      s = .closing ∧ m.tape.current ≠ 0 ∧ j.links.backward[m.ip]? = none := by
  constructor
  · intro h
    cases h with
    | opening zero missing => exact Or.inl ⟨rfl, zero, missing⟩
    | closing nonzero missing => exact Or.inr ⟨rfl, nonzero, missing⟩
  · rintro (⟨rfl, zero, missing⟩ | ⟨rfl, nonzero, missing⟩)
    · exact .opening zero missing
    · exact .closing nonzero missing

theorem stuck_note (e : LogEntry) : (m.note e).Stuck j s ↔ m.Stuck j s := by
  simp only [stuck_iff, tape_note, ip_note]

/-- Nothing differs between the machines but their logs and sources. -/
structure Untouched (m g : Machine ι κ) : Prop where
  tape : g.tape = m.tape
  ip : g.ip = m.ip
  steps : g.steps = m.steps
  tracing : g.tracing = m.tracing
  sink : g.sink = m.sink

theorem untouched_note (m : Machine ι κ) (e : LogEntry) : m.Untouched (m.note e) :=
  ⟨tape_note m e, ip_note m e, steps_note m e, tracing_note m e, sink_note m e⟩

theorem log_note (m : Machine ι κ) (e : LogEntry) :
    (m.note e).log = if m.tracing then m.log.push e else m.log := by
  unfold note
  split <;> rfl

theorem jump_eq_error_iff {links : Std.TreeMap Int Int} : m.jump links s = .error b ↔
    links[m.ip]? = none ∧ b = ⟨.fault (.bracket (.unlinked m.ip (some s.text))), m⟩ := by
  cases hl : links[m.ip]? with
  | none => simp [jump_of_no_link hl, fail, eq_comm]
  | some t => simp [jump_of_link hl]

variable [ByteSource ι]

theorem readByte_eq_error_iff {eof : EofPolicy} : m.readByte eof = .error b ↔
    ∃ e source, ByteSource.read m.source = (.error e, source) ∧
      b = ⟨.codec e, { m with source }⟩ := by
  constructor
  · intro h
    rcases readByte_cases eof m with ⟨m', hm'⟩ | ⟨e, source, hread, hm'⟩
    · cases hm'.symm.trans h
    · exact ⟨e, source, hread, (Except.error.inj (hm'.symm.trans h)).symm⟩
  · rintro ⟨e, source, hread, rfl⟩
    simp only [readByte, hread]
    rfl

inductive Fails (j : Job) (m : Machine ι κ) : Breakdown ι κ → Prop
  | limit (spent : j.spent m.steps = true) :
      Fails j m ⟨.fault (.limit (.stopped m.steps m.ip)), m⟩
  | noSymbol (left : j.spent m.steps = false) (nothing : j.program.fetch? m.ip = none) :
      Fails j m ⟨.noSymbol j.program.form, m⟩
  | unlinked {s : Symbol} (left : j.spent m.steps = false)
      (symbol : j.program.fetch? m.ip = some s) (stuck : m.Stuck j s) :
      Fails j m ⟨.fault (.bracket (.unlinked m.ip (some s.text))), m.note (m.entry s)⟩
  | source {s : Symbol} {e : Text.CodecError} {source : ι} (left : j.spent m.steps = false)
      (symbol : j.program.fetch? m.ip = some s) (command : s.command? = some .read)
      (read : ByteSource.read m.source = (.error e, source)) :
      Fails j m ⟨.codec e, { m.note (m.entry s) with source }⟩

/-! ### What is left -/

namespace Fails

theorem untouched (h : Fails j m b) : m.Untouched b.machine := by
  cases h with
  | limit => exact ⟨rfl, rfl, rfl, rfl, rfl⟩
  | noSymbol => exact ⟨rfl, rfl, rfl, rfl, rfl⟩
  | unlinked => exact untouched_note m _
  | source =>
      obtain ⟨htape, hip, hsteps, htracing, hsink⟩ := untouched_note m (m.entry _)
      exact ⟨htape, hip, hsteps, htracing, hsink⟩

/-- Before the symbol is known nothing is logged, and afterwards that it is to be executed. -/
theorem log (h : Fails j m b) :
    ((b.cause = .fault (.limit (.stopped m.steps m.ip)) ∨ b.cause = .noSymbol j.program.form) ∧
      b.machine.log = m.log) ∨
    ∃ s, j.program.fetch? m.ip = some s ∧
      (b.cause = .fault (.bracket (.unlinked m.ip (some s.text))) ∨ ∃ e, b.cause = .codec e) ∧
      b.machine.log = if m.tracing then m.log.push (m.entry s) else m.log := by
  cases h with
  | limit => exact Or.inl ⟨Or.inl rfl, rfl⟩
  | noSymbol => exact Or.inl ⟨Or.inr rfl, rfl⟩
  | unlinked left symbol => exact Or.inr ⟨_, symbol, Or.inl rfl, log_note m _⟩
  | source left symbol => exact Or.inr ⟨_, symbol, Or.inr ⟨_, rfl⟩, log_note m _⟩

theorem source_cases (h : Fails j m b) : b.machine.source = m.source ∨
    ∃ e, b.cause = .codec e ∧ ByteSource.read m.source = (.error e, b.machine.source) := by
  cases h with
  | limit => exact Or.inl rfl
  | noSymbol => exact Or.inl rfl
  | unlinked => exact Or.inl (source_note m _)
  | source left symbol command read => exact Or.inr ⟨_, rfl, read⟩

theorem bracket_iff {f : BracketFault} : (∃ g, Fails j m ⟨.fault (.bracket f), g⟩) ↔
    j.spent m.steps = false ∧ ∃ s, j.program.fetch? m.ip = some s ∧ m.Stuck j s ∧
      f = .unlinked m.ip (some s.text) := by
  constructor
  · rintro ⟨g, h⟩
    cases h with
    | unlinked left symbol stuck => exact ⟨left, _, symbol, stuck, rfl⟩
  · rintro ⟨left, s, symbol, stuck, rfl⟩
    exact ⟨_, .unlinked left symbol stuck⟩

/-- What is left of the machine is the machine, but for the source and the log. -/
theorem alike (h : Fails j m b) :
    Machine.Alike Eq { m with source := b.machine.source } b.machine :=
  have hu := h.untouched
  ⟨hu.tape.symm, hu.ip, hu.steps, rfl, hu.sink⟩

end Fails

variable [ByteSink κ]

/-! ### When a step fails -/

/-- A symbol fails if it jumps to no place or reads from a source that fails. -/
theorem execute_eq_error_iff : m.execute j s = .error b ↔
    (m.Stuck j s ∧ b = ⟨.fault (.bracket (.unlinked m.ip (some s.text))), m⟩) ∨
      s.command? = some .read ∧ ∃ e source, ByteSource.read m.source = (.error e, source) ∧
        b = ⟨.codec e, { m with source }⟩ := by
  unfold execute
  split
  case h_7 hc =>
    rw [readByte_eq_error_iff, stuck_iff]
    constructor
    · exact fun h => Or.inr ⟨hc, h⟩
    · rintro (⟨⟨rfl, -⟩ | ⟨rfl, -⟩, -⟩ | ⟨-, h⟩)
      · cases hc
      · cases hc
      · exact h
  case h_8 hc =>
    obtain rfl : s = .opening := Symbol.command?_eq_openLoop_iff.1 hc
    simp only [stuck_iff, Symbol.opening_ne_closing, hc]
    split
    · rename_i hz
      simp [jump_eq_error_iff, hz]
    · rename_i hz
      simp [hz]
  case h_9 hc =>
    obtain rfl : s = .closing := Symbol.command?_eq_closeLoop_iff.1 hc
    simp only [stuck_iff, Symbol.opening_ne_closing.symm, hc]
    split
    · rename_i hz
      simp [hz]
    · rename_i hz
      simp [jump_eq_error_iff, hz]
  -- the others neither fail nor are brackets or read
  all_goals
    rename_i hc
    simp only [reduceCtorEq, false_iff, stuck_iff, hc]
    rintro (⟨⟨rfl, -⟩ | ⟨rfl, -⟩, -⟩ | ⟨h, -⟩)
    · cases hc
    · cases hc
    · cases h

theorem step_eq_error_iff : m.step j = .error b ↔ Fails j m b := by
  constructor
  · intro h
    cases hl : j.spent m.steps with
    | true =>
        obtain rfl := Except.error.inj ((step_of_spent hl).symm.trans h)
        exact .limit hl
    | false =>
        cases hs : j.program.fetch? m.ip with
        | none =>
            obtain rfl := Except.error.inj ((step_of_no_symbol hl hs).symm.trans h)
            exact .noSymbol hl hs
        | some s =>
            rw [step_of_symbol hl hs] at h
            cases he : (m.note (m.entry s)).execute j s with
            | ok f => simp [he, Except.map] at h
            | error b' =>
                obtain rfl : b' = b := by simpa [he, Except.map] using h
                rcases execute_eq_error_iff.1 he with ⟨stuck, rfl⟩ | ⟨hc, e, source, hread, rfl⟩
                · rw [ip_note]
                  exact .unlinked hl hs ((stuck_note _).1 stuck)
                · exact .source hl hs hc (by rwa [source_note] at hread)
  · intro h
    cases h with
    | limit spent => exact step_of_spent spent
    | noSymbol left nothing => exact step_of_no_symbol left nothing
    | @unlinked s left symbol stuck =>
        have he := execute_eq_error_iff.2 (Or.inl ⟨(stuck_note (m.entry s)).2 stuck, rfl⟩)
        rw [step_of_symbol left symbol, he, ip_note]
        rfl
    | @source s e source left symbol command read =>
        have hread : ByteSource.read (m.note (m.entry s)).source = (.error e, source) := by
          rwa [source_note]
        have he : (m.note (m.entry s)).execute j s =
            .error ⟨.codec e, { m.note (m.entry s) with source }⟩ :=
          execute_eq_error_iff.2 (Or.inr ⟨command, e, source, hread, rfl⟩)
        rw [step_of_symbol left symbol, he]
        rfl

/-! ### Doing it again -/

/-- A bracket that has to jump does so once a link leads from its place. -/
theorem step_join (left : j.spent m.steps = false) (symbol : j.program.fetch? m.ip = some s)
    (stuck : m.Stuck j s) (t : Int) :
    m.step (j.withLinks (j.links.join s m.ip t)) =
      .ok { m.note (m.entry s) with ip := t }.next := by
  refine step_of_execute (j := j.withLinks _) left symbol ?_
  cases stuck with
  | opening zero missing =>
      have hz : (m.note (m.entry .opening)).tape.current = 0 := by rwa [tape_note]
      have hc : Symbol.opening.command? = some .openLoop := rfl
      simp only [execute, hc, if_pos hz]
      exact jump_of_link (by rw [ip_note]; exact Links.getElem?_forward_join)
  | closing nonzero missing =>
      have hz : ¬ (m.note (m.entry .closing)).tape.current = 0 := by rwa [tape_note]
      have hc : Symbol.closing.command? = some .closeLoop := rfl
      simp only [execute, hc, if_neg hz]
      exact jump_of_link (by rw [ip_note]; exact Links.getElem?_backward_join)

end Machine

end RingTape
