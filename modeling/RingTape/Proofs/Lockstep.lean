import RingTape.Proofs.Engines

/-!
Runs side by side. A program sees the cell under the pointer of its tape and nothing else of it, and
it changes the tape only by storing into that cell and by moving to the one on the right or on the
left. Two machines whose tapes differ where this cannot be seen therefore stay in step for ever:
they execute the same symbols, read and write the same bytes, and fail together for the same cause.

What "cannot be seen" means is left to a relation `R` between tapes. `Tape.Coupling` asks of it what
showing and storing need. That related tapes stay related when both are moved is asked apart from
it: of every move in a `Tape.Symmetry`, and else of the moves that a run really makes, since there
are relations that hold only as long as no run goes round the end of a tape.
-/

namespace RingTape

/-- Related tapes show the same cell, and stay related when the same byte is stored. -/
structure Tape.Coupling (R : Tape → Tape → Prop) : Prop where
  current : ∀ {t t' : Tape}, R t t' → t'.current = t.current
  put : ∀ {t t' : Tape} (v : UInt8), R t t' → R (t.put v) (t'.put v)

structure Tape.Symmetry (R : Tape → Tape → Prop) : Prop extends Tape.Coupling R where
  move : ∀ {t t' : Tape} (d : Int), R t t' → R (t.move d) (t'.move d)

theorem Tape.symmetry_eq : Tape.Symmetry Eq where
  current h := h ▸ rfl
  put _ h := h ▸ rfl
  move _ h := h ▸ rfl

variable {ι κ : Type}

/-- Nothing differs between the two machines but their tapes, which are related, and what they have
logged. -/
structure Machine.Alike (R : Tape → Tape → Prop) (m m' : Machine ι κ) : Prop where
  tape : R m.tape m'.tape
  ip : m'.ip = m.ip
  steps : m'.steps = m.steps
  source : m'.source = m.source
  sink : m'.sink = m.sink

inductive Attempt.Alike (R : Tape → Tape → Prop) : Attempt ι κ → Attempt ι κ → Prop
  | ok {m m' : Machine ι κ} (alike : m.Alike R m') : Attempt.Alike R (.ok m) (.ok m')
  | error {m m' : Machine ι κ} (cause : Failure) (alike : m.Alike R m') :
      Attempt.Alike R (.error ⟨cause, m⟩) (.error ⟨cause, m'⟩)

inductive Progress.Alike (R : Tape → Tape → Prop) : Progress ι κ → Progress ι κ → Prop
  | running {m m' : Machine ι κ} (alike : m.Alike R m') :
      Progress.Alike R (.running m) (.running m')
  | finished {m m' : Machine ι κ} (alike : m.Alike R m') :
      Progress.Alike R (.finished m) (.finished m')
  | failed {m m' : Machine ι κ} (cause : Failure) (alike : m.Alike R m') :
      Progress.Alike R (.failed ⟨cause, m⟩) (.failed ⟨cause, m'⟩)

section Outcomes

variable {R : Tape → Tape → Prop} {a : Attempt ι κ} {p : Progress ι κ}

theorem Attempt.Alike.machine {a' : Attempt ι κ} (h : Attempt.Alike R a a') :
    (Progress.ofAttempt a).machine.Alike R (Progress.ofAttempt a').machine := by
  cases h with
  | ok alike => exact alike
  | error cause alike => exact alike

theorem Attempt.Alike.map_next {a' : Attempt ι κ} (h : Attempt.Alike R a a') :
    Attempt.Alike R (a.map Machine.next) (a'.map Machine.next) := by
  cases h with
  | ok alike =>
      exact .ok ⟨alike.tape, congrArg (· + 1) alike.ip, congrArg (· + 1) alike.steps, alike.source,
        alike.sink⟩
  | error cause alike => exact .error cause alike

/-- A run beside one that has ended has ended as well. -/
theorem Progress.Alike.exists_right (h : Progress.Alike R (.ofAttempt a) p) :
    ∃ a', p = .ofAttempt a' ∧ Attempt.Alike R a a' := by
  cases a with
  | ok m =>
      cases h with
      | finished alike => exact ⟨.ok _, rfl, .ok alike⟩
  | error b =>
      cases h with
      | failed cause alike => exact ⟨.error ⟨cause, _⟩, rfl, .error cause alike⟩

end Outcomes

namespace Machine

variable {R : Tape → Tape → Prop} {j : Job} {m m' : Machine ι κ} {s : Symbol}

def nextCommand? (j : Job) (m : Machine ι κ) : Option Command :=
  if j.spent m.steps then none else (j.program.fetch? m.ip).bind Symbol.command?

theorem nextCommand?_of_symbol (hl : j.spent m.steps = false)
    (hf : j.program.fetch? m.ip = some s) : m.nextCommand? j = s.command? := by
  simp [nextCommand?, hl, hf]

/-- A command that comes next stands in the program, and a step is left for it. -/
theorem exists_symbol_of_nextCommand? {o : Command} (h : m.nextCommand? j = some o) :
    j.spent m.steps = false ∧ ∃ s, j.program.fetch? m.ip = some s ∧ s.command? = some o := by
  unfold nextCommand? at h
  cases hl : j.spent m.steps with
  | true => simp [hl] at h
  | false =>
      rw [hl, if_neg Bool.false_ne_true, Option.bind_eq_some_iff] at h
      exact ⟨rfl, h⟩

structure MovesAlike (R : Tape → Tape → Prop) (j : Job) (m m' : Machine ι κ) : Prop where
  right : m.nextCommand? j = some .right → R m.tape.right m'.tape.right
  left : m.nextCommand? j = some .left → R m.tape.left m'.tape.left

theorem Alike.movesAlike (hR : Tape.Symmetry R) (h : m.Alike R m') : MovesAlike R j m m' where
  right _ := hR.move 1 h.tape
  left _ := hR.move (-1) h.tape

namespace Alike

theorem put (hR : Tape.Coupling R) (h : m.Alike R m') (v : UInt8) :
    Alike R { m with tape := m.tape.put v } { m' with tape := m'.tape.put v } :=
  ⟨hR.put v h.tape, h.ip, h.steps, h.source, h.sink⟩

/-- Logging is not looked at. -/
theorem note (h : m.Alike R m') (e e' : LogEntry) : (m.note e).Alike R (m'.note e') := by
  constructor
  · simpa using h.tape
  · simpa using h.ip
  · simpa using h.steps
  · simpa using h.source
  · simpa using h.sink

theorem isDone_iff (h : m.Alike R m') : m'.isDone j ↔ m.isDone j := by
  rw [Machine.isDone_iff, Machine.isDone_iff, h.ip]

theorem jump (h : m.Alike R m') (links : Std.TreeMap Int Int) (s : Symbol) :
    Attempt.Alike R (m.jump links s) (m'.jump links s) := by
  cases hl : links[m.ip]? with
  | none =>
      rw [jump_of_no_link hl, jump_of_no_link (h.ip ▸ hl), h.ip]
      exact .error _ h
  | some t =>
      rw [jump_of_link hl, jump_of_link (h.ip ▸ hl)]
      exact .ok ⟨h.tape, rfl, h.steps, h.source, h.sink⟩

theorem readByte [ByteSource ι] (hR : Tape.Coupling R) (h : m.Alike R m') (eof : EofPolicy) :
    Attempt.Alike R (m.readByte eof) (m'.readByte eof) := by
  simp only [Machine.readByte, h.source]
  generalize ByteSource.read m.source = answer
  obtain ⟨e | b, source⟩ := answer
  · exact .error _ ⟨h.tape, h.ip, h.steps, rfl, h.sink⟩
  · have hsource : Alike R { m with source } { m' with source } :=
      ⟨h.tape, h.ip, h.steps, rfl, h.sink⟩
    cases b with
    | some b => exact .ok (hsource.put hR b)
    | none =>
        cases eof with
        | zero => exact .ok (hsource.put hR 0)
        | keep => exact .ok hsource
        | max => exact .ok (hsource.put hR 255)

theorem writeByte [ByteSink κ] (hR : Tape.Coupling R) (h : m.Alike R m') :
    m.writeByte.Alike R m'.writeByte where
  tape := h.tape
  ip := h.ip
  steps := h.steps
  source := h.source
  sink := by simp only [Machine.writeByte, h.sink, hR.current h.tape]

variable [ByteSource ι] [ByteSink κ]

/-- A symbol is executed alike, if related tapes stay related when it moves them. -/
theorem execute (hR : Tape.Coupling R) (h : m.Alike R m')
    (hright : s.command? = some .right → R m.tape.right m'.tape.right)
    (hleft : s.command? = some .left → R m.tape.left m'.tape.left) :
    Attempt.Alike R (m.execute j s) (m'.execute j s) := by
  have hcurrent := hR.current h.tape
  cases hc : s.command? with
  | none =>
      simp only [Machine.execute, hc]
      exact .ok h
  | some o =>
      cases o <;> simp only [Machine.execute, hc]
      case right => exact .ok ⟨hright hc, h.ip, h.steps, h.source, h.sink⟩
      case left => exact .ok ⟨hleft hc, h.ip, h.steps, h.source, h.sink⟩
      case increment =>
        simp only [Tape.increment, hcurrent]
        exact .ok (h.put hR _)
      case decrement =>
        simp only [Tape.decrement, hcurrent]
        exact .ok (h.put hR _)
      case write => exact .ok (h.writeByte hR)
      case read => exact h.readByte hR j.eof
      case openLoop =>
        rw [hcurrent]
        split
        · exact h.jump j.links.forward s
        · exact .ok h
      case closeLoop =>
        rw [hcurrent]
        split
        · exact .ok h
        · exact h.jump j.links.backward s

theorem step (hR : Tape.Coupling R) (h : m.Alike R m') (hmoves : MovesAlike R j m m') :
    Attempt.Alike R (m.step j) (m'.step j) := by
  cases hl : j.spent m.steps with
  | true =>
      rw [step_of_spent hl, step_of_spent (h.steps ▸ hl), h.steps, h.ip]
      exact .error _ h
  | false =>
      cases hf : j.program.fetch? m.ip with
      | none =>
          rw [step_of_no_symbol hl hf, step_of_no_symbol (h.steps ▸ hl) (h.ip ▸ hf)]
          exact .error _ h
      | some s =>
          rw [step_of_symbol hl hf, step_of_symbol (h.steps ▸ hl) (h.ip ▸ hf)]
          have hnext := nextCommand?_of_symbol hl hf
          refine ((h.note _ _).execute hR ?_ ?_).map_next
          · intro hc
            rw [tape_note, tape_note]
            exact hmoves.right (hnext.trans hc)
          · intro hc
            rw [tape_note, tape_note]
            exact hmoves.left (hnext.trans hc)

/-- Two runs stay alike, if related tapes stay related in every move that the first one makes. -/
theorem advance (hR : Tape.Coupling R) (h : m.Alike R m') (n : Nat)
    (hmoves : ∀ i < n, ∀ g g' : Machine ι κ, m.advance j i = .running g → g.Alike R g' →
      MovesAlike R j g g') :
    Progress.Alike R (m.advance j n) (m'.advance j n) := by
  induction n generalizing m m' with
  | zero =>
      by_cases done : m.isDone j
      · rw [advance_of_isDone done, advance_of_isDone (h.isDone_iff.2 done)]
        exact .finished h
      · rw [advance_zero done, advance_zero (mt h.isDone_iff.1 done)]
        exact .running h
  | succ n ih =>
      by_cases done : m.isDone j
      · rw [advance_of_isDone done, advance_of_isDone (h.isDone_iff.2 done)]
        exact .finished h
      · have done' : ¬ m'.isDone j := mt h.isDone_iff.1 done
        have hstep := h.step hR (hmoves 0 (Nat.succ_pos n) m m' (advance_zero done) h)
        generalize hs : m.step j = a at hstep
        generalize hs' : m'.step j = a' at hstep
        cases hstep with
        | ok alike =>
            rw [advance_succ done hs, advance_succ done' hs']
            refine ih alike fun i hi g g' hrun => ?_
            rw [← advance_succ done hs] at hrun
            exact hmoves (i + 1) (Nat.succ_lt_succ hi) g g' hrun
        | error cause alike =>
            rw [advance_succ_error done hs, advance_succ_error done' hs']
            exact .failed cause alike

theorem advance_of_symmetry (hR : Tape.Symmetry R) (h : m.Alike R m') (j : Job) (n : Nat) :
    Progress.Alike R (m.advance j n) (m'.advance j n) :=
  h.advance hR.toCoupling n fun _ _ _ _ _ halike => halike.movesAlike hR

/-- Of two such runs, if one ends, the other ends alike. -/
theorem exists_settles (hR : Tape.Symmetry R) (h : m.Alike R m') {a : Attempt ι κ}
    (ha : Settles j (Machine.step j) m a) :
    ∃ a', Settles j (Machine.step j) m' a' ∧ Attempt.Alike R a a' := by
  obtain ⟨n, hn⟩ := settles_iff_drive.1 ha
  have halike := h.advance_of_symmetry hR j n
  rw [advance_eq_drive, advance_eq_drive, hn] at halike
  obtain ⟨a', ha', hends⟩ := halike.exists_right
  exact ⟨a', settles_iff_drive.2 ⟨n, ha'⟩, hends⟩

end Alike

end Machine

/-- Stepwise runs start from a blank tape whenever there is one of the size. -/
theorem Execution.exists_stepwise [ByteSource ι] [ByteSink κ] {s : Settings} (h : 1 ≤ s.tapeSize)
    (p : Program) (links : Links) (source : ι) (sink : κ) :
    ∃ x, ofLinks .stepwise s p links source sink = .ok x ∧ x.job = jobOf s p links ∧
      x.worker = .stepwise ∧
      x.start = startOf s (.blank s.tapeSize.toNat (Int.lt_toNat.2 h)) source sink := by
  obtain ⟨tape, htape, rfl⟩ := exists_blank h
  exact ⟨_, ofLinks_stepwise htape, rfl, rfl, rfl⟩

theorem Execution.run_stepwise [ByteSource ι] [ByteSink κ] {x : Execution ι κ}
    (h : x.worker = .stepwise) (n : Nat) : x.run n = x.start.advance x.job n := by
  rw [run, Execution.advance, h, Worker.advance]

end RingTape
