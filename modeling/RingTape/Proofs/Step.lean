import RingTape.Proofs.Reach

/-!
One step, read backwards and forwards. A step that succeeds found steps left and a symbol at its
place, executed it and went on. Executing a symbol never touches the count of steps, and jumping and
reading are the only ways for it to fail.
-/

namespace RingTape

theorem Job.spent_iff {j : Job} {steps : Nat} :
    j.spent steps = true ↔ ∃ n, j.limit = some n ∧ n ≤ steps := by
  unfold Job.spent
  split <;> rename_i h <;> simp [h]

namespace Machine

variable {ι κ : Type} {j : Job} {m m' : Machine ι κ} {s : Symbol}

@[simp] theorem ip_next (m : Machine ι κ) : m.next.ip = m.ip + 1 := rfl

@[simp] theorem steps_next (m : Machine ι κ) : m.next.steps = m.steps + 1 := rfl

@[simp] theorem tape_next (m : Machine ι κ) : m.next.tape = m.tape := rfl

@[simp] theorem source_next (m : Machine ι κ) : m.next.source = m.source := rfl

@[simp] theorem sink_next (m : Machine ι κ) : m.next.sink = m.sink := rfl

theorem note_of_not_tracing (h : m.tracing = false) (e : LogEntry) : m.note e = m := by
  simp [note, h]

theorem jump_of_link {links : Std.TreeMap Int Int} {t : Int} (h : links[m.ip]? = some t) :
    m.jump links s = .ok { m with ip := t } := by
  simp [jump, lookup, h]

theorem jump_of_no_link {links : Std.TreeMap Int Int} (h : links[m.ip]? = none) :
    m.jump links s = m.fail (.fault (.bracket (.unlinked m.ip (some s.text)))) := by
  simp [jump, lookup, h]

theorem jump_eq_ok_iff {links : Std.TreeMap Int Int} :
    m.jump links s = .ok m' ↔ ∃ t, links[m.ip]? = some t ∧ m' = { m with ip := t } := by
  cases h : links[m.ip]? with
  | none => simp [jump_of_no_link h, fail]
  | some t => simp [jump_of_link h, eq_comm]

structure Keeps (m m' : Machine ι κ) : Prop where
  steps : m'.steps = m.steps
  tracing : m'.tracing = m.tracing
  log : m'.log = m.log
  size : m'.tape.size = m.tape.size

theorem readByte_frame [ByteSource ι] {eof : EofPolicy} (h : m.readByte eof = .ok m') :
    Keeps m m' ∧ m'.ip = m.ip ∧ m'.sink = m.sink ∧ m'.source = (ByteSource.read m.source).2 := by
  unfold readByte at h
  split at h
  · cases h
  · rename_i hread
    cases h
    exact ⟨⟨rfl, rfl, rfl, by simp⟩, rfl, rfl, by rw [hread]⟩
  · rename_i hread
    split at h <;> cases h
    · exact ⟨⟨rfl, rfl, rfl, by simp⟩, rfl, rfl, by rw [hread]⟩
    · exact ⟨⟨rfl, rfl, rfl, rfl⟩, rfl, rfl, by rw [hread]⟩

/-- In front of a machine that is neither done nor before the program stands a symbol. -/
theorem exists_symbol (hip : 0 ≤ m.ip) (pending : ¬ m.isDone j) :
    ∃ (k : Nat) (s : Symbol), m.ip = k ∧ j.program.fetch? k = some s := by
  obtain ⟨k, hk⟩ := Int.eq_ofNat_of_zero_le hip
  have hlt : k < j.program.length := by
    rw [isDone_iff] at pending
    omega
  refine ⟨k, j.program.symbols[k], hk, ?_⟩
  rw [Program.fetch?_natCast]
  exact Array.getElem?_eq_getElem hlt

section Execution

variable [ByteSource ι] [ByteSink κ]

inductive Lands (j : Job) (s : Symbol) (ip : Int) : Int → Prop
  | here : Lands j s ip ip
  | opening {t : Int} (command : s.command? = some .openLoop)
      (link : j.links.forward[ip]? = some t) : Lands j s ip t
  | closing {t : Int} (command : s.command? = some .closeLoop)
      (link : j.links.backward[ip]? = some t) : Lands j s ip t

/-- What executing a symbol leaves alone, where it leads, and that it writes if it touches the sink
at all, and reads once if it touches the source. -/
theorem execute_frame (h : m.execute j s = .ok m') :
    Keeps m m' ∧ Lands j s m.ip m'.ip ∧ (∃ bs, m'.sink = ByteSink.writeAll m.sink bs) ∧
      (m'.source = m.source ∨ m'.source = (ByteSource.read m.source).2) := by
  unfold execute at h
  split at h
  case h_1 =>
    cases h
    exact ⟨⟨rfl, rfl, rfl, rfl⟩, .here, ⟨[], rfl⟩, Or.inl rfl⟩
  case h_6 =>
    cases h
    exact ⟨⟨rfl, rfl, rfl, rfl⟩, .here, ⟨[m.tape.current], rfl⟩, Or.inl rfl⟩
  case h_7 =>
    obtain ⟨hk, hip, hsink, hsource⟩ := readByte_frame h
    exact ⟨hk, hip ▸ .here, ⟨[], hsink⟩, Or.inr hsource⟩
  case h_8 hc =>
    split at h
    · obtain ⟨t, ht, rfl⟩ := jump_eq_ok_iff.1 h
      exact ⟨⟨rfl, rfl, rfl, rfl⟩, .opening hc ht, ⟨[], rfl⟩, Or.inl rfl⟩
    · cases h
      exact ⟨⟨rfl, rfl, rfl, rfl⟩, .here, ⟨[], rfl⟩, Or.inl rfl⟩
  case h_9 hc =>
    split at h
    · cases h
      exact ⟨⟨rfl, rfl, rfl, rfl⟩, .here, ⟨[], rfl⟩, Or.inl rfl⟩
    · obtain ⟨t, ht, rfl⟩ := jump_eq_ok_iff.1 h
      exact ⟨⟨rfl, rfl, rfl, rfl⟩, .closing hc ht, ⟨[], rfl⟩, Or.inl rfl⟩
  -- the four that work on the tape alone
  all_goals
    cases h
    exact ⟨⟨rfl, rfl, rfl, by simp [Tape.right, Tape.left, Tape.increment, Tape.decrement]⟩, .here,
      ⟨[], rfl⟩, Or.inl rfl⟩

theorem step_eq_ok_iff :
    m.step j = .ok m' ↔ j.spent m.steps = false ∧ ∃ s, j.program.fetch? m.ip = some s ∧
      ∃ f, (m.note (m.entry s)).execute j s = .ok f ∧ m' = f.next := by
  cases hl : j.spent m.steps with
  | true => simp [step_of_spent hl, fail]
  | false =>
      cases hf : j.program.fetch? m.ip with
      | none => simp [step_of_no_symbol hl hf, fail]
      | some s =>
          rw [step_of_symbol hl hf]
          cases he : (m.note (m.entry s)).execute j s with
          | error b => simp [Except.map, he]
          | ok f => simp [Except.map, he, eq_comm]

theorem step_of_execute (hl : j.spent m.steps = false) (hf : j.program.fetch? m.ip = some s)
    (he : (m.note (m.entry s)).execute j s = .ok m') : m.step j = .ok m'.next :=
  step_eq_ok_iff.2 ⟨hl, s, hf, m', he, rfl⟩

theorem steps_of_step (h : m.step j = .ok m') : m'.steps = m.steps + 1 := by
  obtain ⟨-, s, -, f, he, rfl⟩ := step_eq_ok_iff.1 h
  rw [steps_next, (execute_frame he).1.steps, steps_note]

theorem tracing_of_step (h : m.step j = .ok m') : m'.tracing = m.tracing := by
  obtain ⟨-, s, -, f, he, rfl⟩ := step_eq_ok_iff.1 h
  exact (execute_frame he).1.tracing.trans (tracing_note m _)

theorem size_of_step (h : m.step j = .ok m') : m'.tape.size = m.tape.size := by
  obtain ⟨-, s, -, f, he, rfl⟩ := step_eq_ok_iff.1 h
  rw [tape_next, (execute_frame he).1.size, tape_note]

/-- Where a step leaves the place. -/
theorem ip_of_step (h : m.step j = .ok m') :
    ∃ s t, j.program.fetch? m.ip = some s ∧ Lands j s m.ip t ∧ m'.ip = t + 1 := by
  obtain ⟨-, s, hs, f, he, rfl⟩ := step_eq_ok_iff.1 h
  refine ⟨s, f.ip, hs, ?_, rfl⟩
  simpa using (execute_frame he).2.1

/-- What has been written stays written. -/
theorem exists_writeAll_of_step (h : m.step j = .ok m') :
    ∃ bs, m'.sink = ByteSink.writeAll m.sink bs := by
  obtain ⟨-, s, -, f, he, rfl⟩ := step_eq_ok_iff.1 h
  simpa using (execute_frame he).2.2.1

/-- A step reads once or not at all. -/
theorem source_of_step (h : m.step j = .ok m') :
    m'.source = m.source ∨ m'.source = (ByteSource.read m.source).2 := by
  obtain ⟨-, s, -, f, he, rfl⟩ := step_eq_ok_iff.1 h
  simpa using (execute_frame he).2.2.2

theorem Reaches.steps {n : Nat} (h : Reaches j (step j) n m m') : m'.steps = m.steps + n := by
  induction h with
  | refl m => rfl
  | head _ worked _ ih =>
      rw [ih, steps_of_step worked]
      omega

theorem Reaches.exists_writeAll {n : Nat} (h : Reaches j (step j) n m m') :
    ∃ bs, m'.sink = ByteSink.writeAll m.sink bs := by
  induction h with
  | refl m => exact ⟨[], rfl⟩
  | head _ worked _ ih =>
      obtain ⟨bs, hbs⟩ := exists_writeAll_of_step worked
      obtain ⟨cs, hcs⟩ := ih
      exact ⟨bs ++ cs, by rw [hcs, hbs, ByteSink.writeAll_append]⟩

theorem Reaches.stepTimes {n : Nat} (h : Reaches j (step j) n m m') :
    m.stepTimes j n = .ok m' := by
  induction h with
  | refl m => rfl
  | head _ worked _ ih => simpa only [Machine.stepTimes, worked] using ih

theorem stepTimes_succ {n : Nat} : m.stepTimes j (n + 1) = (m.stepTimes j n).bind (step j) := by
  rw [stepTimes_add]
  congr 1
  funext g
  simp only [stepTimes]
  cases g.step j <;> rfl

theorem stepTimes_succ_eq_ok_iff {n : Nat} :
    m.stepTimes j (n + 1) = .ok m' ↔ ∃ g, m.stepTimes j n = .ok g ∧ g.step j = .ok m' := by
  rw [stepTimes_succ]
  cases m.stepTimes j n <;> simp [Except.bind]

/-- Steps that fail do so at one of them. -/
theorem exists_of_stepTimes_eq_error {n : Nat} {b : Breakdown ι κ}
    (h : m.stepTimes j n = .error b) : ∃ k g, m.stepTimes j k = .ok g ∧ g.step j = .error b := by
  induction n with
  | zero => cases h
  | succ n ih =>
      rw [stepTimes_succ] at h
      cases hn : m.stepTimes j n with
      | error b' =>
          rw [hn] at h
          cases h
          exact ih hn
      | ok g =>
          rw [hn] at h
          exact ⟨n, g, hn, h⟩

theorem Settles.exists_stepTimes {a : Attempt ι κ} (h : Settles j (step j) m a) :
    ∃ n, m.stepTimes j n = a := by
  cases h with
  | finished run _ => exact ⟨_, run.stepTimes⟩
  | failed run _ broken => exact ⟨_ + 1, by rw [stepTimes_succ, run.stepTimes]; exact broken⟩

/-- How many of the next `n` steps are made from machines of which `p` holds. -/
def countSteps (j : Job) (p : Machine ι κ → Bool) : Nat → Machine ι κ → Nat
  | 0, _ => 0
  | n + 1, m =>
    (if p m then 1 else 0) +
      match m.step j with
      | .error _ => 0
      | .ok m => countSteps j p n m

theorem countSteps_succ {p : Machine ι κ → Bool} (h : m.step j = .ok m') (n : Nat) :
    m.countSteps j p (n + 1) = (if p m then 1 else 0) + m'.countSteps j p n := by
  simp only [countSteps, h]

theorem Reaches.countSteps_add {p : Machine ι κ → Bool} {k : Nat} (h : Reaches j (step j) k m m')
    (n : Nat) : m.countSteps j p (k + n) = m.countSteps j p k + m'.countSteps j p n := by
  induction h with
  | refl m => simp [countSteps]
  | head _ worked _ ih =>
      rw [Nat.succ_add, countSteps_succ worked, countSteps_succ worked, ih, Nat.add_assoc]

end Execution

end Machine

end RingTape
