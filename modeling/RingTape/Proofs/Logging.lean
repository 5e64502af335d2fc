import RingTape.Proofs.Failing
import RingTape.Proofs.Safety

/-!
The log of a run. A machine that traces makes an entry in front of each symbol that it executes, so
the log of `n` steps is a row of `n` entries, and the entry at `k` shows the machine that `k` steps
have come to (`Tells`). Since the entry is made before the symbol is executed but after the limit
has been checked, a run that breaks down leaves one entry more than steps if the symbol is to blame
and none more if the steps are spent.

What an entry shows is enough to say where the next one is made, but for the links and the size of
the tape, which stay what they are (`LogEntry.sequel`). So a log can be checked without the program.
-/

namespace RingTape

namespace LogEntry

def position? : LogEntry → Option (Int × Int)
  | step _ ip _ pointer _ => some (ip, pointer)
  | remark _ => none

/-- The places in the program and on the tape at which a machine stands that has done what the entry
shows, under `links` and on a tape of `size` cells. -/
def sequel (links : Links) (size : Int) : LogEntry → Option (Int × Int)
  | step _ ip s pointer cell =>
    match s.command? with
    | some .right => some (ip + 1, ((pointer : Int) + 1) % size)
    | some .left => some (ip + 1, ((pointer : Int) - 1) % size)
    | some .openLoop =>
      if cell = 0 then links.forward[ip]?.map fun t => (t + 1, (pointer : Int))
      else some (ip + 1, pointer)
    | some .closeLoop =>
      if cell = 0 then some (ip + 1, pointer)
      else links.backward[ip]?.map fun t => (t + 1, (pointer : Int))
    | _ => some (ip + 1, pointer)
  | remark _ => none

end LogEntry

namespace Machine

variable {ι κ : Type} [ByteSource ι] [ByteSink κ] {j : Job} {m m' g g' : Machine ι κ} {s : Symbol}
  {n k : Nat}

/-! ### One entry -/

omit [ByteSink κ] in
theorem pointer_of_readByte {eof : EofPolicy} (h : m.readByte eof = .ok m') :
    m'.tape.pointer = m.tape.pointer := by
  unfold readByte at h
  split at h
  · cases h
  · cases h
    exact Tape.pointer_put _ _
  · split at h
    · cases h
      exact Tape.pointer_put _ _
    · cases h
      rfl

/-- A symbol leads where the entry of the machine says that executes it. -/
theorem sequel_of_execute (h : m.execute j s = .ok m') :
    (m.entry s).sequel j.links m.tape.size = some (m'.ip + 1, (m'.tape.pointer : Int)) := by
  unfold execute at h
  simp only [entry, LogEntry.sequel]
  split at h <;> rename_i hc <;> simp only [hc]
  case h_2 =>
    cases h
    rw [Tape.right, Tape.pointer_move]
  case h_3 =>
    cases h
    rw [Tape.left, Tape.pointer_move, Int.sub_eq_add_neg]
  case h_7 =>
    rw [(readByte_frame h).2.1, pointer_of_readByte h]
  case h_8 =>
    split at h
    · rename_i hz
      obtain ⟨t, ht, rfl⟩ := jump_eq_ok_iff.1 h
      rw [if_pos hz, ht]
      rfl
    · rename_i hz
      cases h
      rw [if_neg hz]
  case h_9 =>
    split at h
    · rename_i hz
      cases h
      rw [if_pos hz]
    · rename_i hz
      obtain ⟨t, ht, rfl⟩ := jump_eq_ok_iff.1 h
      rw [if_neg hz, ht]
      rfl
  -- the others move neither the place nor the pointer
  all_goals
    cases h
    rfl

theorem sequel_of_step (hs : j.program.fetch? m.ip = some s) (h : m.step j = .ok m') :
    (m.entry s).sequel j.links m.tape.size = some (m'.ip, (m'.tape.pointer : Int)) := by
  obtain ⟨-, s', hs', f, hf, rfl⟩ := step_eq_ok_iff.1 h
  obtain rfl := Option.some.inj (hs.symm.trans hs')
  simpa [entry] using sequel_of_execute hf

theorem log_of_step (h : m.step j = .ok m') : ∃ s, j.program.fetch? m.ip = some s ∧
    m'.log = if m.tracing then m.log.push (m.entry s) else m.log := by
  obtain ⟨-, s, hs, f, hf, rfl⟩ := step_eq_ok_iff.1 h
  exact ⟨s, hs, (execute_frame hf).1.log.trans (log_note m _)⟩

/-! ### All entries -/

/-- The log tells of the first `n` steps from `m`: it has an entry for each of them, and the entry
at `k` and its line show the machine that `k` steps come to. -/
structure Tells (j : Job) (m : Machine ι κ) (n : Nat) (log : Array LogEntry) : Prop where
  size : log.size = n
  entry : ∀ k < n, ∃ g s, m.stepTimes j k = .ok g ∧ j.program.fetch? g.ip = some s ∧
    log[k]? = some (.step k g.ip s g.tape.pointer g.tape.current) ∧
    (log.map LogEntry.line)[k]? = some
      s!"step={k} ip={g.ip} cmd={Text.quote s.text} dp={g.tape.pointer} cell={g.tape.current}"

theorem tells_zero (j : Job) (m : Machine ι κ) : m.Tells j 0 #[] where
  size := rfl
  entry k hk := absurd hk (Nat.not_lt_zero k)

/-- One more step is told of by an entry of the machine in front of it. -/
theorem Tells.push {log : Array LogEntry} (h : m.Tells j n log) (hg : m.stepTimes j n = .ok g)
    (hsteps : g.steps = n) (hs : j.program.fetch? g.ip = some s) :
    m.Tells j (n + 1) (log.push (g.entry s)) where
  size := by rw [Array.size_push, h.size]
  entry k hk := by
    rcases Nat.lt_succ_iff_lt_or_eq.1 hk with hlt | rfl
    · have hne : k ≠ log.size := by
        have := h.size
        omega
      simpa only [Array.getElem?_map, Array.getElem?_push, if_neg hne] using h.entry k hlt
    · have hlast : (log.push (g.entry s))[k]? = some (g.entry s) := by
        rw [Array.getElem?_push, if_pos h.size.symm]
      refine ⟨g, s, hg, hs, ?_, ?_⟩
      · rw [hlast, Machine.entry, hsteps]
      · rw [Array.getElem?_map, hlast, Machine.entry, hsteps]
        rfl

structure Traced (j : Job) (m : Machine ι κ) (n : Nat) (g : Machine ι κ) : Prop where
  tracing : g.tracing = true
  steps : g.steps = n
  size : g.tape.size = m.tape.size
  log : m.Tells j n g.log

structure Fresh (m : Machine ι κ) : Prop where
  tracing : m.tracing = true
  steps : m.steps = 0
  log : m.log = #[]

theorem Traced.step (h : m.Traced j n g) (hg : m.stepTimes j n = .ok g)
    (hstep : g.step j = .ok g') : m.Traced j (n + 1) g' where
  tracing := (tracing_of_step hstep).trans h.tracing
  steps := by rw [steps_of_step hstep, h.steps]
  size := (size_of_step hstep).trans h.size
  log := by
    obtain ⟨s, hs, hlog⟩ := log_of_step hstep
    rw [hlog, if_pos h.tracing]
    exact h.log.push hg h.steps hs

theorem Fresh.traced (hm : m.Fresh) (h : m.stepTimes j n = .ok g) : m.Traced j n g := by
  induction n generalizing g with
  | zero =>
      cases h
      exact ⟨hm.tracing, hm.steps, rfl, hm.log ▸ tells_zero j m⟩
  | succ n ih =>
      obtain ⟨g', hg', hstep⟩ := stepTimes_succ_eq_ok_iff.1 h
      exact (ih hg').step hg' hstep

/-! ### Entry after entry -/

/-- Each entry says where the next one is made, and the last where the machine stands. -/
structure Linked (links : Links) (size : Int) (g : Machine ι κ) : Prop where
  next : ∀ (k : Nat) (e e' : LogEntry), g.log[k]? = some e → g.log[k + 1]? = some e' →
    e.sequel links size = e'.position? ∧ e'.position?.isSome
  last : ∀ e, g.log.back? = some e → e.sequel links size = some (g.ip, (g.tape.pointer : Int))

theorem Fresh.sequel_entry (hm : m.Fresh) (hg : m.stepTimes j k = .ok g)
    (hg' : m.stepTimes j (k + 1) = .ok g') (hs : j.program.fetch? g.ip = some s) :
    (LogEntry.step k g.ip s g.tape.pointer g.tape.current).sequel j.links m.tape.size =
      some (g'.ip, (g'.tape.pointer : Int)) := by
  obtain ⟨f, hf, hstep⟩ := stepTimes_succ_eq_ok_iff.1 hg'
  obtain rfl := Except.ok.inj (hg.symm.trans hf)
  have htraced := hm.traced hg
  have hsequel := sequel_of_step hs hstep
  rwa [htraced.size, Machine.entry, htraced.steps] at hsequel

theorem Fresh.linked (hm : m.Fresh) (hg : m.stepTimes j n = .ok g) :
    g.Linked j.links m.tape.size where
  next k e e' he he' := by
    have htells := (hm.traced hg).log
    have hlt : k + 1 < n := htells.size ▸ (Array.getElem?_eq_some_iff.1 he').1
    obtain ⟨f, s, hf, hs, hentry, -⟩ := htells.entry k (by omega)
    obtain ⟨f', s', hf', -, hentry', -⟩ := htells.entry (k + 1) hlt
    obtain rfl := Option.some.inj (hentry.symm.trans he)
    obtain rfl := Option.some.inj (hentry'.symm.trans he')
    exact ⟨hm.sequel_entry hf hf' hs, rfl⟩
  last e he := by
    have htells := (hm.traced hg).log
    rw [Array.back?, htells.size] at he
    cases n with
    | zero => rw [Array.getElem?_eq_none (by have := htells.size; omega)] at he; cases he
    | succ n =>
        obtain ⟨f, s, hf, hs, hentry, -⟩ := htells.entry n (Nat.lt_succ_self n)
        obtain rfl := Option.some.inj (hentry.symm.trans he)
        exact hm.sequel_entry hf hg hs

/-! ### Ends of runs -/

structure TellsFailure (j : Job) (m : Machine ι κ) (b : Breakdown ι κ) : Prop where
  limit : ∀ l, b.cause = .fault (.limit l) →
    l.steps = b.machine.steps ∧ m.Tells j b.machine.steps b.machine.log
  symbol : (∃ f, b.cause = .fault (.bracket f)) ∨ (∃ e, b.cause = .codec e) →
    m.Tells j (b.machine.steps + 1) b.machine.log

theorem Fresh.tellsFailure (hm : m.Fresh) {b : Breakdown ι κ} (h : m.stepTimes j n = .error b) :
    m.TellsFailure j b := by
  obtain ⟨k, g, hg, hstep⟩ := exists_of_stepTimes_eq_error h
  have htraced := hm.traced hg
  have hfails := step_eq_error_iff.1 hstep
  have hsteps : b.machine.steps = k := hfails.untouched.steps.trans htraced.steps
  rcases hfails.log with ⟨hcause, hlog⟩ | ⟨s, hs, hcause, hlog⟩
  · constructor
    · intro l hl
      rcases hcause with hcause | hcause
      · obtain rfl : LimitFault.stopped g.steps g.ip = l := by simpa [hcause] using hl
        exact ⟨congrArg Nat.cast (htraced.steps.trans hsteps.symm), hsteps ▸ hlog ▸ htraced.log⟩
      · cases hcause.symm.trans hl
    · rintro (⟨f, hf⟩ | ⟨e, he⟩)
      · rcases hcause with hcause | hcause <;> cases hcause.symm.trans hf
      · rcases hcause with hcause | hcause <;> cases hcause.symm.trans he
  · constructor
    · intro l hl
      rcases hcause with hcause | ⟨e, hcause⟩ <;> cases hcause.symm.trans hl
    · intro _
      rw [hlog, if_pos htraced.tracing, hsteps]
      exact htraced.log.push hg htraced.steps hs

end Machine

/-! ### Runs -/

namespace Execution

variable {ι κ : Type} {s : Settings}

theorem fresh_startOf (htrace : s.trace = true) (tape : Tape) (source : ι) (sink : κ) :
    (startOf s tape source sink).Fresh :=
  ⟨htrace, rfl, rfl⟩

variable [ByteSource ι] [ByteSink κ]

/-- A traced run is told by its log. When it ends, there is one entry for each step, which shows the
machine in front of the step, each entry says where the next one is made, and the last one where the
run ends, which is just behind the program if the links are those of its matching brackets. When it
is stopped by the limit, there is one entry for each step, too, and when a symbol cannot be executed
there is one more. -/
theorem log_tells_run (hsize : 1 ≤ s.tapeSize) (htrace : s.trace = true) (p : Program)
    (links : Links) (source : ι) (sink : κ) :
    ∃ x, ofLinks .stepwise s p links source sink = .ok x ∧ x.job = jobOf s p links ∧
      (∀ f, x.Settles (.ok f) → x.start.Tells x.job f.steps f.log ∧ f.Linked links s.tapeSize ∧
        (p.resolve = .ok links → f.ip = p.length)) ∧
      ∀ b, (x.Settles (.error b) ∨ ∃ n, x.start.stepTimes x.job n = .error b) →
        x.start.TellsFailure x.job b := by
  obtain ⟨x, hx, hjob, hworker, hstart⟩ := exists_stepwise hsize p links source sink
  have hfresh : x.start.Fresh := hstart ▸ fresh_startOf htrace _ source sink
  have hcells : (x.start.tape.size : Int) = s.tapeSize := by
    rw [hstart, startOf, Tape.size_blank, Int.toNat_of_nonneg (by omega)]
  refine ⟨x, hx, hjob, fun f hf => ?_, fun b hb => ?_⟩
  · have hsettles := (settles_stepwise_iff hworker).1 hf
    obtain ⟨n, hn⟩ := hsettles.exists_stepTimes
    have htraced := hfresh.traced hn
    refine ⟨htraced.steps.symm ▸ htraced.log, ?_, fun hp => ?_⟩
    · rw [← hcells, show links = x.job.links from hjob ▸ rfl]
      exact hfresh.linked hn
    · obtain ⟨y, hy, -, -, hend⟩ := safe_of_resolve (s := s) hp hsize source sink
      obtain rfl := Except.ok.inj (hx.symm.trans hy)
      exact hend f hf
  · rcases hb with hb | ⟨n, hn⟩
    · obtain ⟨n, hn⟩ := ((settles_stepwise_iff hworker).1 hb).exists_stepTimes
      exact hfresh.tellsFailure hn
    · exact hfresh.tellsFailure hn

/-- `>++[-]` with its links, whose loop is gone through twice, and `+]` without any. -/
theorem loop_and_unlinked_logs :
    Settings.trace { tapeSize := 2, eof := .keep, limit := none, trace := true } = true ∧
    (Program.ofString ">++[-]").resolve = .ok (.ofPairs [(3, 5)]) ∧ ∃ x y f b,
      ofLinks .stepwise { tapeSize := 2, eof := .keep, limit := none, trace := true }
        (.ofString ">++[-]") (.ofPairs [(3, 5)]) (⟨[]⟩ : ByteQueue) Output.emptyBuffer = .ok x ∧
      ofLinks .stepwise { tapeSize := 2, eof := .keep, limit := none, trace := true }
        (.ofString "+]") .empty (⟨[]⟩ : ByteQueue) Output.emptyBuffer = .ok y ∧
      x.Settles (.ok f) ∧ f.log.size = 8 ∧ f.ip = 6 ∧
      (∃ g, x.start.stepTimes x.job 6 = .ok g ∧ g.ip = 4 ∧ g.tape.current = 1) ∧
      (f.log.map LogEntry.line)[6]? = some "step=6 ip=4 cmd='-' dp=1 cell=1" ∧
      f.log.back? = some (.step 7 5 .closing 1 0) ∧
      (LogEntry.step 7 5 .closing 1 0).sequel (.ofPairs [(3, 5)]) 2 = some (6, 1) ∧
      y.Settles (.error b) ∧ b.machine.steps = 1 ∧ b.machine.log.size = 2 := by
  have hlinks : (Program.ofString ">++[-]").resolve = .ok (.ofPairs [(3, 5)]) := rfl
  obtain ⟨x, hx, -, hends, -⟩ := log_tells_run
    (s := { tapeSize := 2, eof := .keep, limit := none, trace := true }) (by decide) rfl
    (.ofString ">++[-]") (.ofPairs [(3, 5)]) (⟨[]⟩ : ByteQueue) Output.emptyBuffer
  obtain ⟨y, hy, -, -, hfails⟩ := log_tells_run
    (s := { tapeSize := 2, eof := .keep, limit := none, trace := true }) (by decide) rfl
    (.ofString "+]") .empty (⟨[]⟩ : ByteQueue) Output.emptyBuffer
  obtain rfl := Except.ok.inj (hx.symm.trans rfl)
  obtain rfl := Except.ok.inj (hy.symm.trans rfl)
  obtain ⟨htells, hlinked, hip⟩ := hends _ ⟨9, rfl⟩
  obtain ⟨g, c, hg, -, hentry, hline⟩ := htells.entry 6 (by decide)
  obtain ⟨-, hipg, rfl, hpointer, hcell⟩ := LogEntry.step.inj (Option.some.inj
    (hentry.symm.trans (rfl : _ = some (LogEntry.step 6 4 (.char '-') 1 1))))
  have htext : _ = some "step=6 ip=4 cmd='-' dp=1 cell=1" := hline.trans (by
    rw [hipg, hpointer, hcell]
    rfl)
  have hlast := hlinked.last _ rfl
  have hextra := (hfails _ (Or.inl ⟨3, rfl⟩)).symbol (Or.inl ⟨_, rfl⟩)
  exact ⟨rfl, hlinks, _, _, _, _, hx, hy, ⟨9, rfl⟩, htells.size, hip hlinks, ⟨g, hg, hipg, hcell⟩,
    htext, rfl, hlast, ⟨3, rfl⟩, rfl, hextra.size⟩

end Execution

end RingTape
