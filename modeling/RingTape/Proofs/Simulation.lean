import RingTape.Proofs.Mirror
import RingTape.Proofs.Step

/-!
Bursts simulate steps. At every symbol, a burst either moves its registers as a step moves the
machine, or stops in front of what it cannot do itself; `Acts` lists the cases. Along a burst this
adds up to a run of steps that neither reads, writes nor logs (`work_load`), and together with the
answer to what stopped it, to at least one step or to the end of the run (`round_cases`). Where the
steps are spent, the budget of the burst is used up at the same place, since it is never larger than
what the limit leaves.
-/

namespace RingTape.Burst

open Machine (Reaches Settles)

variable {ι κ : Type}

structure Quiet (m m' : Machine ι κ) : Prop where
  tracing : m'.tracing = m.tracing
  log : m'.log = m.log
  source : m'.source = m.source
  sink : m'.sink = m.sink

theorem Quiet.refl (m : Machine ι κ) : Quiet m m := ⟨rfl, rfl, rfl, rfl⟩

theorem Quiet.trans {m m' m'' : Machine ι κ} (h : Quiet m m') (h' : Quiet m' m'') :
    Quiet m m'' where
  tracing := h'.tracing.trans h.tracing
  log := h'.log.trans h.log
  source := h'.source.trans h.source
  sink := h'.sink.trans h.sink

structure Ready (m : Machine ι κ) : Prop where
  ip_nonneg : 0 ≤ m.ip
  untraced : m.tracing = false

theorem Ready.quiet {m m' : Machine ι κ} (h : Ready m) (hq : Quiet m m') (hip : 0 ≤ m'.ip) :
    Ready m' :=
  ⟨hip, hq.tracing.trans h.untraced⟩

/-- The registers hold all that a quiet stretch of steps changes. -/
theorem store_load {m m' : Machine ι κ} {k : Nat} (h : Quiet m m')
    (hsteps : m'.steps = m.steps + k) : store m (load m') k = some m' := by
  have hp := m'.tape.pointer_lt
  have hin : 0 ≤ (load m').pointer ∧ (load m').pointer < (load m').cells.size := by
    constructor
    · exact Int.natCast_nonneg _
    · simpa [load] using hp
  rw [store, dif_pos hin]
  obtain ⟨tape, ip, steps, tracing, log, source, sink⟩ := m'
  obtain ⟨htracing, hlog, hsource, hsink⟩ := h
  simp only at htracing hlog hsource hsink hsteps
  subst htracing hlog hsource hsink hsteps
  simp [load]

theorem load_move (m : Machine ι κ) (d : Int) :
    (load m).move d = load { m with tape := m.tape.move d } := by
  simp only [Registers.move, load, Tape.pointer_move, Tape.cells_move]
  rfl

theorem load_add (m : Machine ι κ) (v : UInt8) :
    (load m).add v = .ok (load { m with tape := m.tape.put (m.tape.current + v) }) := by
  have hp := m.tape.pointer_lt
  simp only [Registers.add, load, Index.locate?_natCast hp, Tape.pointer_put, Tape.cells_put]
  congr 2
  apply Array.ext
  · simp
  · intro i h₁ h₂
    rw [Array.getElem_modify, Array.getElem_set]
    split <;> simp_all [Tape.current, Tape.here]

theorem at?_pointer (m : Machine ι κ) :
    Index.at? (load m).cells (load m).pointer = some m.tape.current := by
  simp only [load, Index.at?_natCast, Array.getElem?_eq_getElem m.tape.pointer_lt]
  rfl

section Acting

variable [ByteSource ι] [ByteSink κ]

/-- What a burst makes of the symbol `s` under `m`, next to what executing it would do. -/
inductive Acts (j : Job) (s : Symbol) (m : Machine ι κ) : Move → Prop
  | moves {m' : Machine ι κ} (executed : m.execute j s = .ok m') (quiet : Quiet m m')
      (ip_nonneg : 0 ≤ m'.ip) : Acts j s m (.ok (load m'))
  | writes (command : s.command? = some .write) : Acts j s m (.error (.output, load m))
  | reads (command : s.command? = some .read) : Acts j s m (.error (.input, load m))
  | unlinked
      (executed : m.execute j s = m.fail (.fault (.bracket (.unlinked m.ip (some s.text))))) :
      Acts j s m (.error (.unlinked, load m))

/-- A bracket that has to jump does so in both engines or in neither. -/
theorem acts_jump {j : Job} {s : Symbol} {m : Machine ι κ} {slots : Array Int}
    {links : Std.TreeMap Int Int} {k : Nat} (hip : m.ip = k) (h : SlotMirrors slots links k)
    (he : m.execute j s = m.jump links s) : Acts j s m ((load m).jump slots) := by
  have hpc : (load m).pc = (k : Int) := hip
  cases h with
  | linked target inside slot link =>
      have hj : (load m).jump slots = .ok (load { m with ip := (target : Int) }) := by
        simp only [Registers.jump, hpc, Index.at?_natCast, slot]
        rw [if_neg (by omega)]
        rfl
      rw [hj]
      exact .moves (he.trans (Machine.jump_of_link (hip ▸ link))) ⟨rfl, rfl, rfl, rfl⟩
        (Int.natCast_nonneg target)
  | unlinked slot link =>
      have hj : (load m).jump slots = .error (.unlinked, load m) := by
        simp only [Registers.jump, hpc, Index.at?_natCast, slot]
        rfl
      rw [hj]
      exact .unlinked (he.trans (Machine.jump_of_no_link (hip ▸ link)))

theorem acts_act {j : Job} {r : Prepared} (hr : r.Mirrors j.program j.links) {s : Symbol}
    {m : Machine ι κ} {k : Nat} (hip : m.ip = k) (hs : j.program.fetch? k = some s) :
    Acts j s m ((load m).act r.codes r.slots) := by
  have hk : k < r.codes.size := by
    rw [hr.size]
    exact Program.lt_of_fetch? hs
  have hcommand : decode r.codes[k] = s.command? :=
    (hr.code k _ (Array.getElem?_eq_getElem hk)).trans (Program.command?_of_fetch? hs)
  have hcode : Index.at? r.codes (load m).pc = some r.codes[k] := by
    rw [show (load m).pc = (k : Int) from hip, Index.at?_natCast, Array.getElem?_eq_getElem hk]
  have hnonneg : 0 ≤ m.ip := by omega
  -- the burst finds by the code the command that the step finds by the symbol
  simp only [Registers.act, hcode]
  rw [show Command.ofChar? (Char.ofNat r.codes[k]) = s.command? from hcommand]
  cases hc : s.command? with
  | none => exact .moves (by simp [Machine.execute, hc]) (.refl m) hnonneg
  | some o =>
      cases o with
      | right =>
          simp only [load_move]
          exact .moves (by simp [Machine.execute, hc, Tape.right]) ⟨rfl, rfl, rfl, rfl⟩ hnonneg
      | left =>
          simp only [load_move]
          exact .moves (by simp [Machine.execute, hc, Tape.left]) ⟨rfl, rfl, rfl, rfl⟩ hnonneg
      | increment =>
          simp only [load_add]
          exact .moves (by simp [Machine.execute, hc, Tape.increment]) ⟨rfl, rfl, rfl, rfl⟩ hnonneg
      | decrement =>
          simp only [load_add]
          exact .moves (by simp [Machine.execute, hc, Tape.decrement, UInt8.sub_eq_add_neg])
            ⟨rfl, rfl, rfl, rfl⟩ hnonneg
      | write => exact .writes hc
      | read => exact .reads hc
      | openLoop =>
          simp only [Registers.branch, at?_pointer]
          by_cases hz : m.tape.current = 0
          · have hm := hr.slots.opening k ((Program.command?_of_fetch? hs).trans hc)
            simpa [hz] using acts_jump hip hm (by simp [Machine.execute, hc, hz])
          · simpa [hz] using Acts.moves (by simp [Machine.execute, hc, hz]) (.refl m) hnonneg
      | closeLoop =>
          simp only [Registers.branch, at?_pointer]
          by_cases hz : m.tape.current = 0
          · simpa [hz] using Acts.moves (by simp [Machine.execute, hc, hz]) (.refl m) hnonneg
          · have hm := hr.slots.closing k ((Program.command?_of_fetch? hs).trans hc)
            simpa [hz] using acts_jump hip hm (by simp [Machine.execute, hc, hz])

end Acting

section Working

variable [ByteSource ι] [ByteSink κ] {j : Job} {r : Prepared}

theorem Ready.step (hr : r.Mirrors j.program j.links) {m m' : Machine ι κ} (hm : Ready m)
    (h : m.step j = .ok m') : Ready m' := by
  refine ⟨?_, (Machine.tracing_of_step h).trans hm.untraced⟩
  obtain ⟨k, hk⟩ := Int.eq_ofNat_of_zero_le hm.ip_nonneg
  obtain ⟨s, t, hs, hland, hip⟩ := Machine.ip_of_step h
  rw [hk] at hs hland
  have ht : 0 ≤ t := by
    cases hland with
    | here => omega
    | opening command link =>
        have hm := hr.slots.opening k ((Program.command?_of_fetch? hs).trans command)
        exact hm.target_nonneg link
    | closing command link =>
        have hm := hr.slots.closing k ((Program.command?_of_fetch? hs).trans command)
        exact hm.target_nonneg link
  omega

inductive Stopped (j : Job) (budget k : Nat) (m : Machine ι κ) : Stop → Prop
  | ended (done : m.isDone j) : Stopped j budget k m .ended
  | budget (pending : ¬ m.isDone j) (used : k = budget) : Stopped j budget k m .budget
  | output {s : Symbol} (left : k < budget) (pending : ¬ m.isDone j)
      (symbol : j.program.fetch? m.ip = some s) (command : s.command? = some .write) :
      Stopped j budget k m .output
  | input {s : Symbol} (left : k < budget) (pending : ¬ m.isDone j)
      (symbol : j.program.fetch? m.ip = some s) (command : s.command? = some .read) :
      Stopped j budget k m .input
  | unlinked {s : Symbol} (left : k < budget) (pending : ¬ m.isDone j)
      (symbol : j.program.fetch? m.ip = some s)
      (executed : m.execute j s = m.fail (.fault (.bracket (.unlinked m.ip (some s.text))))) :
      Stopped j budget k m .unlinked

theorem Stopped.succ {budget k : Nat} {m : Machine ι κ} {stop : Stop}
    (h : Stopped j budget k m stop) : Stopped j (budget + 1) (k + 1) m stop := by
  cases h with
  | ended done => exact .ended done
  | budget pending used => exact .budget pending (by omega)
  | output left pending symbol command => exact .output (by omega) pending symbol command
  | input left pending symbol command => exact .input (by omega) pending symbol command
  | unlinked left pending symbol executed => exact .unlinked (by omega) pending symbol executed

/-- A burst is a run of steps, as long as none of them would find the steps spent. -/
theorem work_load (hr : r.Mirrors j.program j.links) (budget : Nat) {m : Machine ι κ} (hm : Ready m)
    (hleft : ∀ i < budget, j.spent (m.steps + i) = false) (done : Nat) :
    ∃ k m' stop, (load m).work r.codes r.slots done budget = ⟨stop, load m', done + k⟩ ∧
      Reaches j (Machine.step j) k m m' ∧ Quiet m m' ∧ Ready m' ∧ Stopped j budget k m' stop := by
  -- every move takes one from the budget and adds one to the steps, so `hleft` stays true
  induction budget generalizing m done with
  | zero =>
      by_cases hd : m.isDone j
      · refine ⟨0, m, .ended, ?_, .refl m, .refl m, hm, .ended hd⟩
        exact Registers.work_of_ended (hr.size ▸ Machine.isDone_iff.1 hd) done 0
      · refine ⟨0, m, .budget, ?_, .refl m, .refl m, hm, .budget hd rfl⟩
        have hpc : ¬ (r.codes.size : Int) ≤ (load m).pc := by
          rw [hr.size]
          exact fun h => hd (Machine.isDone_iff.2 h)
        simp [Registers.work, hpc]
  | succ budget ih =>
      by_cases hd : m.isDone j
      · refine ⟨0, m, .ended, ?_, .refl m, .refl m, hm, .ended hd⟩
        exact Registers.work_of_ended (hr.size ▸ Machine.isDone_iff.1 hd) done _
      · have hpc : (load m).pc < r.codes.size := by
          rw [hr.size]
          exact Int.not_le.1 fun h => hd (Machine.isDone_iff.2 h)
        obtain ⟨k, s, hk, hs⟩ := Machine.exists_symbol hm.ip_nonneg hd
        have hacts := acts_act hr hk hs
        rw [← hk] at hs
        generalize hact : (load m).act r.codes r.slots = move at hacts
        cases hacts with
        | @moves m' executed quiet ip_nonneg =>
            have hstep : m.step j = .ok m'.next := by
              refine Machine.step_of_execute (by simpa using hleft 0 (by omega)) hs ?_
              rwa [Machine.note_of_not_tracing hm.untraced]
            have hquiet : Quiet m m'.next := quiet.trans ⟨rfl, rfl, rfl, rfl⟩
            have hready : Ready m'.next := hm.quiet hquiet (by simp; omega)
            have hleft' : ∀ i < budget, j.spent (m'.next.steps + i) = false := by
              intro i hi
              rw [Machine.steps_of_step hstep, Nat.add_assoc, Nat.add_comm 1 i]
              exact hleft (i + 1) (by omega)
            obtain ⟨i, m'', stop, hwork, hreach, hq, hready', hstop⟩ := ih hready hleft' (done + 1)
            refine ⟨i + 1, m'', stop, ?_, .head hd hstep hreach, hquiet.trans hq, hready',
              hstop.succ⟩
            rw [Registers.work_of_move hpc hact, show done + (i + 1) = done + 1 + i by omega]
            exact hwork
        | writes command =>
            exact ⟨0, m, .output, Registers.work_of_stop hpc hact done budget, .refl m, .refl m, hm,
              .output (by omega) hd hs command⟩
        | reads command =>
            exact ⟨0, m, .input, Registers.work_of_stop hpc hact done budget, .refl m, .refl m, hm,
              .input (by omega) hd hs command⟩
        | unlinked executed =>
            exact ⟨0, m, .unlinked, Registers.work_of_stop hpc hact done budget, .refl m, .refl m,
              hm, .unlinked (by omega) hd hs executed⟩

theorem budget_pos {batch : Nat} (hbatch : 1 ≤ batch) {steps : Nat} (h : j.spent steps = false) :
    1 ≤ budget batch j.limit steps := by
  unfold budget
  cases hl : j.limit with
  | none => exact hbatch
  | some n =>
      have : ¬ n ≤ steps := by simpa [Job.spent, hl] using h
      simp only
      omega

/-- The budget of a burst ends no later than the limit. -/
theorem not_spent_of_lt_budget {batch steps i : Nat} (h : i < budget batch j.limit steps) :
    j.spent (steps + i) = false := by
  unfold budget at h
  cases hl : j.limit with
  | none => simp [Job.spent, hl]
  | some n =>
      simp only [hl] at h
      simp only [Job.spent, hl, decide_eq_false_iff_not]
      omega

/-- What stopped a burst short of its budget is done as a step would have done it. -/
theorem Stopped.answer {budget k : Nat} {m : Machine ι κ} {stop : Stop} (hm : Ready m)
    (hleft : k < budget → j.spent m.steps = false) (h : Stopped j budget k m stop) :
    (answer j stop m = .ok m ∧ (m.isDone j ∨ k = budget)) ∨
      (¬ m.isDone j ∧ answer j stop m = m.step j) := by
  have hstep : ∀ {s}, k < budget → j.program.fetch? m.ip = some s →
      m.step j = (m.execute j s).map Machine.next := by
    intro s left hs
    rw [Machine.step_of_symbol (hleft left) hs, Machine.note_of_not_tracing hm.untraced]
  cases h with
  | ended done => exact Or.inl ⟨rfl, Or.inl done⟩
  | budget pending used => exact Or.inl ⟨rfl, Or.inr used⟩
  | output left pending symbol command =>
      refine Or.inr ⟨pending, ?_⟩
      rw [hstep left symbol]
      simp [Burst.answer, Machine.checkLimit_of_not_spent (hleft left), Machine.execute, command,
        Except.map]
  | input left pending symbol command =>
      refine Or.inr ⟨pending, ?_⟩
      rw [hstep left symbol]
      simp [Burst.answer, Machine.checkLimit_of_not_spent (hleft left), Machine.execute, command,
        Except.bind]
  | unlinked left pending symbol executed =>
      refine Or.inr ⟨pending, ?_⟩
      rw [hstep left symbol, executed]
      simp [Burst.answer, symbol, Machine.fail, Except.map]

/-- A round is a run of steps, and the answer to what ended it. -/
theorem round_eq_answer (hr : r.Mirrors j.program j.links) (batch : Nat) {m : Machine ι κ}
    (hm : Ready m) (hl : j.spent m.steps = false) :
    ∃ k m' stop, round j r batch m = answer j stop m' ∧ Reaches j (Machine.step j) k m m' ∧
      Ready m' ∧ Stopped j (budget batch j.limit m.steps) k m' stop := by
  obtain ⟨k, m', stop, hwork, hreach, hquiet, hready, hstop⟩ :=
    work_load hr (budget batch j.limit m.steps) hm (fun _ => not_spent_of_lt_budget) 0
  refine ⟨k, m', stop, ?_, hreach, hready, hstop⟩
  have hrun : run r.codes r.slots (budget batch j.limit m.steps) (load m) = ⟨stop, load m', k⟩ := by
    rw [run, hwork, Nat.zero_add]
  simp only [round, Machine.checkLimit_of_not_spent hl, Except.bind, hrun,
    store_load hquiet hreach.steps]

/-- Either a round takes the machine at least one step further, or it ends the run as a step
would. -/
theorem round_cases (hr : r.Mirrors j.program j.links) {batch : Nat} (hbatch : 1 ≤ batch)
    {m : Machine ι κ} (hm : Ready m) (pending : ¬ m.isDone j) :
    (∃ m' k, round j r batch m = .ok m' ∧ Ready m' ∧ Reaches j (Machine.step j) (k + 1) m m') ∨
      (∃ b, round j r batch m = .error b ∧ Settles j (Machine.step j) m (.error b)) := by
  cases hl : j.spent m.steps with
  | true =>
      refine Or.inr ⟨_, ?_, .failed (.refl m) pending (Machine.step_of_spent hl)⟩
      rw [round, Machine.checkLimit_of_spent hl]
      rfl
  | false =>
      obtain ⟨k, m', stop, hround, hreach, hready, hstop⟩ := round_eq_answer hr batch hm hl
      have hpos := budget_pos (j := j) hbatch hl
      have hleft : k < budget batch j.limit m.steps → j.spent m'.steps = false := by
        rw [hreach.steps]
        exact not_spent_of_lt_budget
      rw [hround]
      rcases hstop.answer hready hleft with ⟨hans, hend⟩ | ⟨pending', hans⟩
      · cases k with
        | zero =>
            -- a budget that is not empty cannot have been used up in no steps
            cases hreach
            rcases hend with done | used
            · exact absurd done pending
            · omega
        | succ k => exact Or.inl ⟨m', k, hans, hready, hreach⟩
      · rw [hans]
        cases hstep : m'.step j with
        | ok m'' =>
            exact Or.inl ⟨m'', k, rfl, hready.step hr hstep, hreach.tail pending' hstep⟩
        | error b => exact Or.inr ⟨b, rfl, .failed hreach pending' hstep⟩

end Working

end RingTape.Burst
