import RingTape.Proofs.Batches
import RingTape.Proofs.Failing

/-!
Termination. Under a limit every run ends, whatever its program is linked by. What makes it end is
neither the program nor the place but the count of steps: it grows in every round of either engine,
and not beyond the limit (`drive_of_counting`).

On the stepwise engine a round is a step, and there is no more to say. A burst need not take any
step, as a byte may have to be read or written first, and then it is the answer that counts. `Halts`
lists how a burst can end, and `Metered` says what follows for the count.
-/

namespace RingTape

/-! ### Rounds that count -/

namespace Machine

variable {ι κ : Type} {j : Job} {work : Machine ι κ → Attempt ι κ} {m : Machine ι κ} {N : Nat}
  {P : Machine ι κ → Prop}

inductive Counts (N : Nat) (P : Machine ι κ → Prop) (m : Machine ι κ) : Attempt ι κ → Prop
  | ok {m' : Machine ι κ} (keeps : P m') (more : m.steps < m'.steps) (le : m'.steps ≤ N) :
      Counts N P m (.ok m')
  | error {b : Breakdown ι κ} (le : b.machine.steps ≤ N) : Counts N P m (.error b)

/-- Rounds that count come to an end as soon as there have been more of them than steps are
left. -/
theorem drive_of_counting
    (hwork : ∀ {m}, P m → ¬ m.isDone j → m.steps ≤ N → Counts N P m (work m))
    (hm : P m) (hle : m.steps ≤ N) :
    (∃ a, ∀ k, N < m.steps + k → m.drive j work k = .ofAttempt a) ∧
      ∀ k, (m.drive j work k).machine.steps ≤ N := by
  -- on the number of steps that are left
  generalize hleft : N - m.steps = left
  induction left using Nat.strongRecOn generalizing m with
  | ind left ih =>
    by_cases done : m.isDone j
    · refine ⟨⟨.ok m, fun k _ => drive_of_isDone done k⟩, fun k => ?_⟩
      rw [drive_of_isDone done k]
      exact hle
    · have hzero : m.drive j work 0 = .running m := by simp [drive, done]
      have hcounts := hwork hm done hle
      generalize hw : work m = a at hcounts
      cases hcounts with
      | @ok m' keeps more le =>
          obtain ⟨⟨a, ha⟩, hsteps⟩ := ih (N - m'.steps) (by omega) keeps le rfl
          have hsucc (k : Nat) : m.drive j work (k + 1) = m'.drive j work k := by
            simp [drive, done, hw]
          refine ⟨⟨a, fun k hk => ?_⟩, fun k => ?_⟩
          · obtain ⟨k, rfl⟩ := Nat.exists_eq_succ_of_ne_zero (n := k) (by omega)
            rw [hsucc]
            exact ha k (by omega)
          · cases k with
            | zero => rwa [hzero]
            | succ k =>
                rw [hsucc]
                exact hsteps k
      | @error b le =>
          have hsucc (k : Nat) : m.drive j work (k + 1) = .failed b := by simp [drive, done, hw]
          refine ⟨⟨.error b, fun k hk => ?_⟩, fun k => ?_⟩
          · obtain ⟨k, rfl⟩ := Nat.exists_eq_succ_of_ne_zero (n := k) (by omega)
            exact hsucc k
          · cases k with
            | zero => rwa [hzero]
            | succ k => rwa [hsucc]

/-- A step counts itself, or leaves the count as it is and fails. -/
theorem step_counts [ByteSource ι] [ByteSink κ] {n : Int} (hl : j.limit = some n)
    (hle : m.steps ≤ n.toNat) : Counts n.toNat (fun _ => True) m (m.step j) := by
  cases hstep : m.step j with
  | ok m' =>
      have hsteps := steps_of_step hstep
      have hlt : ¬ n ≤ m.steps := by simpa [Job.spent, hl] using (step_eq_ok_iff.1 hstep).1
      exact .ok trivial (by omega) (by omega)
  | error b =>
      refine .error ?_
      rw [(step_eq_error_iff.1 hstep).untouched.steps]
      exact hle

end Machine

/-! ### Bursts that count -/

namespace Burst

open Registers (Passes Within)

/-- How a burst from `g` ends: behind the program, with its budget used up, or in front of a symbol
that stops it. In each case it has taken a step for every symbol that it has gone by. -/
inductive Halts (r : Prepared) (budget : Nat) (g : Registers) : Outcome → Prop
  | ended {left : Nat} {g' : Registers} (way : Passes r budget g left g')
      (done : (r.codes.size : Int) ≤ g'.pc) : Halts r budget g ⟨.ended, g', budget - left⟩
  | budget {g' : Registers} (way : Passes r budget g 0 g') : Halts r budget g ⟨.budget, g', budget⟩
  | symbol {left : Nat} {g' g'' : Registers} {stop : Stop} (way : Passes r budget g (left + 1) g')
      (stopped : g'.act r.codes r.slots = .error (stop, g'')) :
      Halts r budget g ⟨stop, g'', budget - (left + 1)⟩

theorem Halts.head {r : Prepared} {budget : Nat} {g g' : Registers} {o : Outcome}
    (pending : g.pc < r.codes.size) (moved : g.act r.codes r.slots = .ok g')
    (h : Halts r budget { g' with pc := g'.pc + 1 } o) : Halts r (budget + 1) g (o.after 1) := by
  have hsteps {left : Nat} (hle : left ≤ budget) : 1 + (budget - left) = budget + 1 - left := by
    omega
  cases h with
  | ended way done =>
      simp only [Outcome.after, hsteps way.left_le]
      exact .ended (.head pending moved way) done
  | budget way =>
      simp only [Outcome.after, Nat.add_comm 1]
      exact .budget (.head pending moved way)
  | symbol way stopped =>
      simp only [Outcome.after, hsteps way.left_le]
      exact .symbol (.head pending moved way) stopped

theorem halts_run (r : Prepared) (budget : Nat) (g : Registers) :
    Halts r budget g (run r.codes r.slots budget g) := by
  induction budget generalizing g with
  | zero =>
      by_cases hend : (r.codes.size : Int) ≤ g.pc
      · rw [run, Registers.work_of_ended hend]
        exact .ended (.refl 0 g) hend
      · rw [run, Registers.work_zero (Int.not_le.1 hend)]
        exact .budget (.refl 0 g)
  | succ budget ih =>
      by_cases hend : (r.codes.size : Int) ≤ g.pc
      · have hended := Halts.ended (.refl (budget + 1) g) hend
        rw [Nat.sub_self] at hended
        rwa [run, Registers.work_of_ended hend]
      · have pending := Int.not_le.1 hend
        cases hact : g.act r.codes r.slots with
        | error e =>
            have hstopped := Halts.symbol (.refl (budget + 1) g) hact
            rw [Nat.sub_self] at hstopped
            rwa [run, Registers.work_of_stop pending hact]
        | ok g' =>
            rw [run, Registers.work_of_move pending hact, Nat.zero_add]
            have hrest : Registers.work r.codes r.slots 1 budget { g' with pc := g'.pc + 1 } =
                (run r.codes r.slots budget { g' with pc := g'.pc + 1 }).after 1 :=
              Registers.work_after 1 0 budget _
            rw [hrest]
            exact (ih _).head pending hact

def Stop.answered : Stop → Nat
  | .output | .input => 1
  | _ => 0

namespace Halts

variable {r : Prepared} {budget : Nat} {g : Registers} {o : Outcome}

/-- What a burst counts are the symbols that it has gone by. -/
theorem exists_passes (h : Halts r budget g o) :
    ∃ left g', Passes r budget g left g' ∧ budget = o.steps + left := by
  cases h with
  | ended way =>
      have := way.left_le
      exact ⟨_, _, way, by simp only; omega⟩
  | budget way => exact ⟨0, _, way, rfl⟩
  | symbol way =>
      have := way.left_le
      exact ⟨_, _, way, by simp only; omega⟩

/-- There is a step left in the budget for the symbol that is to be answered. -/
theorem steps_add_answered_le (h : Halts r budget g o) : o.steps + o.stop.answered ≤ budget := by
  cases h with
  | ended => exact Nat.sub_le budget _
  | budget => exact Nat.le_refl budget
  | @symbol left g' g'' stop way stopped =>
      have hleft := way.left_le
      have hanswered : stop.answered ≤ 1 := by cases stop <;> decide
      simp only
      omega

/-- A burst that has something to do counts at least one step, or the answer to it does. -/
theorem counts (h : Halts r budget g o) (pending : g.pc < r.codes.size) (hpos : 1 ≤ budget)
    (hstop : o.stop ≠ .unlinked) (hstray : o.stop ≠ .stray) : 0 < o.steps + o.stop.answered := by
  cases h with
  | ended way done =>
      cases way with
      | refl => omega
      | head _ _ rest =>
          have := rest.left_le
          simp only [Stop.answered]
          omega
  | budget => exact Nat.lt_of_lt_of_le hpos (Nat.le_add_right _ _)
  | @symbol left g' g'' stop way stopped =>
      obtain ⟨hb, he⟩ := Registers.stop_of_act stopped
      cases stop with
      | output => exact Nat.lt_add_left _ Nat.one_pos
      | input => exact Nat.lt_add_left _ Nat.one_pos
      | ended => exact absurd rfl he
      | budget => exact absurd rfl hb
      | unlinked => exact absurd rfl hstop
      | stray => exact absurd rfl hstray

end Halts

section Rounds

variable {ι κ : Type} [ByteSource ι] [ByteSink κ] {j : Job} {r : Prepared} {m m' : Machine ι κ}
  {b : Breakdown ι κ} {stop : Stop} {size batch : Nat} {n : Int}

theorem budget_le_batch (batch : Nat) (limit : Option Int) (steps : Nat) :
    budget batch limit steps ≤ batch := by
  unfold budget
  split
  · exact Nat.le_refl batch
  · exact Nat.min_le_left batch _

theorem steps_add_budget_le (batch : Nat) (hl : j.limit = some n) {steps : Nat}
    (hle : steps ≤ n.toNat) : steps + budget batch j.limit steps ≤ n.toNat := by
  simp only [budget, hl]
  omega

inductive Answers (stop : Stop) (m : Machine ι κ) : Attempt ι κ → Prop
  | ok {m' : Machine ι κ} (linked : stop ≠ .unlinked) (known : stop ≠ .stray)
      (steps : m'.steps = m.steps + stop.answered) : Answers stop m (.ok m')
  | error {b : Breakdown ι κ} (steps : b.machine.steps = m.steps) : Answers stop m (.error b)

theorem answer_answers (j : Job) (stop : Stop) (m : Machine ι κ) :
    Answers stop m (answer j stop m) := by
  have hanswered := answered_answer j stop m
  generalize answer j stop m = a at hanswered ⊢
  cases hanswered with
  | ended => exact .ok (by decide) (by decide) rfl
  | budget => exact .ok (by decide) (by decide) rfl
  | written left => exact .ok (by decide) (by decide) rfl
  | read left byte =>
      have hkeeps := (Machine.readByte_frame byte).1
      exact .ok (by decide) (by decide) (congrArg (· + 1) hkeeps.steps)
  | unread left broken => exact .error rfl
  | spent asked reached => exact .error rfl
  | unlinked symbol => exact .error rfl
  | lost symbol => exact .error rfl
  | stray => exact .error rfl

def outcome (j : Job) (r : Prepared) (batch : Nat) (m : Machine ι κ) : Outcome :=
  run r.codes r.slots (budget batch j.limit m.steps) (load m)

omit [ByteSource ι] [ByteSink κ] in
theorem outcome_halts (j : Job) (r : Prepared) (batch : Nat) (m : Machine ι κ) :
    Halts r (budget batch j.limit m.steps) (load m) (outcome j r batch m) :=
  halts_run r _ _

/-- A round that may take a step is a burst in bounds and the answer to it. -/
theorem round_eq_answer_outcome (batch : Nat) (hr : r.Fits j.program.length) (hm : m.Sound j size)
    (left : j.spent m.steps = false) :
    ∃ m', store m (outcome j r batch m).registers (outcome j r batch m).steps = some m' ∧
      round j r batch m = answer j (outcome j r batch m).stop m' ∧ m'.Sound j size := by
  rw [round_of_not_spent left]
  exact exists_burst hr hm (budget batch j.limit m.steps)

structure Metered (N : Nat) (j : Job) (r : Prepared) (batch : Nat) (m : Machine ι κ) : Prop where
  budget_pos : 1 ≤ budget batch j.limit m.steps
  budget_le : budget batch j.limit m.steps ≤ batch
  /-- Wherever the burst has come to, the steps that it has taken by then are within the limit. -/
  steps_le : ∀ left g, Passes r (budget batch j.limit m.steps) (load m) left g →
    m.steps + (budget batch j.limit m.steps - left) ≤ N
  /-- The steps of the burst are the symbols that it has gone by. -/
  steps_eq : ∃ left g, Passes r (budget batch j.limit m.steps) (load m) left g ∧
    budget batch j.limit m.steps = (outcome j r batch m).steps + left
  /-- A byte is written or read only when a step is left for it. -/
  answered : ∀ m', (outcome j r batch m).stop = .output ∨ (outcome j r batch m).stop = .input →
    store m (outcome j r batch m).registers (outcome j r batch m).steps = some m' →
      m'.checkLimit j = .ok m'
  /-- The round takes a step in its burst or behind it, or it fails. -/
  progress : ∀ m', round j r batch m = .ok m' →
    m'.steps = m.steps + (outcome j r batch m).steps + (outcome j r batch m).stop.answered ∧
      0 < (outcome j r batch m).steps + (outcome j r batch m).stop.answered

theorem metered (hbatch : 1 ≤ batch) (hr : r.Fits j.program.length) (hm : m.Sound j size)
    (hl : j.limit = some n) (hle : m.steps ≤ n.toNat) (pending : ¬ m.isDone j)
    (left : j.spent m.steps = false) : Metered n.toNat j r batch m where
  budget_pos := budget_pos hbatch left
  budget_le := budget_le_batch batch j.limit m.steps
  steps_le _ _ _ := by
    have := steps_add_budget_le batch hl hle
    omega
  steps_eq := (outcome_halts j r batch m).exists_passes
  answered m' hstop hstore := by
    have hlt : (outcome j r batch m).steps < budget batch j.limit m.steps := by
      have hone : (outcome j r batch m).stop.answered = 1 := by
        rcases hstop with hstop | hstop <;> rw [hstop] <;> rfl
      have := (outcome_halts j r batch m).steps_add_answered_le
      omega
    refine Machine.checkLimit_of_not_spent ?_
    rw [steps_of_store hstore]
    exact not_spent_of_lt_budget hlt
  progress m' hround := by
    obtain ⟨f, hstore, hanswer, -⟩ := round_eq_answer_outcome batch hr hm left
    have hanswers := answer_answers j (outcome j r batch m).stop f
    rw [← hanswer, hround] at hanswers
    cases hanswers with
    | ok linked known steps =>
        rw [steps_of_store hstore] at steps
        have hpc : (load m).pc < r.codes.size := by
          rw [hr.codes]
          exact Int.not_le.1 fun h => pending (Machine.isDone_iff.2 h)
        exact ⟨steps, (outcome_halts j r batch m).counts hpc (budget_pos hbatch left) linked known⟩

/-- A round counts its steps, or fails. -/
theorem round_counts (hbatch : 1 ≤ batch) (hr : r.Fits j.program.length) (hm : m.Sound j size)
    (hl : j.limit = some n) (hle : m.steps ≤ n.toNat) (pending : ¬ m.isDone j) :
    Machine.Counts n.toNat (fun m => m.Sound j size) m (round j r batch m) := by
  cases hspent : j.spent m.steps with
  | true =>
      rw [round_of_spent hspent]
      exact .error hle
  | false =>
      have hbudget := steps_add_budget_le batch hl hle
      have hsteps := (outcome_halts j r batch m).steps_add_answered_le
      obtain ⟨f, hstore, hanswer, -⟩ := round_eq_answer_outcome batch hr hm hspent
      have hf := steps_of_store hstore
      have hanswers := answer_answers j (outcome j r batch m).stop f
      rw [← hanswer] at hanswers
      have hprogress := (metered hbatch hr hm hl hle pending hspent).progress
      have hkeeps := round_keeps batch hr hm
      generalize round j r batch m = a at hanswers hprogress hkeeps
      cases hanswers with
      | @ok m' linked known steps =>
          cases hkeeps with
          | ok sound =>
              obtain ⟨-, hpos⟩ := hprogress m' rfl
              exact .ok sound (by omega) (by omega)
      | error steps => exact .error (by omega)

theorem steps_le_of_reaches (hbatch : 1 ≤ batch) (hr : r.Fits j.program.length)
    (hl : j.limit = some n) {k : Nat} (h : Machine.Reaches j (round j r batch) k m m')
    (hm : m.Sound j size) (hle : m.steps ≤ n.toNat) : m'.steps ≤ n.toNat := by
  refine (h.invariant (P := fun m => m.Sound j size ∧ m.steps ≤ n.toNat) ?_ ⟨hm, hle⟩).2
  rintro m m' pending worked ⟨hm, hle⟩
  have hcounts := round_counts hbatch hr hm hl hle pending
  rw [worked] at hcounts
  cases hcounts with
  | ok keeps more le => exact ⟨keeps, le⟩

end Rounds

/-- Whatever is made of single characters and linked at places that name slots can be made ready. -/
theorem exists_prepare {p : Program} {l : Links} (hp : Codable p)
    (hl : ∀ q ∈ l.pairs.toList, Links.Names p.length q) : ∃ r, prepare p l = .ok r := by
  obtain ⟨cs, hcs, -⟩ := exists_codes hp
  obtain ⟨slots, hslots⟩ := Links.exists_slots_iff.2 hl
  exact ⟨_, by simp [prepare, hcs, hslots]; rfl⟩

end Burst

namespace Execution

variable {ι κ : Type} [ByteSource ι] [ByteSink κ]

/-- The run ends within `N` steps: it has ended after more than `N` rounds, and at no moment have
more steps been taken. -/
structure EndsWithin (N : Nat) (x : Execution ι κ) : Prop where
  ends : ∃ a, ∀ k, N < k → x.run k = .ofAttempt a
  steps_le : ∀ k, (x.run k).machine.steps ≤ N

theorem EndsWithin.of_counting {N : Nat} {x : Execution ι κ}
    {work : Machine ι κ → Attempt ι κ} {P : Machine ι κ → Prop}
    (hrun : ∀ k, x.run k = x.start.drive x.job work k)
    (hwork : ∀ {m}, P m → ¬ m.isDone x.job → m.steps ≤ N → Machine.Counts N P m (work m))
    (hstart : P x.start) (hsteps : x.start.steps = 0) : x.EndsWithin N := by
  obtain ⟨⟨a, ha⟩, hle⟩ := Machine.drive_of_counting hwork hstart (by omega)
  refine ⟨⟨a, fun k hk => ?_⟩, fun k => ?_⟩
  · rw [hrun]
    exact ha k (by omega)
  · rw [hrun]
    exact hle k

variable {s : Settings} {n : Int}

theorem endsWithin_stepwise (hlimit : s.limit = some n) (p : Program) (links : Links) (tape : Tape)
    (source : ι) (sink : κ) :
    EndsWithin n.toNat ⟨jobOf s p links, .stepwise, startOf s tape source sink⟩ :=
  .of_counting (P := fun _ => True) (fun k => Machine.advance_eq_drive _ k _)
    (fun _ _ hle => Machine.step_counts hlimit hle) trivial rfl

theorem endsWithin_burst (hlimit : s.limit = some n) {p : Program} {links : Links}
    {r : Burst.Prepared} (hr : r.Fits p.length) (tape : Tape) (source : ι) (sink : κ) :
    EndsWithin n.toNat ⟨jobOf s p links, .burst r, startOf s tape source sink⟩ :=
  .of_counting (fun k => Burst.advance_eq_drive _ r _ k _)
    (fun hm pending hle =>
      Burst.round_counts (j := jobOf s p links) (by decide) hr hm hlimit hle pending)
    (sound_startOf_size s p links tape source sink) rfl

/-- A run that may take `n` steps ends within that many, on either engine and whatever the program
is linked by. On the stepwise engine a round is a step. The other engine tells at once what it
cannot be made ready for. Otherwise it gives each burst a budget of at least one step and no more
than a batch, takes a step in every round that does not fail, and never finds the steps spent when a
burst has stopped to have a byte written or read. -/
theorem ends_within_limit (hlimit : s.limit = some n) (hsize : 1 ≤ s.tapeSize) (p : Program)
    (links : Links) (source : ι) (sink : κ) :
    (∃ x, ofLinks .stepwise s p links source sink = .ok x ∧ x.EndsWithin n.toNat ∧
      ∀ k m, Machine.Reaches x.job (Machine.step x.job) k x.start m → m.steps = k) ∧
    (((¬ Burst.Codable p ∨ ∃ q ∈ links.pairs.toList, ¬ Links.Names p.length q) ∧
        ∃ e, ofLinks .burst s p links source sink = .error e) ∨
      ∃ r x, ofLinks .burst s p links source sink = .ok x ∧ x.worker = .burst r ∧
        x.EndsWithin n.toNat ∧
        ∀ k m, Machine.Reaches x.job (Burst.round x.job r Burst.batchSize) k x.start m →
          ¬ m.isDone x.job →
            (x.job.spent m.steps = true ∧ Burst.round x.job r Burst.batchSize m =
              m.fail (.fault (.limit (.stopped m.steps m.ip)))) ∨
            Burst.Metered n.toNat x.job r Burst.batchSize m) := by
  obtain ⟨tape, htape, -⟩ := exists_blank hsize
  constructor
  · refine ⟨_, ofLinks_stepwise htape, endsWithin_stepwise hlimit p links tape source sink, ?_⟩
    intro k m hm
    rw [hm.steps]
    exact Nat.zero_add k
  · cases hprep : Burst.prepare p links with
    | error e =>
        refine Or.inl ⟨?_, e, by simp [ofLinks, htape, Worker.prepare, hprep, Except.map]⟩
        by_contra hprepared
        simp only [not_or, not_not, not_exists, not_and] at hprepared
        obtain ⟨r, hr⟩ := Burst.exists_prepare hprepared.1 hprepared.2
        cases hprep.symm.trans hr
    | ok r =>
        have hr := Burst.fits_of_prepare hprep
        have hstart := sound_startOf_size s p links tape source sink
        refine Or.inr ⟨r, _, ofLinks_burst htape hprep, rfl,
          endsWithin_burst hlimit hr tape source sink, fun k m hm pending => ?_⟩
        have hsound := Burst.sound_of_reaches hr hm hstart
        have hle := Burst.steps_le_of_reaches (by decide) hr hlimit hm hstart (Nat.zero_le _)
        cases hspent : (jobOf s p links).spent m.steps with
        | true => exact Or.inl ⟨rfl, Burst.round_of_spent hspent⟩
        | false => exact Or.inr (Burst.metered (by decide) hr hsound hlimit hle pending hspent)

/-- `+[>.<]` goes round for ever, though one pair too many is among its links. With seven steps both
engines are stopped; the first burst stops after three, in front of a byte to be written. -/
theorem round_loop_ends_within_limit :
    Settings.limit { tapeSize := 2, eof := .keep, limit := some 7, trace := false } = some 7 ∧
    (1 : Int) ≤ 2 ∧ ∃ x y r b,
      ofLinks .stepwise { tapeSize := 2, eof := .keep, limit := some 7, trace := false }
        (.ofString "+[>.<]") (.ofPairs [(1, 5), (-1, 1)]) (⟨[]⟩ : ByteQueue) Output.emptyBuffer =
          .ok x ∧
      x.EndsWithin 7 ∧ x.Settles (.error b) ∧ b.machine.steps = 7 ∧
      ofLinks .burst { tapeSize := 2, eof := .keep, limit := some 7, trace := false }
        (.ofString "+[>.<]") (.ofPairs [(1, 5), (-1, 1)]) (⟨[]⟩ : ByteQueue) Output.emptyBuffer =
          .ok y ∧
      y.worker = .burst r ∧ y.EndsWithin 7 ∧
      Burst.Metered 7 y.job r Burst.batchSize y.start ∧
      (Burst.outcome y.job r Burst.batchSize y.start).stop = .output ∧
      (Burst.outcome y.job r Burst.batchSize y.start).steps = 3 := by
  obtain ⟨⟨x, hx, hxends, -⟩, ⟨hodd, -⟩ | ⟨r, y, hy, hr, hyends, hmetered⟩⟩ := ends_within_limit
    (s := { tapeSize := 2, eof := .keep, limit := some 7, trace := false }) rfl (by decide)
    (.ofString "+[>.<]") (.ofPairs [(1, 5), (-1, 1)]) (⟨[]⟩ : ByteQueue) Output.emptyBuffer
  · rcases hodd with hcodes | ⟨q, hq, hnames⟩
    · exact absurd (Burst.codable_ofString _) hcodes
    · rw [Links.pairs_ofPairs] at hq
      simp only [List.mem_cons, List.not_mem_nil, or_false] at hq
      rcases hq with rfl | rfl
      · exact absurd ⟨by decide, by decide, by decide, by decide⟩ hnames
      · exact absurd ⟨by decide, by decide, by decide, by decide⟩ hnames
  · have hstart := hmetered 0 y.start (.refl _)
    obtain rfl := Except.ok.inj (hx.symm.trans rfl)
    obtain rfl := Except.ok.inj (hy.symm.trans rfl)
    obtain rfl := Worker.burst.inj hr
    rcases hstart (by decide) with ⟨hspent, -⟩ | hstart
    · cases hspent
    · exact ⟨rfl, by decide, _, _, _, _, hx, hxends, ⟨8, rfl⟩, rfl, hy, rfl, hyends, hstart, rfl,
        rfl⟩

end Execution

end RingTape
