import RingTape.Proofs.Engines
import RingTape.Proofs.Progress

/-!
Safety. Under the links of matching brackets nothing goes wrong but what has to: wherever its steps
lead, a machine stands in its program or just behind it, with a tape of the size that was asked for,
and its next step fails only because the steps are spent or because the source fails.

`Visits` follows a caller who works on a machine step by step. A step that fails leaves a machine
behind as well, from which the caller may step on, so these machines count as visited, too.
-/

namespace RingTape

namespace Machine

variable {ι κ : Type} [ByteSource ι] [ByteSink κ] {j : Job} {m m' : Machine ι κ} {n : Nat}

/-- Stepping on from `m` comes by a machine, whatever becomes of each step, as long as none is done
on a machine that is done already. -/
inductive Visits (j : Job) (m : Machine ι κ) : Machine ι κ → Prop
  | start : Visits j m m
  | step {m' : Machine ι κ} (before : Visits j m m') (pending : ¬ m'.isDone j) :
      Visits j m (Progress.ofAttempt (m'.step j)).machine

structure Sound (j : Job) (n : Nat) (m : Machine ι κ) : Prop where
  inside : m.Inside j
  size : m.tape.size = n

/-- Whatever becomes of a step, it leaves a sound machine. -/
theorem Sound.step (hj : j.Resolved) (h : m.Sound j n) (pending : ¬ m.isDone j) :
    (Progress.ofAttempt (m.step j)).machine.Sound j n := by
  rcases step_cases hj h.inside pending with
    ⟨m', hstep, hin⟩ | ⟨-, hstep⟩ | ⟨e, source, s, -, hstep⟩
  · rw [hstep]
    exact ⟨hin, (size_of_step hstep).trans h.size⟩
  · rw [hstep]
    exact h
  · -- a read that fails has changed nothing but the log and the source
    rw [hstep]
    have hip : 0 ≤ (m.note (m.entry s)).ip ∧ (m.note (m.entry s)).ip ≤ j.program.length := by
      rw [ip_note]
      exact ⟨h.inside.nonneg, h.inside.le⟩
    exact ⟨⟨hip.1, hip.2⟩, (congrArg Tape.size (tape_note m _)).trans h.size⟩

theorem Visits.sound (hj : j.Resolved) (h : Visits j m m') (hm : m.Sound j n) : m'.Sound j n := by
  induction h with
  | start => exact hm
  | step _ pending ih => exact ih.step hj pending

/-- Why a step can fail: there is no third cause. -/
theorem Inside.failure_cases (hj : j.Resolved) (h : m.Inside j) (pending : ¬ m.isDone j)
    {b : Breakdown ι κ} (hb : m.step j = .error b) :
    (j.spent m.steps = true ∧ b.cause = .fault (.limit (.stopped m.steps m.ip))) ∨
      ∃ e source, ByteSource.read m.source = (.error e, source) ∧ b.cause = .codec e := by
  rcases step_cases hj h pending with ⟨m', hstep, -⟩ | ⟨hl, hstep⟩ | ⟨e, source, s, hread, hstep⟩
  · cases hstep.symm.trans hb
  · cases hstep.symm.trans hb
    exact Or.inl ⟨hl, rfl⟩
  · cases hstep.symm.trans hb
    exact Or.inr ⟨e, source, hread, rfl⟩

/-- What can be relied on at a machine that a run comes by: where it stands, how its tape is made,
and for which causes alone its next step fails. -/
structure Safe (j : Job) (size : Int) (m : Machine ι κ) : Prop where
  ip_nonneg : 0 ≤ m.ip
  ip_le : m.ip ≤ j.program.length
  size_eq : (m.tape.cells.size : Int) = size
  pointer_lt : (m.tape.pointer : Int) < size
  cell_le : ∀ c ∈ m.tape.cells, c.toNat ≤ 255
  failure : ¬ m.isDone j → ∀ b, m.step j = .error b →
    (j.spent m.steps = true ∧ b.cause = .fault (.limit (.stopped m.steps m.ip))) ∨
      ∃ e source, ByteSource.read m.source = (.error e, source) ∧ b.cause = .codec e

theorem Sound.safe (hj : j.Resolved) (h : m.Sound j n) : m.Safe j n where
  ip_nonneg := h.inside.nonneg
  ip_le := h.inside.le
  size_eq := congrArg Nat.cast h.size
  pointer_lt := Int.ofNat_lt.2 (h.size ▸ m.tape.pointer_lt)
  cell_le c _ := Nat.le_of_lt_succ c.toNat_lt
  failure pending _ := h.inside.failure_cases hj pending

end Machine

namespace Execution

variable {ι κ : Type}

theorem sound_startOf_size (s : Settings) (p : Program) (links : Links) (tape : Tape) (source : ι)
    (sink : κ) : (startOf s tape source sink).Sound (jobOf s p links) tape.size where
  inside := ⟨Int.le_refl 0, Int.natCast_nonneg _⟩
  size := rfl

theorem sound_startOf (s : Settings) (p : Program) (links : Links) {n : Nat} (h : 0 < n)
    (source : ι) (sink : κ) :
    (startOf s (.blank n h) source sink).Sound (jobOf s p links) n := by
  simpa using sound_startOf_size s p links (.blank n h) source sink

variable [ByteSource ι] [ByteSink κ] {p : Program} {links : Links} {s : Settings}

/-- A run under the links of matching brackets is safe wherever it comes by, for every tape, policy
and limit and from every source, and when it ends, then just behind the program. -/
theorem safe_of_resolve (hp : p.resolve = .ok links) (hsize : 1 ≤ s.tapeSize) (source : ι)
    (sink : κ) :
    ∃ x, ofLinks .stepwise s p links source sink = .ok x ∧ x.job = jobOf s p links ∧
      (∀ m, x.start.Visits x.job m → m.Safe x.job s.tapeSize) ∧
      ∀ f, x.Settles (.ok f) → f.ip = p.length := by
  obtain ⟨tape, htape, rfl⟩ := exists_blank hsize
  have hj : (jobOf s p links).Resolved := hp
  have hstart := sound_startOf s p links (n := s.tapeSize.toNat) (by omega) source sink
  refine ⟨_, ofLinks_stepwise htape, rfl, fun m hm => ?_, fun f hf => ?_⟩
  · have hsafe := (hm.sound hj hstart).safe hj
    rwa [Int.toNat_of_nonneg (by omega)] at hsafe
  · cases (settles_stepwise_iff rfl).1 hf with
    | finished run done => exact (run.inside hj hstart.inside).ip_eq done

/-- `,[.,]` on a tape of one cell with room for two steps, in front of the opening bracket. -/
theorem echo_safe : ∃ links x, (Program.ofString ",[.,]").resolve = .ok links ∧
    ofLinks .stepwise { tapeSize := 1, eof := .keep, limit := some 2, trace := true }
      (.ofString ",[.,]") links (⟨[7]⟩ : ByteQueue) Output.emptyBuffer = .ok x ∧
    ∃ m, x.start.Visits x.job m ∧ m.ip = 1 ∧ m.tape.current = 7 ∧ m.Safe x.job 1 := by
  have hlinks : (Program.ofString ",[.,]").resolve = .ok (.ofPairs [(1, 4)]) := rfl
  obtain ⟨x, hx, -, hsafe, -⟩ := safe_of_resolve
    (s := { tapeSize := 1, eof := .keep, limit := some 2, trace := true }) hlinks (by decide)
    (⟨[7]⟩ : ByteQueue) Output.emptyBuffer
  have hm : x.start.Visits x.job _ := .step .start (by
    obtain rfl := Except.ok.inj (hx.symm.trans rfl)
    decide)
  refine ⟨_, x, hlinks, hx, _, hm, ?_, ?_, hsafe _ hm⟩
  · obtain rfl := Except.ok.inj (hx.symm.trans rfl)
    rfl
  · obtain rfl := Except.ok.inj (hx.symm.trans rfl)
    rfl

end Execution

end RingTape
