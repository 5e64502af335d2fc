import RingTape.Proofs.Engines
import RingTape.Proofs.Progress

/-!
The limit. All that a limit does to a run is to cut it. As long as steps are left, a step is the
step of the run without a limit; when they are spent, the run is stopped on the machine that the
other run has come to as well. `Cut` lists the two ways in which this can turn out, and what is
wanted of limits is read off from it: larger limits cut later on the same way, and to go on from a
cut is to go on with the run without a limit.
-/

namespace RingTape

def Settings.withLimit (s : Settings) (limit : Option Int) : Settings := { s with limit }

namespace Job

variable {j : Job} {n : Int}

def withLimit (j : Job) (limit : Option Int) : Job := { j with limit }

theorem spent_withLimit_eq_false_iff {steps : Nat} :
    (j.withLimit (some n)).spent steps = false ↔ steps < n.toNat := by
  simp only [spent, withLimit, decide_eq_false_iff_not]
  omega

end Job

namespace Machine

variable {ι κ : Type} [ByteSource ι] [ByteSink κ] {j : Job} {m m' f : Machine ι κ} {k : Nat}
  {a a' : Attempt ι κ}

/-- A run that ends has taken as many steps as are counted on the machine that it leaves. -/
theorem Settles.reaches (h : Settles j (step j) m (.ok f)) (hm : m.steps = 0) :
    Reaches j (step j) f.steps m f ∧ f.isDone j := by
  cases h with
  | finished run done =>
      have hsteps := run.steps
      rw [hm, Nat.zero_add] at hsteps
      exact ⟨hsteps ▸ run, done⟩

/-! ### Cuts -/

inductive Cut (j : Job) (M : Nat) (m : Machine ι κ) : Attempt ι κ → Prop
  | ended {k : Nat} {f : Machine ι κ} (inTime : k ≤ M) (run : Reaches j (step j) k m f)
      (done : f.isDone j) : Cut j M m (.ok f)
  | stopped {g : Machine ι κ} (run : Reaches j (step j) M m g) (pending : ¬ g.isDone j) :
      Cut j M m (.error ⟨.fault (.limit (.stopped g.steps g.ip)), g⟩)

theorem exists_cut (hι : ByteSource.Steady ι) (hj : j.Free) (h : m.Inside j) (M : Nat) :
    ∃ a, Cut j M m a := by
  rcases drive_cases j (step j) M m with
    ⟨k, f, hk, hr, hf, -⟩ | ⟨k, g, b, -, hr, hg, hb, -⟩ | ⟨g, hr, hg, -⟩
  · exact ⟨_, .ended hk hr hf⟩
  · exact absurd (.failed hr hg hb) (h.not_settles_error hι hj b)
  · exact ⟨_, .stopped hr hg⟩

theorem Cut.exists_reaches {M : Nat} (h : Cut j M m a) :
    ∃ k ≤ M, Reaches j (step j) k m (Progress.ofAttempt a).machine ∧
      (k < M → (Progress.ofAttempt a).machine.isDone j) := by
  cases h with
  | ended inTime run done => exact ⟨_, inTime, run, fun _ => done⟩
  | stopped run pending => exact ⟨M, Nat.le_refl M, run, fun hlt => absurd hlt (Nat.lt_irrefl M)⟩

/-- A larger limit cuts later on the same way. -/
theorem Cut.reaches {M M' : Nat} (h : Cut j M m a) (h' : Cut j M' m a') (hle : M ≤ M') :
    ∃ k, Reaches j (step j) k (Progress.ofAttempt a).machine (Progress.ofAttempt a').machine := by
  obtain ⟨k, hk, hreach, -⟩ := h.exists_reaches
  obtain ⟨k', -, hreach', hdone⟩ := h'.exists_reaches
  rcases Nat.lt_or_ge k' k with hkk | hkk
  · -- the first run would go on behind the end of the second
    have done := hdone (by omega)
    have := hreach'.le_of_stuck (fun _ pending => absurd done pending) hreach
    omega
  · obtain ⟨i, rfl⟩ := Nat.exists_eq_add_of_le hkk
    exact ⟨i, hreach.cut hreach'⟩

/-- Where a run takes more than `M` steps or never ends, it has come to a machine after `M`. -/
theorem exists_stopped (hι : ByteSource.Steady ι) (hj : j.Free) (h : m.Inside j)
    (hm : m.steps = 0) {M : Nat} (hmore : ∀ f, Settles j (step j) m (.ok f) → M < f.steps) :
    ∃ g, g.steps = M ∧ Reaches j (step j) M m g ∧
      Cut j M m (.error ⟨.fault (.limit (.stopped M g.ip)), g⟩) := by
  obtain ⟨a, ha⟩ := exists_cut hι hj h M
  cases ha with
  | @ended k f inTime run done =>
      have := hmore f (.finished run done)
      have := run.steps
      omega
  | @stopped g run pending =>
      have hsteps : g.steps = M := by
        rw [run.steps, hm, Nat.zero_add]
      refine ⟨g, hsteps, run, ?_⟩
      have := Cut.stopped run pending
      rwa [hsteps] at this

theorem step_withLimit {limit : Option Int} (hl : (j.withLimit limit).spent m.steps = false)
    (hj : j.limit = none) : m.step (j.withLimit limit) = m.step j := by
  have hj' : j.spent m.steps = false := by simp [Job.spent, hj]
  simp only [step, checkLimit_of_not_spent hl, checkLimit_of_not_spent hj']
  rfl

/-- As long as steps are left, a limit changes nothing. -/
theorem Reaches.withLimit {n : Int} (hj : j.limit = none) (h : Reaches j (step j) k m m')
    (hle : m.steps + k ≤ n.toNat) :
    Reaches (j.withLimit (some n)) (step (j.withLimit (some n))) k m m' := by
  induction h with
  | refl m => exact .refl m
  | @head k m m₁ m₂ pending worked rest ih =>
      have hl : (j.withLimit (some n)).spent m.steps = false :=
        Job.spent_withLimit_eq_false_iff.2 (by omega)
      refine .head pending ((step_withLimit hl hj).trans worked) (ih ?_)
      rw [steps_of_step worked]
      omega

theorem Cut.settles {n : Int} (hj : j.limit = none) (hm : m.steps = 0) (h : Cut j n.toNat m a) :
    Settles (j.withLimit (some n)) (step (j.withLimit (some n))) m a := by
  cases h with
  | @ended k f inTime run done => exact .finished (run.withLimit hj (by omega)) done
  | @stopped g run pending =>
      refine .failed (run.withLimit hj (by omega)) pending (step_of_spent ?_)
      rw [Job.spent_iff]
      refine ⟨n, rfl, ?_⟩
      have := run.steps
      omega

end Machine

namespace Execution

variable {ι κ : Type} [ByteSource ι] [ByteSink κ]

/-- The run `y` is the run `x`, except that it may not take more than `M` steps. -/
structure CutsAt (M : Nat) (x y : Execution ι κ) : Prop where
  /-- A run that ends in time ends all the same. -/
  ended : ∀ f, x.Settles (.ok f) → f.steps ≤ M → y.Settles (.ok f)
  /-- A run that takes more steps or never ends is stopped on the machine that it has come to after
  `M` of them, and to step on from there is to come to its end. -/
  stopped : (∀ f, x.Settles (.ok f) → M < f.steps) →
    ∃ g, x.start.stepTimes x.job M = .ok g ∧ g.steps = M ∧
      y.Settles (.error ⟨.fault (.limit (.stopped M g.ip)), g⟩) ∧
      ∀ f, x.Settles (.ok f) → g.stepTimes x.job (f.steps - M) = .ok f

theorem cutsAt_of_settles_iff (hι : ByteSource.Steady ι) {x y : Execution ι κ} (hj : x.job.Free)
    (hin : x.start.Inside x.job) (hsteps : x.start.steps = 0) {n : Int}
    (hx : ∀ a, x.Settles a ↔ x.start.Settles x.job (Machine.step x.job) a)
    (hy : ∀ a, y.Settles a ↔ x.start.Settles (x.job.withLimit (some n))
      (Machine.step (x.job.withLimit (some n))) a) : CutsAt n.toNat x y where
  ended f hf hle := by
    obtain ⟨run, done⟩ := ((hx _).1 hf).reaches hsteps
    exact (hy _).2 ((Machine.Cut.ended hle run done).settles hj.unlimited hsteps)
  stopped hmore := by
    obtain ⟨g, hg, run, hcut⟩ := Machine.exists_stopped hι hj hin hsteps fun f hf =>
      hmore f ((hx _).2 hf)
    refine ⟨g, run.stepTimes, hg, (hy _).2 (hcut.settles hj.unlimited hsteps), fun f hf => ?_⟩
    obtain ⟨run', -⟩ := ((hx _).1 hf).reaches hsteps
    rw [show f.steps = n.toNat + (f.steps - n.toNat) by have := hmore f hf; omega] at run'
    exact (run.cut run').stepTimes

variable {p : Program} {s : Settings} {links : Links} {e : Engine}

end Execution

end RingTape
