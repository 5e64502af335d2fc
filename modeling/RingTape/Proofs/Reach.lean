import RingTape.Execution

/-!
Reaching. Both engines go round by round: they look whether the machine is done, work on it once
and start over. `drive` is this loop for any way of working, `Reaches` counts the rounds that lead
from one machine to another, and `Settles` says how a run ends. A run that settles in no way is one
that never ends.

The two engines differ in how much one round does. `settles_iff_of_rounds` is what makes them
comparable: when every round of one is at least one round of the other, neither can end in a way
that the other does not.
-/

namespace RingTape

def Progress.ofAttempt {ι κ : Type} : Attempt ι κ → Progress ι κ
  | .ok m => .finished m
  | .error b => .failed b

namespace Machine

variable {ι κ : Type}

def drive (j : Job) (work : Machine ι κ → Attempt ι κ) : Nat → Machine ι κ → Progress ι κ
  | 0, m => if m.isDone j then .finished m else .running m
  | n + 1, m =>
    if m.isDone j then .finished m
    else match work m with
      | .error b => .failed b
      | .ok m => drive j work n m

theorem advance_eq_drive [ByteSource ι] [ByteSink κ] (j : Job) (n : Nat) (m : Machine ι κ) :
    m.advance j n = m.drive j (step j) n := by
  induction n generalizing m with
  | zero => rfl
  | succ n ih =>
      by_cases h : m.isDone j
      · simp [advance, drive, h]
      · cases hs : m.step j with
        | error b => simp [advance, drive, h, hs]
        | ok m' => simpa [advance, drive, h, hs] using ih m'

/-- `n` rounds of work lead from one machine to another, and none of them is done on a machine that
is done already. -/
inductive Reaches (j : Job) (work : Machine ι κ → Attempt ι κ) :
    Nat → Machine ι κ → Machine ι κ → Prop
  | refl (m : Machine ι κ) : Reaches j work 0 m m
  | head {n : Nat} {m m' m'' : Machine ι κ} (pending : ¬ m.isDone j) (worked : work m = .ok m')
      (rest : Reaches j work n m' m'') : Reaches j work (n + 1) m m''

/-- The ways in which a run from `m` can end. -/
inductive Settles (j : Job) (work : Machine ι κ → Attempt ι κ) (m : Machine ι κ) :
    Attempt ι κ → Prop
  | finished {n : Nat} {f : Machine ι κ} (run : Reaches j work n m f) (done : f.isDone j) :
      Settles j work m (.ok f)
  | failed {n : Nat} {g : Machine ι κ} {b : Breakdown ι κ} (run : Reaches j work n m g)
      (pending : ¬ g.isDone j) (broken : work g = .error b) : Settles j work m (.error b)

section Reaching

variable {j : Job} {work : Machine ι κ → Attempt ι κ} {m m' m'' : Machine ι κ} {k n : Nat}

theorem Reaches.single (pending : ¬ m.isDone j) (worked : work m = .ok m') :
    Reaches j work 1 m m' :=
  .head pending worked (.refl m')

theorem Reaches.trans (h : Reaches j work k m m') (h' : Reaches j work n m' m'') :
    Reaches j work (k + n) m m'' := by
  induction h with
  | refl m => rwa [Nat.zero_add]
  | head pending worked rest ih =>
      rw [Nat.succ_add]
      exact .head pending worked (ih h')

theorem Reaches.tail (h : Reaches j work k m m') (pending : ¬ m'.isDone j)
    (worked : work m' = .ok m'') : Reaches j work (k + 1) m m'' :=
  h.trans (.single pending worked)

/-- A longer run passes through every machine that a shorter one reaches. -/
theorem Reaches.cut (h : Reaches j work k m m') (h' : Reaches j work (k + n) m m'') :
    Reaches j work n m' m'' := by
  induction h with
  | refl m => rwa [Nat.zero_add] at h'
  | head pending worked rest ih =>
      rw [Nat.succ_add] at h'
      cases h' with
      | head pending' worked' rest' =>
          obtain rfl : _ = _ := Except.ok.inj (worked.symm.trans worked')
          exact ih rest'

/-- A run that has reached a machine on which no more rounds are done goes no further. -/
theorem Reaches.le_of_stuck (h : Reaches j work k m m')
    (stuck : ∀ f, ¬ m'.isDone j → work m' ≠ .ok f) (h' : Reaches j work n m m'') : n ≤ k := by
  rcases Nat.le_total n k with hle | hle
  · exact hle
  · obtain ⟨i, rfl⟩ := Nat.exists_eq_add_of_le hle
    cases h.cut h' with
    | refl => exact Nat.le_refl _
    | head pending worked => exact absurd worked (stuck _ pending)

/-- What every round keeps, every run keeps. -/
theorem Reaches.invariant {P : Machine ι κ → Prop}
    (keeps : ∀ {m m'}, ¬ m.isDone j → work m = .ok m' → P m → P m')
    (h : Reaches j work n m m') (hm : P m) : P m' := by
  induction h with
  | refl m => exact hm
  | head pending worked rest ih => exact ih (keeps pending worked hm)

theorem Reaches.drive (h : Reaches j work k m m') (n : Nat) :
    m.drive j work (k + n) = m'.drive j work n := by
  induction h with
  | refl m => rw [Nat.zero_add]
  | head pending worked rest ih =>
      rw [Nat.succ_add]
      simpa [Machine.drive, pending, worked] using ih

end Reaching

section Driving

variable {j : Job} {work : Machine ι κ → Attempt ι κ} {m f g : Machine ι κ} {b : Breakdown ι κ}

theorem drive_of_isDone (h : m.isDone j) (n : Nat) : m.drive j work n = .finished m := by
  cases n <;> simp [drive, h]

/-- A run of at most `n` rounds has finished, has broken down, or has done all `n` of them. -/
theorem drive_cases (j : Job) (work : Machine ι κ → Attempt ι κ) (n : Nat) (m : Machine ι κ) :
    (∃ k f, k ≤ n ∧ Reaches j work k m f ∧ f.isDone j ∧ m.drive j work n = .finished f) ∨
    (∃ k g b, k < n ∧ Reaches j work k m g ∧ ¬ g.isDone j ∧ work g = .error b ∧
      m.drive j work n = .failed b) ∨
    (∃ g, Reaches j work n m g ∧ ¬ g.isDone j ∧ m.drive j work n = .running g) := by
  induction n generalizing m with
  | zero =>
      by_cases h : m.isDone j
      · exact Or.inl ⟨0, m, Nat.le_refl 0, .refl m, h, drive_of_isDone h 0⟩
      · exact Or.inr (Or.inr ⟨m, .refl m, h, by simp [drive, h]⟩)
  | succ n ih =>
      by_cases h : m.isDone j
      · exact Or.inl ⟨0, m, Nat.zero_le _, .refl m, h, drive_of_isDone h _⟩
      · cases hw : work m with
        | error b =>
            exact Or.inr (Or.inl ⟨0, m, b, Nat.succ_pos n, .refl m, h, hw, by simp [drive, h, hw]⟩)
        | ok m' =>
            have hd : m.drive j work (n + 1) = m'.drive j work n := by simp [drive, h, hw]
            rw [hd]
            rcases ih m' with
              ⟨k, f, hk, hr, hf, he⟩ | ⟨k, g, b, hk, hr, hg, hb, he⟩ | ⟨g, hr, hg, he⟩
            · exact Or.inl ⟨k + 1, f, by omega, .head h hw hr, hf, he⟩
            · exact Or.inr (Or.inl ⟨k + 1, g, b, by omega, .head h hw hr, hg, hb, he⟩)
            · exact Or.inr (Or.inr ⟨g, .head h hw hr, hg, he⟩)

theorem settles_iff_drive {a : Attempt ι κ} :
    Settles j work m a ↔ ∃ n, m.drive j work n = .ofAttempt a := by
  constructor
  · intro h
    cases h with
    | @finished n f run done =>
        exact ⟨n + 0, (run.drive 0).trans (drive_of_isDone done 0)⟩
    | @failed n g b run pending broken =>
        refine ⟨n + 1, (run.drive 1).trans ?_⟩
        simp [drive, pending, broken, Progress.ofAttempt]
  · rintro ⟨n, h⟩
    rcases drive_cases j work n m with
      ⟨k, f, -, hr, hf, he⟩ | ⟨k, g, b, -, hr, hg, hb, he⟩ | ⟨g, -, -, he⟩
    · cases a with
      | ok m' => cases h.symm.trans he; exact .finished hr hf
      | error b => cases h.symm.trans he
    · cases a with
      | ok m' => cases h.symm.trans he
      | error b => cases h.symm.trans he; exact .failed hr hg hb
    · cases a <;> cases h.symm.trans he

end Driving

section Settling

variable {j : Job} {work : Machine ι κ → Attempt ι κ} {m m' : Machine ι κ} {a a' : Attempt ι κ}

theorem settles_iff_of_isDone (done : m.isDone j) : Settles j work m a ↔ a = .ok m := by
  constructor
  · intro h
    cases h with
    | finished run _ =>
        cases run with
        | refl => rfl
        | head pending => exact absurd done pending
    | failed run pending _ =>
        cases run with
        | refl => exact absurd done pending
        | head pending' => exact absurd done pending'
  · rintro rfl
    exact .finished (.refl m) done

/-- A run that is not done yet goes on from where one round takes it, or ends with that round. -/
theorem settles_iff_of_pending (pending : ¬ m.isDone j) : Settles j work m a ↔
    (∃ m', work m = .ok m' ∧ Settles j work m' a) ∨ ∃ b, work m = .error b ∧ a = .error b := by
  constructor
  · intro h
    cases h with
    | finished run done =>
        cases run with
        | refl => exact absurd done pending
        | head _ worked rest => exact Or.inl ⟨_, worked, .finished rest done⟩
    | failed run pending' broken =>
        cases run with
        | refl => exact Or.inr ⟨_, broken, rfl⟩
        | head _ worked rest => exact Or.inl ⟨_, worked, .failed rest pending' broken⟩
  · rintro (⟨m', worked, h⟩ | ⟨b, broken, rfl⟩)
    · cases h with
      | finished run done => exact .finished (.head pending worked run) done
      | failed run pending' broken => exact .failed (.head pending worked run) pending' broken
    · exact .failed (.refl m) pending broken

theorem settles_iff_of_error {b : Breakdown ι κ} (pending : ¬ m.isDone j)
    (broken : work m = .error b) : Settles j work m a ↔ a = .error b := by
  rw [settles_iff_of_pending pending, broken]
  simp

theorem settles_iff_of_ok (pending : ¬ m.isDone j) (worked : work m = .ok m') :
    Settles j work m a ↔ Settles j work m' a := by
  rw [settles_iff_of_pending pending, worked]
  simp

/-- A run ends as it would from any machine on its way. -/
theorem Reaches.settles_iff {n : Nat} (h : Reaches j work n m m') :
    Settles j work m a ↔ Settles j work m' a := by
  induction h with
  | refl m => rfl
  | head pending worked _ ih => exact (settles_iff_of_ok pending worked).trans ih

theorem Settles.unique (h : Settles j work m a) (h' : Settles j work m a') : a' = a := by
  cases h with
  | finished run done => exact (settles_iff_of_isDone done).1 (run.settles_iff.1 h')
  | failed run pending broken =>
      exact (settles_iff_of_error pending broken).1 (run.settles_iff.1 h')

theorem Settles.bounded (h : Settles j work m a) :
    ∃ N, ∀ n g, Reaches j work n m g → n ≤ N := by
  cases h with
  | @finished n f run done =>
      exact ⟨n, fun _ _ hr => run.le_of_stuck (fun _ pending => absurd done pending) hr⟩
  | @failed n g b run pending broken =>
      refine ⟨n, fun _ _ hr => run.le_of_stuck (fun f _ worked => ?_) hr⟩
      cases worked.symm.trans broken

end Settling

section Rounds

variable {j : Job} {step round : Machine ι κ → Attempt ι κ} {m : Machine ι κ}
  (inv : Machine ι κ → Prop)

/-- A run in rounds is a run in steps, and has at least as many steps as rounds. -/
theorem Reaches.of_rounds
    (hok : ∀ {m m'}, inv m → ¬ m.isDone j → round m = .ok m' →
      inv m' ∧ ∃ k, Reaches j step (k + 1) m m')
    {n : Nat} {m' : Machine ι κ} (h : Reaches j round n m m') (hm : inv m) :
    inv m' ∧ ∃ k, n ≤ k ∧ Reaches j step k m m' := by
  induction h with
  | refl m => exact ⟨hm, 0, Nat.le_refl 0, .refl m⟩
  | head pending worked rest ih =>
      obtain ⟨hm', k, hk⟩ := hok hm pending worked
      obtain ⟨hm'', i, hi, hr⟩ := ih hm'
      exact ⟨hm'', k + 1 + i, by omega, hk.trans hr⟩

theorem settles_iff_of_rounds
    (hok : ∀ {m m'}, inv m → ¬ m.isDone j → round m = .ok m' →
      inv m' ∧ ∃ k, Reaches j step (k + 1) m m')
    (herror : ∀ {m b}, inv m → ¬ m.isDone j → round m = .error b → Settles j step m (.error b))
    (hm : inv m) (a : Attempt ι κ) : Settles j round m a ↔ Settles j step m a := by
  have forth : ∀ {a}, Settles j round m a → Settles j step m a := by
    intro a h
    cases h with
    | finished run done =>
        obtain ⟨-, k, -, hr⟩ := Reaches.of_rounds inv hok run hm
        exact .finished hr done
    | failed run pending broken =>
        obtain ⟨hg, k, -, hr⟩ := Reaches.of_rounds inv hok run hm
        exact hr.settles_iff.2 (herror hg pending broken)
  refine ⟨forth, fun h => ?_⟩
  -- The rounds cannot outnumber the steps, so they stop as well, and then in the same way.
  obtain ⟨N, hN⟩ := h.bounded
  rcases drive_cases j round (N + 1) m with
    ⟨k, f, -, hr, hf, -⟩ | ⟨k, g, b, -, hr, hg, hb, -⟩ | ⟨g, hr, -, -⟩
  · have hround : Settles j round m (.ok f) := .finished hr hf
    rwa [h.unique (forth hround)] at hround
  · have hround : Settles j round m (.error b) := .failed hr hg hb
    rwa [h.unique (forth hround)] at hround
  · obtain ⟨-, k, hk, hs⟩ := Reaches.of_rounds inv hok hr hm
    have := hN k g hs
    omega

/-- It is enough that every round is a run of steps, or ends the run as the steps do. -/
theorem settles_iff_of_round_cases
    (hcases : ∀ {m}, inv m → ¬ m.isDone j →
      (∃ m' k, round m = .ok m' ∧ inv m' ∧ Reaches j step (k + 1) m m') ∨
        ∃ b, round m = .error b ∧ Settles j step m (.error b))
    (hm : inv m) (a : Attempt ι κ) : Settles j round m a ↔ Settles j step m a := by
  refine settles_iff_of_rounds inv ?_ ?_ hm a
  · intro m m' hm pending hround
    rcases hcases hm pending with ⟨f, k, hf, hinv, hreach⟩ | ⟨b, hb, -⟩
    · obtain rfl := Except.ok.inj (hf.symm.trans hround)
      exact ⟨hinv, k, hreach⟩
    · cases hb.symm.trans hround
  · intro m b hm pending hround
    rcases hcases hm pending with ⟨f, k, hf, -⟩ | ⟨b', hb, hsettles⟩
    · cases hf.symm.trans hround
    · obtain rfl := Except.error.inj (hb.symm.trans hround)
      exact hsettles

end Rounds

end Machine

theorem Burst.advance_eq_drive {ι κ : Type} [ByteSource ι] [ByteSink κ] (j : Job)
    (p : Burst.Prepared) (batch n : Nat) (m : Machine ι κ) :
    Burst.advance j p batch n m = m.drive j (Burst.round j p batch) n := by
  induction n generalizing m with
  | zero => rfl
  | succ n ih =>
      by_cases h : m.isDone j
      · simp [Burst.advance, Machine.drive, h]
      · cases hr : Burst.round j p batch m with
        | error b => simp [Burst.advance, Machine.drive, h, hr]
        | ok m' => simpa [Burst.advance, Machine.drive, h, hr] using ih m'

namespace Execution

variable {ι κ : Type} [ByteSource ι] [ByteSink κ]

/-- How a run can end, however many rounds that takes. -/
def Settles (x : Execution ι κ) (a : Attempt ι κ) : Prop := ∃ n, x.run n = .ofAttempt a

variable {x : Execution ι κ} {a : Attempt ι κ}

theorem settles_stepwise_iff (h : x.worker = .stepwise) :
    x.Settles a ↔ x.start.Settles x.job (Machine.step x.job) a := by
  simp only [Settles, run, Execution.advance, h, Worker.advance, Machine.advance_eq_drive,
    Machine.settles_iff_drive]

theorem settles_burst_iff {p : Burst.Prepared} (h : x.worker = .burst p) :
    x.Settles a ↔ x.start.Settles x.job (Burst.round x.job p Burst.batchSize) a := by
  simp only [Settles, run, Execution.advance, h, Worker.advance, Burst.advance_eq_drive,
    Machine.settles_iff_drive]

/-- A run ends in one way at most. -/
theorem Settles.unique {a' : Attempt ι κ} (h : x.Settles a) (h' : x.Settles a') : a' = a := by
  cases hw : x.worker with
  | stepwise =>
      rw [settles_stepwise_iff hw] at h h'
      exact h.unique h'
  | burst p =>
      rw [settles_burst_iff hw] at h h'
      exact h.unique h'

end Execution

end RingTape
