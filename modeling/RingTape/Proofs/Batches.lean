import RingTape.Proofs.Bounds

/-!
Batches. A burst that has used up its budget can be gone on with, and then comes to what one burst
with both budgets would have come to (`work_add`); a burst that stops for anything else stops there
whatever its budget is. So a round with a large budget is a run of rounds of one step each, and the
size of a batch shows nowhere. Unlike in the comparison with a run in steps, the links need not
respect the program: a round is compared with nothing but other rounds.
-/

namespace RingTape

namespace Burst

def Outcome.after (k : Nat) (o : Outcome) : Outcome := { o with steps := k + o.steps }

/-! ### Budgets -/

namespace Registers

variable {codes : Array Nat} {slots : Array Int} {g g' : Registers} {stop : Stop}

theorem stop_of_jump (h : g.jump slots = .error (stop, g')) : stop ≠ .budget ∧ stop ≠ .ended := by
  unfold jump at h
  split at h
  · cases h
    decide
  · split at h <;> cases h
    decide

theorem stop_of_branch {onZero : Bool} (h : g.branch slots onZero = .error (stop, g')) :
    stop ≠ .budget ∧ stop ≠ .ended := by
  unfold branch at h
  split at h
  · cases h
    decide
  · split at h
    · exact stop_of_jump h
    · cases h

theorem stop_of_add {v : UInt8} (h : g.add v = .error (stop, g')) :
    stop ≠ .budget ∧ stop ≠ .ended := by
  unfold add at h
  split at h <;> cases h
  decide

/-- No symbol stops a burst for the sake of its budget or as the end of the program does. -/
theorem stop_of_act (h : g.act codes slots = .error (stop, g')) :
    stop ≠ .budget ∧ stop ≠ .ended := by
  unfold act at h
  split at h
  · cases h
    decide
  · split at h
    case h_4 => exact stop_of_add h
    case h_5 => exact stop_of_add h
    case h_8 => exact stop_of_branch h
    case h_9 => exact stop_of_branch h
    all_goals cases h
    all_goals decide

theorem work_zero (h : g.pc < codes.size) (done : Nat) :
    g.work codes slots done 0 = ⟨.budget, g, done⟩ := by
  simp [work, Int.not_le.2 h]

/-- A burst is at the end, or stops in front of its first symbol, or goes on behind it, whatever its
budget. -/
theorem work_cases (codes : Array Nat) (slots : Array Int) (g : Registers) :
    (∀ done n, g.work codes slots done n = ⟨.ended, g, done⟩) ∨
    g.pc < codes.size ∧
      ((∃ stop g', stop ≠ .budget ∧ ∀ done n, g.work codes slots done (n + 1) = ⟨stop, g', done⟩) ∨
        ∃ g' : Registers, ∀ done n,
          g.work codes slots done (n + 1) = g'.work codes slots (done + 1) n) := by
  by_cases hend : (codes.size : Int) ≤ g.pc
  · exact Or.inl fun done n => work_of_ended hend done n
  · have pending := Int.not_le.1 hend
    refine Or.inr ⟨pending, ?_⟩
    cases hact : g.act codes slots with
    | error e => exact Or.inl ⟨e.1, e.2, (stop_of_act hact).1, work_of_stop pending hact⟩
    | ok g' => exact Or.inr ⟨_, work_of_move pending hact⟩

/-- A burst that stops for its budget has taken all of it, and there is a symbol to go on with. -/
theorem of_stop_budget {done n : Nat} (h : (g.work codes slots done n).stop = .budget) :
    (g.work codes slots done n).steps = done + n ∧
      (g.work codes slots done n).registers.pc < codes.size := by
  induction n generalizing g done with
  | zero =>
      rcases work_cases codes slots g with hended | ⟨pending, -⟩
      · rw [hended] at h
        cases h
      · rw [work_zero pending]
        exact ⟨rfl, pending⟩
  | succ n ih =>
      rcases work_cases codes slots g with hended | ⟨-, ⟨stop, g', hne, hstop⟩ | ⟨g', hmove⟩⟩
      · rw [hended] at h
        cases h
      · rw [hstop] at h
        exact absurd h hne
      · rw [hmove] at h ⊢
        obtain ⟨hsteps, hpc⟩ := ih h
        exact ⟨by omega, hpc⟩

/-- A larger budget makes a difference only if the smaller one is used up. -/
theorem work_add (n m done : Nat) (g : Registers) :
    g.work codes slots done (n + m) =
      if (g.work codes slots done n).stop = .budget then
        (g.work codes slots done n).registers.work codes slots (done + n) m
      else g.work codes slots done n := by
  induction n generalizing g done with
  | zero =>
      rw [Nat.zero_add, Nat.add_zero]
      rcases work_cases codes slots g with hended | ⟨pending, -⟩
      · rw [hended, hended, if_neg Stop.noConfusion]
      · rw [work_zero pending, if_pos rfl]
  | succ n ih =>
      rw [Nat.succ_add]
      rcases work_cases codes slots g with hended | ⟨-, ⟨stop, g', hne, hstop⟩ | ⟨g', hmove⟩⟩
      · rw [hended, hended, if_neg Stop.noConfusion]
      · rw [hstop, hstop, if_neg hne]
      · rw [hmove, hmove, ih, Nat.add_right_comm]
        rfl

theorem work_after (k done n : Nat) (g : Registers) :
    g.work codes slots (k + done) n = (g.work codes slots done n).after k := by
  induction n generalizing g done with
  | zero =>
      rcases work_cases codes slots g with hended | ⟨pending, -⟩
      · rw [hended, hended]
        rfl
      · rw [work_zero pending, work_zero pending]
        rfl
  | succ n ih =>
      rcases work_cases codes slots g with hended | ⟨-, ⟨stop, g', -, hstop⟩ | ⟨g', hmove⟩⟩
      · rw [hended, hended]
        rfl
      · rw [hstop, hstop]
        rfl
      · rw [hmove, hmove, Nat.add_assoc, ih]

end Registers

section Budgets

variable {codes : Array Nat} {slots : Array Int} {n : Nat} {g : Registers}

theorem run_add_of_stop (h : (run codes slots n g).stop ≠ .budget) (m : Nat) :
    run codes slots (n + m) g = run codes slots n g :=
  (Registers.work_add n m 0 g).trans (if_neg h)

theorem run_add_of_budget (h : (run codes slots n g).stop = .budget) (m : Nat) :
    run codes slots (n + m) g =
      (run codes slots m (run codes slots n g).registers).after n := by
  calc run codes slots (n + m) g
      = (run codes slots n g).registers.work codes slots (0 + n) m :=
        (Registers.work_add n m 0 g).trans (if_pos h)
    _ = (run codes slots m (run codes slots n g).registers).after n := by
        rw [Nat.add_comm 0 n]
        exact Registers.work_after n 0 m _

end Budgets

/-! ### Rounds of one step -/

theorem length_of_codes {symbols : List Symbol} {cs : List Nat} (h : codes symbols = .ok cs) :
    cs.length = symbols.length := by
  induction symbols generalizing cs with
  | nil =>
      obtain rfl : [] = cs := Except.ok.inj h
      rfl
  | cons s symbols ih =>
      rw [codes, List.mapM_cons] at h
      cases hs : s.code? with
      | none => simp [hs, bind, Except.bind] at h
      | some code =>
          cases hcs : codes symbols with
          | error e =>
              rw [codes] at hcs
              simp [hs, hcs, bind, Except.bind] at h
          | ok cs' =>
              have hlength := ih hcs
              rw [codes] at hcs
              obtain rfl : code :: cs' = cs := by
                simpa [hs, hcs, bind, Except.bind, pure, Except.pure] using h
              rw [List.length_cons, List.length_cons, hlength]

/-- Whatever could be made ready fits. -/
theorem fits_of_prepare {p : Program} {l : Links} {r : Prepared} (h : prepare p l = .ok r) :
    r.Fits p.length := by
  unfold prepare at h
  split at h
  · cases h
  · rename_i cs hcs
    split at h
    · cases h
    · rename_i slots hslots
      cases h
      obtain ⟨hsize, hlt⟩ := Links.lt_of_slots hslots
      exact ⟨by simpa [Program.length] using length_of_codes hcs, hsize, hlt⟩

section Storing

variable {ι κ : Type} {m m' : Machine ι κ} {g : Registers} {k : Nat}

theorem load_of_store (h : store m g k = some m') : load m' = g := by
  unfold store at h
  split at h
  · rename_i hin
    cases h
    simp only [load]
    rw [Int.toNat_of_nonneg hin.1]
  · cases h

/-- Registers go into the tape, the place and the count, and into nothing else. -/
theorem exists_tape_of_store (h : store m g k = some m') :
    ∃ tape, m' = { m with tape, ip := g.pc, steps := m.steps + k } := by
  unfold store at h
  split at h <;> cases h
  exact ⟨_, rfl⟩

theorem steps_of_store (h : store m g k = some m') : m'.steps = m.steps + k := by
  obtain ⟨tape, rfl⟩ := exists_tape_of_store h
  rfl

theorem source_of_store (h : store m g k = some m') : m'.source = m.source := by
  obtain ⟨tape, rfl⟩ := exists_tape_of_store h
  rfl

theorem sink_of_store (h : store m g k = some m') : m'.sink = m.sink := by
  obtain ⟨tape, rfl⟩ := exists_tape_of_store h
  rfl

/-- Storing again counts the steps of both. -/
theorem store_store (h : store m g k = some m') (g' : Registers) (i : Nat) :
    store m' g' i = store m g' (k + i) := by
  unfold store at h
  split at h <;> cases h
  simp only [store, Nat.add_assoc]

end Storing

section Bursts

open Machine (Reaches Settles)
open Registers (Within Ends)

variable {ι κ : Type} [ByteSource ι] [ByteSink κ] {j : Job} {r : Prepared} {m m' : Machine ι κ}
  {size batch : Nat}

def burst (j : Job) (r : Prepared) (budget : Nat) (m : Machine ι κ) : Attempt ι κ :=
  let o := run r.codes r.slots budget (load m)
  match store m o.registers o.steps with
  | some m => answer j o.stop m
  | none => m.fail .strayAccess

theorem round_of_spent (h : j.spent m.steps = true) :
    round j r batch m = m.fail (.fault (.limit (.stopped m.steps m.ip))) := by
  rw [round, Machine.checkLimit_of_spent h]
  rfl

theorem round_of_not_spent (h : j.spent m.steps = false) :
    round j r batch m = burst j r (budget batch j.limit m.steps) m := by
  rw [round, Machine.checkLimit_of_not_spent h]
  rfl

/-- A burst in bounds leaves registers that can be stored. -/
theorem exists_burst (hr : r.Fits j.program.length) (hm : m.Sound j size) (n : Nat) :
    ∃ m', store m (run r.codes r.slots n (load m)).registers (run r.codes r.slots n (load m)).steps
        = some m' ∧
      burst j r n m = answer j (run r.codes r.slots n (load m)).stop m' ∧ m'.Sound j size := by
  have hends : Ends j.program.length size (run r.codes r.slots n (load m)) :=
    (within_load hm).work hr 0 n
  obtain ⟨m', hm', -, hsound⟩ := exists_store hends.within m (run r.codes r.slots n (load m)).steps
  exact ⟨m', hm', by simp only [burst, hm'], hsound⟩

/-- A burst with both budgets is a burst with the first alone, or one with the second behind it. -/
theorem burst_add (hr : r.Fits j.program.length) (hm : m.Sound j size) (n i : Nat) :
    burst j r (n + i) m = burst j r n m ∨
      ∃ m', burst j r n m = .ok m' ∧ m'.Sound j size ∧ ¬ m'.isDone j ∧
        m'.steps = m.steps + n ∧ burst j r (n + i) m = burst j r i m' := by
  by_cases hstop : (run r.codes r.slots n (load m)).stop = .budget
  · obtain ⟨m', hstore, hburst, hsound⟩ := exists_burst hr hm n
    obtain ⟨m'', hstore', hburst', -⟩ := exists_burst hr hsound i
    obtain ⟨hsteps, hpc⟩ := Registers.of_stop_budget hstop
    rw [Nat.zero_add] at hsteps
    replace hsteps : (run r.codes r.slots n (load m)).steps = n := hsteps
    have hload := load_of_store hstore
    rw [hsteps] at hstore
    refine Or.inr ⟨m', by rw [hburst, hstop]; rfl, hsound, ?_, steps_of_store hstore, ?_⟩
    · rw [Machine.isDone_iff, show m'.ip = (load m').pc from rfl, hload, ← hr.codes]
      exact Int.not_le.2 hpc
    · rw [hburst', burst, run_add_of_budget hstop, ← hload]
      simp only [Outcome.after, ← store_store hstore, hstore']
  · exact Or.inl (by simp only [burst, run_add_of_stop hstop])

theorem round_one (h : j.spent m.steps = false) : round j r 1 m = burst j r 1 m := by
  have hone : budget 1 j.limit m.steps = 1 := by
    refine Nat.le_antisymm ?_ (budget_pos (Nat.le_refl 1) h)
    unfold budget
    split
    · exact Nat.le_refl 1
    · exact Nat.min_le_left 1 _
  rw [round_of_not_spent h, hone]

theorem burst_one_cases (hl : j.spent m.steps = false) (pending : ¬ m.isDone j) :
    (∃ m' k, burst j r 1 m = .ok m' ∧ Reaches j (round j r 1) (k + 1) m m') ∨
      ∃ b, burst j r 1 m = .error b ∧ Settles j (round j r 1) m (.error b) := by
  have hone := round_one (r := r) hl
  cases hburst : burst j r 1 m with
  | ok m' => exact Or.inl ⟨m', 0, rfl, .single pending (hone.trans hburst)⟩
  | error b => exact Or.inr ⟨b, rfl, .failed (.refl m) pending (hone.trans hburst)⟩

/-- A burst within the limit is a run of rounds of one step each, or ends the run as they do. -/
theorem burst_cases (hr : r.Fits j.program.length) (n : Nat) (hm : m.Sound j size)
    (pending : ¬ m.isDone j) (hleft : ∀ i ≤ n, j.spent (m.steps + i) = false) :
    (∃ m' k, burst j r (n + 1) m = .ok m' ∧ Reaches j (round j r 1) (k + 1) m m') ∨
      ∃ b, burst j r (n + 1) m = .error b ∧ Settles j (round j r 1) m (.error b) := by
  -- the first step of the burst is a round of its own, behind which the burst goes on or does not
  induction n generalizing m with
  | zero => exact burst_one_cases (hleft 0 (Nat.le_refl 0)) pending
  | succ n ih =>
      have hl : j.spent m.steps = false := hleft 0 (Nat.zero_le _)
      rw [Nat.add_comm (n + 1) 1]
      rcases burst_add hr hm 1 (n + 1) with heq | ⟨m', hfirst, hsound, hpending, hsteps, heq⟩
      · rw [heq]
        exact burst_one_cases hl pending
      · rw [heq]
        have hround : round j r 1 m = .ok m' := (round_one hl).trans hfirst
        have hleft' : ∀ i ≤ n, j.spent (m'.steps + i) = false := by
          intro i hi
          rw [hsteps, Nat.add_assoc, Nat.add_comm 1 i]
          exact hleft (i + 1) (by omega)
        rcases ih hsound hpending hleft' with ⟨f, k, hf, hreach⟩ | ⟨b, hb, hsettles⟩
        · exact Or.inl ⟨f, k + 1, hf, .head pending hround hreach⟩
        · exact Or.inr ⟨b, hb, (Machine.settles_iff_of_ok pending hround).2 hsettles⟩

/-- Runs in rounds of any size end as runs in rounds of one step do. -/
theorem settles_round_one_iff (hr : r.Fits j.program.length) (hbatch : 1 ≤ batch)
    (hm : m.Sound j size) (a : Attempt ι κ) :
    m.Settles j (round j r batch) a ↔ m.Settles j (round j r 1) a := by
  refine Machine.settles_iff_of_round_cases (fun m => m.Sound j size) (fun {m} hm pending => ?_)
    hm a
  cases hl : j.spent m.steps with
  | true => exact Or.inr ⟨_, round_of_spent hl, .failed (.refl m) pending (round_of_spent hl)⟩
  | false =>
      obtain ⟨n, hn⟩ := Nat.exists_eq_add_of_le' (budget_pos (j := j) hbatch hl)
      have hround : round j r batch m = burst j r (n + 1) m := by rw [round_of_not_spent hl, hn]
      have hleft : ∀ i ≤ n, j.spent (m.steps + i) = false := fun i hi => by
        have hlt : i < budget batch j.limit m.steps := by omega
        exact not_spent_of_lt_budget hlt
      rcases burst_cases hr n hm pending hleft with ⟨f, k, hf, hreach⟩ | ⟨b, hb, hsettles⟩
      · have worked := hround.trans hf
        exact Or.inl ⟨f, k, worked, sound_of_reaches hr (.single pending worked) hm, hreach⟩
      · exact Or.inr ⟨b, hround.trans hb, hsettles⟩

end Bursts

end Burst

namespace Execution

variable {ι κ : Type} [ByteSource ι] [ByteSink κ]

/-- Batches do not show. A burst that stops for anything but its budget stops there under every
larger budget, and one that has used its budget up has taken that many steps and is gone on with as
if it had had the larger one. So of a run in bursts, whatever it is linked by, nothing depends on
the size of its batches: neither the machine that is left nor the cause of a breakdown nor whether
it ends at all. -/
theorem batches_do_not_show :
    (∀ (codes : Array Nat) (slots : Array Int) (n m : Nat) (g : Burst.Registers),
      ((Burst.run codes slots n g).stop ≠ .budget →
        Burst.run codes slots (n + m) g = Burst.run codes slots n g) ∧
      ((Burst.run codes slots n g).stop = .budget →
        (Burst.run codes slots n g).steps = n ∧
        Burst.run codes slots (n + m) g =
          (Burst.run codes slots m (Burst.run codes slots n g).registers).after n)) ∧
    ∀ (s : Settings) (p : Program) (links : Links) (source : ι) (sink : κ) (x : Execution ι κ),
      ofLinks .burst s p links source sink = .ok x →
        ∃ r, x.worker = .burst r ∧ ∀ batch, 1 ≤ batch → ∀ a,
          x.start.Settles x.job (Burst.round x.job r batch) a ↔ x.Settles a := by
  constructor
  · intro codes slots n m g
    refine ⟨fun h => Burst.run_add_of_stop h m, fun h => ⟨?_, Burst.run_add_of_budget h m⟩⟩
    exact (Burst.Registers.of_stop_budget h).1.trans (Nat.zero_add n)
  · intro s p links source sink x hx
    unfold ofLinks at hx
    cases htape : Tape.blank? s.tapeSize with
    | none => simp [htape] at hx
    | some tape =>
        cases hprep : Burst.prepare p links with
        | error e => simp [htape, Worker.prepare, hprep, Except.map] at hx
        | ok r =>
            obtain rfl : _ = x := by simpa [htape, Worker.prepare, hprep, Except.map] using hx
            have hsound := sound_startOf_size s p links tape source sink
            have hfits := Burst.fits_of_prepare hprep
            refine ⟨r, rfl, fun batch hbatch a => ?_⟩
            rw [settles_burst_iff rfl]
            exact (Burst.settles_round_one_iff hfits hbatch hsound a).trans
              (Burst.settles_round_one_iff hfits (by decide) hsound a).symm

/-- `,[.,]` a step at a time and in batches that split between the symbols, and a burst that is
split in front of a byte to be written. -/
theorem echo_batches : ∃ x r f, ofLinks .burst
      { tapeSize := 1, eof := .zero, limit := none, trace := false }
      (.ofString ",[.,]") (.ofPairs [(1, 4)]) (⟨[7, 8]⟩ : ByteQueue) Output.emptyBuffer = .ok x ∧
    x.worker = .burst r ∧ x.Settles (.ok f) ∧ f.sink.bytes = #[7, 8] ∧ f.steps = 8 ∧
    x.start.Settles x.job (Burst.round x.job r 1) (.ok f) ∧
    x.start.Settles x.job (Burst.round x.job r 2) (.ok f) ∧
    (Burst.run #[43, 43, 46] #[-1, -1, -1] 2 ⟨0, 0, #[255]⟩).stop = .budget ∧
    Burst.run #[43, 43, 46] #[-1, -1, -1] (2 + 5) ⟨0, 0, #[255]⟩ =
      ⟨.output, ⟨2, 0, #[1]⟩, 2⟩ := by
  obtain ⟨hruns, hrounds⟩ := batches_do_not_show (ι := ByteQueue) (κ := Output)
  obtain ⟨r, hr, hbatch⟩ := hrounds { tapeSize := 1, eof := .zero, limit := none, trace := false }
    (.ofString ",[.,]") (.ofPairs [(1, 4)]) ⟨[7, 8]⟩ .emptyBuffer _ rfl
  have hbudget : (Burst.run #[43, 43, 46] #[-1, -1, -1] 2 ⟨0, 0, #[255]⟩).stop = .budget := rfl
  obtain ⟨-, hrun⟩ := (hruns #[43, 43, 46] #[-1, -1, -1] 2 5 ⟨0, 0, #[255]⟩).2 hbudget
  exact ⟨_, r, _, rfl, hr, ⟨9, rfl⟩, rfl, rfl, (hbatch 1 (by decide) _).2 ⟨9, rfl⟩,
    (hbatch 2 (by decide) _).2 ⟨9, rfl⟩, hbudget, hrun⟩

end Execution

end RingTape
