import RingTape.Proofs.Borders
import RingTape.Proofs.Insertion

/-!
Loops that are dead. Behind a closing bracket the current cell is zero, as it is at the start of a
program. So a loop that stands there is skipped whenever a run comes to it, wherever it comes from,
and whatever is written in its body is never executed. Such loops hold comments that are free to use
the symbols of commands, as long as their brackets match.
-/

namespace RingTape

open Machine (Reaches)

section Skipping

variable {κ : Type} [ByteSink κ] {i : Insertion} {body : Block} {n k : Nat} {sink : κ}
  {j' j : Job} {m' m f' : Machine ByteQueue κ} {inv : Machine ByteQueue κ → Prop}

structure ZeroAt (j : Job) (place : Nat) (m : Machine ByteQueue κ) : Prop where
  inside : m.Inside j
  zero : m.ip = place → m.tape.current = 0

/-- Nothing leads to the start of a program, and behind a closing bracket the cell is zero. -/
theorem ZeroAt.step (hj : j.Resolved) {place : Nat}
    (hplace : ∀ k : Nat, place = k + 1 → j.program.fetch? k = some .closing)
    (h : ZeroAt j place m) (hstep : m.step j = .ok m') : ZeroAt j place m' where
  inside := h.inside.step hj hstep
  zero hip := by
    obtain ⟨k, hk⟩ := Machine.exists_behind_of_step hj h.inside hstep
    have hsucc : place = k + 1 := by
      have := hip.symm.trans hk.ip
      omega
    exact hk.closing (hplace k hsucc)

/-- A loop is skipped in one step where the cell is always zero. -/
theorem Detour.of_loop (hs : Job.Inserts i j' j) (hinner : i.inner = .loop body .done)
    (hplace : ∀ k : Nat, i.place = k + 1 → j.program.fetch? k = some .closing) (sink : κ) :
    Detour i 1 n sink (ZeroAt j i.place) j' j where
  keeps h hstep := h.step hs.original_free.resolved hplace hstep
  passes {m m' st} h hip hip' hr hr' := by
    have hzero : st.current = 0 := by rw [← hr.current_eq, h.zero hip]
    obtain ⟨pending, f', hstep, hrf, hipf⟩ :=
      hr'.step_test hs.result_free (hinner ▸ hs.standsAt) (Or.inl hip')
    rw [if_pos hzero] at hipf
    refine ⟨f', .single pending hstep, ?_, hrf, ?_⟩
    · rw [hipf, hinner]
      rfl
    · rw [Machine.stepsAt, Machine.countSteps_succ hstep]
      simp [hip', Machine.countSteps]

/-- When the way through the block is a single step, every step of the machine that has the block in
its way leads beside a machine that has not. -/
theorem Detour.exists_beside_of_step (hs : Job.Inserts i j' j) (hd : Detour i 1 n sink inv j' j)
    (hm : inv m) (h : Beside i.landing n sink m' m ∨ Beside i.shift n sink m' m)
    (pending : ¬ m'.isDone j') (worked : m'.step j' = .ok f') :
    ∃ f, inv f ∧ (Beside i.landing n sink f' f ∨ Beside i.shift n sink f' f) := by
  have both : Beside i.shift n sink m' m → ∃ f, inv f ∧
      (Beside i.landing n sink f' f ∨ Beside i.shift n sink f' f) := by
    intro h
    obtain ⟨f₁, f, hstep', hstep, hnext⟩ := h.step hs (mt (h.isDone_iff hs).2 pending)
    obtain rfl := Except.ok.inj (hstep'.symm.trans worked)
    exact ⟨f, hd.keeps hm hstep, Or.inl hnext⟩
  rcases h with h | h
  · rcases h.shifted_or_passes hd hm with h | ⟨g', run, hpassed, -⟩
    · exact both h
    · cases run with
      | head _ worked' rest =>
          cases rest
          obtain rfl := Except.ok.inj (worked'.symm.trans worked)
          exact ⟨m, hm, Or.inr hpassed⟩
  · exact both h

/-- A detour of a single step leaves out all the other places of the block. -/
theorem Detour.outside_of_reaches (hs : Job.Inserts i j' j) (hd : Detour i 1 n sink inv j' j)
    (h : Beside i.landing n sink m' m) (hm : inv m)
    (hreach : Reaches j' (Machine.step j') k m' f') :
    ¬ ((i.place : Int) < f'.ip ∧ f'.ip < ((i.place + i.inner.length : Nat) : Int)) := by
  obtain ⟨f, -, hbeside⟩ :
      ∃ f, inv f ∧ (Beside i.landing n sink f' f ∨ Beside i.shift n sink f' f) := by
    refine hreach.invariant (P := fun f' => ∃ f, inv f ∧
      (Beside i.landing n sink f' f ∨ Beside i.shift n sink f' f)) ?_ ⟨m, hm, Or.inl h⟩
    rintro g' f' pending worked ⟨g, hg, hbeside⟩
    exact hd.exists_beside_of_step hs hg hbeside pending worked
  rcases hbeside with hbeside | hbeside
  · obtain ⟨k, -, hip⟩ := hbeside.place
    have := i.landing_outside k
    omega
  · obtain ⟨k, -, hip⟩ := hbeside.place
    have := i.shift_outside k
    omega

/-- A run comes to the start of its program once at most. -/
theorem Machine.stepsAt_zero_of_pos {ι : Type} [ByteSource ι] {j : Job} (hj : j.Resolved)
    {m : Machine ι κ} (hin : m.Inside j) (hip : 1 ≤ m.ip) (k : Nat) : m.stepsAt j 0 k = 0 := by
  induction k generalizing m with
  | zero => rfl
  | succ k ih =>
      have haway : ¬ m.ip = 0 := by omega
      cases hstep : m.step j with
      | error b => simp [stepsAt, countSteps, hstep, haway]
      | ok m' =>
          obtain ⟨i, hi⟩ := exists_behind_of_step hj hin hstep
          have hrest := ih (hin.step hj hstep) (by rw [hi.ip]; omega)
          unfold stepsAt at hrest ⊢
          rw [countSteps_succ hstep, hrest]
          simp [haway]

theorem Machine.stepsAt_zero_of_start (hj : j.Free) (hin : m.Inside j) (hip : m.ip = 0)
    (pending : ¬ m.isDone j) (k : Nat) : m.stepsAt j 0 (k + 1) = 1 := by
  obtain ⟨m', hstep⟩ := hin.step_ok ByteQueue.steady hj pending
  obtain ⟨i, hi⟩ := exists_behind_of_step hj.resolved hin hstep
  have hip' : 1 ≤ m'.ip := by
    rw [hi.ip]
    omega
  have hrest := stepsAt_zero_of_pos hj.resolved (hin.step hj.resolved hstep) hip' k
  unfold stepsAt at hrest ⊢
  rw [countSteps_succ hstep, hrest]
  simp [hip]

end Skipping

/-! ### Whole runs -/

/-- The place in front of which such a loop stands is in front of everything or behind a closing
bracket. -/
theorem closing_of_length_eq {front back : String}
    (hfront : front = "" ∨ ∃ before, front = before ++ "]") {k : Nat} (hk : front.length = k + 1) :
    (Program.ofString (front ++ back)).symbols.toList[k]? = some .closing := by
  rcases hfront with rfl | ⟨before, rfl⟩
  · cases hk
  · obtain rfl : before.length = k := by
      rw [String.length_append] at hk
      exact Nat.succ_injective hk
    simp [Program.toList_symbols_ofString, ← String.length_toList, Symbol.closing]

namespace Execution

variable {κ : Type} [ByteSink κ] {s : Settings} {e : Engine} {front text back : String}

theorem Inserted.zeroAt_start {i : Insertion} {bytes : List UInt8} {sink : κ}
    {x y : Execution ByteQueue κ} (h : Inserted i s bytes sink x y) (place : Nat) :
    ZeroAt y.job place y.start := by
  obtain ⟨hn, hstart⟩ := h.start
  refine ⟨h.inside.2, fun _ => ?_⟩
  rw [h.same_start, hstart]
  exact Tape.current_blank _ hn

/-- A loop in front of everything, or behind a closing bracket, is dead code. Whatever stands in it,
as long as its brackets match, the program resolves and runs like the program without the loop, on
every tape and every input and with any policy for its end. The opening bracket is all of the loop
that is ever come to, and takes a step each time; at the start of a program this is once. -/
theorem dead_loop_alike (hprogram : Balanced (Program.ofString (front ++ back)).symbols.toList)
    (htext : Balanced (Program.ofString text).symbols.toList)
    (hfront : front = "" ∨ ∃ before, front = before ++ "]") (hsize : 1 ≤ s.tapeSize)
    (hlimit : s.limit = none) (he : e = .burst → s.trace = false) (bytes : List UInt8)
    (sink : κ) :
    ∃ links' links x y,
      (Program.ofString (front ++ ("[" ++ text ++ "]") ++ back)).resolve = .ok links' ∧
      (Program.ofString (front ++ back)).resolve = .ok links ∧
      ofLinks e s (.ofString (front ++ ("[" ++ text ++ "]") ++ back)) links'
        (⟨bytes⟩ : ByteQueue) sink = .ok x ∧
      ofLinks e s (.ofString (front ++ back)) links (⟨bytes⟩ : ByteQueue) sink = .ok y ∧
      AlikeButDetours front.length 1 x y ∧
      (∀ k g, Reaches x.job (Machine.step x.job) k x.start g →
        ¬ ((front.length : Int) < g.ip ∧ g.ip < (front.length : Int) + text.length + 2)) ∧
      (front = "" → ∀ k, x.start.stepsAt x.job 0 (k + 1) = 1) := by
  obtain ⟨body, hbody⟩ := Block.exists_of_balanced htext
  have hsymbols : (Block.loop body .done).symbols =
      (Program.ofString ("[" ++ text ++ "]")).symbols.toList := by
    rw [Block.symbols, hbody]
    simp [Program.toList_symbols_ofString, Symbol.opening, Symbol.closing, Block.symbols]
  have hlength : (Block.loop body .done).length = text.length + 2 := by
    rw [Block.length, ← Block.length_symbols, hbody, Program.length_symbols_ofString]
    rfl
  have hpos : 0 < (Block.loop body .done).length := Nat.succ_pos _
  obtain ⟨links', links, x, y, hlinks', hlinks, hx, hy, h⟩ :=
    exists_inserted hpos hsymbols hprogram hsize hlimit he bytes sink
  have hclosing : ∀ k : Nat, (Insertion.between front (.loop body .done) back hpos).place = k + 1 →
      y.job.program.fetch? k = some .closing := by
    intro k hk
    rw [Insertion.place_between] at hk
    rw [Program.fetch?_eq_some_iff, h.job.original, Insertion.original_between]
    exact closing_of_length_eq hfront hk
  have hd := Detour.of_loop (n := s.tapeSize.toNat) h.job rfl hclosing sink
  refine ⟨links', links, x, y, hlinks', hlinks, hx, hy, ?_, fun k g hg => ?_, fun _ k => ?_⟩
  · have halike := h.alikeButDetours hd (h.zeroAt_start _)
    rwa [Insertion.place_between] at halike
  · have houtside := hd.outside_of_reaches h.job h.beside (h.zeroAt_start _) hg
    rw [Insertion.place_between, Insertion.between, hlength, ← Nat.add_assoc] at houtside
    exact_mod_cast houtside
  · obtain ⟨hn, hstart⟩ := h.start
    have hip : x.start.ip = 0 := by
      rw [hstart]
      rfl
    have pending : ¬ x.start.isDone x.job := by
      have hlt := Insertion.length_result_pos (.between front (.loop body .done) back hpos)
      rw [Machine.isDone_iff, hip, h.job.length_result]
      omega
    exact Machine.stepsAt_zero_of_start h.job.result_free h.inside.1 hip pending k

/-- The loop `[.]` behind the inner loop of `,[>[-]<-]`, which is come to in each of two turns. -/
theorem nested_dead_loop_alike :
    Balanced (Program.ofString (",[>[-]" ++ "<-]")).symbols.toList ∧
    Balanced (Program.ofString ".").symbols.toList ∧ ",[>[-]" = ",[>[-" ++ "]" ∧
    ∃ links' links x y f' f, (Program.ofString ",[>[-][.]<-]").resolve = .ok links' ∧
      (Program.ofString ",[>[-]<-]").resolve = .ok links ∧
      ofLinks .stepwise { tapeSize := 2, eof := .keep, limit := none, trace := false }
        (.ofString ",[>[-][.]<-]") links' (⟨[2]⟩ : ByteQueue) Output.emptyBuffer = .ok x ∧
      ofLinks .stepwise { tapeSize := 2, eof := .keep, limit := none, trace := false }
        (.ofString ",[>[-]<-]") links (⟨[2]⟩ : ByteQueue) Output.emptyBuffer = .ok y ∧
      x.Settles (.ok f') ∧ y.Settles (.ok f) ∧ f'.tape = f.tape ∧ f'.sink = f.sink ∧
      f.steps = 12 ∧ f'.steps = 14 ∧ x.start.stepsAt x.job 6 14 = 2 := by
  have hprogram : Balanced (Program.ofString (",[>[-]" ++ "<-]")).symbols.toList :=
    Program.exists_resolve_ok_iff.1 ⟨_, rfl⟩
  have htext : Balanced (Program.ofString ".").symbols.toList :=
    Program.exists_resolve_ok_iff.1 ⟨_, rfl⟩
  obtain ⟨links', links, x, y, hlinks', hlinks, hx, hy, halike, -, -⟩ :=
    dead_loop_alike (e := .stepwise)
      (s := { tapeSize := 2, eof := .keep, limit := none, trace := false }) hprogram htext
      (Or.inr ⟨",[>[-", by decide⟩) (by decide) rfl (fun h => by cases h) [2] Output.emptyBuffer
  obtain rfl := Except.ok.inj (hlinks'.symm.trans rfl)
  obtain rfl := Except.ok.inj (hlinks.symm.trans rfl)
  obtain rfl := Except.ok.inj (hx.symm.trans rfl)
  obtain rfl := Except.ok.inj (hy.symm.trans rfl)
  -- both runs are computed, and end as they must
  obtain ⟨f', f, hf', hf, htape, -, hsink, -⟩ :=
    halike.ends (a := .ok _) (b := .ok _) ⟨20, rfl⟩ ⟨20, rfl⟩
  obtain rfl := Except.ok.inj hf'
  obtain rfl := Except.ok.inj hf
  exact ⟨hprogram, htext, by decide, _, _, _, _, _, _, hlinks', hlinks, hx, hy, ⟨20, rfl⟩,
    ⟨20, rfl⟩, htape, hsink, rfl, rfl, rfl⟩

end Execution

end RingTape
