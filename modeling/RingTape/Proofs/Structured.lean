import RingTape.Proofs.Engines
import RingTape.Proofs.Progress
import RingTape.Proofs.Store

/-!
Loops as loops. `Means` is the meaning of a block as a structured program, with no places and no
jumps: symbols in sequence, and a loop that repeats its body while the current cell is not zero.
Each symbol costs one; a loop costs one to enter or skip, and with every turn the body and one more
to come back.

Running a program and following the meaning of its block are the same thing. From the meaning to the
run, the induction is on the block and on the turns of a loop. Back again, it is on the block and on
the steps that a run still takes until it is done: the run cannot be done inside a block, so it has
to come out behind it.
-/

namespace RingTape

/-- Doing `body` again and again while `live` holds, at a cost of one more with every turn. -/
inductive Repeats {α : Type} (live : α → Prop) (body : α → α → Nat → Prop) : α → α → Nat → Prop
  | stop {x : α} (dead : ¬ live x) : Repeats live body x x 0
  | again {x y z : α} {k n : Nat} (alive : live x) (once : body x y k)
      (more : Repeats live body y z n) : Repeats live body x z (k + 1 + n)

namespace Block

variable {n : Nat}

/-- From `st`, the block comes to `st'` at a cost of `k`. -/
def Means (eof : EofPolicy) : Block → Store n → Store n → Nat → Prop
  | done, st, st', k => st' = st ∧ k = 0
  | symbol s _ rest, st, st', k => ∃ i, rest.Means eof (st.apply eof s) st' i ∧ k = 1 + i
  | loop body rest, st, st', k => ∃ mid i i',
      Repeats (fun st => st.current ≠ 0) (body.Means eof) st mid i ∧
        rest.Means eof mid st' i' ∧ k = 1 + i + i'

end Block

theorem Machine.not_isDone_of_getElem? {ι κ : Type} {j : Job} {m : Machine ι κ} {k : Nat}
    {s : Symbol} (hip : m.ip = k) (h : j.program.symbols.toList[k]? = some s) : ¬ m.isDone j := by
  rw [isDone_iff, hip]
  have := Program.lt_of_fetch? (Program.fetch?_eq_some_iff.2 h)
  omega

/-! ### From the meaning to the run -/

section Running

open Machine (Reaches)

variable {κ : Type} [ByteSink κ] {n : Nat} {sink : κ} {j : Job} {st st' : Store n}
  {m f : Machine ByteQueue κ} {a k : Nat} {b body rest : Block}

def AtTest (a : Nat) (body : Block) (m : Machine ByteQueue κ) : Prop :=
  m.ip = a ∨ m.ip = ((a + 1 + body.length : Nat) : Int)

/-- The test leads into the body or out of the loop, at whichever bracket it is made. -/
theorem Represents.step_test (hj : j.Free)
    (h : (Block.loop body rest).StandsAt j.program.symbols.toList a)
    (hr : Represents sink st m) (ht : AtTest a body m) :
    ¬ m.isDone j ∧ ∃ m', m.step j = .ok m' ∧ Represents sink st m' ∧
      m'.ip = ((if st.current = 0 then a + body.length + 2 else a + 1 : Nat) : Int) := by
  rcases ht with hip | hip
  · refine ⟨Machine.not_isDone_of_getElem? hip h.opening, ?_⟩
    obtain ⟨m', hstep, hip', hr'⟩ := hr.step_opening (hj.not_spent _)
      (hip ▸ Program.fetch?_eq_some_iff.2 h.opening) (hip ▸ hj.resolved.forward h.loop_matched)
    refine ⟨m', hstep, hr', ?_⟩
    rw [hip', hip]
    split <;> push_cast <;> omega
  · refine ⟨Machine.not_isDone_of_getElem? hip h.closing, ?_⟩
    obtain ⟨m', hstep, hip', hr'⟩ := hr.step_closing (hj.not_spent _)
      (hip ▸ Program.fetch?_eq_some_iff.2 h.closing) (hip ▸ hj.resolved.backward h.loop_matched)
    refine ⟨m', hstep, hr', ?_⟩
    rw [hip', hip]
    split <;> push_cast <;> omega

/-- A loop runs as long as it repeats, once its body runs as it means. -/
theorem Represents.reaches_of_repeats (hj : j.Free)
    (h : (Block.loop body rest).StandsAt j.program.symbols.toList a)
    (hbody : ∀ (m : Machine ByteQueue κ) (st st' : Store n) (k : Nat),
      m.ip = ((a + 1 : Nat) : Int) → Represents sink st m → body.Means j.eof st st' k →
        ∃ m', Reaches j (Machine.step j) k m m' ∧
          m'.ip = ((a + 1 + body.length : Nat) : Int) ∧ Represents sink st' m')
    (hr : Represents sink st m) (ht : AtTest a body m)
    (hl : Repeats (fun st => st.current ≠ 0) (body.Means j.eof) st st' k) :
    ∃ m', Reaches j (Machine.step j) (1 + k) m m' ∧ m'.ip = ((a + body.length + 2 : Nat) : Int) ∧
      Represents sink st' m' := by
  induction hl generalizing m with
  | @stop st dead =>
      obtain ⟨pending, m', hstep, hr', hip⟩ := hr.step_test hj h ht
      rw [if_pos (not_not.1 dead)] at hip
      exact ⟨m', .single pending hstep, hip, hr'⟩
  | @again st mid st' k i alive once _ ih =>
      obtain ⟨pending, m₁, hstep, hr₁, hip₁⟩ := hr.step_test hj h ht
      rw [if_neg alive] at hip₁
      obtain ⟨m₂, hreach₂, hip₂, hr₂⟩ := hbody _ _ _ _ hip₁ hr₁ once
      -- behind the body stands the closing bracket, where the next turn is tested
      obtain ⟨m₃, hreach₃, hip₃, hr₃⟩ := ih hr₂ (Or.inr hip₂)
      refine ⟨m₃, ?_, hip₃, hr₃⟩
      have hreach := (Reaches.single pending hstep).trans (hreach₂.trans hreach₃)
      rwa [show 1 + (k + (1 + i)) = 1 + (k + 1 + i) by omega] at hreach

theorem Represents.reaches_of_means (hj : j.Free) (h : b.StandsAt j.program.symbols.toList a)
    (hip : m.ip = a) (hr : Represents sink st m) (hm : b.Means j.eof st st' k) :
    ∃ m', Reaches j (Machine.step j) k m m' ∧ m'.ip = ((a + b.length : Nat) : Int) ∧
      Represents sink st' m' := by
  induction b generalizing a m st st' k with
  | done =>
      obtain ⟨rfl, rfl⟩ := hm
      exact ⟨m, .refl m, hip, hr⟩
  | symbol s plain rest ih =>
      obtain ⟨i, hrest, rfl⟩ := hm
      have pending := Machine.not_isDone_of_getElem? hip h.head
      obtain ⟨m₁, hstep, hip₁, hr₁⟩ := hr.step_plain (hj.not_spent _)
        (hip ▸ Program.fetch?_eq_some_iff.2 h.head) plain
      rw [hip] at hip₁
      obtain ⟨m₂, hreach, hip₂, hr₂⟩ := ih h.tail hip₁ hr₁ hrest
      refine ⟨m₂, (Reaches.single pending hstep).trans hreach, ?_, hr₂⟩
      rw [hip₂, Block.length, show a + 1 + rest.length = a + (rest.length + 1) by omega]
  | loop body rest ihb ihr =>
      obtain ⟨mid, i, i', hl, hrest, rfl⟩ := hm
      obtain ⟨m₁, hreach₁, hip₁, hr₁⟩ := hr.reaches_of_repeats hj h
        (fun _ _ _ _ hip hr hm => ihb h.body hip hr hm) (Or.inl hip) hl
      obtain ⟨m₂, hreach₂, hip₂, hr₂⟩ := ihr h.rest hip₁ hr₁ hrest
      refine ⟨m₂, hreach₁.trans hreach₂, ?_, hr₂⟩
      rw [hip₂, Block.length]
      congr 1
      omega

/-! ### From the run to the meaning -/

/-- A run that is done sometime has left the loop before. -/
theorem Represents.repeats_of_reaches (hj : j.Free)
    (h : (Block.loop body rest).StandsAt j.program.symbols.toList a)
    (hbody : ∀ (m : Machine ByteQueue κ) (st : Store n) (k : Nat), m.ip = ((a + 1 : Nat) : Int) →
      Represents sink st m → Reaches j (Machine.step j) k m f →
        ∃ st' i, i ≤ k ∧ body.Means j.eof st st' i)
    (hr : Represents sink st m) (ht : AtTest a body m) (hreach : Reaches j (Machine.step j) k m f)
    (hf : f.isDone j) :
    ∃ st' i, 1 + i ≤ k ∧
      Repeats (fun st : Store n => st.current ≠ 0) (body.Means j.eof) st st' i := by
  induction k using Nat.strongRecOn generalizing m st with
  | ind k ih =>
      obtain ⟨pending, m₁, hstep, hr₁, hip₁⟩ := hr.step_test hj h ht
      cases hreach with
      | refl => exact absurd hf pending
      | @head k _ m' _ _ worked hrun =>
          obtain rfl := Except.ok.inj (hstep.symm.trans worked)
          by_cases hz : st.current = 0
          · exact ⟨st, 0, by omega, .stop (not_not.2 hz)⟩
          · rw [if_neg hz] at hip₁
            obtain ⟨st₁, i, hi, hmeans⟩ := hbody _ _ _ hip₁ hr₁ hrun
            obtain ⟨m₂, hreach₂, hip₂, hr₂⟩ := hr₁.reaches_of_means hj h.body hip₁ hmeans
            -- what the run still takes behind the body is less than what it took in front of it
            obtain ⟨d, rfl⟩ := Nat.exists_eq_add_of_le hi
            obtain ⟨st₂, i₂, hi₂, hl⟩ := ih d (by omega) hr₂ (Or.inr hip₂) (hreach₂.cut hrun)
            exact ⟨st₂, i + 1 + i₂, by omega, .again hz hmeans hl⟩

theorem Represents.means_of_reaches (hj : j.Free) (h : b.StandsAt j.program.symbols.toList a)
    (hip : m.ip = a) (hr : Represents sink st m) (hreach : Reaches j (Machine.step j) k m f)
    (hf : f.isDone j) : ∃ st' i, i ≤ k ∧ b.Means j.eof st st' i := by
  induction b generalizing a m st k with
  | done => exact ⟨st, 0, Nat.zero_le k, rfl, rfl⟩
  | symbol s plain rest ih =>
      have pending := Machine.not_isDone_of_getElem? hip h.head
      obtain ⟨m₁, hstep, hip₁, hr₁⟩ := hr.step_plain (hj.not_spent _)
        (hip ▸ Program.fetch?_eq_some_iff.2 h.head) plain
      rw [hip] at hip₁
      cases hreach with
      | refl => exact absurd hf pending
      | head _ worked hrun =>
          obtain rfl := Except.ok.inj (hstep.symm.trans worked)
          obtain ⟨st', i, hi, hmeans⟩ := ih h.tail hip₁ hr₁ hrun
          exact ⟨st', 1 + i, by omega, i, hmeans, rfl⟩
  | loop body rest ihb ihr =>
      obtain ⟨st₁, i, hi, hl⟩ := hr.repeats_of_reaches hj h
        (fun _ _ _ hip hr hreach => ihb h.body hip hr hreach) (Or.inl hip) hreach hf
      obtain ⟨m₁, hreach₁, hip₁, hr₁⟩ := hr.reaches_of_repeats hj h
        (fun _ _ _ _ hip hr hm => hr.reaches_of_means hj h.body hip hm) (Or.inl hip) hl
      -- the run passes behind the loop, and what is left of it starts there
      obtain ⟨d, rfl⟩ := Nat.exists_eq_add_of_le hi
      obtain ⟨st₂, i₂, hi₂, hmeans⟩ := ihr h.rest hip₁ hr₁ (hreach₁.cut hreach)
      exact ⟨st₂, 1 + i + i₂, by omega, st₁, i, i₂, hl, hmeans, rfl⟩

/-! ### Whole runs -/

variable (hb : b.symbols = j.program.symbols.toList)

include hb

/-- A program that has a meaning ends behind itself, with what it means and at what it costs. -/
theorem Represents.exists_settles (hj : j.Free) (hip : m.ip = 0) (hr : Represents sink st m)
    (hm : b.Means j.eof st st' k) :
    ∃ f, m.Settles j (Machine.step j) (.ok f) ∧ Represents sink st' f ∧
      f.ip = j.program.length ∧ f.steps = m.steps + k := by
  have hlength : b.length = j.program.length := by
    rw [← Block.length_symbols, hb]
    exact Array.length_toList
  obtain ⟨f, hreach, hipf, hrf⟩ := hr.reaches_of_means hj (hb ▸ b.standsAt_self) hip hm
  rw [Nat.zero_add, hlength] at hipf
  exact ⟨f, .finished hreach (Machine.isDone_iff.2 (Int.le_of_eq hipf.symm)), hrf, hipf,
    hreach.steps⟩

/-- Only a program that has a meaning ends. -/
theorem Represents.exists_means (hj : j.Free) (hip : m.ip = 0) (hr : Represents sink st m)
    {a : Attempt ByteQueue κ} (hs : m.Settles j (Machine.step j) a) :
    ∃ st' k, b.Means j.eof st st' k := by
  have hin : m.Inside j := ⟨Int.le_of_eq hip.symm, by omega⟩
  cases hs with
  | finished run done =>
      obtain ⟨st', k, -, hm⟩ := hr.means_of_reaches hj (hb ▸ b.standsAt_self) hip run done
      exact ⟨st', k, hm⟩
  | failed run pending broken =>
      exact absurd (.failed run pending broken) (hin.not_settles_error ByteQueue.steady hj _)

end Running

/-- A machine that starts on a blank tape holds a blank store. -/
theorem Execution.represents_startOf {κ : Type} [ByteSink κ] {s : Settings} {n : Nat} (h : 0 < n)
    (bytes : List UInt8) (sink : κ) :
    Represents sink (.blank n bytes) (startOf s (.blank n h) (⟨bytes⟩ : ByteQueue) sink) where
  size := Tape.size_blank n h
  pointer := by simp [startOf, Store.blank]
  cells k hk := by simp [startOf, Store.blank, Tape.blank]
  unread := rfl
  sink := rfl

/-- Running a balanced program is what its brackets say when they are read as loops. The run ends
exactly when its block has a meaning, and then with the cells, the pointer, the rest of the input
and the output that are meant, behind the program, after as many steps as the meaning costs. -/
theorem Execution.settles_iff_block_means {κ : Type} [ByteSink κ] {p : Program} {s : Settings}
    (hp : Balanced p.symbols.toList) (hsize : 1 ≤ s.tapeSize) (hlimit : s.limit = none)
    (bytes : List UInt8) (sink : κ) :
    ∃ b links x, b.symbols = p.symbols.toList ∧
      (∀ c : Block, c.symbols = p.symbols.toList → c = b) ∧ p.resolve = .ok links ∧
      ofLinks .stepwise s p links (⟨bytes⟩ : ByteQueue) sink = .ok x ∧
      ((∃ a, x.Settles a) ↔ ∃ st k, b.Means s.eof (.blank s.tapeSize.toNat bytes) st k) ∧
      ∀ st k, b.Means s.eof (.blank s.tapeSize.toNat bytes) st k →
        ∃ f, x.Settles (.ok f) ∧ Represents sink st f ∧ f.ip = p.length ∧ f.steps = k := by
  obtain ⟨b, hb⟩ := Block.exists_of_balanced hp
  obtain ⟨links, hlinks⟩ := Program.exists_resolve_ok_iff.2 hp
  obtain ⟨tape, htape, rfl⟩ := exists_blank hsize
  have hj : (jobOf s p links).Free := ⟨hlinks, hlimit⟩
  have hr := represents_startOf (s := s) (n := s.tapeSize.toNat) (by omega) bytes sink
  refine ⟨b, links, _, hb, fun c hc => Block.symbols_injective (hc.trans hb.symm), hlinks,
    ofLinks_stepwise htape, ?_, fun st k hm => ?_⟩
  · constructor
    · rintro ⟨a, ha⟩
      exact hr.exists_means hb hj rfl ((settles_stepwise_iff rfl).1 ha)
    · rintro ⟨st, k, hm⟩
      obtain ⟨f, hf, -⟩ := hr.exists_settles hb hj rfl hm
      exact ⟨.ok f, (settles_stepwise_iff rfl).2 hf⟩
  · obtain ⟨f, hf, hrf, hip, hsteps⟩ := hr.exists_settles hb hj rfl hm
    refine ⟨f, (settles_stepwise_iff rfl).2 hf, hrf, hip, ?_⟩
    rw [hsteps]
    exact Nat.zero_add k

/-- `,[.,]` hands its input on up to the first zero or the end. -/
theorem Execution.echo_settles : Balanced (Program.ofString ",[.,]").symbols.toList ∧
    ∃ links x f, (Program.ofString ",[.,]").resolve = .ok links ∧
      ofLinks .stepwise { tapeSize := 3, eof := .zero, limit := none, trace := false }
        (.ofString ",[.,]") links (⟨[7]⟩ : ByteQueue) Output.emptyBuffer = .ok x ∧
      x.Settles (.ok f) ∧ f.sink.bytes.toList = [7] ∧ f.source.unread = [] ∧ f.steps = 5 := by
  have hp : Balanced (Program.ofString ",[.,]").symbols.toList :=
    Program.exists_resolve_ok_iff.1 ⟨_, rfl⟩
  obtain ⟨b, links, x, -, unique, hlinks, hx, -, hends⟩ :=
    settles_iff_block_means (s := { tapeSize := 3, eof := .zero, limit := none, trace := false })
      hp (by decide) rfl [7] Output.emptyBuffer
  let body : Block := .symbol (.char '.') (by decide) (.symbol (.char ',') (by decide) .done)
  obtain rfl := unique (.symbol (.char ',') (by decide) (.loop body .done)) (by decide)
  let st₁ := (Store.blank 3 [7]).apply .zero (.char ',')
  let st₂ := (st₁.apply .zero (.char '.')).apply .zero (.char ',')
  have once : body.Means .zero st₁ st₂ 2 := ⟨1, ⟨0, ⟨rfl, rfl⟩, rfl⟩, rfl⟩
  have turns : Repeats (fun st => st.current ≠ 0) (body.Means .zero) st₁ st₂ 3 :=
    .again (by decide) once (.stop (by decide))
  obtain ⟨f, hf, hr, -, hsteps⟩ := hends st₂ 5 ⟨4, ⟨st₂, 3, 0, turns, ⟨rfl, rfl⟩, rfl⟩, rfl⟩
  refine ⟨hp, links, x, f, hlinks, hx, hf, ?_, ?_, hsteps⟩
  · rw [hr.sink, Output.bytes_writeAll]
    decide
  · rw [hr.unread]
    decide

end RingTape
