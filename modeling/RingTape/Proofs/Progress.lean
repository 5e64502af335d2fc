import RingTape.Proofs.Resolve
import RingTape.Proofs.Step

/-!
Progress. A machine that runs under the links of matching brackets never leaves its program, except
for the place just behind it, and never meets a bracket that leads nowhere. What can still stop it
are the limit and the source: `step_cases` says so for one step and `not_settles_error` for a run
that has neither to fear.
-/

namespace RingTape

/-! ### Matching links -/

namespace Job

def Resolved (j : Job) : Prop := j.program.resolve = .ok j.links

variable {j : Job} {o c k : Nat}

theorem Resolved.forward (hj : j.Resolved) (hm : Matched j.program.symbols.toList o c) :
    j.links.forward[(o : Int)]? = some (c : Int) := by
  obtain ⟨hmatching, heq⟩ := Program.isMatching_of_resolve hj
  rw [heq, hmatching.forward_iff]
  exact hmatching.mem_iff.2 hm

theorem Resolved.backward (hj : j.Resolved) (hm : Matched j.program.symbols.toList o c) :
    j.links.backward[(c : Int)]? = some (o : Int) := by
  obtain ⟨hmatching, heq⟩ := Program.isMatching_of_resolve hj
  rw [heq, hmatching.backward_iff]
  exact hmatching.mem_iff.2 hm

theorem Resolved.exists_forward (hj : j.Resolved) (hs : j.program.fetch? k = some .opening) :
    ∃ c : Nat, j.links.forward[(k : Int)]? = some (c : Int) ∧ c < j.program.length := by
  have hmatching := (Program.isMatching_of_resolve hj).1
  obtain ⟨c, hm⟩ := hmatching.exists_closing (Program.fetch?_eq_some_iff.1 hs)
  exact ⟨c, hj.forward hm, Program.lt_of_fetch? (Program.fetch?_eq_some_iff.2 hm.closing)⟩

theorem Resolved.exists_backward (hj : j.Resolved) (hs : j.program.fetch? k = some .closing) :
    ∃ o : Nat, j.links.backward[(k : Int)]? = some (o : Int) ∧ o < j.program.length := by
  have hmatching := (Program.isMatching_of_resolve hj).1
  obtain ⟨o, hm⟩ := hmatching.exists_opening (Program.fetch?_eq_some_iff.1 hs)
  exact ⟨o, hj.backward hm, Program.lt_of_fetch? (Program.fetch?_eq_some_iff.2 hm.opening)⟩

end Job

structure Job.Free (j : Job) : Prop where
  resolved : j.Resolved
  unlimited : j.limit = none

theorem Job.Free.not_spent {j : Job} (h : j.Free) (steps : Nat) : j.spent steps = false := by
  simp [Job.spent, h.unlimited]

def ByteSource.Steady (ι : Type) [ByteSource ι] : Prop :=
  ∀ source : ι, ∃ b source', ByteSource.read source = (.ok b, source')

theorem ByteQueue.steady : ByteSource.Steady ByteQueue := by
  rintro ⟨unread⟩
  cases unread with
  | nil => exact ⟨none, ⟨[]⟩, rfl⟩
  | cons b bs => exact ⟨some b, ⟨bs⟩, rfl⟩

/-! ### Steps in a resolved program -/

namespace Machine

variable {ι κ : Type} {j : Job} {m m' : Machine ι κ} {s : Symbol}

structure Inside (j : Job) (m : Machine ι κ) : Prop where
  nonneg : 0 ≤ m.ip
  le : m.ip ≤ j.program.length

theorem Inside.ip_eq (h : m.Inside j) (done : m.isDone j) : m.ip = j.program.length :=
  Int.le_antisymm h.le (isDone_iff.1 done)

/-- Reading fails only with the source. -/
theorem readByte_cases [ByteSource ι] (eof : EofPolicy) (m : Machine ι κ) :
    (∃ m', m.readByte eof = .ok m') ∨ ∃ e source, ByteSource.read m.source = (.error e, source) ∧
      m.readByte eof = { m with source }.fail (.codec e) := by
  unfold readByte
  split
  · rename_i e source hread
    exact Or.inr ⟨e, source, hread, rfl⟩
  · exact Or.inl ⟨_, rfl⟩
  · split <;> exact Or.inl ⟨_, rfl⟩

section Steps

variable [ByteSource ι] [ByteSink κ]

/-- A symbol of a resolved program fails only with the source. -/
theorem execute_cases (hj : j.Resolved) {k : Nat} (hip : m.ip = k)
    (hs : j.program.fetch? k = some s) :
    (∃ m', m.execute j s = .ok m') ∨ ∃ e source, ByteSource.read m.source = (.error e, source) ∧
      m.execute j s = { m with source }.fail (.codec e) := by
  unfold execute
  split
  -- only reading and the two brackets could fail
  case h_7 => exact readByte_cases j.eof m
  case h_8 hc =>
    obtain rfl : s = .opening := Symbol.command?_eq_openLoop_iff.1 hc
    obtain ⟨c, hlink, -⟩ := hj.exists_forward hs
    split
    · exact Or.inl ⟨_, jump_of_link (hip ▸ hlink)⟩
    · exact Or.inl ⟨m, rfl⟩
  case h_9 hc =>
    obtain rfl : s = .closing := Symbol.command?_eq_closeLoop_iff.1 hc
    obtain ⟨o, hlink, -⟩ := hj.exists_backward hs
    split
    · exact Or.inl ⟨m, rfl⟩
    · exact Or.inl ⟨_, jump_of_link (hip ▸ hlink)⟩
  all_goals exact Or.inl ⟨_, rfl⟩

theorem Inside.step (hj : j.Resolved) (h : m.Inside j) (hstep : m.step j = .ok m') :
    m'.Inside j := by
  obtain ⟨s, t, hs, hland, hip⟩ := ip_of_step hstep
  obtain ⟨k, hk⟩ := Int.eq_ofNat_of_zero_le h.nonneg
  rw [hk] at hs hland
  have hlt := Program.lt_of_fetch? hs
  -- every way to land ends at a place of the program
  obtain ⟨i, rfl, hi⟩ : ∃ i : Nat, t = i ∧ i < j.program.length := by
    cases hland with
    | here => exact ⟨k, rfl, hlt⟩
    | opening command link =>
        obtain rfl : s = .opening := Symbol.command?_eq_openLoop_iff.1 command
        obtain ⟨c, hlink, hc⟩ := hj.exists_forward hs
        exact ⟨c, Option.some.inj (link.symm.trans hlink), hc⟩
    | closing command link =>
        obtain rfl : s = .closing := Symbol.command?_eq_closeLoop_iff.1 command
        obtain ⟨o, hlink, ho⟩ := hj.exists_backward hs
        exact ⟨o, Option.some.inj (link.symm.trans hlink), ho⟩
  constructor <;> omega

/-- A step from inside the program leads inside, or the steps were spent, or the source has
failed. -/
theorem step_cases (hj : j.Resolved) (h : m.Inside j) (pending : ¬ m.isDone j) :
    (∃ m', m.step j = .ok m' ∧ m'.Inside j) ∨
      (j.spent m.steps = true ∧ m.step j = m.fail (.fault (.limit (.stopped m.steps m.ip)))) ∨
      ∃ e source s, ByteSource.read m.source = (.error e, source) ∧
        m.step j = { m.note (m.entry s) with source }.fail (.codec e) := by
  cases hl : j.spent m.steps with
  | true => exact Or.inr (Or.inl ⟨rfl, step_of_spent hl⟩)
  | false =>
      obtain ⟨k, s, hk, hs⟩ := exists_symbol h.nonneg pending
      have hnote : (m.note (m.entry s)).ip = k := (ip_note m _).trans hk
      rcases execute_cases hj hnote hs with ⟨f, he⟩ | ⟨e, source, hread, he⟩
      · have hstep := step_of_execute hl (hk ▸ hs) he
        exact Or.inl ⟨f.next, hstep, h.step hj hstep⟩
      · rw [source_note] at hread
        refine Or.inr (Or.inr ⟨e, source, s, hread, ?_⟩)
        rw [step_of_symbol hl (hk ▸ hs), he]
        rfl

end Steps

/-! ### Runs that nothing stops -/

section Runs

variable [ByteSource ι] [ByteSink κ] {n : Nat}

theorem Reaches.inside (hj : j.Resolved) (h : Reaches j (step j) n m m') (hm : m.Inside j) :
    m'.Inside j :=
  h.invariant (fun _ worked hin => hin.step hj worked) hm

theorem Inside.step_ok (hι : ByteSource.Steady ι) (hj : j.Free) (h : m.Inside j)
    (pending : ¬ m.isDone j) : ∃ m', m.step j = .ok m' := by
  rcases step_cases hj.resolved h pending with ⟨m', hstep, -⟩ | ⟨hl, -⟩ | ⟨e, source, s, hread, -⟩
  · exact ⟨m', hstep⟩
  · rw [hj.not_spent] at hl
    cases hl
  · obtain ⟨b, source', hok⟩ := hι m.source
    cases hread.symm.trans hok

/-- Such a run ends behind its program or not at all. -/
theorem Inside.not_settles_error (hι : ByteSource.Steady ι) (hj : j.Free) (h : m.Inside j)
    (b : Breakdown ι κ) : ¬ Settles j (Machine.step j) m (.error b) := by
  intro hs
  cases hs with
  | failed run pending broken =>
      obtain ⟨m', hstep⟩ := (run.inside hj.resolved h).step_ok hι hj pending
      cases hstep.symm.trans broken

theorem Inside.reaches_of_settles (hι : ByteSource.Steady ι) (hj : j.Free) (h : m.Inside j)
    {a : Attempt ι κ} (hs : Settles j (Machine.step j) m a) :
    ∃ n f, a = .ok f ∧ Reaches j (Machine.step j) n m f ∧ f.isDone j := by
  cases hs with
  | finished run done => exact ⟨_, _, rfl, run, done⟩
  | failed run pending broken =>
      exact absurd (.failed run pending broken) (h.not_settles_error hι hj _)

end Runs

end Machine

end RingTape
