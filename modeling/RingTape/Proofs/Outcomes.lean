import RingTape.Proofs.Interpretation
import RingTape.Proofs.Limit
import RingTape.Proofs.Safety

/-!
The outcomes of an interpretation. There are three, as long as the source does not fail. Brackets
without a partner are told before anything else is looked at. A program whose brackets match is run
to its end, or it is stopped when it needs more steps than it may take; what it has written by then
belongs to the result in either case.

That nothing else can come of a run is `Supplied.settles_cases`: a machine that stands in its
program with a source that does not fail stays so in every step, and only the limit refuses a step
to it.
-/

namespace RingTape

/-! ### Sources that do not fail -/

namespace ByteSource

variable {ι : Type} [ByteSource ι] {source : ι}

def after : Nat → ι → ι
  | 0, source => source
  | n + 1, source => after n (read source).2

def Unfailing (source : ι) : Prop := ∀ n, ∃ b source', read (after n source) = (.ok b, source')

theorem Unfailing.next (h : Unfailing source) : Unfailing (read source).2 := fun n => h (n + 1)

theorem unfailing_of_invariant {P : ι → Prop}
    (hP : ∀ s, P s → ∃ b s', read s = (.ok b, s') ∧ P s') (h : P source) : Unfailing source := by
  intro n
  induction n generalizing source with
  | zero =>
      obtain ⟨b, s', hread, -⟩ := hP source h
      exact ⟨b, s', hread⟩
  | succ n ih =>
      obtain ⟨b, s', hread, hs'⟩ := hP source h
      simp only [after, hread]
      exact ih hs'

end ByteSource

theorem ByteQueue.unfailing (q : ByteQueue) : ByteSource.Unfailing q := fun _ => steady _

/-- UTF-8 has bytes for every line. -/
theorem LineReader.unfailing_utf8 (cs : List Char) :
    ByteSource.Unfailing (⟨cs, "utf-8"⟩ : LineReader) := by
  refine ByteSource.unfailing_of_invariant (P := fun r : LineReader => r.encoding = "utf-8")
    (fun r hr => ?_) rfl
  show ∃ b s', LineReader.read r = (.ok b, s') ∧ s'.encoding = "utf-8"
  unfold LineReader.read
  split
  · exact ⟨none, r, rfl, hr⟩
  · rw [LineReader.firstByte, hr, Text.Encoding.ofName?_utf8]
    simp only [Text.Encoding.encode_utf8]
    exact ⟨_, _, rfl, rfl⟩

/-! ### Runs that only a limit can stop -/

namespace Machine

variable {ι κ : Type} [ByteSource ι] [ByteSink κ] {j : Job} {m m' : Machine ι κ} {n k : Nat}
  {a : Attempt ι κ}

structure Supplied (j : Job) (n : Nat) (m : Machine ι κ) : Prop extends Sound j n m where
  source : ByteSource.Unfailing m.source

/-- A step keeps such a machine as it is, or is refused because the steps are spent. -/
theorem Supplied.step_cases (hj : j.Resolved) (h : m.Supplied j n) (pending : ¬ m.isDone j) :
    (∃ m', m.step j = .ok m' ∧ m'.Supplied j n) ∨
      (j.spent m.steps = true ∧ m.step j = m.fail (.fault (.limit (.stopped m.steps m.ip)))) := by
  rcases Machine.step_cases hj h.inside pending with
    ⟨m', hstep, hin⟩ | hspent | ⟨e, source, s, hread, -⟩
  · refine Or.inl ⟨m', hstep, ⟨hin, (size_of_step hstep).trans h.size⟩, ?_⟩
    rcases source_of_step hstep with hs | hs
    · exact hs ▸ h.source
    · exact hs ▸ h.source.next
  · exact Or.inr hspent
  · obtain ⟨b, source', hok⟩ := h.source 0
    cases hread.symm.trans hok

theorem Reaches.supplied (hj : j.Resolved) (h : Reaches j (step j) k m m') (hm : m.Supplied j n) :
    m'.Supplied j n := by
  refine h.invariant (fun {m m'} pending worked hm => ?_) hm
  rcases hm.step_cases hj pending with ⟨f, hstep, hf⟩ | ⟨-, hstep⟩
  · obtain rfl := Except.ok.inj (hstep.symm.trans worked)
    exact hf
  · cases hstep.symm.trans worked

/-- The two ways in which such a run ends. -/
theorem Supplied.settles_cases (hj : j.Resolved) (h : m.Supplied j n)
    (hs : Settles j (step j) m a) :
    ∃ k g, Reaches j (step j) k m g ∧ g.tape.size = n ∧
      ((a = .ok g ∧ g.isDone j) ∨
        (a = .error ⟨.fault (.limit (.stopped g.steps g.ip)), g⟩ ∧ ¬ g.isDone j ∧
          j.spent g.steps = true)) := by
  cases hs with
  | @finished k f run done => exact ⟨k, f, run, (run.supplied hj h).size, Or.inl ⟨rfl, done⟩⟩
  | @failed k g b run pending broken =>
      have hg := run.supplied hj h
      refine ⟨k, g, run, hg.size, Or.inr ?_⟩
      rcases hg.step_cases hj pending with ⟨m', hstep, -⟩ | ⟨hspent, hstep⟩
      · cases hstep.symm.trans broken
      · cases hstep.symm.trans broken
        exact ⟨rfl, pending, hspent⟩

/-- No step is taken when as many have been taken as may be. -/
theorem Reaches.steps_le {limit : Int} (hl : j.limit = some limit)
    (h : Reaches j (step j) k m m') (hm : m.steps = 0) : m'.steps ≤ limit.toNat := by
  refine h.invariant (P := fun m => m.steps ≤ limit.toNat) (fun {m m'} _ worked _ => ?_) (by omega)
  have hlt : ¬ limit ≤ m.steps := by simpa [Job.spent, hl] using (step_eq_ok_iff.1 worked).1
  rw [steps_of_step worked]
  omega

/-- Under a limit every run ends. -/
theorem exists_settles_of_limit {limit : Int} (hl : j.limit = some limit) (hm : m.steps = 0) :
    ∃ a, Settles j (step j) m a := by
  rcases drive_cases j (step j) (limit.toNat + 1) m with
    ⟨k, f, -, run, done, -⟩ | ⟨k, g, b, -, run, pending, broken, -⟩ | ⟨g, run, -, -⟩
  · exact ⟨_, .finished run done⟩
  · exact ⟨_, .failed run pending broken⟩
  · have hle := run.steps_le hl hm
    have hsteps := run.steps
    omega

/-- What is done under a limit is done without one. -/
theorem Reaches.withoutLimit (h : Reaches j (step j) k m m') :
    Reaches (j.withLimit none) (step (j.withLimit none)) k m m' := by
  induction h with
  | refl m => exact .refl m
  | head pending worked _ ih =>
      have hl := (step_eq_ok_iff.1 worked).1
      have hstep : Machine.step ((j.withLimit none).withLimit j.limit) _ =
          Machine.step (j.withLimit none) _ := step_withLimit hl rfl
      exact .head pending (hstep.symm.trans worked) ih

/-- A run that comes by a machine that is not done takes more steps than that. -/
theorem Reaches.steps_lt {f : Machine ι κ} (h : Reaches j (step j) k m m')
    (pending : ¬ m'.isDone j) (hf : Settles j (step j) m (.ok f)) : m'.steps < f.steps := by
  cases h.settles_iff.1 hf with
  | finished run done =>
      have hsteps := run.steps
      cases run with
      | refl => exact absurd done pending
      | head => omega

end Machine

/-! ### Results -/

def Options.withLimit (o : Options) (limit : Option Int) : Options := { o with limit }

theorem Options.Runnable.withLimit {o : Options} {e : Engine} {eof : EofPolicy}
    (h : o.Runnable e eof) (limit : Option Int) : (o.withLimit limit).Runnable e eof :=
  ⟨h.engine, h.policy, h.size⟩

namespace Result

/-- The result of a program that has been run to its end, on a tape of the size asked for and within
the limit. -/
structure Complete (o : Options) (r : Result) : Prop where
  ok : r.ok = true
  error : r.error = none
  tape : ∃ cells, r.tape = some cells ∧ (cells.size : Int) = o.tapeSize
  inTime : ∀ limit, o.limit = some limit → (r.steps : Int) ≤ max limit 0

/-- The result of a program that has been stopped at a limit, with the steps that were taken told by
the fault alone. -/
structure Stopped (limit : Int) (r : Result) : Prop where
  ok : r.ok = false
  error : ∃ place, r.error = some (.limit (.stopped (max limit 0) place))
  steps : r.steps = 0
  tape : r.tape = none

end Result

namespace Interpretation

/-- If it comes to a result, then after more than `M` steps. -/
def TakesMore {ι : Type} [ByteSource ι] (i : Interpretation ι) (M : Int) : Prop :=
  ∀ r source sink, i.Shows (.ok r, source, sink) → M < r.steps

/-- All that is written to a sink in use goes to the sink given, and is kept. -/
theorem behind?_of_writeAll {given : Option Output} {sink : Output} {bs : List UInt8}
    (h : sink = ByteSink.writeAll (outermost given) bs) :
    sink.behind? = given.map (ByteSink.writeAll · sink.bytes.toList) := by
  have hbytes : sink.bytes.toList = bs := by
    rw [h, Output.bytes_writeAll]
    cases given <;> rfl
  rw [hbytes, h, Output.behind?_writeAll]
  cases given <;> rfl

variable {ι : Type} [ByteSource ι] {text : String} {o : Options} {e : Engine} {eof : EofPolicy}
  {links : Links} {source source' : ι} {sink : Option Output} {sink' : Output}
  {result : Except Failure Result}

theorem supplied_machine (h : 1 ≤ o.tapeSize) (hsource : ByteSource.Unfailing source) :
    (o.machine eof h source sink).Supplied (o.job eof text links) o.tapeSize.toNat :=
  ⟨Execution.sound_startOf (o.settings eof) _ links (by omega) source (outermost sink), hsource⟩

/-- An interpretation shows a machine at the end of its program, or one stopped by the limit. -/
theorem shows_cases (h : (Program.ofString (Source.strip text)).resolve = .ok links)
    (ho : o.Runnable e eof) (hsource : ByteSource.Unfailing source)
    (hv : (begin text o source sink).Shows (result, source', sink')) :
    ∃ k g, Machine.Reaches (o.job eof text links) (Machine.step (o.job eof text links)) k
        (o.machine eof ho.size source sink) g ∧
      g.tape.size = o.tapeSize.toNat ∧ g.sink = sink' ∧
      ((g.isDone (o.job eof text links) ∧
          result = .ok { ok := true, output := g.sink.bytes, steps := g.steps,
                         tape := some g.tape.cells, program := Source.strip text }) ∨
        (¬ g.isDone (o.job eof text links) ∧ (o.job eof text links).spent g.steps = true ∧
          result = .ok { ok := false, output := g.sink.bytes,
                         error := some (.limit (.stopped g.steps g.ip)),
                         program := Source.strip text })) := by
  obtain ⟨a, ha, hseen⟩ := (shows_iff_settles h ho).1 hv
  have hresolved : (o.job eof text links).Resolved := h
  obtain ⟨k, g, run, hsize, ⟨rfl, done⟩ | ⟨rfl, pending, spent⟩⟩ :=
    (supplied_machine ho.size hsource).settles_cases hresolved ha
  · simp only [seen, Prod.mk.injEq] at hseen
    exact ⟨k, g, run, hsize, hseen.2.2, Or.inl ⟨done, hseen.1.symm⟩⟩
  · simp only [seen, Prod.mk.injEq] at hseen
    exact ⟨k, g, run, hsize, hseen.2.2, Or.inr ⟨pending, spent, hseen.1.symm⟩⟩

/-- A run that has not come to its end under a limit takes more steps without one. -/
theorem takesMore_of_reaches (h : (Program.ofString (Source.strip text)).resolve = .ok links)
    (ho : o.Runnable e eof) (hsource : ByteSource.Unfailing source) {k : Nat}
    {g : Machine ι Output} (run : Machine.Reaches (o.job eof text links)
      (Machine.step (o.job eof text links)) k (o.machine eof ho.size source sink) g)
    (pending : ¬ g.isDone (o.job eof text links)) :
    (begin text (o.withLimit none) source sink).TakesMore g.steps := by
  intro r source' sink' hv
  obtain ⟨k', f, run', -, -, ⟨done, hr⟩ | ⟨-, spent, -⟩⟩ :=
    shows_cases h (ho.withLimit none) hsource hv
  · obtain rfl := Except.ok.inj hr
    exact Int.ofNat_lt.2 (run.withoutLimit.steps_lt pending (.finished run' done))
  · cases spent

/-- What is shown is the end of the program or a stop at the limit, with all that was written. -/
theorem exists_result_of_shows (h : (Program.ofString (Source.strip text)).resolve = .ok links)
    (ho : o.Runnable e eof) (hsource : ByteSource.Unfailing source)
    (hv : (begin text o source sink).Shows (result, source', sink')) :
    ∃ r, result = .ok r ∧ r.program = Source.strip text ∧
      sink'.behind? = sink.map (ByteSink.writeAll · r.output.toList) ∧
      (r.Complete o ∨ ∃ limit, o.limit = some limit ∧ r.Stopped limit ∧
        (begin text (o.withLimit none) source sink).TakesMore (max limit 0)) := by
  have hsize := ho.size
  obtain ⟨k, g, run, hcells, rfl, hcases⟩ := shows_cases h ho hsource hv
  obtain ⟨bs, hbs⟩ := run.exists_writeAll
  have hsink := behind?_of_writeAll hbs
  rcases hcases with ⟨done, rfl⟩ | ⟨pending, spent, rfl⟩
  · refine ⟨_, rfl, rfl, hsink, Or.inl ⟨rfl, rfl, ⟨_, rfl, ?_⟩, fun limit hl => ?_⟩⟩
    · show (g.tape.size : Int) = o.tapeSize
      omega
    · have hle := run.steps_le hl rfl
      show (g.steps : Int) ≤ max limit 0
      omega
  · -- no step was left, and no step was taken too many
    obtain ⟨limit, hl, hge⟩ := Job.spent_iff.1 spent
    have hle := run.steps_le hl rfl
    have hsteps : (g.steps : Int) = max limit 0 := by omega
    have hmore := takesMore_of_reaches h ho hsource run pending
    rw [hsteps] at hmore ⊢
    exact ⟨_, rfl, rfl, hsink, Or.inr ⟨limit, hl, ⟨rfl, ⟨g.ip, rfl⟩, rfl, rfl⟩, hmore⟩⟩

theorem exists_shows_of_limit (h : (Program.ofString (Source.strip text)).resolve = .ok links)
    (ho : o.Runnable e eof) {limit : Int} (hl : o.limit = some limit) :
    ∃ v, (begin text o source sink).Shows v := by
  obtain ⟨a, ha⟩ := Machine.exists_settles_of_limit (j := o.job eof text links) hl
    (m := o.machine eof ho.size source sink) rfl
  exact ⟨_, (shows_iff_settles h ho).2 ⟨a, ha, rfl⟩⟩

theorem shows_unique (h : (Program.ofString (Source.strip text)).resolve = .ok links)
    (ho : o.Runnable e eof) {v v' : Except Failure Result × ι × Output}
    (hv : (begin text o source sink).Shows v) (hv' : (begin text o source sink).Shows v') :
    v' = v := by
  obtain ⟨a, ha, rfl⟩ := (shows_iff_settles h ho).1 hv
  obtain ⟨a', ha', rfl⟩ := (shows_iff_settles h ho).1 hv'
  rw [ha.unique ha']

end Interpretation

end RingTape
