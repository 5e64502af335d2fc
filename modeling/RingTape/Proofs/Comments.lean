import RingTape.Proofs.Alignment
import RingTape.Proofs.Places
import RingTape.Proofs.Structured

/-!
Comments. A symbol that is no command takes a step and does nothing else. So a source runs like what
is left of it when its comments are stripped, but for the steps that it makes at comments.

The two runs are kept side by side by `Tracks`: whenever the machine in the source has come to place
`i`, the other one has come to the command of rank `i`. At a comment, the machine in the source goes
on alone, and at a command both go on. Where they jump, they jump to the same bracket. What follows
a bracket in the source may be a comment, so one command may be in front of the other machine at
several moments of the run in the source; the last of these is the one at which both are about to do
the same, and there the place in the source is the one that is told for the command (`Meets`).
-/

namespace RingTape

open Command (isCommand)

/-! ### Steps at comments -/

namespace Machine

variable {ι κ : Type} {j : Job} {m m' : Machine ι κ}

def isAtComment (j : Job) (m : Machine ι κ) : Bool :=
  match j.program.fetch? m.ip with
  | some s => !s.isCommand
  | none => false

theorem isAtComment_of_fetch? {c : Char} (h : j.program.fetch? m.ip = some (.char c)) :
    m.isAtComment j = !isCommand c := by
  simp only [isAtComment, h]
  rfl

theorem isAtComment_of_isDone (h : m.isDone j) : m.isAtComment j = false := by
  have hnone := Program.fetch?_eq_none_iff.2 (Or.inr (isDone_iff.1 h))
  simp only [isAtComment, hnone]

variable [ByteSource ι] [ByteSink κ]

/-- How many of the next `n` steps are made at symbols that are no commands. -/
def commentSteps (j : Job) : Nat → Machine ι κ → Nat
  | 0, _ => 0
  | n + 1, m =>
    (if m.isAtComment j then 1 else 0) +
      match m.step j with
      | .error _ => 0
      | .ok m => commentSteps j n m

theorem commentSteps_eq_countSteps (n : Nat) (m : Machine ι κ) :
    m.commentSteps j n = m.countSteps j (isAtComment j) n := by
  induction n generalizing m with
  | zero => rfl
  | succ n ih =>
      rw [commentSteps, countSteps]
      cases m.step j with
      | error b => rfl
      | ok m' => exact congrArg _ (ih m')

theorem commentSteps_succ (h : m.step j = .ok m') (n : Nat) :
    m.commentSteps j (n + 1) = (if m.isAtComment j then 1 else 0) + m'.commentSteps j n := by
  simp only [commentSteps, h]

theorem Reaches.commentSteps_add {k : Nat} (h : Reaches j (step j) k m m') (n : Nat) :
    m.commentSteps j (k + n) = m.commentSteps j k + m'.commentSteps j n := by
  simpa only [commentSteps_eq_countSteps] using h.countSteps_add n

end Machine

/-! ### Brackets and their ranks -/

theorem Program.fetch?_ofString {text : String} {i : Nat} {c : Char} :
    (ofString text).fetch? i = some (.char c) ↔ text.toList[i]? = some c := by
  rw [fetch?_eq_some_iff, toList_symbols_ofString]
  simp

namespace Source

variable {text : String} {i : Nat} {c : Char}

theorem lt_of_getElem? (h : text.toList[i]? = some c) : i < text.length := by
  rw [← String.length_toList]
  exact (List.getElem?_eq_some_iff.1 h).1

/-- The place in the source of the command at `k`. Behind the last command it is the end. -/
def placeOf (text : String) (k : Nat) : Nat := (stripWithPlaces text).2.getD k text.length

theorem placeOf_rank (hc : text.toList[i]? = some c) (hcommand : isCommand c = true) :
    placeOf text (rank text.toList i) = i := by
  have hplace : (stripWithPlaces text).2[rank text.toList i]? = some i :=
    getElem?_places_iff.2 ⟨c, hc, hcommand, rfl⟩
  rw [placeOf, Array.getD_eq_getD_getElem?, hplace]
  rfl

theorem rank_length_eq (text : String) : rank text.toList text.length = (strip text).length := by
  rw [← String.length_toList, ← String.length_toList, rank_length, toList_strip]

theorem placeOf_length (text : String) : placeOf text (strip text).length = text.length := by
  have hplace : (stripWithPlaces text).2[(strip text).length]? = none := by
    rw [Array.getElem?_eq_none_iff, ← String.length_toList, ← fst_stripWithPlaces]
    simp [stripWithPlaces]
  rw [placeOf, Array.getD_eq_getD_getElem?, hplace]
  rfl

def Keeps (text : String) (i k : Nat) : Prop :=
  ∃ c, text.toList[i]? = some c ∧ isCommand c = true ∧ k = rank text.toList i

theorem exists_resolve_strip {links' : Links} (h : (Program.ofString text).resolve = .ok links') :
    ∃ links, (Program.ofString (strip text)).resolve = .ok links := by
  have hagrees := agrees_resolve text
  rw [fst_stripWithPlaces, h] at hagrees
  generalize (Program.ofString (strip text)).resolve = r at hagrees
  cases hagrees with
  | @ok links _ _ => exact ⟨links, rfl⟩

end Source

/-! ### Two machines side by side -/

structure Job.Strips (text : String) (j' j : Job) : Prop where
  source : j'.program = .ofString text
  strip : j.program = .ofString (Source.strip text)
  eof : j.eof = j'.eof
  source_free : j'.Free
  strip_free : j.Free

section Tracking

open Machine (Reaches)
open Source (rank)

variable {κ : Type} [ByteSink κ] {n k : Nat} {sink : κ} {text : String} {j' j : Job}
  {m' m f' f : Machine ByteQueue κ}

/-- Brackets that belong together in the source still do so when the comments are stripped. -/
theorem Job.Strips.matched (hs : Strips text j' j) {o c : Nat}
    (h : Matched j'.program.symbols.toList o c) :
    Matched j.program.symbols.toList (rank text.toList o) (rank text.toList c) := by
  have hl' := hs.source_free.resolved
  have hl := hs.strip_free.resolved
  have hagrees := Source.agrees_resolve text
  rw [Source.fst_stripWithPlaces, ← hs.source, ← hs.strip, hl, hl'] at hagrees
  cases hagrees with
  | ok pairs =>
      obtain ⟨n, hn', hpair⟩ := List.mem_iff_getElem.1
        ((Program.isMatching_of_resolve hl').1.mem_iff.2 h)
      have hn : n < j.links.pairs.toList.length := pairs.length_eq ▸ hn'
      obtain ⟨o', c', i, k, hq, hr, ho, hc⟩ := pairs.get hn hn'
      obtain ⟨hi, hk⟩ := Prod.mk.inj (hpair.symm.trans hr)
      obtain rfl := Int.natCast_inj.1 hi
      obtain rfl := Int.natCast_inj.1 hk
      obtain ⟨-, -, -, rfl⟩ := Source.getElem?_places_iff.1 ho
      obtain ⟨-, -, -, rfl⟩ := Source.getElem?_places_iff.1 hc
      exact (Program.isMatching_of_resolve hl).1.mem_iff.1 (hq ▸ List.getElem_mem hn)

theorem Job.Strips.char_of_symbol (hs : Strips text j' j) {i : Nat} {c : Char}
    (h : j'.program.symbols.toList[i]? = some (.char c)) : text.toList[i]? = some c :=
  Program.fetch?_ofString.1 (hs.source ▸ Program.fetch?_eq_some_iff.2 h)

/-- Commands have the symbols and the partners that they had before the comments were stripped. -/
theorem Job.Strips.aligned (hs : Strips text j' j) : Aligned (Source.Keeps text) j' j where
  eof := hs.eof
  free' := hs.source_free
  free := hs.strip_free
  symbol := by
    rintro i k ⟨c, hc, hcommand, rfl⟩
    refine ⟨.char c, ?_, ?_⟩
    · rw [hs.source]
      exact Program.fetch?_ofString.2 hc
    · rw [hs.strip]
      exact Program.fetch?_ofString.2 (Source.getElem?_toList_strip hc hcommand)
  closing := by
    rintro i k ⟨-, -, -, rfl⟩ hopening -
    obtain ⟨c, hm⟩ := (Program.isMatching_of_resolve hs.source_free.resolved).1.exists_closing
      (Program.fetch?_eq_some_iff.1 hopening)
    exact ⟨c, _, ⟨_, hs.char_of_symbol hm.closing, rfl, rfl⟩, hm, hs.matched hm⟩
  opening := by
    rintro i k ⟨-, -, -, rfl⟩ hclosing -
    obtain ⟨o, hm⟩ := (Program.isMatching_of_resolve hs.source_free.resolved).1.exists_opening
      (Program.fetch?_eq_some_iff.1 hclosing)
    exact ⟨o, _, ⟨_, hs.char_of_symbol hm.opening, rfl, rfl⟩, hm, hs.matched hm⟩

/-- The machine `m'` is in the source where `m` is among its commands, or at comments in front of
that place, and both hold the same. -/
structure Tracks (n : Nat) (sink : κ) (text : String) (m' m : Machine ByteQueue κ) : Prop where
  place : ∃ i : Nat, i ≤ text.length ∧ m'.ip = i ∧ m.ip = rank text.toList i
  store : ∃ st : Store n, Represents sink st m' ∧ Represents sink st m

/-- Both machines stand behind the same command. -/
theorem Tracks.of_abreast (h : Abreast (Source.Keeps text) n sink m' m) :
    Tracks n sink text m' m where
  place := by
    obtain ⟨i, k, ⟨c, hc, hcommand, rfl⟩, hip', hip⟩ := h.place
    refine ⟨i + 1, Source.lt_of_getElem? hc, hip', ?_⟩
    rw [hip, Source.rank_succ hc, if_pos hcommand]
    rfl
  store := h.store

theorem Tracks.exists_char (hs : Job.Strips text j' j) (h : Tracks n sink text m' m)
    (pending : ¬ m'.isDone j') : ∃ (i : Nat) (c : Char), text.toList[i]? = some c ∧ m'.ip = i ∧
      m.ip = rank text.toList i ∧ j'.program.fetch? m'.ip = some (.char c) ∧
      m'.isAtComment j' = !isCommand c := by
  obtain ⟨i, -, hip', hip⟩ := h.place
  rw [Machine.isDone_iff, hs.source, Program.length_ofString, hip', Int.ofNat_le, Nat.not_le,
    ← String.length_toList] at pending
  have hc := List.getElem?_eq_getElem pending
  have hfetch : j'.program.fetch? m'.ip = some (.char text.toList[i]) := by
    rw [hs.source, hip']
    exact Program.fetch?_ofString.2 hc
  exact ⟨i, _, hc, hip', hip, hfetch, Machine.isAtComment_of_fetch? hfetch⟩

theorem Tracks.isDone (hs : Job.Strips text j' j) (h : Tracks n sink text m' m)
    (done : m'.isDone j') :
    m'.ip = text.length ∧ m.ip = (Source.strip text).length ∧ m.isDone j := by
  obtain ⟨i, hi, hip', hip⟩ := h.place
  rw [Machine.isDone_iff, hs.source, Program.length_ofString, hip', Int.ofNat_le] at done
  obtain rfl : i = text.length := Nat.le_antisymm hi done
  rw [Source.rank_length_eq] at hip
  refine ⟨hip', hip, ?_⟩
  rw [Machine.isDone_iff, hs.strip, Program.length_ofString, hip]

/-- A comment is passed by the machine in the source alone. -/
theorem Tracks.step_comment (hs : Job.Strips text j' j) (h : Tracks n sink text m' m)
    (pending : ¬ m'.isDone j') (hcomment : m'.isAtComment j') :
    ∃ f', m'.step j' = .ok f' ∧ f'.ip = m'.ip + 1 ∧ Tracks n sink text f' m := by
  obtain ⟨i, c, hc, hip', hip, hfetch, hat⟩ := h.exists_char hs pending
  obtain ⟨st, hr', hr⟩ := h.store
  have hnot : ¬ isCommand c = true := by simpa [hat] using hcomment
  obtain ⟨f', hstep, hipf, hrf⟩ := hr'.step_plain (hs.source_free.not_spent _) hfetch
    (Symbol.not_isBracket_of_comment hnot)
  have hst : st.apply j'.eof (.char c) = st := by
    have hnone : (Symbol.char c).command? = none := by
      simpa [isCommand, Symbol.command?] using hnot
    simp only [Store.apply, hnone]
  refine ⟨f', hstep, hipf, ⟨i + 1, Source.lt_of_getElem? hc, hipf.trans (hip' ▸ rfl), ?_⟩, st,
    hst ▸ hrf, hr⟩
  rw [Source.rank_succ hc, if_neg hnot, hip]
  rfl

/-- A command is executed by both machines. -/
theorem Tracks.step_command (hs : Job.Strips text j' j) (h : Tracks n sink text m' m)
    (pending : ¬ m'.isDone j') (hcomment : ¬ m'.isAtComment j') : ¬ m.isDone j ∧
    ∃ f' f, m'.step j' = .ok f' ∧ m.step j = .ok f ∧ Tracks n sink text f' f := by
  obtain ⟨i, c, hc, hip', hip, -, hat⟩ := h.exists_char hs pending
  obtain ⟨st, hr', hr⟩ := h.store
  have hkeeps : Source.Keeps text i (rank text.toList i) :=
    ⟨c, hc, by simpa [hat] using hcomment, rfl⟩
  obtain ⟨s, -, hfetch⟩ := hs.aligned.symbol hkeeps
  refine ⟨Machine.not_isDone_of_getElem? hip (Program.fetch?_eq_some_iff.1 hfetch), ?_⟩
  obtain ⟨f', f, hstep', hstep, habreast⟩ := hs.aligned.step hkeeps hip' hip hr' hr
  exact ⟨f', f, hstep', hstep, .of_abreast habreast⟩

/-! ### Runs side by side -/

/-- Where the run in the source leads, the other one leads as well, without the steps at
comments. -/
theorem Tracks.of_reaches (hs : Job.Strips text j' j) (h : Tracks n sink text m' m)
    (hreach : Reaches j' (Machine.step j') k m' f') : ∃ i f, Reaches j (Machine.step j) i m f ∧
      Tracks n sink text f' f ∧ k = i + m'.commentSteps j' k := by
  induction hreach generalizing m with
  | refl m' => exact ⟨0, m, .refl m, h, rfl⟩
  | @head k m' g' _ pending worked _ ih =>
      rw [Machine.commentSteps_succ worked]
      by_cases hcomment : m'.isAtComment j'
      · obtain ⟨f₁, hstep, -, htracks⟩ := h.step_comment hs pending hcomment
        obtain rfl := Except.ok.inj (hstep.symm.trans worked)
        obtain ⟨i, f, hf, hend, hk⟩ := ih htracks
        exact ⟨i, f, hf, hend, by rw [if_pos hcomment]; omega⟩
      · obtain ⟨hpending, f₁, g, hstep, hg, htracks⟩ := h.step_command hs pending hcomment
        obtain rfl := Except.ok.inj (hstep.symm.trans worked)
        obtain ⟨i, f, hf, hend, hk⟩ := ih htracks
        exact ⟨i + 1, f, .head hpending hg hf, hend, by rw [if_neg hcomment]; omega⟩

/-- The comments in front of a machine are passed in as many steps. -/
theorem Tracks.exists_passed (hs : Job.Strips text j' j) (h : Tracks n sink text m' m) :
    ∃ d f', Reaches j' (Machine.step j') d m' f' ∧ m'.commentSteps j' d = d ∧
      Tracks n sink text f' m ∧ ¬ f'.isAtComment j' := by
  obtain ⟨i, hi, hip', -⟩ := h.place
  obtain ⟨left, hleft⟩ := Nat.exists_eq_add_of_le hi
  -- the induction is on the symbols that are left of the source
  induction left generalizing i m' with
  | zero =>
      have done : m'.isDone j' := by
        rw [Machine.isDone_iff, hs.source, Program.length_ofString, hip', hleft]
        exact Int.le_refl _
      exact ⟨0, m', .refl m', rfl, h, by simp [Machine.isAtComment_of_isDone done]⟩
  | succ left ih =>
      by_cases hcomment : m'.isAtComment j'
      · have pending : ¬ m'.isDone j' := fun done => by
          rw [Machine.isAtComment_of_isDone done] at hcomment
          cases hcomment
        obtain ⟨g', hstep, hipg, htracks⟩ := h.step_comment hs pending hcomment
        obtain ⟨d, f', hf, hd, hend, hclear⟩ := ih htracks (i + 1) (by omega)
          (hipg.trans (hip' ▸ rfl)) (by omega)
        refine ⟨d + 1, f', .head pending hstep hf, ?_, hend, hclear⟩
        rw [Machine.commentSteps_succ hstep, if_pos hcomment, hd, Nat.add_comm]
      · exact ⟨0, m', .refl m', rfl, h, hcomment⟩

/-- Where the run without comments leads, the run in the source leads as well, up to a place where
it is not at a comment. -/
theorem Tracks.exists_reaches (hs : Job.Strips text j' j) (h : Tracks n sink text m' m)
    (hreach : Reaches j (Machine.step j) k m f) :
    ∃ d f', Reaches j' (Machine.step j') (k + d) m' f' ∧ m'.commentSteps j' (k + d) = d ∧
      Tracks n sink text f' f ∧ ¬ f'.isAtComment j' := by
  induction hreach generalizing m' with
  | refl m =>
      obtain ⟨d, f', hf, hd, hend, hclear⟩ := h.exists_passed hs
      exact ⟨d, f', by rwa [Nat.zero_add], by rwa [Nat.zero_add], hend, hclear⟩
  | @head k m g _ pending worked _ ih =>
      obtain ⟨d, g', hg, hd, htracks, hclear⟩ := h.exists_passed hs
      have hpending : ¬ g'.isDone j' := fun done => pending (htracks.isDone hs done).2.2
      obtain ⟨-, f₁', f₁, hstep', hstep, htracks₁⟩ := htracks.step_command hs hpending hclear
      obtain rfl := Except.ok.inj (hstep.symm.trans worked)
      obtain ⟨e, f', hf, he, hend, hclear'⟩ := ih htracks₁
      -- the comments, the command, and whatever is behind it
      have hsum : k + 1 + (d + e) = d + (k + e + 1) := by omega
      refine ⟨d + e, f', hsum ▸ hg.trans (.head hpending hstep' hf), ?_, hend, hclear'⟩
      rw [hsum, hg.commentSteps_add, hd, Machine.commentSteps_succ hstep', if_neg hclear, he,
        Nat.zero_add]

/-! ### Moments at which the runs meet -/

structure Meets {ι κ : Type} (text : String) (m' m : Machine ι κ) : Prop where
  place : ∃ k : Nat, k ≤ (Source.strip text).length ∧ m.ip = k ∧ m'.ip = Source.placeOf text k
  tape : m'.tape = m.tape
  source : m'.source = m.source
  sink : m'.sink = m.sink

theorem Tracks.meets (hs : Job.Strips text j' j) (h : Tracks n sink text m' m)
    (hcomment : ¬ m'.isAtComment j') : Meets text m' m := by
  obtain ⟨st, hr', hr⟩ := h.store
  refine ⟨?_, hr'.tape_eq hr, hr'.source_eq hr, hr'.sink_eq hr⟩
  by_cases done : m'.isDone j'
  · obtain ⟨hip', hip, -⟩ := h.isDone hs done
    exact ⟨_, Nat.le_refl _, hip, by rw [Source.placeOf_length, hip']⟩
  · obtain ⟨i, c, hc, hip', hip, -, hat⟩ := h.exists_char hs done
    have hcommand : isCommand c = true := by simpa [hat] using hcomment
    have hlt := Source.lt_of_getElem? (Source.getElem?_toList_strip hc hcommand)
    exact ⟨_, Nat.le_of_lt hlt, hip, by rw [Source.placeOf_rank hc hcommand, hip']⟩

theorem Tracks.exists_end (hs : Job.Strips text j' j) (h : Tracks n sink text m' m)
    (hreach : Reaches j' (Machine.step j') k m' f') (done : f'.isDone j') :
    ∃ i f, Reaches j (Machine.step j) i m f ∧ f.isDone j ∧ Meets text f' f ∧
      f'.ip = text.length ∧ k = i + m'.commentSteps j' k := by
  obtain ⟨i, f, hf, htracks, hk⟩ := h.of_reaches hs hreach
  obtain ⟨hip', -, hdone⟩ := htracks.isDone hs done
  exact ⟨i, f, hf, hdone, htracks.meets hs (by simp [Machine.isAtComment_of_isDone done]), hip', hk⟩

theorem Tracks.exists_source_end (hs : Job.Strips text j' j) (h : Tracks n sink text m' m)
    (hreach : Reaches j (Machine.step j) k m f) (done : f.isDone j) :
    ∃ i f', Reaches j' (Machine.step j') i m' f' ∧ f'.isDone j' := by
  obtain ⟨d, f', hf, -, htracks, hcomment⟩ := h.exists_reaches hs hreach
  refine ⟨k + d, f', hf, ?_⟩
  -- there would be a command in front of both machines
  by_contra pending
  exact (htracks.step_command hs pending hcomment).1 done

end Tracking

/-! ### Whole runs -/

namespace Execution

open Machine (Reaches)

variable {κ : Type} [ByteSink κ] {text : String} {s : Settings}

/-- The run `x` of the source `text` and the run `y` of what is left of it are alike but for the
steps at comments: they end alike or go on for ever, and whatever one of them comes to, the other
comes to as well. -/
structure AlikeButComments (text : String) (x y : Execution ByteQueue κ) : Prop where
  ends_iff : (∃ a, x.Settles a) ↔ ∃ b, y.Settles b
  ends {a b : Attempt ByteQueue κ} : x.Settles a → y.Settles b → ∃ f' f, a = .ok f' ∧ b = .ok f ∧
    Meets text f' f ∧ f'.ip = text.length ∧
    f'.steps = f.steps + x.start.commentSteps x.job f'.steps
  exists_source_moment {k : Nat} {m : Machine ByteQueue κ} :
    Reaches y.job (Machine.step y.job) k y.start m →
      ∃ d m', Reaches x.job (Machine.step x.job) (k + d) x.start m' ∧ ¬ m'.isAtComment x.job ∧
        Meets text m' m ∧ x.start.commentSteps x.job (k + d) = d
  exists_stripped_moment {k : Nat} {m' : Machine ByteQueue κ} :
    Reaches x.job (Machine.step x.job) k x.start m' → ¬ m'.isAtComment x.job →
      ∃ i m, Reaches y.job (Machine.step y.job) i y.start m ∧ Meets text m' m ∧
        k = i + x.start.commentSteps x.job k

theorem AlikeButComments.of_tracks {n : Nat} {sink : κ} {j' j : Job}
    {m' m : Machine ByteQueue κ} (hs : Job.Strips text j' j) (h : Tracks n sink text m' m)
    (hin' : m'.Inside j') (hin : m.Inside j) (hsteps' : m'.steps = 0) (hsteps : m.steps = 0) :
    AlikeButComments text ⟨j', .stepwise, m'⟩ ⟨j, .stepwise, m⟩ where
  ends_iff := by
    simp only [settles_stepwise_iff]
    constructor
    · rintro ⟨a, ha⟩
      obtain ⟨k, f', -, run, done⟩ :=
        hin'.reaches_of_settles ByteQueue.steady hs.source_free ha
      obtain ⟨i, f, hf, hdone, -⟩ := h.exists_end hs run done
      exact ⟨.ok f, .finished hf hdone⟩
    · rintro ⟨b, hb⟩
      obtain ⟨k, f, -, run, done⟩ := hin.reaches_of_settles ByteQueue.steady hs.strip_free hb
      obtain ⟨i, f', hf', hdone⟩ := h.exists_source_end hs run done
      exact ⟨.ok f', .finished hf' hdone⟩
  ends {a b} ha hb := by
    rw [settles_stepwise_iff rfl] at ha hb
    obtain ⟨k, f', rfl, run, done⟩ := hin'.reaches_of_settles ByteQueue.steady hs.source_free ha
    obtain ⟨i, f, hf, hdone, hmeets, hip, hk⟩ := h.exists_end hs run done
    obtain rfl := (Machine.Settles.finished hf hdone).unique hb
    refine ⟨f', f, rfl, rfl, hmeets, hip, ?_⟩
    rwa [run.steps, hf.steps, hsteps', hsteps, Nat.zero_add, Nat.zero_add]
  exists_source_moment hreach := by
    obtain ⟨d, f', hf, hd, htracks, hcomment⟩ := h.exists_reaches hs hreach
    exact ⟨d, f', hf, hcomment, htracks.meets hs hcomment, hd⟩
  exists_stripped_moment hreach hcomment := by
    obtain ⟨i, f, hf, htracks, hk⟩ := h.of_reaches hs hreach
    exact ⟨i, f, hf, htracks.meets hs hcomment, hk⟩

/-- Comments are inert. On every tape and every input, with any policy for its end and no limit, a
source whose brackets match runs like what is left of it when its comments are stripped. -/
theorem comments_inert (hp : Balanced (Program.ofString text).symbols.toList)
    (hsize : 1 ≤ s.tapeSize) (hlimit : s.limit = none) (bytes : List UInt8) (sink : κ) :
    ∃ links' links x y, (Program.ofString text).resolve = .ok links' ∧
      (Program.ofString (Source.strip text)).resolve = .ok links ∧
      ofLinks .stepwise s (.ofString text) links' (⟨bytes⟩ : ByteQueue) sink = .ok x ∧
      ofLinks .stepwise s (.ofString (Source.strip text)) links (⟨bytes⟩ : ByteQueue) sink = .ok y ∧
      AlikeButComments text x y := by
  obtain ⟨links', hlinks'⟩ := Program.exists_resolve_ok_iff.2 hp
  obtain ⟨links, hlinks⟩ := Source.exists_resolve_strip hlinks'
  obtain ⟨tape, htape, rfl⟩ := exists_blank hsize
  have hs : Job.Strips text (jobOf s (.ofString text) links')
      (jobOf s (.ofString (Source.strip text)) links) :=
    ⟨rfl, rfl, rfl, ⟨hlinks', hlimit⟩, ⟨hlinks, hlimit⟩⟩
  have hr := represents_startOf (s := s) (n := s.tapeSize.toNat) (by omega) bytes sink
  exact ⟨links', links, _, _, hlinks', hlinks, ofLinks_stepwise htape, ofLinks_stepwise htape,
    .of_tracks hs ⟨⟨0, Nat.zero_le _, rfl, rfl⟩, _, hr, hr⟩
      ⟨Int.le_refl 0, Int.natCast_nonneg _⟩ ⟨Int.le_refl 0, Int.natCast_nonneg _⟩ rfl rfl⟩

/-- `,[.,]` with a comment in front, behind, and at either end of the loop, which is passed once. -/
theorem commented_echo_alike : Balanced (Program.ofString "a,[x.,y]z").symbols.toList ∧
    ∃ links' links x y f' f, (Program.ofString "a,[x.,y]z").resolve = .ok links' ∧
      (Program.ofString ",[.,]").resolve = .ok links ∧
      ofLinks .stepwise { tapeSize := 3, eof := .zero, limit := none, trace := false }
        (.ofString "a,[x.,y]z") links' (⟨[7]⟩ : ByteQueue) Output.emptyBuffer = .ok x ∧
      ofLinks .stepwise { tapeSize := 3, eof := .zero, limit := none, trace := false }
        (.ofString ",[.,]") links (⟨[7]⟩ : ByteQueue) Output.emptyBuffer = .ok y ∧
      x.Settles (.ok f') ∧ y.Settles (.ok f) ∧ Meets "a,[x.,y]z" f' f ∧ f.sink.bytes = #[7] ∧
      f'.steps = 9 ∧ f.steps = 5 ∧ x.start.commentSteps x.job 9 = 4 := by
  have hp : Balanced (Program.ofString "a,[x.,y]z").symbols.toList :=
    Program.exists_resolve_ok_iff.1 ⟨_, rfl⟩
  obtain ⟨links', links, x, y, hlinks', hlinks, hx, hy, halike⟩ :=
    comments_inert (s := { tapeSize := 3, eof := .zero, limit := none, trace := false })
      hp (by decide) rfl [7] Output.emptyBuffer
  have hstrip : Source.strip "a,[x.,y]z" = ",[.,]" := by decide
  rw [hstrip] at hlinks hy
  obtain rfl := Except.ok.inj (hlinks'.symm.trans rfl)
  obtain rfl := Except.ok.inj (hlinks.symm.trans rfl)
  obtain rfl := Except.ok.inj (hx.symm.trans rfl)
  obtain rfl := Except.ok.inj (hy.symm.trans rfl)
  -- both runs are computed, and meet as they must
  obtain ⟨f', f, hf', hf, hmeets, -⟩ :=
    halike.ends (a := .ok _) (b := .ok _) ⟨20, rfl⟩ ⟨20, rfl⟩
  obtain rfl := Except.ok.inj hf'
  obtain rfl := Except.ok.inj hf
  exact ⟨hp, _, _, _, _, _, _, hlinks', hlinks, hx, hy, ⟨20, rfl⟩, ⟨20, rfl⟩, hmeets, rfl, rfl, rfl,
    rfl⟩

end Execution

end RingTape
