import RingTape.Proofs.Alignment
import RingTape.Proofs.Places
import RingTape.Proofs.Structured
import RingTape.Proofs.Supply

/-!
Insertions. A block that is put between two symbols of a program moves all that is behind it, with
the brackets there and the places that lead to them. Brackets that belonged together still do, also
those on either side of the block.

A machine in the program without the block and one in the program with it go side by side: at the
same symbol and holding the same (`Beside`). The symbols in front of the block and behind it are
executed by both. Where the one comes to the place of the insertion, from wherever that is, the
other comes to the first symbol of the block, and has to find its way through the block on its own.
That it does so, at what cost, and without a trace is what is asked of a `Detour`. Nothing else is
to be known of the block.
-/

namespace RingTape

/-! ### Places -/

/-- A block that is put between `front` and `back`. -/
structure Insertion where
  front : List Symbol
  inner : Block
  back : List Symbol
  length_pos : 0 < inner.length

namespace Insertion

variable {i : Insertion} {k o c : Nat}

def between (front : String) (inner : Block) (back : String) (h : 0 < inner.length) :
    Insertion where
  front := (Program.ofString front).symbols.toList
  inner := inner
  back := (Program.ofString back).symbols.toList
  length_pos := h

def original (i : Insertion) : List Symbol := i.front ++ i.back

def result (i : Insertion) : List Symbol := i.front ++ (i.inner.symbols ++ i.back)

def place (i : Insertion) : Nat := i.front.length

def shift (i : Insertion) (k : Nat) : Nat := if k < i.place then k else k + i.inner.length

def Moves (i : Insertion) (k' k : Nat) : Prop := k < i.original.length ∧ k' = i.shift k

/-- The place to which one comes instead of `k`: from behind the last symbol in front of the block,
that is the place of the block. -/
def landing (i : Insertion) (k : Nat) : Nat := if k ≤ i.place then k else k + i.inner.length

theorem shift_of_lt (h : k < i.place) : i.shift k = k := if_pos h

theorem shift_of_le (h : i.place ≤ k) : i.shift k = k + i.inner.length := if_neg (by omega)

/-- From behind a symbol one comes behind the symbol where it is moved. -/
theorem shift_succ (i : Insertion) (k : Nat) : i.shift k + 1 = i.landing (k + 1) := by
  unfold shift landing
  split <;> split <;> omega

theorem shift_place_add (i : Insertion) (d : Nat) :
    i.shift (i.place + d) = i.front.length + (i.inner.symbols.length + d) := by
  rw [shift_of_le (Nat.le_add_right _ _), Block.length_symbols, place]
  omega

theorem landing_place (i : Insertion) : i.landing i.place = i.place := if_pos (Nat.le_refl _)

theorem landing_of_ne (h : k ≠ i.place) : i.landing k = i.shift k := by
  unfold shift landing
  split <;> split <;> omega

/-- Nothing that was there before stands at a place of the block. -/
theorem shift_outside (i : Insertion) (k : Nat) :
    i.shift k < i.place ∨ i.place + i.inner.length ≤ i.shift k := by
  unfold shift
  split <;> omega

theorem landing_outside (i : Insertion) (k : Nat) :
    i.landing k ≤ i.place ∨ i.place + i.inner.length ≤ i.landing k := by
  unfold landing
  split <;> omega

theorem shift_ne_place (i : Insertion) (k : Nat) : i.shift k ≠ i.place := by
  have := i.length_pos
  have := i.shift_outside k
  omega

theorem length_result_le_shift_iff (i : Insertion) (k : Nat) :
    i.result.length ≤ i.shift k ↔ i.original.length ≤ k := by
  have hresult : i.result.length = i.place + i.inner.length + i.back.length := by
    simp only [result, place, List.length_append, Block.length_symbols]
    omega
  have horiginal : i.original.length = i.place + i.back.length := by
    simp only [original, place, List.length_append]
  rw [hresult, horiginal]
  unfold shift
  split <;> omega

theorem length_result_pos (i : Insertion) : 0 < i.result.length := by
  have := i.length_pos
  simp only [result, List.length_append, Block.length_symbols]
  omega

theorem getElem?_result_shift (i : Insertion) (k : Nat) :
    i.result[i.shift k]? = i.original[k]? := by
  rcases Nat.lt_or_ge k i.place with hk | hk
  · rw [shift_of_lt hk, result, original, List.getElem?_append_left hk,
      List.getElem?_append_left hk]
  · obtain ⟨d, rfl⟩ := Nat.exists_eq_add_of_le hk
    rw [shift_place_add, result, original, place]
    simp only [List.getElem?_append_right (Nat.le_add_right _ _), Nat.add_sub_cancel_left]

section Texts

variable {front text back : String} {inner : Block} {h : 0 < inner.length}

theorem place_between : (between front inner back h).place = front.length := by
  exact Program.length_symbols_ofString front

theorem original_between : (between front inner back h).original =
    (Program.ofString (front ++ back)).symbols.toList := by
  simp only [original, between, Program.toList_symbols_ofString, String.toList_append,
    List.map_append]

theorem result_between (htext : inner.symbols = (Program.ofString text).symbols.toList) :
    (between front inner back h).result =
      (Program.ofString (front ++ text ++ back)).symbols.toList := by
  simp only [result, between, htext, Program.toList_symbols_ofString, String.toList_append,
    List.map_append, List.append_assoc]

end Texts

/-! ### Balance -/

/-- A block closes no brackets but its own, so it may stand anywhere. -/
theorem closes_append_iff (b : Block) (front back : List Symbol) {d : Nat} :
    Closes d (front ++ (b.symbols ++ back)) ↔ Closes d (front ++ back) := by
  induction front generalizing d with
  | nil => exact b.closes_append_iff
  | cons s front ih =>
      simp only [List.cons_append]
      by_cases hs : s.IsBracket
      · rcases hs with rfl | rfl
        · rw [Closes.opening_cons_iff, Closes.opening_cons_iff, ih]
        · rw [Closes.closing_cons_iff, Closes.closing_cons_iff, ih]
      · rw [Closes.cons_iff hs, Closes.cons_iff hs, ih]

theorem balanced_append_iff (b : Block) (front back : List Symbol) :
    Balanced (front ++ (b.symbols ++ back)) ↔ Balanced (front ++ back) := by
  rw [balanced_iff_closes, balanced_iff_closes, closes_append_iff]

/-- What stands between two symbols is moved with them, or has the block put into it. -/
theorem balanced_between (h : Balanced ((i.original.take c).drop (o + 1))) (hlt : o < c) :
    Balanced ((i.result.take (i.shift c)).drop (i.shift o + 1)) := by
  rcases Nat.lt_or_ge c i.place with hc | hc
  · rw [original, List.take_append_of_le_length (Nat.le_of_lt hc)] at h
    rwa [shift_of_lt hc, shift_of_lt (Nat.lt_trans hlt hc), result,
      List.take_append_of_le_length (Nat.le_of_lt hc)]
  · obtain ⟨d, rfl⟩ := Nat.exists_eq_add_of_le hc
    rw [original, place, List.take_length_add_append] at h
    rw [shift_place_add, result, List.take_length_add_append, List.take_length_add_append]
    -- the block comes in between if the first symbol stays in front of it
    rcases Nat.lt_or_ge o i.place with ho | ho
    · rw [List.drop_append_of_le_length ho] at h
      rw [shift_of_lt ho, List.drop_append_of_le_length ho, balanced_append_iff]
      exact h
    · obtain ⟨e, rfl⟩ := Nat.exists_eq_add_of_le ho
      rw [place, Nat.add_assoc, List.drop_length_add_append] at h
      rwa [shift_place_add, Nat.add_assoc, Nat.add_assoc, List.drop_length_add_append,
        List.drop_length_add_append]

/-- Brackets that belong together still do so at the places to which they are moved. -/
theorem matched_shift (h : Matched i.original o c) : Matched i.result (i.shift o) (i.shift c) where
  opening := by rw [getElem?_result_shift, h.opening]
  closing := by rw [getElem?_result_shift, h.closing]
  lt := by
    have := h.lt
    unfold shift
    split <;> split <;> omega
  between := balanced_between h.between h.lt

end Insertion

/-! ### Two machines side by side -/

structure Job.Inserts (i : Insertion) (j' j : Job) : Prop where
  result : j'.program.symbols.toList = i.result
  original : j.program.symbols.toList = i.original
  eof : j.eof = j'.eof
  result_free : j'.Free
  original_free : j.Free

namespace Job.Inserts

variable {i : Insertion} {j' j : Job}

theorem moves_of_getElem? (hs : Inserts i j' j) {k : Nat} {s : Symbol}
    (h : j.program.symbols.toList[k]? = some s) : i.Moves (i.shift k) k :=
  ⟨(List.getElem?_eq_some_iff.1 (hs.original ▸ h)).1, rfl⟩

theorem matched (hs : Inserts i j' j) {o c : Nat}
    (h : Matched j.program.symbols.toList o c) :
    Matched j'.program.symbols.toList (i.shift o) (i.shift c) := by
  rw [hs.original] at h
  rw [hs.result]
  exact i.matched_shift h

theorem standsAt (hs : Inserts i j' j) : i.inner.StandsAt j'.program.symbols.toList i.place :=
  ⟨i.front, i.back, by rw [hs.result, Insertion.result, List.append_assoc], rfl⟩

theorem length_original (hs : Inserts i j' j) :
    j.program.length = i.original.length := by
  rw [← hs.original, Array.length_toList]
  rfl

theorem length_result (hs : Inserts i j' j) :
    j'.program.length = i.result.length := by
  rw [← hs.result, Array.length_toList]
  rfl

/-- Symbols have the partners that they had before the block was put in. -/
theorem aligned (hs : Inserts i j' j) :
    Aligned i.Moves j' j where
  eof := hs.eof
  free' := hs.result_free
  free := hs.original_free
  symbol := by
    rintro k' k ⟨hk, rfl⟩
    refine ⟨i.original[k], ?_, ?_⟩
    · rw [Program.fetch?_eq_some_iff, hs.result, i.getElem?_result_shift]
      exact List.getElem?_eq_getElem hk
    · rw [Program.fetch?_eq_some_iff, hs.original]
      exact List.getElem?_eq_getElem hk
  closing := by
    rintro o' o ⟨-, rfl⟩ - hopening
    obtain ⟨c, hm⟩ := (Program.isMatching_of_resolve hs.original_free.resolved).1.exists_closing
      (Program.fetch?_eq_some_iff.1 hopening)
    exact ⟨i.shift c, c, hs.moves_of_getElem? hm.closing, hs.matched hm, hm⟩
  opening := by
    rintro c' c ⟨-, rfl⟩ - hclosing
    obtain ⟨o, hm⟩ := (Program.isMatching_of_resolve hs.original_free.resolved).1.exists_opening
      (Program.fetch?_eq_some_iff.1 hclosing)
    exact ⟨i.shift o, o, hs.moves_of_getElem? hm.opening, hs.matched hm, hm⟩

end Job.Inserts

section Running

open Machine (Reaches Settles)

variable {κ : Type} [ByteSink κ] {i : Insertion} {move : Nat → Nat} {n k cost : Nat} {sink : κ}
  {j' j : Job} {m' m f' f : Machine ByteQueue κ} {inv : Machine ByteQueue κ → Prop}

structure Beside (move : Nat → Nat) (n : Nat) (sink : κ) (m' m : Machine ByteQueue κ) : Prop where
  place : ∃ k : Nat, m.ip = k ∧ m'.ip = move k
  store : ∃ st : Store n, Represents sink st m' ∧ Represents sink st m

theorem Beside.isDone_iff (hs : Job.Inserts i j' j) (h : Beside i.shift n sink m' m) :
    m'.isDone j' ↔ m.isDone j := by
  obtain ⟨k, hip, hip'⟩ := h.place
  rw [Machine.isDone_iff, Machine.isDone_iff, hip, hip', hs.length_original, hs.length_result,
    Int.ofNat_le, Int.ofNat_le, i.length_result_le_shift_iff]

/-- Both machines stand behind the same symbol. -/
theorem Beside.of_abreast (h : Abreast i.Moves n sink m' m) : Beside i.landing n sink m' m where
  place := by
    obtain ⟨k', k, ⟨-, rfl⟩, hip', hip⟩ := h.place
    refine ⟨k + 1, hip, ?_⟩
    rw [hip', ← i.shift_succ]
    rfl
  store := h.store

/-- A symbol that was there before is executed by both machines. -/
theorem Beside.step (hs : Job.Inserts i j' j) (h : Beside i.shift n sink m' m)
    (pending : ¬ m.isDone j) :
    ∃ g' g, m'.step j' = .ok g' ∧ m.step j = .ok g ∧ Beside i.landing n sink g' g := by
  obtain ⟨k, hip, hip'⟩ := h.place
  obtain ⟨st, hr', hr⟩ := h.store
  have hmoves : i.Moves (i.shift k) k := by
    refine ⟨?_, rfl⟩
    rw [Machine.isDone_iff, hip, hs.length_original] at pending
    omega
  obtain ⟨g', g, hstep', hstep, habreast⟩ := hs.aligned.step hmoves hip' hip hr' hr
  exact ⟨g', g, hstep', hstep, .of_abreast habreast⟩

/-! ### Detours -/

/-- How many of the next steps are made at `place`. -/
def Machine.stepsAt {ι κ : Type} [ByteSource ι] [ByteSink κ] (j : Job) (place : Nat) :
    Nat → Machine ι κ → Nat :=
  Machine.countSteps j fun m => m.ip = place

/-- A way through the block. Whenever a machine of which `inv` holds comes to the place of the
block, a machine there that holds the same goes through the block in `cost` steps, the first of
which alone is made at that place, and holds the same again. -/
structure Detour (i : Insertion) (cost n : Nat) (sink : κ) (inv : Machine ByteQueue κ → Prop)
    (j' j : Job) : Prop where
  keeps {m m' : Machine ByteQueue κ} : inv m → m.step j = .ok m' → inv m'
  passes {m m' : Machine ByteQueue κ} {st : Store n} : inv m → m.ip = i.place → m'.ip = i.place →
    Represents sink st m → Represents sink st m' → ∃ f', Reaches j' (Machine.step j') cost m' f' ∧
      f'.ip = ((i.place + i.inner.length : Nat) : Int) ∧ Represents sink st f' ∧
      m'.stepsAt j' i.place cost = 1

/-- Where one machine has come, the other has come as well, or it stands in front of the block and
gets through. -/
theorem Beside.shifted_or_passes (hd : Detour i cost n sink inv j' j)
    (h : Beside i.landing n sink m' m) (hm : inv m) :
    Beside i.shift n sink m' m ∨ ∃ f', Reaches j' (Machine.step j') cost m' f' ∧
      Beside i.shift n sink f' m ∧ m'.stepsAt j' i.place cost = 1 := by
  obtain ⟨k, hip, hip'⟩ := h.place
  by_cases hk : k = i.place
  · subst hk
    obtain ⟨st, hr', hr⟩ := h.store
    rw [i.landing_place] at hip'
    obtain ⟨f', hf', hipf, hrf, hcount⟩ := hd.passes hm hip hip' hr hr'
    refine Or.inr ⟨f', hf', ⟨⟨i.place, hip, ?_⟩, st, hrf, hr⟩, hcount⟩
    rw [hipf, Insertion.shift_of_le (Nat.le_refl _)]
  · rw [Insertion.landing_of_ne hk] at hip'
    exact Or.inl ⟨⟨k, hip, hip'⟩, h.store⟩

theorem Beside.exists_passed (hd : Detour i cost n sink inv j' j)
    (h : Beside i.landing n sink m' m) (hm : inv m) :
    ∃ v f', Reaches j' (Machine.step j') (cost * v) m' f' ∧ Beside i.shift n sink f' m ∧
      m'.stepsAt j' i.place (cost * v) = v := by
  rcases h.shifted_or_passes hd hm with hshift | ⟨f', hf', hshift, hcount⟩
  · exact ⟨0, m', .refl m', hshift, rfl⟩
  · exact ⟨1, f', by rwa [Nat.mul_one], hshift, by rwa [Nat.mul_one]⟩

/-- Where the run without the block leads, the run with it leads as well, by a detour for every time
that it comes to the block. -/
theorem Beside.exists_reaches (hs : Job.Inserts i j' j) (hd : Detour i cost n sink inv j' j)
    (h : Beside i.landing n sink m' m) (hm : inv m) (hreach : Reaches j (Machine.step j) k m f) :
    ∃ v f', Reaches j' (Machine.step j') (k + cost * v) m' f' ∧ Beside i.shift n sink f' f ∧
      m'.stepsAt j' i.place (k + cost * v) = v := by
  induction hreach generalizing m' with
  | refl m =>
      obtain ⟨v, f', hf', hend, hcount⟩ := h.exists_passed hd hm
      exact ⟨v, f', by rwa [Nat.zero_add], hend, by rwa [Nat.zero_add]⟩
  | @head k m g f pending worked _ ih =>
      obtain ⟨v, g', hg', hpassed, hcount⟩ := h.exists_passed hd hm
      obtain ⟨g₁', g₁, hstep', hstep, hnext⟩ := hpassed.step hs pending
      obtain rfl := Except.ok.inj (hstep.symm.trans worked)
      have hpending : ¬ g'.isDone j' := mt (hpassed.isDone_iff hs).1 pending
      have haway : ¬ g'.ip = i.place := by
        obtain ⟨i', -, hip'⟩ := hpassed.place
        rw [hip', Int.natCast_inj]
        exact i.shift_ne_place i'
      obtain ⟨w, f', hf', hend, hcount'⟩ := ih hnext (hd.keeps hm worked)
      -- the detours in front of the symbol, the symbol, and whatever is behind it
      have hsum : k + 1 + cost * (v + w) = cost * v + (k + cost * w + 1) := by
        rw [Nat.mul_add]
        omega
      refine ⟨v + w, f', hsum ▸ hg'.trans (.head hpending hstep' hf'), hend, ?_⟩
      unfold Machine.stepsAt at hcount hcount' ⊢
      rw [hsum, hg'.countSteps_add, hcount, Machine.countSteps_succ hstep', hcount']
      simp [haway]

end Running

/-! ### Whole runs -/

namespace Execution

open Machine (Reaches)

variable {κ : Type} [ByteSink κ] {i : Insertion} {cost : Nat} {s : Settings} {bytes : List UInt8}
  {sink : κ} {x y : Execution ByteQueue κ} {inv : Machine ByteQueue κ → Prop}

/-- The two runs are alike but for detours of `x` from `place`: both end or both go on for ever, and
they end with the same tape, output and rest of the input, `x` having taken `cost` more steps for
every time that it has made one at that place. -/
structure AlikeButDetours (place cost : Nat) (x y : Execution ByteQueue κ) : Prop where
  ends_iff : (∃ a, x.Settles a) ↔ ∃ b, y.Settles b
  ends {a b : Attempt ByteQueue κ} : x.Settles a → y.Settles b → ∃ f' f, a = .ok f' ∧ b = .ok f ∧
    f'.tape = f.tape ∧ f'.source = f.source ∧ f'.sink = f.sink ∧
    f'.steps = f.steps + cost * x.start.stepsAt x.job place f'.steps

structure Inserted (i : Insertion) (s : Settings) (bytes : List UInt8) (sink : κ)
    (x y : Execution ByteQueue κ) : Prop where
  job : Job.Inserts i x.job y.job
  start : ∃ h, x.start = startOf s (.blank s.tapeSize.toNat h) (⟨bytes⟩ : ByteQueue) sink
  same_start : y.start = x.start
  settles {a : Attempt ByteQueue κ} : x.Settles a ↔ x.start.Settles x.job (Machine.step x.job) a
  settles_original {a : Attempt ByteQueue κ} :
    y.Settles a ↔ y.start.Settles y.job (Machine.step y.job) a

namespace Inserted

theorem inside (h : Inserted i s bytes sink x y) : x.start.Inside x.job ∧ y.start.Inside y.job := by
  obtain ⟨hsize, hstart⟩ := h.start
  rw [h.same_start, hstart]
  exact ⟨⟨Int.le_refl 0, Int.natCast_nonneg _⟩, Int.le_refl 0, Int.natCast_nonneg _⟩

theorem beside (h : Inserted i s bytes sink x y) :
    Beside i.landing s.tapeSize.toNat sink x.start y.start := by
  obtain ⟨hsize, hstart⟩ := h.start
  rw [h.same_start, hstart]
  have hr := represents_startOf (s := s) hsize bytes sink
  exact ⟨⟨0, rfl, by rw [Insertion.landing, if_pos (Nat.zero_le _)]; rfl⟩, _, hr, hr⟩

variable (h : Inserted i s bytes sink x y)
  (hd : Detour i cost s.tapeSize.toNat sink inv x.job y.job) (hinv : inv y.start)

include h hd hinv

/-- The run with the block ends behind the run without it. -/
theorem exists_end {k : Nat} {f : Machine ByteQueue κ}
    (run : Reaches y.job (Machine.step y.job) k y.start f) (done : f.isDone y.job) :
    ∃ v f', Reaches x.job (Machine.step x.job) (k + cost * v) x.start f' ∧ f'.isDone x.job ∧
      Beside i.shift s.tapeSize.toNat sink f' f ∧
      x.start.stepsAt x.job i.place (k + cost * v) = v := by
  obtain ⟨v, f', run', hbeside, hcount⟩ := h.beside.exists_reaches h.job hd hinv run
  exact ⟨v, f', run', (hbeside.isDone_iff h.job).2 done, hbeside, hcount⟩

/-- The run with the block takes no fewer steps than the run without it, so it does not end
alone. -/
theorem exists_settles_original {a : Attempt ByteQueue κ} (ha : x.Settles a) :
    ∃ b, y.Settles b := by
  obtain ⟨N, hN⟩ := (h.settles.1 ha).bounded
  rcases Machine.drive_cases y.job (Machine.step y.job) (N + 1) y.start with
    ⟨k, f, -, run, done, -⟩ | ⟨k, g, b, -, run, pending, broken, -⟩ | ⟨g, run, -, -⟩
  · exact ⟨_, h.settles_original.2 (.finished run done)⟩
  · exact ⟨_, h.settles_original.2 (.failed run pending broken)⟩
  · obtain ⟨v, g', run', -⟩ := h.beside.exists_reaches h.job hd hinv run
    have := hN _ g' run'
    omega

theorem alikeButDetours : AlikeButDetours i.place cost x y where
  ends_iff := by
    constructor
    · rintro ⟨a, ha⟩
      exact h.exists_settles_original hd hinv ha
    · rintro ⟨b, hb⟩
      obtain ⟨k, f, -, run, done⟩ := h.inside.2.reaches_of_settles ByteQueue.steady
        h.job.original_free (h.settles_original.1 hb)
      obtain ⟨v, f', run', done', -⟩ := h.exists_end hd hinv run done
      exact ⟨.ok f', h.settles.2 (.finished run' done')⟩
  ends {a b} ha hb := by
    obtain ⟨k, f, rfl, run, done⟩ := h.inside.2.reaches_of_settles ByteQueue.steady
      h.job.original_free (h.settles_original.1 hb)
    obtain ⟨v, f', run', done', hbeside, hcount⟩ := h.exists_end hd hinv run done
    obtain rfl := (Machine.Settles.finished run' done').unique (h.settles.1 ha)
    obtain ⟨st, hr', hr⟩ := hbeside.store
    refine ⟨f', f, rfl, rfl, hr'.tape_eq hr, hr'.source_eq hr, hr'.sink_eq hr, ?_⟩
    have hzero : x.start.steps = 0 := by
      obtain ⟨hsize, hstart⟩ := h.start
      rw [hstart]
      rfl
    rw [run'.steps, run.steps, h.same_start, hzero, Nat.zero_add, Nat.zero_add, hcount]

end Inserted

/-- A program with a block put in resolves as the program without it does, and both are run from the
same machine. -/
theorem exists_inserted {front text back : String} {inner : Block} {e : Engine}
    (hpos : 0 < inner.length) (htext : inner.symbols = (Program.ofString text).symbols.toList)
    (hbalanced : Balanced (Program.ofString (front ++ back)).symbols.toList)
    (hsize : 1 ≤ s.tapeSize) (hlimit : s.limit = none) (he : e = .burst → s.trace = false)
    (bytes : List UInt8) (sink : κ) :
    ∃ links' links x y, (Program.ofString (front ++ text ++ back)).resolve = .ok links' ∧
      (Program.ofString (front ++ back)).resolve = .ok links ∧
      ofLinks e s (.ofString (front ++ text ++ back)) links' (⟨bytes⟩ : ByteQueue) sink = .ok x ∧
      ofLinks e s (.ofString (front ++ back)) links (⟨bytes⟩ : ByteQueue) sink = .ok y ∧
      Inserted (.between front inner back hpos) s bytes sink x y := by
  have hresult : (Insertion.between front inner back hpos).result =
      (Program.ofString (front ++ text ++ back)).symbols.toList := Insertion.result_between htext
  have horiginal : (Insertion.between front inner back hpos).original =
      (Program.ofString (front ++ back)).symbols.toList := Insertion.original_between
  have hbalanced' : Balanced (Program.ofString (front ++ text ++ back)).symbols.toList := by
    rw [← hresult]
    rw [← horiginal] at hbalanced
    exact (Insertion.balanced_append_iff _ _ _).2 hbalanced
  obtain ⟨links', hlinks'⟩ := Program.exists_resolve_ok_iff.2 hbalanced'
  obtain ⟨links, hlinks⟩ := Program.exists_resolve_ok_iff.2 hbalanced
  obtain ⟨x, hx, hjob', hstart', hxs⟩ := exists_of_resolve hlinks' hsize
    (fun h => ⟨Burst.codable_ofString _, he h⟩) (⟨bytes⟩ : ByteQueue) sink
  obtain ⟨y, hy, hjob, hstart, hys⟩ := exists_of_resolve hlinks hsize
    (fun h => ⟨Burst.codable_ofString _, he h⟩) (⟨bytes⟩ : ByteQueue) sink
  refine ⟨links', links, x, y, hlinks', hlinks, hx, hy, ?_, ⟨_, hstart'⟩, hstart.trans hstart'.symm,
    hxs _, hys _⟩
  rw [hjob', hjob]
  exact ⟨hresult.symm, horiginal.symm, rfl, ⟨hlinks', hlimit⟩, hlinks, hlimit⟩

end Execution

end RingTape
