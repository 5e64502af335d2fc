import RingTape.Proofs.Delivery

/-!
Chains of sinks. A tee keeps a copy of what it is given and hands the same on, so tees can stand in
front of one another in any number, and a list, a buffer or a stream ends the chain. Each sink
reduces what it keeps by itself and a tee hands integers on as they are, so the list at the end of a
chain holds the very integers that were given to its front (`writeInts_of_fresh`).

What a run gives to its sink are cells of its tape, whatever the engine, the program and its links,
and however the run ends (`Execution.exists_writeAll_run`). Nothing is left to be reduced then, so
all sinks of the chain hold the same, and the result of an interpretation holds it as well.
-/

namespace RingTape

variable {ι κ : Type}

namespace Output

def writeInts (k : Output) (vs : List Int) : Output := vs.foldl write k

def reduced (vs : List Int) : Array UInt8 := (vs.map UInt8.ofInt).toArray

/-- The chain of sinks as it is to be when just these integers have been given to its front. -/
def holding (vs : List Int) : Output → Output
  | .list _ => .list vs.toArray
  | .buffer _ => .buffer (reduced vs)
  | .stream _ _ => .stream (reduced vs) (textOfBytes (reduced vs))
  | .tee _ behind => .tee (reduced vs) (behind.holding vs)

/-- A chain of new sinks: any number of tees, and one sink of another kind behind them. -/
inductive Fresh : Output → Prop
  | list : Fresh emptyList
  | buffer : Fresh emptyBuffer
  | stream : Fresh emptyStream
  | tee {behind : Output} (fresh : Fresh behind) : Fresh (teeTo behind)

theorem Fresh.holding_nil {k : Output} (h : k.Fresh) : k.holding [] = k := by
  induction h with
  | list => rfl
  | buffer => rfl
  | stream => rfl
  | tee _ ih => rw [teeTo, holding, ih]; rfl

theorem Fresh.outermost {given : Option Output} (h : ∀ k, given = some k → k.Fresh) :
    (Interpretation.outermost given).Fresh := by
  cases given with
  | none => exact .buffer
  | some k => exact .tee (h k rfl)

/-! ### Integers given to a chain -/

theorem reduced_concat (vs : List Int) (v : Int) :
    reduced (vs ++ [v]) = (reduced vs).push (UInt8.ofInt v) := by
  simp [reduced]

/-- Each value is kept modulo 256. -/
theorem map_reduced (vs : List Int) :
    (reduced vs).toList.map (fun b => (b.toNat : Int)) = vs.map (· % 256) := by
  rw [reduced, List.map_map]
  exact List.map_congr_left fun v _ => toNat_ofInt v

/-- One more integer is kept by each sink of the chain in its own way. -/
theorem write_holding (k : Output) (vs : List Int) (v : Int) :
    (k.holding vs).write v = k.holding (vs ++ [v]) := by
  induction k with
  | list values => simp [holding, write]
  | buffer bytes => rw [holding, write, holding, reduced_concat]
  | stream bytes text => rw [holding, write, holding, reduced_concat, textOfBytes_push]
  | tee bytes behind ih => rw [holding, write, ih, holding, reduced_concat]

theorem writeInts_holding (k : Output) (vs ws : List Int) :
    (k.holding vs).writeInts ws = k.holding (vs ++ ws) := by
  induction ws generalizing vs with
  | nil => rw [List.append_nil]; rfl
  | cons w ws ih =>
      show ((k.holding vs).write w).writeInts ws = _
      rw [write_holding, ih, List.append_assoc]
      rfl

theorem writeInts_of_fresh {k : Output} (h : k.Fresh) (vs : List Int) :
    k.writeInts vs = k.holding vs := by
  have hwrite := k.writeInts_holding [] vs
  rwa [h.holding_nil] at hwrite

/-! ### Bytes given to a chain -/

def valuesOf (bs : List UInt8) : List Int := bs.map fun b => (b.toNat : Int)

theorem reduced_valuesOf (bs : List UInt8) : reduced (valuesOf bs) = bs.toArray := by
  have hbyte : UInt8.ofInt ∘ (fun b : UInt8 => (b.toNat : Int)) = id := funext ofInt_toNat
  rw [reduced, valuesOf, List.map_map, hbyte, List.map_id]

theorem writeAll_of_fresh {k : Output} (h : k.Fresh) (bs : List UInt8) :
    ByteSink.writeAll k bs = k.holding (valuesOf bs) := by
  rw [← writeInts_of_fresh h, writeInts, valuesOf, List.foldl_map]
  rfl

theorem toNat_byteChar (b : UInt8) : (byteChar b).toNat = b.toNat := by
  have hvalid : b.toNat.isValidChar := Or.inl (by have := b.toNat_lt; omega)
  rw [byteChar, Char.ofNat, dif_pos hvalid]
  rfl

/-- A text has a character for each byte, whose code it is. -/
theorem codes_textOfBytes (bytes : Array UInt8) :
    (textOfBytes bytes).toList.map (fun c => (c.toNat : Int)) =
      bytes.toList.map (fun b => (b.toNat : Int)) := by
  rw [textOfBytes, String.toList_ofList, List.map_map]
  exact List.map_congr_left fun b _ => congrArg Nat.cast (toNat_byteChar b)

end Output

/-! ### What a run gives to its sink -/

section Rounds

variable {j : Job} {m : Machine ι κ}

theorem Machine.sink_readByte [ByteSource ι] (eof : EofPolicy) :
    Attempt.sink (m.readByte eof) = m.sink := by
  have hself : m.readByte eof = Attempt.withSink m.sink (m.readByte eof) :=
    readByte_withSink m.sink eof
  rw [hself, Attempt.sink_withSink]

variable [ByteSink κ]

/-- Nothing but bytes has been given to the sink, which was `k` before. -/
def Attempt.Writes (k : κ) (a : Attempt ι κ) : Prop :=
  ∃ bs, Attempt.sink a = ByteSink.writeAll k bs

/-- If each round writes bytes, then so has a run, however far it has got and whatever has become of
it. -/
theorem Machine.exists_writeAll_drive {work : Machine ι κ → Attempt ι κ}
    (hwork : ∀ m, (work m).Writes m.sink) (n : Nat) (m : Machine ι κ) :
    ∃ bs, (m.drive j work n).machine.sink = ByteSink.writeAll m.sink bs := by
  induction n generalizing m with
  | zero =>
      rw [drive]
      split <;> exact ⟨[], rfl⟩
  | succ n ih =>
      rw [drive]
      split
      · exact ⟨[], rfl⟩
      · obtain ⟨bs, hbs⟩ := hwork m
        cases hw : work m with
        | error b =>
            rw [hw] at hbs
            exact ⟨bs, hbs⟩
        | ok m' =>
            rw [hw] at hbs
            replace hbs : m'.sink = ByteSink.writeAll m.sink bs := hbs
            obtain ⟨cs, hcs⟩ := ih m'
            rw [hbs, ← ByteSink.writeAll_append] at hcs
            exact ⟨bs ++ cs, hcs⟩

variable [ByteSource ι]

namespace Burst

theorem writes_answer (j : Job) (stop : Stop) (m : Machine ι κ) :
    (answer j stop m).Writes m.sink := by
  have hanswered := answered_answer j stop m
  generalize answer j stop m = a at hanswered ⊢
  cases hanswered with
  | written left => exact ⟨[m.tape.current], rfl⟩
  | read left byte =>
      have hsink := Machine.sink_readByte (m := m) j.eof
      rw [byte] at hsink
      exact ⟨[], hsink⟩
  | ended => exact ⟨[], rfl⟩
  | budget => exact ⟨[], rfl⟩
  | unread left broken => exact ⟨[], rfl⟩
  | spent asked reached => exact ⟨[], rfl⟩
  | unlinked symbol => exact ⟨[], rfl⟩
  | lost symbol => exact ⟨[], rfl⟩
  | stray => exact ⟨[], rfl⟩

/-- A round in bursts needs no links that make sense for this. -/
theorem writes_round (j : Job) (r : Prepared) (batch : Nat) (m : Machine ι κ) :
    (round j r batch m).Writes m.sink := by
  cases hl : j.spent m.steps with
  | true =>
      rw [round_of_spent hl]
      exact ⟨[], rfl⟩
  | false =>
      rw [round_of_not_spent hl, burst]
      cases hstore : store m _ _ with
      | none => exact ⟨[], rfl⟩
      | some f =>
          have hanswer := writes_answer j (run r.codes r.slots
            (budget batch j.limit m.steps) (load m)).stop f
          rwa [sink_of_store hstore] at hanswer

end Burst

theorem Worker.writes_round (w : Worker) (j : Job) (m : Machine ι κ) :
    (w.round j m).Writes m.sink := by
  cases w with
  | stepwise =>
      obtain ⟨bs, hbs, -⟩ := Machine.exists_bytes_step κ j m
      exact ⟨bs, hbs⟩
  | burst r => exact Burst.writes_round j r Burst.batchSize m

end Rounds

namespace Execution

variable {e : Engine} {s : Settings} {p : Program} {links : Links} {source : ι} {sink : κ}
  {x : Execution ι κ}

theorem sink_of_ofLinks (h : ofLinks e s p links source sink = .ok x) : x.start.sink = sink := by
  unfold ofLinks at h
  split at h
  · cases h
  · cases hw : Worker.prepare e p links with
    | error f =>
        rw [hw] at h
        cases h
    | ok w =>
        rw [hw] at h
        cases h
        rfl

variable [ByteSource ι] [ByteSink κ]

theorem run_eq_drive (x : Execution ι κ) (n : Nat) :
    x.run n = x.start.drive x.job (x.worker.round x.job) n := by
  rw [run, Execution.advance]
  cases x.worker with
  | stepwise => exact Machine.advance_eq_drive x.job n x.start
  | burst r => exact Burst.advance_eq_drive x.job r Burst.batchSize n x.start

/-- A run writes bytes, whatever the links lead to. -/
theorem exists_writeAll_run (h : ofLinks e s p links source sink = .ok x) (n : Nat) :
    ∃ bs, (x.run n).machine.sink = ByteSink.writeAll sink bs := by
  rw [run_eq_drive, ← sink_of_ofLinks h]
  exact Machine.exists_writeAll_drive (x.worker.writes_round x.job) n x.start

end Execution

/-! ### What an interpretation gives to its sink -/

namespace Interpretation

variable {text : String} {o : Options} {source : ι} {given : Option Output} {answer : Answer ι}
  {n : Nat}

theorem sink_of_working [ByteSource ι] {program : String} {before : List Event} {x : Execution ι Output}
    (h : (working program before x x.start).advance n = .settled answer) :
    answer.sink = (x.run n).machine.sink ∧
      ∀ r, answer.result = .ok r → r.output = answer.sink.bytes := by
  rw [advance] at h
  rw [Execution.run]
  cases hrun : x.advance n x.start with
  | running m => simp [hrun] at h
  | finished m =>
      simp only [hrun, settled.injEq] at h
      subst h
      exact ⟨rfl, fun r hr => Except.ok.inj hr ▸ rfl⟩
  | failed b =>
      simp only [hrun, settled.injEq] at h
      subst h
      obtain ⟨cause, m⟩ := b
      cases cause with
      | fault f => exact ⟨rfl, fun r hr => Except.ok.inj hr ▸ rfl⟩
      | _ => exact ⟨rfl, fun r hr => by cases hr⟩

/-- An interpretation has an answer at once, without any output, or starts to run on a new sink. -/
theorem begin_cases (text : String) (o : Options) (source : ι) (given : Option Output) :
    (∃ a, begin text o source given = .settled a ∧ a.sink = outermost given ∧
      ∀ r, a.result = .ok r → r.output = #[]) ∨
    ∃ e s p links before x, Execution.ofLinks e s p links source (outermost given) = .ok x ∧
      begin text o source given = .working (Source.strip text) before x x.start := by
  cases hp : (Program.ofString (Source.strip text)).resolve with
  | error f =>
      refine Or.inl ⟨_, begin_of_fault hp o source given, rfl, fun r hr => ?_⟩
      rw [← Except.ok.inj hr]
  | ok links =>
      cases ho : o.configure with
      | error e =>
          simp only [begin, hp, ho]
          exact Or.inl ⟨_, rfl, rfl, fun r hr => by cases hr⟩
      | ok chosen =>
          obtain ⟨e, s⟩ := chosen
          cases hx : Execution.ofLinks e s (.ofString (Source.strip text)) links source
              (outermost given) with
          | error f =>
              simp only [begin, hp, ho, hx]
              exact Or.inl ⟨_, rfl, rfl, fun r hr => by cases hr⟩
          | ok x =>
              simp only [begin, hp, ho, hx]
              exact Or.inr ⟨e, s, _, links, _, x, hx, rfl⟩

/-- Whatever an answer says, its sink has been given bytes, and these are the output of a result. -/
theorem exists_writeAll_of_settled [ByteSource ι]
    (h : (begin text o source given).advance n = .settled answer) :
    ∃ bs, answer.sink = ByteSink.writeAll (outermost given) bs ∧
      ∀ r, answer.result = .ok r → r.output = bs.toArray := by
  rcases begin_cases text o source given with
    ⟨a, hbegin, hsink, houtput⟩ | ⟨e, s, p, links, before, x, hx, hbegin⟩
  · rw [hbegin, advance, settled.injEq] at h
    subst h
    exact ⟨[], hsink, houtput⟩
  · rw [hbegin] at h
    obtain ⟨hsink, houtput⟩ := sink_of_working h
    obtain ⟨bs, hbs⟩ := Execution.exists_writeAll_run hx n
    refine ⟨bs, hsink.trans hbs, fun r hr => ?_⟩
    rw [houtput r hr, hsink, hbs, Output.bytes_writeAll_outermost]

end Interpretation

/-! ### All sinks of a chain -/

namespace Output

/-- A chain of the kind of `k` all of whose sinks have the same values, which are bytes: a list as
they are, a stream as the codes of its text as well. -/
structure Unanimous (vs : List Int) (k k' : Output) : Prop where
  holding : k' = k.holding vs
  range : ∀ v ∈ vs, 0 ≤ v ∧ v ≤ 255
  bytes : (reduced vs).toList.map (fun b => (b.toNat : Int)) = vs
  text : (textOfBytes (reduced vs)).toList.map (fun c => (c.toNat : Int)) = vs

theorem unanimous_writeAll {k : Output} (h : k.Fresh) (bs : List UInt8) :
    Unanimous (valuesOf bs) k (ByteSink.writeAll k bs) where
  holding := writeAll_of_fresh h bs
  range v hv := by
    obtain ⟨b, -, rfl⟩ := List.mem_map.1 hv
    have := b.toNat_lt
    omega
  bytes := by rw [reduced_valuesOf]; rfl
  text := by rw [reduced_valuesOf, codes_textOfBytes]; rfl

/-- The sinks of a chain agree, however many tees there are. Of any integers that are given to the
front, every tee, and a buffer or a stream at the end, keeps each modulo 256, the text of a stream
has a character for each byte, and a list at the end has the integers themselves. A run gives nothing
but bytes to its sink, whatever the engine, the program and its links, and at whatever point it is
looked at, be it finished, stopped or still running; so then all sinks have the same values. An
interpretation puts a tee in front, or has a buffer, and what that holds is the output and the text
of the result. -/
theorem chain_agrees [ByteSource ι] :
    (∀ (k : Output) (vs : List Int), k.Fresh → k.writeInts vs = k.holding vs) ∧
    (∀ vs : List Int,
      (reduced vs).toList.map (fun b => (b.toNat : Int)) = vs.map (· % 256) ∧
      (textOfBytes (reduced vs)).toList.map (fun c => (c.toNat : Int)) = vs.map (· % 256)) ∧
    (∀ (k : Output) (e : Engine) (s : Settings) (p : Program) (links : Links) (source : ι)
      (x : Execution ι Output), k.Fresh → Execution.ofLinks e s p links source k = .ok x →
      ∀ n, ∃ vs, Unanimous vs k (x.run n).machine.sink) ∧
    ∀ (text : String) (o : Options) (source : ι) (given : Option Output),
      (∀ k, given = some k → k.Fresh) → ∀ (n : Nat) (answer : Answer ι),
      (Interpretation.begin text o source given).advance n = .settled answer →
      ∃ vs, Unanimous vs (Interpretation.outermost given) answer.sink ∧
        ∀ r, answer.result = .ok r → r.output = reduced vs ∧
          r.text.toList.map (fun c => (c.toNat : Int)) = vs := by
  refine ⟨fun k vs hk => writeInts_of_fresh hk vs, fun vs => ⟨map_reduced vs, ?_⟩,
    fun k e s p links source x hk hx n => ?_, fun text o source given hgiven n answer h => ?_⟩
  · rw [codes_textOfBytes, map_reduced]
  · obtain ⟨bs, hbs⟩ := Execution.exists_writeAll_run hx n
    exact ⟨_, hbs ▸ unanimous_writeAll hk bs⟩
  · obtain ⟨bs, hbs, houtput⟩ := Interpretation.exists_writeAll_of_settled h
    have hall := unanimous_writeAll (Fresh.outermost hgiven) bs
    refine ⟨_, hbs ▸ hall, fun r hr => ?_⟩
    have hr : r.output = reduced (valuesOf bs) := by rw [houtput r hr, reduced_valuesOf]
    exact ⟨hr, by rw [Result.text, hr, hall.text]⟩

/-- Integers that are no bytes for two tees in front of a list; `-.]` with a bracket that is linked
nowhere, on a tee in front of a stream; and the interpretation of `-.[.]` on a list, stopped by its
limit. -/
theorem tees_agree_on_wrapped :
    (teeTo (teeTo emptyList)).Fresh ∧ (teeTo emptyStream).Fresh ∧
    (teeTo (teeTo emptyList)).writeInts [-1, 256, 300] =
      .tee #[255, 0, 44] (.tee #[255, 0, 44] (.list #[-1, 256, 300])) ∧
    (∃ (x : Execution ByteQueue Output) (vs : List Int),
      Execution.ofLinks .burst { tapeSize := 2, eof := .zero, limit := none, trace := false }
        (.ofString "-.]") .empty ⟨[]⟩ (teeTo emptyStream) = .ok x ∧
      (∃ b, x.run 3 = .failed b ∧ b.cause = .fault (.bracket (.unlinked 2 (some "]")))) ∧
      Unanimous vs (teeTo emptyStream) (x.run 3).machine.sink ∧ vs = [255]) ∧
    ∃ (answer : Answer ByteQueue) (vs : List Int) (r : Result),
      (Interpretation.begin "-.[.]" { tapeSize := 2, limit := some 5 } ⟨[]⟩
        (some emptyList)).advance 9 = .settled answer ∧
      Unanimous vs (teeTo emptyList) answer.sink ∧ answer.result = .ok r ∧
      r.error = some (.limit (.stopped 5 3)) ∧ vs = [255, 255] ∧ r.output = #[255, 255] := by
  have htees : (teeTo (teeTo emptyList)).Fresh := .tee (.tee .list)
  have htee : (teeTo emptyStream).Fresh := .tee .stream
  have hgiven : ∀ k, some emptyList = some k → k.Fresh := fun k hk => Option.some.inj hk ▸ .list
  obtain ⟨hwrite, -, hrun, hanswer⟩ := chain_agrees (ι := ByteQueue)
  refine ⟨htees, htee, (hwrite _ _ htees).trans rfl, ?_, ?_⟩
  · obtain ⟨vs, hvs⟩ := hrun _ .burst { tapeSize := 2, eof := .zero, limit := none, trace := false }
      (.ofString "-.]") .empty ⟨[]⟩ _ htee rfl 3
    have hbytes : #[255] = reduced vs := congrArg bytes hvs.holding
    exact ⟨_, vs, rfl, ⟨_, rfl, rfl⟩, hvs, hvs.bytes.symm.trans (hbytes ▸ rfl)⟩
  · obtain ⟨vs, hvs, hresult⟩ := hanswer "-.[.]" { tapeSize := 2, limit := some 5 } ⟨[]⟩
      (some emptyList) hgiven 9 _ rfl
    obtain ⟨hr, -⟩ := hresult _ rfl
    exact ⟨_, vs, _, rfl, hvs, rfl, rfl, hvs.bytes.symm.trans (hr ▸ rfl), rfl⟩

end Output

end RingTape
