import RingTape.Proofs.Insertion

/-!
Texts that cancel. The four symbols that move the pointer and change the cell can be undone, each by
its opposite, on every tape: the pointer goes round and the cell wraps, so nothing gets stuck at an
end. A text of such symbols is undone by the opposites in the reverse order. The text with what
undoes it therefore leaves no trace, and may be put anywhere in a program, also where a loop is
entered, repeated or left.
-/

namespace RingTape

/-! ### Undoing -/

def opposite : Char → Char
  | '>' => '<'
  | '<' => '>'
  | '+' => '-'
  | '-' => '+'
  | c => c

def inverse (text : String) : String := String.ofList (text.toList.reverse.map opposite)

def Reversible (text : String) : Prop := ∀ c ∈ text.toList, c ∈ ['>', '<', '+', '-']

instance (text : String) : Decidable (Reversible text) :=
  inferInstanceAs (Decidable (∀ c ∈ text.toList, c ∈ ['>', '<', '+', '-']))

theorem toList_inverse (text : String) :
    (inverse text).toList = (text.toList.map opposite).reverse := by
  rw [inverse, String.toList_ofList, List.map_reverse]

theorem length_inverse (text : String) : (inverse text).length = text.length := by
  rw [← String.length_toList, toList_inverse, List.length_reverse, List.length_map,
    String.length_toList]

theorem Reversible.inverse {text : String} (h : Reversible text) : Reversible (inverse text) := by
  intro c hc
  rw [toList_inverse, List.mem_reverse, List.mem_map] at hc
  obtain ⟨d, hd, rfl⟩ := hc
  have hmem := h d hd
  simp only [List.mem_cons, List.not_mem_nil, or_false] at hmem
  rcases hmem with rfl | rfl | rfl | rfl <;> decide

theorem not_isBracket_of_mem {c : Char} (h : c ∈ ['>', '<', '+', '-']) :
    ¬ (Symbol.char c).IsBracket := by
  simp only [List.mem_cons, List.not_mem_nil, or_false] at h
  rcases h with rfl | rfl | rfl | rfl <;> decide

theorem not_isBracket_of_reversible {text : String} (h : Reversible text) :
    ∀ s ∈ (Program.ofString (text ++ inverse text)).symbols.toList, ¬ s.IsBracket := by
  intro s hs
  rw [Program.toList_symbols_ofString, List.mem_map, String.toList_append] at hs
  obtain ⟨c, hc, rfl⟩ := hs
  rcases List.mem_append.1 hc with hc | hc
  · exact not_isBracket_of_mem (h c hc)
  · exact not_isBracket_of_mem (h.inverse c hc)

namespace Store

variable {n : Nat} {eof : EofPolicy}

@[simp] theorem current_put (st : Store n) (v : UInt8) : (st.put v).current = v :=
  Function.update_self _ _ _

@[simp] theorem put_put (st : Store n) (v w : UInt8) : (st.put v).put w = st.put w := by
  simp only [put, Function.update_idem]

@[simp] theorem put_current (st : Store n) : st.put st.current = st := by
  simp only [put, current, Function.update_eq_self]

/-- A symbol is undone by its opposite. -/
theorem apply_opposite (st : Store n) {c : Char} (h : c ∈ ['>', '<', '+', '-']) :
    (st.apply eof (.char c)).apply eof (.char (opposite c)) = st := by
  simp only [List.mem_cons, List.not_mem_nil, or_false] at h
  rcases h with rfl | rfl | rfl | rfl
  · show { st with pointer := st.pointer + 1 - 1 } = st
    rw [add_sub_cancel_right]
  · show { st with pointer := st.pointer - 1 + 1 } = st
    rw [sub_add_cancel]
  · show (st.put (st.current + 1)).put ((st.put (st.current + 1)).current - 1) = st
    rw [current_put, put_put, UInt8.add_sub_cancel, put_current]
  · show (st.put (st.current - 1)).put ((st.put (st.current - 1)).current + 1) = st
    rw [current_put, put_put, UInt8.sub_add_cancel, put_current]

def applyAll (eof : EofPolicy) (l : List Symbol) (st : Store n) : Store n :=
  l.foldl (fun st s => st.apply eof s) st

theorem applyAll_append (l l' : List Symbol) (st : Store n) :
    st.applyAll eof (l ++ l') = (st.applyAll eof l).applyAll eof l' :=
  List.foldl_append

/-- The last symbol is undone first, so what is in between has been undone when the opposite of the
first comes. -/
theorem applyAll_inverse {cs : List Char} (h : ∀ c ∈ cs, c ∈ ['>', '<', '+', '-'])
    (st : Store n) :
    st.applyAll eof ((cs ++ (cs.map opposite).reverse).map .char) = st := by
  induction cs generalizing st with
  | nil => rfl
  | cons c cs ih =>
      have hsplit : (c :: cs ++ ((c :: cs).map opposite).reverse).map Symbol.char =
          .char c :: ((cs ++ (cs.map opposite).reverse).map Symbol.char ++
            [.char (opposite c)]) := by
        simp
      have hinner := ih (fun d hd => h d (List.mem_cons_of_mem c hd)) (st.apply eof (.char c))
      calc st.applyAll eof ((c :: cs ++ ((c :: cs).map opposite).reverse).map .char)
        _ = ((st.apply eof (.char c)).applyAll eof
              ((cs ++ (cs.map opposite).reverse).map .char)).applyAll eof
                [.char (opposite c)] := by
          rw [hsplit, ← applyAll_append]
          rfl
        _ = (st.apply eof (.char c)).applyAll eof [.char (opposite c)] := by rw [hinner]
        _ = st := st.apply_opposite (h c List.mem_cons_self)

end Store

/-! ### Straight lines -/

/-- A row without brackets is a block. -/
theorem Block.exists_of_plain {l : List Symbol} (h : ∀ s ∈ l, ¬ s.IsBracket) :
    ∃ b : Block, b.symbols = l := by
  induction l with
  | nil => exact ⟨.done, rfl⟩
  | cons s l ih =>
      obtain ⟨rest, hrest⟩ := ih fun t ht => h t (List.mem_cons_of_mem s ht)
      exact ⟨.symbol s (h s List.mem_cons_self) rest, by rw [symbols, hrest]⟩

section Running

open Machine (Reaches)

variable {κ : Type} [ByteSink κ] {n : Nat} {sink : κ} {j' j : Job} {st : Store n}
  {m : Machine ByteQueue κ} {l : List Symbol}

/-- A row without brackets is gone through from its first place to the place behind it, once at each
of its places and nowhere else. -/
theorem Represents.reaches_plain (hj : j.Free) (hplain : ∀ s ∈ l, ¬ s.IsBracket)
    {front back : List Symbol} (hl : j.program.symbols.toList = front ++ (l ++ back))
    (hip : m.ip = (front.length : Int)) (hr : Represents sink st m) :
    ∃ f, Reaches j (Machine.step j) l.length m f ∧
      f.ip = ((front.length + l.length : Nat) : Int) ∧
      Represents sink (st.applyAll j.eof l) f ∧
      ∀ place, m.stepsAt j place l.length =
        if front.length ≤ place ∧ place < front.length + l.length then 1 else 0 := by
  induction l generalizing front m st with
  | nil =>
      refine ⟨m, .refl m, hip, hr, fun place => ?_⟩
      rw [if_neg (by rw [List.length_nil]; omega)]
      rfl
  | cons s l ih =>
      have hsymbol : j.program.symbols.toList[front.length]? = some s := by
        rw [hl]
        simp
      have hl' : j.program.symbols.toList = (front ++ [s]) ++ (l ++ back) := by
        rw [hl]
        simp
      have hlength : (front ++ [s]).length = front.length + 1 := List.length_append
      obtain ⟨g, hstep, hipg, hrg⟩ := hr.step_plain (hj.not_spent _)
        (hip ▸ Program.fetch?_eq_some_iff.2 hsymbol) (hplain s List.mem_cons_self)
      have hipg' : g.ip = ((front ++ [s]).length : Int) := by
        rw [hipg, hip, hlength]
        rfl
      obtain ⟨f, hf, hipf, hrf, hcount⟩ :=
        ih (fun t ht => hplain t (List.mem_cons_of_mem s ht)) hl' hipg' hrg
      refine ⟨f, .head (Machine.not_isDone_of_getElem? hip hsymbol) hstep hf, ?_, hrf,
        fun place => ?_⟩
      · rw [hipf, hlength, List.length_cons]
        congr 1
        omega
      · have hrest := hcount place
        rw [hlength] at hrest
        unfold Machine.stepsAt at hrest ⊢
        rw [List.length_cons, Machine.countSteps_succ hstep, hrest]
        simp only [hip, Int.natCast_inj, decide_eq_true_eq]
        split_ifs <;> omega

/-- A text with what undoes it behind it is gone through without a trace. -/
theorem Detour.of_reversible {i : Insertion} (hs : Job.Inserts i j' j) {text : String}
    (htext : Reversible text)
    (hinner : i.inner.symbols = (Program.ofString (text ++ inverse text)).symbols.toList)
    (sink : κ) : Detour i (2 * text.length) n sink (fun _ => True) j' j where
  keeps _ _ := trivial
  passes {m m' st} _ _ hip' _ hr' := by
    have hsymbols : i.inner.symbols =
        (text.toList ++ (text.toList.map opposite).reverse).map .char := by
      rw [hinner, Program.toList_symbols_ofString, String.toList_append, toList_inverse]
    have hplain : ∀ s ∈ i.inner.symbols, ¬ s.IsBracket := by
      rw [hinner]
      exact not_isBracket_of_reversible htext
    have hlength : i.inner.symbols.length = 2 * text.length := by
      rw [hinner, Program.length_symbols_ofString, String.length_append, length_inverse,
        Nat.two_mul]
    obtain ⟨f', hf', hipf, hrf, hcount⟩ :=
      hr'.reaches_plain hs.result_free hplain hs.result hip'
    rw [hsymbols, Store.applyAll_inverse htext] at hrf
    rw [hlength] at hf' hcount
    refine ⟨f', hf', ?_, hrf, ?_⟩
    · rw [hipf, Block.length_symbols]
      rfl
    · have hpos := i.length_pos
      rw [← Block.length_symbols, hlength] at hpos
      rw [hcount, if_pos ⟨Nat.le_refl _, by rw [Insertion.place]; omega⟩]

end Running

/-! ### Whole runs -/

namespace Execution

variable {κ : Type} [ByteSink κ] {s : Settings} {e : Engine} {front text back : String}

theorem exists_alikeButDetours_self {p : Program} (hp : Balanced p.symbols.toList)
    (hsize : 1 ≤ s.tapeSize) (hlimit : s.limit = none)
    (he : e = .burst → Burst.Codable p ∧ s.trace = false) (bytes : List UInt8) (sink : κ)
    (place : Nat) :
    ∃ links x, p.resolve = .ok links ∧ ofLinks e s p links (⟨bytes⟩ : ByteQueue) sink = .ok x ∧
      AlikeButDetours place 0 x x := by
  obtain ⟨links, hlinks⟩ := Program.exists_resolve_ok_iff.2 hp
  obtain ⟨x, hx, hjob, hstart, hxs⟩ := exists_of_resolve hlinks hsize he (⟨bytes⟩ : ByteQueue) sink
  have hfree : x.job.Free := by
    rw [hjob]
    exact ⟨hlinks, hlimit⟩
  have hin : x.start.Inside x.job := by
    rw [hstart]
    exact ⟨Int.le_refl 0, Int.natCast_nonneg _⟩
  refine ⟨links, x, hlinks, hx, ⟨Iff.rfl, fun {a b} ha hb => ?_⟩⟩
  obtain rfl := ha.unique hb
  obtain ⟨n, f, rfl, -, -⟩ := hin.reaches_of_settles ByteQueue.steady hfree ((hxs _).1 ha)
  exact ⟨f, f, rfl, rfl, rfl, rfl, rfl, by rw [Nat.zero_mul]; rfl⟩

/-- A text of symbols that can be undone, with what undoes it, can be put anywhere in a program. The
program resolves and runs as before, on every tape and every input and with any policy for its end,
but for the steps through the text each time that a run comes there. -/
theorem cancelling_text_alike
    (hprogram : Balanced (Program.ofString (front ++ back)).symbols.toList)
    (htext : Reversible text) (hsize : 1 ≤ s.tapeSize) (hlimit : s.limit = none)
    (he : e = .burst → s.trace = false) (bytes : List UInt8) (sink : κ) :
    ∃ links' links x y,
      (Program.ofString (front ++ (text ++ inverse text) ++ back)).resolve = .ok links' ∧
      (Program.ofString (front ++ back)).resolve = .ok links ∧
      ofLinks e s (.ofString (front ++ (text ++ inverse text) ++ back)) links'
        (⟨bytes⟩ : ByteQueue) sink = .ok x ∧
      ofLinks e s (.ofString (front ++ back)) links (⟨bytes⟩ : ByteQueue) sink = .ok y ∧
      AlikeButDetours front.length (2 * text.length) x y := by
  rcases Nat.eq_zero_or_pos text.length with hzero | hpos
  · obtain rfl := String.length_eq_zero_iff.1 hzero
    obtain ⟨links, x, hlinks, hx, halike⟩ :=
      exists_alikeButDetours_self hprogram hsize hlimit
        (fun h => ⟨Burst.codable_ofString _, he h⟩) bytes sink front.length
    have hempty : front ++ ("" ++ inverse "") ++ back = front ++ back := by
      rw [show inverse "" = "" from rfl, String.append_empty, String.append_empty]
    rw [hempty]
    exact ⟨links, links, x, x, hlinks, hlinks, hx, hx, halike⟩
  · obtain ⟨b, hb⟩ := Block.exists_of_plain (not_isBracket_of_reversible htext)
    have hlength : 0 < b.length := by
      rw [← Block.length_symbols, hb, Program.length_symbols_ofString, String.length_append]
      exact Nat.lt_add_right _ hpos
    obtain ⟨links', links, x, y, hlinks', hlinks, hx, hy, h⟩ :=
      exists_inserted hlength hb hprogram hsize hlimit he bytes sink
    have hd := Detour.of_reversible (n := s.tapeSize.toNat) h.job htext hb sink
    have halike := h.alikeButDetours hd trivial
    rw [Insertion.place_between] at halike
    exact ⟨links', links, x, y, hlinks', hlinks, hx, hy, halike⟩

/-- `>+` and what undoes it, at the head of the body of `,[.-]`, on a tape of one cell. -/
theorem echo_with_cancelling_text_alike :
    Balanced (Program.ofString (",[" ++ ".-]")).symbols.toList ∧ Reversible ">+" ∧
    ∃ links' links x y f' f, (Program.ofString ",[>+-<.-]").resolve = .ok links' ∧
      (Program.ofString ",[.-]").resolve = .ok links ∧
      ofLinks .stepwise { tapeSize := 1, eof := .keep, limit := none, trace := false }
        (.ofString ",[>+-<.-]") links' (⟨[2]⟩ : ByteQueue) Output.emptyBuffer = .ok x ∧
      ofLinks .stepwise { tapeSize := 1, eof := .keep, limit := none, trace := false }
        (.ofString ",[.-]") links (⟨[2]⟩ : ByteQueue) Output.emptyBuffer = .ok y ∧
      x.Settles (.ok f') ∧ y.Settles (.ok f) ∧ f'.tape = f.tape ∧ f'.sink = f.sink ∧
      f'.sink.bytes = #[2, 1] ∧ f.steps = 8 ∧ f'.steps = 16 ∧ x.start.stepsAt x.job 2 16 = 2 := by
  have hprogram : Balanced (Program.ofString (",[" ++ ".-]")).symbols.toList :=
    Program.exists_resolve_ok_iff.1 ⟨_, rfl⟩
  have htext : Reversible ">+" := by simp [Reversible]
  obtain ⟨links', links, x, y, hlinks', hlinks, hx, hy, halike⟩ :=
    cancelling_text_alike (e := .stepwise)
      (s := { tapeSize := 1, eof := .keep, limit := none, trace := false }) hprogram htext
      (by decide) rfl (fun h => by cases h) [2] Output.emptyBuffer
  obtain rfl := Except.ok.inj (hlinks'.symm.trans rfl)
  obtain rfl := Except.ok.inj (hlinks.symm.trans rfl)
  obtain rfl := Except.ok.inj (hx.symm.trans rfl)
  obtain rfl := Except.ok.inj (hy.symm.trans rfl)
  -- both runs are computed, and end as they must
  obtain ⟨f', f, hf', hf, htape, -, hsink, -⟩ :=
    halike.ends (a := .ok _) (b := .ok _) ⟨20, rfl⟩ ⟨20, rfl⟩
  obtain rfl := Except.ok.inj hf'
  obtain rfl := Except.ok.inj hf
  exact ⟨hprogram, htext, _, _, _, _, _, _, hlinks', hlinks, hx, hy, ⟨20, rfl⟩, ⟨20, rfl⟩, htape,
    hsink, rfl, rfl, rfl, rfl⟩

end Execution

end RingTape
