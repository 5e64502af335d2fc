import RingTape.Proofs.Blocks
import RingTape.Proofs.Outcomes

/-!
Lines. A text falls into lines, each with the line feed at its end but the last, which may lack it.
A reader of lines hands out the first byte of one line after the other, whatever else stands in the
lines, so it can be replaced by the row of these bytes: no program can tell the difference
(`Execution.setUpAlike_ofOptions`).

The reader takes a line off its text in each read and knows nothing of the lines to come, while
`lines` goes through the text once, character by character. `lines_of_ne_nil` ties them together.
-/

namespace RingTape

open Text (CodecError Encoding)

/-- The lines of a text, each with the line feed at its end, if it has one. -/
def lines : List Char → List (List Char)
  | [] => []
  | c :: cs =>
    if c = '\n' then ['\n'] :: lines cs
    else match lines cs with
      | [] => [[c]]
      | l :: ls => (c :: l) :: ls

def firstBytes (cs : List Char) : List UInt8 :=
  (lines cs).filterMap fun l => (l.flatMap Text.utf8Bytes).head?

/-! ### The lines of a text -/

/-- The text falls into these lines: behind each line feed begins a new one, if there is anything
left. -/
inductive FallsInto : List Char → List (List Char) → Prop
  | nil : FallsInto [] []
  | last {l : List Char} (nonempty : l ≠ []) (unended : '\n' ∉ l) : FallsInto l [l]
  | cons {l cs : List Char} {ls : List (List Char)} (ended : '\n' ∉ l) (rest : FallsInto cs ls) :
      FallsInto (l ++ '\n' :: cs) ((l ++ ['\n']) :: ls)

section Lines

variable {cs : List Char} {ls : List (List Char)}

theorem fallsInto_lines (cs : List Char) : FallsInto cs (lines cs) := by
  induction cs with
  | nil => exact .nil
  | cons c cs ih =>
      rw [lines]
      split
      · rename_i hc
        subst hc
        exact .cons List.not_mem_nil ih
      · rename_i hc
        have hne {l : List Char} (h : '\n' ∉ l) : '\n' ∉ c :: l := by
          rw [List.mem_cons, not_or]
          exact ⟨Ne.symm hc, h⟩
        generalize lines cs = ls at ih
        cases ih with
        | nil => exact .last (List.cons_ne_nil c []) (hne List.not_mem_nil)
        | last _ unended => exact .last (List.cons_ne_nil c _) (hne unended)
        | cons ended rest => exact .cons (hne ended) rest

theorem FallsInto.flatten (h : FallsInto cs ls) : ls.flatten = cs := by
  induction h with
  | nil => rfl
  | last => simp
  | cons _ _ ih => simp [ih]

theorem FallsInto.ne_nil (h : FallsInto cs ls) : ∀ l ∈ ls, l ≠ [] := by
  induction h with
  | nil => exact fun l hl => absurd hl List.not_mem_nil
  | last nonempty => simpa using nonempty
  | cons _ _ ih => simpa using ih

/-- There is a line for each line feed, and one more if the text goes on behind the last. -/
theorem FallsInto.length (h : FallsInto cs ls) :
    ls.length = cs.count '\n' + if cs = [] ∨ cs.getLast? = some '\n' then 0 else 1 := by
  induction h with
  | nil => rfl
  | @last l nonempty unended =>
      have hlast : l.getLast? ≠ some '\n' := fun h => unended (List.mem_of_getLast? h)
      rw [if_neg (by simp [nonempty, hlast]), List.count_eq_zero.2 unended]
      rfl
  | @cons l cs ls ended rest ih =>
      have hiff : (l ++ '\n' :: cs = [] ∨ (l ++ '\n' :: cs).getLast? = some '\n') ↔
          (cs = [] ∨ cs.getLast? = some '\n') := by
        cases cs <;> simp
      simp only [hiff, List.length_cons, List.count_append, List.count_eq_zero.2 ended,
        List.count_cons_self, ih]
      omega

/-- A reader finds the first line first, and the others in what it leaves. -/
theorem lines_of_ne_nil (h : cs ≠ []) : lines cs = firstLine cs :: lines (afterFirstLine cs) := by
  induction cs with
  | nil => exact absurd rfl h
  | cons c cs ih =>
      rw [lines]
      split
      · rename_i hc
        subst hc
        rfl
      · rename_i hc
        have hfirst : firstLine (c :: cs) = c :: firstLine cs := by simp [firstLine, hc]
        have hafter : afterFirstLine (c :: cs) = afterFirstLine cs := by simp [afterFirstLine, hc]
        rw [hfirst, hafter]
        cases cs with
        | nil => rfl
        | cons d cs => rw [ih (List.cons_ne_nil d cs)]

theorem lines_of_not_mem (h : cs ≠ []) (hunended : '\n' ∉ cs) : lines cs = [cs] := by
  induction cs with
  | nil => exact absurd rfl h
  | cons c cs ih =>
      rw [List.mem_cons, not_or] at hunended
      rw [lines, if_neg (Ne.symm hunended.1)]
      cases cs with
      | nil => rfl
      | cons d cs => rw [ih (List.cons_ne_nil d cs) hunended.2]

/-- There is one way only for a text to fall into lines. -/
theorem fallsInto_iff : FallsInto cs ls ↔ ls = lines cs := by
  constructor
  · intro h
    induction h with
    | nil => rfl
    | last nonempty unended => exact (lines_of_not_mem nonempty unended).symm
    | cons ended rest ih =>
        obtain ⟨hfirst, hafter⟩ := line_of_not_mem ended
        rw [lines_of_ne_nil (by simp), hfirst, hafter, ih]
  · rintro rfl
    exact fallsInto_lines cs

end Lines

/-! ### First bytes -/

section Bytes

variable {cs l : List Char} {i : Nat}

theorem exists_head?_utf8Bytes (h : l ≠ []) : ∃ b, (l.flatMap Text.utf8Bytes).head? = some b := by
  obtain ⟨c, l, rfl⟩ := List.exists_cons_of_ne_nil h
  have hne : Text.utf8Bytes c ≠ [] := by
    rw [← List.length_pos_iff, Text.utf8Bytes, String.length_utf8EncodeChar]
    exact c.utf8Size_pos
  obtain ⟨b, bs, hbs⟩ := List.exists_cons_of_ne_nil hne
  exact ⟨b, by rw [List.flatMap_cons, hbs]; rfl⟩

theorem firstBytes_of_ne_nil (h : cs ≠ []) : ∃ b,
    ((firstLine cs).flatMap Text.utf8Bytes).head? = some b ∧
      firstBytes cs = b :: firstBytes (afterFirstLine cs) := by
  obtain ⟨b, hb⟩ := exists_head?_utf8Bytes (mt firstLine_eq_nil_iff.1 h)
  refine ⟨b, hb, ?_⟩
  simp only [firstBytes, lines_of_ne_nil h, List.filterMap_cons, hb]

/-- There is a first byte for each line. -/
theorem map_some_firstBytes (cs : List Char) :
    (firstBytes cs).map some = (lines cs).map fun l => (l.flatMap Text.utf8Bytes).head? := by
  have hne := (fallsInto_lines cs).ne_nil
  rw [firstBytes]
  generalize lines cs = ls at hne
  induction ls with
  | nil => rfl
  | cons l ls ih =>
      rw [List.forall_mem_cons] at hne
      obtain ⟨b, hb⟩ := exists_head?_utf8Bytes hne.1
      simp only [List.filterMap_cons, hb, List.map_cons, ih hne.2]

theorem getElem?_firstBytes (cs : List Char) (i : Nat) :
    (firstBytes cs)[i]? = (lines cs)[i]?.bind fun l => (l.flatMap Text.utf8Bytes).head? := by
  have h := congrArg (fun bs => bs[i]?) (map_some_firstBytes cs)
  simp only [List.getElem?_map] at h
  cases hl : (lines cs)[i]? <;> cases hb : (firstBytes cs)[i]? <;> simp_all

end Bytes

/-! ### Reads -/

/-- What the read at `i` comes to, when a source is read again and again. -/
def ByteSource.nth {ι : Type} [ByteSource ι] (source : ι) (i : Nat) :
    Except CodecError (Option UInt8) :=
  (read (after i source)).1

namespace LineReader

variable {encoding : String} {e : Encoding} {l : List Char}

/-- The read at `i` finds the line at `i`, whatever came of the reads before it. -/
theorem nth_eq (encoding : String) (cs : List Char) (i : Nat) :
    ByteSource.nth (⟨cs, encoding⟩ : LineReader) i =
      (lines cs)[i]?.elim (.ok none) (firstByte encoding) := by
  induction i generalizing cs with
  | zero =>
      show (read ⟨cs, encoding⟩).1 = _
      by_cases h : cs = []
      · subst h
        rfl
      · rw [lines_of_ne_nil h, read, if_neg h, List.getElem?_cons_zero, Option.elim_some]
  | succ i ih =>
      show ByteSource.nth (read ⟨cs, encoding⟩).2 i = _
      by_cases h : cs = []
      · subst h
        exact ih []
      · rw [lines_of_ne_nil h, read, if_neg h]
        exact ih (afterFirstLine cs)

theorem firstByte_eq (h : Encoding.ofName? encoding = some e) :
    firstByte encoding l = (e.encode l).map List.head? := by
  rw [firstByte, h]

/-- A line is encoded as a whole, so each of its characters can make the read fail. -/
theorem exists_firstByte_error_iff (h : Encoding.ofName? encoding = some e) :
    (∃ err, firstByte encoding l = .error err) ↔ ∃ c ∈ l, ¬ e.holds c := by
  rw [firstByte_eq h]
  cases hencode : e.encode l with
  | error err =>
      have hnot : ¬ ∀ c ∈ l, e.holds c := fun hall => by
        rw [Encoding.encode_eq_ok_iff.2 ⟨hall, rfl⟩] at hencode
        cases hencode
      simpa [Except.map] using hnot
  | ok bs => simpa [Except.map] using (Encoding.encode_eq_ok_iff.1 hencode).1

theorem firstByte_of_holds (h : Encoding.ofName? encoding = some e) (hall : ∀ c ∈ l, e.holds c) :
    firstByte encoding l = .ok (l.flatMap e.charBytes).head? := by
  rw [firstByte_eq h, Encoding.encode_eq_ok_iff.2 ⟨hall, rfl⟩]
  rfl

theorem nth_utf8 (cs : List Char) (i : Nat) :
    ByteSource.nth (⟨cs, "utf-8"⟩ : LineReader) i = .ok (firstBytes cs)[i]? := by
  rw [nth_eq, getElem?_firstBytes]
  cases (lines cs)[i]? with
  | none => rfl
  | some l =>
      rw [Option.elim_some]
      exact firstByte_of_holds Encoding.ofName?_utf8 fun c _ => Encoding.holds_utf8 c

structure ReadsFirstBytes (r : LineReader) (q : ByteQueue) : Prop where
  encoding : r.encoding = "utf-8"
  unread : q.unread = firstBytes r.unread

theorem readsFirstBytes (cs : List Char) : ReadsFirstBytes ⟨cs, "utf-8"⟩ ⟨firstBytes cs⟩ :=
  ⟨rfl, rfl⟩

/-- They are read alike, and what is left of them is again a reader and its row. -/
theorem answerAlike_readsFirstBytes (eof : EofPolicy) :
    ByteSource.AnswerAlike eof ReadsFirstBytes := by
  refine .of_read (fun r q h => ?_) eof
  obtain ⟨cs, encoding⟩ := r
  obtain ⟨bs⟩ := q
  obtain rfl : encoding = "utf-8" := h.encoding
  obtain rfl : bs = firstBytes cs := h.unread
  refine ⟨_, _, _, read_utf8 cs, ?_, readsFirstBytes (afterFirstLine cs)⟩
  by_cases hcs : cs = []
  · subst hcs
    rfl
  · obtain ⟨b, hb, hrow⟩ := firstBytes_of_ne_nil hcs
    rw [if_neg hcs, Encoding.encode_utf8, Except.map, hb, hrow]
    rfl

variable {κ : Type} [ByteSink κ]

/-- A reader of lines is the row of the first bytes of its lines. A text falls into its lines in one
way only, and each has one first byte in UTF-8, which is what the read of that number hands out; all
reads behind the last line find nothing. So every program runs alike on the reader and on the row of
bytes, on either engine, under any options and links. In another encoding a read fails just if there
is a character in its line that the encoding does not hold, and has nothing to do with the other
lines. -/
theorem reads_first_bytes (cs : List Char) :
    (∀ ls, FallsInto cs ls ↔ ls = lines cs) ∧ (lines cs).flatten = cs ∧
    (lines cs).length = cs.count '\n' + (if cs = [] ∨ cs.getLast? = some '\n' then 0 else 1) ∧
    (firstBytes cs).map some = (lines cs).map (fun l => (l.flatMap Text.utf8Bytes).head?) ∧
    (∀ i : Nat, (lines cs)[i]? = some ['\n'] → (firstBytes cs)[i]? = some 10) ∧
    (∀ i, ByteSource.nth (⟨cs, "utf-8"⟩ : LineReader) i = .ok (firstBytes cs)[i]?) ∧
    (∀ i, (lines cs).length ≤ i → ByteSource.nth (⟨cs, "utf-8"⟩ : LineReader) i = .ok none) ∧
    (∀ (e : Engine) (o : Options) (p : Program) (links : Option Links) (sink : κ),
      Execution.SetUpAlike
        (Execution.ofOptions e o p links (⟨cs, "utf-8"⟩ : LineReader) sink)
        (Execution.ofOptions e o p links (⟨firstBytes cs⟩ : ByteQueue) sink)) ∧
    ∀ (name : String) (e : Encoding), Encoding.ofName? name = some e → ∀ i : Nat,
      ((lines cs)[i]? = none → ByteSource.nth (⟨cs, name⟩ : LineReader) i = .ok none) ∧
      ∀ l, (lines cs)[i]? = some l →
        ((∃ err, ByteSource.nth (⟨cs, name⟩ : LineReader) i = .error err) ↔
          ∃ c ∈ l, ¬ e.holds c) ∧
        ((∀ c ∈ l, e.holds c) → ByteSource.nth (⟨cs, name⟩ : LineReader) i =
          .ok (l.flatMap e.charBytes).head?) := by
  have hfalls := fallsInto_lines cs
  refine ⟨fun ls => fallsInto_iff, hfalls.flatten, hfalls.length, map_some_firstBytes cs,
    fun i hi => ?_, nth_utf8 cs, fun i hi => ?_, fun e o p links sink => ?_,
    fun name e hname i => ⟨fun hi => ?_, fun l hl => ⟨?_, fun hall => ?_⟩⟩⟩
  · rw [getElem?_firstBytes, hi]
    rfl
  · rw [nth_eq, List.getElem?_eq_none hi]
    rfl
  · exact Execution.setUpAlike_ofOptions e o p links answerAlike_readsFirstBytes
      (readsFirstBytes cs) sink
  · rw [nth_eq, hi]
    rfl
  · rw [nth_eq, hl, Option.elim_some]
    exact exists_firstByte_error_iff hname
  · rw [nth_eq, hl, Option.elim_some]
    exact firstByte_of_holds hname hall

/-- A word, a blank line and a last line of one character that ASCII does not hold: two reads, and
a program that echoes four bytes. -/
theorem blank_line_and_accent_read :
    firstBytes ['a', 'b', '\n', '\n', 'é'] = [97, 10, 195] ∧
    ByteSource.nth (⟨['a', 'b', '\n', '\n', 'é'], "utf-8"⟩ : LineReader) 2 = .ok (some 195) ∧
    ByteSource.nth (⟨['a', 'b', '\n', '\n', 'é'], "ascii"⟩ : LineReader) 1 = .ok (some 10) ∧
    (∃ err, ByteSource.nth (⟨['a', 'b', '\n', '\n', 'é'], "ascii"⟩ : LineReader) 2 =
      .error err) ∧
    ∃ x y m r,
      Execution.ofOptions .stepwise {} (.ofString ",.,.,.,.") none
        (⟨['a', 'b', '\n', '\n', 'é'], "utf-8"⟩ : LineReader) Output.emptyBuffer = .ok x ∧
      Execution.ofOptions .stepwise {} (.ofString ",.,.,.,.") none
        (⟨[97, 10, 195]⟩ : ByteQueue) Output.emptyBuffer = .ok y ∧
      x.Settles (.ok (m.withSource r)) ∧ y.Settles (.ok m) ∧
      m.sink.bytes = #[97, 10, 195, 0] := by
  obtain ⟨-, -, -, -, -, hreads, -, hruns, hnamed⟩ :=
    reads_first_bytes (κ := Output) ['a', 'b', '\n', '\n', 'é']
  have hascii := hnamed "ascii" .ascii rfl
  obtain ⟨y, hy, m, hm, hbytes⟩ : ∃ y, Execution.ofOptions .stepwise {} (.ofString ",.,.,.,.") none
      (⟨[97, 10, 195]⟩ : ByteQueue) Output.emptyBuffer = .ok y ∧
      ∃ m, y.Settles (.ok m) ∧ m.sink.bytes = #[97, 10, 195, 0] := ⟨_, rfl, _, ⟨8, rfl⟩, rfl⟩
  have hrow : firstBytes ['a', 'b', '\n', '\n', 'é'] = [97, 10, 195] := rfl
  have hrun := hruns .stepwise {} (.ofString ",.,.,.,.") none .emptyBuffer
  rw [hrow, hy] at hrun
  obtain ⟨x, hx, halike⟩ := hrun.exists_ok
  obtain ⟨r, hr⟩ := halike.back hm
  refine ⟨hrow, hreads 2, ?_, ?_, x, y, m, r, hx, hy, hr, hm, hbytes⟩
  · refine ((hascii 1).2 ['\n'] rfl).2 fun c hc => ?_
    obtain rfl := List.mem_singleton.1 hc
    rfl
  · exact ((hascii 2).2 ['é'] rfl).1.2 ⟨'é', List.mem_singleton_self _, Bool.false_ne_true⟩

end LineReader

end RingTape
