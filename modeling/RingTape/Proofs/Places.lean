import Mathlib.Data.List.Forall2
import RingTape.Links.Resolve
import RingTape.Report
import RingTape.Source

/-!
Matching before and after stripping. A command has a place in its source and another among the
commands that are left when the comments are stripped, and the brackets can be matched in either.
The two passes keep in step: they skip nothing but comments, which neither of them minds, and
whenever one has a bracket waiting or links a pair, the other has the same in its own places
(`agrees_matchFrom`). So they accept the same sources, find the same pairs and blame the same
bracket.
-/

namespace RingTape

/-! ### Matching in step -/

namespace Source

open Command (isCommand)

def PairAt (places : Array Nat) (q r : Int × Int) : Prop :=
  ∃ o c i k : Nat, q = ((o : Int), (c : Int)) ∧ r = ((i : Int), (k : Int)) ∧
    places[o]? = some i ∧ places[c]? = some k

structure Waits (cs : List Char) (places : Array Nat) (k i : Nat) : Prop where
  place : places[k]? = some i
  symbol : cs[i]? = some '['

/-- What comes of matching the commands agrees with what comes of matching the source `cs`: the same
pairs in the same order, or the same fault at the same bracket. -/
inductive Agrees (cs : List Char) (places : Array Nat) :
    Except BracketFault Links → Except BracketFault Links → Prop
  | ok {l l' : Links} (pairs : List.Forall₂ (PairAt places) l.pairs.toList l'.pairs.toList) :
      Agrees cs places (.ok l) (.ok l')
  | error {q i : Nat} {c : Char} (place : places[q]? = some i) (symbol : cs[i]? = some c) :
      Agrees cs places (.error (.unmatched q (some (String.singleton c))))
        (.error (.unmatched i (some (String.singleton c))))

variable {cs : List Char} {places : Array Nat}

/-- The pass over the commands and the pass over the source keep in step. -/
theorem agrees_matchFrom
    (hplaces : ∀ {i c}, cs[i]? = some c → isCommand c = true → places[rank cs i]? = some i)
    {rest : List Char} {a : Nat} (hrest : cs.drop a = rest) {l l' : Links}
    (hl : List.Forall₂ (PairAt places) l.pairs.toList l'.pairs.toList) {ws ws' : List Nat}
    (hws : List.Forall₂ (Waits cs places) ws ws') :
    Agrees cs places (l.matchFrom ws (rank cs a) ((rest.filter isCommand).map .char))
      (l'.matchFrom ws' a (rest.map .char)) := by
  induction rest generalizing a l l' ws ws' with
  | nil =>
      cases hws with
      | nil => exact .ok hl
      | cons hw _ => exact .error hw.place hw.symbol
  | cons c rest ih =>
      have hc : cs[a]? = some c := by
        have := congrArg (fun l : List Char => l[0]?) hrest
        simpa using this
      have hrest' : cs.drop (a + 1) = rest := by
        rw [← List.drop_drop, hrest]
        rfl
      rw [List.map_cons]
      by_cases hcommand : isCommand c = true
      · have hplace := hplaces hc hcommand
        have hrank : rank cs (a + 1) = rank cs a + 1 := by rw [rank_succ hc, if_pos hcommand]
        rw [List.filter_cons_of_pos hcommand, List.map_cons]
        by_cases hbracket : (Symbol.char c).IsBracket
        · rcases hbracket with heq | heq
          · obtain rfl : c = '[' := Symbol.char.inj heq
            have := ih hrest' hl (.cons ⟨hplace, hc⟩ hws)
            rwa [hrank] at this
          · obtain rfl : c = ']' := Symbol.char.inj heq
            cases hws with
            | nil => exact .error hplace hc
            | @cons o i ws ws' hw hws =>
                have hpair : PairAt places ((o : Int), ((rank cs a : Nat) : Int)) (i, a) :=
                  ⟨o, rank cs a, i, a, rfl, rfl, hw.place, hplace⟩
                have hpairs : List.Forall₂ (PairAt places) (l.add o (rank cs a)).pairs.toList
                    (l'.add i a).pairs.toList := by
                  simp only [Links.pairs_add, Array.toList_push]
                  exact List.rel_append hl (.cons hpair .nil)
                have := ih hrest' hpairs hws
                rwa [hrank] at this
        · rw [Links.matchFrom_plain hbracket, Links.matchFrom_plain hbracket, ← hrank]
          exact ih hrest' hl hws
      · -- only the pass over the source sees a comment, and goes on
        have hplain := Symbol.not_isBracket_of_comment hcommand
        have hrank : rank cs (a + 1) = rank cs a := by
          rw [rank_succ hc, if_neg hcommand, Nat.add_zero]
        rw [List.filter_cons_of_neg hcommand, Links.matchFrom_plain hplain, ← hrank]
        exact ih hrest' hl hws

theorem agrees_resolve (text : String) :
    Agrees text.toList (stripWithPlaces text).2 (Program.ofString (stripWithPlaces text).1).resolve
      (Program.ofString text).resolve := by
  have hplaces : ∀ {i c}, text.toList[i]? = some c → isCommand c = true →
      (stripWithPlaces text).2[rank text.toList i]? = some i :=
    fun hc hcommand => getElem?_places_iff.2 ⟨_, hc, hcommand, rfl⟩
  have hnil : List.Forall₂ (PairAt (stripWithPlaces text).2) Links.empty.pairs.toList
      Links.empty.pairs.toList := .nil
  have := agrees_matchFrom hplaces List.drop_zero hnil .nil
  rwa [rank_zero, ← toList_strip, ← fst_stripWithPlaces, ← Program.toList_symbols_ofString,
    ← Program.toList_symbols_ofString] at this

/-! ### Matching before and after stripping -/

/-- The last line of a report on a bracket whose place in the source is known tells that place. -/
theorem exists_report_eq {f : BracketFault} {q : Nat} (hf : f.position = q)
    (h : places[q]? = some i) (program : String) (context : Int) :
    ∃ lines, f.report program context (some (places.map fun (k : Nat) => (k : Int))) =
      "\n".intercalate (lines ++ [f.sentence ++ s!" (source index {i})"]) := by
  have hnote : f.sourceNote (some (places.map fun (k : Nat) => (k : Int))) =
      s!" (source index {i})" := by
    simp only [BracketFault.sourceNote, hf, Int.natCast_nonneg, if_true, Int.toNat_natCast,
      Array.getElem?_map, h, Option.map_some]
    rfl
  rw [BracketFault.report, BracketFault.reportLines, hnote]
  exact ⟨_, rfl⟩

/-- Matching the brackets of `text` carries over to what is left of it when its comments are
stripped, where `places` tells the places. -/
structure Carries (text stripped : String) (places : Array Nat) : Prop where
  accepts : (∃ l', (Program.ofString text).resolve = .ok l') ↔
    ∃ l, (Program.ofString stripped).resolve = .ok l
  pairs {l l' : Links} : (Program.ofString stripped).resolve = .ok l →
    (Program.ofString text).resolve = .ok l' →
      List.Forall₂ (PairAt places) l.pairs.toList l'.pairs.toList
  refuses (q : Nat) (b : Option String) :
    (∃ f, (Program.ofString stripped).resolve = .error f ∧ f.position = q ∧ f.symbol = b) ↔
      ∃ i : Nat, places[q]? = some i ∧
        ∃ f, (Program.ofString text).resolve = .error f ∧ f.position = i ∧ f.symbol = b
  /-- The report on the stripped source tells where in the source the bracket stands that a report
  on the source would blame. -/
  report {f : BracketFault} : (Program.ofString stripped).resolve = .error f →
    ∃ (q i : Nat) (c : Char), f = .unmatched q (some (String.singleton c)) ∧
      places[q]? = some i ∧ text.toList[i]? = some c ∧
      (Program.ofString text).resolve = .error (.unmatched i (some (String.singleton c))) ∧
      ∀ context, ∃ lines,
        f.report stripped context (some (places.map fun (k : Nat) => (k : Int))) =
          "\n".intercalate (lines ++ [f.sentence ++ s!" (source index {i})"])

/-- Brackets are matched, or blamed, in the same way before and after the comments are stripped. -/
theorem stripWithPlaces_carries (text : String) :
    Carries text (stripWithPlaces text).1 (stripWithPlaces text).2 := by
  have hinj : ∀ {q q' i : Nat}, (stripWithPlaces text).2[q]? = some i →
      (stripWithPlaces text).2[q']? = some i → q = q' := place_injective
  have hagrees := agrees_resolve text
  generalize (stripWithPlaces text).1 = stripped at hagrees ⊢
  generalize (stripWithPlaces text).2 = places at hagrees hinj ⊢
  generalize hstripped : (Program.ofString stripped).resolve = r at hagrees
  generalize htext : (Program.ofString text).resolve = r' at hagrees
  cases hagrees with
  | @ok l l' pairs =>
      refine ⟨⟨fun _ => ⟨l, hstripped⟩, fun _ => ⟨l', htext⟩⟩, fun hl hl' => ?_, fun q b => ?_,
        fun hf => ?_⟩
      · cases hl.symm.trans hstripped
        cases hl'.symm.trans htext
        exact pairs
      · constructor
        · rintro ⟨f, hf, -⟩
          cases hf.symm.trans hstripped
        · rintro ⟨i, -, f, hf, -⟩
          cases hf.symm.trans htext
      · cases hf.symm.trans hstripped
  | @error q i c place symbol =>
      refine ⟨⟨fun ⟨_, hl⟩ => ?_, fun ⟨_, hl⟩ => ?_⟩, fun hl _ => ?_, fun k b => ?_, fun hf => ?_⟩
      · cases hl.symm.trans htext
      · cases hl.symm.trans hstripped
      · cases hl.symm.trans hstripped
      · constructor
        · rintro ⟨f, hf, hk, rfl⟩
          cases hf.symm.trans hstripped
          obtain rfl : q = k := Int.natCast_inj.1 (by simpa using hk)
          exact ⟨i, place, _, htext, by simp, by simp⟩
        · rintro ⟨i', hk, f, hf, hi, rfl⟩
          cases hf.symm.trans htext
          obtain rfl : i = i' := Int.natCast_inj.1 (by simpa using hi)
          obtain rfl := hinj place hk
          exact ⟨_, hstripped, by simp, by simp⟩
      · cases hf.symm.trans hstripped
        exact ⟨q, i, c, rfl, place, symbol, htext, fun context =>
          exists_report_eq (BracketFault.position_unmatched _ _) place _ _⟩

end Source

end RingTape
