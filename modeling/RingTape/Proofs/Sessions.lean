import RingTape.CommandLine.Session
import RingTape.Proofs.Blocks
import RingTape.Proofs.Delivery

/-!
Sessions report results. A session of the command line does nothing to a program but what an
interpretation of its text does, and says of the result what `Reports` lists: three outcomes, with
an exit code and an output for each. That the engine and the trace do not show, nor that lines come
from a console and output goes through a tee to a stream, is known from interpretations; here only
the way from the arguments to the interpretation and from its answer to the ending is left.
-/

namespace RingTape.CommandLine

open Interpretation (Yields Shows)
open Text (Encoding Newlines)

/-- The options that say what is to be done, with the others left as they are when nothing is
asked. -/
def Arguments.plain (a : Arguments) : Options where
  tapeSize := a.tapeSize
  eof := .text a.eof.name
  limit := a.maxSteps

def Arguments.interpretation (a : Arguments) (source : String) (input : Console) :
    Interpretation Input :=
  .begin source a.options (.console input) (some .emptyStream)

/-- The texts that a session works on: that of its program, and what the program may read. A file
has its line ends unified, and the standard input is opened with `newlines`. When the program comes
from the standard input, nothing is left to be read. -/
inductive Feeds (a : Arguments) (read : String → Except FileError (List UInt8))
    (stdin : List UInt8) (newlines : Newlines) : String → String → Prop
  | file {path source text : String} {bytes : List UInt8} (named : a.path? = some path)
      (found : read path = .ok bytes) (program : Encoding.utf8.text .unified bytes = .ok source)
      (input : Encoding.utf8.text newlines stdin = .ok text) :
      Feeds a read stdin newlines source text
  | stdin {source : String} (unnamed : a.path? = none)
      (program : Encoding.utf8.text newlines stdin = .ok source) :
      Feeds a read stdin newlines source ""

/-- What running the source on a text that is read line by line results in. -/
def Computes (o : Options) (source text : String) (result : Except Failure Result) : Prop :=
  Yields (.begin source o (⟨text.toList, "utf-8"⟩ : LineReader) none) result

inductive Reports (source : String) (r : Result) : Except Crash Nat → String → Prop
  | done (ok : r.ok = true) (error : r.error = none) :
      Reports source r (.ok 0) (r.text ++ "\n")
  | refused {f : BracketFault} (ok : r.ok = false) (error : r.error = some (.bracket f)) :
      Reports source r (.ok 1)
        (f.report r.program BracketFault.defaultContext
          (some ((Source.stripWithPlaces source).2.map fun (k : Nat) => (k : Int))) ++ "\n")
  | stopped {f : LimitFault} (ok : r.ok = false) (error : r.error = some (.limit f)) :
      Reports source r (.ok 2) r.text

theorem Reports.unique {source : String} {r : Result} {exit exit' : Except Crash Nat}
    {out out' : String} (h : Reports source r exit out) (h' : Reports source r exit' out') :
    exit' = exit ∧ out' = out := by
  cases h with
  | done _ error =>
      cases h' with
      | done => exact ⟨rfl, rfl⟩
      | refused _ error' => cases error.symm.trans error'
      | stopped _ error' => cases error.symm.trans error'
  | refused _ error =>
      cases h' with
      | done _ error' => cases error.symm.trans error'
      | refused _ error' =>
          cases error.symm.trans error'
          exact ⟨rfl, rfl⟩
      | stopped _ error' => cases error.symm.trans error'
  | stopped _ error =>
      cases h' with
      | done _ error' => cases error.symm.trans error'
      | refused _ error' => cases error.symm.trans error'
      | stopped => exact ⟨rfl, rfl⟩

/-! ### Results -/

section Results

variable {a : Arguments} {source text : String} {c : Console} {result : Except Failure Result}

theorem ofScalar?_plain (a : Arguments) : EofPolicy.ofScalar? a.plain.eof = some a.eof :=
  EofPolicy.ofName?_name a.eof

theorem runnable_plain (hsize : 1 ≤ a.tapeSize) : a.plain.Runnable .stepwise a.eof :=
  ⟨Engine.ofScalar?_name .stepwise, ofScalar?_plain a, hsize⟩

theorem runnable_options (hsize : 1 ≤ a.tapeSize) :
    a.options.Runnable (if a.burst then .burst else .stepwise) a.eof :=
  Options.runnable_on (ofScalar?_plain a) hsize _ a.trace

/-- Brackets without a partner, or matched brackets and one of the outcomes of a run. -/
theorem Computes.cases (hsize : 1 ≤ a.tapeSize) (h : Computes a.plain source text result) :
    (∃ f, (Program.ofString (Source.strip source)).resolve = .error f ∧
      result = .ok (.refused source f)) ∨
    ∃ r, result = .ok r ∧ (r.Complete a.plain ∨ ∃ limit, r.Stopped limit) := by
  obtain ⟨source', sink, h⟩ := h
  cases hp : (Program.ofString (Source.strip source)).resolve with
  | error f =>
      exact Or.inl ⟨f, rfl, (Prod.mk.inj ((Interpretation.shows_iff_of_fault hp).1 h)).1⟩
  | ok links =>
      obtain ⟨r, rfl, -, -, hcases⟩ := Interpretation.exists_result_of_shows hp
        (runnable_plain hsize) (LineReader.unfailing_utf8 _) h
      refine Or.inr ⟨r, rfl, hcases.imp_right ?_⟩
      rintro ⟨limit, -, hstopped, -⟩
      exact ⟨limit, hstopped⟩

theorem Computes.exists_reports (hsize : 1 ≤ a.tapeSize)
    (h : Computes a.plain source text result) :
    ∃ r exit out, result = .ok r ∧ Reports source r exit out := by
  rcases h.cases hsize with ⟨f, -, rfl⟩ | ⟨r, rfl, hcomplete | ⟨limit, hstopped⟩⟩
  · exact ⟨_, _, _, rfl, .refused rfl rfl⟩
  · exact ⟨r, _, _, rfl, .done hcomplete.ok hcomplete.error⟩
  · obtain ⟨place, herror⟩ := hstopped.error
    exact ⟨r, _, _, rfl, .stopped hstopped.ok herror⟩

/-- A run does not come upon a bracket without a partner. -/
theorem Computes.resolve_of_bracket (hsize : 1 ≤ a.tapeSize) {r : Result} {f : BracketFault}
    (h : Computes a.plain source text (.ok r)) (herror : r.error = some (.bracket f)) :
    ∃ f, (Program.ofString (Source.strip source)).resolve = .error f := by
  rcases h.cases hsize with ⟨f, hp, -⟩ | ⟨r', hr, hcomplete | ⟨limit, hstopped⟩⟩
  · exact ⟨f, hp⟩
  · obtain rfl := Except.ok.inj hr
    cases hcomplete.error.symm.trans herror
  · obtain rfl := Except.ok.inj hr
    obtain ⟨place, hlimit⟩ := hstopped.error
    cases hlimit.symm.trans herror

/-- What a session works on comes to the same result as the plain interpretation of the texts. -/
theorem yields_iff_computes (hsize : 1 ≤ a.tapeSize) (hholds : c.Holds text.toList) :
    Yields (a.interpretation source c) result ↔ Computes a.plain source text result := by
  have hlines : Input.ReadsLines (.console c) ⟨text.toList, "utf-8"⟩ := ⟨⟨_, rfl, hholds⟩, rfl⟩
  show Yields (.begin source (a.plain.on (if a.burst then .burst else .stepwise) a.trace) _ _)
    result ↔ Yields (.begin source (a.plain.on .stepwise false) _ _) result
  exact Interpretation.yields_iff (ofScalar?_plain a) hsize (Input.answerAlike_readsLines a.eof)
    hlines _ .stepwise a.trace false

/-- A console that holds a text does not fail. -/
theorem unfailing_console {t : List Char} (h : c.Holds t) :
    ByteSource.Unfailing (Input.console c) := by
  refine ByteSource.unfailing_of_invariant (P := fun q : Input => ∃ c t, q = .console c ∧ c.Holds t)
    (fun q hq => ?_) ⟨c, t, rfl, h⟩
  obtain ⟨c, t, rfl, h⟩ := hq
  obtain ⟨d, hd, hread⟩ := h.exists_read
  obtain ⟨b, source', hok⟩ := LineReader.unfailing_utf8 t 0
  have hfirst := (Prod.mk.inj ((LineReader.read_utf8 t).symm.trans hok)).1
  refine ⟨b, .console d, ?_, d, _, rfl, hd⟩
  show Input.read (.console c) = _
  simp only [Input.read, hread, hfirst]

/-- The stream behind the tee is given the output of the result, as characters. -/
theorem behind?_of_shows (hsize : 1 ≤ a.tapeSize) {source' : Input} {sink : Output}
    (hholds : c.Holds text.toList)
    (h : (a.interpretation source c).Shows (result, source', sink)) :
    ∃ r, result = .ok r ∧ Computes a.plain source text (.ok r) ∧
      sink.behind? = some (.stream r.output r.text) := by
  have hcomputes := (yields_iff_computes hsize hholds).1 ⟨_, _, h⟩
  cases hp : (Program.ofString (Source.strip source)).resolve with
  | error f =>
      obtain ⟨rfl, hends⟩ := Prod.mk.inj ((Interpretation.shows_iff_of_fault hp).1 h)
      obtain ⟨-, rfl⟩ := Prod.mk.inj hends
      exact ⟨_, rfl, hcomputes, rfl⟩
  | ok links =>
      obtain ⟨r, rfl, -, hsink, -⟩ := Interpretation.exists_result_of_shows hp
        (runnable_options hsize) (unfailing_console hholds) h
      refine ⟨r, rfl, hcomputes, ?_⟩
      rw [hsink, Option.map_some, Output.writeAll_emptyStream]
      rfl

end Results

namespace Session

variable {a : Arguments} {source text : String} {argv : List String}
  {read : String → Except FileError (List UInt8)} {stdin bytes : List UInt8}
  {newlines : Newlines} {c : Console} {exit : Except Crash Nat} {out : String} {r : Result}

def Ends (s : Session) (exit : Except Crash Nat) (out : String) : Prop :=
  ∃ n e, s.advance n = .settled e ∧ e.exit = exit ∧ e.out = out

/-! ### Endings -/

theorem advance_ofInterpretation (n : Nat) (a : Arguments) (source : String)
    (i : Interpretation Input) :
    (ofInterpretation a source i).advance n = ofInterpretation a source (i.advance n) := by
  cases i <;> rfl

theorem ofInterpretation_eq_settled_iff {i : Interpretation Input} {e : Ending} :
    ofInterpretation a source i = .settled e ↔
      ∃ answer, i = .settled answer ∧ conclude a source answer = e := by
  cases i <;> simp [ofInterpretation]

theorem ends_interpret_iff : (interpret a source c).Ends exit out ↔ ∃ n answer,
    (a.interpretation source c).advance n = .settled answer ∧
    (conclude a source answer).exit = exit ∧ (conclude a source answer).out = out := by
  show (∃ n e, (ofInterpretation a source (a.interpretation source c)).advance n = .settled e ∧
    e.exit = exit ∧ e.out = out) ↔ _
  simp only [advance_ofInterpretation, ofInterpretation_eq_settled_iff]
  constructor
  · rintro ⟨n, -, ⟨answer, h, rfl⟩, hexit, hout⟩
    exact ⟨n, answer, h, hexit, hout⟩
  · rintro ⟨n, answer, h, hexit, hout⟩
    exact ⟨n, _, ⟨answer, h, rfl⟩, hexit, hout⟩

/-- A session concludes with the report on its result. -/
theorem reports_conclude {answer : Answer Input} (hresult : answer.result = .ok r)
    (hbytes : answer.sink.bytes = r.output)
    (hcases : (∃ f, r = .refused source f) ∨ r.Complete a.plain ∨ ∃ limit, r.Stopped limit) :
    Reports source r (conclude a source answer).exit (conclude a source answer).out := by
  have hwritten : written answer.sink = r.text := congrArg textOfBytes hbytes
  rcases hcases with ⟨f, rfl⟩ | hcomplete | ⟨limit, hstopped⟩
  · have hempty : written answer.sink = "" := hwritten
    simp only [conclude, hresult, hempty, String.empty_append]
    exact .refused rfl rfl
  · simp only [conclude, hresult, hcomplete.error, hwritten]
    exact .done hcomplete.ok hcomplete.error
  · obtain ⟨place, herror⟩ := hstopped.error
    simp only [conclude, hresult, herror, hwritten]
    exact .stopped hstopped.ok herror

/-- An answer that a session comes to has the result of its texts, and is reported. -/
theorem exists_reports_of_settled (hsize : 1 ≤ a.tapeSize)
    (hholds : c.Holds text.toList) {n : Nat} {answer : Answer Input}
    (h : (a.interpretation source c).advance n = .settled answer) :
    ∃ r, answer.result = .ok r ∧ Computes a.plain source text (.ok r) ∧
      Reports source r (conclude a source answer).exit (conclude a source answer).out := by
  have hshows : Shows _ (answer.result, answer.source, answer.sink) := ⟨n, answer, h, rfl⟩
  have hcomputes := (yields_iff_computes hsize hholds).1 ⟨_, _, hshows⟩
  obtain ⟨r, hresult, hcases⟩ : ∃ r, answer.result = .ok r ∧
      ((∃ f, r = .refused source f) ∨ r.Complete a.plain ∨ ∃ limit, r.Stopped limit) := by
    rcases hcomputes.cases hsize with ⟨f, -, hresult⟩ | ⟨r, hresult, hcases⟩
    · exact ⟨_, hresult, Or.inl ⟨f, rfl⟩⟩
    · exact ⟨r, hresult, Or.inr hcases⟩
  rw [hresult] at hshows hcomputes
  have hbytes := Interpretation.bytes_of_shows (runnable_options hsize) hshows
  exact ⟨r, hresult, hcomputes, reports_conclude hresult hbytes hcases⟩

/-- A session ends with the report on the result of its texts, or not at all if there is none. -/
theorem ends_interpret_iff_reports (hsize : 1 ≤ a.tapeSize) (hholds : c.Holds text.toList) :
    (interpret a source c).Ends exit out ↔
      ∃ r, Computes a.plain source text (.ok r) ∧ Reports source r exit out := by
  rw [ends_interpret_iff]
  constructor
  · rintro ⟨n, answer, h, rfl, rfl⟩
    obtain ⟨r, -, hcomputes, hr⟩ := exists_reports_of_settled hsize hholds h
    exact ⟨r, hcomputes, hr⟩
  · rintro ⟨r, hcomputes, hr⟩
    obtain ⟨source', sink, n, answer, h, hsight⟩ := (yields_iff_computes hsize hholds).2 hcomputes
    obtain ⟨r', hresult, -, hr'⟩ := exists_reports_of_settled hsize hholds h
    obtain rfl : r' = r := Except.ok.inj (hresult.symm.trans (Prod.mk.inj hsight).1)
    obtain ⟨hexit, hout⟩ := hr.unique hr'
    exact ⟨n, answer, h, hexit, hout⟩

theorem eq_of_interpret_eq_working {i : Interpretation Input}
    (h : interpret a source c = .working a source i) : a.interpretation source c = i := by
  unfold interpret ofInterpretation at h
  split at h
  · cases h
  · exact (Session.working.inj h).2.2

/-- Brackets without a partner settle a session before anything is done, and nothing depends on
what could have been read. -/
theorem exists_interpret_of_fault {f : BracketFault}
    (h : (Program.ofString (Source.strip source)).resolve = .error f) (a : Arguments) :
    ∃ e, ∀ c, interpret a source c = .settled e := by
  let answer : Answer Input :=
    { result := .ok (.refused source f)
      source := .console { unread := [] }
      sink := Interpretation.outermost (some .emptyStream)
      events := [.refused f] }
  refine ⟨conclude a source answer, fun c => ?_⟩
  rw [interpret, Interpretation.begin_of_fault h]
  rfl

/-! ### Beginnings -/

theorem begin_of_file (ha : parse argv = .ok (.run a)) (hsize : 1 ≤ a.tapeSize) {path : String}
    (named : a.path? = some path) (found : read path = .ok bytes)
    (program : Encoding.utf8.text .unified bytes = .ok source) (stdin : List UInt8)
    (newlines : Newlines) : Session.begin argv read stdin newlines =
      interpret a source { unread := stdin, newlines } := by
  simp only [Session.begin, ha, if_neg (Int.not_lt.2 hsize), named, found, Except.mapError]
  simp only [bind, Except.bind, sourceOfFile, program, Except.mapError]

theorem begin_of_stdin (ha : parse argv = .ok (.run a)) (hsize : 1 ≤ a.tapeSize)
    (unnamed : a.path? = none) (program : Encoding.utf8.text newlines stdin = .ok source) :
    Session.begin argv read stdin newlines = interpret a source { unread := [], newlines } := by
  simp only [Session.begin, ha, if_neg (Int.not_lt.2 hsize), unnamed, program]

/-- A session interprets its program, with a console that holds the other text. -/
theorem exists_begin_eq (ha : parse argv = .ok (.run a)) (hsize : 1 ≤ a.tapeSize)
    (hfeeds : Feeds a read stdin newlines source text) : ∃ c,
      Session.begin argv read stdin newlines = interpret a source c ∧ c.Holds text.toList := by
  cases hfeeds with
  | file named found program input =>
      exact ⟨_, begin_of_file ha hsize named found program stdin newlines,
        Console.holds_of_text input⟩
  | stdin unnamed program =>
      exact ⟨_, begin_of_stdin ha hsize unnamed program, Console.holds_ready newlines []⟩

/-- Where there are no bytes, every read comes to the end of the input. -/
theorem read_after_nil (newlines : Newlines) (n : Nat) :
    (ByteSource.read (ByteSource.after n (Input.console { unread := [], newlines }))).1 =
      .ok none := by
  have hread : ByteSource.read (Input.console { unread := [], newlines }) =
      (.ok none, Input.console { unread := [], newlines }) := by
    show Input.read (.console { unread := [], newlines }) = _
    rw [Input.read, Console.read_nil]
  induction n with
  | zero => rw [ByteSource.after, hread]
  | succ n ih =>
      rw [ByteSource.after, hread]
      exact ih

theorem ends_begin_iff (ha : parse argv = .ok (.run a)) (hsize : 1 ≤ a.tapeSize)
    (hfeeds : Feeds a read stdin newlines source text) :
    (Session.begin argv read stdin newlines).Ends exit out ↔
      ∃ r, Computes a.plain source text (.ok r) ∧ Reports source r exit out := by
  obtain ⟨c, hbegin, hholds⟩ := exists_begin_eq ha hsize hfeeds
  rw [hbegin]
  exact ends_interpret_iff_reports hsize hholds

/-- Of a program that is refused, a session tells without working on it. -/
theorem exists_begin_settled (ha : parse argv = .ok (.run a)) (hsize : 1 ≤ a.tapeSize)
    (hfeeds : Feeds a read stdin newlines source text) {f : BracketFault}
    (hp : (Program.ofString (Source.strip source)).resolve = .error f) :
    ∃ e, Session.begin argv read stdin newlines = .settled e ∧
      (a.path? ≠ none → ∀ stdin', Session.begin argv read stdin' newlines = .settled e) := by
  obtain ⟨e, he⟩ := exists_interpret_of_fault hp a
  refine ⟨e, ?_, fun hpath stdin' => ?_⟩
  · obtain ⟨c, hbegin, -⟩ := exists_begin_eq ha hsize hfeeds
    exact hbegin.trans (he c)
  · cases hfeeds with
    | file named found program input =>
        exact (begin_of_file ha hsize named found program stdin' newlines).trans (he _)
    | stdin unnamed program => exact absurd unnamed hpath

/-- Every text can be fed to a program from a file, except for one with a carriage return when the
line ends of the standard input are unified. -/
theorem exists_feeds_iff (hfeeds : Feeds a read stdin newlines source text)
    (hpath : a.path? ≠ none) {text' : String} :
    (∃ stdin', Feeds a read stdin' newlines source text') ↔
      (newlines = .unified → '\r' ∉ text'.toList) := by
  rw [← Encoding.exists_text_eq_iff]
  constructor
  · rintro ⟨stdin', h⟩
    cases h with
    | file _ _ _ input => exact ⟨stdin', input⟩
    | stdin unnamed => exact absurd unnamed hpath
  · rintro ⟨stdin', input⟩
    cases hfeeds with
    | file named found program => exact ⟨stdin', .file named found program input⟩
    | stdin unnamed => exact absurd unnamed hpath

/-- The command line reports exactly what its texts result in. It ends with the report on the
result, of which there is one of three kinds, and if there is no result, it does not end. A bracket
without a partner is told before anything is read or written; otherwise all that the program writes
goes to the stream. Other arguments that give the same texts, tape, policy and limit make no
difference, whatever they say of the engine, of the trace and of what else is told; and a program
that comes from the standard input is run as if it came from a file and there was no input. Whether
the line ends of the standard input are kept or unified, all that can be its text is fed. -/
theorem ends_with_report (ha : parse argv = .ok (.run a)) (hsize : 1 ≤ a.tapeSize)
    (hfeeds : Feeds a read stdin newlines source text) :
    (∀ exit out, (Session.begin argv read stdin newlines).Ends exit out ↔
      ∃ r, Computes a.plain source text (.ok r) ∧ Reports source r exit out) ∧
    (∀ result, Computes a.plain source text result →
      ∃ r exit out, result = .ok r ∧ Reports source r exit out) ∧
    (∀ r f, Computes a.plain source text (.ok r) → r.error = some (.bracket f) →
      (∃ e, Session.begin argv read stdin newlines = .settled e ∧
        (a.path? ≠ none → ∀ stdin', Session.begin argv read stdin' newlines = .settled e)) ∧
      ∀ q : Input, ∃ answer, Interpretation.begin source a.options q (some .emptyStream) =
        .settled answer ∧ answer.source = q ∧ answer.sink = .teeTo .emptyStream) ∧
    (∀ i result source' sink, Session.begin argv read stdin newlines = .working a source i →
      i.Shows (result, source', sink) → ∃ r, result = .ok r ∧
        Computes a.plain source text (.ok r) ∧ sink.behind? = some (.stream r.output r.text)) ∧
    (∀ argv' a' read' stdin' newlines', parse argv' = .ok (.run a') → a'.tapeSize = a.tapeSize →
      a'.eof = a.eof → a'.maxSteps = a.maxSteps → Feeds a' read' stdin' newlines' source text →
      ∀ exit out, (Session.begin argv' read' stdin' newlines').Ends exit out ↔
        (Session.begin argv read stdin newlines).Ends exit out) ∧
    (a.path? = none → text = "" ∧
      Session.begin argv read stdin newlines = interpret a source { unread := [], newlines } ∧
      ∀ n, (ByteSource.read (ByteSource.after n (Input.console { unread := [], newlines }))).1 =
        .ok none) ∧
    (a.path? ≠ none → ∀ text' : String, (∃ stdin', Feeds a read stdin' newlines source text') ↔
      (newlines = .unified → '\r' ∉ text'.toList)) := by
  refine ⟨fun exit out => ends_begin_iff ha hsize hfeeds, fun result h => h.exists_reports hsize,
    fun r f h herror => ?_, fun i result source' sink hworking hshows => ?_,
    fun argv' a' read' stdin' newlines' ha' htape heof hlimit hfeeds' exit out => ?_,
    fun hpath => ?_, fun hpath text' => exists_feeds_iff hfeeds hpath⟩
  · obtain ⟨f, hp⟩ := h.resolve_of_bracket hsize herror
    refine ⟨exists_begin_settled ha hsize hfeeds hp, fun q => ?_⟩
    exact ⟨_, Interpretation.begin_of_fault hp a.options q _, rfl, rfl⟩
  · obtain ⟨c, hbegin, hholds⟩ := exists_begin_eq ha hsize hfeeds
    obtain rfl := eq_of_interpret_eq_working (hbegin.symm.trans hworking)
    exact behind?_of_shows hsize hholds hshows
  · have hplain : a'.plain = a.plain := by simp only [Arguments.plain, htape, heof, hlimit]
    rw [ends_begin_iff ha' (htape ▸ hsize) hfeeds', ends_begin_iff ha hsize hfeeds, hplain]
  · cases hfeeds with
    | file named => cases hpath.symm.trans named
    | stdin unnamed program =>
        exact ⟨rfl, begin_of_stdin ha hsize unnamed program, read_after_nil newlines⟩

/-- An echo in bursts, which shows the line end or not as the standard input was opened; the same
program from the standard input; a bracket without a partner behind a comment; and a loop that is
stopped. -/
theorem echo_reported :
    (parse ["p", "--jit"] = .ok (.run { file := some "p", burst := true }) ∧
      Feeds { file := some "p", burst := true } (fun _ => .ok [44, 46]) [13, 10] .kept ",." "\r\n" ∧
      (Session.begin ["p", "--jit"] (fun _ => .ok [44, 46]) [13, 10] .kept).Ends (.ok 0) "\r\n" ∧
      Feeds { file := some "p", burst := true } (fun _ => .ok [44, 46]) [13, 10] .unified ",."
        "\n" ∧
      (Session.begin ["p", "--jit"] (fun _ => .ok [44, 46]) [13, 10] .unified).Ends (.ok 0)
        "\n\n") ∧
    (parse [] = .ok (.run {}) ∧ Feeds {} (fun _ => .ok []) [44, 46] .kept ",." "" ∧
      (Session.begin [] (fun _ => .ok []) [44, 46] .kept).Ends (.ok 0) "\x00\n") ∧
    (parse ["p"] = .ok (.run { file := some "p" }) ∧
      Feeds { file := some "p" } (fun _ => .ok [97, 93]) [] .kept "a]" "" ∧
      (Session.begin ["p"] (fun _ => .ok [97, 93]) [] .kept).Ends (.ok 1)
        ("Sorry! Your program could not be run.\n]\n^\nThe closing bracket at index 0 does not " ++
          "have a matching opening bracket (source index 1)\n")) ∧
    parse ["p", "--max-steps", "5"] = .ok (.run { file := some "p", maxSteps := some 5 }) ∧
      Feeds { file := some "p", maxSteps := some 5 } (fun _ => .ok [43, 91, 46, 93]) [] .kept "+[.]"
        "" ∧
      (Session.begin ["p", "--max-steps", "5"] (fun _ => .ok [43, 91, 46, 93]) [] .kept).Ends
        (.ok 2) "\x01\x01" := by
  have hword : classify "p" = .ok (.word "p") := by simp [classify]
  have hfive : classify "5" = .ok (.word "5") := by simp [classify]
  have hburst : classify "--jit" = .ok (.switch .burst false none) := by
    have hname : Switch.ofName? "--jit" = some .burst := rfl
    simp [classify, hname]
  have hsteps : classify "--max-steps" = .ok (.switch .maxSteps false none) := by
    have hname : Switch.ofName? "--max-steps" = some .maxSteps := rfl
    simp [classify, hname]
  have hparse : parse ["p", "--jit"] = .ok (.run { file := some "p", burst := true }) := by
    simp only [parse, tokens, hword, hburst]
    rfl
  have hparse₀ : parse [] = .ok (.run {}) := rfl
  have hparse₁ : parse ["p"] = .ok (.run { file := some "p" }) := by
    simp only [parse, tokens, hword]
    rfl
  have hparse₂ : parse ["p", "--max-steps", "5"] =
      .ok (.run { file := some "p", maxSteps := some 5 }) := by
    simp only [parse, tokens, hword, hsteps, hfive]
    rfl
  have hempty : Encoding.utf8.text .kept [] = .ok "" := Encoding.text_utf8Bytes .kept []
  have hecho : ∀ newlines, Encoding.utf8.text newlines [44, 46] = .ok ",."
    | .kept => Encoding.text_utf8Bytes .kept [',', '.']
    | .unified => Encoding.text_utf8Bytes .unified [',', '.']
  have hkept : Encoding.utf8.text .kept [13, 10] = .ok "\r\n" :=
    Encoding.text_utf8Bytes .kept ['\r', '\n']
  have hunified : Encoding.utf8.text .unified [13, 10] = .ok "\n" :=
    Encoding.text_utf8Bytes .unified ['\r', '\n']
  have hlone : Encoding.utf8.text .unified [97, 93] = .ok "a]" :=
    Encoding.text_utf8Bytes .unified ['a', ']']
  have hloop : Encoding.utf8.text .unified [43, 91, 46, 93] = .ok "+[.]" :=
    Encoding.text_utf8Bytes .unified ['+', '[', '.', ']']
  have hfeeds : Feeds { file := some "p", burst := true } (fun _ => .ok [44, 46]) [13, 10] .kept
      ",." "\r\n" := .file rfl rfl (hecho _) hkept
  have hfeeds' : Feeds { file := some "p", burst := true } (fun _ => .ok [44, 46]) [13, 10]
      .unified ",." "\n" := .file rfl rfl (hecho _) hunified
  have hfeeds₀ : Feeds {} (fun _ => .ok []) [44, 46] .kept ",." "" := .stdin rfl (hecho _)
  have hfeeds₁ : Feeds { file := some "p" } (fun _ => .ok [97, 93]) [] .kept "a]" "" :=
    .file rfl rfl hlone hempty
  have hfeeds₂ : Feeds { file := some "p", maxSteps := some 5 } (fun _ => .ok [43, 91, 46, 93]) []
      .kept "+[.]" "" := .file rfl rfl hloop hempty
  have hreport : (BracketFault.unmatched 0 (some "]")).report "]" BracketFault.defaultContext
      (some ((Source.stripWithPlaces "a]").2.map fun (k : Nat) => (k : Int))) ++ "\n" =
      "Sorry! Your program could not be run.\n]\n^\nThe closing bracket at index 0 does not " ++
        "have a matching opening bracket (source index 1)\n" := by decide +kernel
  obtain ⟨hends, -⟩ := ends_with_report hparse (by decide) hfeeds
  obtain ⟨hends', -⟩ := ends_with_report hparse (by decide) hfeeds'
  obtain ⟨hends₀, -⟩ := ends_with_report hparse₀ (by decide) hfeeds₀
  obtain ⟨hends₁, -⟩ := ends_with_report hparse₁ (by decide) hfeeds₁
  obtain ⟨hends₂, -⟩ := ends_with_report hparse₂ (by decide) hfeeds₂
  refine ⟨⟨hparse, hfeeds, ?_, hfeeds', ?_⟩, ⟨hparse₀, hfeeds₀, ?_⟩, ⟨hparse₁, hfeeds₁, ?_⟩,
    hparse₂, hfeeds₂, ?_⟩
  · exact (hends _ _).2 ⟨_, ⟨_, _, 3, _, rfl, rfl⟩, .done rfl rfl⟩
  · exact (hends' _ _).2 ⟨_, ⟨_, _, 3, _, rfl, rfl⟩, .done rfl rfl⟩
  · exact (hends₀ _ _).2 ⟨_, ⟨_, _, 3, _, rfl, rfl⟩, .done rfl rfl⟩
  · rw [← hreport]
    exact (hends₁ _ _).2 ⟨_, ⟨_, _, 0, _, rfl, rfl⟩, .refused rfl rfl⟩
  · exact (hends₂ _ _).2 ⟨_, ⟨_, _, 6, _, rfl, rfl⟩, .stopped rfl rfl⟩

end Session

end RingTape.CommandLine
