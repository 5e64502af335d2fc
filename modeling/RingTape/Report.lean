import RingTape.Failure

/-!
Reports on a bracket without a partner, for the one who wrote the program. A report holds an
excerpt: the part of the program around the bracket, with an ellipsis where something was left out,
and below it a caret that points at the bracket.
-/

namespace RingTape

/-! ### Excerpts -/

/-- The elements of `xs` from place `start` up to, but not with, place `stop`. A negative `stop`
counts from the end. -/
def slice {α : Type} (xs : List α) (start : Nat) (stop : Int) : List α :=
  let stop := if stop < 0 then stop + xs.length else stop
  (xs.take stop.toNat).drop start

structure Excerpt where
  row : List Char
  caret : List Char
  deriving DecidableEq, Repr

namespace Excerpt

def ellipsis : List Char := ['.', '.', '.']

/-- The excerpt around the symbol at `place`, with up to `context` symbols on either side. A
`context` below zero is allowed, and then shows less than the symbol itself. -/
def around (program : List Char) (place context : Int) : Excerpt :=
  let size : Int := program.length
  let start := max 0 (place - context)
  let stop := min size (place + context + 1)
  let left := if 0 < start then ellipsis else []
  let right := if stop < size then ellipsis else []
  { row := left ++ slice program start.toNat stop ++ right
    caret := List.replicate (left.length + place - start).toNat ' ' ++ ['^'] }

end Excerpt

/-! ### Reports -/

namespace BracketFault

def sentence (f : BracketFault) : String :=
  if f.symbol = some "]" then
    s!"The closing bracket at index {f.position} does not have a matching opening bracket"
  else if f.symbol = some "[" then
    s!"The opening bracket at index {f.position} does not have a matching closing bracket"
  else s!"The bracket at index {f.position} does not have a matching bracket"

def sourceNote (f : BracketFault) (places : Option (Array Int)) : String :=
  match places with
  | none => ""
  | some places =>
    if 0 ≤ f.position then
      match places[f.position.toNat]? with
      | some p => s!" (source index {p})"
      | none => ""
    else ""

def defaultContext : Int := 10

/-- The lines of the report on a fault in `program`. The excerpt is left out when the fault lies
outside the program. -/
def reportLines (f : BracketFault) (program : String) (context : Int)
    (places : Option (Array Int)) : List String :=
  let excerpt :=
    if 0 ≤ f.position ∧ f.position < program.length then
      let e := Excerpt.around program.toList f.position context
      [String.ofList e.row, String.ofList e.caret]
    else []
  "Sorry! Your program could not be run." :: excerpt ++ [f.sentence ++ f.sourceNote places]

def report (f : BracketFault) (program : String) (context : Int)
    (places : Option (Array Int)) : String :=
  "\n".intercalate (f.reportLines program context places)

end BracketFault

end RingTape
