import SelectorAlgebra.Diagnostic.Style
import SelectorAlgebra.Diagnostic.Warning

/-!
# The console

Warnings are shown once: the console keeps what it has shown, and each message gives the console
afterwards and the text that is written.
-/

namespace SelectorAlgebra

/-- A console that shows every warning once. -/
structure Console where
  /-- Whether colours are wanted. -/
  colour : Bool
  /-- The warnings that have been shown, by their keys. -/
  seen : List String := []
  deriving DecidableEq, Repr

namespace Console

/-- What tells warnings apart: the message and the place that is shown with it. -/
def key (w : Warning) : String :=
  w.message ++ "@" ++ (w.span.map Span.place).getD ""

/-- The text of a warning. -/
def render (colour : Bool) (w : Warning) : String :=
  let label := if w.deprecation then "Deprecation Warning" else "Warning"
  Style.bold.apply colour (Style.yellow.apply colour label) ++ ": " ++ w.message ++ "\n" ++
    match w.span with
    | some span => "    " ++ Style.dim.apply colour span.place ++ "\n"
    | none => ""

/-- Shows a warning, unless it has been shown. -/
def warn (c : Console) (w : Warning) : Console × String :=
  if c.seen.contains (key w) then (c, "")
  else ({ c with seen := key w :: c.seen }, render c.colour w)

/-- Shows warnings in order. -/
def warnAll (c : Console) (ws : List Warning) : Console × String :=
  ws.foldl (fun (c, written) w ↦ ((c.warn w).1, written ++ (c.warn w).2)) (c, "")

/-- The text of a message for those who look for errors; it is always shown. -/
def debug (message : String) (span : Option Span) : String :=
  match span with
  | some span => span.place ++ " DEBUG: " ++ message ++ "\n"
  | none => "DEBUG: " ++ message ++ "\n"

/-- Forgets what has been shown. -/
def clear (c : Console) : Console :=
  { c with seen := [] }

end Console

end SelectorAlgebra
