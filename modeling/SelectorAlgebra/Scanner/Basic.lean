import SelectorAlgebra.Error
import SelectorAlgebra.Source.Slice

/-!
# Scanners

A scanner reads a text from a byte offset on. It moves by adding sizes to its position, and it looks
at the text and cuts parts out of it by slices at byte offsets, so a position past the end of the
text or inside a character is a state that it can come to: a slice from there makes it crash. Each
position that it moves to is recorded, and so is each part of the text that is to be reported.
-/

namespace SelectorAlgebra

/-- What ends a scan early. -/
inductive Halt where
  /-- The text is at fault between two byte offsets. -/
  | fault (fault : SyntaxFault) (start stop : Nat)
  /-- There is no such slice of the text, or a loop does not come to its end. -/
  | crash
  deriving DecidableEq, Repr

/-- What a scanner does on a text. -/
structure Scan (α : Type) where
  /-- The byte offsets that the scanner moved to, in order. -/
  positions : List Nat
  /-- The byte offsets of the parts to report. -/
  notices : List (Nat × Nat)
  /-- The value and the byte offset behind it, or why there is none. -/
  result : Except Halt (α × Nat)

/-- A scanner of values of a type, from a text and a byte offset in it. -/
def Scanner (α : Type) : Type := List Char → Nat → Scan α

namespace Scanner

variable {α β σ : Type}

/-- A scanner that only gives a value. -/
def value (a : α) : Scanner α := fun _ n ↦ ⟨[], [], .ok (a, n)⟩

/-- A scanner and after it another that depends on the value of the first. -/
def andThen (q : Scanner α) (f : α → Scanner β) : Scanner β := fun text n ↦
  match q text n with
  | ⟨positions, notices, .error e⟩ => ⟨positions, notices, .error e⟩
  | ⟨positions, notices, .ok (a, m)⟩ =>
    match f a text m with
    | ⟨later, more, result⟩ => ⟨positions ++ later, notices ++ more, result⟩

/-- Scanners are put in sequence. -/
instance : Monad Scanner where
  pure := value
  bind := andThen

/-- Stops the scan. -/
def halt (e : Halt) : Scanner α := fun _ _ ↦ ⟨[], [], .error e⟩

/-- A value that has to be there. -/
def require : Option α → Scanner α
  | some a => value a
  | none => halt .crash

/-- The whole text. -/
def source : Scanner (List Char) := fun text n ↦ ⟨[], [], .ok (text, n)⟩

/-- The byte offset at which the scanner stands. -/
def position : Scanner Nat := fun _ n ↦ ⟨[], [], .ok (n, n)⟩

/-- Goes to a byte offset, whether or not there is one like that in the text. -/
def moveTo (m : Nat) : Scanner Unit := fun _ _ ↦ ⟨[m], [], .ok ((), m)⟩

/-- Goes forward by a number of bytes. -/
def advance (size : Nat) : Scanner Unit := do
  moveTo ((← position) + size)

/-- The text from a byte offset on. -/
def sliceFrom (start : Nat) : Scanner (List Char) := do
  require (Text.sliceFrom (← source) start)

/-- The text between two byte offsets. -/
def slice (start stop : Nat) : Scanner (List Char) := do
  require (Text.slice (← source) start stop)

/-- The text that is left. -/
def rest : Scanner (List Char) := do
  sliceFrom (← position)

/-- The next character. -/
def peek : Scanner (Option Char) := do
  return (← rest).head?

/-- The character after a number of others. -/
def peekAt (i : Nat) : Scanner (Option Char) := do
  return (← rest)[i]?

/-- Takes the next character. -/
def consume : Scanner (Option Char) := do
  match ← peek with
  | some c =>
    advance c.utf8Size
    return some c
  | none => return none

/-- Passes the next character. -/
def bump : Scanner Unit := do
  let _ ← consume

/-- Takes a character if it comes next, and tells whether it did. -/
def accept (c : Char) : Scanner Bool := do
  if (← peek) = some c then
    bump
    return true
  else return false

/-- Fails because of what has been taken since a byte offset, or of the next character where nothing
has been taken. -/
def failSince (start : Nat) (fault : SyntaxFault) : Scanner α := do
  let stop ← position
  if start < stop then halt (.fault fault start stop)
  else
    let next := (← sliceFrom start).head?
    halt (.fault fault start (start + next.elim 0 Char.utf8Size))

/-- Fails because of the next character. -/
def fail (fault : SyntaxFault) : Scanner α := do
  failSince (← position) fault

/-- Takes a character that has to come next. -/
def expect (c : Char) (fault : SyntaxFault) : Scanner Unit := do
  if ← accept c then return () else fail fault

/-- Reports what has been taken since a byte offset. -/
def notice (start : Nat) : Scanner Unit := fun _ n ↦ ⟨[], [(start, n)], .ok ((), n)⟩

/-- How a round of a loop ends. -/
inductive Round (σ α : Type) where
  /-- There is another round, from a state. -/
  | again (state : σ)
  /-- The loop ends with a value. -/
  | done (value : α)

/-- Goes on after a round. -/
def proceed (next : σ → Scanner α) : Round σ α → Scanner α
  | .again state => next state
  | .done a => value a

/-- At most `bound` rounds of a loop. -/
def iterate (round : σ → Scanner (Round σ α)) : Nat → σ → Scanner α
  | 0, _ => halt .crash
  | bound + 1, state => do proceed (iterate round bound) (← round state)

/-- A loop. Each round but the last is to pass some of the text, so there are no more rounds than
the text has bytes, and the last. -/
def loop (round : σ → Scanner (Round σ α)) (state : σ) : Scanner α := do
  iterate round (Text.byteSize (← source) + 1) state

end Scanner

end SelectorAlgebra
