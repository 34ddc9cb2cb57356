import SelectorAlgebra.Error
import SelectorAlgebra.Text.Name

/-!
# Parsers

The grammar without byte offsets. A parser takes a value from the front of a text, and where it
stands is the text that is left, so its result does not depend on what came before. Scanners are
measured against it: what a scanner of selectors does at a byte offset is what the parser of the
same name does with the text from there. The parts that are to be reported are collected in order,
also by a parser that fails later.
-/

namespace SelectorAlgebra

/-- A syntax fault and the part of the text that it is about. -/
structure Fault where
  fault : SyntaxFault
  place : Stretch
  deriving DecidableEq, Repr

/-- What a parser makes of a text: the parts to report, and either a value and the text that is left
or a fault. -/
structure Reading (α : Type) where
  notices : List Stretch
  result : Except Fault (α × List Char)

/-- A parser of values of a type. -/
def Parser (α : Type) : Type := List Char → Reading α

namespace Parser

variable {α β : Type}

/-- A parser that takes nothing. -/
def value (a : α) : Parser α := fun s ↦ ⟨[], .ok (a, s)⟩

/-- A parser and after it another that depends on the value of the first. -/
def andThen (p : Parser α) (f : α → Parser β) : Parser β := fun s ↦
  match p s with
  | ⟨notices, .error e⟩ => ⟨notices, .error e⟩
  | ⟨notices, .ok (a, r)⟩ =>
    match f a r with
    | ⟨more, result⟩ => ⟨notices ++ more, result⟩

/-- Parsers are put in sequence. -/
instance : Monad Parser where
  pure := value
  bind := andThen

/-- The text that is left. -/
def rest : Parser (List Char) := fun s ↦ ⟨[], .ok (s, s)⟩

/-- Goes on with a later part of the text. -/
def goTo (s : List Char) : Parser Unit := fun _ ↦ ⟨[], .ok ((), s)⟩

/-- Fails because of what has been taken since a place, or of the next character where nothing has
been taken. -/
def failSince (start : List Char) (fault : SyntaxFault) : Parser α := fun s ↦
  ⟨[], .error ⟨fault, ⟨start, if s.length < start.length then s else start.tail⟩⟩⟩

/-- Fails because of the next character. -/
def fail (fault : SyntaxFault) : Parser α := fun s ↦
  ⟨[], .error ⟨fault, ⟨s, s.tail⟩⟩⟩

/-- Reports what has been taken since a place. -/
def notice (start : List Char) : Parser Unit := fun s ↦ ⟨[⟨start, s⟩], .ok ((), s)⟩

/-- Takes the blanks at the front. -/
def blanks : Parser Unit := fun s ↦ ⟨[], .ok ((), Text.dropBlanks s)⟩

/-- Takes a character if it comes next, and tells whether it did. -/
def accept (c : Char) : Parser Bool := fun s ↦
  match s with
  | d :: r => if d = c then ⟨[], .ok (true, r)⟩ else ⟨[], .ok (false, s)⟩
  | [] => ⟨[], .ok (false, s)⟩

/-- Takes a character that has to come next. -/
def expect (c : Char) (fault : SyntaxFault) : Parser Unit := do
  if ← accept c then return () else fail fault

/-- Takes name characters and escapes, maybe none. -/
def nameChars : Parser String := fun s ↦
  match Text.dropName s with
  | some r => ⟨[], .ok (String.ofList (Stretch.chars ⟨s, r⟩), r)⟩
  | none => ⟨[], .error ⟨.expectedEscape, ⟨['\\'], []⟩⟩⟩

/-- Takes a name, which is kept as it is written. -/
def name : Parser String := do
  if Text.startsName (← rest) then nameChars else fail .expectedName

end Parser

end SelectorAlgebra
