import SelectorAlgebra.Text.Name

/-!
# Quoted text

Reading a quoted string, and writing a value so that it needs quotes only where it is no plain name.
-/

namespace SelectorAlgebra.Text

/-- The value of a string whose opening quote has been passed, and the text after its closing quote.
A backslash takes the next character as it is, a line feed with it is left out. A string that a line
feed or the end of the text cuts off is refused, with what follows the cut. -/
def readQuoted (quote : Char) : List Char → Except (List Char) (List Char × List Char)
  | [] => .error []
  | ['\\'] => .error []
  | '\\' :: '\n' :: s => readQuoted quote s
  | '\\' :: c :: s => (readQuoted quote s).map fun (v, r) ↦ (c :: v, r)
  | c :: s =>
    if c = quote then .ok ([], s)
    else if c = '\n' then .error s
    else (readQuoted quote s).map fun (v, r) ↦ (c :: v, r)

/-- What is left after a string is a suffix of the text and shorter than it. -/
theorem readQuoted_suffix {quote : Char} {s v r : List Char}
    (h : readQuoted quote s = .ok (v, r)) : r <:+ s ∧ r.length < s.length := by
  fun_induction readQuoted quote s generalizing v r with
  | case1 => cases h
  | case2 => cases h
  | case3 s ih =>
    have := ih h
    exact ⟨this.1.trans ⟨['\\', '\n'], rfl⟩, by have := this.2; simp; omega⟩
  | case4 c s _ ih =>
    cases hs : readQuoted quote s with
    | error e => simp [hs, Except.map] at h
    | ok p =>
      simp only [hs, Except.map, Except.ok.injEq, Prod.mk.injEq] at h
      obtain ⟨-, rfl⟩ := h
      have := ih hs
      exact ⟨this.1.trans ⟨['\\', c], rfl⟩, by have := this.2; simp; omega⟩
  | case5 => cases h; exact ⟨List.suffix_cons _ _, by simp⟩
  | case6 => cases h
  | case7 c s _ _ _ _ _ ih =>
    cases hs : readQuoted quote s with
    | error e => simp [hs, Except.map] at h
    | ok p =>
      simp only [hs, Except.map, Except.ok.injEq, Prod.mk.injEq] at h
      obtain ⟨-, rfl⟩ := h
      have := ih hs
      exact ⟨this.1.trans (List.suffix_cons c s), by have := this.2; simp; omega⟩

/-- Whether a value can be written without quotes: at most one hyphen, then a name start, then name
characters. -/
def isPlainName (value : List Char) : Bool :=
  match value with
  | '-' :: c :: s => isNameStart c && s.all isNameChar
  | c :: s => isNameStart c && s.all isNameChar
  | [] => false

/-- A character inside quotes: a quote and a backslash get a backslash in front, and a line feed is
written as a hexadecimal escape. -/
def quoteChar (c : Char) : List Char :=
  if c = '"' || c = '\\' then ['\\', c]
  else if c = '\n' then ['\\', 'a', ' ']
  else [c]

/-- A value between double quotes. -/
def quote (value : List Char) : List Char :=
  '"' :: value.flatMap quoteChar ++ ['"']

/-- A value as an attribute selector writes it: in quotes unless it is a plain name. -/
def writeValue (value : List Char) : List Char :=
  if isPlainName value then value else quote value

end SelectorAlgebra.Text
