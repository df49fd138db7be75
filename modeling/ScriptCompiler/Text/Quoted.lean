import ScriptCompiler.Text.Visible

/-!
# Quoted strings

Reports show a string between double quotes, with every character that a reader could not see
written as an escape. Two styles differ in what else they escape.
-/

namespace ScriptCompiler.Text

/-- What a quotation escapes beyond the characters that every quotation escapes. -/
structure QuoteStyle where
  /-- The single quote is escaped. -/
  singleQuote : Bool
  /-- Marks attached to the character before them are escaped. -/
  marks : Bool

/-- The style of values: an attached mark is escaped, a single quote is not. -/
def QuoteStyle.value : QuoteStyle := ⟨false, true⟩

/-- The style of quoted prose: a single quote is escaped, an attached mark is not. -/
def QuoteStyle.prose : QuoteStyle := ⟨true, false⟩

/-- A code point as `\u`, an opening brace, its hexadecimal digits and a closing brace. -/
def codePoint (c : Char) : List Char :=
  ['\\', 'u', '\x7b'] ++ Nat.toDigits 16 c.toNat ++ ['\x7d']

/-- One character of a quotation. -/
def QuoteStyle.escape (style : QuoteStyle) (c : Char) : List Char :=
  if c = '\x00' then ['\\', '0']
  else if c = '\t' then ['\\', 't']
  else if c = '\r' then ['\\', 'r']
  else if c = '\n' then ['\\', 'n']
  else if c = '\\' ∨ c = '"' ∨ (c = '\x27' ∧ style.singleQuote) then ['\\', c]
  else if (style.marks && isAttached c) || isInvisible c then codePoint c
  else [c]

/-- The quotation of a string. -/
def QuoteStyle.quote (style : QuoteStyle) (s : String) : String :=
  String.ofList (['"'] ++ s.toList.flatMap style.escape ++ ['"'])

/-- The quotation of a value. -/
def quoted (s : String) : String := QuoteStyle.value.quote s

end ScriptCompiler.Text
