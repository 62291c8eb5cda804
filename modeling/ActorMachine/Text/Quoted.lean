import ActorMachine.Text.Glyph
import ActorMachine.Text.Hex

/-!
# Quoted text

`quote s` is `s` between double quotes. A double quote and a backslash inside are written with a
backslash before them, NUL, tab, line feed and carriage return by their letters, and characters
without a glyph of their own by their code point in braces.
-/

namespace ActorMachine.Text

/-- The escape of a code point: its hexadecimal digits in braces. -/
def codePointEscape (c : Char) : List Char :=
  ['\\', 'u', '\x7b'] ++ hexDigits c.toNat ++ ['\x7d']

/-- The written form of one character inside quotes. -/
def quoteChar (c : Char) : List Char :=
  match c with
  | '\x00' => ['\\', '0']
  | '\t' => ['\\', 't']
  | '\n' => ['\\', 'n']
  | '\r' => ['\\', 'r']
  | '\\' => ['\\', '\\']
  | '"' => ['\\', '"']
  | c => if isEscaped c then codePointEscape c else [c]

/-- A text between double quotes, with escapes inside. -/
def quote (s : String) : String :=
  String.ofList ('"' :: (s.toList.flatMap quoteChar ++ ['"']))

end ActorMachine.Text
