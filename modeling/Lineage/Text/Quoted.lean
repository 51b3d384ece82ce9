import Lineage.Bytes
import Lineage.Text.Hidden

/-!
# Quoted text

How messages show a text, a path or a key: between double quotes, with a backslash in front of what
would end the quotation and in place of what has no glyph.
-/

namespace Lineage.Text

/-- The escapes of one letter that texts and keys have in common. -/
def shortEscape? : Char → Option String
  | '\x00' => some "\\0"
  | '\t' => some "\\t"
  | '\n' => some "\\n"
  | '\r' => some "\\r"
  | '"' => some "\\\""
  | '\\' => some "\\\\"
  | _ => none

/-- The digits of a number in base 16. -/
def hexDigits (n : Nat) : String :=
  String.ofList (Nat.toDigits 16 n)

/-- A character inside quoted text. -/
def quoteChar (c : Char) : String :=
  match shortEscape? c with
  | some s => s
  | none =>
    if c.toNat < 0x20 ∨ c.toNat = 0x7F ∨ (0x7F < c.toNat ∧ hidden c) then
      "\\u\x7b" ++ hexDigits c.toNat ++ "\x7d"
    else c.toString

/-- A text between quotes. -/
def quote (s : String) : String :=
  "\"" ++ String.join (s.toList.map quoteChar) ++ "\""

/-- A byte inside a quoted key: as the ASCII character it is, or by its value. -/
def quoteByte (b : UInt8) : String :=
  match shortEscape? (Char.ofNat b.toNat) with
  | some s => s
  | none =>
    if 0x20 ≤ b ∧ b < 0x7F then (Char.ofNat b.toNat).toString
    else "\\x" ++ (if b < 0x10 then "0" else "") ++ hexDigits b.toNat

/-- A key between quotes, marked as bytes. -/
def quoteBytes (b : Bytes) : String :=
  "b\"" ++ String.join (b.map quoteByte) ++ "\""

end Lineage.Text
