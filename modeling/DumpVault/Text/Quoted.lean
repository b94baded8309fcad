import DumpVault.Text.Printed

/-!
# Quoted text

A text in double quotes for messages: quotes, backslashes and common controls have short escapes,
and a character that does not print by itself is written by its code point. A quoted path escapes
single quotes too.
-/
namespace DumpVault.Text

def codePointEscape (c : Char) : List Char :=
  "\\u\x7b".toList ++ Nat.toDigits 16 c.toNat ++ ['\x7d']

def quotedChar (escapeSingle : Bool) (c : Char) : List Char :=
  if c == '\x00' then ['\\', '0']
  else if c == '\t' then ['\\', 't']
  else if c == '\r' then ['\\', 'r']
  else if c == '\n' then ['\\', 'n']
  else if c == '"' || c == '\\' || (escapeSingle && c == '\'') then ['\\', c]
  else if extendsGrapheme c || !isPrinted c then codePointEscape c
  else [c]

def quoted (s : String) : String :=
  String.ofList ('"' :: s.toList.flatMap (quotedChar false) ++ ['"'])

def quotedPath (s : String) : String :=
  String.ofList ('"' :: s.toList.flatMap (quotedChar true) ++ ['"'])

example : quoted "a\"b\n" = "\"a\\\"b\\n\"" := by decide +kernel

end DumpVault.Text
