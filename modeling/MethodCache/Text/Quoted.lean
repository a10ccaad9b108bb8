import MethodCache.Text.Hidden

/-!
Two ways of writing a text on one line. `quoted` puts it between double quotes and shows every
character a reader can see; `asciiEscaped` leaves nothing but printable ASCII.
-/
namespace MethodCache.Text

/-- A character by its code point in hexadecimal. -/
def codePointEscape (c : Char) : List Char :=
  ['\\', 'u', '{'] ++ Nat.toDigits 16 c.toNat ++ ['}']

def quotedChar (c : Char) : List Char :=
  match c with
  | '\t' => ['\\', 't']
  | '\r' => ['\\', 'r']
  | '\n' => ['\\', 'n']
  | '"' => ['\\', '"']
  | '\\' => ['\\', '\\']
  | _ =>
    if c.toNat = 0 then ['\\', '0']
    else if isHidden c then codePointEscape c
    else [c]

def quoted (s : String) : String :=
  String.ofList ('"' :: s.toList.flatMap quotedChar ++ ['"'])

def asciiChar (c : Char) : List Char :=
  match c with
  | '\t' => ['\\', 't']
  | '\r' => ['\\', 'r']
  | '\n' => ['\\', 'n']
  | '\'' => ['\\', '\'']
  | '"' => ['\\', '"']
  | '\\' => ['\\', '\\']
  | _ => if 0x20 ≤ c.toNat && c.toNat ≤ 0x7e then [c] else codePointEscape c

def asciiEscaped (s : String) : String :=
  String.ofList (s.toList.flatMap asciiChar)

end MethodCache.Text
