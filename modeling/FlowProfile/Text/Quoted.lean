import FlowProfile.Text.Invisible

/-! Text as a message quotes it: in double quotes, with what cannot be seen spelled out. -/

namespace FlowProfile.Text

def hexDigits (n : Nat) : String := String.ofList (Nat.toDigits 16 n)

def quoteChar (c : Char) : String :=
  match c with
  | '"' => "\\\""
  | '\\' => "\\\\"
  | '\n' => "\\n"
  | '\t' => "\\t"
  | '\r' => "\\r"
  | '\x00' => "\\0"
  | c => if isInvisible c then "\\u\x7b" ++ hexDigits c.toNat ++ "\x7d" else c.toString

def quote (s : String) : String := "\"" ++ String.join (s.toList.map quoteChar) ++ "\""

example : quote "a\"b\\'é" = "\"a\\\"b\\\\'é\"" := by decide

end FlowProfile.Text
