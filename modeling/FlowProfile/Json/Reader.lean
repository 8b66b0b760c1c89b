import FlowProfile.Json.Basic
import FlowProfile.Text.Utf8

/-!
Reading JSON text. The text is cut into tokens, and the tokens drive a machine
that keeps the unfinished arrays and objects on a stack, so that depth is no limit.
-/

namespace FlowProfile.Json

inductive Token where
  | beginArray
  | endArray
  | beginObject
  | endObject
  | colon
  | comma
  | leaf (value : Json)
deriving Repr

/-- A character of a text, or none for a byte that belongs to no character. -/
abbrev Symbol := Option Char

/-! ### String literals -/

/-- A literal is made of characters, of escapes that give a UTF-16 unit, and of stray bytes. -/
inductive Piece where
  | char (c : Char)
  | unit (u : Nat)
  | stray
deriving DecidableEq, Repr

def hexValue? (c : Char) : Option Nat :=
  if '0' ≤ c ∧ c ≤ '9' then some (c.toNat - '0'.toNat)
  else if 'a' ≤ c ∧ c ≤ 'f' then some (c.toNat - 'a'.toNat + 10)
  else if 'A' ≤ c ∧ c ≤ 'F' then some (c.toNat - 'A'.toNat + 10)
  else none

def unit? (a b c d : Char) : Option Nat := do
  return (((← hexValue? a) * 16 + (← hexValue? b)) * 16 + (← hexValue? c)) * 16 + (← hexValue? d)

def unescape? : Char → Option Char
  | '"' => some '"'
  | '\\' => some '\\'
  | '/' => some '/'
  | 'b' => some '\x08'
  | 'f' => some '\x0c'
  | 'n' => some '\n'
  | 'r' => some '\r'
  | 't' => some '\t'
  | _ => none

/-- The pieces up to the closing quote, after those read before, last first. -/
def scanString (before : List Piece) : List Symbol → Option (List Piece × List Symbol)
  | some '"' :: rest => some (before.reverse, rest)
  | some '\\' :: some 'u' :: some a :: some b :: some c :: some d :: rest =>
    match unit? a b c d with
    | some u => scanString (.unit u :: before) rest
    | none => none
  | some '\\' :: some e :: rest =>
    match unescape? e with
    | some c => scanString (.char c :: before) rest
    | none => none
  | some '\\' :: _ => none
  | some c :: rest => if c.toNat < 0x20 then none else scanString (.char c :: before) rest
  | none :: rest => scanString (.stray :: before) rest
  | [] => none

theorem scanString_length {before ps : List Piece} {cs rest : List Symbol}
    (h : scanString before cs = some (ps, rest)) : rest.length < cs.length := by
  fun_induction scanString before cs <;> simp_all <;> omega

def isHighSurrogate (u : Nat) : Bool := 0xD800 ≤ u && u < 0xDC00

def isLowSurrogate (u : Nat) : Bool := 0xDC00 ≤ u && u < 0xE000

/-- Joins each pair of surrogates into one character. One that stands alone denotes nothing,
nor does a stray byte. -/
def join : List Piece → Option (List Char)
  | [] => some []
  | .char c :: rest => (join rest).map (c :: ·)
  | .stray :: _ => none
  | .unit u :: rest =>
    if isHighSurrogate u then
      match rest with
      | .unit v :: rest =>
        if isLowSurrogate v then
          (join rest).map (Char.ofNat (0x10000 + (u - 0xD800) * 0x400 + (v - 0xDC00)) :: ·)
        else none
      | _ => none
    else if isLowSurrogate u then none
    else (join rest).map (Char.ofNat u :: ·)

/-! ### Numbers and names -/

def digits : List Char → List Char × List Char := List.span Char.isDigit

/-- An optional part of a number: it has a digit if it is there at all. -/
def fraction? : List Char → Option (List Char × List Char)
  | '.' :: cs => match digits cs with
    | ([], _) => none
    | (ds, rest) => some (ds, rest)
  | cs => some ([], cs)

def natural (ds : List Char) : Nat := Nat.ofDigitChars 10 ds 0

def signedExponent? (negative : Bool) (cs : List Char) : Option (Option Int) :=
  match digits cs with
  | ([], _) => none
  | (ds, []) => some (some (if negative then -(natural ds : Int) else natural ds))
  | _ => none

/-- The exponent that ends a number, if it has one. -/
def exponent? : List Char → Option (Option Int)
  | [] => some none
  | e :: cs =>
    if e = 'e' ∨ e = 'E' then
      match cs with
      | '-' :: cs => signedExponent? true cs
      | '+' :: cs => signedExponent? false cs
      | cs => signedExponent? false cs
    else none

/-- A number without its sign. No zero comes before another digit of the whole part. -/
def unsigned? (negative : Bool) (cs : List Char) : Option Number := do
  let (whole, cs) := digits cs
  if whole = [] ∨ (1 < whole.length ∧ whole.head? = some '0') then none
  let (places, cs) ← fraction? cs
  let exponent ← exponent? cs
  let value := natural (whole ++ places)
  if places = [] ∧ exponent = none ∧ ¬(negative ∧ value = 0) then
    return .integer (if negative then -(value : Int) else value)
  else
    return .decimal ⟨negative, value, exponent.getD 0 - places.length⟩

def number? : List Char → Option Number
  | '-' :: cs => unsigned? true cs
  | cs => unsigned? false cs

/-- Names and numbers are runs of these characters. -/
def isWord (c : Char) : Bool := c.isAlphanum || c == '-' || c == '+' || c == '.'

def word? (w : List Char) : Option Json :=
  if w = "null".toList then some .null
  else if w = "true".toList then some (.bool true)
  else if w = "false".toList then some (.bool false)
  else (number? w).map .number

/-! ### Tokens -/

def isSpace (c : Char) : Bool := c == ' ' || c == '\t' || c == '\n' || c == '\r'

def punctuation? : Char → Option Token
  | '[' => some .beginArray
  | ']' => some .endArray
  | '{' => some .beginObject
  | '}' => some .endObject
  | ':' => some .colon
  | ',' => some .comma
  | _ => none

/-- The word that begins with `c`, and what follows it. -/
def spanWord (c : Char) (rest : List Symbol) : List Char × List Symbol :=
  let inWord (s : Symbol) := s.any isWord
  (c :: (rest.takeWhile inWord).filterMap id, rest.dropWhile inWord)

/-- The tokens of a text, after those cut before, last first. -/
def lexFrom (before : List Token) (cs : List Symbol) : Option (List Token) :=
  match cs with
  | [] => some before.reverse
  | none :: _ => none
  | some c :: rest =>
    if isSpace c then lexFrom before rest
    else if c = '"' then
      match h : scanString [] rest with
      | some (ps, after) =>
        have : after.length < rest.length := scanString_length h
        lexFrom (.leaf (.string ((join ps).map String.ofList)) :: before) after
      | none => none
    else if isWord c then
      match word? (spanWord c rest).1 with
      | some v => lexFrom (.leaf v :: before) (spanWord c rest).2
      | none => none
    else
      match punctuation? c with
      | some t => lexFrom (t :: before) rest
      | none => none
termination_by cs.length
decreasing_by
  · simp
  · simp only [List.length_cons]
    omega
  · exact Nat.lt_succ_of_le (List.dropWhile_suffix _).length_le
  · simp

def lex (cs : List Symbol) : Option (List Token) := lexFrom [] cs

/-! ### The machine -/

/-- An array or an object that a value is read for. What came before is held last first. -/
inductive Unfinished where
  | array (items : List Json)
  | object (members : List (Literal × Json)) (name : Literal)
deriving Repr

/-- What may come next. -/
inductive Focus where
  | value
  | firstItem
  | firstName
  | name (members : List (Literal × Json))
  | colon (members : List (Literal × Json)) (name : Literal)
  | after (value : Json)
deriving Repr

structure Machine where
  stack : List Unfinished
  focus : Focus
deriving Repr

def begin? (stack : List Unfinished) : Token → Option Machine
  | .leaf v => some ⟨stack, .after v⟩
  | .beginArray => some ⟨stack, .firstItem⟩
  | .beginObject => some ⟨stack, .firstName⟩
  | _ => none

def Machine.step : Machine → Token → Option Machine
  | ⟨stack, .value⟩, t => begin? stack t
  | ⟨stack, .firstItem⟩, .endArray => some ⟨stack, .after (.array [])⟩
  | ⟨stack, .firstItem⟩, t => begin? (.array [] :: stack) t
  | ⟨stack, .firstName⟩, .endObject => some ⟨stack, .after (.object [])⟩
  | ⟨stack, .firstName⟩, .leaf (.string name) => some ⟨stack, .colon [] name⟩
  | ⟨stack, .name members⟩, .leaf (.string name) => some ⟨stack, .colon members name⟩
  | ⟨stack, .colon members name⟩, .colon => some ⟨.object members name :: stack, .value⟩
  | ⟨.array items :: stack, .after v⟩, .comma => some ⟨.array (v :: items) :: stack, .value⟩
  | ⟨.array items :: stack, .after v⟩, .endArray =>
    some ⟨stack, .after (.array (v :: items).reverse)⟩
  | ⟨.object members name :: stack, .after v⟩, .comma =>
    some ⟨stack, .name ((name, v) :: members)⟩
  | ⟨.object members name :: stack, .after v⟩, .endObject =>
    some ⟨stack, .after (.object ((name, v) :: members).reverse)⟩
  | _, _ => none

def Machine.run (m : Machine) : List Token → Option Machine
  | [] => some m
  | t :: ts => match m.step t with
    | some m => m.run ts
    | none => none

/-- One value, with nothing but white space around it. -/
def readSymbols (cs : List Symbol) : Option Json :=
  match (lex cs).bind (Machine.run ⟨[], .value⟩) with
  | some ⟨[], .after v⟩ => some v
  | _ => none

def read (s : String) : Option Json := readSymbols (s.toList.map some)

/-- Only string literals may hold bytes that are no text. -/
def readBytes (bytes : List UInt8) : Option Json := readSymbols (Utf8.characters bytes)

end FlowProfile.Json
