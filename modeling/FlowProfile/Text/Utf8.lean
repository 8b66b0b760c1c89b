/-! Text as UTF-8 bytes. Decoding reports the first place where the bytes stop being text. -/

namespace FlowProfile.Utf8

/-- Bytes that are no text from `index` on: `length` of them are wrong, or, with
no length, they end inside a character. -/
structure Malformed where
  index : Nat
  length : Option Nat
deriving DecidableEq, Repr

def Malformed.message : Malformed → String
  | ⟨index, some length⟩ => s!"invalid utf-8 sequence of {length} bytes from index {index}"
  | ⟨index, none⟩ => s!"incomplete utf-8 byte sequence from index {index}"

def encode (cs : List Char) : List UInt8 := cs.flatMap String.utf8EncodeChar

@[simp] theorem encode_nil : encode [] = [] := rfl

@[simp] theorem encode_append (cs ds : List Char) : encode (cs ++ ds) = encode cs ++ encode ds := by
  simp [encode]

/-- One character at the head of some bytes: `extra` is the number of bytes it
takes after its first, or the number it had right before the first wrong one. -/
inductive Head where
  | character (c : Char) (extra : Nat)
  | invalid (extra : Nat)
  | incomplete
deriving DecidableEq, Repr

/-- Reads `owed` continuation bytes. Only the first of them has a range of its own. -/
def continuation (value seen : Nat) : (owed low high : Nat) → List UInt8 → Head
  | 0, _, _, _ => .character (Char.ofNat value) seen
  | _ + 1, _, _, [] => .incomplete
  | owed + 1, low, high, b :: bs =>
    if low ≤ b.toNat ∧ b.toNat ≤ high then
      continuation (value * 64 + (b.toNat - 0x80)) (seen + 1) owed 0x80 0xBF bs
    else .invalid seen

/-- No form is overlong, a surrogate, or above U+10FFFF. -/
def head (first : UInt8) (rest : List UInt8) : Head :=
  let b := first.toNat
  if b < 0x80 then .character (Char.ofNat b) 0
  else if b < 0xC2 then .invalid 0
  else if b < 0xE0 then continuation (b - 0xC0) 0 1 0x80 0xBF rest
  else if b = 0xE0 then continuation (b - 0xE0) 0 2 0xA0 0xBF rest
  else if b = 0xED then continuation (b - 0xE0) 0 2 0x80 0x9F rest
  else if b < 0xF0 then continuation (b - 0xE0) 0 2 0x80 0xBF rest
  else if b = 0xF0 then continuation (b - 0xF0) 0 3 0x90 0xBF rest
  else if b < 0xF4 then continuation (b - 0xF0) 0 3 0x80 0xBF rest
  else if b = 0xF4 then continuation (b - 0xF0) 0 3 0x80 0x8F rest
  else .invalid 0

/-- `index` is the position of the first byte and `done` the characters before it, last first. -/
def decodeFrom (index : Nat) (done : List Char) : List UInt8 → Except Malformed (List Char)
  | [] => .ok done.reverse
  | b :: bs =>
    match head b bs with
    | .character c extra => decodeFrom (index + 1 + extra) (c :: done) (bs.drop extra)
    | .invalid extra => .error ⟨index, some (extra + 1)⟩
    | .incomplete => .error ⟨index, none⟩
termination_by bs => bs.length
decreasing_by
  simp only [List.length_drop, List.length_cons]
  omega

def decode (bytes : List UInt8) : Except Malformed (List Char) := decodeFrom 0 [] bytes

/-- `done` are the characters before the bytes, last first. -/
def charactersFrom (done : List (Option Char)) : List UInt8 → List (Option Char)
  | [] => done.reverse
  | b :: bs =>
    match head b bs with
    | .character c extra => charactersFrom (some c :: done) (bs.drop extra)
    | .invalid _ | .incomplete => charactersFrom (none :: done) bs
termination_by bs => bs.length
decreasing_by
  · simp only [List.length_drop, List.length_cons]
    omega
  · simp

/-- The characters of some bytes, and none for each byte that belongs to no character. -/
def characters (bytes : List UInt8) : List (Option Char) := charactersFrom [] bytes

theorem charactersFrom_of_decodeFrom {index : Nat} {done cs : List Char} {bytes : List UInt8}
    (h : decodeFrom index done bytes = .ok cs) :
    charactersFrom (done.map some) bytes = cs.map some := by
  fun_induction decodeFrom index done bytes with
  | case1 index done =>
    cases h
    simp [charactersFrom]
  | case2 index done b bs c extra hc ih =>
    rw [charactersFrom]
    simpa [hc] using ih h
  | case3 => cases h
  | case4 => cases h

/-- Bytes that are text throughout have the characters of that text. -/
theorem characters_of_decode {bytes : List UInt8} {cs : List Char}
    (h : decode bytes = .ok cs) : characters bytes = cs.map some :=
  @charactersFrom_of_decodeFrom 0 [] cs bytes h

end FlowProfile.Utf8
