import FlowProfile.Record.Basic
import FlowProfile.Text.Blank

/-!
Records as bytes. A record is a tag and a payload, and a payload is made of vectors,
each an element count and its elements. All numbers are little-endian. Records follow
one another, so that files can be appended to.
-/

namespace FlowProfile

attribute [local instance] natZero

abbrev Bytes := List UInt8

/-- The lowest `width` bytes of a number, the lowest first. -/
def littleEndian : (width : Nat) → Nat → Bytes
  | 0, _ => []
  | width + 1, n => UInt8.ofNat n :: littleEndian width (n / 256)

def ofLittleEndian : Bytes → Nat
  | [] => 0
  | b :: bs => b.toNat + 256 * ofLittleEndian bs

@[simp] theorem littleEndian_length (width n : Nat) : (littleEndian width n).length = width := by
  induction width generalizing n with
  | zero => rfl
  | succ width ih => simp [littleEndian, ih]

def word (n : Nat) : Bytes := littleEndian 4 n

def u64Bytes (n : UInt64) : Bytes := littleEndian 8 n.toNat

def f64Bytes (x : Binary64) : Bytes := u64Bytes x.bits

def i32Bytes (i : Int32) : Bytes := word i.toUInt32.toNat

def CommCounter.toBytes (c : CommCounter) : Bytes := u64Bytes c.calls ++ u64Bytes c.bytes

/-! ### Writing -/

def Record.tag : Record → Nat
  | arguments _ => 1
  | blocks _ => 3
  | edges _ [] => 4
  | edges _ _ => 11
  | ranks _ => 8
  | legacyComm _ => 9
  | comm _ => 10
  | time _ _ => 12
  | weightedBlocks _ => 13

/-- An element count has to fit a word of 32 bits. -/
def encodeCount (n : Nat) : Outcome Bytes :=
  if n < UInt32.size then .ok (word n) else .fail (.recordTooLarge n)

def encodeVector {α : Type} (element : α → Bytes) (xs : List α) : Outcome Bytes := do
  return (← encodeCount xs.length) ++ xs.flatMap element

/-- The bytes of an argument and the NUL that ends it. -/
def argumentBytes (arg : String) : Bytes := Utf8.encode arg.toList ++ [0]

def encodeArgument (arg : String) : Outcome Bytes :=
  if '\x00' ∈ arg.toList then .fail (.nulInArgument arg) else .ok (argumentBytes arg)

/-- The element count of arguments is the number of their bytes. -/
def encodeArguments (args : List String) : Outcome Bytes := do
  let count ← encodeCount (args.map fun arg => (argumentBytes arg).length).sum
  return count ++ (← args.mapM encodeArgument).flatten

def Record.payload : Record → Outcome Bytes
  | arguments args => encodeArguments args
  | blocks counts | legacyComm counts => encodeVector u64Bytes counts
  | edges counts [] => encodeVector u64Bytes counts
  | edges counts (r :: rs) => do
    return (← encodeVector u64Bytes counts) ++ (← encodeVector i32Bytes (r :: rs))
  | ranks rs => encodeVector i32Bytes rs
  | comm counters => encodeVector CommCounter.toBytes counters
  | time seconds rs => do
    return (← encodeVector f64Bytes seconds) ++ (← encodeVector i32Bytes rs)
  | weightedBlocks weights => encodeVector f64Bytes weights

def Record.encode (r : Record) : Outcome Bytes := do
  return word r.tag ++ (← r.payload)

def encodeRecords (records : List Record) : Outcome Bytes := do
  return (← records.mapM Record.encode).flatten

/-! ### Reading -/

/-- Takes what it reads off the front of some bytes. -/
abbrev Reader := StateT Bytes Outcome

/-- The first `n` elements and the others, if there are as many. -/
def exactly {α : Type} : Nat → List α → Option (List α × List α)
  | 0, xs => some ([], xs)
  | _ + 1, [] => none
  | n + 1, x :: xs => (exactly n xs).map fun (front, rest) => (x :: front, rest)

theorem exactly_eq_some_iff {α : Type} {n : Nat} {xs front rest : List α} :
    exactly n xs = some (front, rest) ↔ xs = front ++ rest ∧ front.length = n := by
  induction n generalizing xs front with
  | zero => cases front <;> simp [exactly, eq_comm]
  | succ n ih =>
    cases xs with
    | nil => cases front <;> simp [exactly]
    | cons x xs => cases front <;> simp [exactly, ih]; grind

namespace Reader

variable {α : Type}

def bytes (n : Nat) : Reader Bytes := fun bs =>
  match exactly n bs with
  | some (front, rest) => .ok (front, rest)
  | none => .fail (.truncated n bs.length)

def word : Reader Nat := do return ofLittleEndian (← bytes 4)

def u64 : Reader UInt64 := do return UInt64.ofNat (ofLittleEndian (← bytes 8))

def f64 : Reader Binary64 := do return ⟨← u64⟩

def i32 : Reader Int32 := do return (UInt32.ofNat (← word)).toInt32

def commCounter : Reader CommCounter := do return ⟨← u64, ← u64⟩

def times (element : Reader α) : Nat → Reader (List α)
  | 0 => pure []
  | n + 1 => do return (← element) :: (← times element n)

def vector (element : Reader α) : Reader (List α) := do times element (← word)

/-- The pieces that a character ends. The last one may lack it. -/
def terminated (c : Char) (before : List Char) : List Char → List (List Char)
  | [] => if before = [] then [] else [before.reverse]
  | d :: cs => if d = c then before.reverse :: terminated c [] cs else terminated c (d :: before) cs

/-- Arguments end in NUL. Without any NUL they are words with spaces between them. -/
def splitArguments (cs : List Char) : List String :=
  (if '\x00' ∈ cs then terminated '\x00' [] cs else Text.runs (· == ' ') cs).map String.ofList

def argumentText (bs : Bytes) : Reader (List Char) :=
  match Utf8.decode bs with
  | .ok cs => return cs
  | .error malformed => throw (.error [.argumentsNotUtf8] (.notUtf8 malformed))

/-- Are there as many bytes as the arguments need? -/
def expect (need : Nat) : Reader Unit := fun bs =>
  if need ≤ bs.length then .ok ((), bs) else .fail (.truncatedArguments need bs.length)

def arguments : Reader (List String) := do
  let count ← word
  expect count
  return splitArguments (← argumentText (← bytes count))

def payload : (tag : Nat) → Reader Record
  | 1 => do return .arguments (← arguments)
  | 3 => do return .blocks (← vector u64)
  | 4 => do return .edges (← vector u64) []
  | 11 => do return .edges (← vector u64) (← vector i32)
  | 8 => do return .ranks (← vector i32)
  | 9 => do return .legacyComm (← vector u64)
  | 10 => do return .comm (← vector commCounter)
  | 12 => do return .time (← vector f64) (← vector i32)
  | 13 => do return .weightedBlocks (← vector f64)
  | tag => throw (.error [] (.unknownRecord tag))

def record : Reader Record := do payload (← word)

/-- The reader leaves no more bytes than it was given. -/
def Shrinks (r : Reader α) : Prop := ∀ bs a rest, r bs = .ok (a, rest) → rest.length ≤ bs.length

theorem bind_eq_ok {β : Type} {r : Reader α} {k : α → Reader β} {bs rest : Bytes} {b : β} :
    (r >>= k) bs = .ok (b, rest) ↔ ∃ a mid, r bs = .ok (a, mid) ∧ k a mid = .ok (b, rest) := by
  show (r bs >>= fun p => k p.1 p.2) = _ ↔ _
  cases h : r bs with
  | error e => simp [bind, Except.bind]
  | ok p =>
    obtain ⟨a, mid⟩ := p
    simp only [bind, Except.bind, Except.ok.injEq, Prod.mk.injEq]
    exact ⟨fun h => ⟨a, mid, ⟨rfl, rfl⟩, h⟩, fun ⟨_, _, ⟨ha, hm⟩, h⟩ => ha ▸ hm ▸ h⟩

theorem Shrinks.pure (a : α) : Shrinks (Pure.pure a : Reader α) := by
  intro bs b rest h
  cases h
  exact Nat.le_refl _

theorem Shrinks.throw (f : Failure) : Shrinks (MonadExcept.throw f : Reader α) := by
  intro bs b rest h
  cases h

theorem Shrinks.bind {β : Type} {r : Reader α} {k : α → Reader β} (hr : r.Shrinks)
    (hk : ∀ a, (k a).Shrinks) : (r >>= k).Shrinks := by
  intro bs b rest h
  obtain ⟨a, mid, ha, hb⟩ := bind_eq_ok.1 h
  exact Nat.le_trans (hk a _ _ _ hb) (hr _ _ _ ha)

theorem bytes_eq_ok_iff {n : Nat} {bs front rest : Bytes} :
    bytes n bs = .ok (front, rest) ↔ bs = front ++ rest ∧ front.length = n := by
  unfold bytes
  rw [← exactly_eq_some_iff]
  split <;> simp_all [Outcome.fail]

theorem bytes_shrinks (n : Nat) : (bytes n).Shrinks := by
  intro bs front rest h
  obtain ⟨rfl, -⟩ := bytes_eq_ok_iff.1 h
  simp

theorem word_shrinks : word.Shrinks := (bytes_shrinks 4).bind fun _ => .pure _

theorem u64_shrinks : u64.Shrinks := (bytes_shrinks 8).bind fun _ => .pure _

theorem f64_shrinks : f64.Shrinks := u64_shrinks.bind fun _ => .pure _

theorem i32_shrinks : i32.Shrinks := word_shrinks.bind fun _ => .pure _

theorem commCounter_shrinks : commCounter.Shrinks :=
  u64_shrinks.bind fun _ => u64_shrinks.bind fun _ => .pure _

theorem times_shrinks {element : Reader α} (h : element.Shrinks) (n : Nat) :
    (times element n).Shrinks := by
  induction n with
  | zero => exact .pure _
  | succ n ih => exact h.bind fun _ => ih.bind fun _ => .pure _

theorem vector_shrinks {element : Reader α} (h : element.Shrinks) : (vector element).Shrinks :=
  word_shrinks.bind fun n => times_shrinks h n

theorem argumentText_shrinks (bs : Bytes) : (argumentText bs).Shrinks := by
  unfold argumentText
  split
  · exact .pure _
  · exact .throw _

theorem expect_shrinks (need : Nat) : (expect need).Shrinks := by
  intro bs _ rest h
  unfold expect at h
  split at h
  · cases h
    exact Nat.le_refl _
  · cases h

theorem arguments_shrinks : arguments.Shrinks :=
  word_shrinks.bind fun _ => (expect_shrinks _).bind fun _ => (bytes_shrinks _).bind fun _ =>
    (argumentText_shrinks _).bind fun _ => .pure _

theorem payload_shrinks (tag : Nat) : (payload tag).Shrinks := by
  unfold payload
  split
  · exact arguments_shrinks.bind fun _ => .pure _
  · exact (vector_shrinks u64_shrinks).bind fun _ => .pure _
  · exact (vector_shrinks u64_shrinks).bind fun _ => .pure _
  · exact (vector_shrinks u64_shrinks).bind fun _ =>
      (vector_shrinks i32_shrinks).bind fun _ => .pure _
  · exact (vector_shrinks i32_shrinks).bind fun _ => .pure _
  · exact (vector_shrinks u64_shrinks).bind fun _ => .pure _
  · exact (vector_shrinks commCounter_shrinks).bind fun _ => .pure _
  · exact (vector_shrinks f64_shrinks).bind fun _ =>
      (vector_shrinks i32_shrinks).bind fun _ => .pure _
  · exact (vector_shrinks f64_shrinks).bind fun _ => .pure _
  · exact .throw _

/-- A record has a tag at least, so it takes some bytes. -/
theorem record_length {bs rest : Bytes} {r : Record} (h : record bs = .ok (r, rest)) :
    rest.length < bs.length := by
  obtain ⟨tag, mid, hw, hp⟩ := bind_eq_ok.1 h
  obtain ⟨front, mid', hb, ht⟩ := bind_eq_ok.1 hw
  obtain ⟨rfl, hl⟩ := bytes_eq_ok_iff.1 hb
  cases ht
  have := payload_shrinks _ _ _ _ hp
  simp only [List.length_append, hl]
  omega

end Reader

/-- Reads records up to the end, after those read before, last first. -/
def decodeFrom (total : Nat) (before : List Record) (bs : Bytes) : Outcome (List Record) :=
  if bs = [] then .ok before.reverse
  else
    match h : Reader.record bs with
    | .ok (r, rest) =>
      have : rest.length < bs.length := Reader.record_length h
      decodeFrom total (r :: before) rest
    | .error failure => .error (failure.within (.recordAt (total - bs.length)))
termination_by bs.length

def decodeRecords (bs : Bytes) : Outcome (List Record) := decodeFrom bs.length [] bs

end FlowProfile
