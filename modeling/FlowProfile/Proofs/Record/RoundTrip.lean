import FlowProfile.Record.Codec
import FlowProfile.Proofs.Outcome
import FlowProfile.Proofs.Text.Utf8
import Mathlib.Tactic

/-!
# Reading back written records

A reader is described by the bytes off which it reads a value, whatever follows
them. Written records are read one after another, so that files can be appended to.
-/

namespace FlowProfile

theorem ofLittleEndian_littleEndian (width n : ℕ) :
    ofLittleEndian (littleEndian width n) = n % 256 ^ width := by
  induction width generalizing n with
  | zero => simp [littleEndian, ofLittleEndian, Nat.mod_one]
  | succ width ih =>
    have h := @Nat.mod_mul 256 (256 ^ width) n
    simp only [littleEndian, ofLittleEndian, ih, UInt8.toNat_ofNat', Nat.pow_succ,
      Nat.mul_comm _ 256]
    omega

namespace Reader

variable {α β : Type}

/-- The reader takes these bytes, and no others, for the value. -/
def Reads (r : Reader α) (bs : Bytes) (a : α) : Prop := ∀ rest, r (bs ++ rest) = .ok (a, rest)

theorem Reads.pure (a : α) : Reads (Pure.pure a : Reader α) [] a := fun _ => rfl

theorem Reads.bind {r : Reader α} {k : α → Reader β} {bs cs : Bytes} {a : α} {b : β}
    (hr : r.Reads bs a) (hk : (k a).Reads cs b) : (r >>= k).Reads (bs ++ cs) b := by
  intro rest
  rw [List.append_assoc]
  exact bind_eq_ok.mpr ⟨a, cs ++ rest, hr (cs ++ rest), hk rest⟩

/-- A result made of what was read takes no further bytes. -/
theorem Reads.map {r : Reader α} {bs : Bytes} {a : α} (hr : r.Reads bs a) (f : α → β) :
    (do return f (← r)).Reads bs (f a) := by
  have h : (r >>= fun a => Pure.pure (f a)).Reads (bs ++ []) (f a) := hr.bind (Reads.pure (f a))
  rwa [List.append_nil] at h

/-! ### Numbers -/

theorem bytes_reads (bs : Bytes) : (bytes bs.length).Reads bs bs :=
  fun _ => bytes_eq_ok_iff.mpr ⟨rfl, rfl⟩

theorem littleEndian_reads (width n : ℕ) :
    (bytes width).Reads (littleEndian width n) (littleEndian width n) := by
  simpa using bytes_reads (littleEndian width n)

theorem word_reads {n : ℕ} (h : n < 2 ^ 32) : word.Reads (FlowProfile.word n) n := by
  have hr := (littleEndian_reads 4 n).map ofLittleEndian
  rwa [ofLittleEndian_littleEndian, Nat.mod_eq_of_lt (by omega)] at hr

theorem u64_reads (n : UInt64) : u64.Reads (u64Bytes n) n := by
  have hn := n.toNat_lt
  have hr := (littleEndian_reads 8 n.toNat).map fun bs => UInt64.ofNat (ofLittleEndian bs)
  rwa [ofLittleEndian_littleEndian, Nat.mod_eq_of_lt (by omega), UInt64.ofNat_toNat] at hr

theorem f64_reads (x : Binary64) : f64.Reads (f64Bytes x) x := (u64_reads x.bits).map Binary64.mk

theorem i32_reads (i : Int32) : i32.Reads (i32Bytes i) i := by
  have hr := (word_reads i.toUInt32.toNat_lt).map fun n => (UInt32.ofNat n).toInt32
  rwa [UInt32.ofNat_toNat, Int32.toInt32_toUInt32] at hr

theorem commCounter_reads (c : CommCounter) : commCounter.Reads c.toBytes c :=
  (u64_reads c.calls).bind ((u64_reads c.bytes).map (CommCounter.mk c.calls))

/-! ### Vectors -/

theorem times_reads {element : Reader α} {toBytes : α → Bytes}
    (h : ∀ a, element.Reads (toBytes a) a) (xs : List α) :
    (times element xs.length).Reads (xs.flatMap toBytes) xs := by
  induction xs with
  | nil => exact Reads.pure []
  | cons x xs ih => exact (h x).bind (ih.map (x :: ·))

/-- An element count is written if and only if it fits a word. -/
theorem encodeCount_eq_ok_iff {n : ℕ} {bs : Bytes} :
    encodeCount n = .ok bs ↔ n < 2 ^ 32 ∧ bs = FlowProfile.word n := by
  unfold encodeCount
  split <;> simp_all [@eq_comm _ bs]

theorem encodeVector_eq_ok_iff {toBytes : α → Bytes} {xs : List α} {bs : Bytes} :
    encodeVector toBytes xs = .ok bs ↔
      xs.length < 2 ^ 32 ∧ bs = FlowProfile.word xs.length ++ xs.flatMap toBytes := by
  simp only [encodeVector, Outcome.bind_eq_ok_iff, Outcome.pure_eq_ok_iff, encodeCount_eq_ok_iff]
  constructor
  · rintro ⟨_, ⟨hl, rfl⟩, rfl⟩
    exact ⟨hl, rfl⟩
  · rintro ⟨hl, rfl⟩
    exact ⟨_, ⟨hl, rfl⟩, rfl⟩

theorem vector_reads {element : Reader α} {toBytes : α → Bytes}
    (h : ∀ a, element.Reads (toBytes a) a) {xs : List α} {bs : Bytes}
    (hb : encodeVector toBytes xs = .ok bs) : (vector element).Reads bs xs := by
  obtain ⟨hl, rfl⟩ := encodeVector_eq_ok_iff.mp hb
  exact (word_reads hl).bind (times_reads h xs)

/-! ### Arguments -/

/-- The bytes of arguments are those of one text, in which a NUL ends each of them. -/
theorem flatMap_argumentBytes (args : List String) :
    args.flatMap argumentBytes = Utf8.encode (args.flatMap fun arg => arg.toList ++ ['\x00']) := by
  induction args with
  | nil => rfl
  | cons arg args ih =>
      rw [List.flatMap_cons, List.flatMap_cons, Utf8.encode_append, Utf8.encode_append, ← ih]
      rfl

theorem terminated_append {c : Char} (before cs rest : List Char) (h : c ∉ cs) :
    terminated c before (cs ++ c :: rest) = (before.reverse ++ cs) :: terminated c [] rest := by
  induction cs generalizing before with
  | nil => simp [terminated]
  | cons d cs ih =>
      have hd : d ≠ c := fun he => h (he ▸ List.mem_cons_self)
      rw [List.cons_append, terminated, if_neg hd, ih _ fun hc => h (List.mem_cons_of_mem d hc)]
      simp

/-- Arguments that a NUL ends, before any others. -/
theorem terminated_flatMap (args : List String) (h : ∀ arg ∈ args, '\x00' ∉ arg.toList)
    (rest : List Char) :
    terminated '\x00' [] (args.flatMap (fun arg => arg.toList ++ ['\x00']) ++ rest) =
      args.map String.toList ++ terminated '\x00' [] rest := by
  induction args with
  | nil => rfl
  | cons arg args ih =>
      have htail := ih fun arg ha => h arg (List.mem_cons_of_mem _ ha)
      rw [List.flatMap_cons, List.append_assoc, List.append_assoc, List.singleton_append,
        terminated_append _ _ _ (h arg List.mem_cons_self), htail]
      rfl

/-- No arguments at all leave a text without any NUL, and that has no words. -/
theorem splitArguments_flatMap (args : List String) (h : ∀ arg ∈ args, '\x00' ∉ arg.toList) :
    splitArguments (args.flatMap fun arg => arg.toList ++ ['\x00']) = args := by
  cases args with
  | nil => simp [splitArguments, Text.runs]
  | cons arg args =>
      have hpieces := terminated_flatMap _ h []
      rw [List.append_nil, terminated, if_pos rfl, List.append_nil] at hpieces
      unfold splitArguments
      rw [if_pos (by simp), hpieces, List.map_map]
      simp

theorem encodeArgument_eq_ok_iff {arg : String} {bs : Bytes} :
    encodeArgument arg = .ok bs ↔ '\x00' ∉ arg.toList ∧ bs = argumentBytes arg := by
  unfold encodeArgument
  split <;> simp_all [@eq_comm _ bs]

theorem mapM_encodeArgument_eq_ok_iff {args : List String} {bs : List Bytes} :
    args.mapM encodeArgument = .ok bs ↔
      (∀ arg ∈ args, '\x00' ∉ arg.toList) ∧ bs = args.map argumentBytes := by
  induction args generalizing bs with
  | nil =>
      rw [List.mapM_nil, Outcome.pure_eq_ok_iff]
      simp [eq_comm]
  | cons arg args ih =>
      rw [Outcome.mapM_cons_eq_ok_iff]
      constructor
      · rintro ⟨_, _, ha, hs, rfl⟩
        obtain ⟨harg, rfl⟩ := encodeArgument_eq_ok_iff.mp ha
        obtain ⟨hargs, rfl⟩ := ih.mp hs
        exact ⟨List.forall_mem_cons.mpr ⟨harg, hargs⟩, rfl⟩
      · rintro ⟨hall, rfl⟩
        obtain ⟨harg, hargs⟩ := List.forall_mem_cons.mp hall
        exact ⟨_, _, encodeArgument_eq_ok_iff.mpr ⟨harg, rfl⟩, ih.mpr ⟨hargs, rfl⟩, rfl⟩

theorem encodeArguments_eq_ok_iff {args : List String} {bs : Bytes} :
    encodeArguments args = .ok bs ↔
      (∀ arg ∈ args, '\x00' ∉ arg.toList) ∧ (args.flatMap argumentBytes).length < 2 ^ 32 ∧
        bs = FlowProfile.word (args.flatMap argumentBytes).length ++
          args.flatMap argumentBytes := by
  have hlen : (args.map fun arg => (argumentBytes arg).length).sum =
      (args.flatMap argumentBytes).length := by
    rw [List.length_flatMap]
  simp only [encodeArguments, hlen, Outcome.bind_eq_ok_iff, Outcome.pure_eq_ok_iff,
    encodeCount_eq_ok_iff, mapM_encodeArgument_eq_ok_iff]
  constructor
  · rintro ⟨_, ⟨hl, rfl⟩, _, ⟨hargs, rfl⟩, rfl⟩
    exact ⟨hargs, hl, by rw [List.flatMap_def]⟩
  · rintro ⟨hargs, hl, rfl⟩
    exact ⟨_, ⟨hl, rfl⟩, _, ⟨hargs, rfl⟩, by rw [List.flatMap_def]⟩

theorem expect_append {bs rest : Bytes} :
    expect bs.length (bs ++ rest) = .ok ((), bs ++ rest) := by
  unfold expect
  rw [if_pos (by simp)]

/-- The payload of arguments with this text. -/
def textPayload (cs : List Char) : Bytes :=
  FlowProfile.word (Utf8.encode cs).length ++ Utf8.encode cs

theorem text_reads {cs : List Char} (hlen : (Utf8.encode cs).length < 2 ^ 32) :
    arguments.Reads (textPayload cs) (splitArguments cs) := by
  intro rest
  have htext : argumentText (Utf8.encode cs) = (Pure.pure cs : Reader (List Char)) := by
    unfold argumentText
    rw [Utf8.decode_encode]
  rw [textPayload, List.append_assoc]
  refine bind_eq_ok.mpr ⟨_, _, word_reads hlen _, ?_⟩
  refine bind_eq_ok.mpr ⟨_, _, expect_append, ?_⟩
  refine bind_eq_ok.mpr ⟨_, _, bytes_reads _ rest, ?_⟩
  rw [htext]
  exact bind_eq_ok.mpr ⟨_, rest, rfl, rfl⟩

theorem arguments_reads {args : List String} {bs : Bytes} (h : encodeArguments args = .ok bs) :
    arguments.Reads bs args := by
  obtain ⟨hnul, hlen, rfl⟩ := encodeArguments_eq_ok_iff.mp h
  rw [flatMap_argumentBytes] at hlen ⊢
  have htext := text_reads hlen
  rwa [splitArguments_flatMap args hnul] at htext

/-! ### Records -/

theorem payload_reads {r : Record} {bs : Bytes} (h : r.payload = .ok bs) :
    (payload r.tag).Reads bs r := by
  cases r with
  | arguments args => exact (arguments_reads h).map Record.arguments
  | blocks counts => exact (vector_reads u64_reads h).map Record.blocks
  | edges counts ranks =>
      cases ranks with
      | nil => exact (vector_reads u64_reads h).map (Record.edges · [])
      | cons rank ranks =>
          simp only [Record.payload, Outcome.bind_eq_ok_iff, Outcome.pure_eq_ok_iff] at h
          obtain ⟨_, hc, _, hr, rfl⟩ := h
          exact (vector_reads u64_reads hc).bind
            ((vector_reads i32_reads hr).map (Record.edges counts))
  | ranks ranks => exact (vector_reads i32_reads h).map Record.ranks
  | legacyComm bytes => exact (vector_reads u64_reads h).map Record.legacyComm
  | comm counters => exact (vector_reads commCounter_reads h).map Record.comm
  | time seconds ranks =>
      simp only [Record.payload, Outcome.bind_eq_ok_iff, Outcome.pure_eq_ok_iff] at h
      obtain ⟨_, hs, _, hr, rfl⟩ := h
      exact (vector_reads f64_reads hs).bind ((vector_reads i32_reads hr).map (Record.time seconds))
  | weightedBlocks weights => exact (vector_reads f64_reads h).map Record.weightedBlocks

theorem record_reads {r : Record} {bs : Bytes} (h : r.encode = .ok bs) : record.Reads bs r := by
  simp only [Record.encode, Outcome.bind_eq_ok_iff, Outcome.pure_eq_ok_iff] at h
  obtain ⟨payload, hp, rfl⟩ := h
  have htag : r.tag < 2 ^ 32 := by
    cases r with
    | edges counts ranks => cases ranks <;> simp [Record.tag]
    | _ => simp [Record.tag]
  exact (word_reads htag).bind (payload_reads hp)

end Reader

/-! ### Files -/

theorem encodeRecords_nil : encodeRecords [] = .ok [] := rfl

theorem encodeRecords_cons_eq_ok_iff {r : Record} {rs : List Record} {bs : Bytes} :
    encodeRecords (r :: rs) = .ok bs ↔
      ∃ front rest, r.encode = .ok front ∧ encodeRecords rs = .ok rest ∧ bs = front ++ rest := by
  simp only [encodeRecords, Outcome.bind_eq_ok_iff, Outcome.pure_eq_ok_iff,
    Outcome.mapM_cons_eq_ok_iff]
  constructor
  · rintro ⟨_, ⟨front, pieces, hf, hp, rfl⟩, rfl⟩
    exact ⟨front, pieces.flatten, hf, ⟨pieces, hp, rfl⟩, rfl⟩
  · rintro ⟨front, _, hf, ⟨pieces, hp, rfl⟩, rfl⟩
    exact ⟨front :: pieces, ⟨front, pieces, hf, hp, rfl⟩, rfl⟩

theorem encodeRecords_append {rs ss : List Record} {front rest : Bytes}
    (hrs : encodeRecords rs = .ok front) (hss : encodeRecords ss = .ok rest) :
    encodeRecords (rs ++ ss) = .ok (front ++ rest) := by
  induction rs generalizing front with
  | nil =>
      obtain rfl := Except.ok.inj hrs
      exact hss
  | cons r rs ih =>
      obtain ⟨first, others, hfirst, hothers, rfl⟩ := encodeRecords_cons_eq_ok_iff.mp hrs
      exact encodeRecords_cons_eq_ok_iff.mpr
        ⟨first, others ++ rest, hfirst, ih hothers, List.append_assoc first others rest⟩

/-- The bytes of a record hold at least its tag. -/
theorem Record.encode_ne_nil {r : Record} {bs : Bytes} (h : r.encode = .ok bs) : bs ≠ [] := by
  simp only [Record.encode, Outcome.bind_eq_ok_iff, Outcome.pure_eq_ok_iff] at h
  obtain ⟨payload, -, rfl⟩ := h
  exact List.append_ne_nil_of_left_ne_nil (List.ne_nil_of_length_pos (by simp [word])) payload

theorem decodeFrom_of_record {total : ℕ} {before : List Record} {bs rest : Bytes} {r : Record}
    (h : Reader.record bs = .ok (r, rest)) :
    decodeFrom total before bs = decodeFrom total (r :: before) rest := by
  have hne : bs ≠ [] := by
    rintro rfl
    exact absurd (Reader.record_length h) (by simp)
  rw [decodeFrom, if_neg hne]
  split
  · rename_i r' rest' h'
    rw [h] at h'
    cases h'
    rfl
  · rename_i failure h'
    rw [h] at h'
    cases h'

/-- Written records are read before all that follows them. -/
theorem decodeFrom_append {total : ℕ} {before rs : List Record} {front : Bytes}
    (h : encodeRecords rs = .ok front) (rest : Bytes) :
    decodeFrom total before (front ++ rest) = decodeFrom total (rs.reverse ++ before) rest := by
  induction rs generalizing before front with
  | nil =>
      cases h
      rfl
  | cons r rs ih =>
      obtain ⟨bytes, front, hr, hrs, rfl⟩ := encodeRecords_cons_eq_ok_iff.mp h
      rw [List.append_assoc, decodeFrom_of_record (Reader.record_reads hr (front ++ rest)), ih hrs]
      simp

theorem decodeFrom_nil (total : ℕ) (before : List Record) :
    decodeFrom total before [] = .ok before.reverse := by
  rw [decodeFrom, if_pos rfl]

/-! ### Acceptance -/

/-- A record can be written if no argument holds a NUL and all its sizes fit words of 32 bits. -/
def Record.IsEncodable : Record → Prop
  | arguments args =>
    (∀ arg ∈ args, '\x00' ∉ arg.toList) ∧
      (args.map fun arg => arg.utf8ByteSize + 1).sum < 2 ^ 32
  | blocks counts | legacyComm counts => counts.length < 2 ^ 32
  | edges counts rs => counts.length < 2 ^ 32 ∧ rs.length < 2 ^ 32
  | ranks rs => rs.length < 2 ^ 32
  | comm counters => counters.length < 2 ^ 32
  | time seconds rs => seconds.length < 2 ^ 32 ∧ rs.length < 2 ^ 32
  | weightedBlocks weights => weights.length < 2 ^ 32

instance : (r : Record) → Decidable r.IsEncodable
  | .arguments args =>
    inferInstanceAs (Decidable ((∀ arg ∈ args, '\x00' ∉ arg.toList) ∧
      (args.map fun arg => arg.utf8ByteSize + 1).sum < 2 ^ 32))
  | .blocks counts | .legacyComm counts => inferInstanceAs (Decidable (counts.length < 2 ^ 32))
  | .edges counts rs =>
    inferInstanceAs (Decidable (counts.length < 2 ^ 32 ∧ rs.length < 2 ^ 32))
  | .ranks rs => inferInstanceAs (Decidable (rs.length < 2 ^ 32))
  | .comm counters => inferInstanceAs (Decidable (counters.length < 2 ^ 32))
  | .time seconds rs =>
    inferInstanceAs (Decidable (seconds.length < 2 ^ 32 ∧ rs.length < 2 ^ 32))
  | .weightedBlocks weights => inferInstanceAs (Decidable (weights.length < 2 ^ 32))

theorem argumentBytes_length (arg : String) :
    (argumentBytes arg).length = arg.utf8ByteSize + 1 := by
  obtain ⟨cs, rfl⟩ := arg.exists_eq_ofList
  simp [argumentBytes, Utf8.encode, ← String.size_toByteArray, List.utf8Encode]

theorem exists_encodeVector_iff {α : Type} {toBytes : α → Bytes} {xs : List α} :
    (∃ bs, encodeVector toBytes xs = .ok bs) ↔ xs.length < 2 ^ 32 := by
  simp [Reader.encodeVector_eq_ok_iff]

/-- Two vectors are written one after the other. -/
theorem exists_encodeVectors_iff {α β : Type} {toBytes : α → Bytes} {toBytes' : β → Bytes}
    {xs : List α} {ys : List β} :
    (∃ bs, (do return (← encodeVector toBytes xs) ++ (← encodeVector toBytes' ys)) =
      (.ok bs : Outcome Bytes)) ↔ xs.length < 2 ^ 32 ∧ ys.length < 2 ^ 32 := by
  simp only [Outcome.bind_eq_ok_iff, Outcome.pure_eq_ok_iff]
  constructor
  · rintro ⟨_, front, hf, rest, hr, rfl⟩
    exact ⟨exists_encodeVector_iff.mp ⟨front, hf⟩, exists_encodeVector_iff.mp ⟨rest, hr⟩⟩
  · rintro ⟨hx, hy⟩
    obtain ⟨front, hf⟩ := exists_encodeVector_iff.mpr hx
    obtain ⟨rest, hr⟩ := exists_encodeVector_iff.mpr hy
    exact ⟨_, front, hf, rest, hr, rfl⟩

theorem Record.exists_payload_iff (r : Record) : (∃ bs, r.payload = .ok bs) ↔ r.IsEncodable := by
  cases r with
  | arguments args =>
      have hlen : (args.flatMap argumentBytes).length =
          (args.map fun arg => arg.utf8ByteSize + 1).sum := by
        simp only [List.length_flatMap, argumentBytes_length]
      simp only [payload, IsEncodable, Reader.encodeArguments_eq_ok_iff, hlen]
      simp
  | edges counts ranks =>
      cases ranks with
      | nil => simpa [payload, IsEncodable] using exists_encodeVector_iff
      | cons rank ranks => exact exists_encodeVectors_iff
  | time seconds ranks => exact exists_encodeVectors_iff
  | _ => exact exists_encodeVector_iff

theorem exists_encodeRecords_iff (rs : List Record) :
    (∃ bs, encodeRecords rs = .ok bs) ↔ ∀ r ∈ rs, r.IsEncodable := by
  have hencode : ∀ r : Record, (∃ bs, r.encode = .ok bs) ↔ r.IsEncodable := by
    intro r
    rw [← r.exists_payload_iff]
    simp only [Record.encode, Outcome.bind_eq_ok_iff, Outcome.pure_eq_ok_iff]
    constructor
    · rintro ⟨_, bs, h, _⟩
      exact ⟨bs, h⟩
    · rintro ⟨bs, h⟩
      exact ⟨_, bs, h, rfl⟩
  induction rs with
  | nil => simp [encodeRecords_nil]
  | cons r rs ih =>
      rw [List.forall_mem_cons]
      refine Iff.trans ?_ (and_congr (hencode r) ih)
      constructor
      · rintro ⟨bs, h⟩
        obtain ⟨front, rest, hf, hr, -⟩ := encodeRecords_cons_eq_ok_iff.mp h
        exact ⟨⟨front, hf⟩, rest, hr⟩
      · rintro ⟨⟨front, hf⟩, rest, hr⟩
        exact ⟨_, encodeRecords_cons_eq_ok_iff.mpr ⟨front, rest, hf, hr, rfl⟩⟩

/-! ### Round trip -/

/-- Records that can be written are read back as they were. Numbers in binary64 are their bits, so
no payload of a NaN and no sign of a zero is lost. -/
theorem decodeRecords_encodeRecords (rs : List Record) :
    ((∃ bs, encodeRecords rs = .ok bs) ↔ ∀ r ∈ rs, r.IsEncodable) ∧
      ∀ bs, encodeRecords rs = .ok bs → decodeRecords bs = .ok rs := by
  refine ⟨exists_encodeRecords_iff rs, ?_⟩
  intro bs h
  have hd : decodeFrom bs.length [] (bs ++ []) = decodeFrom bs.length (rs.reverse ++ []) [] :=
    decodeFrom_append h []
  rw [List.append_nil, decodeFrom_nil, List.append_nil, List.reverse_reverse] at hd
  exact hd

/-- A NaN with a payload, an empty argument and both kinds of edges. -/
theorem decodeRecords_encodeRecords_mixed :
    ∃ bs, encodeRecords [.arguments ["run me", ""], .edges [1] [], .edges [] [-1],
        .time [⟨0x7FF8000000000001⟩] [], .comm [⟨2, 64⟩]] = .ok bs ∧
      decodeRecords bs = .ok [.arguments ["run me", ""], .edges [1] [], .edges [] [-1],
        .time [⟨0x7FF8000000000001⟩] [], .comm [⟨2, 64⟩]] := by
  have hall : ∀ r ∈ [Record.arguments ["run me", ""], .edges [1] [], .edges [] [-1],
      .time [⟨0x7FF8000000000001⟩] [], .comm [⟨2, 64⟩]], r.IsEncodable := by decide
  obtain ⟨bs, hbs⟩ := (decodeRecords_encodeRecords _).1.mpr hall
  exact ⟨bs, hbs, (decodeRecords_encodeRecords _).2 bs hbs⟩

end FlowProfile
