import FlowProfile.Proofs.Record.Arguments
import FlowProfile.Proofs.Record.Truncation

/-!
# All spellings of a record

A record is read off the bytes that are written for it, and off a few others: arguments may be words
with spaces between them, the last of them may lack its NUL, and edges may have a vector of ranks
that is empty. There are no other spellings. So whatever was read can be written, and it is read
again as it was.
-/

namespace FlowProfile

theorem littleEndian_ofLittleEndian (bs : Bytes) :
    littleEndian bs.length (ofLittleEndian bs) = bs := by
  induction bs with
  | nil => rfl
  | cons b bs ih =>
      have hb := b.toNat_lt
      have hlow : UInt8.ofNat (b.toNat + 256 * ofLittleEndian bs) = b := by
        rw [← UInt8.toNat_inj, UInt8.toNat_ofNat']
        omega
      have hrest : (b.toNat + 256 * ofLittleEndian bs) / 256 = ofLittleEndian bs := by omega
      rw [List.length_cons, ofLittleEndian, littleEndian, hlow, hrest, ih]

theorem ofLittleEndian_lt (bs : Bytes) : ofLittleEndian bs < 256 ^ bs.length := by
  induction bs with
  | nil => exact Nat.one_pos
  | cons b bs ih =>
      have hb := b.toNat_lt
      rw [ofLittleEndian, List.length_cons, Nat.pow_succ]
      omega

/-! ### What a reader takes -/

namespace Reader

variable {α β : Type} {P : α → Bytes → Prop} {Q : β → Bytes → Prop}

/-- Whatever the reader reads, the bytes that it takes off the front spell it. -/
def Takes (P : α → Bytes → Prop) (r : Reader α) : Prop :=
  ∀ bs a rest, r bs = .ok (a, rest) → ∃ front, bs = front ++ rest ∧ P a front

theorem Takes.pure {a : α} (h : P a []) : Takes P (Pure.pure a) := by
  intro bs b rest hb
  cases hb
  exact ⟨[], rfl, h⟩

theorem Takes.throw (f : Failure) : Takes P (MonadExcept.throw f) := by
  intro bs a rest h
  cases h

theorem Takes.bind {r : Reader α} {k : α → Reader β} (hr : Takes P r)
    (hk : ∀ a front, P a front → Takes (fun b rest => Q b (front ++ rest)) (k a)) :
    Takes Q (r >>= k) := by
  intro bs b rest h
  obtain ⟨a, mid, ha, hb⟩ := bind_eq_ok.mp h
  obtain ⟨front, rfl, hfront⟩ := hr bs a mid ha
  obtain ⟨more, rfl, hmore⟩ := hk a front hfront mid b rest hb
  exact ⟨front ++ more, (List.append_assoc ..).symm, hmore⟩

theorem Takes.map {r : Reader α} {f : α → β} (hr : Takes P r)
    (hf : ∀ a front, P a front → Q (f a) front) : Takes Q (do return f (← r)) :=
  hr.bind fun a front h => .pure (by rw [List.append_nil]; exact hf a front h)

theorem bytes_takes (n : ℕ) : Takes (fun x bs => bs = x ∧ x.length = n) (bytes n) := by
  intro bs front rest h
  obtain ⟨rfl, hlength⟩ := bytes_eq_ok_iff.mp h
  exact ⟨front, rfl, rfl, hlength⟩

theorem word_takes : Takes (fun n bs => n < 2 ^ 32 ∧ bs = FlowProfile.word n) word := by
  refine (bytes_takes 4).map ?_
  rintro _ front ⟨rfl, hlength⟩
  have hlt := ofLittleEndian_lt front
  have hbytes := littleEndian_ofLittleEndian front
  rw [hlength] at hlt hbytes
  exact ⟨hlt, hbytes.symm⟩

theorem u64_takes : Takes (fun n bs => bs = u64Bytes n) u64 := by
  refine (bytes_takes 8).map ?_
  rintro _ front ⟨rfl, hlength⟩
  have hlt := ofLittleEndian_lt front
  have hbytes := littleEndian_ofLittleEndian front
  rw [hlength] at hlt hbytes
  rw [u64Bytes, UInt64.toNat_ofNat_of_lt' hlt, hbytes]

theorem f64_takes : Takes (fun x bs => bs = f64Bytes x) f64 := u64_takes.map fun _ _ => id

theorem i32_takes : Takes (fun i bs => bs = i32Bytes i) i32 := by
  refine word_takes.map ?_
  rintro n _ ⟨hlt, rfl⟩
  rw [i32Bytes, UInt32.toUInt32_toInt32, UInt32.toNat_ofNat_of_lt' hlt]

theorem commCounter_takes : Takes (fun c bs => bs = c.toBytes) commCounter := by
  refine u64_takes.bind ?_
  rintro calls _ rfl
  refine u64_takes.map ?_
  rintro bytes _ rfl
  rfl

theorem times_takes {element : Reader α} {toBytes : α → Bytes}
    (h : Takes (fun a bs => bs = toBytes a) element) (n : ℕ) :
    Takes (fun xs bs => xs.length = n ∧ bs = xs.flatMap toBytes) (times element n) := by
  induction n with
  | zero => exact .pure ⟨rfl, rfl⟩
  | succ n ih =>
      refine h.bind ?_
      rintro x _ rfl
      refine ih.map ?_
      rintro xs _ ⟨rfl, rfl⟩
      exact ⟨rfl, List.flatMap_cons.symm⟩

/-- A vector is read off the bytes that are written for it. -/
theorem vector_takes {element : Reader α} {toBytes : α → Bytes}
    (h : Takes (fun a bs => bs = toBytes a) element) :
    Takes (fun xs bs => encodeVector toBytes xs = .ok bs) (vector element) := by
  refine word_takes.bind ?_
  rintro n _ ⟨hlt, rfl⟩
  intro bs xs rest hxs
  obtain ⟨front, rfl, rfl, rfl⟩ := times_takes h n bs xs rest hxs
  exact ⟨_, rfl, encodeVector_eq_ok_iff.mpr ⟨hlt, rfl⟩⟩

theorem expect_takes (need : ℕ) : Takes (fun _ bs => bs = []) (expect need) := by
  intro bs a rest h
  unfold expect at h
  split at h
  · cases h
    exact ⟨[], rfl, rfl⟩
  · cases h

theorem argumentText_takes (bs : Bytes) :
    Takes (fun cs front => front = [] ∧ Utf8.encode cs = bs) (argumentText bs) := by
  unfold argumentText
  split
  · rename_i cs hcs
    exact .pure ⟨rfl, Utf8.encode_of_decode hcs⟩
  · exact .throw _

theorem arguments_takes : Takes (fun args bs => ∃ cs, (Utf8.encode cs).length < 2 ^ 32 ∧
    args = splitArguments cs ∧ bs = textPayload cs) arguments := by
  refine word_takes.bind ?_
  rintro n _ ⟨hlt, rfl⟩
  refine (expect_takes n).bind ?_
  rintro _ _ rfl
  refine (bytes_takes n).bind ?_
  rintro x _ ⟨rfl, rfl⟩
  refine (argumentText_takes _).map ?_
  rintro cs _ ⟨rfl, rfl⟩
  exact ⟨cs, hlt, rfl, by rw [List.nil_append, List.append_nil]; rfl⟩

/-! ### Arguments -/

/-- Pieces end in `c`, but for the last one unless that is empty. -/
theorem terminated_pieces {c : Char} {before : List Char} (hbefore : c ∉ before) (cs : List Char) :
    ∃ (args : List String) (last : List Char), c ∉ last ∧ (∀ arg ∈ args, c ∉ arg.toList) ∧
      before.reverse ++ cs = args.flatMap (fun arg => arg.toList ++ [c]) ++ last ∧
      (terminated c before cs).map String.ofList =
        args ++ if last = [] then [] else [String.ofList last] := by
  induction cs generalizing before with
  | nil =>
      refine ⟨[], before.reverse, mt List.mem_reverse.mp hbefore, by simp, by simp, ?_⟩
      rw [terminated]
      by_cases hnil : before = [] <;> simp [hnil]
  | cons d cs ih =>
      rw [terminated]
      split
      case isTrue hd =>
          obtain ⟨args, last, hlast, hargs, hcs, hpieces⟩ := ih List.not_mem_nil
          refine ⟨String.ofList before.reverse :: args, last, hlast, ?_, ?_, ?_⟩
          · rw [List.forall_mem_cons, String.toList_ofList]
            exact ⟨mt List.mem_reverse.mp hbefore, hargs⟩
          · rw [List.reverse_nil, List.nil_append] at hcs
            simp [hcs, hd]
          · rw [List.map_cons, hpieces, List.cons_append]
      case isFalse hd =>
          obtain ⟨args, last, hlast, hargs, hcs, hpieces⟩ :=
            ih (List.not_mem_cons_of_ne_of_not_mem (Ne.symm hd) hbefore)
          exact ⟨args, last, hlast, hargs, by simpa using hcs, hpieces⟩

end Reader

theorem Utf8.length_encode (cs : List Char) :
    (encode cs).length = (cs.map fun c => (String.utf8EncodeChar c).length).sum :=
  List.length_flatMap ..

/-- Each space makes room for the end of a word, and the end of the text for one more. -/
theorem Text.sum_splitOnPPrepend (cs acc : List Char) :
    ((cs.splitOnPPrepend (· == ' ') acc).map fun piece => (Utf8.encode piece).length + 1).sum =
      (Utf8.encode acc).length + (Utf8.encode cs).length + 1 := by
  induction cs generalizing acc with
  | nil => simp [Utf8.length_encode, List.splitOnPPrepend_nil]
  | cons c cs ih =>
      rw [List.splitOnPPrepend_cons_eq_if]
      split
      case isTrue hc =>
          obtain rfl : c = ' ' := by simpa using hc
          have hspace : (String.utf8EncodeChar ' ').length = 1 := rfl
          have hrest : ((cs.splitOnP (· == ' ')).map fun piece =>
              (Utf8.encode piece).length + 1).sum = 0 + (Utf8.encode cs).length + 1 := ih []
          have hreverse : (Utf8.encode acc.reverse).length = (Utf8.encode acc).length := by
            rw [Utf8.length_encode, Utf8.length_encode, List.map_reverse, List.sum_reverse]
          rw [List.map_cons, List.sum_cons, hrest, hreverse]
          simp only [Utf8.length_encode, List.map_cons, List.sum_cons, hspace]
          omega
      case isFalse =>
          rw [ih]
          simp only [Utf8.length_encode, List.map_cons, List.sum_cons]
          omega

theorem Text.sum_runs_le (cs : List Char) :
    ((runs (· == ' ') cs).map fun run => (Utf8.encode run).length + 1).sum ≤
      (Utf8.encode cs).length + 1 := by
  have hsub : ((runs (· == ' ') cs).map fun run => (Utf8.encode run).length + 1).sum ≤
      ((cs.splitOnP (· == ' ')).map fun piece => (Utf8.encode piece).length + 1).sum :=
    (List.filter_sublist.map _).sum_le_sum fun _ _ => Nat.zero_le _
  have hsum := Text.sum_splitOnPPrepend cs []
  rw [Utf8.encode_nil, List.length_nil, Nat.zero_add] at hsum
  exact hsub.trans hsum.le

theorem sum_utf8ByteSize (args : List String) :
    (args.map fun arg => arg.utf8ByteSize + 1).sum = (args.flatMap argumentBytes).length := by
  simp only [List.length_flatMap, argumentBytes_length]

/-! ### Records -/

/-- The bytes off which a record is read: those that are written for it, or one of the forms that
are only read. -/
inductive Record.Spells : Record → Bytes → Prop where
  | written {r : Record} {bs : Bytes} (h : r.encode = .ok bs) : Spells r bs
  /-- Words with spaces between them. -/
  | words {cs : List Char} (hnul : '\x00' ∉ cs) (hlen : (Utf8.encode cs).length < 2 ^ 32) :
    Spells (.arguments ((Text.runs (· == ' ') cs).map String.ofList))
      (word 1 ++ Reader.textPayload cs)
  /-- A NUL ends each argument but the last. -/
  | unterminated {args : List String} {arg : String} {cs : List Char} (hargs : args ≠ [])
    (harg : arg ≠ "") (hnul : ∀ other ∈ args ++ [arg], '\x00' ∉ other.toList)
    (hcs : cs = args.flatMap (fun arg => arg.toList ++ ['\x00']) ++ arg.toList)
    (hlen : (Utf8.encode cs).length < 2 ^ 32) :
    Spells (.arguments (args ++ [arg])) (word 1 ++ Reader.textPayload cs)
  /-- Edges with ranks, of which there are none. -/
  | withoutRanks {counts : List UInt64} {bs : Bytes} (h : encodeVector u64Bytes counts = .ok bs) :
    Spells (.edges counts []) (word 11 ++ (bs ++ word 0))

namespace Record.Spells

variable {r : Record} {bs : Bytes}

theorem of_payload {payload : Bytes} (h : r.payload = .ok payload) :
    r.Spells (word r.tag ++ payload) := by
  refine .written ?_
  rw [encode, h]
  rfl

/-- Arguments that were read off a text. -/
theorem of_text {cs : List Char} (hlen : (Utf8.encode cs).length < 2 ^ 32) :
    Spells (.arguments (Reader.splitArguments cs)) (word 1 ++ Reader.textPayload cs) := by
  unfold Reader.splitArguments
  split
  case isTrue hnul =>
      obtain ⟨args, last, hlast, hargs, hcs, hpieces⟩ :=
        Reader.terminated_pieces (List.not_mem_nil (a := '\x00')) cs
      rw [List.reverse_nil, List.nil_append] at hcs
      rw [hpieces]
      by_cases hnil : last = []
      · rw [if_pos hnil, List.append_nil]
        rw [hnil, List.append_nil] at hcs
        subst hcs
        rw [← Reader.flatMap_argumentBytes] at hlen
        refine .of_payload (r := .arguments args)
          (Reader.encodeArguments_eq_ok_iff.mpr ⟨hargs, hlen, ?_⟩)
        rw [Reader.textPayload, ← Reader.flatMap_argumentBytes]
      · rw [if_neg hnil]
        refine .unterminated ?_ ?_ ?_ (by rw [String.toList_ofList]; exact hcs) hlen
        · rintro rfl
          rw [List.flatMap_nil, List.nil_append] at hcs
          exact hlast (hcs ▸ hnul)
        · simpa using hnil
        · rw [List.forall_mem_append, List.forall_mem_singleton, String.toList_ofList]
          exact ⟨hargs, hlast⟩
  case isFalse hnul => exact .words hnul hlen

end Record.Spells

namespace Reader

/-- Every record is read off one of its spellings. -/
theorem record_takes : Takes Record.Spells record := by
  refine word_takes.bind ?_
  rintro tag _ ⟨-, rfl⟩
  unfold payload
  split
  · refine arguments_takes.map ?_
    rintro _ _ ⟨cs, hlen, rfl, rfl⟩
    exact .of_text hlen
  · exact (vector_takes u64_takes).map fun counts _ h => .of_payload (r := .blocks counts) h
  · exact (vector_takes u64_takes).map fun counts _ h => .of_payload (r := .edges counts []) h
  · refine (vector_takes u64_takes).bind fun counts front h => ?_
    refine (vector_takes i32_takes).map fun ranks rest hranks => ?_
    cases ranks with
    | nil =>
        obtain rfl : FlowProfile.word 0 = rest := by
          simpa using (encodeVector_eq_ok_iff.mp hranks).2.symm
        exact .withoutRanks h
    | cons rank ranks =>
        refine .of_payload (r := .edges counts (rank :: ranks)) ?_
        rw [Record.payload, h, Outcome.ok_bind, hranks]
        rfl
  · exact (vector_takes i32_takes).map fun ranks _ h => .of_payload (r := .ranks ranks) h
  · exact (vector_takes u64_takes).map fun bytes _ h => .of_payload (r := .legacyComm bytes) h
  · exact (vector_takes commCounter_takes).map fun counters _ h =>
      .of_payload (r := .comm counters) h
  · refine (vector_takes f64_takes).bind fun seconds front h => ?_
    refine (vector_takes i32_takes).map fun ranks rest hranks => ?_
    refine .of_payload (r := .time seconds ranks) ?_
    rw [Record.payload, h, Outcome.ok_bind, hranks]
    rfl
  · exact (vector_takes f64_takes).map fun weights _ h =>
      .of_payload (r := .weightedBlocks weights) h
  · exact .throw _

theorem terminated_of_not_mem {c : Char} {before cs : List Char} (h : c ∉ cs)
    (hne : before.reverse ++ cs ≠ []) : terminated c before cs = [before.reverse ++ cs] := by
  induction cs generalizing before with
  | nil => rw [terminated, if_neg (by simpa using hne), List.append_nil]
  | cons d cs ih =>
      rw [List.mem_cons, not_or] at h
      rw [terminated, if_neg (Ne.symm h.1), ih h.2 (by simp)]
      simp

theorem splitArguments_unterminated {args : List String} {arg : String} (hargs : args ≠ [])
    (harg : arg ≠ "") (hnul : ∀ other ∈ args ++ [arg], '\x00' ∉ other.toList) :
    splitArguments (args.flatMap (fun arg => arg.toList ++ ['\x00']) ++ arg.toList) =
      args ++ [arg] := by
  rw [List.forall_mem_append, List.forall_mem_singleton] at hnul
  have hlast : terminated '\x00' [] arg.toList = [arg.toList] :=
    terminated_of_not_mem hnul.2 (by simpa using harg)
  obtain ⟨first, args, rfl⟩ := List.exists_cons_of_ne_nil hargs
  unfold splitArguments
  rw [if_pos (by simp), terminated_flatMap _ hnul.1, hlast]
  simp

end Reader

/-- A record is read off each of its spellings. -/
theorem Record.Spells.reads {r : Record} {bs : Bytes} (h : r.Spells bs) :
    Reader.record.Reads bs r := by
  have htag : ∀ {n : ℕ}, n < 2 ^ 32 → Reader.word.Reads (word n) n := Reader.word_reads
  cases h with
  | written h => exact Reader.record_reads h
  | @words cs hnul hlen =>
      have hsplit : (Text.runs (· == ' ') cs).map String.ofList = Reader.splitArguments cs := by
        rw [Reader.splitArguments, if_neg hnul]
      rw [hsplit]
      exact (htag (by decide)).bind ((Reader.text_reads hlen).map Record.arguments)
  | unterminated hargs harg hnul hcs hlen =>
      rw [← Reader.splitArguments_unterminated hargs harg hnul, ← hcs]
      exact (htag (by decide)).bind ((Reader.text_reads hlen).map Record.arguments)
  | @withoutRanks counts bs h =>
      have hranks : encodeVector i32Bytes [] = .ok (word 0) := rfl
      exact (htag (by decide)).bind ((Reader.vector_reads Reader.u64_reads h).bind
        ((Reader.vector_reads Reader.i32_reads hranks).map (Record.edges counts)))

/-! ### Files -/

theorem decodeFrom_eq_ok_iff {total : ℕ} {before out : List Record} {bs : Bytes} :
    decodeFrom total before bs = .ok out ↔ ∃ rs pieces, out = before.reverse ++ rs ∧
      List.Forall₂ Record.Spells rs pieces ∧ bs = pieces.flatten := by
  constructor
  · intro h
    fun_induction decodeFrom total before bs with
    | case1 before =>
        obtain rfl := Except.ok.inj h
        exact ⟨[], [], (List.append_nil _).symm, .nil, rfl⟩
    | case2 before bs hne r rest hr hlt ih =>
        obtain ⟨rs, pieces, rfl, hspells, rfl⟩ := ih h
        obtain ⟨front, rfl, hfront⟩ := Reader.record_takes _ _ _ hr
        exact ⟨r :: rs, front :: pieces, by simp, .cons hfront hspells, rfl⟩
    | case3 before bs hne failure hr => cases h
  · rintro ⟨rs, pieces, rfl, hspells, rfl⟩
    induction hspells generalizing before with
    | nil => rw [List.flatten_nil, decodeFrom_nil, List.append_nil]
    | @cons r piece rs pieces hpiece _ ih =>
        rw [List.flatten_cons, decodeFrom_of_record (hpiece.reads pieces.flatten), ih,
          List.reverse_cons, List.append_assoc, List.singleton_append]

/-- A file is read as some records exactly if it is made of spellings of them. -/
theorem decodeRecords_eq_ok_iff {bs : Bytes} {rs : List Record} :
    decodeRecords bs = .ok rs ↔
      ∃ pieces, List.Forall₂ Record.Spells rs pieces ∧ bs = pieces.flatten := by
  rw [decodeRecords, decodeFrom_eq_ok_iff]
  constructor
  · rintro ⟨rs, pieces, rfl, h⟩
    exact ⟨pieces, h⟩
  · rintro ⟨pieces, h⟩
    exact ⟨rs, pieces, rfl, h⟩

/-! ### Writing what was read -/

/-- Arguments that are written again take one more byte than a spelling of them at most. -/
theorem Record.Spells.isEncodable {r : Record} {bs : Bytes} (h : r.Spells bs)
    (hlen : bs.length < 2 ^ 32) : r.IsEncodable := by
  cases h with
  | written h =>
      simp only [Record.encode, Outcome.bind_eq_ok_iff, Outcome.pure_eq_ok_iff] at h
      obtain ⟨payload, hpayload, -⟩ := h
      exact r.exists_payload_iff.mp ⟨payload, hpayload⟩
  | @words cs hnul _ =>
      refine ⟨fun arg harg => ?_, ?_⟩
      · obtain ⟨run, hrun, rfl⟩ := List.mem_map.mp harg
        rw [String.toList_ofList]
        exact fun hc => hnul (Text.mem_of_mem_runs hrun hc)
      · have hsum := Text.sum_runs_le cs
        simp only [Reader.textPayload, word, List.length_append, littleEndian_length] at hlen
        rw [List.map_map]
        simp only [Function.comp_def, ← argumentBytes_length, argumentBytes, String.toList_ofList,
          List.length_append, List.length_singleton]
        omega
  | @unterminated args arg cs _ _ hnul hcs _ =>
      refine ⟨hnul, ?_⟩
      have hbytes : (args ++ [arg]).flatMap argumentBytes = Utf8.encode cs ++ [0] := by
        rw [hcs, Utf8.encode_append, ← Reader.flatMap_argumentBytes, List.flatMap_append,
          List.flatMap_singleton, argumentBytes, List.append_assoc]
      simp only [Reader.textPayload, word, List.length_append, littleEndian_length] at hlen
      rw [sum_utf8ByteSize, hbytes, List.length_append, List.length_singleton]
      omega
  | withoutRanks h => exact ⟨(Reader.encodeVector_eq_ok_iff.mp h).1, by decide⟩

theorem isEncodable_of_spells {rs : List Record} {pieces : List Bytes}
    (h : List.Forall₂ Record.Spells rs pieces) (hlen : pieces.flatten.length < 2 ^ 32) :
    ∀ r ∈ rs, r.IsEncodable := by
  induction h with
  | nil => exact List.forall_mem_nil _
  | cons hpiece _ ih =>
      rw [List.flatten_cons, List.length_append] at hlen
      exact List.forall_mem_cons.mpr ⟨hpiece.isEncodable (by omega), ih (by omega)⟩

/-- Whatever was read can be written. What is written is read as the same records, and does not
change when it is written once more. The bytes that were read are those that are written but for
the old spellings. -/
theorem encodeRecords_of_decodeRecords {bs : Bytes} {rs : List Record} (hlen : bs.length < 2 ^ 32)
    (h : decodeRecords bs = .ok rs) :
    ∃ written, encodeRecords rs = .ok written ∧ decodeRecords written = .ok rs ∧
      (decodeRecords written >>= encodeRecords) = .ok written ∧
      ∃ pieces, List.Forall₂ Record.Spells rs pieces ∧ bs = pieces.flatten := by
  obtain ⟨pieces, hspells, hbs⟩ := decodeRecords_eq_ok_iff.mp h
  obtain ⟨written, hwritten⟩ :=
    (exists_encodeRecords_iff rs).mpr (isEncodable_of_spells hspells (hbs ▸ hlen))
  have hread := decodeRecords_whole hwritten
  refine ⟨written, hwritten, hread, ?_, pieces, hspells, hbs⟩
  rw [hread, Outcome.ok_bind, hwritten]

/-- A file of all three old spellings: words, an argument without its NUL, and no ranks. -/
def oldSpellings : Bytes :=
  [1, 0, 0, 0, 3, 0, 0, 0, 97, 32, 98] ++ [1, 0, 0, 0, 3, 0, 0, 0, 99, 0, 100] ++
    [11, 0, 0, 0, 1, 0, 0, 0, 7, 0, 0, 0, 0, 0, 0, 0, 0, 0, 0, 0]

theorem encodeRecords_of_decodeRecords_old :
    ∃ written, decodeRecords oldSpellings =
        .ok [.arguments ["a", "b"], .arguments ["c", "d"], .edges [7] []] ∧
      encodeRecords [.arguments ["a", "b"], .arguments ["c", "d"], .edges [7] []] = .ok written ∧
      written = [1, 0, 0, 0, 4, 0, 0, 0, 97, 0, 98, 0] ++ [1, 0, 0, 0, 4, 0, 0, 0, 99, 0, 100, 0] ++
        [4, 0, 0, 0, 1, 0, 0, 0, 7, 0, 0, 0, 0, 0, 0, 0] ∧
      decodeRecords written =
        .ok [.arguments ["a", "b"], .arguments ["c", "d"], .edges [7] []] := by
  have hread : decodeRecords oldSpellings =
      .ok [.arguments ["a", "b"], .arguments ["c", "d"], .edges [7] []] := by
    have hwords : Record.Spells (.arguments ["a", "b"])
        (word 1 ++ Reader.textPayload ['a', ' ', 'b']) :=
      @Record.Spells.words ['a', ' ', 'b'] (by decide) (by decide)
    have hunterminated : Record.Spells (.arguments (["c"] ++ ["d"]))
        (word 1 ++ Reader.textPayload ['c', '\x00', 'd']) :=
      .unterminated (by decide) (by decide) (by decide) rfl (by decide)
    have hranks : Record.Spells (.edges [7] []) _ := .withoutRanks rfl
    exact decodeRecords_eq_ok_iff.mpr
      ⟨_, .cons hwords (.cons hunterminated (.cons hranks .nil)), by decide⟩
  obtain ⟨written, hwritten, hagain, -⟩ := encodeRecords_of_decodeRecords (by decide) hread
  exact ⟨written, hread, hwritten, (Except.ok.inj hwritten).symm, hagain⟩

end FlowProfile
