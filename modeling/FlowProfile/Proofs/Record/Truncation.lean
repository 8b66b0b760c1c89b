import FlowProfile.Proofs.Record.RoundTrip

/-!
# Records cut short

A reader that succeeds does not look at the bytes after those it takes, so that
more bytes change nothing. Hence it fails on a proper beginning of what it would take.
-/

namespace FlowProfile

namespace Reader

variable {α β : Type}

/-- More bytes at the end change no result. -/
def Extends (r : Reader α) : Prop :=
  ∀ bs a rest ext, r bs = .ok (a, rest) → r (bs ++ ext) = .ok (a, rest ++ ext)

theorem Extends.pure (a : α) : Extends (Pure.pure a : Reader α) := by
  intro bs b rest ext h
  cases h
  rfl

theorem Extends.throw (f : Failure) : Extends (MonadExcept.throw f : Reader α) := by
  intro bs b rest ext h
  cases h

theorem Extends.bind {r : Reader α} {k : α → Reader β} (hr : r.Extends)
    (hk : ∀ a, (k a).Extends) : (r >>= k).Extends := by
  intro bs b rest ext h
  obtain ⟨a, mid, ha, hb⟩ := bind_eq_ok.mp h
  exact bind_eq_ok.mpr ⟨a, mid ++ ext, hr _ _ _ ext ha, hk a _ _ _ ext hb⟩

theorem Extends.map {r : Reader α} (hr : r.Extends) (f : α → β) :
    (do return f (← r) : Reader β).Extends :=
  hr.bind fun a => .pure (f a)

theorem bytes_extends (n : ℕ) : (bytes n).Extends := by
  intro bs front rest ext h
  obtain ⟨rfl, hl⟩ := bytes_eq_ok_iff.mp h
  exact bytes_eq_ok_iff.mpr ⟨List.append_assoc _ _ _, hl⟩

theorem word_extends : word.Extends := (bytes_extends 4).map _

theorem u64_extends : u64.Extends := (bytes_extends 8).map _

theorem f64_extends : f64.Extends := u64_extends.map _

theorem i32_extends : i32.Extends := word_extends.map _

theorem commCounter_extends : commCounter.Extends :=
  u64_extends.bind fun _ => u64_extends.map _

theorem times_extends {element : Reader α} (h : element.Extends) (n : ℕ) :
    (times element n).Extends := by
  induction n with
  | zero => exact .pure []
  | succ n ih => exact h.bind fun a => ih.map (a :: ·)

theorem vector_extends {element : Reader α} (h : element.Extends) : (vector element).Extends :=
  word_extends.bind fun n => times_extends h n

theorem argumentText_extends (bs : Bytes) : (argumentText bs).Extends := by
  unfold argumentText
  split
  · exact .pure _
  · exact .throw _

/-- As many bytes as are needed stay as many when others follow. -/
theorem expect_extends (need : ℕ) : (expect need).Extends := by
  intro bs u rest ext h
  unfold expect at h ⊢
  split at h
  · rename_i hn
    cases h
    rw [if_pos (hn.trans (by simp))]
  · cases h

theorem arguments_extends : arguments.Extends :=
  word_extends.bind fun _ => (expect_extends _).bind fun _ => (bytes_extends _).bind fun _ =>
    (argumentText_extends _).map _

theorem payload_extends (tag : ℕ) : (payload tag).Extends := by
  unfold payload
  split
  · exact arguments_extends.map _
  · exact (vector_extends u64_extends).map _
  · exact (vector_extends u64_extends).map _
  · exact (vector_extends u64_extends).bind fun _ => (vector_extends i32_extends).map _
  · exact (vector_extends i32_extends).map _
  · exact (vector_extends u64_extends).map _
  · exact (vector_extends commCounter_extends).map _
  · exact (vector_extends f64_extends).bind fun _ => (vector_extends i32_extends).map _
  · exact (vector_extends f64_extends).map _
  · exact .throw _

theorem record_extends : record.Extends := word_extends.bind fun tag => payload_extends tag

/-- A proper beginning of the bytes of a value cannot be read: whatever was read off it would also
be read off all of them, and leave some of them over. -/
theorem Reads.error_of_prefix {r : Reader α} {front tail : Bytes} {a : α}
    (hr : r.Reads (front ++ tail) a) (he : r.Extends) (ht : tail ≠ []) :
    ∃ failure, r front = .error failure := by
  cases h : r front with
  | error failure => exact ⟨failure, rfl⟩
  | ok result =>
      obtain ⟨b, rest⟩ := result
      have hext := he _ _ _ tail h
      have hread := hr []
      rw [List.append_nil, hext] at hread
      have hnil : rest ++ tail = [] := (Prod.mk.inj (Except.ok.inj hread)).2
      exact absurd (List.append_eq_nil_iff.mp hnil).2 ht

end Reader

/-! ### Files -/

/-- The first `k` records take `n` bytes. -/
def EndsAt (rs : List Record) (k n : ℕ) : Prop :=
  ∃ front, encodeRecords (rs.take k) = .ok front ∧ front.length = n

theorem endsAt_zero_iff {rs : List Record} {n : ℕ} : EndsAt rs 0 n ↔ n = 0 := by
  constructor
  · rintro ⟨front, hf, rfl⟩
    cases hf
    rfl
  · rintro rfl
    exact ⟨[], rfl, rfl⟩

theorem endsAt_succ_iff {r : Record} {rs : List Record} {bytes : Bytes} {k n : ℕ}
    (hr : r.encode = .ok bytes) :
    EndsAt (r :: rs) (k + 1) n ↔ bytes.length ≤ n ∧ EndsAt rs k (n - bytes.length) := by
  unfold EndsAt
  rw [List.take_succ_cons]
  constructor
  · rintro ⟨front, hf, rfl⟩
    obtain ⟨first, rest, hfirst, hrest, rfl⟩ := encodeRecords_cons_eq_ok_iff.mp hf
    cases hr.symm.trans hfirst
    exact ⟨by simp, rest, hrest, by simp⟩
  · rintro ⟨hle, rest, hrest, hlen⟩
    refine ⟨bytes ++ rest, encodeRecords_cons_eq_ok_iff.mpr ⟨bytes, rest, hr, hrest, rfl⟩, ?_⟩
    rw [List.length_append]
    omega

theorem decodeFrom_error_of_record {total : ℕ} {before : List Record} {bs : Bytes}
    {failure : Failure} (hne : bs ≠ []) (h : Reader.record bs = .error failure) :
    decodeFrom total before bs = .error (failure.within (.recordAt (total - bs.length))) := by
  rw [decodeFrom, if_neg hne]
  split
  · rename_i r rest h'
    rw [h] at h'
    cases h'
  · rename_i failure' h'
    rw [h] at h'
    cases h'
    rfl

/-- What is read of a file comes after what was read before it and before what follows. -/
theorem decodeFrom_extend {total : ℕ} {before out : List Record} {bs : Bytes}
    (h : decodeFrom total before bs = .ok out) (total' : ℕ) (earlier : List Record) (ext : Bytes) :
    decodeFrom total' (before ++ earlier) (bs ++ ext) =
      decodeFrom total' (out.reverse ++ earlier) ext := by
  fun_induction decodeFrom total before bs with
  | case1 before =>
      cases h
      rw [List.nil_append, List.reverse_reverse]
  | case2 before bs hne r rest hr hlt ih =>
      rw [decodeFrom_of_record (Reader.record_extends _ _ _ ext hr)]
      exact ih h
  | case3 before bs hne failure hr => cases h

theorem decodeRecords_append {a b : Bytes} {rs ss : List Record} (ha : decodeRecords a = .ok rs)
    (hb : decodeRecords b = .ok ss) : decodeRecords (a ++ b) = .ok (rs ++ ss) := by
  have hfirst := decodeFrom_extend ha (a ++ b).length [] b
  have hsecond := decodeFrom_extend hb (a ++ b).length rs.reverse []
  rw [List.append_nil, List.append_nil] at hfirst
  rw [List.append_nil, List.nil_append, decodeFrom_nil] at hsecond
  rw [decodeRecords, hfirst, hsecond]
  simp

/-- A part of a record is not enough. -/
theorem decodeFrom_take_error {n : ℕ} {r : Record} {bytes : Bytes} (hr : r.encode = .ok bytes)
    (hpos : 0 < n) (hlt : n < bytes.length) (total : ℕ) (before : List Record) :
    ∃ failure, decodeFrom total before (bytes.take n) = .error failure := by
  have hread : Reader.record.Reads (bytes.take n ++ bytes.drop n) r := by
    rw [List.take_append_drop]
    exact Reader.record_reads hr
  obtain ⟨failure, hf⟩ := hread.error_of_prefix Reader.record_extends
    (List.ne_nil_of_length_pos (by rw [List.length_drop]; omega))
  have hne : bytes.take n ≠ [] := List.ne_nil_of_length_pos (by rw [List.length_take]; omega)
  exact ⟨_, decodeFrom_error_of_record hne hf⟩

/-- The records are cut off one by one, until the cut lies before, inside or right after one. -/
theorem decodeFrom_take_eq_ok_iff {total n : ℕ} {before out rs : List Record} {bytes : Bytes}
    (h : encodeRecords rs = .ok bytes) (hn : n ≤ bytes.length) :
    decodeFrom total before (bytes.take n) = .ok out ↔
      ∃ k ≤ rs.length, EndsAt rs k n ∧ out = before.reverse ++ rs.take k := by
  induction rs generalizing before bytes n with
  | nil =>
      obtain rfl : [] = bytes := Except.ok.inj h
      obtain rfl : n = 0 := Nat.le_zero.mp hn
      rw [List.take_nil, decodeFrom_nil]
      simp [endsAt_zero_iff, eq_comm]
  | cons r rs ih =>
      obtain ⟨first, rest, hr, hrs, rfl⟩ := encodeRecords_cons_eq_ok_iff.mp h
      have hfirst : 0 < first.length := List.length_pos_iff.mpr (Record.encode_ne_nil hr)
      by_cases hzero : n = 0
      · subst hzero
        rw [List.take_zero, decodeFrom_nil]
        constructor
        · rintro ⟨⟩
          exact ⟨0, Nat.zero_le _, endsAt_zero_iff.mpr rfl, by simp⟩
        · rintro ⟨k, -, hends, rfl⟩
          cases k with
          | zero => simp
          | succ k => exact absurd ((endsAt_succ_iff hr).mp hends).1 (Nat.not_le.mpr hfirst)
      by_cases hlt : n < first.length
      · rw [List.take_append_of_le_length hlt.le]
        obtain ⟨failure, hf⟩ :=
          decodeFrom_take_error hr (Nat.pos_of_ne_zero hzero) hlt total before
        rw [hf]
        constructor
        · intro hok
          cases hok
        · rintro ⟨k, -, hends, -⟩
          cases k with
          | zero => exact absurd (endsAt_zero_iff.mp hends) hzero
          | succ k => exact absurd ((endsAt_succ_iff hr).mp hends).1 (Nat.not_le.mpr hlt)
      · have hle : first.length ≤ n := Nat.le_of_not_lt hlt
        have hrest : n - first.length ≤ rest.length := by
          rw [List.length_append] at hn
          omega
        rw [List.take_append, List.take_of_length_le hle,
          decodeFrom_of_record (Reader.record_reads hr _), ih hrs hrest]
        constructor
        · rintro ⟨k, hk, hends, rfl⟩
          exact ⟨k + 1, Nat.succ_le_succ hk, (endsAt_succ_iff hr).mpr ⟨hle, hends⟩, by simp⟩
        · rintro ⟨k, hk, hends, rfl⟩
          cases k with
          | zero => exact absurd (endsAt_zero_iff.mp hends) hzero
          | succ k =>
              refine ⟨k, Nat.le_of_succ_le_succ hk, ((endsAt_succ_iff hr).mp hends).2, by simp⟩

/-- A file that is not cut holds all records. -/
theorem decodeRecords_whole {rs : List Record} {bytes : Bytes} (h : encodeRecords rs = .ok bytes) :
    decodeRecords bytes = .ok rs := by
  have hcut : decodeFrom bytes.length [] (bytes.take bytes.length) = .ok rs :=
    (decodeFrom_take_eq_ok_iff h le_rfl).mpr ⟨rs.length, le_rfl,
      ⟨bytes, by rwa [List.take_length], rfl⟩, by rw [List.take_length]; rfl⟩
  rwa [List.take_length] at hcut

/-- A file that is cut can be read if and only if the cut lies between two records or at an end,
and then it holds the records before the cut. -/
theorem decodeRecords_take_eq_ok_iff {rs out : List Record} {bytes : Bytes} {n : ℕ}
    (h : encodeRecords rs = .ok bytes) (hn : n ≤ bytes.length) :
    decodeRecords (bytes.take n) = .ok out ↔
      ∃ k ≤ rs.length, EndsAt rs k n ∧ out = rs.take k :=
  decodeFrom_take_eq_ok_iff h hn

/-- Two records of twelve and sixteen bytes: the first is whole after twelve. -/
theorem decodeRecords_take_two :
    ∃ bytes, encodeRecords [.ranks [3], .blocks [7]] = .ok bytes ∧
      decodeRecords (bytes.take 12) = .ok [.ranks [3]] ∧
      ∀ out, decodeRecords (bytes.take 27) ≠ .ok out := by
  have h : encodeRecords [.ranks [3], .blocks [7]] = .ok _ := rfl
  refine ⟨_, h, ?_, ?_⟩
  · exact (decodeRecords_take_eq_ok_iff h (by decide)).mpr
      ⟨1, by decide, ⟨_, rfl, rfl⟩, rfl⟩
  · intro out hout
    obtain ⟨k, hk, ⟨front, hf, hl⟩, -⟩ := (decodeRecords_take_eq_ok_iff h (by decide)).mp hout
    obtain rfl | rfl | rfl : k = 0 ∨ k = 1 ∨ k = 2 := by
      simp only [List.length_cons, List.length_nil] at hk
      omega
    all_goals
      cases hf
      exact absurd hl (by decide)

end FlowProfile
