import FlowProfile.Text.Utf8
import Mathlib.Tactic

/-!
# Text as bytes and back

The bytes of a text are read as that text, and bytes that are read as a text are its bytes.
-/

namespace FlowProfile.Utf8

theorem toNat_ofNat_byte {m : ℕ} (h : m < 256) : (UInt8.ofNat m).toNat = m := by
  rw [UInt8.toNat_ofNat', Nat.mod_eq_of_lt h]

theorem continuation_ofNat {value seen owed low high m : ℕ} {bs : List UInt8}
    (hl : low ≤ m) (hh : m ≤ high) (hm : m < 256) :
    continuation value seen (owed + 1) low high (UInt8.ofNat m :: bs) =
      continuation (value * 64 + (m - 0x80)) (seen + 1) owed 0x80 0xBF bs := by
  rw [continuation, toNat_ofNat_byte hm, if_pos ⟨hl, hh⟩]

theorem continuation_zero (c : Char) {value seen low high : ℕ} {bs : List UInt8}
    (h : value = c.toNat) : continuation value seen 0 low high bs = .character c seen := by
  rw [continuation, h, Char.ofNat_toNat]

/-- The bytes of a character are read as that character, whatever follows them. -/
theorem head_utf8EncodeChar (c : Char) (rest : List UInt8) :
    ∃ b bs, String.utf8EncodeChar c = b :: bs ∧ head b (bs ++ rest) = .character c bs.length := by
  have hv : c.toNat < 0xD800 ∨ (0xDFFF < c.toNat ∧ c.toNat < 0x110000) := c.valid
  have hn : c.val.toNat = c.toNat := rfl
  unfold String.utf8EncodeChar
  simp only [hn]
  split
  · refine ⟨_, _, rfl, ?_⟩
    simp only [head]
    rw [toNat_ofNat_byte (by omega), if_pos (by omega), Char.ofNat_toNat]
    rfl
  · split
    · refine ⟨_, _, rfl, ?_⟩
      simp only [head]
      rw [toNat_ofNat_byte (by omega), if_neg (by omega), if_neg (by omega), if_pos (by omega),
        List.cons_append, continuation_ofNat (by omega) (by omega) (by omega),
        continuation_zero c (by omega)]
      rfl
    · split
      · refine ⟨_, _, rfl, ?_⟩
        simp only [head, List.cons_append]
        rw [toNat_ofNat_byte (by omega), if_neg (by omega), if_neg (by omega), if_neg (by omega)]
        -- The range of the second byte is what keeps out overlong forms and surrogates.
        have hb : ∀ low high, low ≤ c.toNat / 64 % 64 + 128 → c.toNat / 64 % 64 + 128 ≤ high →
            continuation (c.toNat / 4096 % 16 + 0xe0 - 0xE0) 0 2 low high
              (UInt8.ofNat (c.toNat / 64 % 64 + 128) :: UInt8.ofNat (c.toNat % 64 + 128) ::
                ([] ++ rest)) = .character c 2 := by
          intro low high hl hh
          rw [continuation_ofNat hl hh (by omega),
            continuation_ofNat (by omega) (by omega) (by omega), continuation_zero c (by omega)]
        split_ifs <;> first | omega | exact hb _ _ (by omega) (by omega)
      · refine ⟨_, _, rfl, ?_⟩
        simp only [head, List.cons_append]
        rw [toNat_ofNat_byte (by omega), if_neg (by omega), if_neg (by omega), if_neg (by omega),
          if_neg (by omega), if_neg (by omega), if_neg (by omega)]
        have hb : ∀ low high, low ≤ c.toNat / 4096 % 64 + 128 → c.toNat / 4096 % 64 + 128 ≤ high →
            continuation (c.toNat / 262144 % 8 + 0xf0 - 0xF0) 0 3 low high
              (UInt8.ofNat (c.toNat / 4096 % 64 + 128) :: UInt8.ofNat (c.toNat / 64 % 64 + 128) ::
                UInt8.ofNat (c.toNat % 64 + 128) :: ([] ++ rest)) = .character c 3 := by
          intro low high hl hh
          rw [continuation_ofNat hl hh (by omega),
            continuation_ofNat (by omega) (by omega) (by omega),
            continuation_ofNat (by omega) (by omega) (by omega), continuation_zero c (by omega)]
        split_ifs <;> first | omega | exact hb _ _ (by omega) (by omega)

theorem decodeFrom_encode (index : ℕ) (done cs : List Char) :
    decodeFrom index done (encode cs) = .ok (done.reverse ++ cs) := by
  induction cs generalizing index done with
  | nil => simp [decodeFrom]
  | cons c cs ih =>
      obtain ⟨b, bs, he, hh⟩ := head_utf8EncodeChar c (encode cs)
      have henc : encode (c :: cs) = b :: (bs ++ encode cs) := by
        change String.utf8EncodeChar c ++ encode cs = _
        rw [he, List.cons_append]
      rw [henc, decodeFrom, hh]
      simp only [List.drop_left]
      rw [ih]
      simp

theorem decode_encode (cs : List Char) : decode (encode cs) = .ok cs :=
  decodeFrom_encode 0 [] cs

/-! ### Writing what was read -/

theorem ofNat_byte {b : UInt8} {m : ℕ} (h : m = b.toNat) : UInt8.ofNat m = b := by
  rw [h, UInt8.ofNat_toNat]

theorem toNat_ofNat_char {m : ℕ} (h : m < 0xD800 ∨ (0xDFFF < m ∧ m < 0x110000)) :
    (Char.ofNat m).val.toNat = m := by
  have hvalid : m.isValidChar := h
  rw [Char.ofNat, dif_pos hvalid]
  exact UInt32.toNat_ofNatLT

/-- One more byte was read, and it is in its range. -/
theorem continuation_succ {value seen owed low high extra : ℕ} {bs : List UInt8} {c : Char}
    (h : continuation value seen (owed + 1) low high bs = .character c extra) :
    ∃ b rest, bs = b :: rest ∧ (low ≤ b.toNat ∧ b.toNat ≤ high) ∧
      continuation (value * 64 + (b.toNat - 0x80)) (seen + 1) owed 0x80 0xBF rest =
        .character c extra := by
  cases bs with
  | nil => cases h
  | cons b rest =>
      rw [continuation] at h
      split at h
      case isTrue hrange => exact ⟨b, rest, rfl, hrange, h⟩
      case isFalse => cases h

theorem continuation_one {value seen low high extra : ℕ} {bs : List UInt8} {c : Char}
    (h : continuation value seen 1 low high bs = .character c extra) :
    ∃ b rest, bs = b :: rest ∧ (low ≤ b.toNat ∧ b.toNat ≤ high) ∧
      c = Char.ofNat (value * 64 + (b.toNat - 0x80)) ∧ extra = seen + 1 := by
  obtain ⟨b, rest, rfl, hrange, h⟩ := continuation_succ h
  rw [continuation, Head.character.injEq] at h
  exact ⟨b, rest, rfl, hrange, h.1.symm, h.2.symm⟩

theorem utf8EncodeChar_two {b b₁ : UInt8} (h : 0xC2 ≤ b.toNat ∧ b.toNat < 0xE0)
    (h₁ : 0x80 ≤ b₁.toNat ∧ b₁.toNat ≤ 0xBF) :
    String.utf8EncodeChar (Char.ofNat ((b.toNat - 0xC0) * 64 + (b₁.toNat - 0x80))) = [b, b₁] := by
  unfold String.utf8EncodeChar
  rw [toNat_ofNat_char (by omega)]
  simp only
  rw [if_neg (by omega), if_pos (by omega), ofNat_byte (b := b) (by omega),
    ofNat_byte (b := b₁) (by omega)]

/-- The second byte rules out overlong forms and surrogates. -/
theorem utf8EncodeChar_three {b b₁ b₂ : UInt8} (h : 0xE0 ≤ b.toNat ∧ b.toNat < 0xF0)
    (h₁ : 0x80 ≤ b₁.toNat ∧ b₁.toNat ≤ 0xBF) (hlow : b.toNat = 0xE0 → 0xA0 ≤ b₁.toNat)
    (hhigh : b.toNat = 0xED → b₁.toNat ≤ 0x9F) (h₂ : 0x80 ≤ b₂.toNat ∧ b₂.toNat ≤ 0xBF) :
    String.utf8EncodeChar (Char.ofNat
      (((b.toNat - 0xE0) * 64 + (b₁.toNat - 0x80)) * 64 + (b₂.toNat - 0x80))) = [b, b₁, b₂] := by
  unfold String.utf8EncodeChar
  rw [toNat_ofNat_char (by omega)]
  simp only
  rw [if_neg (by omega), if_neg (by omega), if_pos (by omega), ofNat_byte (b := b) (by omega),
    ofNat_byte (b := b₁) (by omega), ofNat_byte (b := b₂) (by omega)]

/-- The second byte rules out overlong forms and numbers that are too large. -/
theorem utf8EncodeChar_four {b b₁ b₂ b₃ : UInt8} (h : 0xF0 ≤ b.toNat ∧ b.toNat ≤ 0xF4)
    (h₁ : 0x80 ≤ b₁.toNat ∧ b₁.toNat ≤ 0xBF) (hlow : b.toNat = 0xF0 → 0x90 ≤ b₁.toNat)
    (hhigh : b.toNat = 0xF4 → b₁.toNat ≤ 0x8F) (h₂ : 0x80 ≤ b₂.toNat ∧ b₂.toNat ≤ 0xBF)
    (h₃ : 0x80 ≤ b₃.toNat ∧ b₃.toNat ≤ 0xBF) :
    String.utf8EncodeChar (Char.ofNat
      ((((b.toNat - 0xF0) * 64 + (b₁.toNat - 0x80)) * 64 + (b₂.toNat - 0x80)) * 64 +
        (b₃.toNat - 0x80))) = [b, b₁, b₂, b₃] := by
  unfold String.utf8EncodeChar
  rw [toNat_ofNat_char (by omega)]
  simp only
  rw [if_neg (by omega), if_neg (by omega), if_neg (by omega), ofNat_byte (b := b) (by omega),
    ofNat_byte (b := b₁) (by omega), ofNat_byte (b := b₂) (by omega),
    ofNat_byte (b := b₃) (by omega)]

/-- A character that was read is written as the bytes that were taken for it. -/
theorem utf8EncodeChar_of_head {b : UInt8} {bs : List UInt8} {c : Char} {extra : ℕ}
    (h : head b bs = .character c extra) : String.utf8EncodeChar c ++ bs.drop extra = b :: bs := by
  have htwo : ∀ low high, (low = 0xA0 ∨ b.toNat ≠ 0xE0) → 0x80 ≤ low → high ≤ 0xBF →
      (high = 0x9F ∨ b.toNat ≠ 0xED) → 0xE0 ≤ b.toNat ∧ b.toNat < 0xF0 →
      continuation (b.toNat - 0xE0) 0 2 low high bs = .character c extra →
      String.utf8EncodeChar c ++ bs.drop extra = b :: bs := by
    intro low high hlow hlow' hhigh' hhigh hb h
    obtain ⟨b₁, rest, rfl, hrange, h⟩ := continuation_succ h
    obtain ⟨b₂, rest, rfl, hrange₂, hc, rfl⟩ := continuation_one h
    rw [hc, utf8EncodeChar_three hb (by omega) (by omega) (by omega) hrange₂]
    simp
  have hthree : ∀ low high, (low = 0x90 ∨ b.toNat ≠ 0xF0) → 0x80 ≤ low → high ≤ 0xBF →
      (high = 0x8F ∨ b.toNat ≠ 0xF4) → 0xF0 ≤ b.toNat ∧ b.toNat ≤ 0xF4 →
      continuation (b.toNat - 0xF0) 0 3 low high bs = .character c extra →
      String.utf8EncodeChar c ++ bs.drop extra = b :: bs := by
    intro low high hlow hlow' hhigh' hhigh hb h
    obtain ⟨b₁, rest, rfl, hrange, h⟩ := continuation_succ h
    obtain ⟨b₂, rest, rfl, hrange₂, h⟩ := continuation_succ h
    obtain ⟨b₃, rest, rfl, hrange₃, hc, rfl⟩ := continuation_one h
    rw [hc, utf8EncodeChar_four hb (by omega) (by omega) (by omega) hrange₂ hrange₃]
    simp
  simp only [head] at h
  split_ifs at h with h₁ h₂ h₃ h₄ h₅ h₆ h₇ h₈ h₉
  · rw [Head.character.injEq] at h
    obtain ⟨rfl, rfl⟩ := h
    unfold String.utf8EncodeChar
    rw [toNat_ofNat_char (by omega)]
    simp only
    rw [if_pos (by omega), UInt8.ofNat_toNat]
    rfl
  · obtain ⟨b₁, rest, rfl, hrange, hc, rfl⟩ := continuation_one h
    rw [hc, utf8EncodeChar_two (by omega) hrange]
    simp
  · exact htwo _ _ (.inl rfl) (by omega) (by omega) (by omega) (by omega) h
  · exact htwo _ _ (by omega) (by omega) (by omega) (.inl rfl) (by omega) h
  · exact htwo _ _ (by omega) (by omega) (by omega) (by omega) (by omega) h
  · exact hthree _ _ (.inl rfl) (by omega) (by omega) (by omega) (by omega) h
  · exact hthree _ _ (by omega) (by omega) (by omega) (by omega) (by omega) h
  · exact hthree _ _ (by omega) (by omega) (by omega) (.inl rfl) (by omega) h

theorem encode_of_decodeFrom {index : ℕ} {done cs : List Char} {bs : List UInt8}
    (h : decodeFrom index done bs = .ok cs) : encode cs = encode done.reverse ++ bs := by
  fun_induction decodeFrom index done bs with
  | case1 index done =>
      obtain rfl := Except.ok.inj h
      rw [List.append_nil]
  | case2 index done b bs c extra hc ih =>
      rw [ih h, List.reverse_cons, encode_append, List.append_assoc, ← utf8EncodeChar_of_head hc]
      simp [encode]
  | case3 => cases h
  | case4 => cases h

/-- Bytes that are text throughout are the bytes of that text. -/
theorem encode_of_decode {bs : List UInt8} {cs : List Char} (h : decode bs = .ok cs) :
    encode cs = bs := encode_of_decodeFrom h

end FlowProfile.Utf8
