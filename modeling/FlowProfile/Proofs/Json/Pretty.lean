import FlowProfile.Json.Printer
import FlowProfile.Json.Reader
import FlowProfile.Proofs.Text.Utf8
import Mathlib.Data.List.TakeWhile

/-!
# Reading what was printed

A document whose string literals are text and whose numbers are integers is read off the text that
is printed for it. Tokens are cut off the text one at a time, and the machine takes each as it is
cut.
-/

namespace FlowProfile.Json

/-! ### String literals -/

theorem literalText_some (s : String) :
    literalText (some s) = '"' :: (s.toList.flatMap escape ++ ['"']) := rfl

theorem scanString_unescape {c e : Char} (h : unescape? e = some c) (before : List Piece)
    (rest : List Symbol) :
    scanString before (some '\\' :: some e :: rest) = scanString (.char c :: before) rest := by
  have he := h
  unfold unescape? at he
  split at he <;> simp_all [scanString]

theorem scanString_char {c : Char} (hquote : c ≠ '"') (hbackslash : c ≠ '\\')
    (hcontrol : ¬c.toNat < 0x20) (before : List Piece) (rest : List Symbol) :
    scanString before (some c :: rest) = scanString (.char c :: before) rest := by
  rw [scanString.eq_def]
  split <;> simp_all

theorem unit?_hexDigit :
    ∀ n < 0x20, unit? '0' '0' (hexDigit (n / 16)) (hexDigit (n % 16)) = some n := by
  decide

theorem join_unit {c : Char} (h : c.toNat < 0x20) (ps : List Piece) :
    join (.unit c.toNat :: ps) = (join ps).map (c :: ·) := by
  have hhigh : ¬isHighSurrogate c.toNat := by simp [isHighSurrogate]; omega
  have hlow : ¬isLowSurrogate c.toNat := by simp [isLowSurrogate]; omega
  rw [join.eq_def]
  simp [hhigh, hlow, Char.ofNat_toNat]

/-- What stands for a character is one piece, and the piece denotes that character. -/
theorem scanString_escape (c : Char) : ∃ p : Piece,
    (∀ before rest, scanString before ((escape c).map some ++ rest) =
      scanString (p :: before) rest) ∧
    ∀ ps, join (p :: ps) = (join ps).map (c :: ·) := by
  unfold escape
  split
  case h_8 _ hquote hbackslash _ _ _ _ _ =>
      split
      case isTrue hcontrol =>
          refine ⟨.unit c.toNat, fun before rest => ?_, join_unit hcontrol⟩
          simp [scanString, unit?_hexDigit _ hcontrol]
      case isFalse hcontrol =>
          exact ⟨.char c, scanString_char hquote hbackslash hcontrol, fun ps => by rw [join]⟩
  all_goals exact ⟨.char _, scanString_unescape rfl, fun ps => by rw [join]⟩

theorem scanString_text (cs : List Char) (before : List Piece) (rest : List Symbol) :
    ∃ ps, scanString before ((cs.flatMap escape ++ ['"']).map some ++ rest) =
      some (before.reverse ++ ps, rest) ∧ join ps = some cs := by
  induction cs generalizing before with
  | nil => exact ⟨[], by simp [scanString], rfl⟩
  | cons c cs ih =>
      obtain ⟨p, hscan, hjoin⟩ := scanString_escape c
      obtain ⟨ps, hps, hcs⟩ := ih (p :: before)
      refine ⟨p :: ps, ?_, by rw [hjoin, hcs]; rfl⟩
      rw [List.flatMap_cons, List.append_assoc, List.map_append, List.append_assoc, hscan, hps]
      simp

/-! ### Integers -/

/-- Only zero begins with a zero. -/
theorem head?_toDigits {n : ℕ} (h : (Nat.toDigits 10 n).head? = some '0') : n = 0 := by
  induction n using Nat.strong_induction_on with
  | _ n ih =>
      rcases Nat.lt_or_ge n 10 with hlt | hge
      · rw [Nat.toDigits_of_lt_base hlt, List.head?_cons, Option.some.injEq] at h
        have hzero : ∀ n < 10, n.digitChar = '0' → n = 0 := by decide
        exact hzero n hlt h
      · have hdigits := Nat.toDigits_append_toDigits (b := 10) (n := n / 10) (d := n % 10)
          (by decide) (by omega) (by omega)
        rw [Nat.div_add_mod] at hdigits
        rw [← hdigits, List.head?_append_of_ne_nil _ Nat.toDigits_ne_nil] at h
        have hrest := ih (n / 10) (by omega) h
        omega

theorem isDigit_of_mem_toDigits {n : ℕ} {c : Char} (h : c ∈ Nat.toDigits 10 n) : c.isDigit :=
  Nat.isDigit_of_mem_toDigits (by decide) (by decide) h

theorem digits_toDigits (n : ℕ) : digits (Nat.toDigits 10 n) = (Nat.toDigits 10 n, []) := by
  have hall : ∀ c ∈ Nat.toDigits 10 n, c.isDigit = true := fun _ => isDigit_of_mem_toDigits
  rw [digits, List.span_eq_takeWhile_dropWhile, List.takeWhile_eq_self_iff.mpr hall,
    List.dropWhile_eq_nil_iff.mpr hall]

/-- Minus zero would be no integer. -/
theorem unsigned?_toDigits {negative : Bool} {n : ℕ} (h : ¬(negative ∧ n = 0)) :
    unsigned? negative (Nat.toDigits 10 n) =
      some (.integer (if negative then -(n : Int) else n)) := by
  have hwhole : ¬(Nat.toDigits 10 n = [] ∨
      (1 < (Nat.toDigits 10 n).length ∧ (Nat.toDigits 10 n).head? = some '0')) := by
    rintro (hnil | ⟨hlength, hzero⟩)
    · exact Nat.toDigits_ne_nil hnil
    · rw [head?_toDigits hzero, Nat.toDigits_of_lt_base (by decide)] at hlength
      exact absurd hlength (by decide)
  have hvalue : natural (Nat.toDigits 10 n) = n := Nat.ofDigitChars_ten_toDigits
  unfold unsigned?
  simp only [digits_toDigits, if_neg hwhole, fraction?, exponent?]
  simp [hvalue]
  exact not_and.mp h

theorem number?_numberText (i : Int) : number? (numberText (.integer i)) = some (.integer i) := by
  rw [numberText]
  split
  case isTrue hneg =>
      rw [number?, unsigned?_toDigits (by simp; omega), if_pos rfl]
      congr 2
      omega
  case isFalse hpos =>
      have hne : Nat.toDigits 10 i.natAbs ≠ [] := Nat.toDigits_ne_nil
      obtain ⟨d, ds, hds⟩ := List.exists_cons_of_ne_nil hne
      have hminus : d ≠ '-' := by
        rintro rfl
        exact absurd (isDigit_of_mem_toDigits (hds ▸ List.mem_cons_self)) (by decide)
      have hunsigned : number? (Nat.toDigits 10 i.natAbs) =
          unsigned? false (Nat.toDigits 10 i.natAbs) := by
        rw [hds, number?]
        simpa using hminus
      rw [hunsigned, unsigned?_toDigits (by simp), if_neg (by decide)]
      congr 2
      omega

theorem isWord_numberText (i : Int) : ∀ c ∈ numberText (.integer i), isWord c = true := by
  have hdigits : ∀ c ∈ Nat.toDigits 10 i.natAbs, isWord c = true := by
    intro c hc
    simp [isWord, Char.isAlphanum, isDigit_of_mem_toDigits hc]
  rw [numberText]
  split
  · exact List.forall_mem_cons.mpr ⟨by decide, hdigits⟩
  · exact hdigits

/-! ### One token after another -/

theorem lexFrom_space {before : List Token} {c : Char} {rest : List Symbol} (h : isSpace c) :
    lexFrom before (some c :: rest) = lexFrom before rest := by
  rw [lexFrom, if_pos h]

theorem lexFrom_quote (before : List Token) (rest : List Symbol) :
    lexFrom before (some '"' :: rest) = (scanString [] rest).bind fun piece =>
      lexFrom (.leaf (.string ((join piece.1).map String.ofList)) :: before) piece.2 := by
  rw [lexFrom, if_neg (by decide), if_pos rfl]
  split <;> simp [*]

theorem lexFrom_append (done before : List Token) (cs : List Symbol) :
    lexFrom (done ++ before) cs = (lexFrom done cs).map (before.reverse ++ ·) := by
  fun_induction lexFrom done cs with
  | case1 done => simp [lexFrom]
  | case2 done rest => simp [lexFrom]
  | case3 done c rest hspace ih => rw [lexFrom_space hspace, ih]
  | case4 done rest ps after hps _ _ ih => rw [lexFrom_quote, hps, Option.bind_some]; exact ih
  | case5 done rest hps _ => rw [lexFrom_quote, hps]; rfl
  | case6 done c rest hspace hquote hword v hv ih =>
      rw [lexFrom, if_neg hspace, if_neg hquote, if_pos hword, hv]
      exact ih
  | case7 done c rest hspace hquote hword hv =>
      rw [lexFrom, if_neg hspace, if_neg hquote, if_pos hword, hv]
      rfl
  | case8 done c rest hspace hquote hword t ht ih =>
      rw [lexFrom, if_neg hspace, if_neg hquote, if_neg hword, ht]
      exact ih
  | case9 done c rest hspace hquote hword ht =>
      rw [lexFrom, if_neg hspace, if_neg hquote, if_neg hword, ht]
      rfl

/-- A word ends here. -/
def Stops (rest : List Symbol) : Prop := ∀ c, rest.head? = some (some c) → isWord c = false

theorem spanWord_append {c : Char} {w : List Char} {rest : List Symbol}
    (hw : ∀ d ∈ w, isWord d = true) (hrest : Stops rest) :
    spanWord c (w.map some ++ rest) = (c :: w, rest) := by
  have hall : ∀ s ∈ w.map some, s.any isWord = true := by simpa using hw
  have hspan : rest.takeWhile (fun s => s.any isWord) = [] ∧
      rest.dropWhile (fun s => s.any isWord) = rest := by
    cases rest with
    | nil => exact ⟨rfl, rfl⟩
    | cons s rest =>
        have hs : s.any isWord = false := by
          cases s with
          | none => rfl
          | some d => exact hrest d rfl
        simp [hs]
  simp only [spanWord]
  rw [List.takeWhile_append_of_pos hall, List.dropWhile_append_of_pos hall, hspan.1, hspan.2]
  simp

/-- What the machine has become after a text. -/
def Machine.scan (m : Machine) (cs : List Symbol) : Option Machine := (lex cs).bind m.run

variable {m m' : Machine} {stack : List Unfinished} {rest : List Symbol} {level outer : ℕ}

namespace Machine

theorem scan_nil (m : Machine) : m.scan [] = some m := by
  rw [scan, lex, lexFrom]
  rfl

theorem bind_run_lexFrom {t : Token} (h : m.step t = some m') (cs : List Symbol) :
    (lexFrom [t] cs).bind m.run = m'.scan cs := by
  rw [← List.nil_append [t], lexFrom_append, scan, lex]
  cases lexFrom [] cs with
  | none => rfl
  | some ts => simp [run, h]

theorem scan_space {c : Char} (h : isSpace c) : m.scan (some c :: rest) = m.scan rest := by
  rw [scan, lex, lexFrom_space h]
  rfl

theorem scan_newline (level : ℕ) : m.scan ((newline level).map some ++ rest) = m.scan rest := by
  rw [newline, List.map_cons, List.cons_append, scan_space (by decide)]
  induction 2 * level with
  | zero => rfl
  | succ n ih =>
      rw [List.replicate_succ, List.map_cons, List.cons_append, scan_space (by decide), ih]

theorem scan_punctuation {c : Char} {t : Token} (hc : punctuation? c = some t)
    (h : m.step t = some m') : m.scan (some c :: rest) = m'.scan rest := by
  have hspace : ¬isSpace c := by
    unfold punctuation? at hc
    split at hc <;> first | decide | cases hc
  have hquote : c ≠ '"' := by rintro rfl; cases hc
  have hword : ¬isWord c := by
    unfold punctuation? at hc
    split at hc <;> first | decide | cases hc
  rw [scan, lex, lexFrom, if_neg hspace, if_neg hquote, if_neg hword, hc]
  exact bind_run_lexFrom h rest

theorem scan_text {s : String} (h : m.step (.leaf (.text s)) = some m') :
    m.scan ((literalText (some s)).map some ++ rest) = m'.scan rest := by
  obtain ⟨ps, hps, hjoin⟩ := scanString_text s.toList [] rest
  have hlex : lexFrom [] ((literalText (some s)).map some ++ rest) =
      lexFrom [.leaf (.text s)] rest := by
    rw [literalText_some, List.map_cons, List.cons_append, lexFrom_quote, hps, Option.bind_some]
    simp only [hjoin, List.reverse_nil, List.nil_append, Option.map_some, String.ofList_toList]
    rfl
  rw [scan, lex, hlex]
  exact bind_run_lexFrom h rest

theorem scan_word {w : List Char} {v : Json} (hw : ∀ c ∈ w, isWord c = true)
    (hv : word? w = some v) (h : m.step (.leaf v) = some m') (hrest : Stops rest) :
    m.scan (w.map some ++ rest) = m'.scan rest := by
  cases w with
  | nil => cases hv
  | cons c w =>
      rw [List.forall_mem_cons] at hw
      have hspace : ¬isSpace c := by
        intro hc
        simp only [isSpace, Bool.or_eq_true, beq_iff_eq] at hc
        obtain ((rfl | rfl) | rfl) | rfl := hc <;> exact absurd hw.1 (by decide)
      have hquote : c ≠ '"' := by
        rintro rfl
        exact absurd hw.1 (by decide)
      rw [List.map_cons, List.cons_append, scan, lex, lexFrom, if_neg hspace, if_neg hquote,
        if_pos hw.1, spanWord_append hw.2 hrest, hv]
      exact bind_run_lexFrom h rest

/-- A value comes next, or the end of an array that is empty. -/
def Awaits (m : Machine) (stack : List Unfinished) : Prop :=
  ∀ t, t ≠ .endArray → m.step t = begin? stack t

theorem value_awaits (stack : List Unfinished) : (Machine.mk stack .value).Awaits stack :=
  fun _ _ => rfl

theorem firstItem_awaits (stack : List Unfinished) :
    (Machine.mk stack .firstItem).Awaits (.array [] :: stack) := by
  intro t ht
  cases t <;> first | rfl | exact absurd rfl ht

theorem Awaits.leaf (h : m.Awaits stack) (v : Json) :
    m.step (.leaf v) = some ⟨stack, .after v⟩ := h _ Token.noConfusion

theorem Awaits.beginArray (h : m.Awaits stack) :
    m.step .beginArray = some ⟨stack, .firstItem⟩ := h _ Token.noConfusion

theorem Awaits.beginObject (h : m.Awaits stack) :
    m.step .beginObject = some ⟨stack, .firstName⟩ := h _ Token.noConfusion

/-- The name of a member comes next. -/
def AwaitsName (m : Machine) (members : List (Literal × Json)) (stack : List Unfinished) : Prop :=
  ∀ name, m.step (.leaf (.string name)) = some ⟨stack, .colon members name⟩

end Machine

/-! ### Documents -/

open Machine

theorem stops_newline : Stops ((newline level).map some ++ rest) := by
  intro c hc
  obtain rfl : '\n' = c := by simpa [newline] using hc
  decide

theorem stops_comma : Stops (some ',' :: rest) := by
  intro c hc
  obtain rfl : ',' = c := by simpa using hc
  decide

/-- Wherever a value may stand, the value is read off its text. -/
def Legible (v : Json) : Prop :=
  ∀ ⦃level : ℕ⦄ ⦃m : Machine⦄ ⦃stack : List Unfinished⦄ ⦃rest : List Symbol⦄, m.Awaits stack →
    Stops rest → m.scan ((prettyChars level v).map some ++ rest) = scan ⟨stack, .after v⟩ rest

theorem legible_word {v : Json} {w : List Char} (hchars : ∀ level, prettyChars level v = w)
    (hw : ∀ c ∈ w, isWord c = true) (hv : word? w = some v) : v.Legible := by
  intro level m stack rest hm hrest
  rw [hchars, scan_word hw hv (hm.leaf v) hrest]

theorem legible_int (i : Int) : (int i).Legible := by
  have hne : ∀ w, number? w = none → numberText (.integer i) ≠ w := by
    rintro w hw rfl
    rw [number?_numberText] at hw
    cases hw
  have hword : word? (numberText (.integer i)) = some (int i) := by
    rw [word?, if_neg (hne _ rfl), if_neg (hne _ rfl), if_neg (hne _ rfl), number?_numberText]
    rfl
  exact legible_word (w := numberText (.integer i)) (fun _ => rfl) (isWord_numberText i) hword

theorem legible_text (s : String) : (text s).Legible := by
  intro level m stack rest hm hrest
  have hchars : prettyChars level (text s) = literalText (some s) := rfl
  rw [hchars, scan_text (hm.leaf _)]

/-- The items of an array and its end. -/
theorem scan_prettyItems {v : Json} {items done : List Json} (h : ∀ w ∈ v :: items, w.Legible)
    (hm : m.Awaits (.array done :: stack)) :
    m.scan ((prettyItems level (v :: items)).map some ++
        ((newline outer).map some ++ some ']' :: rest)) =
      scan ⟨stack, .after (.array (done.reverse ++ v :: items))⟩ rest := by
  induction items generalizing v done m with
  | nil =>
      rw [prettyItems, h v List.mem_cons_self hm stops_newline, scan_newline,
        scan_punctuation rfl rfl, List.reverse_cons]
  | cons w items ih =>
      rw [List.forall_mem_cons] at h
      have hnext := ih h.2 (value_awaits (.array (v :: done) :: stack))
      rw [List.reverse_cons, List.append_assoc, List.singleton_append] at hnext
      have hchars : prettyItems level (v :: w :: items) = prettyChars level v ++
          ',' :: (newline level ++ prettyItems level (w :: items)) := rfl
      rw [hchars, ← hnext]
      simp only [List.map_append, List.map_cons, List.append_assoc, List.cons_append]
      rw [h.1 hm stops_comma, scan_punctuation rfl rfl, scan_newline]

/-- One member of an object. -/
theorem scan_member {n : String × Json} {members : List (Literal × Json)} (h : n.2.Legible)
    (hm : m.AwaitsName members stack) (hrest : Stops rest) :
    m.scan ((literalText (some n.1)).map some ++
        some ':' :: some ' ' :: ((prettyChars level n.2).map some ++ rest)) =
      scan ⟨.object members (some n.1) :: stack, .after n.2⟩ rest := by
  rw [scan_text (hm (some n.1)), scan_punctuation rfl rfl, scan_space rfl,
    h (value_awaits _) hrest]

/-- The members of an object and its end. -/
theorem scan_prettyMembers {n : String × Json} {members : List (String × Json)}
    {done : List (Literal × Json)} (h : ∀ n' ∈ n :: members, n'.2.Legible)
    (hm : m.AwaitsName done stack) :
    m.scan ((prettyMembers level ((n :: members).map fun n => (some n.1, n.2))).map some ++
        ((newline outer).map some ++ some '}' :: rest)) =
      scan ⟨stack, .after (.object (done.reverse ++ (n :: members).map fun n => (some n.1, n.2)))⟩
        rest := by
  induction members generalizing n done m with
  | nil =>
      have hchars : prettyMembers level ([n].map fun n => (some n.1, n.2)) =
          literalText (some n.1) ++ ':' :: ' ' :: prettyChars level n.2 := rfl
      rw [hchars]
      simp only [List.map_append, List.map_cons, List.append_assoc, List.cons_append]
      rw [scan_member (h n List.mem_cons_self) hm stops_newline, scan_newline,
        scan_punctuation rfl rfl, List.reverse_cons]
      rfl
  | cons n' members ih =>
      rw [List.forall_mem_cons] at h
      have hname : (Machine.mk stack (.name ((some n.1, n.2) :: done))).AwaitsName
          ((some n.1, n.2) :: done) stack := fun _ => rfl
      have hnext := ih h.2 hname
      rw [List.reverse_cons, List.append_assoc, List.singleton_append] at hnext
      have hchars : prettyMembers level ((n :: n' :: members).map fun n => (some n.1, n.2)) =
          literalText (some n.1) ++ ':' :: ' ' :: (prettyChars level n.2 ++ ',' :: (newline level ++
            prettyMembers level ((n' :: members).map fun n => (some n.1, n.2)))) := rfl
      refine Eq.trans ?_ hnext
      rw [hchars]
      simp only [List.map_append, List.map_cons, List.append_assoc, List.cons_append]
      rw [scan_member h.1 hm stops_comma, scan_punctuation rfl rfl, scan_newline]

theorem legible_array {items : List Json} (h : ∀ v ∈ items, v.Legible) :
    (array items).Legible := by
  intro level m stack rest hm hrest
  cases items with
  | nil =>
      have hchars : (prettyChars level (array [])).map some = [some '[', some ']'] := rfl
      rw [hchars, List.cons_append, scan_punctuation rfl hm.beginArray, List.cons_append,
        scan_punctuation rfl rfl, List.nil_append]
  | cons v items =>
      have hchars : prettyChars level (array (v :: items)) = '[' :: (newline (level + 1) ++
        (prettyItems (level + 1) (v :: items) ++ (newline level ++ [']']))) := rfl
      rw [hchars]
      simp only [List.map_append, List.map_cons, List.append_assoc, List.cons_append, List.map_nil,
        List.nil_append]
      rw [scan_punctuation rfl hm.beginArray, scan_newline,
        scan_prettyItems h (firstItem_awaits stack)]
      rfl

theorem legible_record {members : List (String × Json)} (h : ∀ n ∈ members, n.2.Legible) :
    (record members).Legible := by
  intro level m stack rest hm hrest
  cases members with
  | nil =>
      have hchars : (prettyChars level (record [])).map some = [some '{', some '}'] := rfl
      rw [hchars, List.cons_append, scan_punctuation rfl hm.beginObject, List.cons_append,
        scan_punctuation rfl rfl, List.nil_append]
      rfl
  | cons n members =>
      have hname : (Machine.mk stack .firstName).AwaitsName [] stack := fun _ => rfl
      have hchars : prettyChars level (record (n :: members)) = '{' :: (newline (level + 1) ++
        (prettyMembers (level + 1) ((n :: members).map fun n => (some n.1, n.2)) ++
          (newline level ++ ['}']))) := rfl
      rw [hchars]
      simp only [List.map_append, List.map_cons, List.append_assoc, List.cons_append, List.map_nil,
        List.nil_append]
      rw [scan_punctuation rfl hm.beginObject, scan_newline]
      exact scan_prettyMembers h hname

/-- String literals are text, and numbers are integers. -/
inductive Exact : Json → Prop where
  | null : Exact .null
  | bool (b : Bool) : Exact (.bool b)
  | int (i : Int) : Exact (.int i)
  | text (s : String) : Exact (.text s)
  | array {items : List Json} (h : ∀ v ∈ items, Exact v) : Exact (.array items)
  | record {members : List (String × Json)} (h : ∀ n ∈ members, Exact n.2) :
    Exact (.record members)

namespace Exact

attribute [simp] null int text

@[simp] theorem nat (n : ℕ) : (Json.nat n).Exact := .int n

@[simp] theorem array_map {α : Type} {write : α → Json} {xs : List α}
    (h : ∀ x ∈ xs, (write x).Exact) : (Json.array (xs.map write)).Exact :=
  .array (List.forall_mem_map.mpr h)

@[simp] theorem tagged {name : String} {v : Json} (h : v.Exact) : (tagged name v).Exact :=
  .record (List.forall_mem_singleton.mpr h)

end Exact

theorem Exact.legible {v : Json} (h : v.Exact) : v.Legible := by
  induction h with
  | null => exact legible_word (w := "null".toList) (fun _ => rfl) (List.all_eq_true.mp rfl) rfl
  | bool b =>
      have htrue : ∀ c ∈ "true".toList, isWord c = true := List.all_eq_true.mp rfl
      have hfalse : ∀ c ∈ "false".toList, isWord c = true := List.all_eq_true.mp rfl
      cases b with
      | false => exact legible_word (fun _ => rfl) hfalse rfl
      | true => exact legible_word (fun _ => rfl) htrue rfl
  | int i => exact legible_int i
  | text s => exact legible_text s
  | array _ ih => exact legible_array ih
  | record _ ih => exact legible_record ih

/-- A document is read off its own text. -/
theorem readSymbols_pretty {v : Json} (h : v.Exact) :
    readSymbols (v.pretty.toList.map some) = some v := by
  have hscan : scan ⟨[], .value⟩ ((prettyChars 0 v).map some ++ []) = scan ⟨[], .after v⟩ [] :=
    h.legible (value_awaits []) nofun
  rw [List.append_nil, scan_nil, scan] at hscan
  rw [readSymbols, pretty, String.toList_ofList, hscan]

theorem readBytes_pretty {v : Json} (h : v.Exact) :
    readBytes (Utf8.encode v.pretty.toList) = some v := by
  rw [readBytes, Utf8.characters_of_decode (Utf8.decode_encode _), readSymbols_pretty h]

end FlowProfile.Json
