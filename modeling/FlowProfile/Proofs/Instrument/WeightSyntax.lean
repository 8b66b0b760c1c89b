import FlowProfile.Instrument.Weight
import FlowProfile.Proofs.Outcome
import FlowProfile.Proofs.Text.Numeral

/-!
# The syntax of block weights

A text is a weight exactly if it has the form `FUNCTION:BLOCK=WEIGHT`: the equals sign is the first
one of the text and the colon the last one before it, so that names of functions may have colons and
weights may have both. An integer that is too large for a constant is taken for a variable.
-/

namespace FlowProfile.BlockWeight

/-! ### Separators -/

theorem splitFirst?_eq_some_iff {c : Char} {cs before after : List Char} :
    splitFirst? c cs = some (before, after) ↔ c ∉ before ∧ cs = before ++ c :: after := by
  induction cs generalizing before with
  | nil => simp [splitFirst?]
  | cons d cs ih =>
      by_cases hd : d = c
      · subst hd
        cases before with
        | nil => simp [splitFirst?]
        | cons e before => simp +contextual [splitFirst?, eq_comm]
      · have hcons : splitFirst? c (d :: cs) =
            (splitFirst? c cs).map fun parts => (d :: parts.1, parts.2) := by
          have hd' : (d != c) = true := by simpa using hd
          simp only [splitFirst?, List.dropWhile_cons, List.takeWhile_cons, hd', if_true]
          cases cs.dropWhile (· != c) <;> rfl
        rw [hcons, Option.map_eq_some_iff]
        constructor
        · rintro ⟨⟨before, after⟩, h, ⟨⟩⟩
          obtain ⟨hbefore, rfl⟩ := ih.mp h
          exact ⟨by simp [Ne.symm hd, hbefore], rfl⟩
        · rintro ⟨hbefore, hcs⟩
          cases before with
          | nil => exact absurd (List.cons.inj hcs).1 hd
          | cons e before =>
              obtain ⟨rfl, htail⟩ := List.cons.inj hcs
              have hrest : c ∉ before := fun h => hbefore (List.mem_cons_of_mem _ h)
              exact ⟨(before, after), ih.mpr ⟨hrest, htail⟩, rfl⟩

theorem splitLast?_eq_some_iff {c : Char} {cs before after : List Char} :
    splitLast? c cs = some (before, after) ↔ c ∉ after ∧ cs = before ++ c :: after := by
  simp only [splitLast?, Option.map_eq_some_iff, Prod.exists, Prod.mk.injEq,
    splitFirst?_eq_some_iff]
  constructor
  · rintro ⟨tail, start, ⟨htail, hcs⟩, rfl, rfl⟩
    exact ⟨by simpa using htail, by simpa using congrArg List.reverse hcs⟩
  · rintro ⟨hafter, rfl⟩
    exact ⟨after.reverse, before.reverse, ⟨by simpa using hafter, by simp⟩, by simp, by simp⟩

/-! ### Texts -/

/-- The text of a weight, given what the part behind the equals sign may be. -/
def Written (value : List Char → Operand → Prop) (s : String) (w : BlockWeight) : Prop :=
  ∃ function block weight : List Char,
    s.toList = function ++ ':' :: block ++ '=' :: weight ∧
    '=' ∉ function ++ ':' :: block ∧ ':' ∉ block ∧
    String.ofList function = w.function ∧
    Numeral.Unsigned block w.block ∧ w.block < 2 ^ 32 ∧ value weight w.value

/-- An integer of 64 bits is a constant. Any other text is the name of a variable. -/
inductive Value : List Char → Operand → Prop
  | const {cs : List Char} {c : Int64} (h : Numeral.Signed cs c.toInt) : Value cs (.const c)
  | var {cs : List Char} (hne : cs ≠ []) (h : ∀ c : Int64, ¬Numeral.Signed cs c.toInt) :
      Value cs (.var (String.ofList cs))

/-- An integer of 64 bits is a constant. A text that is no integer is the name of a variable. -/
inductive StrictValue : List Char → Operand → Prop
  | const {cs : List Char} {c : Int64} (h : Numeral.Signed cs c.toInt) : StrictValue cs (.const c)
  | var {cs : List Char} (hne : cs ≠ []) (h : ∀ i, ¬Numeral.Signed cs i) :
      StrictValue cs (.var (String.ofList cs))

theorem within?_toInt {s : String} (c : Int64) :
    Numeral.within? 64 s = some c.toInt ↔ Numeral.Signed s.toList c.toInt := by
  rw [Numeral.within?_eq_some_iff]
  exact and_iff_left ⟨c.le_toInt, c.toInt_lt⟩

theorem within?_eq_none_iff {s : String} :
    Numeral.within? 64 s = none ↔ ∀ c : Int64, ¬Numeral.Signed s.toList c.toInt := by
  rw [Option.eq_none_iff_forall_ne_some]
  constructor
  · intro h c hc
    exact h c.toInt ((within?_toInt c).mpr hc)
  · intro h i hi
    obtain ⟨hsigned, hmin, hmax⟩ := Numeral.within?_eq_some_iff.mp hi
    exact h (Int64.ofInt i) (by rwa [Int64.toInt_ofInt_of_le hmin hmax])

theorem value?_eq_some_iff {cs : List Char} {value : Operand} :
    value? (String.ofList cs) = some value ↔ Value cs value := by
  unfold value?
  cases h : Numeral.within? 64 (String.ofList cs) with
  | some i =>
      obtain ⟨hsigned, hmin, hmax⟩ := Numeral.within?_eq_some_iff.mp h
      rw [String.toList_ofList, ← Int64.toInt_ofInt_of_le hmin hmax] at hsigned
      constructor
      · intro hvalue
        obtain rfl := Option.some.inj hvalue
        exact .const hsigned
      · intro hvalue
        cases hvalue with
        | const hc =>
            have hi := (within?_toInt _).mpr (by rwa [String.toList_ofList])
            obtain rfl := Option.some.inj (h.symm.trans hi)
            exact congrArg (fun c => some (Operand.const c)) (Int64.ofInt_toInt _)
        | var _ hnone => exact absurd hsigned (hnone _)
  | none =>
      have hnone : ∀ c : Int64, ¬Numeral.Signed cs c.toInt := by
        simpa using within?_eq_none_iff.mp h
      constructor
      · intro hvalue
        have hne : cs ≠ [] := by
          rintro rfl
          cases hvalue
        rw [if_neg (by simpa using hne)] at hvalue
        obtain rfl := Option.some.inj hvalue
        exact .var hne hnone
      · intro hvalue
        cases hvalue with
        | const hc => exact absurd hc (hnone _)
        | var hne _ => exact if_neg (by simpa using hne)

theorem parse?_eq_some_iff {s : String} {w : BlockWeight} :
    parse? s = some w ↔ Written Value s w := by
  simp only [parse?, Option.bind_eq_bind, Option.bind_eq_some_iff, Option.pure_def, Option.some_inj,
    Prod.exists, splitFirst?_eq_some_iff, splitLast?_eq_some_iff, value?_eq_some_iff,
    Numeral.below?_eq_some_iff, String.toList_ofList]
  constructor
  · rintro ⟨_, weight, ⟨hequals, hs⟩, function, block, ⟨hcolon, rfl⟩, value, hvalue, n,
      ⟨hblock, hn⟩, rfl⟩
    exact ⟨function, block, weight, hs, hequals, hcolon, rfl, hblock, hn, hvalue⟩
  · rintro ⟨function, block, weight, hs, hequals, hcolon, hfunction, hblock, hn, hvalue⟩
    exact ⟨_, weight, ⟨hequals, hs⟩, function, block, ⟨hcolon, rfl⟩, w.value, hvalue, w.block,
      ⟨hblock, hn⟩, by rw [hfunction]⟩

/-- A text of the form is read, and any other is refused. -/
theorem parse_written (s : String) : (∀ w, parse s = .ok w ↔ Written Value s w) ∧
    ((∃ w, Written Value s w) ∨ parse s = .fail (.invalidWeight s)) := by
  simp only [← parse?_eq_some_iff, parse, Outcome.ofOption_eq_ok_iff, implies_true, true_and]
  cases parse? s with
  | some w => exact .inl ⟨w, rfl⟩
  | none => exact .inr rfl

/-- The least integer that is too large for a constant is the name of a variable. -/
theorem parse_not_strict :
    ¬∀ (s : String) (w : BlockWeight), parse s = .ok w ↔ Written StrictValue s w := by
  intro h
  obtain ⟨function, block, weight, hs, hequals, -, -, -, -, hvalue⟩ :=
    (h "main:0=9223372036854775808" ⟨"main", 0, .var "9223372036854775808"⟩).mp rfl
  have hsplit : splitFirst? '=' "main:0=9223372036854775808".toList =
      some ("main:0".toList, "9223372036854775808".toList) := by decide
  rw [splitFirst?_eq_some_iff.mpr ⟨hequals, hs⟩] at hsplit
  obtain ⟨-, rfl⟩ := Prod.mk.inj (Option.some.inj hsplit)
  cases hvalue with
  | var _ hnone => exact hnone 9223372036854775808 (Numeral.signed?_eq_some_iff.mp (by decide))

end FlowProfile.BlockWeight
