import FlowProfile.Proofs.Instrument.Originals

/-!
# Calls and what is inserted at them

Sites are treated from the last to the first, so that a call is still at its place when its turn
comes. An instruction that is inserted once is found at one place of a run.
-/

namespace FlowProfile

/-! ### Insertions into a list -/

theorem insertIdx_append_left {α : Type} (xs ys : List α) {i : ℕ} (x : α) (h : i ≤ xs.length) :
    (xs ++ ys).insertIdx i x = xs.insertIdx i x ++ ys := by
  induction xs generalizing i with
  | nil =>
      obtain rfl : i = 0 := by simpa using h
      rfl
  | cons y xs ih =>
      cases i with
      | zero => rfl
      | succ i => exact congrArg (y :: ·) (ih (by simpa using h))

theorem insertIdx_append_right {α : Type} (xs ys : List α) (i : ℕ) (x : α) :
    (xs ++ ys).insertIdx (xs.length + i) x = xs ++ ys.insertIdx i x := by
  induction xs with
  | nil => rw [List.length_nil, Nat.zero_add, List.nil_append, List.nil_append]
  | cons y xs ih =>
      rw [List.length_cons, Nat.add_right_comm]
      exact congrArg (y :: ·) ih

theorem drop_of_getElem? {α : Type} {xs : List α} {i : ℕ} {x : α} (h : xs[i]? = some x) :
    xs.drop i = x :: xs.drop (i + 1) := by
  rw [List.drop_eq_getElem?_toList_append, h, Option.toList_some, List.singleton_append]

/-- A counted element is at its place by the number of those that are counted from it on. -/
theorem eq_of_suffix_of_countP_eq {α : Type} {counted : α → Bool} {x y : α} {xs ys zs : List α}
    (hx : x :: xs <:+ zs) (hy : y :: ys <:+ zs) (hcx : counted x = true) (hcy : counted y = true)
    (h : (x :: xs).countP counted = (y :: ys).countP counted) : x :: xs = y :: ys := by
  wlog hle : x :: xs <:+ y :: ys generalizing x y xs ys with H
  · exact (H hy hx hcy hcx h.symm ((List.suffix_or_suffix_of_suffix hx hy).resolve_left hle)).symm
  rcases List.suffix_cons_iff.mp hle with heq | hlater
  · exact heq
  · have hrest := hlater.sublist.countP_le (p := counted)
    rw [h, List.countP_cons_of_pos hcy] at hrest
    omega

/-- An element that is counted once stands at one place. -/
theorem eq_of_suffix_of_countP {α : Type} {counted : α → Bool} {x y : α} {xs ys zs : List α}
    (h : zs.countP counted = 1) (hx : x :: xs <:+ zs) (hy : y :: ys <:+ zs)
    (hcx : counted x = true) (hcy : counted y = true) : x :: xs = y :: ys := by
  have hone : ∀ {z zs'}, z :: zs' <:+ zs → counted z = true → (z :: zs').countP counted = 1 := by
    intro z zs' hz hcz
    have hle := hz.sublist.countP_le (p := counted)
    rw [List.countP_cons_of_pos hcz] at hle ⊢
    omega
  exact eq_of_suffix_of_countP_eq hx hy hcx hcy ((hone hx hcx).trans (hone hy hcy).symm)

/-- A fold from the last element to the first, with what holds when so many elements are left. -/
theorem foldlM_zipIdx_reverse_induction {α β : Type} {step : β → α × ℕ → Outcome β}
    (left : ℕ → β → Prop) {xs : List α}
    (hstep : ∀ k x, xs[k]? = some x → ∀ b c, left (k + 1) b → step b (x, k) = .ok c → left k c)
    {b c : β} (hb : left xs.length b) (h : xs.zipIdx.reverse.foldlM step b = .ok c) : left 0 c := by
  induction xs using List.reverseRecOn generalizing b with
  | nil =>
      obtain rfl : b = c := by simpa using h
      exact hb
  | append_singleton xs x ih =>
      rw [List.zipIdx_append, List.reverse_append, List.zipIdx_singleton, List.reverse_singleton,
        List.singleton_append, List.foldlM_cons, Outcome.bind_eq_ok_iff, Nat.zero_add] at h
      obtain ⟨mid, hmid, h⟩ := h
      rw [List.length_append, List.length_singleton] at hb
      refine ih (fun k y hy => hstep k y ?_) (hstep xs.length x (by simp) b mid hb hmid) h
      rw [List.getElem?_append_left (List.getElem?_eq_some_iff.mp hy).1, hy]

/-- A fold from the last element to the first. Until the turn of an element something is kept, and
after it what its turn made of that. -/
theorem foldlM_zipIdx_reverse {α β : Type} {step : β → α × ℕ → Outcome β} (pending done : β → Prop)
    {xs : List α} {i : ℕ} {x : α} (hx : xs[i]? = some x)
    (hlater : ∀ y j, xs[j]? = some y → i < j → ∀ b c, pending b → step b (y, j) = .ok c →
      pending c)
    (hown : ∀ b c, pending b → step b (x, i) = .ok c → done c)
    (hearlier : ∀ y j, xs[j]? = some y → j < i → ∀ b c, done b → step b (y, j) = .ok c → done c)
    {b c : β} (hb : pending b) (h : xs.zipIdx.reverse.foldlM step b = .ok c) : done c := by
  have hlt := (List.getElem?_eq_some_iff.mp hx).1
  have hinduct := foldlM_zipIdx_reverse_induction
    (fun k b => (i < k → pending b) ∧ (k ≤ i → done b)) ?_
    ⟨fun _ => hb, fun hle => absurd hlt (Nat.not_lt.mpr hle)⟩ h
  · exact hinduct.2 (Nat.zero_le i)
  · rintro k y hy b c ⟨hpending, hdone⟩ hstep
    rcases Nat.lt_trichotomy k i with hk | rfl | hk
    · exact ⟨fun hi => absurd hi hk.asymm, fun _ => hearlier y k hy hk b c (hdone hk) hstep⟩
    · obtain rfl := Option.some.inj (hx.symm.trans hy)
      exact ⟨fun hi => absurd hi (lt_irrefl _),
        fun _ => hown b c (hpending (Nat.lt_succ_self _)) hstep⟩
    · exact ⟨fun _ => hlater y k hy hk b c (hpending (Nat.lt_succ_of_lt hk)) hstep,
        fun hle => absurd hk (Nat.not_lt.mpr hle)⟩

/-! ### Calls -/

namespace Program

variable {added : Inst → Prop} {p q : Program} {function i : ℕ} {b : BlockId} {own : List Inst}
  {inst : Inst}

/-- A call of the program itself, from which on the block has the given instructions of the
program. -/
def CallAt (p : Program) (function : ℕ) (b : BlockId) (i : ℕ) (own : List Inst) : Prop :=
  ∃ block before call after, p.block? function b = some block ∧
    block.insts = before ++ call :: after ∧ before.length = i ∧ call.isOriginal = true ∧
    (call :: after).filter Inst.isOriginal = own

theorem SameCall.callAt {c d : CallSite} {block : Block} (h : SameCall added p q c d)
    (hp : p.IsOriginal) (hadd : ∀ inst, added inst → inst.isOriginal = false)
    (hb : p.block? c.function c.block = some block) :
    q.CallAt d.function d.block d.inst (block.insts.drop c.inst) := by
  obtain ⟨block₁, block', hb₁, hb', heq, hcall, hcall', hwoven⟩ := h
  obtain rfl : block = block₁ := Option.some.inj (hb.symm.trans hb₁)
  have horiginal : ∀ inst ∈ block.insts, inst.isOriginal = true :=
    fun inst hmem => hp.hasInst ⟨c.function, c.block, block, hb, hmem⟩
  have hlt := (List.getElem?_eq_some_iff.mp hcall').1
  have hdrop := drop_of_getElem? hcall'
  have hplace : q.block? d.function d.block = some block' := by
    rw [heq]
    exact hb'
  have hsame : Inst.call d.callee d.args = .call c.callee c.args := by rw [heq]
  refine ⟨block', block'.insts.take d.inst, _, block'.insts.drop (d.inst + 1), hplace, ?_,
    List.length_take_of_le hlt.le, hsame ▸ horiginal _ (List.mem_of_getElem? hcall), ?_⟩
  · rw [← hdrop, List.take_append_drop]
  · rw [← hdrop]
    exact hwoven.filter_isOriginal hadd fun inst hmem => horiginal inst (List.mem_of_mem_drop hmem)

/-- What is inserted behind a call leaves it where it is. -/
theorem CallAt.insert {function' i' : ℕ} {b' : BlockId} (h : p.CallAt function b i own)
    (hbehind : function' = function → b' = b → i < i') (hinst : inst.isOriginal = false) :
    (p.insert function' b' i' inst).CallAt function b i own := by
  obtain ⟨block, before, call, after, hb, hinsts, hlen, hcall, hown⟩ := h
  by_cases hplace : function' = function ∧ b' = b
  · obtain ⟨rfl, rfl⟩ := hplace
    obtain ⟨k, rfl⟩ : ∃ k, i' = before.length + (k + 1) :=
      ⟨i' - i - 1, by have := hbehind rfl rfl; omega⟩
    refine ⟨_, before, call, after.insertIdx k inst, block?_insert_self hb .., ?_, hlen, hcall, ?_⟩
    · rw [hinsts, insertIdx_append_right, List.insertIdx_succ_cons]
    · rw [← List.insertIdx_succ_cons, filter_insertIdx hinst, hown]
  · exact ⟨block, before, call, after, (block?_insert_ne hplace ..).trans hb, hinsts, hlen, hcall,
      hown⟩

end Program

/-! ### Instructions that stand once -/

namespace Program

variable {splitting : Prop} {added : Inst → Prop} {counted : Inst → Bool} {p q : Program}
  {function i : ℕ} {b : BlockId} {inst : Inst}

/-- No block has an instruction of the kind. -/
def Never (p : Program) (counted : Inst → Bool) : Prop :=
  ∀ (i : ℕ) (f : Function), p.functions[i]? = some f → ∀ x, f.tally counted x = 0

/-- One instruction alone is of the kind, and it stands in the block. -/
def Once (p : Program) (counted : Inst → Bool) (function : ℕ) (b : BlockId) : Prop :=
  ∀ (i : ℕ) (f : Function), p.functions[i]? = some f →
    ∀ x, f.tally counted x = if i = function ∧ x = b then 1 else 0

theorem Never.eq_false (h : p.Never counted) (hinst : p.HasInst inst) : counted inst = false := by
  obtain ⟨function, b, block, hb, hmem⟩ := hinst
  obtain ⟨f, hf, hb⟩ := block?_eq_some_iff.mp hb
  have hzero := h function f hf b
  rw [Function.tally, hb] at hzero
  simpa using List.countP_eq_zero.mp hzero inst hmem

theorem Never.edited (h : p.Never counted) (hedit : p.Edited splitting added q)
    (hadd : ∀ inst, added inst → counted inst = false) : q.Never counted := by
  intro i g hg x
  obtain ⟨f, hf, hfg⟩ := hedit.exists_left hg
  rw [hfg.tally_eq hadd, h i f hf]

theorem Once.edited (h : p.Once counted function b) (hedit : p.Edited splitting added q)
    (hadd : ∀ inst, added inst → counted inst = false) : q.Once counted function b := by
  intro i g hg x
  obtain ⟨f, hf, hfg⟩ := hedit.exists_left hg
  rw [hfg.tally_eq hadd, h i f hf]

theorem Never.insert {block : Block} (h : p.Never counted) (hb : p.block? function b = some block)
    (hi : i ≤ block.insts.length) (hinst : counted inst = true) :
    (p.insert function b i inst).Once counted function b := by
  intro j g hg x
  obtain ⟨f, hf, htally⟩ := tally_insert hb hi hg
  rw [htally, h j f hf, hinst]
  simp

theorem Once.countP_eq (h : p.Once counted function b) {j : ℕ} {x : BlockId} {block : Block}
    (hx : p.block? j x = some block) :
    block.insts.countP counted = if j = function ∧ x = b then 1 else 0 := by
  obtain ⟨f, hf, hx⟩ := block?_eq_some_iff.mp hx
  rw [← h j f hf, Function.tally, hx]
  rfl

/-- A run that finds it is in its block. -/
theorem Once.place (h : p.Once counted function b) {f : Frame} {inst : Inst} {rest : List Inst}
    (hf : f.IsIn p) (hrest : f.rest = inst :: rest) (hinst : counted inst = true) :
    f.function = function ∧ f.block = b ∧ ∃ block, p.block? function b = some block ∧
      inst :: rest <:+ block.insts ∧ block.insts.countP counted = 1 := by
  obtain ⟨j, x, _⟩ := f
  obtain ⟨block, hb, hsuffix⟩ := hf
  obtain rfl := hrest
  have hcount := h.countP_eq hb
  have hpos : 0 < block.insts.countP counted :=
    List.countP_pos_iff.mpr ⟨inst, hsuffix.subset List.mem_cons_self, hinst⟩
  by_cases hplace : j = function ∧ x = b
  · obtain ⟨rfl, rfl⟩ := hplace
    exact ⟨rfl, rfl, block, hb, hsuffix, by simpa using hcount⟩
  · rw [hcount, if_neg hplace] at hpos
    exact absurd hpos (lt_irrefl 0)

/-- A run finds it at one place. -/
theorem Once.frame_eq (h : p.Once counted function b) {f g : Frame} {inst inst' : Inst}
    {rest rest' : List Inst} (hf : f.IsIn p) (hg : g.IsIn p) (hrest : f.rest = inst :: rest)
    (hrest' : g.rest = inst' :: rest') (hinst : counted inst = true)
    (hinst' : counted inst' = true) : f = g := by
  obtain ⟨hfunction, hblock, block, hb, hsuffix, hcount⟩ := h.place hf hrest hinst
  obtain ⟨hfunction', hblock', block', hb', hsuffix', -⟩ := h.place hg hrest' hinst'
  obtain rfl : block = block' := Option.some.inj (hb.symm.trans hb')
  have hsame := eq_of_suffix_of_countP hcount hsuffix hsuffix' hinst hinst'
  obtain ⟨_, _, _⟩ := f
  obtain ⟨_, _, _⟩ := g
  rw [Frame.mk.injEq]
  exact ⟨hfunction.trans hfunction'.symm, hblock.trans hblock'.symm,
    hrest.trans (hsame.trans hrest'.symm)⟩

end Program

end FlowProfile
