import FlowProfile.Failure
import Mathlib.Tactic

/-! # When an outcome is a result -/

namespace FlowProfile.Outcome

variable {α β : Type}

@[simp] theorem bind_eq_ok_iff {x : Outcome α} {k : α → Outcome β} {b : β} :
    x >>= k = .ok b ↔ ∃ a, x = .ok a ∧ k a = .ok b := by
  cases x with
  | ok a => simp [bind, Except.bind]
  | error failure => simp [bind, Except.bind]

theorem ok_bind {a : α} {k : α → Outcome β} : ((.ok a : Outcome α) >>= k) = k a := rfl

@[simp] theorem pure_eq_ok_iff {a b : α} : (pure a : Outcome α) = .ok b ↔ a = b := by
  simp [pure, Except.pure]

@[simp] theorem map_eq_ok_iff {x : Outcome α} {f : α → β} {b : β} :
    Except.map f x = .ok b ↔ ∃ a, x = .ok a ∧ f a = b := by
  cases x <;> simp [Except.map]

@[simp] theorem functorMap_eq_ok_iff {x : Outcome α} {f : α → β} {b : β} :
    f <$> x = .ok b ↔ ∃ a, x = .ok a ∧ f a = b := map_eq_ok_iff

@[simp] theorem fail_ne_ok {cause : Cause} {a : α} : (fail cause : Outcome α) ≠ .ok a := nofun

@[simp] theorem fault_ne_ok {f : Fault} {a : α} : (fault f : Outcome α) ≠ .ok a := nofun

@[simp] theorem require_eq_ok_iff {p : Prop} [Decidable p] {cause : Cause} {u : Unit} :
    require p cause = .ok u ↔ p := by
  unfold require
  split <;> simp_all

theorem require_of {p : Prop} [Decidable p] {cause : Cause} (h : p) : require p cause = .ok () :=
  require_eq_ok_iff.mpr h

@[simp] theorem ofOption_eq_ok_iff {cause : Cause} {x : Option α} {a : α} :
    ofOption cause x = .ok a ↔ x = some a := by
  cases x <;> simp [ofOption]

theorem within_ok {context : Context} {a : α} : within context (.ok a) = .ok a := rfl

@[simp] theorem within_eq_ok_iff {context : Context} {x : Outcome α} {a : α} :
    x.within context = .ok a ↔ x = .ok a := by
  cases x <;> simp [within]

@[simp] theorem ofResult_eq_ok_iff {σ : Type} {x : EStateM.Result Failure σ Unit} {s : σ} :
    ofResult x = .ok s ↔ x = .ok () s := by
  cases x <;> simp [ofResult]

@[simp] theorem get_eq_ok_iff {xs : List α} {i : ℕ} {a : α} :
    Outcome.get xs i = .ok a ↔ xs[i]? = some a := by
  unfold Outcome.get
  split <;> simp_all

theorem mapM_cons_eq_ok_iff {f : α → Outcome β} {x : α} {xs : List α} {ys : List β} :
    (x :: xs).mapM f = .ok ys ↔ ∃ b bs, f x = .ok b ∧ xs.mapM f = .ok bs ∧ ys = b :: bs := by
  rw [List.mapM_cons]
  simp only [bind_eq_ok_iff, pure_eq_ok_iff]
  constructor
  · rintro ⟨b, hb, bs, hbs, rfl⟩
    exact ⟨b, bs, hb, hbs, rfl⟩
  · rintro ⟨b, bs, hb, hbs, rfl⟩
    exact ⟨b, hb, bs, hbs, rfl⟩

theorem mapM_append_singleton {f : α → Outcome β} {xs : List α} {ys : List β} {x : α} {y : β}
    (hxs : xs.mapM f = .ok ys) (hx : f x = .ok y) : (xs ++ [x]).mapM f = .ok (ys ++ [y]) := by
  rw [List.mapM_append, hxs, List.mapM_cons, hx]
  rfl

theorem exists_mapM {f : α → Outcome β} {xs : List α} (h : ∀ x ∈ xs, ∃ y, f x = .ok y) :
    ∃ ys, xs.mapM f = .ok ys := by
  induction xs with
  | nil => exact ⟨[], rfl⟩
  | cons x xs ih =>
      obtain ⟨y, hy⟩ := h x List.mem_cons_self
      obtain ⟨ys, hys⟩ := ih fun x' hmem => h x' (List.mem_cons_of_mem x hmem)
      exact ⟨y :: ys, mapM_cons_eq_ok_iff.mpr ⟨y, ys, hy, hys, rfl⟩⟩

theorem mapM_eq_ok_map {f : α → Outcome β} {g : α → β} {xs : List α}
    (h : ∀ x ∈ xs, f x = .ok (g x)) : xs.mapM f = .ok (xs.map g) := by
  induction xs with
  | nil => rfl
  | cons x xs ih =>
      rw [List.forall_mem_cons] at h
      exact mapM_cons_eq_ok_iff.mpr ⟨g x, xs.map g, h.1, ih h.2, rfl⟩

theorem exists_of_mem_mapM {f : α → Outcome β} {xs : List α} {ys : List β}
    (h : xs.mapM f = .ok ys) {y : β} (hy : y ∈ ys) : ∃ x ∈ xs, f x = .ok y := by
  induction xs generalizing ys with
  | nil =>
      obtain rfl : [] = ys := by simpa using h
      cases hy
  | cons x xs ih =>
      obtain ⟨b, bs, hb, hbs, rfl⟩ := mapM_cons_eq_ok_iff.mp h
      rcases List.mem_cons.mp hy with rfl | hy
      · exact ⟨x, List.mem_cons_self, hb⟩
      · obtain ⟨x', hx', hy⟩ := ih hbs hy
        exact ⟨x', List.mem_cons_of_mem x hx', hy⟩

theorem exists_mapM_of_perm {f : α → Outcome β} {xs xs' : List α} {ys : List β}
    (h : xs.Perm xs') (hys : xs.mapM f = .ok ys) : ∃ ys', xs'.mapM f = .ok ys' ∧ ys.Perm ys' := by
  induction h generalizing ys with
  | nil => exact ⟨ys, hys, .refl ys⟩
  | cons x _ ih =>
      obtain ⟨b, bs, hb, hbs, rfl⟩ := mapM_cons_eq_ok_iff.mp hys
      obtain ⟨bs', hbs', hperm⟩ := ih hbs
      exact ⟨b :: bs', mapM_cons_eq_ok_iff.mpr ⟨b, bs', hb, hbs', rfl⟩, hperm.cons b⟩
  | swap x y =>
      obtain ⟨b, _, hb, hrest, rfl⟩ := mapM_cons_eq_ok_iff.mp hys
      obtain ⟨c, cs, hc, hcs, rfl⟩ := mapM_cons_eq_ok_iff.mp hrest
      have hrest' := mapM_cons_eq_ok_iff.mpr ⟨b, cs, hb, hcs, rfl⟩
      exact ⟨c :: b :: cs, mapM_cons_eq_ok_iff.mpr ⟨c, b :: cs, hc, hrest', rfl⟩, .swap c b cs⟩
  | trans _ _ ih ih' =>
      obtain ⟨ys', hys', hperm⟩ := ih hys
      obtain ⟨ys'', hys'', hperm'⟩ := ih' hys'
      exact ⟨ys'', hys'', hperm.trans hperm'⟩

/-- What is read from each result, read from where it comes from. -/
theorem filterMap_of_mapM {γ : Type} {f : α → Outcome β} {read : β → Option γ}
    {read' : α → Option γ} {xs : List α} {ys : List β} (h : xs.mapM f = .ok ys)
    (hread : ∀ x ∈ xs, ∀ y, f x = .ok y → read y = read' x) :
    ys.filterMap read = xs.filterMap read' := by
  induction xs generalizing ys with
  | nil =>
      obtain rfl : [] = ys := by simpa using h
      rfl
  | cons x xs ih =>
      rw [List.forall_mem_cons] at hread
      obtain ⟨b, bs, hb, hbs, rfl⟩ := mapM_cons_eq_ok_iff.mp h
      rw [List.filterMap_cons, List.filterMap_cons, hread.1 b hb, ih hbs hread.2]

/-- What every step keeps is kept. -/
theorem foldlM_invariant {step : β → α → Outcome β} (kept : β → Prop) {xs : List α}
    (hstep : ∀ x ∈ xs, ∀ b c, kept b → step b x = .ok c → kept c) {b c : β} (hb : kept b)
    (h : xs.foldlM step b = .ok c) : kept c := by
  induction xs generalizing b with
  | nil =>
      obtain rfl : b = c := by simpa using h
      exact hb
  | cons x xs ih =>
      rw [List.foldlM_cons, bind_eq_ok_iff] at h
      obtain ⟨mid, hmid, h⟩ := h
      exact ih (fun y hy => hstep y (List.mem_cons_of_mem x hy))
        (hstep x List.mem_cons_self b mid hb hmid) h

/-- What is read of a state goes through a fold of its own, if each step decides it by itself. -/
theorem foldl_of_foldlM {γ : Type} {step : β → α → Outcome β} (read : β → γ) (next : γ → α → γ)
    {xs : List α} (hstep : ∀ x ∈ xs, ∀ b c, step b x = .ok c → read c = next (read b) x) {b c : β}
    (h : xs.foldlM step b = .ok c) : read c = xs.foldl next (read b) := by
  induction xs generalizing b with
  | nil =>
      obtain rfl : b = c := by simpa using h
      rfl
  | cons x xs ih =>
      rw [List.forall_mem_cons] at hstep
      rw [List.foldlM_cons, bind_eq_ok_iff] at h
      obtain ⟨mid, hmid, h⟩ := h
      rw [ih hstep.2 h, hstep.1 b mid hmid, List.foldl_cons]

theorem foldlM_congr {step step' : β → α → Outcome β} {xs : List α}
    (h : ∀ x ∈ xs, ∀ b, step b x = step' b x) (b : β) : xs.foldlM step b = xs.foldlM step' b := by
  induction xs generalizing b with
  | nil => rfl
  | cons x xs ih =>
      rw [List.forall_mem_cons] at h
      rw [List.foldlM_cons, List.foldlM_cons, h.1 b]
      exact congrArg _ (funext fun mid => ih h.2 mid)

/-! ### Failures -/

section

variable {failure : Failure}

theorem bind_eq_error_iff {x : Outcome α} {k : α → Outcome β} :
    x >>= k = .error failure ↔ x = .error failure ∨ ∃ a, x = .ok a ∧ k a = .error failure := by
  cases x with
  | ok a => simp [bind, Except.bind]
  | error other => simp [bind, Except.bind]

theorem require_eq_error_iff {p : Prop} [Decidable p] {cause : Cause} :
    require p cause = .error failure ↔ ¬p ∧ failure = .error [] cause := by
  unfold require
  split <;> simp_all [fail, eq_comm]

theorem ofOption_eq_error_iff {cause : Cause} {x : Option α} :
    ofOption cause x = .error failure ↔ x = none ∧ failure = .error [] cause := by
  cases x <;> simp [ofOption, fail, eq_comm]

theorem ok_ne_error {x : Outcome α} (h : ∃ a, x = .ok a) : x ≠ .error failure := by
  obtain ⟨a, rfl⟩ := h
  exact nofun

theorem mapM_eq_error {f : α → Outcome β} {xs : List α} (h : xs.mapM f = .error failure) :
    ∃ x ∈ xs, f x = .error failure := by
  induction xs with
  | nil => cases h
  | cons x xs ih =>
      simp only [List.mapM_cons, bind_eq_error_iff] at h
      rcases h with h | ⟨y, -, h | ⟨ys, -, h⟩⟩
      · exact ⟨x, List.mem_cons_self, h⟩
      · obtain ⟨x', hx', h⟩ := ih h
        exact ⟨x', List.mem_cons_of_mem x hx', h⟩
      · cases h

theorem exists_of_mapM {f : α → Outcome β} {xs : List α} {ys : List β} (h : xs.mapM f = .ok ys)
    {x : α} (hx : x ∈ xs) : ∃ y, f x = .ok y := by
  induction xs generalizing ys with
  | nil => cases hx
  | cons x' xs ih =>
      obtain ⟨y, ys, hy, hys, -⟩ := mapM_cons_eq_ok_iff.mp h
      rcases List.mem_cons.mp hx with rfl | hx
      · exact ⟨y, hy⟩
      · exact ih hys hx

/-- The step at which a fold fails. -/
theorem foldlM_eq_error {step : β → α → Outcome β} {xs : List α} {b : β}
    (h : xs.foldlM step b = .error failure) :
    ∃ before x after c, xs = before ++ x :: after ∧ before.foldlM step b = .ok c ∧
      step c x = .error failure := by
  induction xs generalizing b with
  | nil => cases h
  | cons x xs ih =>
      rw [List.foldlM_cons, bind_eq_error_iff] at h
      rcases h with h | ⟨c, hc, h⟩
      · exact ⟨[], x, xs, b, rfl, rfl, h⟩
      · obtain ⟨before, y, after, d, rfl, hd, hy⟩ := ih h
        refine ⟨x :: before, y, after, d, rfl, ?_, hy⟩
        rw [List.foldlM_cons, hc]
        exact hd

/-- A fold has a result if every step has one and keeps what the steps need. -/
theorem exists_foldlM {step : β → α → Outcome β} (kept : β → Prop) {xs : List α}
    (hstep : ∀ x ∈ xs, ∀ b, kept b → ∃ c, step b x = .ok c ∧ kept c) {b : β} (hb : kept b) :
    ∃ c, xs.foldlM step b = .ok c ∧ kept c := by
  induction xs generalizing b with
  | nil => exact ⟨b, rfl, hb⟩
  | cons x xs ih =>
      rw [List.forall_mem_cons] at hstep
      obtain ⟨c, hc, hkept⟩ := hstep.1 b hb
      obtain ⟨d, hd, hlast⟩ := ih hstep.2 hkept
      refine ⟨d, ?_, hlast⟩
      rw [List.foldlM_cons, hc]
      exact hd

end

end FlowProfile.Outcome
