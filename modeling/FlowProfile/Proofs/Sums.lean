import Mathlib.Algebra.BigOperators.Group.List.Basic
import Mathlib.Algebra.Order.BigOperators.Group.List
import Mathlib.Tactic

/-! # Sums over lists -/

namespace FlowProfile

theorem sum_map_modify {α : Type} (xs : List α) {i : ℕ} {x : α} (hx : xs[i]? = some x)
    (change : α → α) (weight : α → ℕ) :
    ((xs.modify i change).map weight).sum + weight x = (xs.map weight).sum + weight (change x) := by
  induction xs generalizing i with
  | nil => simp at hx
  | cons y ys ih =>
      cases i with
      | zero =>
          obtain rfl : y = x := by simpa using hx
          simp only [List.modify_zero_cons, List.map_cons, List.sum_cons]
          omega
      | succ i =>
          have h := ih (by simpa using hx)
          simp only [List.modify_succ_cons, List.map_cons, List.sum_cons]
          omega

theorem count_set_add {xs : List ℕ} {i : ℕ} {x : ℕ} (hx : xs[i]? = some x) (y z : ℕ) :
    (xs.set i y).count z + (if x = z then 1 else 0) = xs.count z + if y = z then 1 else 0 := by
  obtain ⟨hi, rfl⟩ := List.getElem?_eq_some_iff.mp hx
  rw [List.count_set hi]
  by_cases h : xs[i] = z
  · have hpos : 0 < xs.count z := List.count_pos_iff.mpr (h ▸ List.getElem_mem hi)
    simp only [beq_iff_eq, h, if_true]
    omega
  · simp [h]

theorem sum_map_zipIdx {α : Type} (xs : List α) (weight : α → ℕ) :
    (xs.zipIdx.map fun x => weight x.1).sum = (xs.map weight).sum := by
  have h := congrArg (List.map weight) (List.zipIdx_map_fst 0 xs)
  rw [List.map_map] at h
  exact congrArg List.sum h

/-- Sums over numbered elements that differ at one number alone. -/
theorem sum_map_zipIdx_add {α β : Type} {xs : List α} {ys : List β} (f : α × ℕ → ℕ)
    (g : β × ℕ → ℕ) (n k c : ℕ) (hlen : ys.length = xs.length)
    (h : ∀ i x y, xs[i]? = some x → ys[i]? = some y →
      g (y, n + i) = f (x, n + i) + if n + i = k then c else 0) :
    ((ys.zipIdx n).map g).sum =
      ((xs.zipIdx n).map f).sum + if n ≤ k ∧ k < n + xs.length then c else 0 := by
  induction xs generalizing ys n with
  | nil =>
      obtain rfl := List.eq_nil_of_length_eq_zero hlen
      simp only [List.zipIdx_nil, List.map_nil, List.sum_nil, List.length_nil]
      rw [if_neg (by omega), Nat.add_zero]
  | cons x xs ih =>
      obtain ⟨y, ys, rfl⟩ := List.exists_cons_of_length_eq_add_one hlen
      have hfirst := h 0 x y rfl rfl
      have hlen' : ys.length = xs.length := by simpa using hlen
      have hrest := ih (n + 1) hlen' fun i x' y' hx hy => by
        have hi := h (i + 1) x' y' (by simpa using hx) (by simpa using hy)
        rwa [Nat.add_comm i 1, ← Nat.add_assoc] at hi
      rw [Nat.add_zero] at hfirst
      simp only [List.zipIdx_cons, List.map_cons, List.sum_cons, List.length_cons, hfirst, hrest]
      split_ifs <;> omega

theorem sum_take_add_lt {xs : List ℕ} {i b : ℕ} (h : b < (xs[i]?).getD 0) :
    (xs.take i).sum + b < xs.sum := by
  induction xs generalizing i with
  | nil => simp at h
  | cons x xs ih =>
      cases i with
      | zero =>
          simp only [List.getElem?_cons_zero, Option.getD_some] at h
          simp only [List.take_zero, List.sum_nil, List.sum_cons]
          omega
      | succ i =>
          have hrest := ih (by simpa using h)
          simp only [List.take_succ_cons, List.sum_cons]
          omega

theorem sum_take_add_le {xs : List ℕ} {i x : ℕ} (h : xs[i]? = some x) :
    (xs.take i).sum + x ≤ xs.sum := by
  cases x with
  | zero => exact List.Sublist.sum_le_sum (List.take_sublist i xs) (by simp)
  | succ x => exact sum_take_add_lt (by simp [h])

theorem sum_take_add_le_take {xs : List ℕ} {i j x : ℕ} (h : xs[i]? = some x) (hij : i < j) :
    (xs.take i).sum + x ≤ (xs.take j).sum := by
  have htake : (xs.take j)[i]? = some x := by rwa [List.getElem?_take_of_lt hij]
  have hle := sum_take_add_le htake
  rwa [List.take_take, Nat.min_eq_left hij.le] at hle

/-- A place in one of several lists is told by its number in all of them. -/
theorem sum_take_add_eq_iff {xs : List ℕ} {i j b c : ℕ} (hb : b < (xs[i]?).getD 0)
    (hc : c < (xs[j]?).getD 0) :
    (xs.take i).sum + b = (xs.take j).sum + c ↔ i = j ∧ b = c := by
  have hlt : ∀ {i j b : ℕ}, b < (xs[i]?).getD 0 → i < j →
      (xs.take i).sum + b < (xs.take j).sum := by
    intro i j b hb hij
    cases hx : xs[i]? with
    | none => simp [hx] at hb
    | some x =>
        have hle := sum_take_add_le_take hx hij
        simp only [hx, Option.getD_some] at hb
        omega
  constructor
  · intro heq
    rcases Nat.lt_trichotomy i j with hij | rfl | hij
    · have := hlt hb hij
      omega
    · exact ⟨rfl, Nat.add_left_cancel heq⟩
    · have := hlt hc hij
      omega
  · rintro ⟨rfl, rfl⟩
    rfl

theorem two_le_sum {xs : List ℕ} {i j x y : ℕ} (hi : xs[i]? = some x) (hj : xs[j]? = some y)
    (hij : i ≠ j) : x + y ≤ xs.sum := by
  wlog hlt : i < j generalizing i j x y with H
  · have h := H hj hi hij.symm (by omega)
    omega
  have hfirst := sum_take_add_le_take hi hlt
  have hsecond := sum_take_add_le hj
  omega

/-- Numbers that do not fall and do not add up to more are the same. -/
theorem eq_of_forall₂_le_of_sum_le {xs ys : List ℕ} (h : List.Forall₂ (· ≤ ·) xs ys)
    (hsum : ys.sum ≤ xs.sum) : ys = xs := by
  induction h with
  | nil => rfl
  | @cons x y xs ys hle hrest ih =>
      have hrestLe := hrest.sum_le_sum
      rw [List.sum_cons, List.sum_cons] at hsum
      rw [ih (by omega), show y = x by omega]

end FlowProfile
