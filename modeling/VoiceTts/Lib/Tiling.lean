import Mathlib.Tactic.Common

/-!
# Texts cut into ranges

A text is cut into words by listing ranges of its positions.  The ranges tile a
stretch of the text when each of them starts where the one before it has ended;
then the words that they name, put together again, are the stretch.
-/

namespace VoiceTts
namespace Tiling

variable {α : Type}

/-- The positions from `left` to `right`, both included. -/
structure Span where
  left : Nat
  right : Nat
deriving DecidableEq, Repr

/-- The elements from position `i` up to, but without, position `j`. -/
def slice (xs : List α) (i j : Nat) : List α :=
  (xs.drop i).take (j - i)

/-- The elements of a range. -/
def Span.of (s : Span) (xs : List α) : List α :=
  slice xs s.left (s.right + 1)

/-- The same number of positions, `k` further on. -/
def Span.shift (k : Nat) (s : Span) : Span where
  left := k + s.left
  right := k + s.right

/-- The ranges follow one another from `i` up to `j`. -/
inductive Tiles : Nat -> List Span -> Nat -> Prop where
  | nil (i : Nat) : Tiles i [] i
  | cons {i r j : Nat} {spans : List Span} :
      i ≤ r -> Tiles (r + 1) spans j -> Tiles i (⟨i, r⟩ :: spans) j

/-!
## Slices
-/

theorem length_slice (xs : List α) {i j : Nat} (hj : j ≤ xs.length) :
    (slice xs i j).length = j - i := by
  rw [slice, List.length_take, List.length_drop]
  omega

@[simp] theorem slice_self (xs : List α) (i : Nat) : slice xs i i = [] := by
  rw [slice, Nat.sub_self, List.take_zero]

@[simp] theorem slice_zero (xs : List α) : slice xs 0 xs.length = xs := by
  rw [slice, List.drop_zero, Nat.sub_zero, List.take_length]

theorem slice_ne_nil {xs : List α} {i j : Nat} (hij : i < j) (hj : j ≤ xs.length) :
    slice xs i j ≠ [] := by
  rw [← List.length_pos_iff, length_slice xs hj]
  omega

theorem slice_append (xs : List α) {i k j : Nat} (hik : i ≤ k) (hkj : k ≤ j) :
    slice xs i k ++ slice xs k j = slice xs i j := by
  have hdrop : xs.drop k = (xs.drop i).drop (k - i) := by
    rw [List.drop_drop, Nat.add_sub_cancel' hik]
  have hlength : j - i = (k - i) + (j - k) := by
    omega
  unfold slice
  rw [hdrop, hlength, List.take_add]

theorem slice_cons {xs : List α} {i j : Nat} {x : α} (hx : xs[i]? = some x)
    (hij : i < j) : slice xs i j = x :: slice xs (i + 1) j := by
  rcases List.getElem?_eq_some_iff.mp hx with ⟨hi, rfl⟩
  have hlength : j - i = (j - (i + 1)) + 1 := by
    omega
  unfold slice
  rw [List.drop_eq_getElem_cons hi, hlength, List.take_succ_cons]

theorem slice_slice (xs : List α) {a b i j : Nat} (hj : a + j ≤ b) :
    slice (slice xs a b) i j = slice xs (a + i) (a + j) := by
  have hlength : a + j - (a + i) = j - i := by
    omega
  unfold slice
  rw [List.drop_take, List.drop_drop, List.take_take, hlength,
    Nat.min_eq_left (by omega)]

theorem slice_map {β : Type} (f : α -> β) (xs : List α) (i j : Nat) :
    slice (xs.map f) i j = (slice xs i j).map f := by
  rw [slice, slice, List.map_take, List.map_drop]

theorem slice_append_left {xs : List α} (ys : List α) (i : Nat) {j : Nat}
    (hj : j ≤ xs.length) : slice (xs ++ ys) i j = slice xs i j := by
  by_cases hi : i ≤ xs.length
  · rw [slice, slice, List.drop_append_of_le_length hi,
      List.take_append_of_le_length (by rw [List.length_drop]; omega)]
  · rw [slice, slice, Nat.sub_eq_zero_of_le (by omega), List.take_zero, List.take_zero]

theorem slice_append_right (xs ys : List α) (i j : Nat) :
    slice (xs ++ ys) (xs.length + i) (xs.length + j) = slice ys i j := by
  rw [slice, slice, ← List.drop_drop, List.drop_left, Nat.add_sub_add_left]

theorem getElem?_slice (xs : List α) {i j k : Nat} (hk : i + k < j) :
    (slice xs i j)[k]? = xs[i + k]? := by
  rw [slice, List.getElem?_take_of_lt (by omega), List.getElem?_drop]

/-- Up to the end of the longest run the elements pass, and the one behind it fails. -/
theorem takeWhile_getElem? (p : α -> Bool) (xs : List α) :
    (forall (k : Nat) x, k < (xs.takeWhile p).length -> xs[k]? = some x -> p x = true) ∧
      forall x, xs[(xs.takeWhile p).length]? = some x -> p x = false := by
  induction xs with
  | nil =>
      refine ⟨fun k x hk => absurd hk (Nat.not_lt_zero k), fun x hx => ?_⟩
      cases hx
  | cons y ys ih =>
      cases hy : p y with
      | false =>
          rw [List.takeWhile_cons_of_neg (by rw [hy]; exact Bool.false_ne_true)]
          refine ⟨fun k x hk => absurd hk (Nat.not_lt_zero k), fun x hx => ?_⟩
          cases hx
          exact hy
      | true =>
          rw [List.takeWhile_cons_of_pos hy, List.length_cons]
          refine ⟨?_, ih.2⟩
          intro k x hk hx
          cases k with
          | zero =>
              cases hx
              exact hy
          | succ k =>
              exact ih.1 k x (Nat.lt_of_succ_lt_succ hk) hx

/-!
## Tilings
-/

namespace Tiles

variable {i j k : Nat} {spans spans' : List Span}

theorem le (h : Tiles i spans j) : i ≤ j := by
  induction h with
  | nil i =>
      exact Nat.le_refl i
  | cons hir _ ih =>
      omega

theorem single {i r : Nat} (h : i ≤ r) : Tiles i [⟨i, r⟩] (r + 1) :=
  cons h (nil (r + 1))

theorem append (h : Tiles i spans k) (h' : Tiles k spans' j) :
    Tiles i (spans ++ spans') j := by
  induction h with
  | nil i =>
      exact h'
  | cons hir _ ih =>
      exact cons hir (ih h')

theorem split (h : Tiles i (spans ++ spans') j) :
    exists k, Tiles i spans k ∧ Tiles k spans' j := by
  induction spans generalizing i with
  | nil =>
      exact ⟨i, nil i, h⟩
  | cons s spans ih =>
      cases h with
      | cons hir htail =>
          rcases ih htail with ⟨k, hfront, hrear⟩
          exact ⟨k, cons hir hfront, hrear⟩

theorem mem (h : Tiles i spans j) {s : Span} (hs : s ∈ spans) :
    i ≤ s.left ∧ s.left ≤ s.right ∧ s.right < j := by
  induction h with
  | nil i =>
      cases hs
  | cons hir htail ih =>
      rcases List.mem_cons.mp hs with rfl | hs
      · exact ⟨Nat.le_refl _, hir, htail.le⟩
      · have hrest := ih hs
        exact ⟨by omega, hrest.2⟩

theorem flatMap (h : Tiles i spans j) {f : Span -> List Span}
    (hf : forall s, s ∈ spans -> Tiles s.left (f s) (s.right + 1)) :
    Tiles i (spans.flatMap f) j := by
  induction h with
  | nil i =>
      exact nil i
  | cons _ _ ih =>
      rw [List.flatMap_cons]
      exact (hf _ (List.mem_cons_self ..)).append
        (ih fun s hs => hf s (List.mem_cons_of_mem _ hs))

theorem flatten_of (h : Tiles i spans j) (xs : List α) :
    (spans.map (Span.of · xs)).flatten = slice xs i j := by
  induction h with
  | nil i =>
      rw [slice_self]
      rfl
  | cons hir htail ih =>
      rw [List.map_cons, List.flatten_cons, ih]
      exact slice_append xs (Nat.le_succ_of_le hir) htail.le

theorem last (h : Tiles i spans j) {s : Span} (hs : spans.getLast? = some s) :
    s.right + 1 = j := by
  induction h with
  | nil i =>
      cases hs
  | @cons i r j spans hir htail ih =>
      cases spans with
      | nil =>
          cases htail
          cases hs
          rfl
      | cons t spans =>
          rw [List.getLast?_cons_cons] at hs
          exact ih hs

theorem ne_nil (h : Tiles i spans j) (hij : i < j) : spans ≠ [] := by
  rintro rfl
  cases h
  exact Nat.lt_irrefl i hij

theorem exists_mem (h : Tiles i spans j) {k : Nat} (hik : i ≤ k) (hkj : k < j) :
    exists s, s ∈ spans ∧ s.left ≤ k ∧ k ≤ s.right := by
  induction h with
  | nil i =>
      omega
  | @cons i r j spans hir htail ih =>
      by_cases hkr : k ≤ r
      · exact ⟨_, List.mem_cons_self .., hik, hkr⟩
      · rcases ih (by omega) hkj with ⟨s, hs, hbounds⟩
        exact ⟨s, List.mem_cons_of_mem _ hs, hbounds⟩

end Tiles

end Tiling
end VoiceTts
