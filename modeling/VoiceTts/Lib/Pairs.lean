import Mathlib.Algebra.Ring.Parity
import VoiceTts.Lib.Blocks

/-!
# Blocks of two

A pass that joins an item to the one before it if the two go together and the one before
has not been joined itself.  In a row of items that all go with the ones before them it
joins every other one.
-/

namespace VoiceTts
namespace Blocks

variable {α : Type}

variable (R : α -> α -> Prop) [DecidableRel R]

/-- Join an item to a block of one item that it goes with. -/
def pairJoin (cur : List α) (a : α) : Bool :=
  match cur with
  | [p] => decide (R p a)
  | _ => false

/-- How many items in a row, up to the one at `i`, go with the item before them. -/
def streak (l : List α) : Nat -> Nat
  | 0 => 0
  | i + 1 =>
      match l[i]?, l[i + 1]? with
      | some p, some a => if R p a then streak l i + 1 else 0
      | _, _ => 0

variable {R}

theorem streak_succ {l : List α} {i : Nat} {p a : α} (hp : l[i]? = some p)
    (ha : l[i + 1]? = some a) :
    streak R l (i + 1) = if R p a then streak R l i + 1 else 0 := by
  rw [streak, hp, ha]

theorem streak_append {l : List α} {i : Nat} (hi : i < l.length) (m : List α) :
    streak R (l ++ m) i = streak R l i := by
  induction i with
  | zero =>
      rfl
  | succ i ih =>
      rw [streak, streak, List.getElem?_append_left hi,
        List.getElem?_append_left (Nat.lt_of_succ_lt hi), ih (Nat.lt_of_succ_lt hi)]

/-- What the last block says of the row that its last item stands in. -/
structure LastPair (R : α -> α -> Prop) [DecidableRel R] (l cur : List α) : Prop where
  last : cur.getLast? = l[l.length - 1]?
  one : ¬ Odd (streak R l (l.length - 1)) -> cur.length = 1
  two : Odd (streak R l (l.length - 1)) -> cur.length = 2

theorem lastPair_singleton {l : List α} {a : α}
    (heven : ¬ Odd (streak R (l ++ [a]) l.length)) : LastPair R (l ++ [a]) [a] where
  last := by
    rw [List.length_append, List.length_singleton, Nat.add_sub_cancel,
      List.getElem?_concat_length]
    rfl
  one := by
    intro _
    rfl
  two := by
    rw [List.length_append, List.length_singleton, Nat.add_sub_cancel]
    intro hodd
    exact absurd hodd heven

theorem lastPair_pair {l : List α} {p a : α} (hodd : Odd (streak R (l ++ [a]) l.length)) :
    LastPair R (l ++ [a]) [p, a] where
  last := by
    rw [List.length_append, List.length_singleton, Nat.add_sub_cancel,
      List.getElem?_concat_length]
    rfl
  one := by
    rw [List.length_append, List.length_singleton, Nat.add_sub_cancel]
    intro heven
    exact absurd hodd heven
  two := by
    intro _
    rfl

theorem pairJoin_iff {l cur : List α} {a : α} (hl : l ≠ []) (h : LastPair R l cur) :
    pairJoin R cur a = true ↔ Odd (streak R (l ++ [a]) l.length) := by
  obtain ⟨n, hn⟩ := Nat.exists_eq_add_of_lt (List.length_pos_iff.mpr hl)
  rw [Nat.zero_add] at hn
  have hlast := h.last
  have hone := h.one
  have htwo := h.two
  rw [hn, Nat.add_sub_cancel] at hlast hone htwo
  have hget : l[n]? = some (l[n]) := List.getElem?_eq_getElem (by omega)
  have hgetn : (l ++ [a])[n]? = some (l[n]) := by
    rw [List.getElem?_append_left (by omega), hget]
  have hgeta : (l ++ [a])[n + 1]? = some a := by
    rw [← hn, List.getElem?_concat_length]
  rw [hn, streak_succ hgetn hgeta, streak_append (by omega)]
  by_cases hodd : Odd (streak R l n)
  · rcases List.length_eq_two.mp (htwo hodd) with ⟨p, q, rfl⟩
    refine iff_of_false Bool.false_ne_true ?_
    split
    · rw [Nat.odd_add_one, not_not]
      exact hodd
    · simp
  · rcases List.length_eq_one_iff.mp (hone hodd) with ⟨p, rfl⟩
    rw [List.getLast?_singleton, hget, Option.some.injEq] at hlast
    subst hlast
    rw [pairJoin, decide_eq_true_eq]
    split
    · rename_i hR
      rw [Nat.odd_add_one]
      exact iff_of_true hR hodd
    · rename_i hR
      exact iff_of_false hR (by simp)

theorem eq_singleton_of_pairJoin {cur : List α} {a : α} (h : pairJoin R cur a = true) :
    exists p, cur = [p] := by
  match cur with
  | [] =>
      cases h
  | [p] =>
      exact ⟨p, rfl⟩
  | _ :: _ :: _ =>
      cases h

/-- The last item makes a pair if its row is uneven, and a block of its own otherwise. -/
theorem blocks_pairJoin_concat {l : List α} (a : α)
    (hlast : forall pre cur, blocks (pairJoin R) l = pre ++ [cur] -> LastPair R l cur) :
    (Odd (streak R (l ++ [a]) l.length) ∧ exists pre p,
        blocks (pairJoin R) l = pre ++ [[p]] ∧ l[l.length - 1]? = some p ∧
        blocks (pairJoin R) (l ++ [a]) = pre ++ [[p, a]]) ∨
      (¬ Odd (streak R (l ++ [a]) l.length) ∧
        blocks (pairJoin R) (l ++ [a]) = blocks (pairJoin R) l ++ [[a]]) := by
  rw [blocks_concat]
  rcases addItem_cases (pairJoin R) (blocks (pairJoin R) l) a with
    ⟨hbs, hadd⟩ | ⟨pre, cur, hbs, hjoin, hadd⟩ | ⟨pre, cur, hbs, hjoin, hadd⟩
  · right
    rw [hadd, hbs, blocks_eq_nil.mp hbs]
    exact ⟨by simp [streak], rfl⟩
  · left
    have hl : l ≠ [] := by
      rintro rfl
      simp at hbs
    rcases eq_singleton_of_pairJoin hjoin with ⟨p, rfl⟩
    have hpair := hlast pre [p] hbs
    exact ⟨(pairJoin_iff hl hpair).mp hjoin, pre, p, hbs, hpair.last.symm, hadd⟩
  · right
    have hl : l ≠ [] := by
      rintro rfl
      simp at hbs
    rw [← Bool.not_eq_true, pairJoin_iff hl (hlast pre cur hbs)] at hjoin
    rw [hadd, hbs]
    exact ⟨hjoin, rfl⟩

theorem lastPair_of_blocks {l cur : List α} {pre : List (List α)}
    (h : blocks (pairJoin R) l = pre ++ [cur]) : LastPair R l cur := by
  induction l using List.reverseRecOn generalizing pre cur with
  | nil =>
      simp at h
  | append_singleton l a ih =>
      rcases blocks_pairJoin_concat a (fun _ _ => ih) with
        ⟨hodd, front, p, -, -, hadd⟩ | ⟨heven, hadd⟩
      · rw [hadd] at h
        have hcur := (List.append_inj' h rfl).2
        rw [List.singleton_inj] at hcur
        rw [← hcur]
        exact lastPair_pair hodd
      · rw [hadd] at h
        have hcur := (List.append_inj' h rfl).2
        rw [List.singleton_inj] at hcur
        rw [← hcur]
        exact lastPair_singleton heven

theorem ends_row_iff {l : List α} {p b a : α} :
    (exists i, (l ++ [a])[i]? = some p ∧ (l ++ [a])[i + 1]? = some b ∧
        Odd (streak R (l ++ [a]) (i + 1))) ↔
      (exists i, l[i]? = some p ∧ l[i + 1]? = some b ∧ Odd (streak R l (i + 1))) ∨
        (b = a ∧ l[l.length - 1]? = some p ∧ Odd (streak R (l ++ [a]) l.length)) := by
  constructor
  · rintro ⟨i, hp, hb, hodd⟩
    have hi := (List.getElem?_eq_some_iff.mp hb).1
    rw [List.length_append, List.length_singleton] at hi
    rcases Nat.lt_or_ge (i + 1) l.length with hlt | hge
    · left
      rw [List.getElem?_append_left (Nat.lt_of_succ_lt hlt)] at hp
      rw [List.getElem?_append_left hlt] at hb
      rw [streak_append hlt] at hodd
      exact ⟨i, hp, hb, hodd⟩
    · right
      have hlength : l.length = i + 1 := by
        omega
      rw [List.getElem?_append_left (by omega)] at hp
      rw [← hlength] at hb hodd
      rw [List.getElem?_concat_length, Option.some.injEq] at hb
      rw [hlength, Nat.add_sub_cancel, ← hlength]
      exact ⟨hb.symm, hp, hodd⟩
  · rintro (⟨i, hp, hb, hodd⟩ | ⟨rfl, hp, hodd⟩)
    · have hi := (List.getElem?_eq_some_iff.mp hb).1
      refine ⟨i, ?_, ?_, ?_⟩
      · rw [List.getElem?_append_left (Nat.lt_of_succ_lt hi), hp]
      · rw [List.getElem?_append_left hi, hb]
      · rw [streak_append hi]
        exact hodd
    · have hpos := (List.getElem?_eq_some_iff.mp hp).1
      have hlength : l.length - 1 + 1 = l.length := by
        omega
      refine ⟨l.length - 1, ?_, ?_, ?_⟩
      · rw [List.getElem?_append_left hpos, hp]
      · rw [hlength, List.getElem?_concat_length]
      · rw [hlength]
        exact hodd

/-- The blocks of two are the ends of uneven rows with the items before them. -/
theorem pair_mem_blocks_iff {l : List α} {p b : α} :
    [p, b] ∈ blocks (pairJoin R) l ↔
      exists i, l[i]? = some p ∧ l[i + 1]? = some b ∧ Odd (streak R l (i + 1)) := by
  induction l using List.reverseRecOn with
  | nil =>
      simp
  | append_singleton l a ih =>
      rw [ends_row_iff, ← ih]
      rcases blocks_pairJoin_concat (R := R) a (fun _ _ => lastPair_of_blocks) with
        ⟨hodd, front, q, hbs, hq, hadd⟩ | ⟨heven, hadd⟩
      · rw [hadd, hbs, hq]
        simp [hodd, eq_comm, and_comm]
      · rw [hadd]
        simp [heven]

/-- What holds of neighbours in the same block. -/
theorem isChain_blocks_iff {l : List α} {Q : α -> α -> Prop} :
    (forall b, b ∈ blocks (pairJoin R) l -> b.IsChain Q) ↔
      forall i p b, l[i]? = some p -> l[i + 1]? = some b -> Odd (streak R l (i + 1)) ->
        Q p b := by
  constructor
  · intro h i p b hp hb hodd
    have hchain := h [p, b] (pair_mem_blocks_iff.mpr ⟨i, hp, hb, hodd⟩)
    rw [List.isChain_cons_cons] at hchain
    exact hchain.1
  · intro h
    have hsmall : forall b, b ∈ blocks (pairJoin R) l ->
        (exists p, b = [p]) ∨ exists p a, b = [p, a] := by
      refine forall_mem_blocks l (fun a _ => Or.inl ⟨a, rfl⟩) ?_
      intro cur a _ _ hjoin
      rcases eq_singleton_of_pairJoin hjoin with ⟨p, rfl⟩
      exact Or.inr ⟨p, a, rfl⟩
    intro b hb
    rcases hsmall b hb with ⟨p, rfl⟩ | ⟨p, a, rfl⟩
    · simp
    · rcases pair_mem_blocks_iff.mp hb with ⟨i, hp, ha, hodd⟩
      simpa using h i p a hp ha hodd

end Blocks
end VoiceTts
