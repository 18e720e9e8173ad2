import VoiceTts.Front.Passes

/-!
# Repeated verbs around 一

The first loop of `Mergeyi` makes one word of a verb, 一, and the same verb.  It
appends to the word at the index that the verb has in the input, and it leaves
out the second verb by a test of its own.  The index is right as long as no
word was left out before, and the two tests agree when both verbs are tagged as
verbs.  For any tags it is said here when the text survives.
-/

namespace VoiceTts
namespace FrontEngineInterface

open Blocks

/-!
## The two tests
-/

/-- 一 stands at `i` between two equal words, the first one tagged as a verb. -/
def VerbBetween (l : Seg) (i : Nat) : Prop :=
  1 ≤ i ∧ wordAt l i = str "一" ∧ i + 1 < l.length ∧
    wordAt l (i - 1) = wordAt l (i + 1) ∧ tagAt l (i - 1) = str "v"

/-- The word at `i` is tagged as a verb and stands behind 一 and the same word. -/
def VerbRepeated (l : Seg) (i : Nat) : Prop :=
  2 ≤ i ∧ wordAt l (i - 1) = str "一" ∧ wordAt l (i - 2) = wordAt l i ∧
    tagAt l i = str "v"

instance (l : Seg) (i : Nat) : Decidable (VerbBetween l i) :=
  inferInstanceAs (Decidable (_ ∧ _))

instance (l : Seg) (i : Nat) : Decidable (VerbRepeated l i) :=
  inferInstanceAs (Decidable (_ ∧ _))

section Loop

variable {l : Seg} {i : Nat}

theorem yiBetween_eq (hi : i < l.length) :
    yiBetween l l[i].1 i = Except.ok (decide (VerbBetween l i)) := by
  unfold yiBetween
  split
  · rename_i hcond
    have hnext : i + 1 < l.length := hcond.2.2
    have hprev : i - 1 < l.length := by
      omega
    rw [elementAt_of_lt _ l hprev, ok_bind, elementAt_of_lt _ l hnext, ok_bind]
    refine congrArg Except.ok (decide_eq_decide.mpr ?_)
    unfold VerbBetween
    rw [wordAt_of_lt hi, wordAt_of_lt hprev, wordAt_of_lt hnext, tagAt_of_lt hprev]
    constructor
    · intro h
      exact ⟨hcond.1, hcond.2.1, hnext, h⟩
    · intro h
      exact h.2.2.2
  · rename_i hcond
    refine congrArg Except.ok (decide_eq_false ?_).symm
    intro h
    rw [← wordAt_of_lt hi] at hcond
    exact hcond ⟨h.1, h.2.1, h.2.2.1⟩

theorem yiRepeated_eq (hi : i < l.length) :
    yiRepeated l l[i] i = Except.ok (decide (VerbRepeated l i)) := by
  unfold yiRepeated
  split
  · rename_i hcond
    have hprev : i - 1 < l.length := by
      omega
    have hprev2 : i - 2 < l.length := by
      omega
    rw [elementAt_of_lt _ l hprev, ok_bind, elementAt_of_lt _ l hprev2, ok_bind]
    refine congrArg Except.ok (decide_eq_decide.mpr ?_)
    unfold VerbRepeated
    rw [wordAt_of_lt hi, wordAt_of_lt hprev, wordAt_of_lt hprev2, tagAt_of_lt hi,
      and_iff_right hcond]
  · rename_i hcond
    refine congrArg Except.ok (decide_eq_false ?_).symm
    intro h
    exact hcond h.1

theorem mergeyiStep_eq (hi : i < l.length) (result_temp : Seg) :
    mergeyiStep l result_temp i =
      if VerbBetween l i then do
        let p <- elementAt Container.result_temp result_temp (i - 1)
        pure (result_temp.set (i - 1) (p.1 ++ str "一" ++ p.1, p.2))
      else pure (if VerbRepeated l i then result_temp else result_temp ++ [l[i]]) := by
  unfold mergeyiStep
  rw [elementAt_of_lt _ l hi, ok_bind, yiBetween_eq hi, ok_bind, yiRepeated_eq hi, ok_bind]
  simp only [decide_eq_true_eq]

/-!
## The text after some rounds
-/

/-- A round that does not append its word as it is. -/
def Event (l : Seg) (i : Nat) : Prop :=
  VerbBetween l i ∨ VerbRepeated l i

/-- What a round adds to the text. -/
def addition (l : Seg) (i : Nat) : CString :=
  if VerbBetween l i then wordAt l i ++ wordAt l (i - 1)
  else if VerbRepeated l i then [] else wordAt l i

def additions (l : Seg) (m : Nat) : CString :=
  ((List.range m).map (addition l)).flatten

theorem additions_succ (l : Seg) (m : Nat) :
    additions l (m + 1) = additions l m ++ addition l m := by
  unfold additions
  rw [List.range_succ, List.map_append, List.flatten_append]
  simp

/-- A verb is completed only as long as every word was appended as it is. -/
def InOrder (l : Seg) (m : Nat) : Prop :=
  forall i, i < m -> VerbBetween l i -> forall j, j < i -> ¬ Event l j

/-- The state of the loop before round `m`. -/
structure YiState (l : Seg) (m : Nat) (result_temp : Seg) : Prop where
  inOrder : InOrder l m
  text_eq : text result_temp = additions l m
  copied : (forall j, j < m -> ¬ Event l j) -> result_temp = l.take m
  shorter : (exists j, j < m ∧ Event l j) -> result_temp.length < m

theorem yiState_zero (l : Seg) : YiState l 0 [] where
  inOrder := by
    intro i hi
    exact absurd hi (Nat.not_lt_zero i)
  text_eq := rfl
  copied := by
    intro _
    rfl
  shorter := by
    rintro ⟨j, hj, -⟩
    exact absurd hj (Nat.not_lt_zero j)

theorem YiState.length_le {m : Nat} {result_temp : Seg} (h : YiState l m result_temp) :
    result_temp.length ≤ m := by
  by_cases hevent : exists j, j < m ∧ Event l j
  · exact Nat.le_of_lt (h.shorter hevent)
  · rw [h.copied fun j hj hej => hevent ⟨j, hj, hej⟩, List.length_take]
    exact Nat.min_le_left m l.length

theorem inOrder_succ {m : Nat} :
    InOrder l (m + 1) ↔
      InOrder l m ∧ (VerbBetween l m -> forall j, j < m -> ¬ Event l j) :=
  Nat.forall_lt_succ_right

theorem YiState.skip {m : Nat} {result_temp : Seg} (h : YiState l m result_temp)
    (hbetween : ¬ VerbBetween l m) (hrepeated : VerbRepeated l m) :
    YiState l (m + 1) result_temp where
  inOrder := inOrder_succ.mpr ⟨h.inOrder, fun hyes => absurd hyes hbetween⟩
  text_eq := by
    rw [additions_succ, h.text_eq, addition, if_neg hbetween, if_pos hrepeated,
      List.append_nil]
  copied := by
    intro hnone
    exact absurd (Or.inr hrepeated) (hnone m (Nat.lt_succ_self m))
  shorter := by
    intro _
    exact Nat.lt_succ_of_le h.length_le

theorem YiState.push {m : Nat} {result_temp : Seg} (h : YiState l m result_temp)
    (hm : m < l.length) (hevent : ¬ Event l m) :
    YiState l (m + 1) (result_temp ++ [l[m]]) where
  inOrder := inOrder_succ.mpr ⟨h.inOrder, fun hyes => absurd (Or.inl hyes) hevent⟩
  text_eq := by
    have hbetween : ¬ VerbBetween l m := fun hyes => hevent (Or.inl hyes)
    have hrepeated : ¬ VerbRepeated l m := fun hyes => hevent (Or.inr hyes)
    rw [additions_succ, text_append, h.text_eq, addition, if_neg hbetween,
      if_neg hrepeated, wordAt_of_lt hm]
    simp
  copied := by
    intro hnone
    rw [h.copied fun j hj => hnone j (Nat.lt_succ_of_lt hj),
      List.take_append_getElem hm]
  shorter := by
    rintro ⟨j, hj, hej⟩
    have hlt : j < m := by
      refine Nat.lt_of_le_of_ne (Nat.le_of_lt_succ hj) fun heq => ?_
      subst heq
      exact hevent hej
    rw [List.length_append]
    exact Nat.succ_lt_succ (h.shorter ⟨j, hlt, hej⟩)

/-- The verb in front of 一 is the last word so far. -/
theorem YiState.complete {m : Nat} {result_temp : Seg} (h : YiState l m result_temp)
    (hbetween : VerbBetween l m) (hnone : forall j, j < m -> ¬ Event l j) :
    Yields (YiState l (m + 1)) (fun _ : Error => False)
      (do let p <- elementAt Container.result_temp result_temp (m - 1)
          pure (result_temp.set (m - 1) (p.1 ++ str "一" ++ p.1, p.2))) := by
  have hcopied := h.copied hnone
  have hm : m < l.length := Nat.lt_of_succ_lt hbetween.2.2.1
  obtain ⟨k, rfl⟩ : exists k, m = k + 1 := ⟨m - 1, by have := hbetween.1; omega⟩
  have hk : k < l.length := Nat.lt_of_succ_lt hm
  have hword : wordAt l (k + 1) = str "一" := hbetween.2.1
  have hconcat : result_temp = l.take k ++ [l[k]] := by
    rw [hcopied, List.take_append_getElem hk]
  have hlength : (l.take k).length = k := List.length_take_of_le (Nat.le_of_lt hk)
  have helement : elementAt Container.result_temp result_temp k = Except.ok l[k] := by
    unfold elementAt
    rw [hconcat, List.getElem?_append_right (Nat.le_of_eq hlength), hlength, Nat.sub_self]
    rfl
  have hset : result_temp.set k (l[k].1 ++ str "一" ++ l[k].1, l[k].2) =
      l.take k ++ [(l[k].1 ++ str "一" ++ l[k].1, l[k].2)] := by
    rw [hconcat, List.set_append_right _ _ (Nat.le_of_eq hlength), hlength, Nat.sub_self]
    rfl
  have htext : text result_temp = text (l.take k) ++ l[k].1 := by
    rw [hconcat, text_append, text_cons, text_nil, List.append_nil]
  rw [Nat.add_sub_cancel, helement, ok_bind, hset]
  constructor
  · exact inOrder_succ.mpr ⟨h.inOrder, fun _ => hnone⟩
  · rw [additions_succ, ← h.text_eq, htext, addition, if_pos hbetween, hword,
      Nat.add_sub_cancel, wordAt_of_lt hk]
    simp
  · intro hno
    exact absurd (Or.inl hbetween) (hno (k + 1) (Nat.lt_succ_self _))
  · intro _
    rw [List.length_append, hlength]
    exact Nat.lt_succ_self (k + 1)

theorem YiState.late {m : Nat} {result_temp : Seg} (h : YiState l m result_temp)
    (hevent : exists j, j < m ∧ Event l j) :
    elementAt Container.result_temp result_temp (m - 1) =
      Except.error (Error.access Container.result_temp) := by
  have hshort := h.shorter hevent
  unfold elementAt
  rw [List.getElem?_eq_none (by omega)]

/-- The loop leaves the range of `result_temp` exactly when a verb comes too late. -/
theorem mergeyi_loop (m : Nat) (hm : m ≤ l.length) :
    Yields (YiState l m) (fun _ : Error => ¬ InOrder l m)
      ((List.range m).foldlM (mergeyiStep l) []) := by
  induction m with
  | zero =>
      exact yiState_zero l
  | succ m ih =>
      rw [List.range_succ, List.foldlM_append]
      have hfront := (ih (Nat.le_of_succ_le hm)).mono (fun _ hs => hs)
        fun _ hno hyes => hno (inOrder_succ.mp hyes).1
      refine hfront.bind fun result_temp hstate => ?_
      rw [List.foldlM_cons, mergeyiStep_eq hm]
      by_cases hbetween : VerbBetween l m
      · rw [if_pos hbetween]
        by_cases hevent : exists j, j < m ∧ Event l j
        · rw [hstate.late hevent]
          intro hyes
          rcases hevent with ⟨j, hj, hej⟩
          exact (inOrder_succ.mp hyes).2 hbetween j hj hej
        · have hnone : forall j, j < m -> ¬ Event l j := fun j hj hej => hevent ⟨j, hj, hej⟩
          rcases (hstate.complete hbetween hnone).exists_ok with ⟨next, hnext, hstate'⟩
          rw [hnext]
          exact hstate'
      · rw [if_neg hbetween]
        by_cases hrepeated : VerbRepeated l m
        · rw [if_pos hrepeated]
          exact hstate.skip hbetween hrepeated
        · rw [if_neg hrepeated]
          exact hstate.push hm fun hevent => hevent.elim hbetween hrepeated

end Loop

/-!
## When the text survives
-/

theorem text_joinOrPush (join : CString × CString -> CString × CString -> Bool) (l : Seg) :
    text (l.foldl (joinOrPush join) []) = text l := by
  rw [foldl_joinOrPush]
  conv_rhs => rw [← flatten_blocks (fun cur t => join (firstToken cur) t) l, text_flatten]
  unfold text
  rw [List.map_map]
  rfl

/-- The words from position `s` on, without the ones that the loop leaves out. -/
def keptFrom (l : Seg) (s : Nat) : CString :=
  ((List.range' s (l.length - s)).map fun i =>
    if VerbRepeated l i then [] else wordAt l i).flatten

/-- A verb is written twice, and the second one of the input is appended as well. -/
def Doubled (l : Seg) (i : Nat) : Prop :=
  VerbBetween l i ∧ ¬ VerbRepeated l (i + 1)

/-- A word is left out that no verb in front of it was completed with. -/
def Dropped (l : Seg) (i : Nat) : Prop :=
  i < l.length ∧ VerbRepeated l i ∧ ¬ VerbBetween l i ∧ ¬ VerbBetween l (i - 1) ∧
    wordAt l i ≠ []

/--
The text survives when a verb is completed only before any word was left out, and
no verb is doubled and no word dropped; or when the words behind a doubled verb
and the ones dropped there happen to make up for it.
-/
structure YiBalanced (l : Seg) : Prop where
  inOrder : InOrder l l.length
  balance : (forall i, ¬ Doubled l i ∧ ¬ Dropped l i) ∨
    exists i, Doubled l i ∧ wordAt l (i - 1) ++ keptFrom l (i + 2) = text (l.drop (i + 2))

theorem Mergeyi_text_iff (l : Seg) :
    (exists out, Mergeyi l = Except.ok out ∧ text out = text l) ↔
      InOrder l l.length ∧ additions l l.length = text l := by
  have hloop := mergeyi_loop l.length (Nat.le_refl l.length)
  unfold Mergeyi
  cases hrun : (List.range l.length).foldlM (mergeyiStep l) [] with
  | error e =>
      rw [hrun] at hloop
      refine iff_of_false ?_ fun hyes => hloop hyes.1
      rintro ⟨out, hout, -⟩
      cases hout
  | ok result_temp =>
      rw [hrun] at hloop
      rw [← hloop.text_eq, and_iff_right hloop.inOrder]
      constructor
      · rintro ⟨out, hout, htext⟩
        cases hout
        rw [text_joinOrPush] at htext
        exact htext
      · intro htext
        refine ⟨_, rfl, ?_⟩
        rw [text_joinOrPush]
        exact htext

section Balance

variable {l : Seg}

/-- The positions from `s` on, of which there are `k`, as one text. -/
def span (f : Nat -> CString) (s k : Nat) : CString :=
  ((List.range' s k).map f).flatten

theorem span_add (f : Nat -> CString) (s j k : Nat) :
    span f s (j + k) = span f s j ++ span f (s + j) k := by
  unfold span
  rw [← List.range'_append_1, List.map_append, List.flatten_append]

theorem span_one (f : Nat -> CString) (s : Nat) : span f s 1 = f s := by
  simp [span]

theorem span_congr {f g : Nat -> CString} {s k : Nat}
    (h : forall i, s ≤ i -> i < s + k -> f i = g i) : span f s k = span g s k := by
  unfold span
  rw [List.map_congr_left fun i hi => h i (List.mem_range'_1.mp hi).1
    (List.mem_range'_1.mp hi).2]

theorem span_eq_iff {f g : Nat -> CString} (h : forall i, f i = g i ∨ f i = [])
    (s k : Nat) :
    span f s k = span g s k ↔ forall i, s ≤ i -> i < s + k -> f i = g i := by
  have hle : forall i, (f i).length ≤ (g i).length := by
    intro i
    rcases h i with heq | hnil
    · rw [heq]
    · rw [hnil]
      exact Nat.zero_le _
  have hspan : forall s k, (span f s k).length ≤ (span g s k).length := by
    intro s k
    induction k with
    | zero =>
        exact Nat.le_refl _
    | succ k ih =>
        rw [span_add, span_add, List.length_append, List.length_append, span_one, span_one]
        exact Nat.add_le_add ih (hle (s + k))
  constructor
  · intro heq
    induction k with
    | zero =>
        intro i hs hi
        exact absurd hi (Nat.not_lt_of_le hs)
    | succ k ih =>
        have hlength := congrArg List.length heq
        rw [span_add, span_add, List.length_append, List.length_append, span_one,
          span_one] at hlength
        have hfront := hspan s k
        have hlast := hle (s + k)
        rw [span_add, span_add, span_one, span_one] at heq
        have hparts := List.append_inj heq (by omega)
        intro i hs hi
        by_cases hik : i = s + k
        · rw [hik]
          exact hparts.2
        · exact ih hparts.1 i hs (by omega)
  · intro hall
    exact span_congr hall

theorem text_drop (l : Seg) (s : Nat) :
    text (l.drop s) = span (wordAt l) s (l.length - s) := by
  have hwords : (l.drop s).map Prod.fst =
      (List.range' s (l.length - s)).map (wordAt l) := by
    refine List.ext_getElem (by simp) fun i hi _ => ?_
    rw [List.length_map, List.length_drop] at hi
    rw [List.getElem_map, List.getElem_map, List.getElem_drop, List.getElem_range',
      Nat.one_mul, wordAt_of_lt (by omega)]
  unfold text span
  rw [hwords]

theorem text_eq_span (l : Seg) : text l = span (wordAt l) 0 l.length := by
  have hdrop := text_drop l 0
  rw [List.drop_zero, Nat.sub_zero] at hdrop
  exact hdrop

theorem additions_eq_span (l : Seg) (m : Nat) : additions l m = span (addition l) 0 m := by
  unfold additions span
  rw [List.range_eq_range']

theorem addition_of_not_between {i : Nat} (h : ¬ VerbBetween l i) :
    addition l i = if VerbRepeated l i then [] else wordAt l i := by
  unfold addition
  rw [if_neg h]

/-- What is kept is all there is when only empty words are left out. -/
theorem keptFrom_eq_iff (l : Seg) {s : Nat} (hs : s ≤ l.length) :
    keptFrom l s = text (l.drop s) ↔
      forall i, s ≤ i -> i < l.length -> VerbRepeated l i -> wordAt l i = [] := by
  have heither : forall i, (if VerbRepeated l i then [] else wordAt l i) = wordAt l i ∨
      (if VerbRepeated l i then [] else wordAt l i) = [] := by
    intro i
    split
    · exact Or.inr rfl
    · exact Or.inl rfl
  have hiff := span_eq_iff heither s (l.length - s)
  rw [Nat.add_sub_cancel' hs] at hiff
  rw [text_drop]
  refine hiff.trans ?_
  constructor
  · intro h i hsi hi hrepeated
    have hsame := h i hsi hi
    rw [if_pos hrepeated] at hsame
    exact hsame.symm
  · intro h i hsi hi
    split
    · rename_i hrepeated
      exact (h i hsi hi hrepeated).symm
    · rfl

/-- Without a completed verb the words that are left out are missing. -/
theorem additions_of_none (h : forall i, ¬ VerbBetween l i) :
    additions l l.length = text l ↔
      forall i, i < l.length -> VerbRepeated l i -> wordAt l i = [] := by
  have hkept : additions l l.length = keptFrom l 0 := by
    rw [additions_eq_span]
    exact span_congr fun i _ _ => addition_of_not_between (h i)
  have hiff := keptFrom_eq_iff l (Nat.zero_le l.length)
  rw [List.drop_zero] at hiff
  rw [hkept, hiff]
  constructor
  · intro hall i
    exact hall i (Nat.zero_le i)
  · intro hall i _
    exact hall i

theorem between_unique (h : InOrder l l.length) {i j : Nat} (hi : VerbBetween l i)
    (hj : VerbBetween l j) : i = j := by
  have hilt : i < l.length := Nat.lt_of_succ_lt hi.2.2.1
  have hjlt : j < l.length := Nat.lt_of_succ_lt hj.2.2.1
  rcases Nat.lt_trichotomy i j with hlt | heq | hlt
  · exact absurd (Or.inl hi) (h j hjlt hj i hlt)
  · exact heq
  · exact absurd (Or.inl hj) (h i hilt hi j hlt)

/-- With a completed verb the text depends on what comes behind it. -/
theorem additions_of_between (h : InOrder l l.length) {i : Nat} (hi : VerbBetween l i) :
    additions l l.length = text l ↔
      (if VerbRepeated l (i + 1) then [] else wordAt l (i + 1)) ++ keptFrom l (i + 2) =
        text (l.drop (i + 2)) := by
  have hlt : i + 1 < l.length := hi.2.2.1
  have hlength : l.length = i + (1 + (1 + (l.length - (i + 2)))) := by
    omega
  have hfront : span (addition l) 0 i = span (wordAt l) 0 i := by
    refine span_congr fun j _ hj => ?_
    rw [Nat.zero_add] at hj
    have hnone := h i (Nat.lt_of_succ_lt hlt) hi j hj
    rw [addition_of_not_between fun hyes => hnone (Or.inl hyes),
      if_neg fun hyes => hnone (Or.inr hyes)]
  have hverb : addition l i = wordAt l i ++ wordAt l (i + 1) := by
    unfold addition
    rw [if_pos hi, hi.2.2.2.1]
  have hother : forall j, j ≠ i -> ¬ VerbBetween l j := fun j hj hyes =>
    hj (between_unique h hyes hi)
  have hrear : span (addition l) (i + 2) (l.length - (i + 2)) = keptFrom l (i + 2) :=
    span_congr fun j hj _ => addition_of_not_between (hother j (by omega))
  rw [additions_eq_span, text_eq_span, text_drop]
  conv_lhs =>
    rw [hlength]
  rw [span_add, span_add, span_add, span_add, span_add, span_add, span_one, span_one,
    span_one, span_one, Nat.zero_add, hfront, hverb,
    addition_of_not_between (hother (i + 1) (by omega)), hrear, List.append_assoc,
    List.append_right_inj, List.append_right_inj, List.append_right_inj]

/-- What `balance_iff` says when no verb is completed. -/
theorem balance_of_none (hnone : forall i, ¬ VerbBetween l i) :
    additions l l.length = text l ↔
      (forall i, ¬ Doubled l i ∧ ¬ Dropped l i) ∨
        exists i, Doubled l i ∧
          wordAt l (i - 1) ++ keptFrom l (i + 2) = text (l.drop (i + 2)) := by
  rw [additions_of_none hnone]
  constructor
  · intro hempty
    left
    intro i
    constructor
    · intro hdoubled
      exact hnone i hdoubled.1
    · rintro ⟨hi, hrepeated, -, -, hne⟩
      exact hne (hempty i hi hrepeated)
  · rintro (hclean | ⟨i, hdoubled, -⟩) j hj hrepeated
    · by_contra hne
      exact (hclean j).2 ⟨hj, hrepeated, hnone j, hnone (j - 1), hne⟩
    · exact absurd hdoubled.1 (hnone i)

/-- What it says when the one verb that is completed is left out behind 一. -/
theorem balance_of_repeated (h : InOrder l l.length) {i : Nat} (hi : VerbBetween l i)
    (hrepeated : VerbRepeated l (i + 1)) :
    keptFrom l (i + 2) = text (l.drop (i + 2)) ↔
      (forall i, ¬ Doubled l i ∧ ¬ Dropped l i) ∨
        exists i, Doubled l i ∧
          wordAt l (i - 1) ++ keptFrom l (i + 2) = text (l.drop (i + 2)) := by
  have hlt : i + 1 < l.length := hi.2.2.1
  have hunique : forall j, VerbBetween l j -> j = i := fun j hj => between_unique h hj hi
  have hsingle : forall j, ¬ Doubled l j := by
    intro j hdoubled
    rw [hunique j hdoubled.1] at hdoubled
    exact hdoubled.2 hrepeated
  rw [keptFrom_eq_iff l hlt]
  constructor
  · intro hempty
    left
    intro j
    constructor
    · exact hsingle j
    · rintro ⟨hj, hrep, hbetween, hbefore, hne⟩
      by_cases hji : j < i
      · exact h i (Nat.lt_of_succ_lt hlt) hi j hji (Or.inr hrep)
      · have hji' : j ≠ i := by
          rintro rfl
          exact hbetween hi
        have hjnext : j ≠ i + 1 := by
          rintro rfl
          exact hbefore hi
        exact hne (hempty j (by omega) hj hrep)
  · rintro (hclean | ⟨j, hdoubled, -⟩) k hk hklt hrep
    · by_contra hne
      refine (hclean k).2 ⟨hklt, hrep, ?_, ?_, hne⟩
      · intro hyes
        have := hunique k hyes
        omega
      · intro hyes
        have := hunique (k - 1) hyes
        omega
    · exact absurd hdoubled (hsingle j)

theorem balance_iff (h : InOrder l l.length) :
    additions l l.length = text l ↔
      (forall i, ¬ Doubled l i ∧ ¬ Dropped l i) ∨
        exists i, Doubled l i ∧
          wordAt l (i - 1) ++ keptFrom l (i + 2) = text (l.drop (i + 2)) := by
  by_cases hnone : forall i, ¬ VerbBetween l i
  · exact balance_of_none hnone
  · obtain ⟨i, hi⟩ := not_forall_not.mp hnone
    rw [additions_of_between h hi]
    by_cases hrepeated : VerbRepeated l (i + 1)
    · rw [if_pos hrepeated, List.nil_append]
      exact balance_of_repeated h hi hrepeated
    · rw [if_neg hrepeated, ← hi.2.2.2.1]
      constructor
      · intro heq
        exact Or.inr ⟨i, ⟨hi, hrepeated⟩, heq⟩
      · rintro (hclean | ⟨j, hdoubled, heq⟩)
        · exact absurd ⟨hi, hrepeated⟩ (hclean i).1
        · rw [between_unique h hdoubled.1 hi] at heq
          exact heq

end Balance

/--
`Mergeyi` stays in range and keeps the text, whatever the tags are, exactly for the
balanced segmentations.
-/
theorem Mergeyi_keeps_text_iff (l : Seg) :
    (exists out, Mergeyi l = Except.ok out ∧ text out = text l) ↔ YiBalanced l := by
  rw [Mergeyi_text_iff]
  constructor
  · rintro ⟨hinOrder, htext⟩
    exact ⟨hinOrder, (balance_iff hinOrder).mp htext⟩
  · intro hbalanced
    exact ⟨hbalanced.inOrder, (balance_iff hbalanced.inOrder).mpr hbalanced.balance⟩

/--
With 看一看 and 想一想 in one sentence the second verb comes too late, and with tags
that differ the second 看 is lost or written twice.
-/
theorem Mergeyi_verbs :
    Mergeyi [(str "看", str "v"), (str "一", str "m"), (str "看", str "v"),
        (str "想", str "v"), (str "一", str "m"), (str "想", str "v")] =
      Except.error (Error.access Container.result_temp) ∧
    Mergeyi [(str "看", str "n"), (str "一", str "m"), (str "看", str "v")] =
      Except.ok [(str "看", str "n"), (str "一", str "m")] ∧
    Mergeyi [(str "看", str "v"), (str "一", str "m"), (str "看", str "n")] =
      Except.ok [(str "看一看", str "v"), (str "看", str "n")] := by
  decide

end FrontEngineInterface
end VoiceTts
