import Mathlib.Data.List.GetD
import VoiceTts.Front.Merge
import VoiceTts.Lib.Blocks

/-!
# The passes as joins of neighbours

Each pass of `MergeforModify` cuts its input into blocks of neighbours and makes
one word of each block.  This module says which blocks those are, pass by pass;
all results about the passes are drawn from it.
-/

namespace VoiceTts
namespace FrontEngineInterface

open Blocks

def text (b : Seg) : CString :=
  (b.map Prod.fst).flatten

/-- A block as one word, with the tag of its first word. -/
def firstToken (b : Seg) : CString × CString :=
  (text b, (b.head?.map Prod.snd).getD [])

/-- A block as one word, with the tag of its last word. -/
def lastToken (b : Seg) : CString × CString :=
  (text b, (b.getLast?.map Prod.snd).getD [])

@[simp] theorem text_nil : text [] = [] := rfl

@[simp] theorem text_cons (t : CString × CString) (b : Seg) :
    text (t :: b) = t.1 ++ text b := by
  simp [text]

@[simp] theorem text_append (b c : Seg) : text (b ++ c) = text b ++ text c := by
  simp [text]

@[simp] theorem firstToken_fst (b : Seg) : (firstToken b).1 = text b := rfl

@[simp] theorem lastToken_fst (b : Seg) : (lastToken b).1 = text b := rfl

@[simp] theorem firstToken_singleton (t : CString × CString) :
    firstToken [t] = t := by
  simp [firstToken]

@[simp] theorem lastToken_singleton (t : CString × CString) :
    lastToken [t] = t := by
  simp [lastToken]

theorem firstToken_concat {b : Seg} (hb : b ≠ []) (t : CString × CString) :
    firstToken (b ++ [t]) = (text b ++ t.1, (firstToken b).2) := by
  cases b with
  | nil =>
      exact absurd rfl hb
  | cons u b =>
      simp [firstToken]

theorem lastToken_concat (b : Seg) (t : CString × CString) :
    lastToken (b ++ [t]) = (text b ++ t.1, t.2) := by
  simp [lastToken]

theorem text_flatten (bs : List Seg) : text bs.flatten = (bs.map text).flatten := by
  induction bs with
  | nil =>
      rfl
  | cons b bs ih =>
      rw [List.flatten_cons, text_append, ih, List.map_cons, List.flatten_cons]

def wordAt (l : Seg) (i : Nat) : CString :=
  (l.getD i ([], [])).1

def tagAt (l : Seg) (i : Nat) : CString :=
  (l.getD i ([], [])).2

section Position

variable {l : Seg} {i : Nat}

theorem wordAt_of_lt (hi : i < l.length) : wordAt l i = l[i].1 := by
  unfold wordAt
  rw [List.getD_eq_getElem l _ hi]

theorem tagAt_of_lt (hi : i < l.length) : tagAt l i = l[i].2 := by
  unfold tagAt
  rw [List.getD_eq_getElem l _ hi]

end Position

/-!
## `MergeBu`
-/

def buJoin (cur : Seg) (_ : CString × CString) : Bool :=
  decide (text cur = str "不")

def buBlocks (l : Seg) : List Seg :=
  blocks buJoin l

/-- What `MergeBu` makes of a block; a 不 that is left over gets the tag `d`. -/
def buToken (b : Seg) : CString × CString :=
  if text b = str "不" then (str "不", str "d") else lastToken b

@[simp] theorem buToken_fst (b : Seg) : (buToken b).1 = text b := by
  unfold buToken
  split
  · rename_i h
    exact h.symm
  · rfl

/-- Only the last block can be a 不 that is left over. -/
theorem mergeBu_loop (l : Seg) :
    (l = [] ∧ l.foldl mergeBuStep ([], []) = ([], [])) ∨
      exists pre cur, buBlocks l = pre ++ [cur] ∧
        (forall b, b ∈ pre -> text b ≠ str "不") ∧
        l.foldl mergeBuStep ([], []) =
          (text cur, pre.map lastToken ++
            if text cur = str "不" then [] else [lastToken cur]) := by
  induction l using List.reverseRecOn with
  | nil =>
      exact Or.inl ⟨rfl, rfl⟩
  | append_singleton l a ih =>
      right
      have hblocks : buBlocks (l ++ [a]) = addItem buJoin (buBlocks l) a :=
        blocks_concat buJoin l a
      rw [List.foldl_append]
      rcases ih with ⟨rfl, -⟩ | ⟨pre, cur, hbs, hpre, hfold⟩
      · refine ⟨[], [a], rfl, by simp, ?_⟩
        have hnil : ([] : CString) ≠ str "不" := by decide
        by_cases ha : a.1 = str "不"
        · simp [mergeBuStep, ha]
        · simp [mergeBuStep, ha, hnil]
      · rw [hbs, addItem_concat] at hblocks
        rw [hfold]
        by_cases hcur : text cur = str "不"
        · refine ⟨pre, cur ++ [a], by simpa [buJoin, hcur] using hblocks, hpre, ?_⟩
          by_cases ha : text (cur ++ [a]) = str "不"
          · have ha' : str "不" ++ a.1 = str "不" := by simpa [hcur] using ha
            simp [mergeBuStep, hcur, ha']
          · have ha' : ¬ str "不" ++ a.1 = str "不" := by simpa [hcur] using ha
            have ha'' : ¬ a.1 = [] := by simpa using ha'
            simp [mergeBuStep, hcur, ha'', lastToken_concat]
        · refine ⟨pre ++ [cur], [a], by simpa [buJoin, hcur] using hblocks, ?_, ?_⟩
          · intro b hb
            rcases List.mem_append.mp hb with hb | hb
            · exact hpre b hb
            · rw [List.mem_singleton.mp hb]
              exact hcur
          · by_cases ha : a.1 = str "不"
            · simp [mergeBuStep, hcur, ha]
            · simp [mergeBuStep, hcur, ha]

theorem MergeBu_eq (l : Seg) : MergeBu l = (buBlocks l).map buToken := by
  unfold MergeBu
  rcases mergeBu_loop l with ⟨rfl, hfold⟩ | ⟨pre, cur, hbs, hpre, hfold⟩
  · rw [hfold]
    decide
  · rw [hfold, hbs, List.map_append]
    have hmap : pre.map buToken = pre.map lastToken := by
      apply List.map_congr_left
      intro b hb
      simp [buToken, hpre b hb]
    rw [hmap]
    by_cases hcur : text cur = str "不"
    · simp [hcur, buToken]
    · simp [hcur, buToken]

/-!
## `Mergeyi` and `MergeReduplication`
-/

theorem foldl_joinOrPush (join : CString × CString -> CString × CString -> Bool)
    (l : Seg) :
    l.foldl (joinOrPush join) [] =
      (blocks (fun cur t => join (firstToken cur) t) l).map firstToken := by
  induction l using List.reverseRecOn with
  | nil =>
      rfl
  | append_singleton l a ih =>
      rw [List.foldl_append, ih, blocks_concat]
      rcases addItem_cases _ (blocks (fun cur t => join (firstToken cur) t) l) a with
        ⟨hbs, h⟩ | ⟨pre, cur, hbs, hjoin, h⟩ | ⟨pre, cur, hbs, hjoin, h⟩
      · rw [h, hbs]
        simp [joinOrPush]
      · have hmem : cur ∈ blocks (fun cur t => join (firstToken cur) t) l := by
          simp [hbs]
        have hcur := ne_nil_of_mem_blocks hmem
        rw [h, hbs]
        simp [joinOrPush, hjoin, firstToken_concat hcur]
      · rw [h, hbs]
        simp [joinOrPush, hjoin]

def yiJoin (cur : Seg) (_ : CString × CString) : Bool :=
  decide (text cur = str "一")

def yiBlocks (l : Seg) : List Seg :=
  blocks yiJoin l

def redupJoin (cur : Seg) (t : CString × CString) : Bool :=
  decide (t.1 = text cur)

def redupBlocks (l : Seg) : List Seg :=
  blocks redupJoin l

theorem MergeReduplication_eq (l : Seg) :
    MergeReduplication l = (redupBlocks l).map firstToken :=
  foldl_joinOrPush _ l

/-- No word is tagged as a verb, so that the first loop of `Mergeyi` copies. -/
def NoVerb (l : Seg) : Prop :=
  forall t, t ∈ l -> t.2 ≠ str "v"

theorem yiBetween_noVerb {l : Seg} (h : NoVerb l) (word : CString) (i : Nat) :
    yiBetween l word i = Except.ok false := by
  unfold yiBetween
  split
  · rename_i hi
    have hp : l[i - 1] ∈ l := List.getElem_mem (by omega)
    rw [elementAt_of_lt _ l (show i - 1 < l.length by omega),
      elementAt_of_lt _ l hi.2.2]
    simp [bind, Except.bind, pure, Except.pure, h _ hp]
  · rfl

theorem yiRepeated_noVerb {l : Seg} (h : NoVerb l) {i : Nat} (hi : i < l.length) :
    yiRepeated l l[i] i = Except.ok false := by
  unfold yiRepeated
  split
  · have ht : l[i] ∈ l := List.getElem_mem hi
    rw [elementAt_of_lt _ l (show i - 1 < l.length by omega),
      elementAt_of_lt _ l (show i - 2 < l.length by omega)]
    simp [bind, Except.bind, pure, Except.pure, h _ ht]
  · rfl

theorem mergeyiStep_noVerb {l : Seg} (h : NoVerb l) {i : Nat} (hi : i < l.length) :
    mergeyiStep l (l.take i) i = Except.ok (l.take (i + 1)) := by
  unfold mergeyiStep
  rw [elementAt_of_lt _ l hi, List.take_add_one]
  simp [bind, Except.bind, yiBetween_noVerb h, yiRepeated_noVerb h hi, pure,
    Except.pure, hi]

theorem Mergeyi_eq {l : Seg} (h : NoVerb l) :
    Mergeyi l = Except.ok ((yiBlocks l).map firstToken) := by
  have hloop : Yields (fun r => r = l) (fun _ : Error => False)
      ((List.range l.length).foldlM (mergeyiStep l) []) := by
    have hrange := Yields.foldlM_range (E := fun _ : Error => False)
      (mergeyiStep l) [] (fun i r => r = l.take i) l.length (by simp) (by
        intro i r hi hr
        subst hr
        rw [mergeyiStep_noVerb h hi]
        exact rfl)
    simpa using hrange
  rcases hloop.exists_ok with ⟨r, hr, rfl⟩
  unfold Mergeyi
  rw [hr]
  have hfold := foldl_joinOrPush (fun b _ => decide (b.1 = str "一")) r
  exact congrArg Except.ok hfold

/-!
## `MergeEr`
-/

def erJoin (_ : Seg) (t : CString × CString) : Bool :=
  decide (t.1 = str "儿")

def erBlocks (l : Seg) : List Seg :=
  blocks erJoin l

theorem take_add_one_eq {α : Type} (l : List α) {i : Nat} (hi : i < l.length) :
    l.take (i + 1) = l.take i ++ [l[i]] := by
  rw [List.take_add_one, List.getElem?_eq_getElem hi]
  rfl

theorem mergeErStep_eq {l : Seg} {i : Nat} (hi : i < l.length) :
    mergeErStep l ((erBlocks (l.take i)).map firstToken) i =
      Except.ok ((erBlocks (l.take (i + 1))).map firstToken) := by
  have hblocks : erBlocks (l.take (i + 1)) =
      addItem erJoin (erBlocks (l.take i)) l[i] := by
    rw [take_add_one_eq l hi]
    exact blocks_concat erJoin _ _
  unfold mergeErStep
  rw [elementAt_of_lt _ l hi, hblocks]
  rcases List.eq_nil_or_concat (erBlocks (l.take i)) with hbs | ⟨pre, cur, hbs⟩
  · have hi0 : i = 0 := by
      have hnil := blocks_eq_nil.mp hbs
      have hlen := congrArg List.length hnil
      simp only [List.length_take, List.length_nil] at hlen
      omega
    rw [hbs, addItem_nil]
    simp [hi0, bind, Except.bind, pure, Except.pure]
  · rw [List.concat_eq_append] at hbs
    have hi0 : 1 ≤ i := by
      by_contra hlt
      have hi0 : i = 0 := by omega
      rw [hi0] at hbs
      simp [erBlocks] at hbs
    have hmem : cur ∈ erBlocks (l.take i) := by
      simp [hbs]
    have hcur := ne_nil_of_mem_blocks hmem
    rw [hbs, addItem_concat]
    by_cases her : l[i].1 = str "儿"
    · simp [erJoin, hi0, her, bind, Except.bind, pure, Except.pure, back_concat,
        firstToken_concat hcur]
    · simp [erJoin, her, bind, Except.bind, pure, Except.pure]

theorem MergeEr_eq (l : Seg) :
    MergeEr l = Except.ok ((erBlocks l).map firstToken) := by
  have hloop := Yields.foldlM_range (E := fun _ : Error => False)
    (mergeErStep l) [] (fun i r => r = (erBlocks (l.take i)).map firstToken) l.length (by rfl) (by
      intro i r hi hr
      subst hr
      rw [mergeErStep_eq hi]
      exact rfl)
  rcases hloop.exists_ok with ⟨r, hr, rfl⟩
  unfold MergeEr
  rw [hr, List.take_length]

/-!
## `MergeThreeTones` and `MergeThreeTones2`

The two passes work on words with their finals.  A word joins the one before it
when that one has not itself been joined, so that a block has at most two words.
-/

section ThreeTones

variable (tones : List CString -> List CString -> Except Error Bool)

def threeJoin (cur : List ((CString × CString) × List CString))
    (a : (CString × CString) × List CString) : Bool :=
  match cur with
  | [p] =>
      decide (a.1.2 = str "x" ∧ a.1.1 ≠ str " " ∧
        tones p.2 a.2 = Except.ok true ∧ fitsThree p.1.1 a.1.1 = Except.ok true)
  | _ => false

def itemToken (b : List ((CString × CString) × List CString)) :
    CString × CString :=
  firstToken (b.map Prod.fst)

/-- Everything but a punctuation mark at the end. -/
def body (l : Seg) : Seg :=
  match l.getLast? with
  | some last => if last.1 ∈ _punc then l.dropLast else l
  | none => l

def held (l : Seg) : Seg :=
  match l.getLast? with
  | some last => if last.1 ∈ _punc then [last] else []
  | none => []

def threeBlocks (l : Seg) (finals : List (List CString)) : List Seg :=
  (blocks (threeJoin tones) ((body l).zip finals)).map (List.map Prod.fst) ++
    (held l).map fun t => [t]

/-- The state of the second loop after `i` rounds. -/
structure ThreeState (l : Seg) (finals : List (List CString)) (i : Nat)
    (acc : Seg × List Bool) : Prop where
  result : acc.1 =
    (blocks (threeJoin tones) ((l.zip finals).take i)).map itemToken
  length : acc.2.length = l.length
  last : forall pre cur,
    blocks (threeJoin tones) ((l.zip finals).take i) = pre ++ [cur] ->
      acc.2[i - 1]? = some (decide (cur.length ≠ 1))
  rest : forall k, i ≤ k -> k < l.length -> acc.2[k]? = some false

variable {tones} {E : Error -> Prop}

theorem threeJoin_of_length_ne_one {cur : List ((CString × CString) × List CString)}
    (h : cur.length ≠ 1) (a : (CString × CString) × List CString) :
    threeJoin tones cur a = false := by
  match cur with
  | [] =>
      rfl
  | [p] =>
      exact absurd rfl h
  | _ :: _ :: _ =>
      rfl

theorem joinsThree_spec {l : Seg} {finals : List (List CString)} {merge_last : List Bool}
    {i : Nat} {merged : Bool} (hi : 1 ≤ i) (hl : i < l.length) (hf : i < finals.length)
    (hmerged : merge_last[i - 1]? = some merged)
    (htones : Yields (fun _ => True) E (tones finals[i - 1] finals[i]))
    (hfits : Yields (fun _ => True) E (fitsThree l[i - 1].1 l[i].1)) :
    Yields (fun joins => joins = true ↔
        (l[i].2 = str "x" ∧ l[i].1 ≠ str " ") ∧ merged = false ∧
          tones finals[i - 1] finals[i] = Except.ok true ∧
          fitsThree l[i - 1].1 l[i].1 = Except.ok true) E
      (joinsThree tones l finals merge_last l[i] i) := by
  have hprev : i - 1 < i := Nat.sub_lt hi Nat.one_pos
  have hrecord : elementAt Container.merge_last merge_last (i - 1) = Except.ok merged := by
    simp [elementAt, hmerged]
  unfold joinsThree
  by_cases hx : l[i].2 = str "x" ∧ l[i].1 ≠ str " "
  · rw [if_pos ⟨hx.1, hx.2, hi⟩, elementAt_of_lt _ finals (hprev.trans hf), ok_bind,
      elementAt_of_lt _ finals hf, ok_bind, hrecord, elementAt_of_lt _ l (hprev.trans hl)]
    cases hthree : tones finals[i - 1] finals[i] with
    | error e =>
        rw [hthree] at htones
        exact htones
    | ok three =>
        rw [ok_bind, ok_bind, ok_bind]
        split
        · rename_i hgo
          rw [Bool.and_eq_true, Bool.not_eq_true'] at hgo
          refine hfits.mono_eq ?_
          intro fits hfit
          simp [hx, hgo, hfit]
        · rename_i hstop
          change false = true ↔ _
          rw [Bool.and_eq_true, Bool.not_eq_true'] at hstop
          simp only [Bool.false_eq_true, false_iff, Except.ok.injEq]
          intro hall
          exact hstop ⟨hall.2.2.1, hall.2.1⟩
  · rw [if_neg fun hall => hx ⟨hall.1, hall.2.1⟩]
    change false = true ↔ _
    simp only [Bool.false_eq_true, false_iff]
    intro hall
    exact hx hall.1

theorem joinsThree_yields {l : Seg} {finals : List (List CString)}
    {merge_last : List Bool} {i : Nat} {cur : List ((CString × CString) × List CString)}
    (hi : 1 ≤ i) (hlen : i < (l.zip finals).length)
    (hcur : cur.getLast? = some (l.zip finals)[i - 1])
    (hmerged : merge_last[i - 1]? = some (decide (cur.length ≠ 1)))
    (htones : forall f g, f ∈ finals -> g ∈ finals ->
      Yields (fun _ => True) E (tones f g))
    (hfits : forall p t, p ∈ l -> t ∈ l ->
      Yields (fun _ => True) E (fitsThree p.1 t.1)) :
    Yields (fun joins => joins = threeJoin tones cur (l.zip finals)[i]) E
      (joinsThree tones l finals merge_last (l.zip finals)[i].1 i) := by
  have hl : i < l.length := by
    rw [List.length_zip] at hlen
    omega
  have hf : i < finals.length := by
    rw [List.length_zip] at hlen
    omega
  have hitem : (l.zip finals)[i] = (l[i], finals[i]) := by
    simp
  have hprev : (l.zip finals)[i - 1] = (l[i - 1], finals[i - 1]) := by
    simp
  rw [hprev] at hcur
  rw [hitem]
  refine (joinsThree_spec hi hl hf hmerged
    (htones _ _ (List.getElem_mem _) (List.getElem_mem _))
    (hfits _ _ (List.getElem_mem _) (List.getElem_mem _))).mono ?_ fun _ he => he
  intro joins hjoins
  rw [Bool.eq_iff_iff, hjoins]
  by_cases hone : cur.length = 1
  · rcases List.length_eq_one_iff.mp hone with ⟨p, rfl⟩
    have hp : p = (l[i - 1], finals[i - 1]) := by simpa using hcur
    rw [hp]
    simp [threeJoin, and_assoc]
  · rw [threeJoin_of_length_ne_one hone]
    simp [hone]

theorem threeState_init (l : Seg) (finals : List (List CString)) :
    ThreeState tones l finals 0 ([], List.replicate l.length false) where
  result := by simp
  length := by simp
  last := by
    intro pre cur h
    simp at h
  rest := by
    intro k _ hk
    simp [hk]

theorem ThreeState.push {l : Seg} {finals : List (List CString)} {i : Nat}
    {acc : Seg × List Bool} (h : ThreeState tones l finals i acc)
    (hlen : i < (l.zip finals).length) {bs : List (List _)}
    (hbs : blocks (threeJoin tones) ((l.zip finals).take i) = bs)
    (hadd : blocks (threeJoin tones) ((l.zip finals).take (i + 1)) =
      bs ++ [[(l.zip finals)[i]]]) :
    ThreeState tones l finals (i + 1) (acc.1 ++ [(l.zip finals)[i].1], acc.2) where
  result := by
    rw [hadd, List.map_append, h.result, hbs]
    simp [itemToken]
  length := h.length
  last := by
    intro pre cur hlast
    rw [hadd] at hlast
    have hcur := (List.append_inj' hlast rfl).2
    rw [List.singleton_inj] at hcur
    have hl : i < l.length := by
      rw [List.length_zip] at hlen
      omega
    rw [← hcur, Nat.add_sub_cancel]
    simpa using h.rest i le_rfl hl
  rest := fun k hk hkl => h.rest k (by omega) hkl

theorem ThreeState.join {l : Seg} {finals : List (List CString)} {i : Nat}
    {acc : Seg × List Bool} (h : ThreeState tones l finals i acc)
    (hlen : i < (l.zip finals).length) {pre : List (List _)} {cur : List _}
    (hcur : cur ≠ [])
    (hbs : blocks (threeJoin tones) ((l.zip finals).take i) = pre ++ [cur])
    (hadd : blocks (threeJoin tones) ((l.zip finals).take (i + 1)) =
      pre ++ [cur ++ [(l.zip finals)[i]]]) :
    ThreeState tones l finals (i + 1)
      (acc.1.dropLast ++ [((itemToken cur).1 ++ (l.zip finals)[i].1.1,
        (itemToken cur).2)], acc.2.set i true) where
  result := by
    have hne : cur.map Prod.fst ≠ [] := by simpa using hcur
    rw [hadd, h.result, hbs]
    simp [itemToken, firstToken_concat hne]
  length := by simpa using h.length
  last := by
    intro pre' cur' hlast
    rw [hadd] at hlast
    have hcur' := (List.append_inj' hlast rfl).2
    rw [List.singleton_inj] at hcur'
    have hl : i < acc.2.length := by
      rw [List.length_zip] at hlen
      have hacc := h.length
      omega
    have hpos : cur.length ≠ 0 := by simpa using hcur
    rw [← hcur', Nat.add_sub_cancel]
    simp [hl, hpos]
  rest := by
    intro k hk hkl
    have hne : i ≠ k := by omega
    simpa [List.getElem?_set, hne] using h.rest k (by omega) hkl

theorem threeStep_yields {l : Seg} {finals : List (List CString)} {i : Nat}
    {acc : Seg × List Bool} (hlen : i < (l.zip finals).length)
    (h : ThreeState tones l finals i acc)
    (htones : forall f g, f ∈ finals -> g ∈ finals ->
      Yields (fun _ => True) E (tones f g))
    (hfits : forall p t, p ∈ l -> t ∈ l ->
      Yields (fun _ => True) E (fitsThree p.1 t.1)) :
    Yields (ThreeState tones l finals (i + 1)) E
      (threeStep tones l finals acc i) := by
  have hl : i < l.length := by
    rw [List.length_zip] at hlen
    omega
  have hitem : (l.zip finals)[i].1 = l[i] := by
    simp
  have hadd : blocks (threeJoin tones) ((l.zip finals).take (i + 1)) =
      addItem (threeJoin tones)
        (blocks (threeJoin tones) ((l.zip finals).take i)) (l.zip finals)[i] := by
    rw [take_add_one_eq _ hlen, blocks_concat]
  unfold threeStep
  rw [elementAt_of_lt _ l hl]
  rcases List.eq_nil_or_concat
    (blocks (threeJoin tones) ((l.zip finals).take i)) with hbs | ⟨pre, cur, hbs⟩
  · have hi0 : i = 0 := by
      have hnil := congrArg List.length (blocks_eq_nil.mp hbs)
      rw [List.length_take, List.length_nil] at hnil
      omega
    rw [hbs, addItem_nil] at hadd
    have hpush := h.push hlen hbs (by simpa using hadd)
    rw [hitem] at hpush
    have hjoins : joinsThree tones l finals acc.2 l[i] i = Except.ok false := by
      simp [joinsThree, hi0, pure, Except.pure]
    simpa [bind, Except.bind, pure, Except.pure, hjoins, Yields] using hpush
  · rw [List.concat_eq_append] at hbs
    have hmem : cur ∈ blocks (threeJoin tones) ((l.zip finals).take i) := by
      simp [hbs]
    have hcur := ne_nil_of_mem_blocks hmem
    have hi1 : 1 ≤ i := by
      by_contra hlt
      have hi0 : i = 0 := by omega
      rw [hi0] at hbs
      simp at hbs
    have hlast : cur.getLast? = some (l.zip finals)[i - 1] := by
      have hflat := flatten_blocks (threeJoin tones) ((l.zip finals).take i)
      have hget := congrArg List.getLast? hflat
      rw [hbs, List.flatten_append, List.flatten_singleton,
        List.getLast?_append_of_ne_nil _ hcur] at hget
      rw [hget, List.getLast?_take, if_neg (by omega),
        List.getElem?_eq_getElem (show i - 1 < (l.zip finals).length by omega)]
      rfl
    have hyields := joinsThree_yields hi1 hlen hlast (h.last pre cur hbs) htones hfits
    rw [hitem] at hyields
    rw [hbs, addItem_concat] at hadd
    refine Yields.bind (P := fun t => t = l[i]) rfl ?_
    rintro _ rfl
    refine Yields.bind hyields ?_
    rintro joins rfl
    cases hjoin : threeJoin tones cur (l.zip finals)[i] with
    | false =>
        rw [hjoin] at hadd
        have hpush := h.push hlen hbs (by simpa using hadd)
        rw [hitem] at hpush
        simpa [Yields, pure, Except.pure] using hpush
    | true =>
        rw [hjoin] at hadd
        have hstate := h.join hlen hcur hbs (by simpa using hadd)
        rw [hitem] at hstate
        have hback : back Container.result acc.1 = Except.ok (itemToken cur) := by
          rw [h.result, hbs, List.map_append]
          exact back_concat _ _ _
        simpa [Yields, bind, Except.bind, pure, Except.pure, hback] using hstate

theorem threeLoop_yields {l : Seg} {finals : List (List CString)}
    (hlen : finals.length ≤ l.length)
    (htones : forall f g, f ∈ finals -> g ∈ finals ->
      Yields (fun _ => True) E (tones f g))
    (hfits : forall p t, p ∈ l -> t ∈ l ->
      Yields (fun _ => True) E (fitsThree p.1 t.1)) :
    Yields
      (fun r => r.1 = (blocks (threeJoin tones) (l.zip finals)).map itemToken) E
      ((List.range finals.length).foldlM (threeStep tones l finals)
        ([], List.replicate l.length false)) := by
  have hzip : (l.zip finals).length = finals.length := by
    rw [List.length_zip]
    omega
  have hloop := Yields.foldlM_range (threeStep tones l finals) _
    (ThreeState tones l finals) finals.length (threeState_init l finals)
    (fun i acc hi h => threeStep_yields (hzip ▸ hi) h htones hfits)
  refine hloop.mono ?_ fun _ he => he
  intro r hr
  rw [hr.result, ← hzip, List.take_length]

theorem body_append_held (l : Seg) : body l ++ held l = l := by
  unfold body held
  cases hlast : l.getLast? with
  | none =>
      simp
  | some last =>
      have hl : l.dropLast ++ [last] = l :=
        List.dropLast_append_getLast? last hlast
      by_cases hpunc : last.1 ∈ _punc
      · simpa [hpunc] using hl
      · simp [hpunc]

theorem length_body_le (l : Seg) : (body l).length ≤ l.length := by
  have happ := congrArg List.length (body_append_held l)
  rw [List.length_append] at happ
  omega

theorem take_length_body (l : Seg) : l.take (body l).length = body l := by
  have htake : (body l ++ held l).take (body l).length = body l := List.take_left
  rw [body_append_held] at htake
  exact htake

theorem body_concat (l : Seg) (last : CString × CString) :
    body (l ++ [last]) = if last.1 ∈ _punc then l else l ++ [last] := by
  simp [body]

theorem held_concat (l : Seg) (last : CString × CString) :
    held (l ++ [last]) = if last.1 ∈ _punc then [last] else [] := by
  simp [held]

theorem map_fst_zip_body {l : Seg} {finals : List (List CString)}
    (hlen : finals.length = (body l).length) :
    ((body l).zip finals).map Prod.fst = body l :=
  List.map_fst_zip hlen.ge

variable (tones) in
theorem flatten_threeBlocks {l : Seg} {finals : List (List CString)}
    (hlen : finals.length = (body l).length) :
    (threeBlocks tones l finals).flatten = l := by
  have hheld : ((held l).map fun t => [t]).flatten = held l := by
    unfold held
    split
    · split
      · rfl
      · rfl
    · rfl
  rw [threeBlocks, List.flatten_append, ← List.map_flatten, flatten_blocks,
    map_fst_zip_body hlen, hheld, body_append_held]

theorem ne_nil_of_mem_threeBlocks {l b : Seg} {finals : List (List CString)}
    (hb : b ∈ threeBlocks tones l finals) : b ≠ [] := by
  rcases List.mem_append.mp hb with hb | hb
  · rcases List.mem_map.mp hb with ⟨items, hitems, rfl⟩
    simpa using ne_nil_of_mem_blocks hitems
  · rcases List.mem_map.mp hb with ⟨t, -, rfl⟩
    simp

/-- What is left of a pass when the finals are known. -/
def threeResult (tones : List CString -> List CString -> Except Error Bool)
    (l : Seg) (finals : List (List CString)) : Except Error Seg := do
  let r <- (List.range (body l).length).foldlM (threeStep tones l finals)
    ([], List.replicate l.length false)
  pure (r.1 ++ held l)

variable (tones) in
theorem threeResult_yields {l : Seg} {finals : List (List CString)}
    (hlen : finals.length = (body l).length)
    (htones : forall f g, f ∈ finals -> g ∈ finals ->
      Yields (fun _ => True) E (tones f g))
    (hfits : forall p t, p ∈ l -> t ∈ l ->
      Yields (fun _ => True) E (fitsThree p.1 t.1)) :
    Yields (fun out => out = (threeBlocks tones l finals).map firstToken) E
      (threeResult tones l finals) := by
  have hle : finals.length ≤ l.length := hlen.le.trans (length_body_le l)
  have hzip : l.zip finals = (body l).zip finals := by
    have happ : (body l ++ held l).zip (finals ++ []) =
        (body l).zip finals ++ (held l).zip [] := List.zip_append hlen.symm
    rw [body_append_held, List.append_nil, List.zip_nil_right,
      List.append_nil] at happ
    exact happ
  have hloop := threeLoop_yields hle htones hfits
  rw [hzip, hlen] at hloop
  refine Yields.bind hloop ?_
  intro r hr
  have hheld : ((held l).map fun t => [t]).map firstToken = held l := by
    rw [List.map_map]
    calc
      (held l).map (firstToken ∘ fun t => [t]) = (held l).map id := by
        apply List.map_congr_left
        intro t _
        exact firstToken_singleton t
      _ = held l := List.map_id _
  rw [threeBlocks, List.map_append, hheld, List.map_map]
  exact congrArg (· ++ held l) hr

end ThreeTones

section Lookup

variable {σ : Type} {getFinals : CString -> Prog Error σ (List CString)}
  {tones : List CString -> List CString -> Except Error Bool}

theorem mergeThree_apply {l : Seg} (hl : l ≠ []) (s : σ) :
    mergeThree getFinals tones l s =
      (finalsRows getFinals (body l) >>= fun finals =>
        Prog.lift (threeResult tones l finals)) s := by
  rcases List.eq_nil_or_concat l with rfl | ⟨pre, last, rfl⟩
  · exact absurd rfl hl
  · rw [List.concat_eq_append]
    have hnum : (if last.1 ∈ _punc then (pre ++ [last]).length - 1
        else (pre ++ [last]).length) = (body (pre ++ [last])).length := by
      rw [body_concat]
      split
      · rw [List.length_append, List.length_singleton, Nat.add_sub_cancel]
      · rfl
    have hheld : forall result : Seg,
        (if (body (pre ++ [last])).length < (pre ++ [last]).length then result ++ [last]
          else result) = result ++ held (pre ++ [last]) := by
      intro result
      rw [body_concat, held_concat]
      split
      · rw [if_pos (by simp)]
      · rw [if_neg (by simp), List.append_nil]
    unfold mergeThree
    rw [back_concat, Prog.bind_of_ok (Prog.lift_apply _ _), hnum, take_length_body]
    simp only [hheld]
    refine congrArg (fun f => (finalsRows getFinals (body (pre ++ [last])) >>= f) s) ?_
    funext finals
    exact Prog.lift_bind_lift _ _

end Lookup

end FrontEngineInterface
end VoiceTts
