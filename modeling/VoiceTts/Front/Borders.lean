import VoiceTts.Front.LeftOver

/-!
# Which neighbours a run joins

The words of a segmentation are cut in two, and this module says from the two sides
when a word that comes out reaches over the cut.  There are five ways: a 不 or a 一
waits for the next word, the word in front is repeated, the words on both sides have
third tones (for one or the other pass), and the next word is 儿.
-/

namespace VoiceTts
namespace FrontEngineInterface

open Blocks

/-!
## Cuts

A place in a segmentation is given by the length of the text in front of it, which
no pass changes.
-/

/-- Some word of the list ends where the text has this length. -/
def SplitsAt (out : Seg) (n : Nat) : Prop :=
  exists pre post, out = pre ++ post ∧ (text pre).length = n

theorem length_text_pos {b : Seg} (hb : NoEmpty b) (hne : b ≠ []) :
    0 < (text b).length := by
  cases b with
  | nil =>
      exact absurd rfl hne
  | cons t b =>
      have ht := List.length_pos_iff.mpr (hb t (by simp))
      rw [text_cons, List.length_append]
      omega

theorem NoEmpty.of_coarsens {l out : Seg} (hl : NoEmpty l) (h : Coarsens Joined l out) :
    NoEmpty out := by
  intro t ht hnil
  rcases h with ⟨bs, rfl, hrel⟩
  rcases exists_of_mem_right hrel ht with ⟨b, hb, hne, htext⟩
  have hpos := length_text_pos (fun u hu => hl u (List.mem_flatten.mpr ⟨b, hb, hu⟩)) hne
  rw [← htext, hnil] at hpos
  exact absurd hpos (by simp)

/-- A pass takes no cut back. -/
theorem SplitsAt.of_coarsens {l out : Seg} {n : Nat} (h : Coarsens Joined l out)
    (hn : SplitsAt out n) : SplitsAt l n := by
  rcases h with ⟨bs, rfl, hrel⟩
  rcases hn with ⟨pre, post, rfl, hlen⟩
  have htake := List.forall₂_take_append bs pre post hrel
  refine ⟨(bs.take pre.length).flatten, (bs.drop pre.length).flatten, ?_, ?_⟩
  · rw [← List.flatten_append, List.take_append_drop]
  · rw [← text_of_coarsens ⟨_, rfl, htake⟩, hlen]

theorem not_splitsAt_of_crosses {bs : List Seg} {l m out : Seg}
    (h : List.Forall₂ Joined bs out) (hne : NoEmpty (l ++ m)) (hcross : Crosses bs l m) :
    ¬ SplitsAt out (text l).length := by
  rintro ⟨o1, o2, rfl, hlen⟩
  rcases hcross with ⟨pre, b, c, post, rfl, hb, hc, rfl, rfl⟩
  have hbpos : 0 < (text b).length :=
    length_text_pos (fun t ht => hne t (by simp [ht])) hb
  have hcpos : 0 < (text c).length :=
    length_text_pos (fun t ht => hne t (by simp [ht])) hc
  have htake := List.forall₂_take_append _ o1 o2 h
  rw [text_of_coarsens ⟨_, rfl, htake⟩, text_append, List.length_append] at hlen
  rcases Nat.lt_or_ge pre.length o1.length with hlt | hle
  · -- the first part has all of the block that crosses
    rcases Nat.exists_eq_add_of_lt hlt with ⟨k, hk⟩
    rw [hk, Nat.add_assoc, List.take_length_add_append, List.take_succ_cons,
      List.flatten_append, List.flatten_cons, text_append, text_append, text_append] at hlen
    simp only [List.length_append] at hlen
    omega
  · have hpre : text pre.flatten =
        text (pre.take o1.length).flatten ++ text (pre.drop o1.length).flatten := by
      rw [← text_append, ← List.flatten_append, List.take_append_drop]
    rw [List.take_append_of_le_length hle] at hlen
    rw [hpre, List.length_append] at hlen
    omega

/-- A pass whose last block in front of the cut takes the first word behind it. -/
theorem not_splitsAt_blocks {join : Seg -> CString × CString -> Bool} {l m cur : Seg}
    {t : CString × CString} (hne : NoEmpty (l ++ m))
    (hcur : (blocks join l).getLast? = some cur) (ht : m.head? = some t)
    (hjoin : join cur t = true) :
    ¬ SplitsAt ((blocks join (l ++ m)).map firstToken) (text l).length := by
  refine not_splitsAt_of_crosses ?_ hne (crosses_blocks_append hcur ht hjoin)
  rw [List.forall₂_map_right_iff, List.forall₂_same]
  exact fun b hb => joined_firstToken (ne_nil_of_mem_blocks hb)

/-!
## 不 and 一
-/

theorem NoEmpty.left {l m : Seg} (h : NoEmpty (l ++ m)) : NoEmpty l :=
  fun t ht => h t (List.mem_append_left m ht)

theorem NoEmpty.right {l m : Seg} (h : NoEmpty (l ++ m)) : NoEmpty m :=
  fun t ht => h t (List.mem_append_right l ht)

theorem MergeBu_append {l : Seg} (hl : NoEmpty l) (h : (takes l).1 = false) (m : Seg) :
    MergeBu (l ++ m) = MergeBu l ++ MergeBu m := by
  rcases takes_cases hl with ⟨-, hbs, -⟩ | ⟨htrue, -⟩
  · have happ : buBlocks (l ++ m) = buBlocks l ++ buBlocks m := by
      refine blocks_append fun cur hcur t _ => ?_
      exact decide_eq_false (hbs cur (List.mem_of_getLast? hcur))
    rw [MergeBu_eq, MergeBu_eq, MergeBu_eq, happ, List.map_append]
  · rw [htrue] at h
    cases h

theorem yiWaits_MergeBu {l : Seg} (hl : NoEmpty l) (h : (takes l).1 = false) :
    yiWaits (MergeBu l) = (takes l).2 := by
  rcases takes_cases hl with ⟨-, hbs, hwaits⟩ | ⟨htrue, -⟩
  · rw [MergeBu_of_not_left hbs]
    exact hwaits
  · rw [htrue] at h
    cases h

/-- Where nothing waits the two sides are read on their own. -/
theorem afterYi_append {l : Seg} (hl : NoEmpty l) (h : takes l = (false, false)) (m : Seg) :
    afterYi (l ++ m) = afterYi l ++ afterYi m := by
  have hfst : (takes l).1 = false := congrArg Prod.fst h
  have hwaits : yiWaits (MergeBu l) = false :=
    (yiWaits_MergeBu hl hfst).trans (congrArg Prod.snd h)
  have happ : yiBlocks (MergeBu l ++ MergeBu m) =
      yiBlocks (MergeBu l) ++ yiBlocks (MergeBu m) := by
    refine blocks_append fun cur hcur t _ => ?_
    rw [yiWaits, yiBlocks, hcur] at hwaits
    exact hwaits
  rw [afterYi, MergeBu_append hl hfst, happ, List.map_append]
  rfl

/-- A 不 or a 一 that waits takes the word behind the cut. -/
theorem not_splitsAt_afterYi {l m : Seg} (hne : NoEmpty (l ++ m)) (hm : m ≠ [])
    (h : takes l ≠ (false, false)) : ¬ SplitsAt (afterYi (l ++ m)) (text l).length := by
  rcases List.exists_cons_of_ne_nil hm with ⟨t, m, rfl⟩
  cases hfst : (takes l).1 with
  | true =>
      intro hsplit
      have hbu := SplitsAt.of_coarsens (coarsens_firstToken yiJoin _) hsplit
      rcases takes_cases hne.left with ⟨hfalse, -⟩ | ⟨-, pre, u, hbs, hu, -⟩
      · rw [hfst] at hfalse
        cases hfalse
      · have hlast : (blocks buJoin l).getLast? = some [u] := by
          rw [show blocks buJoin l = pre ++ [[u]] from hbs, List.getLast?_concat]
        have hjoin : buJoin [u] t = true := by
          simp [buJoin, hu]
        refine not_splitsAt_of_crosses ?_ hne (crosses_blocks_append hlast rfl hjoin) hbu
        rw [MergeBu_eq, List.forall₂_map_right_iff]
        exact List.forall₂_same.mpr fun b hb => ⟨ne_nil_of_mem_blocks hb, buToken_fst b⟩
  | false =>
      have hsnd : (takes l).2 = true := by
        by_contra hfalse
        exact h (Prod.ext hfst (Bool.eq_false_iff.mpr hfalse))
      have hwaits := (yiWaits_MergeBu hne.left hfst).trans hsnd
      have hbu := MergeBu_append hne.left hfst (t :: m)
      have hne' : NoEmpty (MergeBu l ++ MergeBu (t :: m)) := by
        rw [← hbu]
        exact hne.of_coarsens (coarsens_MergeBu _)
      rcases List.exists_cons_of_ne_nil
        (ne_nil_of_coarsens (coarsens_MergeBu (t :: m)) hm) with ⟨w, m', hw⟩
      rw [← text_of_coarsens (coarsens_MergeBu l), afterYi, hbu]
      unfold yiWaits at hwaits
      split at hwaits
      · rename_i cur hcur
        exact not_splitsAt_blocks hne' hcur (by rw [hw]; rfl) hwaits
      · cases hwaits

/--
The words with the 不 and the 一 that take them.  A 不 hands on the tag of its word, a
一 its own; a 不 at the end has none to take.
-/
def phrases : Seg -> Seg
  | [] => []
  | [t] => [(t.1, if t.1 = str "不" then str "d" else t.2)]
  | [t, u] =>
      if t.1 = str "不" then [(t.1 ++ u.1, u.2)]
      else if t.1 = str "一" then [(t.1 ++ u.1, t.2)]
      else t :: phrases [u]
  | t :: u :: v :: l =>
      if t.1 = str "不" then (t.1 ++ u.1, u.2) :: phrases (v :: l)
      else if t.1 = str "一" then
        if u.1 = str "不" then (t.1 ++ u.1 ++ v.1, t.2) :: phrases l
        else (t.1 ++ u.1, t.2) :: phrases (v :: l)
      else t :: phrases (u :: v :: l)

section Phrases

variable {t u v : CString × CString}

theorem yi_ne_bu : str "一" ≠ str "不" := by
  decide

theorem afterYi_singleton (t : CString × CString) :
    afterYi [t] = [(t.1, if t.1 = str "不" then str "d" else t.2)] := by
  by_cases ht : t.1 = str "不"
  · simp [afterYi, MergeBu, mergeBuStep, ht, yiBlocks, blocks, addItem]
  · simp [afterYi, MergeBu, mergeBuStep, ht, yiBlocks, blocks, addItem]

theorem afterYi_bu (ht : t.1 = str "不") (hu : u.1 ≠ []) :
    afterYi [t, u] = [(t.1 ++ u.1, u.2)] := by
  simp [afterYi, MergeBu, mergeBuStep, ht, hu, yiBlocks, blocks, addItem]

theorem afterYi_yi (ht : t.1 = str "一") : afterYi [t, u] = [(t.1 ++ u.1, t.2)] := by
  by_cases hu : u.1 = str "不"
  · simp [afterYi, MergeBu, mergeBuStep, ht, hu, yi_ne_bu, yiBlocks, blocks, addItem, yiJoin,
      firstToken]
  · simp [afterYi, MergeBu, mergeBuStep, ht, hu, yi_ne_bu, yiBlocks, blocks, addItem, yiJoin,
      firstToken]

theorem afterYi_yi_bu (ht : t.1 = str "一") (hu : u.1 = str "不") (hv : v.1 ≠ []) :
    afterYi [t, u, v] = [(t.1 ++ u.1 ++ v.1, t.2)] := by
  simp [afterYi, MergeBu, mergeBuStep, ht, hu, hv, yi_ne_bu, yiBlocks, blocks, addItem,
    yiJoin, firstToken]

theorem takes_word (hbu : t.1 ≠ str "不") (hyi : t.1 ≠ str "一") :
    takes [t] = (false, false) := by
  simp [takes, takeStep, hbu, hyi]

theorem takes_bu (ht : t.1 = str "不") : takes [t, u] = (false, false) := by
  simp [takes, takeStep, ht]

theorem takes_yi (ht : t.1 = str "一") (hu : u.1 ≠ str "不") :
    takes [t, u] = (false, false) := by
  simp [takes, takeStep, ht, hu, yi_ne_bu]

theorem takes_yi_bu (ht : t.1 = str "一") (hu : u.1 = str "不") :
    takes [t, u, v] = (false, false) := by
  simp [takes, takeStep, ht, hu, yi_ne_bu]

/-- `MergeBu` and `Mergeyi` make phrases. -/
theorem afterYi_eq {l : Seg} (hl : NoEmpty l) : afterYi l = phrases l := by
  induction l using phrases.induct with
  | case1 =>
      rfl
  | case2 t =>
      exact afterYi_singleton t
  | case3 t u hbu =>
      simpa [phrases, hbu] using afterYi_bu hbu (hl u (by simp))
  | case4 t u hbu hyi =>
      simpa [phrases, hyi, yi_ne_bu] using afterYi_yi (u := u) hyi
  | case5 t u hbu hyi ih =>
      have happ := afterYi_append (l := [t]) hl.left (takes_word hbu hyi) [u]
      rw [afterYi_singleton, if_neg hbu, ih (hl.right (l := [t]))] at happ
      simpa [phrases, hbu, hyi] using happ
  | case6 t u v l hbu ih =>
      have happ := afterYi_append (l := [t, u]) hl.left (takes_bu hbu) (v :: l)
      rw [afterYi_bu hbu (hl u (by simp)), ih (hl.right (l := [t, u]))] at happ
      simpa [phrases, hbu] using happ
  | case7 t u v l hbu hyi hu ih =>
      have happ := afterYi_append (l := [t, u, v]) hl.left (takes_yi_bu hyi hu) l
      rw [afterYi_yi_bu hyi hu (hl v (by simp)), ih (hl.right (l := [t, u, v]))] at happ
      simpa [phrases, hyi, hu, yi_ne_bu] using happ
  | case8 t u v l hbu hyi hu ih =>
      have happ := afterYi_append (l := [t, u]) hl.left (takes_yi hyi hu) (v :: l)
      rw [afterYi_yi hyi, ih (hl.right (l := [t, u]))] at happ
      simpa [phrases, hyi, hu, yi_ne_bu] using happ
  | case9 t u v l hbu hyi ih =>
      have happ := afterYi_append (l := [t]) hl.left (takes_word hbu hyi) (u :: v :: l)
      rw [afterYi_singleton, if_neg hbu, ih (hl.right (l := [t]))] at happ
      simpa [phrases, hbu, hyi] using happ

end Phrases

/-!
## Words that are repeated
-/

/-- The last word: a phrase that is equal to the word before it is added to it. -/
def inHand (l : Seg) : CString :=
  l.foldl (fun w t => if t.1 = w then w ++ t.1 else t.1) []

theorem inHand_concat (l : Seg) (t : CString × CString) :
    inHand (l ++ [t]) = if t.1 = inHand l then inHand l ++ t.1 else t.1 := by
  rw [inHand, List.foldl_append]
  rfl

theorem text_redupBlocks {l cur : Seg} (hcur : (redupBlocks l).getLast? = some cur) :
    text cur = inHand l := by
  induction l using List.reverseRecOn generalizing cur with
  | nil =>
      cases hcur
  | append_singleton l t ih =>
      have hblocks : redupBlocks (l ++ [t]) = addItem redupJoin (redupBlocks l) t :=
        blocks_concat redupJoin l t
      rw [hblocks] at hcur
      rw [inHand_concat]
      rcases addItem_cases redupJoin (redupBlocks l) t with
        ⟨hbs, h⟩ | ⟨pre, last, hbs, hjoin, h⟩ | ⟨pre, last, hbs, hjoin, h⟩
      · rw [h] at hcur
        cases hcur
        rw [blocks_eq_nil.mp hbs]
        by_cases ht : t.1 = []
        · simp [ht, inHand]
        · simp [ht, inHand]
      · have hlast : text last = inHand l := ih (by simp [hbs])
        have ht : t.1 = text last := of_decide_eq_true hjoin
        rw [h, List.getLast?_concat, Option.some.injEq] at hcur
        rw [← hcur, ← hlast, if_pos ht]
        simp
      · have hlast : text last = inHand l := ih (by simp [hbs])
        have ht : t.1 ≠ text last := of_decide_eq_false hjoin
        rw [h, List.getLast?_concat, Option.some.injEq] at hcur
        rw [← hcur, ← hlast, if_neg ht]
        simp

/-- The phrases, with those that repeat the word before them added to it. -/
def wordsOf (l : Seg) : Seg :=
  MergeReduplication (phrases l)

theorem byText_eq {l : Seg} (hl : NoEmpty l) : byText l = wordsOf l := by
  rw [wordsOf, ← afterYi_eq hl]
  rfl

theorem coarsens_phrases {l : Seg} (hl : NoEmpty l) : Coarsens Joined l (phrases l) := by
  rw [← afterYi_eq hl]
  exact (coarsens_MergeBu l).trans (coarsens_firstToken yiJoin (MergeBu l))
    fun _ _ _ => Joined.trans

theorem coarsens_repeated (l : Seg) : Coarsens Joined l (MergeReduplication l) := by
  rw [MergeReduplication_eq]
  exact coarsens_firstToken redupJoin l

theorem coarsens_wordsOf {l : Seg} (hl : NoEmpty l) : Coarsens Joined l (wordsOf l) :=
  (coarsens_phrases hl).trans (coarsens_repeated (phrases l)) fun _ _ _ => Joined.trans

section Repeated

variable {l m : Seg}

theorem phrases_append (hne : NoEmpty (l ++ m)) (htakes : takes l = (false, false)) :
    phrases (l ++ m) = phrases l ++ phrases m := by
  rw [← afterYi_eq hne, ← afterYi_eq hne.left, ← afterYi_eq hne.right,
    afterYi_append hne.left htakes]

theorem wordsOf_append (hne : NoEmpty (l ++ m)) (htakes : takes l = (false, false))
    (h : (phrases m).head?.map Prod.fst ≠ some (inHand (phrases l))) :
    wordsOf (l ++ m) = wordsOf l ++ wordsOf m := by
  have happ : redupBlocks (phrases l ++ phrases m) =
      redupBlocks (phrases l) ++ redupBlocks (phrases m) := by
    refine blocks_append fun cur hcur t ht => decide_eq_false fun heq => h ?_
    rw [ht, Option.map_some, heq, text_redupBlocks hcur]
  rw [wordsOf, wordsOf, wordsOf, phrases_append hne htakes, MergeReduplication_eq,
    MergeReduplication_eq, MergeReduplication_eq, happ, List.map_append]

theorem not_splitsAt_wordsOf (hne : NoEmpty (l ++ m)) (hl : l ≠ [])
    (htakes : takes l = (false, false))
    (h : (phrases m).head?.map Prod.fst = some (inHand (phrases l))) :
    ¬ SplitsAt (wordsOf (l ++ m)) (text l).length := by
  have hne' := hne.of_coarsens (coarsens_phrases hne)
  rw [phrases_append hne htakes] at hne'
  rcases Option.map_eq_some_iff.mp h with ⟨t, ht, htext⟩
  have hcur := List.getLast?_eq_some_getLast
    (show blocks redupJoin (phrases l) ≠ [] from fun hnil =>
      ne_nil_of_coarsens (coarsens_phrases hne.left) hl (blocks_eq_nil.mp hnil))
  rw [wordsOf, phrases_append hne htakes, MergeReduplication_eq,
    ← text_of_coarsens (coarsens_phrases hne.left)]
  refine not_splitsAt_blocks hne' hcur ht (decide_eq_true ?_)
  rw [htext, text_redupBlocks hcur]

end Repeated

/-!
## Words with third tones
-/

section Tones

variable (tones : List CString -> List CString -> Except Error Bool)

/-- A pass over tones on words behind which more words come. -/
def joinTones (l : Seg) (finals : List (List CString)) : Seg :=
  (blocks (threeJoin tones) (l.zip finals)).map itemToken

/--
The last word in front of a cut, which has not been joined itself, and the first
word behind it, which is no punctuation mark at the end, pass the test of a pass
over tones.
-/
def TonesMeet (l : Seg) (f : List (List CString)) (m : Seg) (g : List (List CString)) :
    Prop :=
  exists p t, (blocks (threeJoin tones) (l.zip f)).getLast? = some [p] ∧
    ((body m).zip g).head? = some t ∧ t.1.2 = str "x" ∧ t.1.1 ≠ str " " ∧
    tones p.2 t.2 = Except.ok true ∧ fitsThree p.1.1 t.1.1 = Except.ok true

variable {tones} {l m : Seg} {f g : List (List CString)}

theorem body_append (hm : m ≠ []) : body (l ++ m) = l ++ body m := by
  rcases List.eq_nil_or_concat m with rfl | ⟨pre, last, rfl⟩
  · exact absurd rfl hm
  · rw [List.concat_eq_append, ← List.append_assoc, body_concat, body_concat]
    split
    · rfl
    · rw [List.append_assoc]

theorem held_append (hm : m ≠ []) : held (l ++ m) = held m := by
  rcases List.eq_nil_or_concat m with rfl | ⟨pre, last, rfl⟩
  · exact absurd rfl hm
  · rw [List.concat_eq_append, ← List.append_assoc, held_concat, held_concat]

theorem threeJoin_eq_true {cur : List ((CString × CString) × List CString)}
    {t : (CString × CString) × List CString} (h : threeJoin tones cur t = true) :
    exists p, cur = [p] ∧ t.1.2 = str "x" ∧ t.1.1 ≠ str " " ∧
      tones p.2 t.2 = Except.ok true ∧ fitsThree p.1.1 t.1.1 = Except.ok true := by
  match cur with
  | [p] =>
      exact ⟨p, rfl, of_decide_eq_true h⟩

theorem zip_append_body (hlen : f.length = l.length) (hm : m ≠ []) :
    (body (l ++ m)).zip (f ++ g) = l.zip f ++ (body m).zip g := by
  rw [body_append hm, List.zip_append hlen.symm]

theorem byTones_append (hlen : f.length = l.length) (hm : m ≠ [])
    (h : ¬ TonesMeet tones l f m g) :
    byTones tones (l ++ m) (f ++ g) = joinTones tones l f ++ byTones tones m g := by
  have happ : blocks (threeJoin tones) (l.zip f ++ (body m).zip g) =
      blocks (threeJoin tones) (l.zip f) ++
        blocks (threeJoin tones) ((body m).zip g) := by
    refine blocks_append fun cur hcur t ht => ?_
    by_contra htrue
    rcases threeJoin_eq_true (Bool.not_eq_false _ ▸ htrue) with ⟨p, rfl, hjoin⟩
    exact h ⟨p, t, hcur, ht, hjoin⟩
  rw [byTones, threeBlocks, zip_append_body hlen hm, happ, held_append hm, List.map_append,
    List.map_append, List.map_append, List.append_assoc, List.map_map]
  rw [byTones, threeBlocks, List.map_append]
  rfl

theorem not_splitsAt_byTones (hne : NoEmpty (l ++ m)) (hlen : f.length = l.length)
    (hlen' : g.length = (body m).length) (hm : m ≠ []) (h : TonesMeet tones l f m g) :
    ¬ SplitsAt (byTones tones (l ++ m) (f ++ g)) (text l).length := by
  rcases h with ⟨p, t, hcur, ht, hjoin⟩
  have hcross := crosses_blocks_append hcur ht (decide_eq_true hjoin)
  have hmap := (hcross.map Prod.fst).append ((held m).map fun t => [t])
  have hheld : ((held m).map fun t => [t]).flatten = held m := by
    simp [← List.flatMap_def]
  rw [List.map_fst_zip hlen.ge, List.map_fst_zip hlen'.ge, hheld, body_append_held] at hmap
  have hblocks : Crosses (threeBlocks tones (l ++ m) (f ++ g)) l m := by
    rw [threeBlocks, zip_append_body hlen hm, held_append hm]
    exact hmap
  refine not_splitsAt_of_crosses ?_ hne hblocks
  rw [byTones, List.forall₂_map_right_iff, List.forall₂_same]
  exact fun b hb => joined_firstToken (ne_nil_of_mem_threeBlocks hb)

variable (tones) in
theorem coarsens_joinTones (hlen : f.length = l.length) :
    Coarsens Joined l (joinTones tones l f) := by
  refine ⟨(blocks (threeJoin tones) (l.zip f)).map (List.map Prod.fst), ?_, ?_⟩
  · rw [← List.map_flatten, flatten_blocks, List.map_fst_zip hlen.ge]
  · rw [joinTones, List.forall₂_map_left_iff, List.forall₂_map_right_iff, List.forall₂_same]
    exact fun b hb => joined_firstToken (by simpa using ne_nil_of_mem_blocks hb)

end Tones

/-!
## 儿
-/

theorem erBlocks_append {l m : Seg} (h : m.head?.map Prod.fst ≠ some (str "儿")) :
    erBlocks (l ++ m) = erBlocks l ++ erBlocks m := by
  refine blocks_append fun cur _ t ht => decide_eq_false fun heq => h ?_
  rw [ht, Option.map_some, heq]

theorem not_splitsAt_er {l m : Seg} (hne : NoEmpty (l ++ m)) (hl : l ≠ [])
    (h : m.head?.map Prod.fst = some (str "儿")) :
    ¬ SplitsAt ((erBlocks (l ++ m)).map firstToken) (text l).length := by
  rcases Option.map_eq_some_iff.mp h with ⟨t, ht, her⟩
  have hcur := List.getLast?_eq_some_getLast
    (show blocks erJoin l ≠ [] from fun hnil => hl (blocks_eq_nil.mp hnil))
  exact not_splitsAt_blocks hne hcur ht (decide_eq_true her)

/-!
## Runs of all passes
-/

section Runs

variable {σ : Type} (getFinals : CString -> Prog Error σ (List CString))

/--
The finals of the words in front of a cut and of the words behind it, looked up one
after the other.
-/
def Looked (l m : Seg) (s : σ) (f g : List (List CString)) (s' : σ) : Prop :=
  exists s1, finalsRows getFinals l s = (Except.ok f, s1) ∧
    finalsRows getFinals (body m) s1 = (Except.ok g, s')

/--
No pass joins the words on the two sides of a cut.  No 不 and no 一 waits in front of it
for the next word; the phrase behind it does not repeat the word in front of it; the
word in front of it and the word behind it have no third tones that make one or the
other pass join them; and the word behind it is not 儿.
-/
structure StayApart (l m : Seg) (s : σ) : Prop where
  taken : takes l = (false, false)
  repeated : (phrases m).head?.map Prod.fst ≠ some (inHand (phrases l))
  threeTones : forall f g s1, Looked getFinals (wordsOf l) (wordsOf m) s f g s1 ->
    ¬ TonesMeet bothToneThree (wordsOf l) f (wordsOf m) g
  threeTones2 : forall f g s1 f' g' s2,
    Looked getFinals (wordsOf l) (wordsOf m) s f g s1 ->
    Looked getFinals (joinTones bothToneThree (wordsOf l) f)
      (byTones bothToneThree (wordsOf m) g) s1 f' g' s2 ->
    ¬ TonesMeet edgeToneThree (joinTones bothToneThree (wordsOf l) f) f'
      (byTones bothToneThree (wordsOf m) g) g'
  er : forall f g s1 f' g' s2,
    Looked getFinals (wordsOf l) (wordsOf m) s f g s1 ->
    Looked getFinals (joinTones bothToneThree (wordsOf l) f)
      (byTones bothToneThree (wordsOf m) g) s1 f' g' s2 ->
    (byTones edgeToneThree (byTones bothToneThree (wordsOf m) g) g').head?.map Prod.fst ≠
      some (str "儿")

variable {getFinals} {l m out : Seg} {s s' : σ}

theorem Looked.unique {f g f' g' : List (List CString)} {s1 s2 : σ}
    (h : Looked getFinals l m s f g s1) (h' : Looked getFinals l m s f' g' s2) :
    f = f' ∧ g = g' ∧ s1 = s2 := by
  rcases h with ⟨t, hf, hg⟩
  rcases h' with ⟨t', hf', hg'⟩
  rw [hf] at hf'
  cases hf'
  rw [hg] at hg'
  cases hg'
  exact ⟨rfl, rfl, rfl⟩

theorem Looked.length {f g : List (List CString)} (h : Looked getFinals l m s f g s') :
    f.length = l.length ∧ g.length = (body m).length := by
  rcases h with ⟨t, hf, hg⟩
  exact ⟨finalsRows_length hf, finalsRows_length hg⟩

theorem finalsRows_append {finals : List (List CString)}
    (h : finalsRows getFinals (l ++ m) s = (Except.ok finals, s')) :
    exists f g s1, finalsRows getFinals l s = (Except.ok f, s1) ∧
      finalsRows getFinals m s1 = (Except.ok g, s') ∧ finals = f ++ g := by
  induction l generalizing s finals with
  | nil =>
      exact ⟨[], finals, s, rfl, h, rfl⟩
  | cons t l ih =>
      rcases Prog.bind_eq_ok h with ⟨row, s1, hrow, hrest⟩
      rcases Prog.bind_eq_ok hrest with ⟨rows, s2, hrows, hpure⟩
      cases hpure
      rcases ih hrows with ⟨f, g, s3, hf, hg, rfl⟩
      refine ⟨row :: f, g, s3, ?_, hg, rfl⟩
      rw [finalsRows, Prog.bind_apply, hrow]
      change (finalsRows getFinals l >>= _) s1 = _
      rw [Prog.bind_apply, hf]
      rfl

theorem looked_append {finals : List (List CString)} (hm : m ≠ [])
    (h : finalsRows getFinals (body (l ++ m)) s = (Except.ok finals, s')) :
    exists f g, Looked getFinals l m s f g s' ∧ finals = f ++ g := by
  rw [body_append hm] at h
  rcases finalsRows_append h with ⟨f, g, s1, hf, hg, heq⟩
  exact ⟨f, g, ⟨s1, hf, hg⟩, heq⟩

/-- A cut that a run leaves is one where the two sides stay apart. -/
theorem stayApart_of_splitsAt (hne : NoEmpty (l ++ m)) (hl : l ≠ []) (hm : m ≠ [])
    (hverb : NoVerb (MergeBu (l ++ m)))
    (h : MergeforModify getFinals (l ++ m) s = (Except.ok out, s'))
    (hsplit : SplitsAt out (text l).length) : StayApart getFinals l m s := by
  rcases MergeforModify_ok hverb h with
    ⟨finals, s1, finals', hrows, hlen, hrows', hlen', hout⟩
  rw [hout] at hsplit
  clear h hout
  rw [byText_eq hne] at hrows hlen hrows' hlen' hsplit
  -- the cut is there before each pass
  have hsplit5 := SplitsAt.of_coarsens (coarsens_firstToken erJoin _) hsplit
  have hsplit4 := SplitsAt.of_coarsens (coarsens_byTones edgeToneThree hlen') hsplit5
  have hsplit3 := SplitsAt.of_coarsens (coarsens_byTones bothToneThree hlen) hsplit4
  have hsplit2 := SplitsAt.of_coarsens (coarsens_repeated (phrases (l ++ m))) hsplit3
  -- so no pass joins over it
  have htakes : takes l = (false, false) := by
    by_contra hwaits
    rw [← afterYi_eq hne] at hsplit2
    exact not_splitsAt_afterYi hne hm hwaits hsplit2
  have hrepeated : (phrases m).head?.map Prod.fst ≠ some (inHand (phrases l)) := fun heq =>
    not_splitsAt_wordsOf hne hl htakes heq hsplit3
  have hne3 := hne.of_coarsens (coarsens_wordsOf hne)
  have hl3 := coarsens_wordsOf hne.left
  have hm3 := ne_nil_of_coarsens (coarsens_wordsOf hne.right) hm
  rw [wordsOf_append hne htakes hrepeated] at hrows hlen hrows' hlen' hsplit hsplit5 hsplit4 hne3
  rw [← text_of_coarsens hl3] at hsplit hsplit5 hsplit4
  rcases looked_append hm3 hrows with ⟨f, g, hlook, rfl⟩
  have hthree : ¬ TonesMeet bothToneThree (wordsOf l) f (wordsOf m) g := fun hmeet =>
    not_splitsAt_byTones hne3 hlook.length.1 hlook.length.2 hm3 hmeet hsplit4
  have hne4 := hne3.of_coarsens (coarsens_byTones bothToneThree hlen)
  have hl4 := coarsens_joinTones bothToneThree hlook.length.1
  have hm4 := ne_nil_of_coarsens (coarsens_byTones bothToneThree hlook.length.2) hm3
  rw [byTones_append hlook.length.1 hm3 hthree] at hrows' hlen' hsplit hsplit5 hne4
  rw [← text_of_coarsens hl4] at hsplit hsplit5
  rcases looked_append hm4 hrows' with ⟨f', g', hlook', rfl⟩
  have hthree' : ¬ TonesMeet edgeToneThree (joinTones bothToneThree (wordsOf l) f) f'
      (byTones bothToneThree (wordsOf m) g) g' := fun hmeet =>
    not_splitsAt_byTones hne4 hlook'.length.1 hlook'.length.2 hm4 hmeet hsplit5
  have hne5 := hne4.of_coarsens (coarsens_byTones edgeToneThree hlen')
  have hl5 := coarsens_joinTones edgeToneThree hlook'.length.1
  rw [byTones_append hlook'.length.1 hm4 hthree'] at hsplit hne5
  rw [← text_of_coarsens hl5] at hsplit
  have hne_l := ne_nil_of_coarsens hl5 (ne_nil_of_coarsens hl4 (ne_nil_of_coarsens hl3 hl))
  have her : (byTones edgeToneThree (byTones bothToneThree (wordsOf m) g) g').head?.map
      Prod.fst ≠ some (str "儿") := fun heq => not_splitsAt_er hne5 hne_l heq hsplit
  refine ⟨htakes, hrepeated, ?_, ?_, ?_⟩
  · intro fs gs t hfs
    rcases hlook.unique hfs with ⟨rfl, rfl, rfl⟩
    exact hthree
  · intro fs gs t fs' gs' t' hfs hfs'
    rcases hlook.unique hfs with ⟨rfl, rfl, rfl⟩
    rcases hlook'.unique hfs' with ⟨rfl, rfl, rfl⟩
    exact hthree'
  · intro fs gs t fs' gs' t' hfs hfs'
    rcases hlook.unique hfs with ⟨rfl, rfl, rfl⟩
    rcases hlook'.unique hfs' with ⟨rfl, rfl, rfl⟩
    exact her

/-- Two sides that stay apart are cut at the end of a run. -/
theorem splitsAt_of_stayApart (hne : NoEmpty (l ++ m)) (hm : m ≠ [])
    (hverb : NoVerb (MergeBu (l ++ m)))
    (h : MergeforModify getFinals (l ++ m) s = (Except.ok out, s'))
    (hapart : StayApart getFinals l m s) : SplitsAt out (text l).length := by
  rcases MergeforModify_ok hverb h with ⟨finals, s1, finals', hrows, -, hrows', -, hout⟩
  rw [hout]
  clear h hout
  have hl3 := coarsens_wordsOf hne.left
  have hm3 := ne_nil_of_coarsens (coarsens_wordsOf hne.right) hm
  rw [byText_eq hne, wordsOf_append hne hapart.taken hapart.repeated] at hrows hrows' ⊢
  rcases looked_append hm3 hrows with ⟨f, g, hlook, rfl⟩
  have hl4 := coarsens_joinTones bothToneThree hlook.length.1
  have hm4 := ne_nil_of_coarsens (coarsens_byTones bothToneThree hlook.length.2) hm3
  rw [byTones_append hlook.length.1 hm3 (hapart.threeTones f g s1 hlook)] at hrows' ⊢
  rcases looked_append hm4 hrows' with ⟨f', g', hlook', rfl⟩
  have hl5 := coarsens_joinTones edgeToneThree hlook'.length.1
  rw [byTones_append hlook'.length.1 hm4 (hapart.threeTones2 f g s1 f' g' s' hlook hlook'),
    erBlocks_append (hapart.er f g s1 f' g' s' hlook hlook'), List.map_append]
  refine ⟨_, _, rfl, congrArg List.length ?_⟩
  calc
    _ = text (joinTones edgeToneThree (joinTones bothToneThree (wordsOf l) f) f') :=
      text_of_coarsens (coarsens_firstToken erJoin _)
    _ = text (joinTones bothToneThree (wordsOf l) f) := text_of_coarsens hl5
    _ = text (wordsOf l) := text_of_coarsens hl4
    _ = text l := text_of_coarsens hl3

/-!
## English words and marks at the end

The tests of the tone passes ask for a word tagged `x` behind the cut, and a mark at
the end is held back.  Two kinds of neighbours are left to 不, 一 and repetition.
-/

/-- The first word of a list begins with this one and has its tag. -/
def BeginsWith (v : CString × CString) (l : Seg) : Prop :=
  exists t, l.head? = some t ∧ v.1 <+: t.1 ∧ t.2 = v.2

theorem BeginsWith.firstToken {v : CString × CString} {bs : List Seg}
    (hne : forall b, b ∈ bs -> b ≠ []) (h : BeginsWith v bs.flatten) :
    BeginsWith v (bs.map firstToken) := by
  rcases h with ⟨t, ht, hprefix, htag⟩
  cases bs with
  | nil =>
      cases ht
  | cons b bs =>
      rcases List.exists_cons_of_ne_nil (hne b (by simp)) with ⟨u, b, rfl⟩
      rw [List.flatten_cons, List.cons_append, List.head?_cons, Option.some.injEq] at ht
      subst ht
      refine ⟨_, rfl, ?_, htag⟩
      rw [firstToken_fst, text_cons]
      exact hprefix.trans (List.prefix_append _ _)

theorem BeginsWith.byTones {v : CString × CString} {g : List (List CString)}
    (tones : List CString -> List CString -> Except Error Bool)
    (hlen : g.length = (body m).length) (h : BeginsWith v m) :
    BeginsWith v (byTones tones m g) := by
  refine BeginsWith.firstToken (fun _ hb => ne_nil_of_mem_threeBlocks hb) ?_
  rwa [flatten_threeBlocks tones hlen]

theorem not_tonesMeet_of_beginsWith {v : CString × CString} {f g : List (List CString)}
    {tones : List CString -> List CString -> Except Error Bool}
    (h : BeginsWith v m) (hx : v.2 ≠ str "x") : ¬ TonesMeet tones l f m g := by
  rintro ⟨p, t, -, ht, htag, -⟩
  rcases h with ⟨u, hu, -, hv⟩
  have hbody : (body m).head? = some t.1 := by
    cases hbody : body m with
    | nil =>
        rw [hbody] at ht
        cases ht
    | cons w b =>
        rw [hbody] at ht
        cases g with
        | nil =>
            cases ht
        | cons r g =>
            cases ht
            rfl
  rw [← body_append_held m, List.head?_append, hbody] at hu
  cases hu
  exact hx (hv.symm.trans htag)

theorem phrases_cons {v : CString × CString} (hbu : v.1 ≠ str "不") (hyi : v.1 ≠ str "一")
    (m : Seg) : phrases (v :: m) = v :: phrases m := by
  match m with
  | [] =>
      simp [phrases, hbu]
  | [u] =>
      simp [phrases, hbu, hyi]
  | u :: w :: m =>
      simp [phrases, hbu, hyi]

/--
In front of an English word, other than 不, 一 and 儿 tagged as one, only a waiting 不 or
一 and a repetition make a pass join over the cut.
-/
theorem stayApart_latin_iff {v : CString × CString} (hx : v.2 ≠ str "x")
    (hbu : v.1 ≠ str "不") (hyi : v.1 ≠ str "一") (her : ¬ v.1 <+: str "儿") (m : Seg) :
    StayApart getFinals l (v :: m) s ↔
      takes l = (false, false) ∧ v.1 ≠ inHand (phrases l) := by
  have hphrases := phrases_cons hbu hyi m
  have hbegins : BeginsWith v (wordsOf (v :: m)) := by
    rw [wordsOf, hphrases, MergeReduplication_eq]
    refine BeginsWith.firstToken (fun _ hb => ne_nil_of_mem_blocks hb) ?_
    rw [redupBlocks, flatten_blocks]
    exact ⟨v, rfl, List.prefix_rfl, rfl⟩
  constructor
  · intro h
    refine ⟨h.taken, fun heq => h.repeated ?_⟩
    rw [hphrases, List.head?_cons, Option.map_some, heq]
  · rintro ⟨htakes, hrepeated⟩
    refine ⟨htakes, ?_, ?_, ?_, ?_⟩
    · rw [hphrases, List.head?_cons, Option.map_some]
      exact fun heq => hrepeated (Option.some.inj heq)
    · intro f g s1 hlook
      exact not_tonesMeet_of_beginsWith hbegins hx
    · intro f g s1 f' g' s2 hlook hlook'
      exact not_tonesMeet_of_beginsWith (hbegins.byTones bothToneThree hlook.length.2) hx
    · intro f g s1 f' g' s2 hlook hlook' heq
      rcases (hbegins.byTones bothToneThree hlook.length.2).byTones edgeToneThree
        hlook'.length.2 with ⟨t, ht, hprefix, -⟩
      rw [ht, Option.map_some, Option.some.injEq] at heq
      exact her (heq ▸ hprefix)

theorem byTones_mark {v : CString × CString} (hpunc : v.1 ∈ _punc)
    (tones : List CString -> List CString -> Except Error Bool) (g : List (List CString)) :
    byTones tones [v] g = [v] := by
  simp [byTones, threeBlocks, body, held, hpunc]

theorem not_tonesMeet_mark {v : CString × CString} (hpunc : v.1 ∈ _punc)
    {tones : List CString -> List CString -> Except Error Bool} {f g : List (List CString)} :
    ¬ TonesMeet tones l f [v] g := by
  rintro ⟨p, t, -, ht, -⟩
  simp [body, hpunc] at ht

/--
In front of a punctuation mark at the end, only a waiting 不 or 一 and the same mark
make a pass join over the cut.
-/
theorem stayApart_last_iff {v : CString × CString} (hpunc : v.1 ∈ _punc) :
    StayApart getFinals l [v] s ↔
      takes l = (false, false) ∧ v.1 ≠ inHand (phrases l) := by
  have hbu : str "不" ∉ _punc := by decide
  have her : str "儿" ∉ _punc := by decide
  have hphrases : phrases [v] = [v] := by
    rw [phrases, if_neg (show v.1 ≠ str "不" from fun heq => hbu (heq ▸ hpunc))]
  have hwords : wordsOf [v] = [v] := by
    rw [wordsOf, hphrases]
    rfl
  constructor
  · intro h
    refine ⟨h.taken, fun heq => h.repeated ?_⟩
    rw [hphrases, List.head?_cons, Option.map_some, heq]
  · rintro ⟨htakes, hrepeated⟩
    refine ⟨htakes, ?_, ?_, ?_, ?_⟩
    · rw [hphrases, List.head?_cons, Option.map_some]
      exact fun heq => hrepeated (Option.some.inj heq)
    · intro f g s1 _
      rw [hwords]
      exact not_tonesMeet_mark hpunc
    · intro f g s1 f' g' s2 _ _
      rw [hwords, byTones_mark hpunc]
      exact not_tonesMeet_mark hpunc
    · intro f g s1 f' g' s2 _ _ heq
      rw [hwords, byTones_mark hpunc, byTones_mark hpunc, List.head?_cons, Option.map_some,
        Option.some.injEq] at heq
      exact her (heq ▸ hpunc)

end Runs

end FrontEngineInterface
end VoiceTts
