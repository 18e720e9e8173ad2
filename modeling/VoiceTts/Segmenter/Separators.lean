import VoiceTts.Segmenter.Locality

/-!
# Texts with separators

A separator parts a text into two that are cut apart from one another: what stands
on one side of it has no influence on the words of the other side.
-/

namespace VoiceTts
namespace Cppjieba

open Tiling PreFilter

section Ranges

variable {symbols_ : List Rune}

/-- A separator ends a range just as the end of the text does. -/
theorem scan_append {x : RuneStr} (hx : x.rune ∈ symbols_) (rear : List RuneStr)
    {begin_ cursor : Nat} (hle : begin_ ≤ cursor) (rest : List RuneStr)
    (h : begin_ < cursor ∨ rest ≠ []) :
    scan symbols_ begin_ cursor (rest ++ x :: rear) = scan symbols_ begin_ cursor rest := by
  induction rest generalizing cursor with
  | nil =>
      rcases h with hlt | hne
      · rw [List.nil_append, scan, scan, if_pos hx, if_neg (Nat.ne_of_lt hlt)]
      · exact absurd rfl hne
  | cons r rest ih =>
      rw [List.cons_append, scan, scan]
      split
      · rfl
      · exact ih (Nat.le_succ_of_le hle) (Or.inl (Nat.lt_succ_of_le hle))

theorem scan_shift (k begin_ cursor : Nat) (rest : List RuneStr) :
    scan symbols_ (k + begin_) (k + cursor) rest = k + scan symbols_ begin_ cursor rest := by
  induction rest generalizing cursor with
  | nil =>
      rfl
  | cons r rest ih =>
      rw [scan, scan]
      simp only [Nat.add_right_inj]
      split
      · split
        · rfl
        · rfl
      · exact ih (cursor + 1)

variable {front rear : List RuneStr} {x : RuneStr}

theorem Next_front (hx : x.rune ∈ symbols_) {cursor_ : Nat} (h : cursor_ < front.length) :
    Next symbols_ (front ++ x :: rear) cursor_ = Next symbols_ front cursor_ := by
  have hne : front.drop cursor_ ≠ [] := by
    rw [ne_eq, List.drop_eq_nil_iff]
    omega
  unfold Next
  rw [List.drop_append_of_le_length h.le,
    scan_append hx rear (Nat.le_refl cursor_) _ (Or.inr hne)]

theorem Next_separator (hx : x.rune ∈ symbols_) :
    Next symbols_ (front ++ x :: rear) front.length = ⟨front.length, front.length + 1⟩ := by
  unfold Next
  rw [List.drop_left, scan, if_pos hx, if_pos rfl]

theorem Next_rear (k : Nat) {runes : List RuneStr} (hdrop : runes.drop k = rear)
    (cursor_ : Nat) :
    Next symbols_ runes (k + cursor_) =
      ⟨k + (Next symbols_ rear cursor_).begin_, k + (Next symbols_ rear cursor_).end_⟩ := by
  unfold Next
  rw [← hdrop, List.drop_drop, scan_shift]

variable {cut : Range -> List WordRange}

/-- The ranges in front of a separator are those of the text in front of it. -/
theorem cutRanges_front (hx : x.rune ∈ symbols_) (cursor_ : Nat) (h : cursor_ ≤ front.length) :
    cutRanges symbols_ (front ++ x :: rear) cut cursor_ =
      cutRanges symbols_ front cut cursor_ ++
        cutRanges symbols_ (front ++ x :: rear) cut front.length := by
  by_cases hlt : cursor_ < front.length
  · have hbounds := Next_bounds symbols_ hlt
    have hwhole : cursor_ < (front ++ x :: rear).length := by
      rw [List.length_append]
      omega
    rw [cutRanges_step hlt, cutRanges_step hwhole, Next_front hx hlt,
      cutRanges_front hx _ hbounds.2, List.append_assoc]
  · rw [cutRanges_end (Nat.le_of_not_lt hlt), List.nil_append,
      Nat.le_antisymm h (Nat.le_of_not_lt hlt)]
termination_by front.length - cursor_

/-- Behind a separator everything is as in the text behind it, further on. -/
theorem cutRanges_rear (k : Nat) {runes : List RuneStr} (hdrop : runes.drop k = rear)
    (hk : k ≤ runes.length) (cursor_ : Nat) (h : cursor_ ≤ rear.length) :
    cutRanges symbols_ runes cut (k + cursor_) =
      cutRanges symbols_ rear (fun range => cut ⟨k + range.begin_, k + range.end_⟩)
        cursor_ := by
  have hlength : rear.length = runes.length - k := by
    rw [← hdrop, List.length_drop]
  by_cases hlt : cursor_ < rear.length
  · have hbounds := Next_bounds symbols_ hlt
    rw [cutRanges_step hlt, cutRanges_step (by omega), Next_rear k hdrop,
      cutRanges_rear k hdrop hk _ hbounds.2]
  · rw [cutRanges_end (by omega), cutRanges_end (by omega)]
termination_by rear.length - cursor_

/-- A separator is a range of its own, and parts the text in two. -/
theorem cutRanges_append (hx : x.rune ∈ symbols_) :
    cutRanges symbols_ (front ++ x :: rear) cut 0 =
      cutRanges symbols_ front cut 0 ++ (cut ⟨front.length, front.length + 1⟩ ++
        cutRanges symbols_ rear (fun range => cut
          ⟨front.length + 1 + range.begin_, front.length + 1 + range.end_⟩) 0) := by
  have hlength : (front ++ x :: rear).length = front.length + 1 + rear.length := by
    rw [List.length_append, List.length_cons, Nat.add_assoc, Nat.add_comm 1]
  have hdrop : (front ++ x :: rear).drop (front.length + 1) = rear := by
    rw [List.drop_append, List.drop_eq_nil_of_le (Nat.le_succ _), Nat.add_sub_cancel_left]
    rfl
  have hlt : front.length < (front ++ x :: rear).length := by
    omega
  rw [cutRanges_front hx 0 (Nat.zero_le _), cutRanges_step hlt, Next_separator hx,
    ← cutRanges_rear (front.length + 1) hdrop hlt 0 (Nat.zero_le _)]

/-- Texts with the same runes have the same ranges. -/
theorem cutRanges_same {runes runes' : List RuneStr} (h : runesOf runes = runesOf runes')
    {cut' : Range -> List WordRange} {f : WordRange -> WordRange}
    (hcut : forall range, range.begin_ < range.end_ -> range.end_ ≤ runes.length ->
      cut range = (cut' range).map f) (cursor_ : Nat) :
    cutRanges symbols_ runes cut cursor_ = (cutRanges symbols_ runes' cut' cursor_).map f := by
  have hscan : forall (rest rest' : List RuneStr) (begin_ cursor : Nat),
      runesOf rest = runesOf rest' ->
      scan symbols_ begin_ cursor rest = scan symbols_ begin_ cursor rest' := by
    intro rest
    induction rest with
    | nil =>
        intro rest' begin_ cursor hsame
        rw [List.map_eq_nil_iff.mp hsame.symm]
    | cons r rest ih =>
        intro rest' begin_ cursor hsame
        cases rest' with
        | nil =>
            cases hsame
        | cons r' rest' =>
            rw [runesOf, runesOf, List.map_cons, List.map_cons, List.cons.injEq] at hsame
            rw [scan, scan, hsame.1, ih rest' begin_ (cursor + 1) hsame.2]
  have hnext : Next symbols_ runes cursor_ = Next symbols_ runes' cursor_ := by
    unfold Next
    rw [hscan (runes.drop cursor_) (runes'.drop cursor_)]
    rw [runesOf, runesOf, List.map_drop, List.map_drop]
    exact congrArg (List.drop cursor_) h
  have hlength := length_of_same h
  by_cases hlt : cursor_ < runes.length
  · have hbounds := Next_bounds symbols_ hlt
    have hlt' : cursor_ < runes'.length := by
      omega
    rw [cutRanges_step hlt, cutRanges_step hlt', ← hnext, List.map_append,
      hcut _ hbounds.1 hbounds.2, cutRanges_same h hcut]
  · rw [cutRanges_end (by omega), cutRanges_end (by omega), List.map_nil]
termination_by runes.length - cursor_

end Ranges

/-!
## Words on both sides of a separator
-/

/-- What the segmenters have in common: ranges are cut within, and on their own. -/
structure Cutter (cut : List RuneStr -> Range -> List WordRange) : Prop where
  loc : Local cut
  keeps : forall runes, Keeps runes.length (cut runes)
  one : forall r, cut [r] ⟨0, 1⟩ = [⟨0, 0⟩]

section Words

variable {symbols_ : List Rune} {cut : List RuneStr -> Range -> List WordRange}

/-- The ranges of the words of a text. -/
def rangesOf (symbols_ : List Rune) (cut : List RuneStr -> Range -> List WordRange)
    (runes : List RuneStr) : List WordRange :=
  cutRanges symbols_ runes (cut runes) 0

/-- Both sides of a separator are cut as if they were alone. -/
theorem rangesOf_append (h : Cutter cut) {runes front rear : List RuneStr} {x : RuneStr}
    (hx : x.rune ∈ symbols_)
    (hrunes : runesOf runes = runesOf front ++ x.rune :: runesOf rear) :
    rangesOf symbols_ cut runes =
      rangesOf symbols_ cut front ++ (⟨front.length, front.length⟩ ::
        (rangesOf symbols_ cut rear).map (Span.shift (front.length + 1))) := by
  rcases List.map_eq_append_iff.mp hrunes with ⟨front', tail, rfl, hfront, htail⟩
  rcases List.map_eq_cons_iff.mp htail with ⟨x', rear', rfl, hx', hrear⟩
  have hlength := length_of_same hfront
  have hrearlength := length_of_same hrear
  have hwhole : (front' ++ x' :: rear').length = front'.length + 1 + rear'.length := by
    rw [List.length_append, List.length_cons, Nat.add_assoc, Nat.add_comm 1]
  have hslice : slice (front' ++ x' :: rear') front'.length (front'.length + 1) = [x'] := by
    rw [slice, List.drop_left, Nat.add_sub_cancel_left]
    rfl
  have hdrop : slice (front' ++ x' :: rear') (front'.length + 1)
      (front' ++ x' :: rear').length = rear' := by
    rw [slice, hwhole, Nat.add_sub_cancel_left, List.drop_append,
      List.drop_eq_nil_of_le (Nat.le_succ _), Nat.add_sub_cancel_left]
    exact List.take_length
  have htake : slice (front' ++ x' :: rear') 0 front'.length = front' := by
    rw [slice, List.drop_zero, Nat.sub_zero, List.take_left]
  have hcutfront : forall range : Range, range.begin_ < range.end_ ->
      range.end_ ≤ front'.length -> cut (front' ++ x' :: rear') range =
        (cut front range).map (Span.shift 0) := by
    intro range hlt hle
    have hsame : runesOf front = runesOf (slice (front' ++ x' :: rear') 0 front'.length) := by
      rw [htake]
      exact hfront.symm
    have hpart := h.loc.part hsame (by omega) hlt.le (by omega) (Nat.zero_le _)
    rwa [Nat.zero_add, Nat.zero_add] at hpart
  have hcutrear : forall range : Range, range.begin_ < range.end_ ->
      range.end_ ≤ rear'.length ->
      cut (front' ++ x' :: rear')
          ⟨front'.length + 1 + range.begin_, front'.length + 1 + range.end_⟩ =
        (cut rear range).map (Span.shift (front'.length + 1)) := by
    intro range hlt hle
    have hsame : runesOf rear = runesOf (slice (front' ++ x' :: rear') (front'.length + 1)
        (front' ++ x' :: rear').length) := by
      rw [hdrop]
      exact hrear.symm
    exact h.loc.part hsame (Nat.le_refl _) hlt.le (by omega) (by omega)
  have hcutone : cut (front' ++ x' :: rear') ⟨front'.length, front'.length + 1⟩ =
      [⟨front'.length, front'.length⟩] := by
    have hsame : runesOf [x'] =
        runesOf (slice (front' ++ x' :: rear') front'.length (front'.length + 1)) := by
      rw [hslice]
    have hpart := h.loc.part hsame (by omega) (Nat.zero_le 1) (Nat.le_refl 1) (Nat.le_succ _)
    rwa [h.one] at hpart
  have hzero : forall spans : List Span, spans.map (Span.shift 0) = spans := by
    intro spans
    exact (List.map_congr_left fun s _ => shift_zero s).trans (List.map_id spans)
  unfold rangesOf
  rw [cutRanges_append (hx'.symm ▸ hx), cutRanges_same hfront hcutfront, hzero, hcutone,
    cutRanges_same hrear hcutrear, hlength]
  rfl

/-- The words of a text, as characters. -/
def charWords (symbols_ : List Rune) (cut : List RuneStr -> Range -> List WordRange)
    (cs : List Char) : List (List Char) :=
  (rangesOf symbols_ cut (decoded cs)).map fun wr => wr.of cs

theorem strings_eq_charWords (h : Cutter cut) (cs : List Char) :
    GetStringsFromWords (cutSentence symbols_ cut (Utf8.encodeChars cs)) =
      (charWords symbols_ cut cs).map Utf8.encodeChars := by
  rw [strings_cutSentence symbols_ cut cs fun wr hwr => (h.keeps _).within hwr, charWords,
    List.map_map]
  rfl

theorem charWords_append (h : Cutter cut) (front rear : List Char) {c : Char}
    (hc : runeOf c ∈ symbols_) :
    charWords symbols_ cut (front ++ c :: rear) =
      charWords symbols_ cut front ++ [c] :: charWords symbols_ cut rear := by
  have hrunes : runesOf (decoded (front ++ c :: rear)) =
      runesOf (decoded front) ++ runeOf c :: runesOf (decoded rear) := by
    rw [(decode_encodeChars _).2, (decode_encodeChars front).2, (decode_encodeChars rear).2,
      List.map_append, List.map_cons]
  have hsplit := rangesOf_append (x := ⟨runeOf c, 0, 0, 0, 0⟩) h hc hrunes
  unfold charWords
  rw [hsplit, List.map_append, List.map_cons, length_decoded, List.map_map]
  congr 1
  · refine List.map_congr_left fun wr hwr => ?_
    have hwithin := (h.keeps (decoded front)).within hwr
    rw [length_decoded] at hwithin
    exact slice_append_left _ _ hwithin.2
  · congr 1
    · have hone := slice_append_right front (c :: rear) 0 1
      exact hone
    · refine List.map_congr_left fun wr _ => ?_
      have hrear := slice_append_right (front ++ [c]) rear wr.left (wr.right + 1)
      rw [List.append_assoc, List.length_append] at hrear
      exact hrear

end Words

/-!
## The segmenters
-/

section Segmenters

variable {W : Type} [Double W]

theorem one_of_tiles {spans : List Span} (h : Tiles 0 spans 1) : spans = [⟨0, 0⟩] := by
  cases h with
  | @cons _ r _ rest hle htail =>
      have hr : r = 0 := by
        have hend := htail.le
        omega
      subst hr
      cases htail with
      | nil =>
          rfl
      | @cons _ r' _ _ hle' htail' =>
          have hend := htail'.le
          omega

theorem Cutter.of_covers {cut : List RuneStr -> Range -> List WordRange} (hlocal : Local cut)
    (hcovers : forall runes, Covers runes.length (cut runes)) : Cutter cut where
  loc := hlocal
  keeps := fun runes => (hcovers runes).keeps
  one := fun r => one_of_tiles (hcovers [r] ⟨0, 1⟩ Nat.zero_lt_one (Nat.le_refl 1))

theorem cutter_full (f : FullSegment W) : Cutter f.cutRange where
  loc := local_full f
  keeps := f.cutRange_keeps
  one := by
    intro r
    rw [f.cutRange_eq]
    exact (listAt_eq Nat.zero_lt_one 0 ⟨0, 0, []⟩).1

theorem cutter_query (q : QuerySegment W) (hmm : Bool) : Cutter (q.cutRange hmm) where
  loc := local_query q hmm
  keeps := q.cutRange_keeps hmm
  one := by
    intro r
    have hmix := one_of_tiles (@MixSegment.cutRange_tiles _ _ q.mixSeg_ hmm [r] ⟨0, 1⟩
      (Nat.zero_le 1) (Nat.le_refl 1))
    unfold QuerySegment.cutRange
    rw [hmix]
    rfl

namespace Jieba

/-- Every way in which a sentence can be cut. -/
def allCuts (j : Jieba W) (hmm : Bool) (max_word_len : Nat) : List (CString -> List Word) :=
  [fun s => j.Cut s hmm, j.CutHMM, fun s => j.CutSmall s max_word_len, j.CutAll,
    fun s => j.CutForSearch s hmm]

/-- What holds of a sentence, however it is cut. -/
theorem allCuts_induction {P : (CString -> List Word) -> Prop} (j : Jieba W) (hmm : Bool)
    (max_word_len : Nat)
    (h : forall cut : List RuneStr -> Range -> List WordRange, Cutter cut ->
      P (cutSentence j.symbols_ cut)) :
    forall segment, segment ∈ j.allCuts hmm max_word_len -> P segment := by
  intro segment hsegment
  unfold allCuts at hsegment
  simp only [List.mem_cons, List.not_mem_nil, or_false] at hsegment
  rcases hsegment with rfl | rfl | rfl | rfl | rfl
  · exact h _ (Cutter.of_covers (local_mix j.mix_seg_ hmm) fun runes => j.covers_mix runes hmm)
  · exact h _ (Cutter.of_covers (local_hmm j.hmm_seg_) fun runes => j.covers_hmm runes)
  · exact h _ (Cutter.of_covers (local_mp j.mp_seg_ max_word_len)
      fun runes => j.covers_mp runes max_word_len)
  · exact h _ (cutter_full j.full_seg_)
  · exact h _ (cutter_query j.query_seg_ hmm)

/--
Every segmentation takes the two sides of a separator apart as if each were the whole
text.
-/
theorem cuts_separate (j : Jieba W) (hmm : Bool) (max_word_len : Nat)
    (front rear : List Char) (c : Char) (hc : runeOf c ∈ j.symbols_) :
    forall segment, segment ∈ j.allCuts hmm max_word_len ->
      GetStringsFromWords (segment (Utf8.encodeChars (front ++ c :: rear))) =
        GetStringsFromWords (segment (Utf8.encodeChars front)) ++
          (Utf8.encodeChars [c] ::
            GetStringsFromWords (segment (Utf8.encodeChars rear))) := by
  refine j.allCuts_induction hmm max_word_len ?_
  intro cut hcut
  rw [strings_eq_charWords hcut, strings_eq_charWords hcut, strings_eq_charWords hcut,
    charWords_append hcut front rear hc, List.map_append, List.map_cons]

/-- 中国 国人 -/
theorem cuts_separate_chinese :
    GetStringsFromWords ((create chineseWords pairModel).CutHMM
        (Utf8.encodeChars ['中', '国', ' ', '国', '人'])) =
      GetStringsFromWords ((create chineseWords pairModel).CutHMM
          (Utf8.encodeChars ['中', '国'])) ++
        (Utf8.encodeChars [' '] ::
          GetStringsFromWords ((create chineseWords pairModel).CutHMM
            (Utf8.encodeChars ['国', '人']))) :=
  cuts_separate (create chineseWords pairModel) true 4 ['中', '国'] ['国', '人'] ' ' (by decide)
    _ (List.mem_cons_of_mem _ (List.mem_cons_self ..))

end Jieba

end Segmenters

end Cppjieba
end VoiceTts
