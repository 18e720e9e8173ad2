import VoiceTts.Front.Parts
import VoiceTts.Front.SplitWords
import VoiceTts.Segmenter.Jieba

/-!
# The front end with its segmenter

The results about the front end take the segmenter as it comes and say what they need of
it.  All of that holds of the segmenter with any dictionary and any model, as long as
the text is in UTF-8.
-/

namespace VoiceTts
namespace Cppjieba

open Tiling PreFilter FrontEngineInterface

/-!
## Pieces of a text
-/

/-- A piece of a text, in which a separator stands alone. -/
structure Piece (symbols_ : List Rune) (cs ps : List Char) : Prop where
  ne_nil : ps ≠ []
  within : ps <:+: cs
  alone : forall c, c ∈ ps -> runeOf c ∈ symbols_ -> ps = [c]

section Pieces

variable {symbols_ : List Rune} {cut : List RuneStr -> Range -> List WordRange}

theorem piece_of_keeps (cs : List Char) (hkeeps : Keeps (decoded cs).length (cut (decoded cs)))
    {wr : WordRange} (hwr : wr ∈ cutRanges symbols_ (decoded cs) (cut (decoded cs)) 0) :
    Piece symbols_ cs (wr.of cs) := by
  have hwithin := hkeeps.within hwr
  have hlength := length_decoded cs
  have hrunes : wordAt (decoded cs) wr.left wr.right = (wr.of cs).map runeOf :=
    wordAt_decoded cs wr.left wr.right
  refine ⟨?_, ?_, ?_⟩
  · exact slice_ne_nil (Nat.lt_succ_of_le hwithin.1) (by omega)
  · exact (List.take_prefix _ _).isInfix.trans (List.drop_suffix _ _).isInfix
  · intro c hc hsymbol
    have halone := hkeeps.alone hwr (runeOf c)
    rw [hrunes] at halone
    have hone := congrArg List.length (halone (List.mem_map_of_mem hc) hsymbol)
    rw [List.length_map, List.length_singleton] at hone
    rcases List.length_eq_one_iff.mp hone with ⟨d, hd⟩
    rw [hd] at hc ⊢
    rw [List.mem_singleton.mp hc]

theorem pieces_of_covers (hcovers : forall runes, Covers runes.length (cut runes))
    (cs : List Char) :
    exists parts : List (List Char),
      GetStringsFromWords (cutSentence symbols_ cut (Utf8.encodeChars cs)) =
        parts.map Utf8.encodeChars ∧
      parts.flatten = cs ∧ forall ps, ps ∈ parts -> Piece symbols_ cs ps := by
  refine ⟨(cutRanges symbols_ (decoded cs) (cut (decoded cs)) 0).map fun wr => wr.of cs,
    ?_, ?_, ?_⟩
  · rw [strings_cutSentence symbols_ cut cs fun wr hwr => (hcovers _).keeps.within hwr,
      List.map_map]
    rfl
  · rw [(cutRanges_tiles (hcovers (decoded cs))).flatten_of cs, length_decoded, slice_zero]
  · intro ps hps
    rcases List.mem_map.mp hps with ⟨wr, hwr, rfl⟩
    exact piece_of_keeps cs (hcovers _).keeps hwr

end Pieces

variable {W : Type} [Double W]

namespace Jieba

theorem front_Cut (j : Jieba W) (cs : List Char) :
    exists parts : List (List Char),
      j.front.Cut (Utf8.encodeChars cs) = parts.map Utf8.encodeChars ∧
      parts.flatten = cs ∧ forall ps, ps ∈ parts -> Piece j.symbols_ cs ps :=
  pieces_of_covers (fun runes => j.covers_mix runes true) cs

end Jieba

/-!
## Segmentations of the front end
-/

section Segmentation

variable {j : Jieba W} {st : Setup}

theorem text_segment_eq (st : Setup) (sentence : CString) :
    text (FrontEngineInterface.segment st sentence) =
      ((st._jieba.Cut sentence).filter fun word =>
        decide (word ≠ [] ∧ word ≠ str " ")).flatten := by
  have hfst : forall t : CString × CString, (relabel t).1 = t.1 := by
    intro t
    unfold relabel
    split_ifs <;> rfl
  unfold text FrontEngineInterface.segment PosTagger.Tag
  rw [List.map_map, List.map_map]
  congr 1
  refine (List.map_congr_left fun w _ => ?_).trans (List.map_id _)
  exact hfst _

theorem flatten_skipped {symbols_ : List Rune} (hblank : 32 ∈ symbols_) {cs : List Char}
    (parts : List (List Char)) (hparts : forall ps, ps ∈ parts -> Piece symbols_ cs ps) :
    ((parts.map Utf8.encodeChars).filter fun word =>
        decide (word ≠ [] ∧ word ≠ str " ")).flatten =
      Utf8.encodeChars (parts.flatten.filter fun c => decide (c ≠ ' ')) := by
  induction parts with
  | nil =>
      rfl
  | cons ps parts ih =>
      have hpiece := hparts ps (List.mem_cons_self ..)
      have hrest := ih fun qs hqs => hparts qs (List.mem_cons_of_mem _ hqs)
      rw [List.map_cons, List.flatten_cons, List.filter_append, Utf8.encodeChars_append,
        ← hrest]
      by_cases hmem : ' ' ∈ ps
      · rw [hpiece.alone ' ' hmem hblank]
        rfl
      · have hne : Utf8.encodeChars ps ≠ str " " := by
          intro heq
          have hps : ps = [' '] := Utf8.encodeChars_injective heq
          rw [hps] at hmem
          exact hmem (List.mem_singleton_self _)
        have hkeep : ps.filter (fun c => decide (c ≠ ' ')) = ps := by
          rw [List.filter_eq_self]
          intro c hc
          rw [decide_eq_true_eq]
          rintro rfl
          exact hmem hc
        have hnil := encodeChars_eq_nil.not.mpr hpiece.ne_nil
        rw [List.filter_cons_of_pos (by simp [hne, hnil]), List.flatten_cons, hkeep]

theorem text_segment (hst : st._jieba = j.front) (hblank : 32 ∈ j.symbols_)
    (cs : List Char) :
    text (FrontEngineInterface.segment st (Utf8.encodeChars cs)) =
      Utf8.encodeChars (cs.filter fun c => decide (c ≠ ' ')) := by
  rcases j.front_Cut cs with ⟨parts, hcut, hflatten, hparts⟩
  rw [text_segment_eq, hst, hcut, flatten_skipped hblank parts hparts, hflatten]

theorem segment_ne_nil_iff (hst : st._jieba = j.front) (hblank : 32 ∈ j.symbols_)
    (cs : List Char) :
    FrontEngineInterface.segment st (Utf8.encodeChars cs) ≠ [] ↔ exists c, c ∈ cs ∧ c ≠ ' ' := by
  have htext := text_segment hst hblank cs
  constructor
  · intro hne
    rcases List.exists_mem_of_ne_nil _ hne with ⟨t, ht⟩
    have hnonempty : Utf8.encodeChars (cs.filter fun c => decide (c ≠ ' ')) ≠ [] := by
      rw [← htext]
      intro hnil
      exact noEmpty_segment st _ t ht
        (List.flatten_eq_nil_iff.mp hnil t.1 (List.mem_map_of_mem ht))
    rcases List.exists_mem_of_ne_nil _ (encodeChars_eq_nil.not.mp hnonempty) with ⟨c, hc⟩
    rw [List.mem_filter, decide_eq_true_eq] at hc
    exact ⟨c, hc⟩
  · rintro ⟨c, hc, hne⟩ hnil
    rw [hnil] at htext
    have hmem : c ∈ cs.filter fun c => decide (c ≠ ' ') := by
      rw [List.mem_filter, decide_eq_true_eq]
      exact ⟨hc, hne⟩
    rw [encodeChars_eq_nil.mp htext.symm] at hmem
    cases hmem

/--
The merge passes of a sentence stay inside their containers exactly when it has a
character that is no blank, and the words that they return make up the sentence
without its blanks.
-/
theorem Cut_keeps_text (j : Jieba W) (st : Setup) (hst : st._jieba = j.front)
    (hblank : 32 ∈ j.symbols_) (cs : List Char) (e : FrontEngineInterface) :
    (MergesSafely st (Utf8.encodeChars cs) e ↔ exists c, c ∈ cs ∧ c ≠ ' ') ∧
      forall out e', FrontEngineInterface.Cut st (Utf8.encodeChars cs) e =
          (Except.ok out, e') ->
        text out = Utf8.encodeChars (cs.filter fun c => decide (c ≠ ' ')) := by
  constructor
  · rw [mergesSafely_iff, segment_ne_nil_iff hst hblank]
  · intro out e' hrun
    have hverb := noVerb_MergeBu (cutTag_segment st (Utf8.encodeChars cs))
    rw [text_of_coarsens (coarsens_of_ok hverb hrun), text_segment hst hblank]

end Segmentation

/-- A front engine with the segmenter for 中国 and 国人. -/
def chineseSetup : Setup where
  _jieba := (Jieba.create chineseWords pairModel).front
  g2pmodel := fun _ => []
  _seperate_tone := str "false"

def deniedEngine : FrontEngineInterface :=
  wordEngine [(str "不中国", str "b u4 zh ong1 g uo2")]

/-- The blank of 不 中国 is left out, and `MergeBu` joins the words around it. -/
theorem Cut_keeps_text_country :
    MergesSafely chineseSetup (Utf8.encodeChars ['不', ' ', '中', '国']) deniedEngine ∧
      (FrontEngineInterface.Cut chineseSetup (Utf8.encodeChars ['不', ' ', '中', '国'])
        deniedEngine).1 = Except.ok [(str "不中国", str "x")] ∧
      forall out e', FrontEngineInterface.Cut chineseSetup
          (Utf8.encodeChars ['不', ' ', '中', '国']) deniedEngine = (Except.ok out, e') ->
        text out = Utf8.encodeChars (['不', ' ', '中', '国'].filter fun c =>
          decide (c ≠ ' ')) := by
  have hkeeps := Cut_keeps_text (Jieba.create chineseWords pairModel) chineseSetup rfl
    (by decide) ['不', ' ', '中', '国'] deniedEngine
  have hsegment : FrontEngineInterface.segment chineseSetup
      (Utf8.encodeChars ['不', ' ', '中', '国']) = [(str "不", str "x"), (str "中国", str "x")] := by
    decide +kernel
  refine ⟨hkeeps.1.mpr ⟨'不', by decide, by decide⟩, ?_, hkeeps.2⟩
  unfold FrontEngineInterface.Cut
  rw [hsegment]
  decide +kernel

end Cppjieba
end VoiceTts
