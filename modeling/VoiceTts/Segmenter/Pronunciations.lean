import VoiceTts.Front.Lookups
import VoiceTts.Segmenter.CharacterLevel

/-!
# Words that keep their phones

A word without phones of its own is cut by `CutAll`, and the pieces are in the dictionary
of the front end from then on.  With the segmenter of the front end this changes what a
later word sounds like exactly when the segmenter knows a word that the front end does
not know, and which it takes apart.
-/

namespace VoiceTts

/-!
## Passes over words of one kind
-/

namespace FrontEngineInterface

open Prog Blocks

section Kept

variable {σ : Type} {I : σ -> Prop} {K : CString -> Prop}
  {getFinals : CString -> Prog Error σ (List CString)}

theorem finalsRows_keeps (hget : forall w, K w -> Keeps I (getFinals w)) {l : Seg}
    (hwords : forall t, t ∈ l -> K t.1) : Keeps I (finalsRows getFinals l) := by
  induction l with
  | nil =>
      exact keeps_pure []
  | cons t l ih =>
      have hrow : Keeps I (finalsRow getFinals t) := by
        unfold finalsRow
        split
        · exact hget t.1 (hwords t (List.mem_cons_self ..))
        · exact keeps_pure []
      have hrows := ih fun u hu => hwords u (List.mem_cons_of_mem t hu)
      exact hrow.bind fun row => hrows.bind fun rows => keeps_pure _

theorem mergeThree_keeps (hget : forall w, K w -> Keeps I (getFinals w))
    (tones : List CString -> List CString -> Except Error Bool) {l : Seg}
    (hwords : forall t, t ∈ l -> K t.1) : Keeps I (mergeThree getFinals tones l) := by
  refine (keeps_lift _).bind fun last => ?_
  refine (finalsRows_keeps hget fun t ht => hwords t (List.mem_of_mem_take ht)).bind
    fun finals => ?_
  exact (keeps_lift _).bind fun r => keeps_pure _

/-- What the lookups of words of one kind keep, the merge passes of such words keep. -/
theorem MergeforModify_keeps (happ : forall u v, K u -> K v -> K (u ++ v))
    (hget : forall w, K w -> Keeps I (getFinals w)) {l : Seg} (hverb : NoVerb (MergeBu l))
    (hwords : forall t, t ∈ l -> K t.1) : Keeps I (MergeforModify getFinals l) := by
  have htext := coarsens_byText l
  have hfirst := words_of_coarsens happ htext hwords
  intro s hs
  unfold MergeforModify
  rw [Mergeyi_eq hverb, bind_of_ok (lift_apply _ s)]
  have hkept := mergeThree_keeps hget bothToneThree hfirst s hs
  rcases hrun : mergeThree getFinals bothToneThree (byText l) s with ⟨r, s1⟩
  rw [hrun] at hkept
  have hrun' : MergeThreeTones getFinals
      (MergeReduplication ((yiBlocks (MergeBu l)).map firstToken)) s = (r, s1) := hrun
  cases r with
  | error err =>
      rw [bind_of_error hrun']
      exact hkept
  | ok m1 =>
      rw [bind_of_ok hrun']
      rcases mergeThree_ok hrun with ⟨-, finals, -, hlen, hbyTones⟩
      have hthree := htext.trans (coarsens_byTones bothToneThree hlen) fun _ _ _ => Joined.trans
      rw [← hbyTones] at hthree
      have hsecond := mergeThree_keeps hget edgeToneThree
        (words_of_coarsens happ hthree hwords)
      exact (hsecond.bind fun m2 => keeps_lift _) s1 hkept

end Kept

/-- The calls of an engine whose words and sentences are texts. -/
inductive TextRun (st : Setup) (e0 : FrontEngineInterface) :
    FrontEngineInterface -> Prop where
  | loaded : TextRun st e0 e0
  | GetPhone {e : FrontEngineInterface} (cs : List Char) : TextRun st e0 e ->
      TextRun st e0 (GetPhone st (Utf8.encodeChars cs) e).2
  | GetSentenceIds {e : FrontEngineInterface} (cs : List Char) : TextRun st e0 e ->
      TextRun st e0 (GetSentenceIds st (Utf8.encodeChars cs) e).2

section Calm

variable {st : Setup} {e0 : FrontEngineInterface}

theorem GetWordsIds_keeps_calm
    (hharmless : forall w, Utf8Word w -> Harmless st e0.word_phone_map w) {tokens : Seg}
    (hwords : forall t, t ∈ tokens -> Utf8Word t.1) :
    Keeps (Calm st e0) (GetWordsIds st tokens) := by
  induction tokens with
  | nil =>
      exact keeps_pure _
  | cons t tokens ih =>
      have htoken : Keeps (Calm st e0) (idsOfToken st t) := by
        refine simulates_self.mp (idsOfToken_simulates respected_calm ?_)
        intro w hw
        unfold tokenLookups at hw
        split at hw
        · rw [List.mem_singleton.mp hw]
          exact simulates_self.mpr (GetPhone_calm
            (hharmless t.1 (hwords t (List.mem_cons_self ..))))
        · cases hw
      have hrest := ih fun u hu => hwords u (List.mem_cons_of_mem t hu)
      exact htoken.bind fun r => hrest.bind fun rs => keeps_pure _

/-- If all texts are harmless, a sentence leaves the engine calm. -/
theorem GetSentenceIds_keeps_calm
    (hharmless : forall w, Utf8Word w -> Harmless st e0.word_phone_map w)
    {sentence : CString} (hsentence : forall t, t ∈ segment st sentence -> Utf8Word t.1) :
    Keeps (Calm st e0) (GetSentenceIds st sentence) := by
  have hverb := noVerb_MergeBu (cutTag_segment st sentence)
  have hcut : Keeps (Calm st e0) (Cut st sentence) :=
    MergeforModify_keeps (fun _ _ => Utf8Word.append)
      (fun w hw => GetFinals_calm (hharmless w hw)) hverb hsentence
  intro e he
  have hcalm := hcut e he
  rcases hrun : Cut st sentence e with ⟨r, e1⟩
  rw [hrun] at hcalm
  cases r with
  | error err =>
      rw [GetSentenceIds, bind_of_error hrun]
      exact hcalm
  | ok tokens =>
      rw [GetSentenceIds, bind_of_ok hrun]
      have hcoarsens : Coarsens Joined (segment st sentence) tokens :=
        coarsens_of_ok hverb hrun
      exact GetWordsIds_keeps_calm hharmless
        (words_of_coarsens (fun _ _ => Utf8Word.append) hcoarsens hsentence) e1 hcalm

theorem TextRun.calm (hharmless : forall w, Utf8Word w -> Harmless st e0.word_phone_map w)
    (hsentence : forall cs t, t ∈ segment st (Utf8.encodeChars cs) -> Utf8Word t.1)
    {e : FrontEngineInterface} (h : TextRun st e0 e) : Calm st e0 e := by
  induction h with
  | loaded =>
      exact Similar.refl st e0
  | GetPhone cs _ ih =>
      exact GetPhone_calm (hharmless _ ⟨cs, rfl⟩) _ ih
  | GetSentenceIds cs _ ih =>
      exact GetSentenceIds_keeps_calm hharmless (hsentence cs) _ ih

end Calm

end FrontEngineInterface

/-!
## The words of the segmenter
-/

namespace Cppjieba

open Tiling PreFilter FrontEngineInterface

variable {W : Type} [Double W]

def fullPieces (d : DictTrie W) (cs : List Char) : List (List Char) :=
  charWords SPECIAL_SEPARATORS (FullSegment.cutRange ⟨SPECIAL_SEPARATORS, d⟩) cs

theorem front_CutAll (d : DictTrie W) (model : HMMModel W) (cs : List Char) :
    (Jieba.create d model).front.CutAll (Utf8.encodeChars cs) =
      (fullPieces d cs).map Utf8.encodeChars :=
  strings_eq_charWords (cutter_full _) cs

/-- A word of two or more characters that the segmenter can find in a text. -/
structure Findable (d : DictTrie W) (ps : List Char) : Prop where
  free : forall c, c ∈ ps -> c ∉ VoiceTts.FullSegment.separators
  longer : 2 ≤ ps.length
  length : ps.length ≤ MAX_WORD_LENGTH
  known : d.Find (ps.map runeOf) ≠ none

theorem charWords_nil (symbols_ : List Rune) (cut : List RuneStr -> Range -> List WordRange) :
    charWords symbols_ cut [] = [] := by
  have hend : (decoded []).length ≤ 0 := (length_decoded []).le
  rw [charWords, rangesOf, cutRanges_end hend]
  rfl

theorem fullPieces_single (d : DictTrie W) (c : Char) : fullPieces d [c] = [[c]] := by
  unfold fullPieces
  by_cases hc : c ∈ VoiceTts.FullSegment.separators
  · have happend := charWords_append (cutter_full ⟨SPECIAL_SEPARATORS, d⟩) [] []
      ((mem_separators_iff c).mpr hc)
    rw [charWords_nil] at happend
    exact happend
  · have hfree : forall x, x ∈ [c] -> x ∉ VoiceTts.FullSegment.separators := by
      intro x hx
      rw [List.mem_singleton.mp hx]
      exact hc
    rw [charWords_free _ (List.cons_ne_nil c []) hfree]
    rcases List.length_eq_one_iff.mp (length_decoded [c]) with ⟨r, hr⟩
    rw [hr]
    exact congrArg (List.map fun wr : WordRange => wr.of [c]) ((cutter_full _).one r)

theorem mem_fullPieces {d : DictTrie W} {cs ps : List Char} (h : ps ∈ fullPieces d cs) :
    (exists c, ps = [c]) ∨ Findable d ps := by
  rcases List.mem_map.mp h with ⟨wr, hwr, rfl⟩
  have hkeeps := FullSegment.cutRange_keeps ⟨SPECIAL_SEPARATORS, d⟩ (decoded cs)
  have hwithin := hkeeps.within hwr
  have halone := (piece_of_keeps cs hkeeps hwr).alone
  rcases mem_cutRanges hwr with ⟨range, -, hle, -, hmem⟩
  have hlonger := (FullSegment.mem_cutRange ⟨SPECIAL_SEPARATORS, d⟩ (decoded cs) range hle
    hmem).2
  have hlength : (wr.of cs).length = wr.right + 1 - wr.left := by
    have hcs := length_decoded cs
    exact length_slice cs (by omega)
  by_cases hlr : wr.left = wr.right
  · left
    exact List.length_eq_one_iff.mp (by omega)
  · right
    have hword := hlonger (by omega)
    have hmax := hword.length
    unfold WordRange.Length at hmax
    refine ⟨?_, by omega, by omega, ?_⟩
    · intro c hc hsep
      rw [halone c hc ((mem_separators_iff c).mpr hsep), List.length_singleton] at hlength
      omega
    · have hknown := hword.known
      rw [wordAt_decoded] at hknown
      exact hknown

theorem Findable.mem {d : DictTrie W} {ps : List Char} (h : Findable d ps) :
    ps ∈ fullPieces d ps := by
  have hlonger := h.longer
  have hlength := length_decoded ps
  have hne : ps ≠ [] := by
    rintro rfl
    exact absurd hlonger (by decide)
  have hwhole : Span.of ⟨0, ps.length - 1⟩ ps = ps := by
    have hlast : ps.length - 1 + 1 = ps.length := by
      omega
    rw [Span.of, hlast, slice_zero]
  have hword : LongerWord d (decoded ps) ⟨0, ps.length⟩ ⟨0, ps.length - 1⟩ := by
    refine ⟨Nat.le_refl 0, ?_, ?_, ?_, ?_⟩
    · show 0 < ps.length - 1
      omega
    · show ps.length - 1 < ps.length
      omega
    · have hmax := h.length
      show ps.length - 1 - 0 + 1 ≤ MAX_WORD_LENGTH
      omega
    · rw [wordAt_decoded]
      change d.Find ((Span.of ⟨0, ps.length - 1⟩ ps).map runeOf) ≠ none
      rw [hwhole]
      exact h.known
  have hmem : (⟨0, ps.length - 1⟩ : WordRange) ∈
      FullSegment.cutRange ⟨SPECIAL_SEPARATORS, d⟩ (decoded ps) ⟨0, ps.length⟩ := by
    have hlt := hword.longer
    rw [FullSegment.cutRange_upTo, mem_upTo_longer (Nat.ne_of_lt hlt)]
    exact (longerWord_iff d hlength.ge _).mp hword
  unfold fullPieces
  rw [charWords_free _ hne h.free]
  exact List.mem_map.mpr ⟨_, hmem, hwhole⟩

/-!
## Words that change
-/

/--
A word that the segmenter finds and takes apart, and that the front end does not know.
-/
structure Exposed (d : DictTrie W) (m : StdMap CString CString) (ps : List Char) : Prop where
  findable : Findable d ps
  unknown : m.contains (Utf8.encodeChars ps) = false
  parted : fullPieces d ps ≠ [ps]

section Stable

variable {d : DictTrie W} {model : HMMModel W} {st : Setup}

/-- A piece that the front end does not know stays as it is when it is cut again. -/
theorem mute_piece (hst : st._jieba = (Jieba.create d model).front)
    {m : StdMap CString CString} (hnone : forall ps, ¬ Exposed d m ps) {cs ps : List Char}
    (hps : ps ∈ fullPieces d cs) :
    m.contains (Utf8.encodeChars ps) = true ∨ Mute st m (Utf8.encodeChars ps) := by
  by_cases hknown : m.contains (Utf8.encodeChars ps) = true
  · exact Or.inl hknown
  · right
    have hunknown := Bool.eq_false_of_not_eq_true hknown
    have hself : fullPieces d ps = [ps] := by
      rcases mem_fullPieces hps with ⟨c, rfl⟩ | hfindable
      · exact fullPieces_single d c
      · by_contra hparted
        exact hnone ps ⟨hfindable, hunknown, hparted⟩
    refine ⟨fun w => w = Utf8.encodeChars ps, rfl, ?_⟩
    rintro w rfl
    refine ⟨Utf8.encodeChars ps, ?_, StdMap.peek_of_not_contains hunknown, Or.inr rfl⟩
    rw [hst, front_CutAll, hself]
    rfl

theorem harmless_text (hst : st._jieba = (Jieba.create d model).front)
    {m : StdMap CString CString} (hnone : forall ps, ¬ Exposed d m ps) {w : CString}
    (hw : Utf8Word w) : Harmless st m w := by
  rcases hw with ⟨cs, rfl⟩
  right
  intro piece hpiece
  rw [hst, front_CutAll] at hpiece
  rcases List.mem_map.mp hpiece with ⟨ps, hps, rfl⟩
  exact mute_piece hst hnone hps

theorem utf8_segment (hst : st._jieba = (Jieba.create d model).front) (cs : List Char)
    (t : CString × CString) (ht : t ∈ segment st (Utf8.encodeChars cs)) : Utf8Word t.1 := by
  have hmem := (mem_segment ht).1
  rcases (Jieba.create d model).front_Cut cs with ⟨parts, hcut, -, -⟩
  rw [hst, hcut] at hmem
  rcases List.mem_map.mp hmem with ⟨ps, -, heq⟩
  exact ⟨ps, heq.symm⟩

theorem appendPhones_eq_nil {phone : CString} {wordcut : List CString}
    {e : FrontEngineInterface} (h : (appendPhones phone wordcut e).1 = Except.ok []) :
    phone = [] ∧ wordcut = [] := by
  induction wordcut generalizing phone e with
  | nil =>
      exact ⟨Except.ok.inj h, rfl⟩
  | cons piece wordcut ih =>
      have hphone := (ih h).1
      rw [List.append_eq_nil_iff] at hphone
      exact absurd (List.append_eq_nil_iff.mp hphone.2).1 (by decide)

theorem phoneOfPieces_ne_nil {wordcut : List CString} (hlong : 2 ≤ wordcut.length)
    (e : FrontEngineInterface) : (phoneOfPieces wordcut e).1 ≠ Except.ok [] := by
  intro h
  cases wordcut with
  | nil =>
      exact absurd hlong (by decide)
  | cons piece rest =>
      rw [(appendPhones_eq_nil h).2, List.length_singleton] at hlong
      exact absurd hlong (by decide)

/--
Whatever texts were looked up and read before, every text sounds as it did when the
engine was loaded: this holds exactly when no word that the segmenter finds and takes
apart is missing from the dictionary of the front end.
-/
theorem pronunciations_last (d : DictTrie W) (model : HMMModel W) (st : Setup)
    (hst : st._jieba = (Jieba.create d model).front) (e0 : FrontEngineInterface) :
    (forall e, TextRun st e0 e -> forall cs,
        (GetPhone st (Utf8.encodeChars cs) e).1 = (GetPhone st (Utf8.encodeChars cs) e0).1 ∧
        (GetSentenceIds st (Utf8.encodeChars cs) e).1 =
          (GetSentenceIds st (Utf8.encodeChars cs) e0).1) ↔
      forall ps, ¬ Exposed d e0.word_phone_map ps := by
  constructor
  · intro h ps hexposed
    have hmem : Utf8.encodeChars ps ∈ st._jieba.CutAll (Utf8.encodeChars ps) := by
      rw [hst, front_CutAll]
      exact List.mem_map_of_mem hexposed.findable.mem
    have hsilent := GetPhone_silences hexposed.unknown hmem hexposed.unknown
    rw [(h _ (TextRun.GetPhone ps TextRun.loaded) ps).1,
      GetPhone_of_not_contains hexposed.unknown] at hsilent
    refine phoneOfPieces_ne_nil ?_ e0 hsilent
    rw [hst, front_CutAll, List.length_map]
    by_contra hshort
    refine hexposed.parted ?_
    have hself := hexposed.findable.mem
    match hpieces : fullPieces d ps with
    | [] =>
        rw [hpieces] at hself
        cases hself
    | [qs] =>
        rw [hpieces] at hself
        rw [List.mem_singleton.mp hself]
    | _ :: _ :: _ =>
        rw [hpieces] at hshort
        exact absurd (Nat.le_add_left 2 _) hshort
  · intro hnone e hrun cs
    have hcalm := hrun.calm (fun w hw => harmless_text hst hnone hw) (utf8_segment hst)
    exact ⟨(GetPhone_simulates _ e e0 hcalm).1,
      (GetSentenceIds_simulates respected_similar GetPhone_simulates _ e e0 hcalm).1⟩

end Stable

/-- A front end that knows 中国 and 国人. -/
def chineseEngine : FrontEngineInterface :=
  wordEngine [(str "中国", str "zh ong1 g uo2"), (str "国人", str "g uo2 r en2")]

/-- 中国 is read as before after 人 has been looked up. -/
theorem pronunciations_last_chinese :
    (GetPhone chineseSetup (Utf8.encodeChars ['中', '国'])
        (GetPhone chineseSetup (Utf8.encodeChars ['人']) chineseEngine).2).1 =
        (GetPhone chineseSetup (Utf8.encodeChars ['中', '国']) chineseEngine).1 ∧
      (GetSentenceIds chineseSetup (Utf8.encodeChars ['中', '国'])
        (GetPhone chineseSetup (Utf8.encodeChars ['人']) chineseEngine).2).1 =
        (GetSentenceIds chineseSetup (Utf8.encodeChars ['中', '国']) chineseEngine).1 := by
  have hnone : forall ps, ¬ Exposed chineseWords chineseEngine.word_phone_map ps := by
    intro ps hexposed
    have hunknown := hexposed.unknown
    rcases List.mem_pair.mp ((lists_chineseWords ps).mpr hexposed.findable.known) with rfl | rfl
    · exact absurd hunknown (by decide)
    · exact absurd hunknown (by decide)
  exact (pronunciations_last chineseWords pairModel chineseSetup rfl chineseEngine).mpr hnone _
    (TextRun.GetPhone ['人'] TextRun.loaded) ['中', '国']

end Cppjieba
end VoiceTts
