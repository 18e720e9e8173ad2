import VoiceTts.Front.LeftOver
import VoiceTts.Front.Synthesis

/-!
# Tags of the words that `Cut` returns

`Tag` gives the tag `x` to every word without an ASCII character, and the merge
passes hand tags on from a word to the word it becomes part of.  The
exception is a 不 that is left over at the end of the list, which `MergeBu` tags
`d`.
-/

namespace VoiceTts
namespace FrontEngineInterface

open Blocks

/-- A word made of a block of neighbours, with the tag of one of them. -/
def Inherited (b : Seg) (t : CString × CString) : Prop :=
  Joined b t ∧ exists u, u ∈ b ∧ t.2 = u.2

theorem Inherited.trans {bs : List Seg} {cs : Seg} {t : CString × CString}
    (h : Inherited cs t) (hs : List.Forall₂ Inherited bs cs) :
    Inherited bs.flatten t := by
  refine ⟨h.1.trans (hs.imp fun _ _ hb => hb.1), ?_⟩
  rcases h.2 with ⟨u, hu, htag⟩
  rcases exists_of_mem_right hs hu with ⟨b, hb, -, v, hv, htag'⟩
  exact ⟨v, List.mem_flatten.mpr ⟨b, hb, hv⟩, htag.trans htag'⟩

theorem inherited_firstToken {b : Seg} (hb : b ≠ []) : Inherited b (firstToken b) :=
  ⟨joined_firstToken hb, mem_tag_firstToken hb⟩

theorem inherited_lastToken {b : Seg} (hb : b ≠ []) : Inherited b (lastToken b) :=
  ⟨⟨hb, rfl⟩, mem_tag_lastToken hb⟩

theorem inherits_keepTags (l : Seg) : Coarsens Inherited l (keepTags l) :=
  coarsens_blocks buJoin lastToken l fun _ hb =>
    inherited_lastToken (ne_nil_of_mem_blocks hb)

theorem inherits_firstToken (join : Seg -> CString × CString -> Bool) (l : Seg) :
    Coarsens Inherited l ((blocks join l).map firstToken) :=
  coarsens_blocks join firstToken l fun _ hb =>
    inherited_firstToken (ne_nil_of_mem_blocks hb)

theorem inherits_byTones (tones : List CString -> List CString -> Except Error Bool)
    {l : Seg} {finals : List (List CString)}
    (hlen : finals.length = (body l).length) :
    Coarsens Inherited l (byTones tones l finals) := by
  refine ⟨threeBlocks tones l finals, flatten_threeBlocks tones hlen, ?_⟩
  rw [byTones, List.forall₂_map_right_iff, List.forall₂_same]
  intro b hb
  exact inherited_firstToken (ne_nil_of_mem_threeBlocks hb)

theorem tag_of_inherits {l out : Seg} (h : Coarsens Inherited l out)
    {t : CString × CString} (ht : t ∈ out) :
    exists b : Seg, (forall u, u ∈ b -> u ∈ l) ∧ t.1 = text b ∧
      exists u, u ∈ b ∧ t.2 = u.2 := by
  rcases h with ⟨bs, rfl, hrel⟩
  rcases exists_of_mem_right hrel ht with ⟨b, hb, hjoined, htag⟩
  exact ⟨b, fun u hu => List.mem_flatten.mpr ⟨b, hb, hu⟩, hjoined.2, htag⟩

/-!
## Runs of all passes
-/

section Runs

variable {σ : Type} {getFinals : CString -> Prog Error σ (List CString)}

/-- Each pass of a run gives each word the tag of one of its parts. -/
structure Inherits (getFinals : CString -> Prog Error σ (List CString)) (l : Seg)
    (s : σ) : Prop where
  bu : Coarsens Inherited l (MergeBu l)
  yi : forall m, Mergeyi (MergeBu l) = Except.ok m ->
    Coarsens Inherited (MergeBu l) m
  reduplication : forall m, Mergeyi (MergeBu l) = Except.ok m ->
    Coarsens Inherited m (MergeReduplication m)
  threeTones : forall m out s', Mergeyi (MergeBu l) = Except.ok m ->
    MergeThreeTones getFinals (MergeReduplication m) s = (Except.ok out, s') ->
    Coarsens Inherited (MergeReduplication m) out
  threeTones2 : forall m out out2 s' s'', Mergeyi (MergeBu l) = Except.ok m ->
    MergeThreeTones getFinals (MergeReduplication m) s = (Except.ok out, s') ->
    MergeThreeTones2 getFinals out s' = (Except.ok out2, s'') ->
    Coarsens Inherited out out2
  er : forall m out, MergeEr m = Except.ok out -> Coarsens Inherited m out

theorem inherits_mergeThree
    {tones : List CString -> List CString -> Except Error Bool} {l out : Seg}
    {s s' : σ} (h : mergeThree getFinals tones l s = (Except.ok out, s')) :
    Coarsens Inherited l out := by
  rcases mergeThree_ok h with ⟨-, finals, -, hlen, hout⟩
  rw [hout]
  exact inherits_byTones tones hlen

/-- All passes but `MergeBu` hand tags on, whatever they are given. -/
theorem inherits_of_bu {l : Seg} (hverb : NoVerb (MergeBu l))
    (hbu : Coarsens Inherited l (MergeBu l)) (s : σ) :
    Inherits getFinals l s where
  bu := hbu
  yi := by
    intro m hm
    rw [Mergeyi_eq hverb, Except.ok.injEq] at hm
    rw [← hm]
    exact inherits_firstToken yiJoin _
  reduplication := by
    intro m _
    rw [MergeReduplication_eq]
    exact inherits_firstToken redupJoin _
  threeTones := fun _ _ _ _ h => inherits_mergeThree h
  threeTones2 := fun _ _ _ _ _ _ _ h => inherits_mergeThree h
  er := by
    intro m out hm
    rw [MergeEr_eq, Except.ok.injEq] at hm
    rw [← hm]
    exact inherits_firstToken erJoin _

/-- `MergeBu` invents a tag when a 不 is left over, and only then. -/
theorem inherits_MergeBu {l : Seg} (hl : NoEmpty l)
    (htags : forall t, t ∈ l -> CutTag t) :
    Coarsens Inherited l (MergeBu l) ↔ (takes l).1 = false := by
  rcases takes_cases hl with ⟨hfst, hbs, -⟩ | ⟨hfst, pre, u, hbs, hu, hpre, -⟩
  · rw [MergeBu_of_not_left hbs]
    exact ⟨fun _ => hfst, fun _ => inherits_keepTags l⟩
  · rw [hfst]
    constructor
    · intro h
      rw [(MergeBu_of_left hbs hu hpre).1] at h
      rcases tag_of_inherits h (List.mem_append_right _ (List.mem_singleton_self _))
        with ⟨b, hb, -, v, hv, htag⟩
      have hd : str "d" = v.2 := htag
      rcases htags v (hb v hv) with hx | hm | heng
      · rw [hx] at hd
        exact absurd hd (by decide)
      · rw [hm] at hd
        exact absurd hd (by decide)
      · rw [heng] at hd
        exact absurd hd (by decide)
    · intro h
      cases h

/--
The tags at the end of a run: all of them handed on, unless a 不 is left
over that no 一 takes.  That 不 is then the last word, with the tag `d`.
-/
theorem MergeforModify_tags {l out : Seg} {s s' : σ} (hl : NoEmpty l)
    (hverb : NoVerb (MergeBu l))
    (h : MergeforModify getFinals l s = (Except.ok out, s')) :
    (((takes l).1 = true -> (takes l).2 = true) ∧ Coarsens Inherited l out) ∨
      ((takes l).1 = true ∧ (takes l).2 = false ∧
        out.getLast? = some (str "不", str "d")) := by
  rcases MergeforModify_ok hverb h with
    ⟨finals, s1, finals', -, hlen, -, hlen', hout⟩
  have htext : byText l = MergeReduplication (afterYi l) := rfl
  rw [hout]
  rcases afterYi_cases hl with ⟨htakes, hyi⟩ | ⟨hfst, hsnd, m, u, hyi, -, -, -, hm⟩
  · left
    refine ⟨htakes, ?_⟩
    have hyi' : Coarsens Inherited l (afterYi l) := by
      rw [hyi]
      exact (inherits_keepTags l).trans (inherits_firstToken yiJoin (keepTags l))
        fun _ _ _ => Inherited.trans
    have hredup : Coarsens Inherited (afterYi l) (byText l) := by
      rw [htext, MergeReduplication_eq]
      exact inherits_firstToken redupJoin (afterYi l)
    have hthree := inherits_byTones bothToneThree hlen
    have hthree' := inherits_byTones edgeToneThree hlen'
    have her := inherits_firstToken erJoin (byTones edgeToneThree
      (byTones bothToneThree (byText l) finals) finals')
    exact (((hyi'.trans hredup fun _ _ _ => Inherited.trans).trans hthree
      fun _ _ _ => Inherited.trans).trans hthree'
      fun _ _ _ => Inherited.trans).trans her fun _ _ _ => Inherited.trans
  · right
    refine ⟨hfst, hsnd, ?_⟩
    have hbyText : byText l = MergeReduplication m ++ [(str "不", str "d")] := by
      rw [htext, hyi, MergeReduplication_left hm]
    rw [hbyText] at hlen hlen' ⊢
    rcases byTones_left bothToneThree _ hlen with ⟨m1, hm1⟩
    rw [hm1] at hlen' ⊢
    rcases byTones_left edgeToneThree _ hlen' with ⟨m2, hm2⟩
    rw [hm2, MergeEr_left]
    simp

end Runs

end FrontEngineInterface

/-!
## Words without ASCII characters
-/

/-- The text contains no ASCII character. -/
def NonAscii (w : CString) : Prop :=
  forall c, c ∈ w -> 0x80 ≤ c.toNat

instance (w : CString) : Decidable (NonAscii w) :=
  inferInstanceAs (Decidable (forall c, c ∈ w -> 0x80 ≤ c.toNat))

namespace PosTagger

theorem decodeRunes_utf8EncodeChar (c : Char) (rest : CString) :
    DecodeRunesInString (String.utf8EncodeChar c ++ rest) =
      (DecodeRunesInString rest).map (c.val.toNat :: ·) := by
  have hvalid : c.val.toNat < 0xD800 ∨
      (0xDFFF < c.val.toNat ∧ c.val.toNat < 0x110000) := c.valid
  generalize hv : c.val.toNat = v at hvalid
  unfold String.utf8EncodeChar
  simp only [hv]
  split
  · have hb : (UInt8.ofNat v).toNat = v := by
      rw [UInt8.toNat_ofNat']
      omega
    have hlt : v < 0x80 := by omega
    rw [List.cons_append, List.nil_append, DecodeRunesInString.eq_def]
    simp only [hb, hlt, if_true]
  · have htail : forall n, (UInt8.ofNat (n % 64 + 128)).toNat % 64 = n % 64 := by
      intro n
      rw [UInt8.toNat_ofNat']
      omega
    split
    · have hb : (UInt8.ofNat (v / 64 % 32 + 192)).toNat = v / 64 + 192 := by
        rw [UInt8.toNat_ofNat']
        omega
      have h1 : ¬ v / 64 + 192 < 0x80 := by omega
      have h2 : v / 64 + 192 ≤ 0xdf := by omega
      have hsum : (v / 64 + 192) % 32 * 64 + v % 64 = v := by omega
      rw [List.cons_append, List.cons_append, List.nil_append,
        DecodeRunesInString.eq_def]
      simp only [hb, h1, h2, htail, if_true, if_false, hsum]
    · split
      · have hb : (UInt8.ofNat (v / 4096 % 16 + 224)).toNat = v / 4096 + 224 := by
          rw [UInt8.toNat_ofNat']
          omega
        have h1 : ¬ v / 4096 + 224 < 0x80 := by omega
        have h2 : ¬ v / 4096 + 224 ≤ 0xdf := by omega
        have h3 : v / 4096 + 224 ≤ 0xef := by omega
        have hsum : (v / 4096 + 224) % 16 * 4096 + v / 64 % 64 * 64 + v % 64 =
            v := by
          omega
        rw [List.cons_append, List.cons_append, List.cons_append,
          List.nil_append, DecodeRunesInString.eq_def]
        simp only [hb, h1, h2, h3, htail, if_true, if_false, hsum]
      · have hb : (UInt8.ofNat (v / 262144 % 8 + 240)).toNat =
            v / 262144 + 240 := by
          rw [UInt8.toNat_ofNat']
          omega
        have h1 : ¬ v / 262144 + 240 < 0x80 := by omega
        have h2 : ¬ v / 262144 + 240 ≤ 0xdf := by omega
        have h3 : ¬ v / 262144 + 240 ≤ 0xef := by omega
        have h4 : v / 262144 + 240 ≤ 0xf7 := by omega
        have hsum : (v / 262144 + 240) % 8 * 262144 + v / 4096 % 64 * 4096 +
            v / 64 % 64 * 64 + v % 64 = v := by
          omega
        rw [List.cons_append, List.cons_append, List.cons_append,
          List.cons_append, List.nil_append, DecodeRunesInString.eq_def]
        simp only [hb, h1, h2, h3, h4, htail, if_true, if_false, hsum]

theorem decodeRunes_encodeChars (cs : List Char) :
    DecodeRunesInString (Utf8.encodeChars cs) =
      some (cs.map fun c => c.val.toNat) := by
  induction cs with
  | nil =>
      rfl
  | cons c cs ih =>
      rw [Utf8.encodeChars_cons, decodeRunes_utf8EncodeChar, ih]
      rfl

theorem countAscii_nonAscii {half : Nat} {runes : List Nat}
    (h : forall r, r ∈ runes -> 0x80 ≤ r) (acc : Nat × Nat) :
    countAscii half acc runes = acc := by
  induction runes with
  | nil =>
      rfl
  | cons r runes ih =>
      have hr : ¬ r < 0x80 := by
        have := h r (by simp)
        omega
      have hrest := ih fun q hq => h q (by simp [hq])
      unfold countAscii
      split
      · exact hrest
      · rfl

theorem LookupTag_nonAscii {cs : List Char}
    (h : NonAscii (Utf8.encodeChars cs)) :
    LookupTag (Utf8.encodeChars cs) = str "x" := by
  have hrunes : forall r, r ∈ (cs.map fun c => c.val.toNat) -> 0x80 ≤ r := by
    intro r hr
    rcases List.mem_map.mp hr with ⟨c, hc, rfl⟩
    by_contra hlt
    have hle : c.val.toNat ≤ 0x7f := by omega
    have hbyte : String.utf8EncodeChar c = [c.val.toNat.toUInt8] := by
      unfold String.utf8EncodeChar
      simp only [hle, if_true]
    have hmem : c.val.toNat.toUInt8 ∈ Utf8.encodeChars cs := by
      refine List.mem_flatMap.mpr ⟨c, hc, ?_⟩
      rw [hbyte]
      simp
    have hge := h _ hmem
    have hnat : c.val.toNat.toUInt8.toNat = c.val.toNat := by
      change (UInt8.ofNat c.val.toNat).toNat = c.val.toNat
      rw [UInt8.toNat_ofNat']
      omega
    omega
  rw [LookupTag, decodeRunes_encodeChars]
  simp only [SpecialRule, countAscii_nonAscii hrunes, if_true]

theorem LookupTag_cases (w : CString) :
    LookupTag w = str "x" ∨ LookupTag w = str "m" ∨ LookupTag w = str "eng" := by
  unfold LookupTag
  split
  · exact Or.inl rfl
  · unfold SpecialRule
    dsimp only
    split
    · exact Or.inl rfl
    · split
      · exact Or.inr (Or.inl rfl)
      · exact Or.inr (Or.inr rfl)

end PosTagger

namespace FrontEngineInterface

open Blocks

theorem mem_segment {st : Setup} {sentence : CString} {t : CString × CString}
    (ht : t ∈ segment st sentence) :
    t.1 ∈ st._jieba.Cut sentence ∧ t.1 ≠ [] ∧ t.1 ≠ str " " ∧
      t = relabel (t.1, PosTagger.LookupTag t.1) := by
  rcases List.mem_map.mp ht with ⟨u, hu, rfl⟩
  rcases List.mem_map.mp hu with ⟨w, hw, rfl⟩
  have hfst : (relabel (w, PosTagger.LookupTag w)).1 = w := by
    unfold relabel
    split
    · rfl
    · rfl
  rw [List.mem_filter, decide_eq_true_eq] at hw
  rw [hfst]
  exact ⟨hw.1, hw.2.1, hw.2.2, rfl⟩

theorem noEmpty_segment (st : Setup) (sentence : CString) :
    NoEmpty (segment st sentence) :=
  fun _ ht => (mem_segment ht).2.1

theorem cutTag_segment (st : Setup) (sentence : CString) :
    forall t, t ∈ segment st sentence -> CutTag t := by
  intro t ht
  rw [(mem_segment ht).2.2.2]
  unfold relabel CutTag
  split
  · exact Or.inr (Or.inr rfl)
  · exact PosTagger.LookupTag_cases _

theorem tag_segment_nonAscii {st : Setup} {sentence : CString}
    {t : CString × CString} (ht : t ∈ segment st sentence) (hutf8 : Utf8Word t.1)
    (h : NonAscii t.1) : t.2 = str "x" := by
  rcases mem_segment ht with ⟨-, hne, -, heq⟩
  have hletter : IsCheckLetter t.1 = false := by
    rcases List.exists_cons_of_ne_nil hne with ⟨c, w, hw⟩
    have hc := h c (by simp [hw])
    have hnot : isLetter c = false := by
      simp only [isLetter, decide_eq_false_iff_not]
      omega
    simp [IsCheckLetter, hw, hnot]
  have htag : PosTagger.LookupTag t.1 = str "x" := by
    rcases hutf8 with ⟨cs, hcs⟩
    rw [hcs] at h ⊢
    exact PosTagger.LookupTag_nonAscii h
  rw [heq, htag]
  simp [relabel, hletter]

/--
On a sentence whose words are in UTF-8, the words without ASCII characters
that `Cut` returns are all tagged `x` exactly when the segmentation leaves no 不
over that no 一 takes; and every pass hands tags on exactly when no 不 is left
over at all.
-/
theorem Cut_tags (st : Setup)
    (hcut : forall s, Utf8Word s -> forall w, w ∈ st._jieba.Cut s -> Utf8Word w)
    (sentence : CString) (hsentence : Utf8Word sentence)
    (e e' : FrontEngineInterface) (tokens : Seg)
    (h : Cut st sentence e = (Except.ok tokens, e')) :
    ((forall t, t ∈ tokens -> NonAscii t.1 -> t.2 = str "x") ↔
        ((takes (segment st sentence)).1 = true ->
          (takes (segment st sentence)).2 = true)) ∧
      (Inherits (GetFinals st) (segment st sentence) e ↔
        (takes (segment st sentence)).1 = false) := by
  have hne := noEmpty_segment st sentence
  have hverb := noVerb_MergeBu (cutTag_segment st sentence)
  constructor
  · rcases MergeforModify_tags hne hverb h with ⟨htakes, hout⟩ | ⟨hfst, hsnd, hlast⟩
    · refine ⟨fun _ => htakes, ?_⟩
      intro _ t ht hascii
      rcases tag_of_inherits hout ht with ⟨b, hb, htext, u, hu, htag⟩
      have hu' := hb u hu
      have hutf8 := hcut sentence hsentence u.1 (mem_segment hu').1
      rw [htag]
      refine tag_segment_nonAscii hu' hutf8 ?_
      intro c hc
      refine hascii c ?_
      rw [htext]
      exact List.mem_flatten.mpr ⟨u.1, List.mem_map_of_mem hu, hc⟩
    · rw [hfst, hsnd]
      constructor
      · intro hall
        have hx : str "d" = str "x" := hall _ (List.mem_of_getLast? hlast) (by decide)
        exact absurd hx (by decide)
      · intro himp
        exact absurd (himp rfl) (by decide)
  · rw [← inherits_MergeBu hne (cutTag_segment st sentence)]
    exact ⟨fun hrun => hrun.bu, fun hbu => inherits_of_bu hverb hbu e⟩

/-- A segmenter given by a table, and an engine with the words of one sentence. -/
def tableSetup (table : List (CString × List CString)) : Setup where
  _jieba := {
    Cut := fun s => (table.lookup s).getD [s]
    CutAll := fun s => [s]
    CutForSearch := fun s => [s] }
  g2pmodel := fun _ => []
  _seperate_tone := str "false"

def wordEngine (words : List (CString × CString)) : FrontEngineInterface where
  word_phone_map := StdMap.empty.insertAll words
  phone_id_map := StdMap.empty
  tone_id_map := StdMap.empty
  cmu_map := StdMap.empty
  orderdict_map := StdMap.empty

/-- 我不 -/
def refusal : Setup :=
  tableSetup [(str "我不", [str "我", str "不"])]

def refusalEngine : FrontEngineInterface :=
  wordEngine [(str "我", str "uo3"), (str "不", str "b u4")]

theorem refusal_utf8 : forall s, Utf8Word s ->
    forall w, w ∈ refusal._jieba.Cut s -> Utf8Word w := by
  intro s hs w hw
  have hcut : refusal._jieba.Cut s =
      if s = str "我不" then [str "我", str "不"] else [s] := by
    by_cases h : s = str "我不"
    · simp [refusal, tableSetup, List.lookup_cons, h]
    · have hbeq : (s == str "我不") = false := by simpa using h
      simp [refusal, tableSetup, List.lookup_cons, h, hbeq]
  rw [hcut] at hw
  split at hw
  · simp only [List.mem_cons, List.not_mem_nil, or_false] at hw
    rcases hw with rfl | rfl
    · exact ⟨"我".toList, rfl⟩
    · exact ⟨"不".toList, rfl⟩
  · rw [List.mem_singleton.mp hw]
    exact hs

theorem Cut_tags_refusal :
    exists tokens e',
      Cut refusal (str "我不") refusalEngine = (Except.ok tokens, e') ∧
      ((forall t, t ∈ tokens -> NonAscii t.1 -> t.2 = str "x") ↔
        ((takes (segment refusal (str "我不"))).1 = true ->
          (takes (segment refusal (str "我不"))).2 = true)) ∧
      (Inherits (GetFinals refusal) (segment refusal (str "我不")) refusalEngine ↔
        (takes (segment refusal (str "我不"))).1 = false) := by
  have htokens : (Cut refusal (str "我不") refusalEngine).1 =
      Except.ok [(str "我", str "x"), (str "不", str "d")] := by
    decide +kernel
  have hrun : Cut refusal (str "我不") refusalEngine =
      (Except.ok [(str "我", str "x"), (str "不", str "d")],
        (Cut refusal (str "我不") refusalEngine).2) := Prod.ext htokens rfl
  exact ⟨_, _, hrun, Cut_tags refusal refusal_utf8 (str "我不") ⟨"我不".toList, rfl⟩
    refusalEngine _ _ hrun⟩

theorem Cut_left_over_refusal :
    exists tokens e',
      Cut refusal (str "我不") refusalEngine = (Except.ok tokens, e') ∧
      ¬ (forall t, t ∈ tokens -> NonAscii t.1 -> t.2 = str "x") ∧
      ¬ Inherits (GetFinals refusal) (segment refusal (str "我不"))
        refusalEngine := by
  have htokens : (Cut refusal (str "我不") refusalEngine).1 =
      Except.ok [(str "我", str "x"), (str "不", str "d")] := by
    decide +kernel
  refine ⟨_, _, Prod.ext htokens rfl, ?_, ?_⟩
  · decide
  · intro hrun
    have htakes := (inherits_MergeBu (noEmpty_segment refusal (str "我不"))
      (cutTag_segment refusal (str "我不"))).mp hrun.bu
    exact absurd htakes (by decide +kernel)

end FrontEngineInterface
end VoiceTts
