import VoiceTts.Segmenter.FullSegment
import VoiceTts.Segmenter.QuerySegment

/-!
# The segmenter as a whole

`Jieba` owns a dictionary and a model and hands them to five segmenters, which cut a
sentence range by range.  Whatever the dictionary and the model have in them, the words
of `Cut`, `CutHMM` and `CutSmall` follow one another through the sentence.
-/

namespace VoiceTts
namespace Cppjieba

open Tiling PreFilter

variable {W : Type} [Double W]

/-!
## The segmenters together
-/

/-- The loop of `ResetSeparators`; it stops at a rune that is there already. -/
def insertSymbols : List Rune -> List Rune -> Bool × List Rune
  | symbols_, [] => (true, symbols_)
  | symbols_, r :: runes =>
      if r ∈ symbols_ then (false, symbols_) else insertSymbols (symbols_ ++ [r]) runes

def ResetSeparators (s : CString) : Bool × List Rune :=
  match DecodeRunesInString s with
  | none => (false, [])
  | some runes => insertSymbols [] (runesOf runes)

/-- The runes of `SPECIAL_SEPARATORS`: blank, tab, line feed, `，` and `。`. -/
def SPECIAL_SEPARATORS : List Rune :=
  [32, 9, 10, 0xFF0C, 0x3002]

structure Jieba (W : Type) where
  dict_trie_ : DictTrie W
  model_ : HMMModel W
  symbols_ : List Rune

namespace Jieba

/-- The segmenters of the constructor have the special separators. -/
def create (dict_trie_ : DictTrie W) (model_ : HMMModel W) : Jieba W where
  dict_trie_ := dict_trie_
  model_ := model_
  symbols_ := SPECIAL_SEPARATORS

def mp_seg_ (j : Jieba W) : MPSegment W where
  symbols_ := j.symbols_
  dictTrie_ := j.dict_trie_

def hmm_seg_ (j : Jieba W) : HMMSegment W where
  symbols_ := j.symbols_
  model_ := j.model_

/-- The two segmenters inside keep their own separators, which are never read. -/
def mix_seg_ (j : Jieba W) : MixSegment W where
  symbols_ := j.symbols_
  mpSeg_ := ⟨SPECIAL_SEPARATORS, j.dict_trie_⟩
  hmmSeg_ := ⟨SPECIAL_SEPARATORS, j.model_⟩

def full_seg_ (j : Jieba W) : FullSegment W where
  symbols_ := j.symbols_
  dictTrie_ := j.dict_trie_

def query_seg_ (j : Jieba W) : QuerySegment W where
  symbols_ := j.symbols_
  mixSeg_ := (create j.dict_trie_ j.model_).mix_seg_
  trie_ := j.dict_trie_

def Cut (j : Jieba W) (sentence : CString) (hmm : Bool) : List Word :=
  j.mix_seg_.Cut hmm sentence

def CutAll (j : Jieba W) (sentence : CString) : List Word :=
  j.full_seg_.Cut sentence

def CutForSearch (j : Jieba W) (sentence : CString) (hmm : Bool) : List Word :=
  j.query_seg_.Cut hmm sentence

def CutHMM (j : Jieba W) (sentence : CString) : List Word :=
  j.hmm_seg_.Cut sentence

def CutSmall (j : Jieba W) (sentence : CString) (max_word_len : Nat) : List Word :=
  j.mp_seg_.Cut sentence max_word_len

/-- `Jieba::ResetSeparators` ignores what the segmenters return. -/
def resetSeparators (j : Jieba W) (s : CString) : Jieba W :=
  { j with symbols_ := (ResetSeparators s).2 }

theorem mem_insertSymbols {r : Rune} (symbols_ runes : List Rune) :
    r ∈ (insertSymbols symbols_ runes).2 ↔ r ∈ symbols_ ∨
      exists pre post, runes = pre ++ r :: post ∧ (pre ++ [r]).Nodup ∧
        forall x, x ∈ pre ++ [r] -> x ∉ symbols_ := by
  induction runes generalizing symbols_ with
  | nil =>
      simp [insertSymbols]
  | cons x runes ih =>
      rw [insertSymbols]
      by_cases hx : x ∈ symbols_
      · rw [if_pos hx]
        refine ⟨Or.inl, ?_⟩
        rintro (hr | ⟨pre, post, heq, -, hfresh⟩)
        · exact hr
        · cases pre with
          | nil =>
              cases heq
              exact absurd hx (hfresh r (List.mem_singleton_self r))
          | cons y pre =>
              cases heq
              exact absurd hx (hfresh x (List.mem_cons_self ..))
      · rw [if_neg hx, ih]
        constructor
        · rintro (hr | ⟨pre, post, rfl, hnodup, hfresh⟩)
          · rcases List.mem_append.mp hr with hr | hr
            · exact Or.inl hr
            · cases List.mem_singleton.mp hr
              exact Or.inr ⟨[], runes, rfl, List.nodup_singleton r, by simpa using hx⟩
          · refine Or.inr ⟨x :: pre, post, rfl, ?_, ?_⟩
            · refine List.nodup_cons.mpr ⟨fun hmem => ?_, hnodup⟩
              exact hfresh x hmem (List.mem_append_right _ (List.mem_singleton_self x))
            · intro y hy
              rcases List.mem_cons.mp hy with rfl | hy
              · exact hx
              · exact fun hmem => hfresh y hy (List.mem_append_left _ hmem)
        · rintro (hr | ⟨pre, post, heq, hnodup, hfresh⟩)
          · exact Or.inl (List.mem_append_left _ hr)
          · cases pre with
            | nil =>
                cases heq
                exact Or.inl (List.mem_append_right _ (List.mem_singleton_self r))
            | cons y pre =>
                cases heq
                have hnodup := List.nodup_cons.mp hnodup
                refine Or.inr ⟨pre, post, rfl, hnodup.2, fun y hy hmem => ?_⟩
                rcases List.mem_append.mp hmem with hmem | hmem
                · exact hfresh y (List.mem_cons_of_mem _ hy) hmem
                · cases List.mem_singleton.mp hmem
                  exact hnodup.1 hy

omit [Double W] in
/-- The new separators are the runes in front of the first one that is there twice. -/
theorem mem_symbols_resetSeparators (j : Jieba W) (s : CString) {r : Rune} :
    r ∈ (j.resetSeparators s).symbols_ ↔ exists pre post,
      PosTagger.DecodeRunesInString s = some (pre ++ r :: post) ∧ (pre ++ [r]).Nodup := by
  rw [← map_rune_DecodeRunesInString]
  unfold resetSeparators ResetSeparators
  cases DecodeRunesInString s with
  | none =>
      simp
  | some runes =>
      simp [mem_insertSymbols, runesOf]

/-- The segmenter as the front end calls it, with the model. -/
def front (j : Jieba W) : VoiceTts.Jieba where
  Cut := fun s => GetStringsFromWords (j.Cut s true)
  CutAll := fun s => GetStringsFromWords (j.CutAll s)
  CutForSearch := fun s => GetStringsFromWords (j.CutForSearch s true)

/-!
## Nothing is lost
-/

section Cuts

variable (j : Jieba W) (runes : List RuneStr)

theorem covers_mix (hmm : Bool) : Covers runes.length (j.mix_seg_.cutRange hmm runes) := by
  intro range hlt hle
  exact j.mix_seg_.cutRange_tiles hmm hlt.le hle

theorem covers_hmm : Covers runes.length (j.hmm_seg_.cutRange runes) := by
  intro range hlt hle
  exact (j.hmm_seg_.cutRange_spec runes range hlt.le hle).1

theorem covers_mp (max_word_len : Nat) :
    Covers runes.length (j.mp_seg_.cutRange max_word_len runes) := by
  intro range hlt hle
  exact (j.mp_seg_.cutRange_tiles max_word_len runes range hlt.le hle).1

end Cuts

/-- The segmentations that leave nothing out. -/
def wholeCuts (j : Jieba W) (s : CString) (hmm : Bool) (max_word_len : Nat) :
    List (List Word) :=
  [j.Cut s hmm, j.CutHMM s, j.CutSmall s max_word_len]

/-- What holds of a sentence that is cut by ranges, however that is done. -/
theorem wholeCuts_induction {P : List Word -> Prop} (j : Jieba W) (s : CString)
    (hmm : Bool) (max_word_len : Nat)
    (h : forall cut : List RuneStr -> Range -> List WordRange,
      (forall runes, Covers runes.length (cut runes)) -> P (cutSentence j.symbols_ cut s)) :
    forall words, words ∈ j.wholeCuts s hmm max_word_len -> P words := by
  intro words hwords
  unfold wholeCuts at hwords
  simp only [List.mem_cons, List.not_mem_nil, or_false] at hwords
  rcases hwords with rfl | rfl | rfl
  · exact h _ fun runes => j.covers_mix runes hmm
  · exact h _ fun runes => j.covers_hmm runes
  · exact h _ fun runes => j.covers_mp runes max_word_len

theorem follows_of_covers {s : CString} {symbols_ : List Rune}
    {cut : List RuneStr -> Range -> List WordRange}
    (hcovers : forall runes, Covers runes.length (cut runes)) :
    (DecodeRunesInString s = none ∧ cutSentence symbols_ cut s = []) ∨
      Follows 0 0 s (cutSentence symbols_ cut s) := by
  cases h : DecodeRunesInString s with
  | none =>
      exact Or.inl ⟨rfl, cutSentence_failed h⟩
  | some runes =>
      exact Or.inr (cutSentence_follows h (hcovers runes))

/--
Every sentence that can be decoded is cut into words that follow one another from its
first byte to its last, with their places among bytes and runes; of the others no word
is left.
-/
theorem cuts_follow (j : Jieba W) (s : CString) (hmm : Bool) (max_word_len : Nat) :
    forall words, words ∈ j.wholeCuts s hmm max_word_len ->
      (DecodeRunesInString s = none ∧ words = []) ∨ Follows 0 0 s words :=
  j.wholeCuts_induction s hmm max_word_len fun _ hcovers => follows_of_covers hcovers

/-- 中国 -/
theorem cuts_follow_country :
    (DecodeRunesInString (str "中国") = none ∧
        (create chineseWords pairModel).Cut (str "中国") true = []) ∨
      Follows 0 0 (str "中国") ((create chineseWords pairModel).Cut (str "中国") true) :=
  cuts_follow (create chineseWords pairModel) (str "中国") true 4 _ (List.mem_cons_self ..)

/-- The segmentations that list words more than once. -/
def listingCuts (j : Jieba W) (s : CString) (hmm : Bool) : List (List Word) :=
  [j.CutAll s, j.CutForSearch s hmm]

/-- What can be said of every word of a sentence with the runes `rs`. -/
def WordOf (symbols_ : List Rune) (rs : List Rune) (w : CString) : Prop :=
  exists word, PosTagger.DecodeRunesInString w = some word ∧ word ≠ [] ∧ word <:+: rs ∧
    Alone symbols_ word

theorem wordOf_of_keeps {s : CString} {symbols_ : List Rune}
    {cut : List RuneStr -> Range -> List WordRange}
    (hkeeps : forall runes, Keeps runes.length (cut runes)) {w : CString}
    (hw : w ∈ GetStringsFromWords (cutSentence symbols_ cut s)) :
    exists rs, PosTagger.DecodeRunesInString s = some rs ∧ WordOf symbols_ rs w := by
  cases h : DecodeRunesInString s with
  | none =>
      rw [cutSentence_failed h] at hw
      cases hw
  | some runes =>
      refine ⟨runesOf runes, ?_, words_of_keeps h (hkeeps runes) hw⟩
      rw [← map_rune_DecodeRunesInString, h]
      rfl

/--
Every word that any segmentation returns is a piece of the sentence that can be decoded
on its own, and a separator is never put together with anything else.
-/
theorem cuts_words (j : Jieba W) (s : CString) (hmm : Bool) (max_word_len : Nat) :
    forall words, words ∈ j.wholeCuts s hmm max_word_len ++ j.listingCuts s hmm ->
      forall w, w ∈ GetStringsFromWords words ->
        exists rs, PosTagger.DecodeRunesInString s = some rs ∧ WordOf j.symbols_ rs w := by
  intro words hwords w hw
  rcases List.mem_append.mp hwords with hwhole | hlisting
  · refine j.wholeCuts_induction s hmm max_word_len
      (P := fun words => w ∈ GetStringsFromWords words -> exists rs,
        PosTagger.DecodeRunesInString s = some rs ∧ WordOf j.symbols_ rs w) ?_ words hwhole hw
    intro cut hcovers hmem
    exact wordOf_of_keeps (fun runes => (hcovers runes).keeps) hmem
  · unfold listingCuts at hlisting
    simp only [List.mem_cons, List.not_mem_nil, or_false] at hlisting
    rcases hlisting with rfl | rfl
    · exact wordOf_of_keeps (fun runes => j.full_seg_.cutRange_keeps runes) hw
    · exact wordOf_of_keeps (fun runes => j.query_seg_.cutRange_keeps hmm runes) hw

theorem cuts_words_country :
    exists rs, PosTagger.DecodeRunesInString (str "中国") = some rs ∧
      WordOf SPECIAL_SEPARATORS rs (str "中国") := by
  have hword : str "中国" ∈ GetStringsFromWords
      ((create chineseWords pairModel).Cut (str "中国") true) := by
    decide +kernel
  exact cuts_words (create chineseWords pairModel) (str "中国") true 4 _
    (List.mem_append_left _ (List.mem_cons_self ..)) _ hword

/-!
## With and without the model
-/

theorem mem_cutSentence {s : CString} {runes : List RuneStr} {symbols_ : List Rune}
    {cut : List RuneStr -> Range -> List WordRange} (h : DecodeRunesInString s = some runes)
    {w : Word} :
    w ∈ cutSentence symbols_ cut s ↔
      exists wr, wr ∈ cutRanges symbols_ runes (cut runes) 0 ∧
        GetWordFromRunes s (runes.getD wr.left default) (runes.getD wr.right default) = w := by
  unfold cutSentence GetWordsFromWordRanges
  rw [h, Option.getD_some, List.mem_map]

theorem place_of_word {s : CString} {runes : List RuneStr} {symbols_ : List Rune}
    {cut : Range -> List WordRange} (h : DecodeRunesInString s = some runes)
    (hkeeps : Keeps runes.length cut) {wr : WordRange}
    (hwr : wr ∈ cutRanges symbols_ runes cut 0) {w : Word}
    (hw : GetWordFromRunes s (runes.getD wr.left default) (runes.getD wr.right default) = w) :
    w.unicode_offset = wr.left ∧ w.unicode_length = WordRange.Length wr := by
  have hwithin := hkeeps.within hwr
  rw [← hw, (laid_decodeFrom h).word_eq hwithin.1 hwithin.2]
  exact ⟨rfl, rfl⟩

/--
With the model every word of more than one rune stays, and the other words are made of
runes that are words of their own without it.
-/
theorem Cut_mixed (j : Jieba W) (s : CString) :
    (forall w, w ∈ j.Cut s false -> 1 < w.unicode_length -> w ∈ j.Cut s true) ∧
      forall w, w ∈ j.Cut s true -> w ∈ j.Cut s false ∨
        forall k, w.unicode_offset ≤ k -> k < w.unicode_offset + w.unicode_length ->
          exists v, v ∈ j.Cut s false ∧ v.unicode_offset = k ∧ v.unicode_length = 1 := by
  cases h : DecodeRunesInString s with
  | none =>
      have hnil : forall hmm, j.Cut s hmm = [] := fun hmm => cutSentence_failed h
      rw [hnil, hnil]
      exact ⟨fun w hw => absurd hw List.not_mem_nil, fun w hw => absurd hw List.not_mem_nil⟩
  | some runes =>
      rcases exists_ranges j.symbols_ runes (Nat.zero_le _) with ⟨ranges, hranges, hflat⟩
      have hcut : forall hmm w, w ∈ j.Cut s hmm ↔ exists wr,
          wr ∈ ranges.flatMap (j.mix_seg_.cutRange hmm runes) ∧
            GetWordFromRunes s (runes.getD wr.left default)
              (runes.getD wr.right default) = w := by
        intro hmm w
        rw [← hflat]
        exact mem_cutSentence h
      have hplace : forall hmm wr, wr ∈ ranges.flatMap (j.mix_seg_.cutRange hmm runes) ->
          forall w, GetWordFromRunes s (runes.getD wr.left default)
            (runes.getD wr.right default) = w ->
          w.unicode_offset = wr.left ∧ w.unicode_length = WordRange.Length wr := by
        intro hmm wr hwr w hw
        rw [← hflat] at hwr
        exact place_of_word h (j.covers_mix runes hmm).keeps hwr hw
      constructor
      · intro w hw hlong
        rcases (hcut false w).mp hw with ⟨wr, hwr, hword⟩
        have hlength := (hplace false wr hwr w hword).2
        rcases List.mem_flatMap.mp hwr with ⟨range, hrange, hmem⟩
        have hbounds := hranges range hrange
        refine (hcut true w).mpr ⟨wr, List.mem_flatMap.mpr ⟨range, hrange, ?_⟩, hword⟩
        refine (j.mix_seg_.cutRange_mixed hbounds.1.le hbounds.2.1).1 wr hmem ?_
        rw [hlength, WordRange.Length] at hlong
        omega
      · intro w hw
        rcases (hcut true w).mp hw with ⟨wr, hwr, hword⟩
        have hwplace := hplace true wr hwr w hword
        rcases List.mem_flatMap.mp hwr with ⟨range, hrange, hmem⟩
        have hbounds := hranges range hrange
        rcases (j.mix_seg_.cutRange_mixed hbounds.1.le hbounds.2.1).2 wr hmem with
          hkept | ⟨-, hsingles⟩
        · exact Or.inl ((hcut false w).mpr
            ⟨wr, List.mem_flatMap.mpr ⟨range, hrange, hkept⟩, hword⟩)
        · right
          intro k hleft hright
          rw [hwplace.1] at hleft hright
          rw [hwplace.2, WordRange.Length] at hright
          have hwithin := (j.covers_mix runes true).keeps range hbounds.1 hbounds.2.1 wr hmem
          have hsingle := List.mem_flatMap.mpr ⟨range, hrange, hsingles k hleft (by omega)⟩
          have hvplace := hplace false _ hsingle _ rfl
          exact ⟨_, (hcut false _).mpr ⟨_, hsingle, rfl⟩, hvplace.1,
            hvplace.2.trans (by rw [WordRange.Length, Nat.sub_self])⟩

/-!
## Words of letters and digits
-/

/-- A word of letters and digits, one of digits and dots, another ASCII rune, or none. -/
def Kind (word : List Rune) : Prop :=
  (exists r rest, word = r :: rest ∧ isLetter r = true ∧
      forall x, x ∈ rest -> (isLetter x || isDigit x) = true) ∨
    (exists r rest, word = r :: rest ∧ isDigit r = true ∧
      forall x, x ∈ rest -> (isDigit x || x == 46) = true) ∨
    (exists r, word = [r] ∧ r < 0x80 ∧ isLetter r = false ∧ isDigit r = false) ∨
    forall r, r ∈ word -> 0x80 ≤ r

theorem wordAt_cons {runes : List RuneStr} {wr : WordRange} (hlr : wr.left ≤ wr.right)
    (hr : wr.right < runes.length) :
    wordAt runes wr.left wr.right =
      runeAt runes wr.left :: runesOf (slice runes (wr.left + 1) (wr.right + 1)) := by
  have hget := List.getElem?_eq_getElem (Nat.lt_of_le_of_lt hlr hr)
  rw [wordAt, slice_cons hget (Nat.lt_succ_of_le hlr), runesOf, List.map_cons,
    runeAt_of_getElem? hget]

theorem exists_of_mem_runesOf {runes : List RuneStr} {l r : Nat} (hr : r ≤ runes.length)
    {x : Rune} (h : x ∈ runesOf (slice runes l r)) :
    exists k, l ≤ k ∧ k < r ∧ x = runeAt runes k := by
  rcases List.mem_map.mp h with ⟨q, hq, rfl⟩
  rcases List.getElem?_of_mem hq with ⟨i, hi⟩
  have hlt := (List.getElem?_eq_some_iff.mp hi).1
  rw [length_slice runes hr] at hlt
  rw [getElem?_slice runes (by omega)] at hi
  exact ⟨l + i, Nat.le_add_right l i, by omega, (runeAt_of_getElem? hi).symm⟩

theorem kind_of_munch {first further : Rune -> Bool} {runes : List RuneStr} {end_ : Nat}
    {wr : WordRange} (h : Munch first further runes end_ wr) (hlr : wr.left ≤ wr.right)
    (hr : wr.right < runes.length) :
    exists r rest, wordAt runes wr.left wr.right = r :: rest ∧ first r = true ∧
      forall x, x ∈ rest -> further x = true := by
  refine ⟨_, _, wordAt_cons hlr hr, h.begins, ?_⟩
  intro x hx
  rcases exists_of_mem_runesOf hr hx with ⟨k, hl, hk, rfl⟩
  exact h.continues k hl (Nat.le_of_lt_succ hk)

/-- The words of the model never mix ASCII runes with others. -/
theorem CutHMM_kinds (j : Jieba W) (s : CString) :
    forall w, w ∈ GetStringsFromWords (j.CutHMM s) ->
      exists word, PosTagger.DecodeRunesInString w = some word ∧ Kind word := by
  intro w hw
  rcases List.mem_map.mp hw with ⟨v, hv, rfl⟩
  cases h : DecodeRunesInString s with
  | none =>
      have hnil : j.CutHMM s = [] := cutSentence_failed h
      rw [hnil] at hv
      cases hv
  | some runes =>
      rcases (mem_cutSentence h).mp hv with ⟨wr, hwr, rfl⟩
      have hwithin := (j.covers_hmm runes).keeps.within hwr
      refine ⟨_, decode_word h hwithin.1 hwithin.2, ?_⟩
      rcases mem_cutRanges hwr with ⟨range, hlt, hle, -, hmem⟩
      rcases (j.hmm_seg_.cutRange_spec runes range hlt.le hle).2 wr hmem with
        (hletters | hdigits | hother) | hplain
      · exact Or.inl (kind_of_munch hletters hwithin.1 hwithin.2)
      · exact Or.inr (Or.inl (kind_of_munch hdigits hwithin.1 hwithin.2))
      · refine Or.inr (Or.inr (Or.inl ⟨runeAt runes wr.left, ?_, hother.2⟩))
        rw [wordAt_cons hwithin.1 hwithin.2, hother.1, slice_self]
        rfl
      · refine Or.inr (Or.inr (Or.inr ?_))
        intro r hr
        rcases exists_of_mem_runesOf hwithin.2 hr with ⟨k, hl, hk, rfl⟩
        exact hplain k hl (Nat.le_of_lt_succ hk)

theorem CutHMM_kinds_letter :
    exists word, PosTagger.DecodeRunesInString (str "a1") = some word ∧ Kind word := by
  have hword : str "a1" ∈ GetStringsFromWords
      ((create chineseWords pairModel).CutHMM (str "a1")) := by
    decide +kernel
  exact CutHMM_kinds (create chineseWords pairModel) (str "a1") _ hword

end Jieba

end Cppjieba
end VoiceTts
