import VoiceTts.Front.QuerySegment
import VoiceTts.Segmenter.FrontEnd
import VoiceTts.Segmenter.Separators

/-!
# The segmenter on characters

The front end is modelled with segmenters that take lists of characters apart.  The
segmenters that work on the runes and the bytes of a sentence return the same words.
-/

namespace VoiceTts
namespace Cppjieba

open Tiling PreFilter

/-!
## Separators
-/

theorem runeOf_injective : Function.Injective runeOf :=
  fun _ _ h => Char.ext (UInt32.toNat_inj.mp h)

theorem mem_separators_iff (c : Char) :
    runeOf c ∈ SPECIAL_SEPARATORS ↔ c ∈ VoiceTts.FullSegment.separators := by
  have hmap : SPECIAL_SEPARATORS = VoiceTts.FullSegment.separators.map runeOf := by
    decide
  rw [hmap]
  exact List.mem_map_of_injective runeOf_injective

/-- A text is built up from texts without separators. -/
theorem separators_induction {P : List Char -> Prop}
    (hfree : forall cs, (forall c, c ∈ cs -> c ∉ VoiceTts.FullSegment.separators) -> P cs)
    (hsep : forall front c rear, c ∈ VoiceTts.FullSegment.separators -> P front -> P rear ->
      P (front ++ c :: rear)) (cs : List Char) : P cs := by
  induction hn : cs.length using Nat.strong_induction_on generalizing cs with
  | _ n ih =>
      by_cases h : forall c, c ∈ cs -> c ∉ VoiceTts.FullSegment.separators
      · exact hfree cs h
      · push Not at h
        rcases h with ⟨c, hc, hmem⟩
        rcases List.append_of_mem hc with ⟨front, rear, rfl⟩
        rw [List.length_append, List.length_cons] at hn
        exact hsep front c rear hmem (ih _ (by omega) front rfl) (ih _ (by omega) rear rfl)

/-- A character goes on with a range: neither of them is a separator. -/
def goesOn (cur : List Char) (c : Char) : Bool :=
  decide (c ∉ VoiceTts.FullSegment.separators ∧
    forall d, d ∈ cur -> d ∉ VoiceTts.FullSegment.separators)

theorem ranges_eq (cs : List Char) :
    VoiceTts.FullSegment.ranges cs = Blocks.blocks goesOn cs :=
  rfl

theorem ranges_append (front rear : List Char) {c : Char}
    (hc : c ∈ VoiceTts.FullSegment.separators) :
    VoiceTts.FullSegment.ranges (front ++ c :: rear) =
      VoiceTts.FullSegment.ranges front ++ [c] :: VoiceTts.FullSegment.ranges rear := by
  have hfront : forall cur, goesOn cur c = false := by
    intro cur
    exact decide_eq_false fun h => h.1 hc
  have hrear : forall a, goesOn [c] a = false := by
    intro a
    exact decide_eq_false fun h => h.2 c (List.mem_singleton_self c) hc
  have hsplit : Blocks.blocks goesOn ([c] ++ rear) =
      Blocks.blocks goesOn [c] ++ Blocks.blocks goesOn rear := by
    refine Blocks.blocks_append ?_
    intro cur hcur a _
    cases hcur
    exact hrear a
  rw [ranges_eq, ranges_eq, ranges_eq, Blocks.blocks_append, ← List.singleton_append, hsplit]
  · rfl
  · intro cur _ a ha
    cases ha
    exact hfront cur

theorem ranges_free {cs : List Char} (hne : cs ≠ [])
    (hfree : forall c, c ∈ cs -> c ∉ VoiceTts.FullSegment.separators) :
    VoiceTts.FullSegment.ranges cs = [cs] := by
  refine Blocks.blocks_single ?_ hne
  intro cur a hcur ha
  rw [decide_eq_true_eq]
  exact ⟨hfree a ha, fun d hd => hfree d (hcur d hd)⟩

theorem charWords_free (cut : List RuneStr -> Range -> List WordRange) {cs : List Char}
    (hne : cs ≠ []) (hfree : forall c, c ∈ cs -> c ∉ VoiceTts.FullSegment.separators) :
    charWords SPECIAL_SEPARATORS cut cs =
      (cut (decoded cs) ⟨0, cs.length⟩).map fun wr => wr.of cs := by
  have hscan : forall (rest : List RuneStr) (begin_ cursor : Nat),
      (forall r, r ∈ rest -> r.rune ∉ SPECIAL_SEPARATORS) ->
      scan SPECIAL_SEPARATORS begin_ cursor rest = cursor + rest.length := by
    intro rest
    induction rest with
    | nil =>
        intro begin_ cursor _
        rfl
    | cons r rest ih =>
        intro begin_ cursor hrest
        rw [scan, if_neg (hrest r (List.mem_cons_self ..)),
          ih _ _ fun q hq => hrest q (List.mem_cons_of_mem _ hq), List.length_cons]
        omega
  have hnone : forall r, r ∈ decoded cs -> r.rune ∉ SPECIAL_SEPARATORS := by
    intro r hr hmem
    have hrune : r.rune ∈ runesOf (decoded cs) := List.mem_map_of_mem hr
    rw [(decode_encodeChars cs).2] at hrune
    rcases List.mem_map.mp hrune with ⟨c, hc, heq⟩
    rw [← heq] at hmem
    exact hfree c hc ((mem_separators_iff c).mp hmem)
  have hlength := length_decoded cs
  have hpos : 0 < (decoded cs).length := by
    rw [hlength]
    exact List.length_pos_iff.mpr hne
  have hnext : Next SPECIAL_SEPARATORS (decoded cs) 0 = ⟨0, cs.length⟩ := by
    unfold Next
    rw [List.drop_zero, hscan _ _ _ hnone, hlength, Nat.zero_add]
  unfold charWords rangesOf
  rw [cutRanges_step hpos, hnext, cutRanges_end (by rw [hlength]), List.append_nil]

/-- A segmentation of the runes, range by range, and one of the characters. -/
theorem charWords_eq_ranges {cut : List RuneStr -> Range -> List WordRange} (h : Cutter cut)
    {cutChars : List Char -> List (List Char)}
    (hcut : forall cs : List Char, (cut (decoded cs) ⟨0, cs.length⟩).map (fun wr => wr.of cs) =
      cutChars cs) (cs : List Char) :
    charWords SPECIAL_SEPARATORS cut cs =
      (VoiceTts.FullSegment.ranges cs).flatMap cutChars := by
  induction cs using separators_induction with
  | hfree cs hfree =>
      by_cases hne : cs = []
      · subst hne
        have hnil : decoded [] = [] := List.length_eq_zero_iff.mp (length_decoded [])
        unfold charWords rangesOf
        rw [hnil, cutRanges_end (show ([] : List RuneStr).length ≤ 0 from Nat.le_refl 0)]
        rfl
      · rw [charWords_free cut hne hfree, hcut, ranges_free hne hfree, List.flatMap_singleton]
  | hsep front c rear hc hfront hrear =>
      have hone : cutChars [c] = [[c]] := by
        rcases List.length_eq_one_iff.mp (length_decoded [c]) with ⟨r, hr⟩
        rw [← hcut, hr, List.length_singleton, h.one]
        rfl
      rw [charWords_append h front rear ((mem_separators_iff c).mpr hc), hfront, hrear,
        ranges_append front rear hc, List.flatMap_append, List.flatMap_cons, hone]
      rfl

/-!
## All words of a text
-/

/-- The words of a dictionary that can be written in characters. -/
def Lists {W : Type} (d : DictTrie W) (dict : List (List Char)) : Prop :=
  forall w : List Char, w ∈ dict ↔ d.Find (w.map runeOf) ≠ none

section Full

variable {W : Type} {d : DictTrie W} {dict : List (List Char)}

theorem isSome_Find (h : Lists d dict) (cs : List Char) (i j : Nat) :
    (d.Find (wordAt (decoded cs) i j)).isSome =
      decide (VoiceTts.FullSegment.slice cs i j ∈ dict) := by
  rw [wordAt_decoded, Bool.eq_iff_iff, decide_eq_true_iff, h, Option.isSome_iff_ne_none]
  rfl

theorem filter_range_between (n lo m : Nat) (p : Nat -> Bool) :
    ((List.range n).filter fun j => decide (lo ≤ j ∧ j < lo + m) && p j) =
      (List.range' lo (min (n - lo) m)).filter p := by
  have hnone : forall s k : Nat, (forall j, s ≤ j -> j < s + k -> ¬ (lo ≤ j ∧ j < lo + m)) ->
      ((List.range' s k).filter fun j => decide (lo ≤ j ∧ j < lo + m) && p j) = [] := by
    intro s k hout
    rw [List.filter_eq_nil_iff]
    intro j hj
    have hbounds := List.mem_range'_1.mp hj
    rw [decide_eq_false (hout j hbounds.1 hbounds.2), Bool.false_and]
    exact Bool.false_ne_true
  rw [List.range_eq_range']
  by_cases hlo : lo ≤ n
  · have hsplit : n = lo + (min (n - lo) m + (n - lo - min (n - lo) m)) := by
      omega
    conv_lhs => rw [hsplit]
    rw [← List.range'_append_1, Nat.zero_add, ← List.range'_append_1, List.filter_append,
      List.filter_append, hnone 0 lo (by omega), hnone (lo + min (n - lo) m) _ (by omega),
      List.nil_append, List.append_nil]
    refine List.filter_congr fun j hj => ?_
    have hbounds := List.mem_range'_1.mp hj
    rw [decide_eq_true (show lo ≤ j ∧ j < lo + m by omega), Bool.true_and]
  · rw [hnone 0 n (by omega), Nat.sub_eq_zero_of_le (by omega), Nat.zero_min]
    rfl

theorem map_filterMap_isSome (f : Nat -> Option (DictUnit W)) (l : List Nat) :
    (l.filterMap fun j => (f j).map fun u => (j, some u)).map
        (fun next => (next.1, next.2.isSome)) =
      (l.filter fun j => (f j).isSome).map fun j => (j, true) := by
  induction l with
  | nil =>
      rfl
  | cons j l ih =>
      cases hj : f j with
      | none =>
          rw [List.filterMap_cons_none (by rw [hj]; rfl),
            List.filter_cons_of_neg (by rw [hj]; exact Bool.false_ne_true), ih]
      | some u =>
          rw [List.filterMap_cons_some (by rw [hj]; rfl), List.filter_cons_of_pos (by rw [hj]; rfl),
            List.map_cons, List.map_cons, ih]
          rfl

theorem nexts_eq (h : Lists d dict) (cs : List Char) (i : Nat) :
    VoiceTts.FullSegment.nexts dict cs i =
      ((i, d.Find (wordAt (decoded cs) i i)) :: longerAt d (decoded cs) i).map
        fun next => (next.1, next.2.isSome) := by
  rw [List.map_cons, VoiceTts.FullSegment.nexts, isSome_Find h]
  congr 1
  unfold longerAt
  rw [map_filterMap_isSome, length_decoded]
  congr 1
  rw [← filter_range_between]
  refine List.filter_congr fun j _ => ?_
  rw [isSome_Find h, ← Bool.decide_and]
  refine decide_eq_decide.mpr ?_
  rw [MAX_WORD_LENGTH]
  constructor
  · rintro ⟨hlt, hlen, hmem⟩
    exact ⟨by omega, hmem⟩
  · rintro ⟨hbounds, hmem⟩
    exact ⟨by omega, by omega, hmem⟩

/-- The variables of the loop with the words as characters. -/
def charState (cs : List Char) (s : FullState) : VoiceTts.FullSegment.State where
  maxIdx := s.maxIdx
  wordLen := s.wordLen
  res := s.res.map fun wr => wr.of cs

theorem step_charState (cs : List Char) (size i : Nat) (s : FullState)
    {next : Nat × Option (DictUnit W)} (hle : i ≤ next.1)
    (hword : forall u, next.2 = some u -> u.word.length = next.1 + 1 - i) :
    VoiceTts.FullSegment.step cs (decide (size = 1)) i (charState cs s)
        (next.1, next.2.isSome) =
      charState cs (fullStep 0 i size s next) := by
  have hpiece : (⟨0 + i, 0 + next.1⟩ : WordRange).of cs =
      VoiceTts.FullSegment.slice cs i next.1 := by
    rw [Nat.zero_add, Nat.zero_add]
    rfl
  unfold VoiceTts.FullSegment.step fullStep charState
  cases hu : next.2 with
  | none =>
      dsimp only [Option.isSome_none]
      simp only [Bool.false_eq_true, if_false]
      split
      · rw [List.map_append, List.map_singleton, hpiece]
      · rfl
  | some u =>
      have hlength : next.1 - i + 1 = u.word.length := by
        rw [hword u hu]
        omega
      dsimp only [Option.isSome_some]
      simp only [if_true, hlength]
      split
      · rw [List.map_append, List.map_singleton, hpiece]
      · rfl

theorem position_charState (h : Lists d dict) {cs : List Char} {i : Nat} (hi : i < cs.length)
    (s : FullState) :
    VoiceTts.FullSegment.position dict cs (charState cs s) i =
      charState cs (listAt d (decoded cs) 0 s i) := by
  have hfold : forall (size : Nat) (nexts : List (Nat × Option (DictUnit W))),
      (forall next, next ∈ nexts -> i ≤ next.1 ∧
        forall u, next.2 = some u -> u.word.length = next.1 + 1 - i) ->
      forall s, (nexts.map fun next => (next.1, next.2.isSome)).foldl
          (VoiceTts.FullSegment.step cs (decide (size = 1)) i) (charState cs s) =
        charState cs (nexts.foldl (fullStep 0 i size) s) := by
    intro size nexts
    induction nexts with
    | nil =>
        intro _ s
        rfl
    | cons next nexts ih =>
        intro hnexts s
        have hnext := hnexts next (List.mem_cons_self ..)
        rw [List.map_cons, List.foldl_cons, List.foldl_cons,
          step_charState cs size i s hnext.1 hnext.2]
        exact ih (fun n hn => hnexts n (List.mem_cons_of_mem _ hn)) _
  unfold VoiceTts.FullSegment.position listAt
  dsimp only
  rw [nexts_eq h, List.length_map]
  refine hfold _ _ ?_ s
  intro next hnext
  rcases List.mem_cons.mp hnext with rfl | hnext
  · refine ⟨Nat.le_refl i, fun u hu => ?_⟩
    dsimp only at hu ⊢
    rw [DictTrie.word_of_Find hu, length_wordAt _ (by rw [length_decoded]; exact hi)]
  · rcases mem_longerAt hnext with ⟨hlt, -, u, hu, hlength⟩
    refine ⟨hlt.le, fun v hv => ?_⟩
    rw [hu, Option.some.injEq] at hv
    rw [← hv, hlength]

theorem full_eq [Zero W] (h : Lists d dict) (symbols_ : List Rune) (cs : List Char) :
    ((⟨symbols_, d⟩ : FullSegment W).cutRange (decoded cs) ⟨0, cs.length⟩).map
        (fun wr => wr.of cs) =
      VoiceTts.FullSegment.cutRange dict cs := by
  have hfold : forall (is : List Nat), (forall i, i ∈ is -> i < cs.length) -> forall s,
      is.foldl (VoiceTts.FullSegment.position dict cs) (charState cs s) =
        charState cs (is.foldl (listAt d (decoded cs) 0) s) := by
    intro is
    induction is with
    | nil =>
        intro _ s
        rfl
    | cons i is ih =>
        intro his s
        rw [List.foldl_cons, List.foldl_cons,
          position_charState h (his i (List.mem_cons_self ..))]
        exact ih (fun k hk => his k (List.mem_cons_of_mem _ hk)) _
  have hrun := hfold (List.range cs.length) (fun i hi => List.mem_range.mp hi) ⟨0, 0, []⟩
  have hlength := length_decoded cs
  rw [FullSegment.cutRange_eq]
  dsimp only
  rw [← hlength, slice_zero, hlength]
  exact (congrArg VoiceTts.FullSegment.State.res hrun).symm

end Full

/-!
## Words for a search
-/

section Query

variable {W : Type} [Double W]

/-- The segmentation for a search, on characters. -/
def QuerySegment.onCharacters (q : QuerySegment W) (hmm : Bool) : VoiceTts.QuerySegment where
  mixSeg_ := fun cs =>
    (q.mixSeg_.cutRange hmm (decoded cs) ⟨0, cs.length⟩).map fun wr => wr.of cs
  Find := fun w => (q.trie_.Find (w.map runeOf)).isSome

theorem mix_tiles (q : QuerySegment W) (hmm : Bool) (cs : List Char) :
    Tiles 0 (q.mixSeg_.cutRange hmm (decoded cs) ⟨0, cs.length⟩) cs.length := by
  have hle : (⟨0, cs.length⟩ : Range).end_ ≤ (decoded cs).length := (length_decoded cs).ge
  exact q.mixSeg_.cutRange_tiles hmm (Nat.zero_le cs.length) hle

theorem partitions_onCharacters (q : QuerySegment W) (hmm : Bool) :
    (q.onCharacters hmm).Partitions where
  flatten := by
    intro cs
    have hflatten := (mix_tiles q hmm cs).flatten_of cs
    rwa [slice_zero] at hflatten
  ne_nil := by
    intro cs w hw
    rcases List.mem_map.mp hw with ⟨wr, hwr, rfl⟩
    have hbounds := (mix_tiles q hmm cs).mem hwr
    exact slice_ne_nil (Nat.lt_succ_of_le hbounds.2.1) hbounds.2.2

section Words

variable {cs : List Char} {wr : WordRange} (hleft : wr.left ≤ wr.right)
  (hright : wr.right < cs.length)

include hleft hright

theorem length_of : (wr.of cs).length = WordRange.Length wr := by
  rw [Span.of, length_slice cs hright, WordRange.Length]
  omega

theorem subwords_of (q : QuerySegment W) (hmm : Bool) {n : Nat} (hn : 0 < n) :
    (subRanges q.trie_ (decoded cs) wr n).map (fun g => g.of cs) =
      (q.onCharacters hmm).subwords n (wr.of cs) := by
  have hpieces : ((List.range (WordRange.Length wr + 1 - n)).map fun i =>
      (⟨wr.left + i, wr.left + i + n - 1⟩ : WordRange)).map (fun g => g.of cs) =
      (List.range (WordRange.Length wr + 1 - n)).map fun i => ((wr.of cs).drop i).take n := by
    rw [List.map_map]
    refine List.map_congr_left fun i hi => ?_
    rw [List.mem_range] at hi
    have hwhole : ((wr.of cs).drop i).take n = slice (wr.of cs) i (i + n) := by
      rw [slice, Nat.add_sub_cancel_left]
    have hend : wr.left + (i + n) ≤ wr.right + 1 := by
      unfold WordRange.Length at hi
      omega
    rw [hwhole, Span.of, slice_slice cs hend, Function.comp_apply, Span.of]
    dsimp only
    congr 1
    omega
  unfold VoiceTts.QuerySegment.subwords subRanges
  rw [length_of hleft hright, ← hpieces]
  generalize (List.range (WordRange.Length wr + 1 - n)).map (fun i =>
    (⟨wr.left + i, wr.left + i + n - 1⟩ : WordRange)) = subs
  rw [List.filter_map]
  congr 1
  refine List.filter_congr fun g _ => ?_
  rw [wordAt_decoded]
  rfl

theorem searchWord_of (q : QuerySegment W) (hmm : Bool) :
    (searchWord q.trie_ (decoded cs) wr).map (fun g => g.of cs) =
      (q.onCharacters hmm).cutWord (wr.of cs) := by
  unfold searchWord VoiceTts.QuerySegment.cutWord
  rw [List.map_append, List.map_append, List.map_singleton, length_of hleft hright]
  congr 2
  · split
    · exact subwords_of hleft hright q hmm (by decide)
    · rfl
  · split
    · exact subwords_of hleft hright q hmm (by decide)
    · rfl

end Words

theorem query_eq (q : QuerySegment W) (hmm : Bool) (cs : List Char) :
    (q.cutRange hmm (decoded cs) ⟨0, cs.length⟩).map (fun wr => wr.of cs) =
      ((q.onCharacters hmm).mixSeg_ cs).flatMap (q.onCharacters hmm).cutWord := by
  unfold QuerySegment.cutRange
  rw [List.map_flatMap]
  change _ = List.flatMap _ (List.map _ _)
  rw [List.flatMap_map]
  refine List.flatMap_congr fun wr hwr => ?_
  have hbounds := (mix_tiles q hmm cs).mem hwr
  exact searchWord_of hbounds.2.1 hbounds.2.2 q hmm

end Query

/-!
## The calls of the front end
-/

section Calls

variable {W : Type} [Double W]

theorem FullSegment_Cut_encodeChars (dict : List (List Char)) (cs : List Char) :
    VoiceTts.FullSegment.Cut dict (Utf8.encodeChars cs) =
      ((VoiceTts.FullSegment.ranges cs).flatMap
        (VoiceTts.FullSegment.cutRange dict)).map Utf8.encodeChars := by
  have hchars : (cs.map fun c => c.val.toNat).map Char.ofNat = cs := by
    rw [List.map_map]
    exact (List.map_congr_left fun c _ => Char.ofNat_toNat c).trans (List.map_id cs)
  unfold VoiceTts.FullSegment.Cut
  rw [PosTagger.decodeRunes_encodeChars]
  dsimp only
  rw [hchars]

/--
`CutAll` and `CutForSearch` of the segmenter are those of the front end's model, which
knows the words of the dictionary and the mixed segmentation of a range.
-/
theorem Jieba.front_on_characters (d : DictTrie W) (model : HMMModel W)
    (dict : List (List Char)) (h : Lists d dict) :
    (forall cs : List Char, (Jieba.create d model).front.CutAll (Utf8.encodeChars cs) =
        VoiceTts.FullSegment.Cut dict (Utf8.encodeChars cs)) ∧
      (forall cs : List Char,
        (Jieba.create d model).front.CutForSearch (Utf8.encodeChars cs) =
          ((Jieba.create d model).query_seg_.onCharacters true).Cut (Utf8.encodeChars cs)) ∧
      ((Jieba.create d model).query_seg_.onCharacters true).Partitions := by
  refine ⟨fun cs => ?_, fun cs => ?_, partitions_onCharacters _ true⟩
  · rw [FullSegment_Cut_encodeChars, ← charWords_eq_ranges (cutter_full ⟨SPECIAL_SEPARATORS, d⟩)
      (full_eq h SPECIAL_SEPARATORS) cs]
    exact strings_eq_charWords (cutter_full _) cs
  · rw [VoiceTts.QuerySegment.Cut_encodeChars, VoiceTts.QuerySegment.mixed, List.flatMap_assoc,
      ← charWords_eq_ranges (cutter_query (Jieba.create d model).query_seg_ true)
        (query_eq (Jieba.create d model).query_seg_ true) cs]
    exact strings_eq_charWords (cutter_query _ true) cs

theorem lists_chineseWords : Lists chineseWords [['中', '国'], ['国', '人']] := by
  intro w
  have hinjective := List.map_injective_iff.mpr runeOf_injective
  have hfirst : w.map runeOf = [0x4e2d, 0x56fd] ↔ w = ['中', '国'] :=
    hinjective.eq_iff' (by decide)
  have hsecond : w.map runeOf = [0x56fd, 0x4eba] ↔ w = ['国', '人'] :=
    hinjective.eq_iff' (by decide)
  have hbare : (DictTrie.bare (100 : Int) (-9) (-5)).Find (w.map runeOf) = none := by
    rw [DictTrie.Find_eq]
    cases w.map runeOf with
    | nil =>
        rfl
    | cons r rest =>
        rfl
  rw [chineseWords, DictTrie.Find_store, chinaWord, DictTrie.Find_store, hbare]
  simp only [hfirst, hsecond, List.mem_cons, List.not_mem_nil, or_false]
  by_cases hw : w = ['中', '国']
  · subst hw
    simp
  · by_cases hw' : w = ['国', '人']
    · subst hw'
      simp
    · simp [hw, hw']

theorem Jieba.front_on_characters_chinese :
    (forall cs : List Char,
        (Jieba.create chineseWords pairModel).front.CutAll (Utf8.encodeChars cs) =
          VoiceTts.FullSegment.Cut [['中', '国'], ['国', '人']] (Utf8.encodeChars cs)) ∧
      (forall cs : List Char,
        (Jieba.create chineseWords pairModel).front.CutForSearch (Utf8.encodeChars cs) =
          ((Jieba.create chineseWords pairModel).query_seg_.onCharacters true).Cut
            (Utf8.encodeChars cs)) ∧
      ((Jieba.create chineseWords pairModel).query_seg_.onCharacters true).Partitions :=
  Jieba.front_on_characters chineseWords pairModel _ lists_chineseWords

end Calls

end Cppjieba
end VoiceTts
