import VoiceTts.Segmenter.MixSegment
import VoiceTts.Segmenter.Words

/-!
# Words for a search

`QuerySegment` lists the words of the mixed segmentation, and before a longer word the
words of two and three runes that the dictionary finds in it.
-/

namespace VoiceTts
namespace Cppjieba

open Tiling PreFilter

variable {W : Type} [Double W]

structure QuerySegment (W : Type) where
  symbols_ : List Rune
  mixSeg_ : MixSegment W
  trie_ : DictTrie W

/-- The words of `n` runes that the dictionary finds in a word. -/
def subRanges (d : DictTrie W) (runes : List RuneStr) (wr : WordRange) (n : Nat) :
    List WordRange :=
  ((List.range (WordRange.Length wr + 1 - n)).map fun i =>
    (⟨wr.left + i, wr.left + i + n - 1⟩ : WordRange)).filter fun g =>
      (d.Find (wordAt runes g.left g.right)).isSome

/-- What is listed for a word of the mixed segmentation. -/
def searchWord (d : DictTrie W) (runes : List RuneStr) (wr : WordRange) : List WordRange :=
  (if 2 < WordRange.Length wr then subRanges d runes wr 2 else []) ++
    (if 3 < WordRange.Length wr then subRanges d runes wr 3 else []) ++ [wr]

namespace QuerySegment

def cutRange (q : QuerySegment W) (hmm : Bool) (runes : List RuneStr) (range : Range) :
    List WordRange :=
  (q.mixSeg_.cutRange hmm runes range).flatMap (searchWord q.trie_ runes)

def Cut (q : QuerySegment W) (hmm : Bool) (sentence : CString) : List Word :=
  cutSentence q.symbols_ (q.cutRange hmm) sentence

end QuerySegment

/-!
## What is listed for a word
-/

section Words

variable {d : DictTrie W} {runes : List RuneStr} {wr g : WordRange}

omit [Double W] in
theorem mem_subRanges {n : Nat} (hn : 0 < n) :
    g ∈ subRanges d runes wr n ↔
      wr.left ≤ g.left ∧ g.left + n ≤ wr.left + WordRange.Length wr ∧
        g.right + 1 = g.left + n ∧ d.Find (wordAt runes g.left g.right) ≠ none := by
  unfold subRanges
  rw [List.mem_filter, List.mem_map, Option.isSome_iff_ne_none]
  constructor
  · rintro ⟨⟨i, hi, rfl⟩, hfind⟩
    rw [List.mem_range] at hi
    dsimp only
    exact ⟨by omega, by omega, by omega, hfind⟩
  · rintro ⟨hleft, hright, hlength, hfind⟩
    refine ⟨⟨g.left - wr.left, List.mem_range.mpr (by omega), ?_⟩, hfind⟩
    cases g with
    | mk left right =>
        rw [Span.mk.injEq]
        dsimp only at hleft hright hlength ⊢
        omega

omit [Double W] in
theorem mem_shorter {n : Nat} (hn : 0 < n) :
    g ∈ (if n < WordRange.Length wr then subRanges d runes wr n else []) ↔
      n < WordRange.Length wr ∧ wr.left ≤ g.left ∧
        g.left + n ≤ wr.left + WordRange.Length wr ∧ g.right + 1 = g.left + n ∧
        d.Find (wordAt runes g.left g.right) ≠ none := by
  rw [← mem_subRanges hn]
  split
  · rename_i hlt
    exact ⟨fun h => ⟨hlt, h⟩, fun h => h.2⟩
  · rename_i hlt
    exact ⟨fun h => absurd h List.not_mem_nil, fun h => absurd h.1 hlt⟩

/-- A word of two or three runes that the dictionary has inside a longer word. -/
structure Sub (d : DictTrie W) (runes : List RuneStr) (wr g : WordRange) : Prop where
  left : wr.left ≤ g.left
  right : g.right ≤ wr.right
  short : WordRange.Length g = 2 ∨ WordRange.Length g = 3
  shorter : WordRange.Length g < WordRange.Length wr
  known : d.Find (wordAt runes g.left g.right) ≠ none

omit [Double W] in
theorem Sub.le (h : Sub d runes wr g) : g.left ≤ g.right := by
  have hshort := h.short
  unfold WordRange.Length at hshort
  omega

omit [Double W] in
theorem mem_searchWord (hlr : wr.left ≤ wr.right) :
    g ∈ searchWord d runes wr ↔ g = wr ∨ Sub d runes wr g := by
  unfold searchWord
  rw [List.mem_append, List.mem_append, List.mem_singleton, mem_shorter (by decide),
    mem_shorter (by decide)]
  unfold WordRange.Length
  constructor
  · rintro ((h | h) | h)
    · exact Or.inr ⟨h.2.1, by omega, Or.inl (by unfold WordRange.Length; omega),
        by unfold WordRange.Length; omega, h.2.2.2.2⟩
    · exact Or.inr ⟨h.2.1, by omega, Or.inr (by unfold WordRange.Length; omega),
        by unfold WordRange.Length; omega, h.2.2.2.2⟩
    · exact Or.inl h
  · rintro (h | h)
    · exact Or.inr h
    · have hshort := h.short
      have hshorter := h.shorter
      have hleft := h.left
      have hright := h.right
      unfold WordRange.Length at hshort hshorter
      rcases hshort with htwo | hthree
      · exact Or.inl (Or.inl ⟨by omega, hleft, by omega, by omega, h.known⟩)
      · exact Or.inl (Or.inr ⟨by omega, hleft, by omega, by omega, h.known⟩)

omit [Double W] in
theorem nodup_subRanges (d : DictTrie W) (runes : List RuneStr) (wr : WordRange) (n : Nat) :
    (subRanges d runes wr n).Nodup := by
  refine List.Nodup.filter _ (List.Nodup.map ?_ List.nodup_range)
  intro i j hij
  have hleft := congrArg Span.left hij
  exact Nat.add_left_cancel hleft

omit [Double W] in
theorem nodup_searchWord (d : DictTrie W) (runes : List RuneStr) (wr : WordRange) :
    (searchWord d runes wr).Nodup := by
  have hshorter : forall n,
      (if n < WordRange.Length wr then subRanges d runes wr n else []).Nodup := by
    intro n
    split
    · exact nodup_subRanges d runes wr n
    · exact List.nodup_nil
  unfold searchWord
  refine List.Nodup.append (List.Nodup.append (hshorter 2) (hshorter 3) ?_)
    (List.nodup_singleton wr) ?_
  · intro g htwo hthree
    have h2 := (mem_shorter (by decide)).mp htwo
    have h3 := (mem_shorter (by decide)).mp hthree
    omega
  · intro g hg hwr
    rw [List.mem_singleton.mp hwr] at hg
    rcases List.mem_append.mp hg with hg | hg
    · have h2 := (mem_shorter (by decide)).mp hg
      unfold WordRange.Length at h2
      omega
    · have h3 := (mem_shorter (by decide)).mp hg
      unfold WordRange.Length at h3
      omega

omit [Double W] in
theorem sublist_searchWord (d : DictTrie W) (runes : List RuneStr) (words : List WordRange) :
    words.Sublist (words.flatMap (searchWord d runes)) := by
  induction words with
  | nil =>
      exact List.Sublist.refl _
  | cons wr words ih =>
      rw [List.flatMap_cons]
      unfold searchWord at ih ⊢
      exact (List.sublist_append_right _ [wr]).append ih

omit [Double W] in
theorem nodup_flatMap_searchWord {i j : Nat} {words : List WordRange}
    (h : Tiles i words j) : (words.flatMap (searchWord d runes)).Nodup := by
  induction h with
  | nil i =>
      exact List.nodup_nil
  | @cons i r j words hir htail ih =>
      rw [List.flatMap_cons]
      refine List.Nodup.append (nodup_searchWord d runes _) ih ?_
      intro g hfirst hrest
      have hleft : g.left ≤ r := by
        rcases (mem_searchWord hir).mp hfirst with rfl | hsub
        · exact hir
        · exact Nat.le_trans hsub.le hsub.right
      rcases List.mem_flatMap.mp hrest with ⟨wr, hwr, hg⟩
      have hbounds := htail.mem hwr
      rcases (mem_searchWord hbounds.2.1).mp hg with rfl | hsub
      · omega
      · have hge := hsub.left
        omega

end Words

namespace QuerySegment

theorem mem_cutRange (q : QuerySegment W) (hmm : Bool) {runes : List RuneStr}
    {range : Range} (hbe : range.begin_ ≤ range.end_) (hle : range.end_ ≤ runes.length)
    {g : WordRange} :
    g ∈ q.cutRange hmm runes range ↔
      exists wr, wr ∈ q.mixSeg_.cutRange hmm runes range ∧
        (g = wr ∨ Sub q.trie_ runes wr g) := by
  have htiles := q.mixSeg_.cutRange_tiles hmm hbe hle
  unfold cutRange
  rw [List.mem_flatMap]
  refine exists_congr fun wr => and_congr_right fun hwr => ?_
  exact mem_searchWord (htiles.mem hwr).2.1

theorem mixed_sublist (q : QuerySegment W) (hmm : Bool) (runes : List RuneStr)
    (range : Range) :
    (q.mixSeg_.cutRange hmm runes range).Sublist (q.cutRange hmm runes range) :=
  sublist_searchWord q.trie_ runes _

theorem cutRange_keeps (q : QuerySegment W) (hmm : Bool) (runes : List RuneStr) :
    Keeps runes.length (q.cutRange hmm runes) := by
  intro range hlt hle g hg
  rcases (q.mem_cutRange hmm hlt.le hle).mp hg with ⟨wr, hwr, hcase⟩
  have hbounds := (q.mixSeg_.cutRange_tiles hmm hlt.le hle).mem hwr
  rcases hcase with rfl | hsub
  · exact hbounds
  · have hleft := hsub.left
    have hright := hsub.right
    exact ⟨by omega, hsub.le, by omega⟩

/--
The words of the mixed segmentation stand in order in the words of a search, which has
no word twice and besides them the shorter words that the dictionary has in them.
-/
theorem lists_mixed_words (q : QuerySegment W) (hmm : Bool) (runes : List RuneStr)
    (range : Range) (hbe : range.begin_ ≤ range.end_) (hle : range.end_ ≤ runes.length) :
    (q.mixSeg_.cutRange hmm runes range).Sublist (q.cutRange hmm runes range) ∧
      (q.cutRange hmm runes range).Nodup ∧
      forall g, g ∈ q.cutRange hmm runes range ↔
        exists wr, wr ∈ q.mixSeg_.cutRange hmm runes range ∧
          (g = wr ∨ Sub q.trie_ runes wr g) :=
  ⟨q.mixed_sublist hmm runes range,
    nodup_flatMap_searchWord (q.mixSeg_.cutRange_tiles hmm hbe hle),
    fun _ => q.mem_cutRange hmm hbe hle⟩

theorem lists_mixed_words_chinese :
    exists q : QuerySegment Int, q.trie_ = chineseWords ∧
      ((q.mixSeg_.cutRange true chinese ⟨0, 3⟩).Sublist (q.cutRange true chinese ⟨0, 3⟩) ∧
        (q.cutRange true chinese ⟨0, 3⟩).Nodup ∧
        forall g, g ∈ q.cutRange true chinese ⟨0, 3⟩ ↔
          exists wr, wr ∈ q.mixSeg_.cutRange true chinese ⟨0, 3⟩ ∧
            (g = wr ∨ Sub q.trie_ chinese wr g)) :=
  ⟨⟨[], ⟨[], ⟨[], chineseWords⟩, ⟨[], pairModel⟩⟩, chineseWords⟩, rfl,
    lists_mixed_words _ true chinese ⟨0, 3⟩ (by decide) (by decide)⟩

end QuerySegment

end Cppjieba
end VoiceTts
