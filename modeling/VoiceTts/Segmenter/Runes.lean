import VoiceTts.Front.Tags
import VoiceTts.Lib.Tiling

/-!
# Runes and words

The segmenter works on an array of runes.  Each rune keeps the bytes that it was
decoded from, so that a range of runes can be turned back into a piece of the
sentence.  A sentence is cut range by range, where `PreFilter` keeps separators
apart; what a segmenter does to a range is a parameter here.
-/

namespace VoiceTts
namespace Cppjieba

open Tiling

abbrev Rune : Type := Nat

structure Word where
  word : CString
  offset : Nat
  unicode_offset : Nat
  unicode_length : Nat
deriving DecidableEq, Repr

structure RuneStr where
  rune : Rune
  offset : Nat
  len : Nat
  unicode_offset : Nat
  unicode_length : Nat
deriving DecidableEq, Repr

instance : Inhabited RuneStr where
  default := ⟨0, 0, 0, 0, 0⟩

/-- A range of runes, both ends included. -/
abbrev WordRange : Type := Span

def WordRange.Length (wr : WordRange) : Nat :=
  wr.right - wr.left + 1

structure RuneStrLite where
  rune : Rune
  len : Nat
deriving DecidableEq, Repr

/-- The six bits of a continuation byte. -/
def sixBits (bytes : CString) (i : Nat) : Nat :=
  (bytes.getD i 0).toNat % 64

/-- The first rune of a byte string; its length is 0 when the sequence is cut short. -/
def DecodeRuneInString : CString -> RuneStrLite
  | [] => ⟨0, 0⟩
  | b :: rest =>
      if b.toNat < 0x80 then ⟨b.toNat, 1⟩
      else if b.toNat ≤ 0xdf ∧ 0 < rest.length then
        ⟨b.toNat % 32 * 64 + sixBits rest 0, 2⟩
      else if b.toNat ≤ 0xef ∧ 1 < rest.length then
        ⟨b.toNat % 16 * 4096 + sixBits rest 0 * 64 + sixBits rest 1, 3⟩
      else if b.toNat ≤ 0xf7 ∧ 2 < rest.length then
        ⟨b.toNat % 8 * 262144 + sixBits rest 0 * 4096 + sixBits rest 1 * 64 +
          sixBits rest 2, 4⟩
      else ⟨0, 0⟩

/-- The loop of `DecodeRunesInString` at byte `i` and rune `j`. -/
def decodeFrom (i j : Nat) (s : CString) : Option (List RuneStr) :=
  if hs : s = [] then some []
  else
    let rp := DecodeRuneInString s
    if hlen : rp.len = 0 then none
    else
      (decodeFrom (i + rp.len) (j + 1) (s.drop rp.len)).map
        (⟨rp.rune, i, rp.len, j, 1⟩ :: ·)
termination_by s.length
decreasing_by
  have hpos := List.length_pos_iff.mpr hs
  have hne : (DecodeRuneInString s).len ≠ 0 := hlen
  rw [List.length_drop]
  omega

def DecodeRunesInString (s : CString) : Option (List RuneStr) :=
  decodeFrom 0 0 s

/-- The piece of a sentence from one rune to another one. -/
def GetWordFromRunes (s : CString) (left right : RuneStr) : Word :=
  let len := right.offset - left.offset + right.len
  { word := (s.drop left.offset).take len
    offset := left.offset
    unicode_offset := left.unicode_offset
    unicode_length := right.unicode_offset - left.unicode_offset + right.unicode_length }

def GetWordsFromWordRanges (s : CString) (runes : List RuneStr) (wrs : List WordRange) :
    List Word :=
  wrs.map fun wr =>
    GetWordFromRunes s (runes.getD wr.left default) (runes.getD wr.right default)

def GetStringsFromWords (words : List Word) : List CString :=
  words.map Word.word

/-!
## Ranges between separators
-/

namespace PreFilter

structure Range where
  begin_ : Nat
  end_ : Nat
deriving DecidableEq, Repr

/-- The loop of `Next` with the runes from `cursor` on; the result is the end. -/
def scan (symbols_ : List Rune) (begin_ : Nat) : Nat -> List RuneStr -> Nat
  | cursor, [] => cursor
  | cursor, r :: rest =>
      if r.rune ∈ symbols_ then (if begin_ = cursor then cursor + 1 else cursor)
      else scan symbols_ begin_ (cursor + 1) rest

/-- The next range; the cursor moves to its end. -/
def Next (symbols_ : List Rune) (sentence_ : List RuneStr) (cursor_ : Nat) : Range where
  begin_ := cursor_
  end_ := scan symbols_ cursor_ cursor_ (sentence_.drop cursor_)

theorem scan_bounds (symbols_ : List Rune) {begin_ cursor : Nat} (rest : List RuneStr)
    (h : begin_ < cursor) :
    cursor ≤ scan symbols_ begin_ cursor rest ∧
      scan symbols_ begin_ cursor rest ≤ cursor + rest.length := by
  induction rest generalizing cursor with
  | nil =>
      exact ⟨Nat.le_refl cursor, Nat.le_refl cursor⟩
  | cons r rest ih =>
      unfold scan
      split
      · rw [if_neg (by omega)]
        exact ⟨Nat.le_refl cursor, Nat.le_add_right cursor _⟩
      · have hrest := @ih (cursor + 1) (by omega)
        rw [List.length_cons]
        omega

theorem Next_bounds (symbols_ : List Rune) {sentence_ : List RuneStr} {cursor_ : Nat}
    (h : cursor_ < sentence_.length) :
    cursor_ < (Next symbols_ sentence_ cursor_).end_ ∧
      (Next symbols_ sentence_ cursor_).end_ ≤ sentence_.length := by
  unfold Next
  dsimp only
  rw [List.drop_eq_getElem_cons h]
  unfold scan
  split
  · rw [if_pos rfl]
    exact ⟨Nat.lt_succ_self cursor_, h⟩
  · have hrest := @scan_bounds symbols_ cursor_ (cursor_ + 1)
      (sentence_.drop (cursor_ + 1)) (Nat.lt_succ_self cursor_)
    rw [List.length_drop] at hrest
    omega

theorem not_mem_of_scan (symbols_ : List Rune) {begin_ cursor : Nat} (rest : List RuneStr)
    (h : begin_ < cursor) :
    forall r, r ∈ rest.take (scan symbols_ begin_ cursor rest - cursor) ->
      r.rune ∉ symbols_ := by
  induction rest generalizing cursor with
  | nil =>
      simp
  | cons r rest ih =>
      intro q hq
      unfold scan at hq
      split at hq
      · rw [if_neg (by omega), Nat.sub_self, List.take_zero] at hq
        cases hq
      · rename_i hr
        have hlt : begin_ < cursor + 1 := Nat.lt_succ_of_lt h
        have hrest := (scan_bounds symbols_ rest hlt).1
        have hsub : scan symbols_ begin_ (cursor + 1) rest - cursor =
            (scan symbols_ begin_ (cursor + 1) rest - (cursor + 1)) + 1 := by
          omega
        rw [hsub, List.take_succ_cons] at hq
        rcases List.mem_cons.mp hq with rfl | hq
        · exact hr
        · exact ih hlt q hq

/-- A range that has a separator in it has nothing else. -/
def Apart (symbols_ : List Rune) (runes : List RuneStr) (range : Range) : Prop :=
  forall r, r ∈ slice runes range.begin_ range.end_ -> r.rune ∈ symbols_ ->
    range.end_ = range.begin_ + 1

theorem Next_apart (symbols_ : List Rune) {sentence_ : List RuneStr} {cursor_ : Nat}
    (h : cursor_ < sentence_.length) :
    Apart symbols_ sentence_ (Next symbols_ sentence_ cursor_) := by
  intro r hr hsymbol
  unfold slice at hr
  unfold Next at hr ⊢
  dsimp only at hr ⊢
  rw [List.drop_eq_getElem_cons h] at hr ⊢
  unfold scan at hr ⊢
  split
  · rw [if_pos rfl]
  · rename_i hfirst
    rw [if_neg hfirst] at hr
    have hlt : cursor_ < cursor_ + 1 := Nat.lt_succ_self cursor_
    have hrest := (scan_bounds symbols_ (sentence_.drop (cursor_ + 1)) hlt).1
    have hsub : scan symbols_ cursor_ (cursor_ + 1) (sentence_.drop (cursor_ + 1)) - cursor_ =
        (scan symbols_ cursor_ (cursor_ + 1) (sentence_.drop (cursor_ + 1)) -
          (cursor_ + 1)) + 1 := by
      omega
    rw [hsub, List.take_succ_cons] at hr
    rcases List.mem_cons.mp hr with rfl | hr
    · exact absurd hsymbol hfirst
    · exact absurd hsymbol
        (not_mem_of_scan symbols_ _ hlt r hr)

end PreFilter

open PreFilter

/--
The loop `while (pre_filter.HasNext())` that the segmenters share: every range
is cut by itself.
-/
def cutRanges (symbols_ : List Rune) (runes : List RuneStr)
    (cut : Range -> List WordRange) (cursor_ : Nat) : List WordRange :=
  if _h : cursor_ < runes.length then
    let range := Next symbols_ runes cursor_
    cut range ++ cutRanges symbols_ runes cut range.end_
  else []
termination_by runes.length - cursor_
decreasing_by
  have hbounds := Next_bounds symbols_ _h
  omega

/-- `Cut` for a sentence; one that cannot be decoded has no runes. -/
def cutSentence (symbols_ : List Rune)
    (cut : List RuneStr -> Range -> List WordRange) (sentence : CString) : List Word :=
  let runes := (DecodeRunesInString sentence).getD []
  GetWordsFromWordRanges sentence runes (cutRanges symbols_ runes (cut runes) 0)

/-- A way of cutting ranges that leaves nothing out. -/
def Covers (n : Nat) (cut : Range -> List WordRange) : Prop :=
  forall range : Range, range.begin_ < range.end_ -> range.end_ ≤ n ->
    Tiles range.begin_ (cut range) range.end_

section Ranges

variable {symbols_ : List Rune} {runes : List RuneStr} {cut : Range -> List WordRange}
  {cursor_ : Nat}

theorem cutRanges_step (h : cursor_ < runes.length) :
    cutRanges symbols_ runes cut cursor_ =
      cut (Next symbols_ runes cursor_) ++
        cutRanges symbols_ runes cut (Next symbols_ runes cursor_).end_ := by
  rw [cutRanges, dif_pos h]

theorem cutRanges_end (h : runes.length ≤ cursor_) :
    cutRanges symbols_ runes cut cursor_ = [] := by
  rw [cutRanges, dif_neg (Nat.not_lt.mpr h)]

/-- What holds of every range, whatever is left, holds of the whole. -/
theorem cutRanges_induction {P : Nat -> List WordRange -> Prop}
    (hend : P runes.length [])
    (hstep : forall range wrs, range.begin_ < range.end_ ->
      range.end_ ≤ runes.length -> P range.end_ wrs ->
      P range.begin_ (cut range ++ wrs)) (h : cursor_ ≤ runes.length) :
    P cursor_ (cutRanges symbols_ runes cut cursor_) := by
  induction hn : runes.length - cursor_ using Nat.strong_induction_on generalizing
    cursor_ with
  | _ n ih =>
      rcases Nat.lt_or_eq_of_le h with hlt | heq
      · have hbounds := Next_bounds symbols_ hlt
        rw [cutRanges_step hlt]
        exact hstep (Next symbols_ runes cursor_) _ hbounds.1 hbounds.2
          (ih _ (by omega) hbounds.2 rfl)
      · rw [cutRanges_end (Nat.le_of_eq heq.symm), heq]
        exact hend

/-- The ranges of a sentence do not depend on how they are cut. -/
theorem exists_ranges (symbols_ : List Rune) (runes : List RuneStr)
    (h : cursor_ ≤ runes.length) :
    exists ranges : List Range,
      (forall range, range ∈ ranges -> range.begin_ < range.end_ ∧
        range.end_ ≤ runes.length ∧ Apart symbols_ runes range) ∧
      forall cut, cutRanges symbols_ runes cut cursor_ = ranges.flatMap cut := by
  induction hn : runes.length - cursor_ using Nat.strong_induction_on generalizing
    cursor_ with
  | _ n ih =>
      rcases Nat.lt_or_eq_of_le h with hlt | heq
      · have hbounds := Next_bounds symbols_ hlt
        rcases ih _ (by omega) hbounds.2 rfl with ⟨ranges, hranges, hcut⟩
        refine ⟨Next symbols_ runes cursor_ :: ranges, ?_, ?_⟩
        · intro range hrange
          rcases List.mem_cons.mp hrange with rfl | hrange
          · exact ⟨hbounds.1, hbounds.2, Next_apart symbols_ hlt⟩
          · exact hranges range hrange
        · intro cut
          rw [cutRanges_step hlt, hcut, List.flatMap_cons]
      · refine ⟨[], fun range hrange => absurd hrange List.not_mem_nil, ?_⟩
        intro cut
        rw [cutRanges_end (Nat.le_of_eq heq.symm)]
        rfl

theorem cutRanges_tiles (h : Covers runes.length cut) :
    Tiles 0 (cutRanges symbols_ runes cut 0) runes.length := by
  refine @cutRanges_induction symbols_ runes cut 0
    (fun i wrs => Tiles i wrs runes.length) (Tiles.nil _) ?_ (Nat.zero_le _)
  intro range wrs hlt hle hrest
  exact (h range hlt hle).append hrest

theorem mem_cutRanges {wr : WordRange} (h : wr ∈ cutRanges symbols_ runes cut 0) :
    exists range : Range, range.begin_ < range.end_ ∧ range.end_ ≤ runes.length ∧
      Apart symbols_ runes range ∧ wr ∈ cut range := by
  rcases exists_ranges symbols_ runes (Nat.zero_le _) with ⟨ranges, hranges, hcut⟩
  rw [hcut] at h
  rcases List.mem_flatMap.mp h with ⟨range, hrange, hwr⟩
  have hbounds := hranges range hrange
  exact ⟨range, hbounds.1, hbounds.2.1, hbounds.2.2, hwr⟩

end Ranges

/-!
## Runes and the bytes behind them
-/

/-- Runes from byte `i` and rune `j` on, each with its own bytes of the string. -/
inductive Laid : Nat -> Nat -> CString -> List RuneStr -> Prop where
  | nil (i j : Nat) : Laid i j [] []
  | cons {i j rune : Nat} {part rest : CString} {runes : List RuneStr} :
      part ≠ [] -> Laid (i + part.length) (j + 1) rest runes ->
      Laid i j (part ++ rest) (⟨rune, i, part.length, j, 1⟩ :: runes)

theorem len_le (s : CString) : (DecodeRuneInString s).len ≤ s.length := by
  cases s with
  | nil =>
      exact Nat.le_refl 0
  | cons b rest =>
      rw [DecodeRuneInString, List.length_cons]
      repeat' split
      all_goals dsimp only
      all_goals omega

theorem decodeFrom_nil (i j : Nat) : decodeFrom i j [] = some [] := by
  rw [decodeFrom, dif_pos rfl]

theorem decodeFrom_failed {s : CString} (hs : s ≠ [])
    (hlen : (DecodeRuneInString s).len = 0) (i j : Nat) : decodeFrom i j s = none := by
  rw [decodeFrom, dif_neg hs]
  exact dif_pos hlen

theorem decodeFrom_step {s : CString} (hs : s ≠ [])
    (hlen : (DecodeRuneInString s).len ≠ 0) (i j : Nat) :
    decodeFrom i j s =
      (decodeFrom (i + (DecodeRuneInString s).len) (j + 1)
        (s.drop (DecodeRuneInString s).len)).map
        (⟨(DecodeRuneInString s).rune, i, (DecodeRuneInString s).len, j, 1⟩ :: ·) := by
  rw [decodeFrom, dif_neg hs]
  exact dif_neg hlen

theorem laid_decodeFrom {i j : Nat} {s : CString} {runes : List RuneStr}
    (h : decodeFrom i j s = some runes) : Laid i j s runes := by
  induction hn : s.length using Nat.strong_induction_on generalizing i j s runes with
  | _ n ih =>
      by_cases hs : s = []
      · subst hs
        rw [decodeFrom_nil] at h
        cases h
        exact Laid.nil i j
      · by_cases hlen : (DecodeRuneInString s).len = 0
        · rw [decodeFrom_failed hs hlen] at h
          cases h
        · rw [decodeFrom_step hs hlen, Option.map_eq_some_iff] at h
          rcases h with ⟨rest, hrest, rfl⟩
          have hle := len_le s
          have hpart : (s.take (DecodeRuneInString s).len).length =
              (DecodeRuneInString s).len := List.length_take_of_le hle
          have hlaid := ih (s.drop (DecodeRuneInString s).len).length
            (by rw [List.length_drop]; omega) hrest rfl
          have hne : s.take (DecodeRuneInString s).len ≠ [] := by
            rw [← List.length_pos_iff, hpart]
            omega
          have hcons := @Laid.cons i j (DecodeRuneInString s).rune _ _ rest hne
            (by rw [hpart]; exact hlaid)
          rw [hpart, List.take_append_drop] at hcons
          exact hcons

/-- The bytes before rune `k`. -/
def bytesBefore (runes : List RuneStr) (k : Nat) : Nat :=
  ((runes.take k).map RuneStr.len).sum

theorem bytesBefore_cons (r : RuneStr) (runes : List RuneStr) (k : Nat) :
    bytesBefore (r :: runes) (k + 1) = r.len + bytesBefore runes k := by
  simp [bytesBefore]

theorem bytesBefore_succ {runes : List RuneStr} {k : Nat} {r : RuneStr}
    (h : runes[k]? = some r) : bytesBefore runes (k + 1) = bytesBefore runes k + r.len := by
  rw [bytesBefore, bytesBefore, List.take_add_one, h]
  simp

theorem bytesBefore_mono (runes : List RuneStr) {k l : Nat} (h : k ≤ l) :
    bytesBefore runes k ≤ bytesBefore runes l := by
  obtain ⟨d, rfl⟩ := Nat.exists_eq_add_of_le h
  rw [bytesBefore, bytesBefore, List.take_add, List.map_append, List.sum_append]
  exact Nat.le_add_right _ _

namespace Laid

variable {i j : Nat} {s : CString} {runes : List RuneStr}

theorem length_eq (h : Laid i j s runes) : bytesBefore runes runes.length = s.length := by
  induction h with
  | nil i j =>
      rfl
  | cons _ _ ih =>
      rw [List.length_cons, bytesBefore_cons, ih, List.length_append]

theorem get (h : Laid i j s runes) {k : Nat} {r : RuneStr} (hr : runes[k]? = some r) :
    r.offset = i + bytesBefore runes k ∧ r.unicode_offset = j + k ∧
      r.unicode_length = 1 ∧ 0 < r.len := by
  induction h generalizing k with
  | nil i j =>
      cases hr
  | cons hpart _ ih =>
      cases k with
      | zero =>
          cases hr
          exact ⟨rfl, rfl, rfl, List.length_pos_iff.mpr hpart⟩
      | succ k =>
          rw [List.getElem?_cons_succ] at hr
          have hrest := ih hr
          rw [bytesBefore_cons]
          dsimp only
          omega

theorem word_eq (h : Laid 0 0 s runes) {l r : Nat} (hlr : l ≤ r) (hr : r < runes.length) :
    GetWordFromRunes s (runes.getD l default) (runes.getD r default) =
      { word := slice s (bytesBefore runes l) (bytesBefore runes (r + 1))
        offset := bytesBefore runes l
        unicode_offset := l
        unicode_length := r - l + 1 } := by
  have hleft := List.getElem?_eq_getElem (Nat.lt_of_le_of_lt hlr hr)
  have hright := List.getElem?_eq_getElem hr
  have hl := h.get hleft
  have hr' := h.get hright
  have hsucc := bytesBefore_succ hright
  have hmono := bytesBefore_mono runes hlr
  rw [List.getD_eq_getElem?_getD, List.getD_eq_getElem?_getD, hleft, hright,
    Option.getD_some, Option.getD_some]
  unfold GetWordFromRunes slice
  rw [Word.mk.injEq]
  refine ⟨?_, by omega, by omega, by omega⟩
  rw [hsucc]
  congr 1
  · omega
  · congr 1
    omega

end Laid

/-!
## Words of a sentence
-/

/--
The words follow one another from byte `i` and rune `j` to the end of the text, and
each of them says where it stands.
-/
inductive Follows : Nat -> Nat -> CString -> List Word -> Prop where
  | nil (i j : Nat) : Follows i j [] []
  | cons {i j : Nat} {w : Word} {rest : CString} {words : List Word} :
      w.word ≠ [] -> 0 < w.unicode_length -> w.offset = i -> w.unicode_offset = j ->
      Follows (i + w.word.length) (j + w.unicode_length) rest words ->
      Follows i j (w.word ++ rest) (w :: words)

theorem Follows.flatten {i j : Nat} {s : CString} {words : List Word}
    (h : Follows i j s words) : (GetStringsFromWords words).flatten = s := by
  induction h with
  | nil i j =>
      rfl
  | cons _ _ _ _ _ ih =>
      unfold GetStringsFromWords at ih ⊢
      rw [List.map_cons, List.flatten_cons, ih]

section Sentence

variable {s : CString} {runes : List RuneStr} {symbols_ : List Rune}
  {cut : List RuneStr -> Range -> List WordRange}

theorem slice_bytes_ne_nil (h : Laid 0 0 s runes) {l r : Nat} (hlr : l ≤ r)
    (hr : r < runes.length) :
    slice s (bytesBefore runes l) (bytesBefore runes (r + 1)) ≠ [] := by
  have hget := List.getElem?_eq_getElem hr
  have hpos := (h.get hget).2.2.2
  have hsucc := bytesBefore_succ hget
  have hmono := bytesBefore_mono runes hlr
  have hend : bytesBefore runes (r + 1) ≤ s.length := by
    rw [← h.length_eq]
    exact bytesBefore_mono runes hr
  exact slice_ne_nil (by omega) hend

theorem follows_of_tiles (h : Laid 0 0 s runes) {i : Nat} {wrs : List WordRange}
    (htiles : Tiles i wrs runes.length) :
    Follows (bytesBefore runes i) i (s.drop (bytesBefore runes i))
      (GetWordsFromWordRanges s runes wrs) := by
  generalize hn : runes.length = n at htiles
  induction htiles with
  | nil i =>
      have hend : bytesBefore runes i = s.length := by
        rw [← hn, h.length_eq]
      rw [hend, List.drop_length]
      exact Follows.nil _ _
  | @cons i r n wrs hir htail ih =>
      have hr : r < runes.length := by
        have hle := htail.le
        omega
      have hword := h.word_eq hir hr
      have hmono := bytesBefore_mono runes (Nat.le_succ_of_le hir)
      have hend : bytesBefore runes (r + 1) ≤ s.length := by
        rw [← h.length_eq]
        exact bytesBefore_mono runes hr
      have hdrop : s.drop (bytesBefore runes i) =
          slice s (bytesBefore runes i) (bytesBefore runes (r + 1)) ++
            s.drop (bytesBefore runes (r + 1)) := by
        have hsplit := (List.take_append_drop
          (bytesBefore runes (r + 1) - bytesBefore runes i)
          (s.drop (bytesBefore runes i))).symm
        rw [List.drop_drop, Nat.add_sub_cancel' hmono] at hsplit
        exact hsplit
      have hbytes : bytesBefore runes i +
          (slice s (bytesBefore runes i) (bytesBefore runes (r + 1))).length =
            bytesBefore runes (r + 1) := by
        rw [length_slice s hend, Nat.add_sub_cancel' hmono]
      have hrunes : i + (r - i + 1) = r + 1 := by
        omega
      have hrest : Follows (bytesBefore runes i +
            (slice s (bytesBefore runes i) (bytesBefore runes (r + 1))).length)
          (i + (r - i + 1)) (s.drop (bytesBefore runes (r + 1)))
          (GetWordsFromWordRanges s runes wrs) := by
        rw [hbytes, hrunes]
        exact ih hn
      unfold GetWordsFromWordRanges at hrest ⊢
      rw [List.map_cons, hword, hdrop]
      exact Follows.cons (w := ⟨slice s _ _, bytesBefore runes i, i, r - i + 1⟩)
        (slice_bytes_ne_nil h hir hr) (Nat.succ_pos _) rfl rfl hrest

theorem cutSentence_failed (h : DecodeRunesInString s = none) :
    cutSentence symbols_ cut s = [] := by
  unfold cutSentence
  rw [h, Option.getD_none]
  have hnil : cutRanges symbols_ [] (cut []) 0 = [] := cutRanges_end (Nat.le_refl 0)
  dsimp only
  rw [hnil]
  rfl

/-- A cut that leaves nothing out gives the words of the sentence one by one. -/
theorem cutSentence_follows (h : DecodeRunesInString s = some runes)
    (hcut : Covers runes.length (cut runes)) :
    Follows 0 0 s (cutSentence symbols_ cut s) := by
  unfold cutSentence
  rw [h, Option.getD_some]
  exact follows_of_tiles (laid_decodeFrom h) (cutRanges_tiles hcut)

end Sentence

/-!
## The decoder of the tagger
-/

theorem PosTagger_step {s : CString} (hs : s ≠ []) :
    PosTagger.DecodeRunesInString s =
      if (DecodeRuneInString s).len = 0 then none
      else (PosTagger.DecodeRunesInString (s.drop (DecodeRuneInString s).len)).map
        ((DecodeRuneInString s).rune :: ·) := by
  cases s with
  | nil =>
      exact absurd rfl hs
  | cons b rest =>
      rw [PosTagger.DecodeRunesInString.eq_def, DecodeRuneInString]
      dsimp only
      by_cases hone : b.toNat < 0x80
      · simp [hone]
      · rcases rest with _ | ⟨b1, rest⟩
        · simp [hone]
        · by_cases htwo : b.toNat ≤ 0xdf
          · simp [hone, htwo, sixBits]
          · rcases rest with _ | ⟨b2, rest⟩
            · simp [hone, htwo]
            · by_cases hthree : b.toNat ≤ 0xef
              · simp [hone, htwo, hthree, sixBits]
              · rcases rest with _ | ⟨b3, rest⟩
                · simp [hone, htwo, hthree]
                · by_cases hfour : b.toNat ≤ 0xf7
                  · simp [hone, htwo, hthree, hfour, sixBits]
                  · simp [hone, htwo, hthree, hfour]

theorem map_rune_decodeFrom (i j : Nat) (s : CString) :
    (decodeFrom i j s).map (List.map RuneStr.rune) = PosTagger.DecodeRunesInString s := by
  induction hn : s.length using Nat.strong_induction_on generalizing i j s with
  | _ n ih =>
      by_cases hs : s = []
      · subst hs
        rw [decodeFrom_nil]
        rfl
      · rw [PosTagger_step hs]
        by_cases hlen : (DecodeRuneInString s).len = 0
        · rw [if_pos hlen, decodeFrom_failed hs hlen]
          rfl
        · have hle := len_le s
          rw [if_neg hlen, decodeFrom_step hs hlen, Option.map_map,
            ← ih (s.drop (DecodeRuneInString s).len).length
              (by rw [List.length_drop]; omega) _ _ _ rfl, Option.map_map]
          rfl

theorem map_rune_DecodeRunesInString (s : CString) :
    (DecodeRunesInString s).map (List.map RuneStr.rune) =
      PosTagger.DecodeRunesInString s :=
  map_rune_decodeFrom 0 0 s

end Cppjieba
end VoiceTts
