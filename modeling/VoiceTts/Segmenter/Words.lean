import VoiceTts.Lib.Utf8Cut
import VoiceTts.Segmenter.Dictionary

/-!
# Words on their own

A word that was cut out of a sentence is a sentence again: its bytes decode to the
runes of its range, whatever stood around it.  When the sentence is in UTF-8, the
words are made of its characters.
-/

namespace VoiceTts
namespace Cppjieba

open Tiling PreFilter

/-!
## Decoding a part of a sentence
-/

theorem DecodeRuneInString_take {s : CString} (h : (DecodeRuneInString s).len ≠ 0)
    (t : CString) :
    DecodeRuneInString (s.take (DecodeRuneInString s).len ++ t) = DecodeRuneInString s := by
  cases s with
  | nil =>
      exact absurd rfl h
  | cons b rest =>
      rw [DecodeRuneInString] at h ⊢
      by_cases hone : b.toNat < 0x80
      · simp [hone, DecodeRuneInString]
      · by_cases htwo : b.toNat ≤ 0xdf ∧ 0 < rest.length
        · rcases rest with _ | ⟨b1, rest⟩
          · exact absurd htwo.2 (Nat.lt_irrefl 0)
          · simp [hone, htwo.1, DecodeRuneInString, sixBits]
        · by_cases hthree : b.toNat ≤ 0xef ∧ 1 < rest.length
          · rcases rest with _ | ⟨b1, _ | ⟨b2, rest⟩⟩
            · exact absurd hthree.2 (by simp)
            · exact absurd hthree.2 (Nat.lt_irrefl 1)
            · have hnot : ¬ b.toNat ≤ 0xdf := fun hle => htwo ⟨hle, Nat.succ_pos _⟩
              simp [hone, hnot, hthree.1, DecodeRuneInString, sixBits]
          · by_cases hfour : b.toNat ≤ 0xf7 ∧ 2 < rest.length
            · rcases rest with _ | ⟨b1, _ | ⟨b2, _ | ⟨b3, rest⟩⟩⟩
              · exact absurd hfour.2 (by simp)
              · exact absurd hfour.2 (by simp)
              · exact absurd hfour.2 (Nat.lt_irrefl 2)
              · have hnot2 : ¬ b.toNat ≤ 0xdf := fun hle => htwo ⟨hle, Nat.succ_pos _⟩
                have hnot3 : ¬ b.toNat ≤ 0xef := fun hle =>
                  hthree ⟨hle, Nat.succ_lt_succ (Nat.succ_pos _)⟩
                simp [hone, hnot2, hnot3, hfour.1, DecodeRuneInString, sixBits]
            · rw [if_neg hone, if_neg htwo, if_neg hthree, if_neg hfour] at h
              exact absurd rfl h

section Parts

variable {i j : Nat} {s : CString} {runes : List RuneStr}

theorem decodeFrom_cons {r : RuneStr} (h : decodeFrom i j s = some (r :: runes)) :
    s ≠ [] ∧ (DecodeRuneInString s).len ≠ 0 ∧ r.rune = (DecodeRuneInString s).rune ∧
      r.len = (DecodeRuneInString s).len ∧
      decodeFrom (i + r.len) (j + 1) (s.drop r.len) = some runes := by
  have hs : s ≠ [] := by
    rintro rfl
    rw [decodeFrom_nil] at h
    cases h
  have hlen : (DecodeRuneInString s).len ≠ 0 := by
    intro hzero
    rw [decodeFrom_failed hs hzero] at h
    cases h
  rw [decodeFrom_step hs hlen, Option.map_eq_some_iff] at h
  rcases h with ⟨rest, hrest, hcons⟩
  cases hcons
  exact ⟨hs, hlen, rfl, rfl, hrest⟩

theorem decodeFrom_drop (h : decodeFrom i j s = some runes) (k : Nat) :
    k ≤ runes.length ->
    decodeFrom (i + bytesBefore runes k) (j + k) (s.drop (bytesBefore runes k)) =
      some (runes.drop k) := by
  induction runes generalizing i j s k with
  | nil =>
      intro hk
      rw [Nat.le_zero.mp hk]
      exact h
  | cons r runes ih =>
      intro hk
      cases k with
      | zero =>
          exact h
      | succ k =>
          have hrest := ih (decodeFrom_cons h).2.2.2.2 k (Nat.le_of_succ_le_succ hk)
          rw [List.drop_drop, Nat.add_assoc, Nat.add_assoc, Nat.add_comm 1] at hrest
          rw [bytesBefore_cons, List.drop_succ_cons]
          exact hrest

theorem decode_take (h : decodeFrom i j s = some runes) (k : Nat) :
    k ≤ runes.length ->
    PosTagger.DecodeRunesInString (s.take (bytesBefore runes k)) =
      some (runesOf (runes.take k)) := by
  induction runes generalizing i j s k with
  | nil =>
      intro hk
      rw [Nat.le_zero.mp hk]
      rfl
  | cons r runes ih =>
      intro hk
      cases k with
      | zero =>
          rfl
      | succ k =>
          rcases decodeFrom_cons h with ⟨hs, hlen, hrune, hr, hrest⟩
          have htail := ih hrest k (Nat.le_of_succ_le_succ hk)
          have hsplit : s.take (bytesBefore (r :: runes) (k + 1)) =
              s.take (DecodeRuneInString s).len ++
                (s.drop r.len).take (bytesBefore runes k) := by
            rw [bytesBefore_cons, List.take_add, hr]
          have hne : s.take (bytesBefore (r :: runes) (k + 1)) ≠ [] := by
            have hle := len_le s
            have hpos := bytesBefore_cons r runes k
            rw [← List.length_pos_iff, List.length_take]
            omega
          have hhead : DecodeRuneInString (s.take (bytesBefore (r :: runes) (k + 1))) =
              DecodeRuneInString s := by
            rw [hsplit, DecodeRuneInString_take hlen]
          have hdrop : (s.take (bytesBefore (r :: runes) (k + 1))).drop
              (DecodeRuneInString s).len = (s.drop r.len).take (bytesBefore runes k) := by
            rw [hsplit]
            exact List.drop_left' (by rw [List.length_take]; exact Nat.min_eq_left (len_le s))
          rw [PosTagger_step hne, hhead, if_neg hlen, hdrop, htail, List.take_succ_cons]
          exact congrArg (fun x => some (x :: runesOf (runes.take k))) hrune.symm

theorem bytesBefore_drop (runes : List RuneStr) {k l : Nat} (h : k ≤ l) :
    bytesBefore (runes.drop k) (l - k) = bytesBefore runes l - bytesBefore runes k := by
  obtain ⟨d, rfl⟩ := Nat.exists_eq_add_of_le h
  rw [Nat.add_sub_cancel_left, bytesBefore, bytesBefore, bytesBefore, List.take_add,
    List.map_append, List.sum_append, Nat.add_sub_cancel_left]

theorem decode_slice (h : DecodeRunesInString s = some runes) {k l : Nat} (hkl : k ≤ l)
    (hl : l ≤ runes.length) :
    PosTagger.DecodeRunesInString (slice s (bytesBefore runes k) (bytesBefore runes l)) =
      some (runesOf (slice runes k l)) := by
  have hk : k ≤ runes.length := Nat.le_trans hkl hl
  have htake := decode_take (decodeFrom_drop h k hk) (l - k)
    (by rw [List.length_drop]; omega)
  rw [bytesBefore_drop runes hkl] at htake
  exact htake

end Parts

/-!
## The words of a sentence
-/

section Sentence

variable {s : CString} {runes : List RuneStr} {symbols_ : List Rune}
  {cut : List RuneStr -> Range -> List WordRange}

theorem decode_word (h : DecodeRunesInString s = some runes) {wr : WordRange}
    (hlr : wr.left ≤ wr.right) (hr : wr.right < runes.length) :
    PosTagger.DecodeRunesInString
        (GetWordFromRunes s (runes.getD wr.left default) (runes.getD wr.right default)).word =
      some (wordAt runes wr.left wr.right) := by
  rw [(laid_decodeFrom h).word_eq hlr hr]
  exact decode_slice h (Nat.le_succ_of_le hlr) hr

theorem decode_words (h : DecodeRunesInString s = some runes)
    (hwithin : forall wr, wr ∈ cutRanges symbols_ runes (cut runes) 0 ->
      wr.left ≤ wr.right ∧ wr.right < runes.length) :
    (GetStringsFromWords (cutSentence symbols_ cut s)).map PosTagger.DecodeRunesInString =
      (cutRanges symbols_ runes (cut runes) 0).map fun wr =>
        some (wordAt runes wr.left wr.right) := by
  unfold cutSentence GetStringsFromWords GetWordsFromWordRanges
  rw [h, Option.getD_some, List.map_map, List.map_map]
  refine List.map_congr_left fun wr hwr => ?_
  exact decode_word h (hwithin wr hwr).1 (hwithin wr hwr).2

/-- A way of cutting ranges whose words stay within them. -/
def Keeps (n : Nat) (cut : Range -> List WordRange) : Prop :=
  forall range : Range, range.begin_ < range.end_ -> range.end_ ≤ n ->
    forall wr, wr ∈ cut range ->
      range.begin_ ≤ wr.left ∧ wr.left ≤ wr.right ∧ wr.right < range.end_

theorem Covers.keeps {n : Nat} {cut : Range -> List WordRange} (h : Covers n cut) :
    Keeps n cut := by
  intro range hlt hle wr hwr
  exact (h range hlt hle).mem hwr

theorem Keeps.within {cut : Range -> List WordRange} (h : Keeps runes.length cut)
    {wr : WordRange} (hwr : wr ∈ cutRanges symbols_ runes cut 0) :
    wr.left ≤ wr.right ∧ wr.right < runes.length := by
  rcases mem_cutRanges hwr with ⟨range, hlt, hle, -, hmem⟩
  have hkeeps := h range hlt hle wr hmem
  exact ⟨hkeeps.2.1, Nat.lt_of_lt_of_le hkeeps.2.2 hle⟩

/-- A separator among the runes of a word is the whole word. -/
def Alone (symbols_ : List Rune) (word : List Rune) : Prop :=
  forall r, r ∈ word -> r ∈ symbols_ -> word = [r]

theorem mem_slice_of_le {α : Type} {xs : List α} {i j k l : Nat} (hki : k ≤ i)
    (hjl : j ≤ l) {x : α} (h : x ∈ slice xs i j) : x ∈ slice xs k l := by
  by_cases hij : i ≤ j
  · rw [← slice_append xs hki (Nat.le_trans hij hjl), ← slice_append xs hij hjl]
    exact List.mem_append_right _ (List.mem_append_left _ h)
  · rw [slice, Nat.sub_eq_zero_of_le (Nat.le_of_not_le hij), List.take_zero] at h
    cases h

/-- Separators are cut out of a sentence before the words are. -/
theorem Keeps.alone {cut : Range -> List WordRange} (h : Keeps runes.length cut)
    {wr : WordRange} (hwr : wr ∈ cutRanges symbols_ runes cut 0) :
    Alone symbols_ (wordAt runes wr.left wr.right) := by
  rcases mem_cutRanges hwr with ⟨range, hlt, hle, hapart, hmem⟩
  have hkeeps := h range hlt hle wr hmem
  intro r hr hsymbol
  rcases List.mem_map.mp hr with ⟨q, hq, rfl⟩
  have hone := hapart q (mem_slice_of_le hkeeps.1 hkeeps.2.2 hq) hsymbol
  have hlength : (wordAt runes wr.left wr.right).length = 1 := by
    rw [wordAt, runesOf, List.length_map, length_slice runes (by omega)]
    omega
  rcases List.length_eq_one_iff.mp hlength with ⟨x, hx⟩
  rw [hx] at hr ⊢
  rw [List.mem_singleton.mp hr]

theorem words_of_keeps (h : DecodeRunesInString s = some runes)
    (hkeeps : Keeps runes.length (cut runes)) {w : CString}
    (hw : w ∈ GetStringsFromWords (cutSentence symbols_ cut s)) :
    exists word, PosTagger.DecodeRunesInString w = some word ∧ word ≠ [] ∧
      word <:+: runesOf runes ∧ Alone symbols_ word := by
  have hmem : PosTagger.DecodeRunesInString w ∈
      (GetStringsFromWords (cutSentence symbols_ cut s)).map
        PosTagger.DecodeRunesInString := List.mem_map_of_mem hw
  rw [decode_words h fun wr hwr => hkeeps.within hwr] at hmem
  rcases List.mem_map.mp hmem with ⟨wr, hwr, hword⟩
  have hwithin := hkeeps.within hwr
  refine ⟨wordAt runes wr.left wr.right, hword.symm, ?_, ?_, hkeeps.alone hwr⟩
  · rw [wordAt, runesOf, ne_eq, List.map_eq_nil_iff]
    exact slice_ne_nil (Nat.lt_succ_of_le hwithin.1) hwithin.2
  · exact ((List.take_prefix _ _).isInfix.trans (List.drop_suffix _ _).isInfix).map _

end Sentence

/-!
## Sentences in UTF-8
-/

/-- The first byte of a character tells how many bytes are read. -/
theorem len_eq_lead {b : UInt8} {rest : CString}
    (hlen : (DecodeRuneInString (b :: rest)).len ≠ 0) (hlead : Utf8.lead b ≠ 0) :
    (DecodeRuneInString (b :: rest)).len = Utf8.lead b := by
  rw [DecodeRuneInString] at hlen ⊢
  unfold Utf8.lead at hlead ⊢
  split_ifs at hlen hlead ⊢
  all_goals first | rfl | exact absurd rfl hlen | omega

theorem decodeFrom_utf8EncodeChar (i j : Nat) (c : Char) {rest : CString}
    {runes : List RuneStr}
    (h : decodeFrom i j (String.utf8EncodeChar c ++ rest) = some runes) :
    exists r runes', runes = r :: runes' ∧ r.len = (String.utf8EncodeChar c).length ∧
      decodeFrom (i + r.len) (j + 1) rest = some runes' := by
  rcases Utf8.utf8EncodeChar_lead c with ⟨b, tail, hc, hlead, -⟩
  have hlead0 : Utf8.lead b ≠ 0 := by
    rw [hlead]
    exact Nat.succ_ne_zero _
  cases runes with
  | nil =>
      have hrunes := map_rune_decodeFrom i j (String.utf8EncodeChar c ++ rest)
      rw [h, PosTagger.decodeRunes_utf8EncodeChar] at hrunes
      cases hdecode : PosTagger.DecodeRunesInString rest with
      | none =>
          rw [hdecode] at hrunes
          cases hrunes
      | some rs =>
          rw [hdecode] at hrunes
          cases hrunes
  | cons r runes' =>
      rcases decodeFrom_cons h with ⟨-, hlen, -, hr, hrest⟩
      have hlength : r.len = (String.utf8EncodeChar c).length := by
        rw [hr]
        rw [hc, List.cons_append] at hlen ⊢
        rw [len_eq_lead hlen hlead0, hlead]
      refine ⟨r, runes', rfl, hlength, ?_⟩
      rw [hlength, List.drop_left] at hrest
      rw [hlength]
      exact hrest

theorem bytesBefore_encodeChars (cs : List Char) {i j : Nat} {runes : List RuneStr}
    (h : decodeFrom i j (Utf8.encodeChars cs) = some runes) (k : Nat) :
    bytesBefore runes k = (Utf8.encodeChars (cs.take k)).length := by
  induction cs generalizing i j runes k with
  | nil =>
      rw [Utf8.encodeChars_nil, decodeFrom_nil] at h
      cases h
      simp [bytesBefore]
  | cons c cs ih =>
      rw [Utf8.encodeChars_cons] at h
      rcases decodeFrom_utf8EncodeChar i j c h with ⟨r, runes', rfl, hlen, hrest⟩
      cases k with
      | zero =>
          rfl
      | succ k =>
          rw [bytesBefore_cons, ih hrest k, List.take_succ_cons, Utf8.encodeChars_cons,
            List.length_append, hlen]

/-- The runes of a sentence of characters. -/
def decoded (cs : List Char) : List RuneStr :=
  (DecodeRunesInString (Utf8.encodeChars cs)).getD []

def runeOf (c : Char) : Rune :=
  c.val.toNat

theorem decode_encodeChars (cs : List Char) :
    DecodeRunesInString (Utf8.encodeChars cs) = some (decoded cs) ∧
      runesOf (decoded cs) = cs.map runeOf := by
  have hrunes := map_rune_DecodeRunesInString (Utf8.encodeChars cs)
  rw [PosTagger.decodeRunes_encodeChars] at hrunes
  unfold decoded
  cases h : DecodeRunesInString (Utf8.encodeChars cs) with
  | none =>
      rw [h] at hrunes
      cases hrunes
  | some runes =>
      rw [h, Option.map_some, Option.some.injEq] at hrunes
      exact ⟨rfl, hrunes⟩

theorem length_decoded (cs : List Char) : (decoded cs).length = cs.length := by
  have h := congrArg List.length (decode_encodeChars cs).2
  rw [List.length_map, List.length_map] at h
  exact h

theorem wordAt_decoded (cs : List Char) (i j : Nat) :
    wordAt (decoded cs) i j = (slice cs i (j + 1)).map runeOf := by
  rw [wordAt, runesOf, ← slice_map, ← slice_map]
  exact congrArg (fun rs => slice rs i (j + 1)) (decode_encodeChars cs).2

theorem slice_encodeChars (cs : List Char) {k l : Nat} (h : k ≤ l) :
    slice (Utf8.encodeChars cs) (Utf8.encodeChars (cs.take k)).length
        (Utf8.encodeChars (cs.take l)).length =
      Utf8.encodeChars (slice cs k l) := by
  have hcs : cs = cs.take k ++ (slice cs k l ++ cs.drop l) := by
    have hrest : slice cs k l ++ cs.drop l = cs.drop k := by
      rw [slice, show cs.drop l = (cs.drop k).drop (l - k) by
        rw [List.drop_drop, Nat.add_sub_cancel' h]]
      exact List.take_append_drop _ _
    rw [hrest, List.take_append_drop]
  have htake : cs.take l = cs.take k ++ slice cs k l := by
    obtain ⟨d, rfl⟩ := Nat.exists_eq_add_of_le h
    rw [List.take_add, slice, Nat.add_sub_cancel_left]
  have hbytes := congrArg Utf8.encodeChars hcs
  rw [Utf8.encodeChars_append, Utf8.encodeChars_append] at hbytes
  rw [htake, Utf8.encodeChars_append, List.length_append]
  generalize Utf8.encodeChars (cs.take k) = front at hbytes
  rw [hbytes, slice, List.drop_left, Nat.add_sub_cancel_left, List.take_left]

theorem strings_cutSentence (symbols_ : List Rune)
    (cut : List RuneStr -> Range -> List WordRange) (cs : List Char)
    (hwithin : forall wr, wr ∈ cutRanges symbols_ (decoded cs) (cut (decoded cs)) 0 ->
      wr.left ≤ wr.right ∧ wr.right < (decoded cs).length) :
    GetStringsFromWords (cutSentence symbols_ cut (Utf8.encodeChars cs)) =
      (cutRanges symbols_ (decoded cs) (cut (decoded cs)) 0).map fun wr =>
        Utf8.encodeChars (wr.of cs) := by
  have hdecode := (decode_encodeChars cs).1
  unfold cutSentence GetStringsFromWords GetWordsFromWordRanges
  rw [hdecode, Option.getD_some, List.map_map]
  refine List.map_congr_left fun wr hwr => ?_
  have hbounds := hwithin wr hwr
  have hword := (laid_decodeFrom hdecode).word_eq hbounds.1 hbounds.2
  refine (congrArg Word.word hword).trans ?_
  dsimp only
  rw [bytesBefore_encodeChars cs hdecode, bytesBefore_encodeChars cs hdecode]
  exact slice_encodeChars cs (Nat.le_succ_of_le hbounds.1)

end Cppjieba
end VoiceTts
