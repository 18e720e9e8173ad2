import VoiceTts.Segmenter.HMMSegment
import VoiceTts.Segmenter.MPSegment

/-!
# The mixed segmentation

`MixSegment` takes a range apart into the most probable words first.  Where several
single runes follow one another that are no user words, the hidden Markov model cuts
them again; the longer words stay as they are.
-/

namespace VoiceTts
namespace Cppjieba

open Tiling PreFilter

variable {W : Type} [Double W]

structure MixSegment (W : Type) where
  symbols_ : List Rune
  mpSeg_ : MPSegment W
  hmmSeg_ : HMMSegment W

/-- A single rune that is not in the user dictionary. -/
def collected (d : DictTrie W) (runes : List RuneStr) (wr : WordRange) : Bool :=
  decide (wr.left = wr.right) && !d.IsUserDictSingleChineseWord (runeAt runes wr.left)

/-- The loop of `Cut` over the words of the first cut. -/
def mixWords (d : DictTrie W) (hmmSeg_ : HMMSegment W) (runes : List RuneStr) :
    List WordRange -> List WordRange
  | [] => []
  | wr :: words =>
      if collected d runes wr then
        let sequence := words.takeWhile (collected d runes)
        hmmSeg_.cutRange runes ⟨wr.left, (sequence.getLastD wr).left + 1⟩ ++
          mixWords d hmmSeg_ runes (words.dropWhile (collected d runes))
      else wr :: mixWords d hmmSeg_ runes words
termination_by words => words.length
decreasing_by
  · have hle := (List.dropWhile_suffix (collected d runes) (l := words)).length_le
    rw [List.length_cons]
    omega
  · exact Nat.lt_succ_self _

namespace MixSegment

def cutRange (m : MixSegment W) (hmm : Bool) (runes : List RuneStr) (range : Range) :
    List WordRange :=
  let words := m.mpSeg_.cutRange MAX_WORD_LENGTH runes range
  if hmm then mixWords m.mpSeg_.dictTrie_ m.hmmSeg_ runes words else words

def Cut (m : MixSegment W) (hmm : Bool) (sentence : CString) : List Word :=
  cutSentence m.symbols_ (m.cutRange hmm) sentence

end MixSegment

/-!
## What becomes of the words of the first cut
-/

section Mix

variable {d : DictTrie W} {hmmSeg_ : HMMSegment W} {runes : List RuneStr}

omit [Double W] in
theorem collected_iff {wr : WordRange} :
    collected d runes wr = true ↔
      wr.left = wr.right ∧
        d.IsUserDictSingleChineseWord (runeAt runes wr.left) = false := by
  unfold collected
  rw [Bool.and_eq_true, decide_eq_true_iff, Bool.not_eq_true']

/-- A word by the model: of one kind, and made of runes that were left single. -/
structure Recut (d : DictTrie W) (runes : List RuneStr) (words : List WordRange)
    (wr : WordRange) : Prop where
  kind : IsAllAscii runes wr = true ∨ Plain runes wr
  singles : forall k, wr.left ≤ k -> k ≤ wr.right ->
    (⟨k, k⟩ : WordRange) ∈ words ∧ collected d runes ⟨k, k⟩ = true

omit [Double W] in
theorem Recut.mono {words words' : List WordRange} {wr : WordRange}
    (h : Recut d runes words wr) (hsub : forall w, w ∈ words -> w ∈ words') :
    Recut d runes words' wr :=
  ⟨h.kind, fun k hl hr => ⟨hsub _ (h.singles k hl hr).1, (h.singles k hl hr).2⟩⟩

/-- A sequence of single runes is cut by the model and by nothing else. -/
theorem sequence_spec (hmmSeg_ : HMMSegment W) {i j : Nat} {sequence : List WordRange}
    (htiles : Tiles i sequence j) (hj : j ≤ runes.length)
    (hcollected : forall wr, wr ∈ sequence -> collected d runes wr = true) :
    Tiles i (hmmSeg_.cutRange runes ⟨i, j⟩) j ∧
      forall wr, wr ∈ hmmSeg_.cutRange runes ⟨i, j⟩ -> Recut d runes sequence wr := by
  have hspec := hmmSeg_.cutRange_spec runes ⟨i, j⟩ htiles.le hj
  refine ⟨hspec.1, ?_⟩
  intro wr hwr
  have hbounds := hspec.1.mem hwr
  constructor
  · rcases hspec.2 wr hwr with hascii | hplain
    · exact Or.inl hascii.isAllAscii
    · exact Or.inr hplain
  · intro k hleft hright
    dsimp only at hbounds
    rcases htiles.exists_mem (k := k) (by omega) (by omega) with ⟨s, hs, hsl, hsr⟩
    have hsingle := hcollected s hs
    have hsame := (collected_iff.mp hsingle).1
    have heq : s = ⟨k, k⟩ := by
      rcases s with ⟨l, r⟩
      dsimp only at hsl hsr hsame
      rw [Span.mk.injEq]
      omega
    rw [heq] at hs hsingle
    exact ⟨hs, hsingle⟩

theorem getLast?_sequence (wr : WordRange) (sequence : List WordRange) :
    (wr :: sequence).getLast? = some (sequence.getLastD wr) := by
  rw [List.getLast?_cons, List.getLastD_eq_getLast?]

/-- The words from a single rune on: the sequence that is cut again, and the rest. -/
theorem mixWords_sequence (hmmSeg_ : HMMSegment W) {i j : Nat} {wr : WordRange}
    {words : List WordRange}
    (htiles : Tiles i (wr :: words) j) (hwr : collected d runes wr = true) :
    exists sequence rest k,
      wr :: words = sequence ++ rest ∧ rest.length ≤ words.length ∧
      Tiles i sequence k ∧ Tiles k rest j ∧
      (forall w, w ∈ sequence -> collected d runes w = true) ∧
      mixWords d hmmSeg_ runes (wr :: words) =
        hmmSeg_.cutRange runes ⟨i, k⟩ ++ mixWords d hmmSeg_ runes rest := by
  have hwords := List.takeWhile_append_dropWhile (p := collected d runes) (l := words)
  have hlength := (List.dropWhile_suffix (collected d runes) (l := words)).length_le
  have hall : forall w, w ∈ wr :: words.takeWhile (collected d runes) ->
      collected d runes w = true := by
    intro w hw
    rcases List.mem_cons.mp hw with rfl | hw
    · exact hwr
    · exact List.mem_takeWhile_imp hw
  have hlast := getLast?_sequence wr (words.takeWhile (collected d runes))
  have hsplit : wr :: words = (wr :: words.takeWhile (collected d runes)) ++
      words.dropWhile (collected d runes) := by
    rw [List.cons_append, hwords]
  rw [hsplit] at htiles
  rcases htiles.split with ⟨k, hfront, hrear⟩
  have hleft : wr.left = i := by
    cases hfront
    rfl
  have hright : ((words.takeWhile (collected d runes)).getLastD wr).left + 1 = k := by
    rw [(collected_iff.mp (hall _ (List.mem_of_getLast? hlast))).1]
    exact hfront.last hlast
  refine ⟨_, _, k, hsplit, hlength, hfront, hrear, hall, ?_⟩
  rw [mixWords, if_pos hwr]
  dsimp only
  rw [hleft, hright]

/--
The mixed words cover what the words of the first cut have covered; those that are no
single runes are kept, and the others are cut by the model.
-/
theorem mixWords_spec (hmmSeg_ : HMMSegment W) {words : List WordRange} {i j : Nat}
    (htiles : Tiles i words j) (hj : j ≤ runes.length) :
    Tiles i (mixWords d hmmSeg_ runes words) j ∧
      (forall wr, wr ∈ mixWords d hmmSeg_ runes words ->
        (wr ∈ words ∧ collected d runes wr = false) ∨ Recut d runes words wr) ∧
      forall wr, wr ∈ words -> collected d runes wr = false ->
        wr ∈ mixWords d hmmSeg_ runes words := by
  induction hn : words.length using Nat.strong_induction_on generalizing words i with
  | _ n ih =>
      cases words with
      | nil =>
          rw [mixWords]
          exact ⟨htiles, fun wr hwr => absurd hwr List.not_mem_nil,
            fun wr hwr _ => hwr⟩
      | cons wr words =>
          rw [List.length_cons] at hn
          by_cases hwr : collected d runes wr = true
          · rcases mixWords_sequence hmmSeg_ htiles hwr with
              ⟨sequence, rest, k, hwords, hlength, hfront, hrear, hall, hmix⟩
            have hcut := sequence_spec hmmSeg_ hfront (hrear.le.trans hj) hall
            have hlater := ih rest.length (by omega) hrear rfl
            rw [hmix, hwords]
            refine ⟨hcut.1.append hlater.1, ?_, ?_⟩
            · intro w hw
              rcases List.mem_append.mp hw with hw | hw
              · exact Or.inr ((hcut.2 w hw).mono fun v hv => List.mem_append_left rest hv)
              · rcases hlater.2.1 w hw with hkept | hrecut
                · exact Or.inl ⟨List.mem_append_right _ hkept.1, hkept.2⟩
                · exact Or.inr (hrecut.mono fun v hv => List.mem_append_right _ hv)
            · intro w hw hnot
              rcases List.mem_append.mp hw with hw | hw
              · rw [hall w hw] at hnot
                cases hnot
              · exact List.mem_append_right _ (hlater.2.2 w hw hnot)
          · rw [mixWords, if_neg hwr]
            cases htiles with
            | @cons _ r _ _ hir htail =>
                have hlater := ih words.length (by omega) htail rfl
                refine ⟨Tiles.cons hir hlater.1, ?_, ?_⟩
                · intro w hw
                  rcases List.mem_cons.mp hw with rfl | hw
                  · exact Or.inl ⟨List.mem_cons_self .., eq_false_of_ne_true hwr⟩
                  · rcases hlater.2.1 w hw with hkept | hrecut
                    · exact Or.inl ⟨List.mem_cons_of_mem _ hkept.1, hkept.2⟩
                    · exact Or.inr (hrecut.mono fun v hv => List.mem_cons_of_mem _ hv)
                · intro w hw hnot
                  rcases List.mem_cons.mp hw with rfl | hw
                  · exact List.mem_cons_self ..
                  · exact List.mem_cons_of_mem _ (hlater.2.2 w hw hnot)

end Mix

namespace MixSegment

theorem cutRange_tiles (m : MixSegment W) (hmm : Bool) {runes : List RuneStr}
    {range : Range} (hbe : range.begin_ ≤ range.end_) (hle : range.end_ ≤ runes.length) :
    Tiles range.begin_ (m.cutRange hmm runes range) range.end_ := by
  have htiles := (m.mpSeg_.cutRange_tiles MAX_WORD_LENGTH runes range hbe hle).1
  unfold cutRange
  cases hmm with
  | true =>
      exact (mixWords_spec m.hmmSeg_ htiles hle).1
  | false =>
      exact htiles

/--
With the model, words of more than one rune stay, and every other word is made of runes
that were left single.
-/
theorem cutRange_mixed (m : MixSegment W) {runes : List RuneStr} {range : Range}
    (hbe : range.begin_ ≤ range.end_) (hle : range.end_ ≤ runes.length) :
    (forall wr, wr ∈ m.cutRange false runes range -> wr.left < wr.right ->
        wr ∈ m.cutRange true runes range) ∧
      forall wr, wr ∈ m.cutRange true runes range ->
        wr ∈ m.cutRange false runes range ∨
          ((IsAllAscii runes wr = true ∨ Plain runes wr) ∧
            forall k, wr.left ≤ k -> k ≤ wr.right ->
              (⟨k, k⟩ : WordRange) ∈ m.cutRange false runes range) := by
  have htiles := (m.mpSeg_.cutRange_tiles MAX_WORD_LENGTH runes range hbe hle).1
  have hspec := mixWords_spec (d := m.mpSeg_.dictTrie_) m.hmmSeg_ htiles hle
  constructor
  · intro wr hwr hlt
    refine hspec.2.2 wr hwr ?_
    rw [Bool.eq_false_iff, ne_eq, collected_iff]
    exact fun h => Nat.ne_of_lt hlt h.1
  · intro wr hwr
    rcases hspec.2.1 wr hwr with hkept | hrecut
    · exact Or.inl hkept.1
    · exact Or.inr ⟨hrecut.kind, fun k hleft hright => (hrecut.singles k hleft hright).1⟩

end MixSegment

end Cppjieba
end VoiceTts
