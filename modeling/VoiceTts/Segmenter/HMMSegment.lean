import VoiceTts.Segmenter.HMMModel

/-!
# Words by a hidden Markov model

`HMMSegment` cuts a range without a dictionary.  Runs of ASCII letters and of digits
are words; the runes between them get a status each, and a word ends with each `E`
and each `S`.
-/

namespace VoiceTts
namespace Cppjieba

open Tiling PreFilter

variable {W : Type} [Double W]

/-- The loop of `InternalCut` at rune `i` of a word that begins at `left`. -/
def wordsOfStatus : Nat -> Nat -> List Status -> List WordRange
  | _, _, [] => []
  | left, i, stat :: status =>
      if stat.ends then ⟨left, i⟩ :: wordsOfStatus (i + 1) (i + 1) status
      else wordsOfStatus left (i + 1) status

def InternalCut (model : HMMModel W) (runes : List RuneStr) (begin_ end_ : Nat) :
    List WordRange :=
  wordsOfStatus begin_ begin_ (Viterbi model (slice runes begin_ end_))

/-!
## Letters, digits and what is between them
-/

def isLetter (x : Nat) : Bool :=
  decide (97 ≤ x ∧ x ≤ 122) || decide (65 ≤ x ∧ x ≤ 90)

def isDigit (x : Nat) : Bool :=
  decide (48 ≤ x ∧ x ≤ 57)

def runeAt (runes : List RuneStr) (i : Nat) : Rune :=
  (runes.getD i default).rune

/-- The end of a run that begins with `first` and goes on with `further`. -/
def ruleEnd (first further : Rune -> Bool) (runes : List RuneStr) (begin_ end_ : Nat) :
    Nat :=
  if first (runeAt runes begin_) then
    begin_ + 1 +
      ((slice runes (begin_ + 1) end_).takeWhile fun r => further r.rune).length
  else begin_

def SequentialLetterRule (runes : List RuneStr) (begin_ end_ : Nat) : Nat :=
  ruleEnd isLetter (fun x => isLetter x || isDigit x) runes begin_ end_

def NumbersRule (runes : List RuneStr) (begin_ end_ : Nat) : Nat :=
  ruleEnd isDigit (fun x => isDigit x || x == 46) runes begin_ end_

/-- The end of the word that begins with the ASCII rune at `left`. -/
def asciiEnd (runes : List RuneStr) (left end_ : Nat) : Nat :=
  let right := SequentialLetterRule runes left end_
  if right ≠ left then right
  else
    let right := NumbersRule runes left end_
    if right ≠ left then right else left + 1

theorem le_ruleEnd (first further : Rune -> Bool) (runes : List RuneStr) (begin_ end_ : Nat) :
    begin_ ≤ ruleEnd first further runes begin_ end_ := by
  unfold ruleEnd
  split
  · omega
  · exact Nat.le_refl begin_

theorem ruleEnd_le (first further : Rune -> Bool) {runes : List RuneStr}
    {begin_ end_ : Nat} (hlt : begin_ < end_) (hle : end_ ≤ runes.length) :
    ruleEnd first further runes begin_ end_ ≤ end_ := by
  unfold ruleEnd
  split
  · have hprefix := (List.takeWhile_prefix (fun r : RuneStr => further r.rune)
      (l := slice runes (begin_ + 1) end_)).length_le
    rw [length_slice runes hle] at hprefix
    omega
  · exact Nat.le_of_lt hlt

theorem lt_asciiEnd (runes : List RuneStr) (left end_ : Nat) :
    left < asciiEnd runes left end_ := by
  have hletters : left ≤ SequentialLetterRule runes left end_ := le_ruleEnd _ _ _ _ _
  have hnumbers : left ≤ NumbersRule runes left end_ := le_ruleEnd _ _ _ _ _
  unfold asciiEnd
  dsimp only
  split
  · omega
  · split
    · omega
    · exact Nat.lt_succ_self left

theorem asciiEnd_le {runes : List RuneStr} {left end_ : Nat} (hlt : left < end_)
    (hle : end_ ≤ runes.length) : asciiEnd runes left end_ ≤ end_ := by
  have hletters : SequentialLetterRule runes left end_ ≤ end_ := ruleEnd_le _ _ hlt hle
  have hnumbers : NumbersRule runes left end_ ≤ end_ := ruleEnd_le _ _ hlt hle
  unfold asciiEnd
  dsimp only
  split
  · exact hletters
  · split
    · exact hnumbers
    · exact hlt

/-- The loop of `Cut` for a range; the runes from `left` to `right` are not ASCII. -/
def cutRunes (model : HMMModel W) (runes : List RuneStr) (end_ left right : Nat) :
    List WordRange :=
  if _h : right < end_ then
    if runeAt runes right < 0x80 then
      let next := asciiEnd runes right end_
      (if left ≠ right then InternalCut model runes left right else []) ++
        ⟨right, next - 1⟩ :: cutRunes model runes end_ next next
    else cutRunes model runes end_ left (right + 1)
  else if left ≠ right then InternalCut model runes left right
  else []
termination_by end_ - right
decreasing_by
  · have hlt := lt_asciiEnd runes right end_
    omega
  · omega

structure HMMSegment (W : Type) where
  symbols_ : List Rune
  model_ : HMMModel W

namespace HMMSegment

def cutRange (h : HMMSegment W) (runes : List RuneStr) (range : Range) : List WordRange :=
  cutRunes h.model_ runes range.end_ range.begin_ range.begin_

def Cut (h : HMMSegment W) (sentence : CString) : List Word :=
  cutSentence h.symbols_ h.cutRange sentence

end HMMSegment

/-!
## Words of the model
-/

theorem tiles_wordsOfStatus (status : List Status) {left i : Nat} (hle : left ≤ i)
    (hlast : forall s, status.getLast? = some s -> s.ends = true)
    (hnil : status = [] -> left = i) :
    Tiles left (wordsOfStatus left i status) (i + status.length) := by
  induction status generalizing left i with
  | nil =>
      rw [hnil rfl]
      exact Tiles.nil i
  | cons stat status ih =>
      have hrest : forall s, status.getLast? = some s -> s.ends = true := by
        intro s hs
        refine hlast s ?_
        rw [List.getLast?_cons, hs]
        rfl
      have hlength : i + (stat :: status).length = i + 1 + status.length := by
        rw [List.length_cons]
        omega
      rw [wordsOfStatus, hlength]
      split
      · exact Tiles.cons hle (ih (Nat.le_refl _) hrest fun _ => rfl)
      · rename_i hgoes
        refine ih (Nat.le_succ_of_le hle) hrest ?_
        intro hnil'
        subst hnil'
        exact absurd (hlast stat rfl) hgoes

theorem InternalCut_tiles (model : HMMModel W) {runes : List RuneStr} {begin_ end_ : Nat}
    (hlt : begin_ < end_) (hle : end_ ≤ runes.length) :
    Tiles begin_ (InternalCut model runes begin_ end_) end_ := by
  have hlength := length_slice runes (i := begin_) hle
  have hstatus := Viterbi_length_last model (@slice_ne_nil _ runes _ _ hlt hle)
  have hends : forall s, (Viterbi model (slice runes begin_ end_)).getLast? = some s ->
      s.ends = true := by
    intro s hs
    rcases hstatus.2 with hE | hS
    · rw [hE] at hs
      cases hs
      rfl
    · rw [hS] at hs
      cases hs
      rfl
  have htiles := tiles_wordsOfStatus _ (Nat.le_refl begin_) hends fun _ => rfl
  rw [hstatus.1, hlength, Nat.add_sub_cancel' hlt.le] at htiles
  exact htiles

/-- A run of runes from `first` on that cannot be made longer. -/
structure Munch (first further : Rune -> Bool) (runes : List RuneStr) (end_ : Nat)
    (wr : WordRange) : Prop where
  begins : first (runeAt runes wr.left) = true
  continues : forall k, wr.left < k -> k ≤ wr.right -> further (runeAt runes k) = true
  stops : wr.right + 1 < end_ -> further (runeAt runes (wr.right + 1)) = false

/-- A word of ASCII runes: a run of letters, one of digits, or another single rune. -/
def AsciiWord (runes : List RuneStr) (end_ : Nat) (wr : WordRange) : Prop :=
  Munch isLetter (fun x => isLetter x || isDigit x) runes end_ wr ∨
    Munch isDigit (fun x => isDigit x || x == 46) runes end_ wr ∨
    wr.left = wr.right ∧ runeAt runes wr.left < 0x80 ∧
      isLetter (runeAt runes wr.left) = false ∧ isDigit (runeAt runes wr.left) = false

/-- A word without ASCII runes. -/
def Plain (runes : List RuneStr) (wr : WordRange) : Prop :=
  forall k, wr.left ≤ k -> k ≤ wr.right -> 0x80 ≤ runeAt runes k

theorem runeAt_of_getElem? {runes : List RuneStr} {k : Nat} {r : RuneStr}
    (h : runes[k]? = some r) : runeAt runes k = r.rune := by
  rw [runeAt, List.getD_eq_getElem?_getD, h, Option.getD_some]

theorem munch_of_ruleEnd {first further : Rune -> Bool} {runes : List RuneStr}
    {left end_ : Nat} (hle : end_ ≤ runes.length)
    (hfirst : first (runeAt runes left) = true) :
    Munch first further runes end_ ⟨left, ruleEnd first further runes left end_ - 1⟩ := by
  have hruns := takeWhile_getElem? (fun r : RuneStr => further r.rune)
    (slice runes (left + 1) end_)
  have hprefix := (List.takeWhile_prefix (fun r : RuneStr => further r.rune)
    (l := slice runes (left + 1) end_)).length_le
  have hlength := length_slice runes (i := left + 1) hle
  unfold ruleEnd
  rw [if_pos hfirst]
  generalize ((slice runes (left + 1) end_).takeWhile fun r => further r.rune).length = n
    at hruns hprefix
  have hget : forall k, left + 1 + k < end_ ->
      exists r, (slice runes (left + 1) end_)[k]? = some r ∧
        runeAt runes (left + 1 + k) = r.rune := by
    intro k hk
    have hr := List.getElem?_eq_getElem (Nat.lt_of_lt_of_le hk hle)
    exact ⟨_, (getElem?_slice runes hk).trans hr, runeAt_of_getElem? hr⟩
  refine ⟨hfirst, ?_, ?_⟩
  · intro k hlk hk
    obtain ⟨m, rfl⟩ := Nat.exists_eq_add_of_le (Nat.succ_le_of_lt hlk)
    dsimp only at hk
    rcases hget m (by omega) with ⟨r, hr, hrune⟩
    rw [Nat.succ_eq_add_one, hrune]
    exact hruns.1 m r (by omega) hr
  · intro hlt
    dsimp only at hlt
    have hpos : left + 1 + n - 1 + 1 = left + 1 + n := by
      omega
    rw [hpos] at hlt
    rcases hget n hlt with ⟨r, hr, hrune⟩
    dsimp only
    rw [hpos, hrune]
    exact hruns.2 r hr

theorem asciiWord_asciiEnd {runes : List RuneStr} {left end_ : Nat}
    (hle : end_ ≤ runes.length) (hascii : runeAt runes left < 0x80) :
    AsciiWord runes end_ ⟨left, asciiEnd runes left end_ - 1⟩ := by
  unfold asciiEnd SequentialLetterRule NumbersRule
  dsimp only
  by_cases hletter : isLetter (runeAt runes left) = true
  · have hlt : ruleEnd isLetter (fun x => isLetter x || isDigit x) runes left end_ ≠ left := by
      unfold ruleEnd
      rw [if_pos hletter]
      omega
    rw [if_pos hlt]
    exact Or.inl (munch_of_ruleEnd hle hletter)
  · have hsame : ruleEnd isLetter (fun x => isLetter x || isDigit x) runes left end_ =
        left := if_neg hletter
    rw [hsame, if_neg fun hne => hne rfl]
    by_cases hdigit : isDigit (runeAt runes left) = true
    · have hlt : ruleEnd isDigit (fun x => isDigit x || x == 46) runes left end_ ≠ left := by
        unfold ruleEnd
        rw [if_pos hdigit]
        omega
      rw [if_pos hlt]
      exact Or.inr (Or.inl (munch_of_ruleEnd hle hdigit))
    · have hsame' : ruleEnd isDigit (fun x => isDigit x || x == 46) runes left end_ =
          left := if_neg hdigit
      rw [hsame', if_neg fun hne => hne rfl]
      refine Or.inr (Or.inr ⟨(Nat.add_sub_cancel left 1).symm, hascii, ?_, ?_⟩)
      · exact eq_false_of_ne_true hletter
      · exact eq_false_of_ne_true hdigit

theorem plain_of_mem_InternalCut (model : HMMModel W) {runes : List RuneStr}
    {begin_ end_ : Nat} (hlt : begin_ < end_) (hle : end_ ≤ runes.length)
    (hplain : forall k, begin_ ≤ k -> k < end_ -> 0x80 ≤ runeAt runes k) {wr : WordRange}
    (hwr : wr ∈ InternalCut model runes begin_ end_) : Plain runes wr := by
  have hbounds := (InternalCut_tiles model hlt hle).mem hwr
  intro k hleft hright
  exact hplain k (by omega) (by omega)

/-- The runes before the next ASCII rune, if there are any. -/
theorem pending_spec (model : HMMModel W) {runes : List RuneStr} {left right : Nat}
    (end_ : Nat) (hlr : left ≤ right) (hle : right ≤ runes.length)
    (hplain : forall k, left ≤ k -> k < right -> 0x80 ≤ runeAt runes k) :
    Tiles left (if left ≠ right then InternalCut model runes left right else []) right ∧
      forall wr, wr ∈ (if left ≠ right then InternalCut model runes left right else []) ->
        AsciiWord runes end_ wr ∨ Plain runes wr := by
  by_cases hsame : left = right
  · rw [if_neg fun hne => hne hsame, hsame]
    exact ⟨Tiles.nil right, fun wr hwr => absurd hwr List.not_mem_nil⟩
  · rw [if_pos hsame]
    have hlt := Nat.lt_of_le_of_ne hlr hsame
    exact ⟨InternalCut_tiles model hlt hle,
      fun wr hwr => Or.inr (plain_of_mem_InternalCut model hlt hle hplain hwr)⟩

/-- The words cover the range, and each of them is ASCII or has no ASCII rune. -/
theorem cutRunes_spec (model : HMMModel W) {runes : List RuneStr} {end_ : Nat}
    (hle : end_ ≤ runes.length) {left right : Nat} (hlr : left ≤ right)
    (hre : right ≤ end_)
    (hplain : forall k, left ≤ k -> k < right -> 0x80 ≤ runeAt runes k) :
    Tiles left (cutRunes model runes end_ left right) end_ ∧
      forall wr, wr ∈ cutRunes model runes end_ left right ->
        AsciiWord runes end_ wr ∨ Plain runes wr := by
  induction hn : end_ - right using Nat.strong_induction_on generalizing left right with
  | _ n ih =>
      have hpending := pending_spec model end_ hlr (hre.trans hle) hplain
      rw [cutRunes]
      by_cases hlt : right < end_
      · rw [dif_pos hlt]
        by_cases hascii : runeAt runes right < 0x80
        · rw [if_pos hascii]
          dsimp only
          have hnext := lt_asciiEnd runes right end_
          have hend := asciiEnd_le hlt hle
          have hword := asciiWord_asciiEnd hle hascii
          have hrest := ih (end_ - asciiEnd runes right end_) (by omega)
            (Nat.le_refl (asciiEnd runes right end_)) hend
            (fun k hk hk' => absurd hk (Nat.not_le.mpr hk')) rfl
          have hpos : asciiEnd runes right end_ - 1 + 1 = asciiEnd runes right end_ :=
            Nat.sub_add_cancel (Nat.one_le_of_lt hnext)
          constructor
          · refine hpending.1.append (Tiles.cons (Nat.le_pred_of_lt hnext) ?_)
            rw [hpos]
            exact hrest.1
          · intro wr hwr
            rcases List.mem_append.mp hwr with hwr | hwr
            · exact hpending.2 wr hwr
            · rcases List.mem_cons.mp hwr with rfl | hwr
              · exact Or.inl hword
              · exact hrest.2 wr hwr
        · rw [if_neg hascii]
          refine ih (end_ - (right + 1)) (by omega) (Nat.le_succ_of_le hlr) hlt ?_ rfl
          intro k hleft hright
          rcases Nat.lt_or_eq_of_le (Nat.le_of_lt_succ hright) with hk | rfl
          · exact hplain k hleft hk
          · exact Nat.not_lt.mp hascii
      · rw [dif_neg hlt]
        have heq : right = end_ := by
          omega
        subst heq
        exact hpending

namespace HMMSegment

theorem cutRange_spec (h : HMMSegment W) (runes : List RuneStr) (range : Range)
    (hbe : range.begin_ ≤ range.end_) (hle : range.end_ ≤ runes.length) :
    Tiles range.begin_ (h.cutRange runes range) range.end_ ∧
      forall wr, wr ∈ h.cutRange runes range ->
        AsciiWord runes range.end_ wr ∨ Plain runes wr :=
  cutRunes_spec h.model_ hle (Nat.le_refl range.begin_) hbe
    fun _ hk hk' => absurd hk (Nat.not_le.mpr hk')

end HMMSegment

/-!
## Words that are ASCII or not
-/

theorem lt_of_isLetter {x : Nat} (h : isLetter x = true) : x < 0x80 := by
  unfold isLetter at h
  rw [Bool.or_eq_true, decide_eq_true_iff, decide_eq_true_iff] at h
  omega

theorem lt_of_isDigit {x : Nat} (h : isDigit x = true) : x < 0x80 := by
  unfold isDigit at h
  rw [decide_eq_true_iff] at h
  omega

def IsAllAscii (runes : List RuneStr) (wr : WordRange) : Bool :=
  (List.range' wr.left (wr.right + 1 - wr.left)).all fun k => decide (runeAt runes k < 0x80)

theorem IsAllAscii_iff (runes : List RuneStr) (wr : WordRange) :
    IsAllAscii runes wr = true ↔
      forall k, wr.left ≤ k -> k ≤ wr.right -> runeAt runes k < 0x80 := by
  unfold IsAllAscii
  rw [List.all_eq_true]
  constructor
  · intro h k hleft hright
    exact of_decide_eq_true (h k (List.mem_range'_1.mpr ⟨hleft, by omega⟩))
  · intro h k hk
    rw [List.mem_range'_1] at hk
    exact decide_eq_true (h k hk.1 (by omega))

theorem AsciiWord.isAllAscii {runes : List RuneStr} {end_ : Nat} {wr : WordRange}
    (h : AsciiWord runes end_ wr) : IsAllAscii runes wr = true := by
  rw [IsAllAscii_iff]
  intro k hleft hright
  rcases Nat.lt_or_eq_of_le hleft with hlt | rfl
  · rcases h with h | h | ⟨hsame, -⟩
    · have hk := h.continues k hlt hright
      rw [Bool.or_eq_true] at hk
      rcases hk with hk | hk
      · exact lt_of_isLetter hk
      · exact lt_of_isDigit hk
    · have hk := h.continues k hlt hright
      rw [Bool.or_eq_true, beq_iff_eq] at hk
      rcases hk with hk | hk
      · exact lt_of_isDigit hk
      · rw [hk]
        decide
    · omega
  · rcases h with h | h | ⟨-, hascii, -⟩
    · exact lt_of_isLetter h.begins
    · exact lt_of_isDigit h.begins
    · exact hascii

end Cppjieba
end VoiceTts
