import VoiceTts.Front.InRange

/-!
# The rules for 一

The comments of `YiSandhi` give four rules in order: 一 keeps its tone in a
sequence of digits, it is neutral between two equal characters, it keeps the first
tone behind 第, and otherwise its tone depends on the next one.  The code
guards the first rule with another condition than the rule itself, and it ends the
chain there even when the word is no sequence of digits.
-/

namespace VoiceTts
namespace FrontEngineInterface

/-!
## The rules
-/

def chineseDigits : List Char :=
  ['零', '一', '二', '三', '四', '五', '六', '七', '八', '九']

def Numeric (cs : List Char) : Prop :=
  forall c, c ∈ cs -> c ∈ chineseDigits

instance (cs : List Char) : Decidable (Numeric cs) :=
  inferInstanceAs (Decidable (forall c, c ∈ cs -> c ∈ chineseDigits))

/-- Rule 2 is about words such as 看一看. -/
def Between (cs : List Char) : Prop :=
  cs.length = 3 ∧ cs[1]? = some '一' ∧ cs[0]? = cs[2]?

instance (cs : List Char) : Decidable (Between cs) :=
  inferInstanceAs (Decidable (cs.length = 3 ∧ cs[1]? = some '一' ∧ cs[0]? = cs[2]?))

/-- The tone of 一 in front of a final. -/
def yiTone (next : CString) : UInt8 :=
  if next.getLast? = some 52 then 50 else 52

/-- A 一 that is not the last character. -/
def YiAt (cs : List Char) (i : Nat) : Prop :=
  cs[i]? = some '一' ∧ i + 1 < cs.length

instance (cs : List Char) (i : Nat) : Decidable (YiAt cs i) :=
  inferInstanceAs (Decidable (cs[i]? = some '一' ∧ i + 1 < cs.length))

/-- Rule 4 for the characters before position `m`. -/
def yiBefore (cs : List Char) (finals : List CString) (m : Nat) : List CString :=
  finals.mapIdx fun i f =>
    if i < m ∧ YiAt cs i then toned (yiTone (finals.getD (i + 1) [])) f else f

/-- The rules 2, 3, and 4. -/
def laterRules (cs : List Char) (finals : List CString) : List CString :=
  if Between cs then finals.modify 1 (toned 53)
  else if ['第', '一'] <+: cs then finals.modify 1 (toned 49)
  else yiBefore cs finals cs.length

def yiRules (cs : List Char) (finals : List CString) : List CString :=
  if Numeric cs then finals else laterRules cs finals

/-!
## What the code does
-/

section Word

variable {cs : List Char} {finals : List CString}

theorem toneAt_getD {n i : Nat} (h : Fits n finals) (hi : i < n) :
    exists t, toneAt Container.finals finals i = Except.ok t ∧
      (finals.getD i []).getLast? = some t := by
  have hlt : i < finals.length := by
    rw [h.length_eq]
    exact hi
  have hne : finals[i] ≠ [] := h.ne_nil _ (List.getElem_mem hlt)
  refine ⟨finals[i].getLast hne, ?_, ?_⟩
  · unfold toneAt
    rw [elementAt_of_lt Container.finals finals hlt, ok_bind, back,
      List.getLast?_eq_some_getLast hne]
  · rw [List.getD_eq_getElem?_getD, List.getElem?_eq_getElem hlt, Option.getD_some,
      List.getLast?_eq_some_getLast hne]

theorem yiSandhiStep_letters (h : Fits cs.length finals) (i : Nat) :
    yiSandhiStep (cs.map letter) finals i =
      Except.ok (if YiAt cs i then
        finals.modify i (toned (yiTone (finals.getD (i + 1) []))) else finals) := by
  have hletter : (cs.map letter)[i]? = some (wstr "一") ↔ cs[i]? = some '一' := letter_at
  unfold yiSandhiStep
  simp only [length_letters, hletter]
  split
  · rename_i hcond
    have hyi : YiAt cs i := hcond
    rcases toneAt_getD h hyi.2 with ⟨t, ht, hlast⟩
    have htone : (if t = 52 then 50 else 52 : UInt8) = yiTone (finals.getD (i + 1) []) := by
      unfold yiTone
      rw [hlast]
      simp only [Option.some.injEq]
    rw [if_pos hyi, ht, ok_bind, htone]
    exact h.setTone_eq Container.finals (Nat.lt_of_succ_lt hyi.2) _
  · rename_i hcond
    have hyi : ¬ YiAt cs i := hcond
    rw [if_neg hyi]
    rfl

theorem yiBefore_getElem? (cs : List Char) (finals : List CString) (m i : Nat) :
    (yiBefore cs finals m)[i]? = finals[i]?.map fun f =>
      if i < m ∧ YiAt cs i then toned (yiTone (finals.getD (i + 1) [])) f else f :=
  List.getElem?_mapIdx

theorem yiBefore_of_le {m i : Nat} (h : m ≤ i) :
    (yiBefore cs finals m)[i]? = finals[i]? := by
  rw [yiBefore_getElem?]
  cases finals[i]? with
  | none =>
      rfl
  | some f =>
      rw [Option.map_some, if_neg fun hcond => absurd hcond.1 (Nat.not_lt_of_le h)]

theorem yiBefore_zero (cs : List Char) (finals : List CString) :
    yiBefore cs finals 0 = finals :=
  List.ext_getElem? fun i => yiBefore_of_le (Nat.zero_le i)

theorem fits_yiBefore (h : Fits cs.length finals) (m : Nat) :
    Fits cs.length (yiBefore cs finals m) where
  length_eq := by
    unfold yiBefore
    rw [List.length_mapIdx]
    exact h.length_eq
  ne_nil := by
    intro f hf
    unfold yiBefore at hf
    rcases List.mem_mapIdx.mp hf with ⟨i, hi, rfl⟩
    split
    · exact toned_ne_nil _ _
    · exact h.ne_nil _ (List.getElem_mem hi)

theorem yiBefore_succ (cs : List Char) (finals : List CString) (m : Nat) :
    yiBefore cs finals (m + 1) =
      if YiAt cs m then
        (yiBefore cs finals m).modify m
          (toned (yiTone ((yiBefore cs finals m).getD (m + 1) [])))
      else yiBefore cs finals m := by
  have hnext : (yiBefore cs finals m).getD (m + 1) [] = finals.getD (m + 1) [] := by
    rw [List.getD_eq_getElem?_getD, List.getD_eq_getElem?_getD,
      yiBefore_of_le (Nat.le_succ m)]
  rw [hnext]
  refine List.ext_getElem? fun i => ?_
  by_cases hi : i = m
  · subst hi
    split
    · rename_i hyi
      rw [List.getElem?_modify_eq, yiBefore_of_le (Nat.le_refl i), yiBefore_getElem?]
      simp only [Nat.lt_succ_self, hyi, and_self, if_true]
      rfl
    · rename_i hyi
      rw [yiBefore_of_le (Nat.le_refl i), yiBefore_getElem?]
      simp only [hyi, and_false, if_false, Option.map_id']
  · have hreached : i < m + 1 ↔ i < m := by
      omega
    have hsame : (yiBefore cs finals (m + 1))[i]? = (yiBefore cs finals m)[i]? := by
      rw [yiBefore_getElem?, yiBefore_getElem?]
      simp only [hreached]
    rw [hsame]
    split
    · rw [List.getElem?_modify_ne _ _ (Ne.symm hi)]
    · rfl

theorem yiSandhi_loop (h : Fits cs.length finals) (m : Nat) :
    (List.range m).foldlM (yiSandhiStep (cs.map letter)) finals =
      Except.ok (yiBefore cs finals m) := by
  induction m with
  | zero =>
      rw [yiBefore_zero]
      rfl
  | succ m ih =>
      rw [List.range_succ, List.foldlM_append, ih, ok_bind, List.foldlM_cons,
        yiSandhiStep_letters (fits_yiBefore h m) m, ok_bind, List.foldlM_nil,
        yiBefore_succ]
      rfl

/-- A word with 一 that does not end in 一 ends the chain. -/
theorem YiSandhi_eq (h : Fits cs.length finals) (htwo : 2 ≤ cs.length) :
    YiSandhi (Utf8.encodeChars cs) finals =
      Except.ok (if '一' ∈ cs ∧ cs.getLast? ≠ some '一' then finals
        else laterRules cs finals) := by
  have hmem : wstr "一" ∈ cs.map letter ↔ '一' ∈ cs := letter_mem
  have hlast : (cs.map letter).getLast? = some (wstr "一") ↔
      cs.getLast? = some '一' := letter_last
  have hmiddle : (cs.map letter)[1]? = some (wstr "一") ↔ cs[1]? = some '一' := letter_at
  have hne : cs ≠ [] := by
    rintro rfl
    exact absurd htwo (by decide)
  have hdi : cs ≠ ['第'] := by
    rintro rfl
    exact absurd htwo (by decide)
  unfold YiSandhi
  simp only [Word2WordVec_encodeChars, ok_bind, hmem, Ne, hlast, length_letters, hmiddle,
    letters_eq]
  split
  · rfl
  · unfold laterRules
    split
    · rename_i hcond
      have hbetween : Between cs := hcond
      rw [if_pos hbetween]
      exact h.setTone_eq Container.finals (by omega) 53
    · rename_i hcond
      have hbetween : ¬ Between cs := hcond
      rw [if_neg hbetween, isOrdinal_letters hne hdi, ok_bind]
      simp only [decide_eq_true_eq]
      split
      · exact h.setTone_eq Container.finals (by omega) 49
      · exact yiSandhi_loop h cs.length

/-!
## When the code follows the rules
-/

theorem modify_eq_self_iff {n i : Nat} (h : Fits n finals) (hi : i < n) (t : UInt8) :
    finals.modify i (toned t) = finals ↔ HasTone finals i t := by
  have hlt : i < finals.length := by
    rw [h.length_eq]
    exact hi
  rw [h.hasTone_iff hlt]
  constructor
  · intro hsame
    have hat : (finals.modify i (toned t))[i]? = finals[i]? := by
      rw [hsame]
    rw [List.getElem?_modify_eq, List.getElem?_eq_getElem hlt] at hat
    exact Option.some.inj hat
  · intro hsame
    refine List.ext_getElem (by simp) fun m _ _ => ?_
    rw [List.getElem_modify]
    split
    · rename_i him
      subst him
      exact hsame
    · rfl

theorem yiBefore_eq_self_iff (h : Fits cs.length finals) :
    yiBefore cs finals cs.length = finals ↔
      forall i, YiAt cs i -> HasTone finals i (yiTone (finals.getD (i + 1) [])) := by
  constructor
  · intro hsame i hyi
    have hi : i < cs.length := Nat.lt_of_succ_lt hyi.2
    have hlt : i < finals.length := by
      rw [h.length_eq]
      exact hi
    have hat : (yiBefore cs finals cs.length)[i]? = finals[i]? := by
      rw [hsame]
    rw [yiBefore_getElem?, List.getElem?_eq_getElem hlt, Option.map_some,
      if_pos ⟨hi, hyi⟩, Option.some.injEq] at hat
    exact (h.hasTone_iff hlt _).mpr hat
  · intro htones
    refine List.ext_getElem? fun i => ?_
    rw [yiBefore_getElem?]
    cases hf : finals[i]? with
    | none =>
        rfl
    | some f =>
        rw [Option.map_some, Option.some.injEq]
        split
        · rename_i hcond
          rcases htones i hcond.2 with ⟨g, hg, hlast⟩
          rw [hf, Option.some.injEq] at hg
          subst hg
          exact (toned_eq_self (h.ne_nil f (List.mem_of_getElem? hf))).mpr hlast
        · rfl

structure YiSettled (cs : List Char) (finals : List CString) : Prop where
  between : Between cs -> HasTone finals 1 53
  ordinal : ¬ Between cs -> ['第', '一'] <+: cs -> HasTone finals 1 49
  other : ¬ Between cs -> ¬ ['第', '一'] <+: cs ->
    forall i, YiAt cs i -> HasTone finals i (yiTone (finals.getD (i + 1) []))

theorem laterRules_eq_self_iff (h : Fits cs.length finals) (htwo : 2 ≤ cs.length) :
    laterRules cs finals = finals ↔ YiSettled cs finals := by
  unfold laterRules
  split
  · rename_i hbetween
    rw [modify_eq_self_iff h (by omega) 53]
    constructor
    · intro htone
      exact ⟨fun _ => htone, fun hno => absurd hbetween hno, fun hno => absurd hbetween hno⟩
    · intro hsettled
      exact hsettled.between hbetween
  · rename_i hbetween
    split
    · rename_i hordinal
      rw [modify_eq_self_iff h (by omega) 49]
      constructor
      · intro htone
        exact ⟨fun hyes => absurd hyes hbetween, fun _ _ => htone,
          fun _ hno => absurd hordinal hno⟩
      · intro hsettled
        exact hsettled.ordinal hbetween hordinal
    · rename_i hordinal
      rw [yiBefore_eq_self_iff h]
      constructor
      · intro htones
        exact ⟨fun hyes => absurd hyes hbetween, fun _ hyes => absurd hyes hordinal,
          fun _ _ => htones⟩
      · intro hsettled
        exact hsettled.other hbetween hordinal

theorem yiSettled_of_not_mem (hyi : '一' ∉ cs) (finals : List CString) :
    YiSettled cs finals where
  between := by
    intro hbetween
    exact absurd (List.mem_of_getElem? hbetween.2.1) hyi
  ordinal := by
    intro _ hordinal
    exact absurd (hordinal.subset (by simp)) hyi
  other := by
    intro _ _ i hat
    exact absurd (List.mem_of_getElem? hat.1) hyi

end Word

/--
The code follows the rules exactly for a word without 一, for a sequence of digits
that does not end in 一, for another word that ends in 一, and where the
tones are those of the rules already.
-/
theorem YiSandhi_rules_iff (cs : List Char) (finals : List CString)
    (htwo : 2 ≤ cs.length) (hlength : finals.length = cs.length)
    (hfinals : forall f, f ∈ finals -> f ≠ []) :
    YiSandhi (Utf8.encodeChars cs) finals = Except.ok (yiRules cs finals) ↔
      '一' ∉ cs ∨ (Numeric cs ↔ cs.getLast? ≠ some '一') ∨ YiSettled cs finals := by
  have hfits : Fits cs.length finals := ⟨hlength, hfinals⟩
  have hlater := laterRules_eq_self_iff hfits htwo
  rw [YiSandhi_eq hfits htwo, Except.ok.injEq]
  unfold yiRules
  by_cases hyi : '一' ∈ cs
  · rw [or_iff_right (not_not_intro hyi)]
    by_cases hlast : cs.getLast? = some '一'
    · rw [if_neg fun hcond => hcond.2 hlast]
      by_cases hnumeric : Numeric cs
      · rw [if_pos hnumeric, hlater, or_iff_right]
        intro hiff
        exact hiff.mp hnumeric hlast
      · rw [if_neg hnumeric]
        refine iff_of_true rfl (Or.inl ?_)
        exact iff_of_false hnumeric fun hne => hne hlast
    · rw [if_pos ⟨hyi, hlast⟩]
      by_cases hnumeric : Numeric cs
      · rw [if_pos hnumeric]
        exact iff_of_true rfl (Or.inl (iff_of_true hnumeric hlast))
      · rw [if_neg hnumeric, eq_comm, hlater, or_iff_right]
        intro hiff
        exact hnumeric (hiff.mpr hlast)
  · have hsame := hlater.mpr (yiSettled_of_not_mem hyi finals)
    refine iff_of_true ?_ (Or.inl hyi)
    rw [hsame]
    split
    · split
      · rfl
      · rfl
    · split
      · rfl
      · rfl

/-- 统一 -/
theorem YiSandhi_rules_unite :
    YiSandhi (Utf8.encodeChars ['统', '一']) [str "ong3", str "i1"] =
      Except.ok (yiRules ['统', '一'] [str "ong3", str "i1"]) :=
  (YiSandhi_rules_iff ['统', '一'] [str "ong3", str "i1"] (by decide) (by decide)
    (by decide)).mpr (Or.inr (Or.inl (by decide)))

/-- In 一起 the tone of 一 is left as it is. -/
theorem YiSandhi_rules_together :
    YiSandhi (Utf8.encodeChars ['一', '起']) [str "i1", str "i3"] =
        Except.ok [str "i1", str "i3"] ∧
      yiRules ['一', '起'] [str "i1", str "i3"] = [str "i4", str "i3"] ∧
      YiSandhi (Utf8.encodeChars ['一', '起']) [str "i1", str "i3"] ≠
        Except.ok (yiRules ['一', '起'] [str "i1", str "i3"]) := by
  decide

end FrontEngineInterface
end VoiceTts
