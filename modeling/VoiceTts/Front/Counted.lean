import VoiceTts.Front.NoFinals

/-!
# A counted 个

`NeuralSandhi` looks for the first 个 of a word and for a character before it that
counts, as in 三个.  The rule is one of a chain of rules about the last character,
and it does what they do: the last tone becomes neutral, wherever the 个 stands.
The rule is seen best in a word that the table of neutral tones does not have.
-/

namespace VoiceTts
namespace FrontEngineInterface

variable {cs as bs : List Char} {pos : CString} {finals : List CString}

/-!
## Words that are not in the table
-/

theorem foldlM_skip {step : List CString -> Nat -> Except Error (List CString)}
    (n : Nat) (h : forall i, i < n -> step finals i = Except.ok finals) :
    (List.range n).foldlM step finals = Except.ok finals := by
  induction n with
  | zero =>
      rfl
  | succ n ih =>
      rw [List.range_succ, List.foldlM_append, ih fun i hi => h i (Nat.lt_succ_of_lt hi),
        ok_bind, List.foldlM_cons, h n (Nat.lt_succ_self n)]
      rfl

theorem reduplicationStep_skip {j : Nat} (h : ¬ RepeatsAt cs pos j) :
    reduplicationStep (cs.map letter) pos finals j = Except.ok finals := by
  unfold reduplicationStep
  simp only [letters_eq]
  exact if_neg h

theorem neutralPart_skip (h : ¬ Listed cs) :
    neutralPart (Utf8.encodeChars cs) finals = Except.ok finals := by
  unfold neutralPart
  rw [utf8string2wstring_encodeChars, ok_bind, mustBeNeutral_units, ok_bind,
    decide_eq_false h]
  rfl

theorem neutralParts_skip (has : ¬ Listed as) (hbs : ¬ Listed bs) :
    neutralParts [Utf8.encodeChars as, Utf8.encodeChars bs] finals =
      cutFinals finals as.length >>= fun parts => pure (parts.1 ++ parts.2) := by
  have hunits : (Utf8.units as).length = as.length := List.length_map Char.val
  unfold neutralParts
  change (utf8string2wstring (Utf8.encodeChars as) >>= _) = _
  rw [utf8string2wstring_encodeChars, ok_bind, hunits]
  simp only [neutralPart_skip has, neutralPart_skip hbs, ok_bind]

/-- The rules about the end of a word without the table. -/
def quietEnd (cs : List Char) (pos : CString) (finals : List CString) :
    Except Error (List CString) :=
  if Particle cs pos ∨ isCounted (Utf8.units cs) = true then
    setLastTone Container.finals finals 53
  else pure finals

theorem neutralEnd_skip (h : ¬ Listed cs) :
    neutralEnd (Utf8.encodeChars cs) (Utf8.units cs) pos finals =
      quietEnd cs pos finals := by
  rcases (endsNeutral_units cs pos).exists_ok with ⟨neutral, hneutral, hiff⟩
  have hrules : neutral = true ↔ Particle cs pos ∨ isCounted (Utf8.units cs) = true := by
    rw [hiff, isCounted_units, or_iff_left h]
  unfold neutralEnd quietEnd
  rw [hneutral, ok_bind]
  simp only [hrules]

/-- Neither a word nor one of its two parts is in the table, and nothing is repeated in it. -/
structure Unlisted (as bs : List Char) (pos : CString) : Prop where
  twice : forall j, j < (as ++ bs).length -> ¬ RepeatsAt (as ++ bs) pos j
  word : ¬ Listed (as ++ bs)
  first : ¬ Listed as
  second : ¬ Listed bs

/-- What is left of `NeuralSandhi` for such a word. -/
def quietSandhi (as bs : List Char) (pos : CString) (finals : List CString) :
    Except Error (List CString) := do
  let finals <- quietEnd (as ++ bs) pos finals
  if finals = [] then pure []
  else do
    let parts <- cutFinals finals as.length
    pure (parts.1 ++ parts.2)

theorem NeuralSandhi_quiet {st : Setup} (h : Unlisted as bs pos)
    (hsplit : SplitWord st (Utf8.encodeChars (as ++ bs)) =
      Except.ok [Utf8.encodeChars as, Utf8.encodeChars bs]) (finals : List CString) :
    NeuralSandhi st (Utf8.encodeChars (as ++ bs)) pos finals =
      quietSandhi as bs pos finals := by
  unfold NeuralSandhi quietSandhi
  rw [utf8string2wstring_encodeChars, ok_bind, Word2WordVec_encodeChars, ok_bind,
    length_letters, foldlM_skip _ fun j hj => reduplicationStep_skip (h.twice j hj), ok_bind,
    neutralEnd_skip h.word, hsplit]
  simp only [ok_bind, neutralParts_skip h.first h.second]

/-- All changes of tone, for such a word. -/
def quietTone (st : Setup) (as bs : List Char) (pos : CString) (finals : List CString) :
    Except Error (List CString) := do
  let finals <- BuSandi (Utf8.encodeChars (as ++ bs)) finals
  let finals <- YiSandhi (Utf8.encodeChars (as ++ bs)) finals
  let finals <- quietSandhi as bs pos finals
  ThreeSandhi st (Utf8.encodeChars (as ++ bs)) finals

theorem ModifyTone_quiet {st : Setup} (h : Unlisted as bs pos)
    (hsplit : SplitWord st (Utf8.encodeChars (as ++ bs)) =
      Except.ok [Utf8.encodeChars as, Utf8.encodeChars bs]) (finals : List CString) :
    ModifyTone st (Utf8.encodeChars (as ++ bs)) pos finals =
      quietTone st as bs pos finals := by
  unfold ModifyTone quietTone
  simp only [NeuralSandhi_quiet h hsplit]

/-!
## What the rule does
-/

/-- The rule for a counted 个, and no other one, applies to a word. -/
structure OnlyCounted (as bs : List Char) (pos : CString) (k : Nat) : Prop where
  counts : CountsAt (as ++ bs) k
  particle : ¬ Particle (as ++ bs) pos
  twice : forall j, j < (as ++ bs).length -> ¬ RepeatsAt (as ++ bs) pos j
  word : ¬ Listed (as ++ bs)
  first : ¬ Listed as
  second : ¬ Listed bs

theorem OnlyCounted.unlisted {k : Nat} (h : OnlyCounted as bs pos k) : Unlisted as bs pos :=
  ⟨h.twice, h.word, h.first, h.second⟩

theorem NeuralSandhi_counted {st : Setup} {k : Nat} (h : OnlyCounted as bs pos k)
    (hsplit : SplitWord st (Utf8.encodeChars (as ++ bs)) =
      Except.ok [Utf8.encodeChars as, Utf8.encodeChars bs])
    (hfits : Fits (as ++ bs).length finals) :
    NeuralSandhi st (Utf8.encodeChars (as ++ bs)) pos finals =
      Except.ok (finals.modify ((as ++ bs).length - 1) (toned 53)) := by
  have hk : k < (as ++ bs).length :=
    (List.findIdx?_eq_some_iff_getElem.mp h.counts.1).1
  have hcounted : isCounted (Utf8.units (as ++ bs)) = true :=
    (isCounted_units (as ++ bs)).mpr (Or.inr ⟨k, h.counts⟩)
  have hlast := hfits.modify ((as ++ bs).length - 1) 53
  have hne : finals.modify ((as ++ bs).length - 1) (toned 53) ≠ [] := by
    rw [← List.length_pos_iff, hlast.length_eq]
    omega
  have hfirst : as.length ≤ (finals.modify ((as ++ bs).length - 1) (toned 53)).length := by
    rw [hlast.length_eq, List.length_append]
    omega
  have hend : quietEnd (as ++ bs) pos finals =
      Except.ok (finals.modify ((as ++ bs).length - 1) (toned 53)) := by
    unfold quietEnd
    rw [if_pos (Or.inr hcounted)]
    exact hfits.setLastTone_eq Container.finals (by omega) 53
  rw [NeuralSandhi_quiet h.unlisted hsplit, quietSandhi, hend, ok_bind, if_neg hne, cutFinals,
    if_pos hfirst, ok_bind]
  exact congrArg Except.ok (List.take_append_drop as.length _)

/-!
## When that is the tone of 个
-/

theorem modify_eq_modify_iff {α : Type} {l : List α} {g : α -> α} {i j : Nat}
    (hij : i ≠ j) (hi : i < l.length) (hj : j < l.length) :
    l.modify i g = l.modify j g ↔ g l[i] = l[i] ∧ g l[j] = l[j] := by
  constructor
  · intro h
    have hat : forall m : Nat, (l.modify i g)[m]? = (l.modify j g)[m]? := fun m => by
      rw [h]
    have hati := hat i
    have hatj := hat j
    rw [List.getElem?_modify_eq, List.getElem?_modify_ne _ _ hij.symm,
      List.getElem?_eq_getElem hi] at hati
    rw [List.getElem?_modify_eq, List.getElem?_modify_ne _ _ hij,
      List.getElem?_eq_getElem hj] at hatj
    exact ⟨Option.some.inj hati, (Option.some.inj hatj).symm⟩
  · intro h
    refine List.ext_getElem (by simp) fun m _ _ => ?_
    rw [List.getElem_modify, List.getElem_modify]
    by_cases hmi : i = m
    · subst hmi
      rw [if_pos rfl, if_neg hij.symm]
      exact h.1
    · by_cases hmj : j = m
      · subst hmj
        rw [if_pos rfl, if_neg hmi]
        exact h.2.symm
      · rw [if_neg hmi, if_neg hmj]

/--
A counted 个 gets the neutral tone, and the other characters keep theirs, exactly
when it is the last character; or when its tone and the last one are neutral anyway.
-/
theorem NeuralSandhi_counted_iff (st : Setup) (as bs : List Char) (pos : CString)
    (k : Nat) (finals : List CString) (h : OnlyCounted as bs pos k)
    (hsplit : SplitWord st (Utf8.encodeChars (as ++ bs)) =
      Except.ok [Utf8.encodeChars as, Utf8.encodeChars bs])
    (hlength : finals.length = (as ++ bs).length)
    (hfinals : forall f, f ∈ finals -> f ≠ []) :
    NeuralSandhi st (Utf8.encodeChars (as ++ bs)) pos finals =
        Except.ok (finals.modify k (toned 53)) ↔
      k + 1 = (as ++ bs).length ∨
        (HasTone finals k 53 ∧ HasTone finals ((as ++ bs).length - 1) 53) := by
  have hfits : Fits (as ++ bs).length finals := ⟨hlength, hfinals⟩
  have hk : k < finals.length := by
    rw [hlength]
    exact (List.findIdx?_eq_some_iff_getElem.mp h.counts.1).1
  have hlast : (as ++ bs).length - 1 < finals.length := by
    omega
  rw [NeuralSandhi_counted h hsplit hfits, Except.ok.injEq]
  by_cases hsame : k + 1 = (as ++ bs).length
  · rw [← hsame, Nat.add_sub_cancel]
    simp
  · have hne : (as ++ bs).length - 1 ≠ k := by
      omega
    rw [modify_eq_modify_iff hne hlast hk, hfits.hasTone_iff hk, hfits.hasTone_iff hlast,
      and_comm, or_iff_right hsame]

/-- Two pairs of characters that no word of the table has. -/
theorem not_neural_counted : forall s, s ∈ ["三个", "个人"] ->
    str s ∉ must_neural_tone_words := by
  intro s hs
  unfold must_neural_tone_words
  rw [List.mem_map_of_injective str_injective]
  revert s
  decide +kernel

theorem not_listed_three : ¬ Listed ['三', '个'] :=
  not_listed_of_tail (by decide) (not_neural_counted "三个" (by decide))

/-- 三个 -/
theorem NeuralSandhi_counted_three :
    OnlyCounted ['三', '个'] [] (str "m") 1 ∧
      NeuralSandhi (cutting [str "三个"]) (Utf8.encodeChars (['三', '个'] ++ [])) (str "m")
          [str "an1", str "e4"] =
        Except.ok ([str "an1", str "e4"].modify 1 (toned 53)) := by
  have honly : OnlyCounted ['三', '个'] [] (str "m") 1 :=
    { counts := ⟨by decide, by decide, by decide⟩
      particle := by decide
      twice := by
        intro j _ hrepeats
        exact absurd hrepeats.2.2 (by decide)
      word := not_listed_three
      first := not_listed_three
      second := not_listed_of_length (by decide) }
  constructor
  · exact honly
  · exact (NeuralSandhi_counted_iff _ ['三', '个'] [] (str "m") 1 _ honly (by decide)
      (by decide) (by decide)).mpr (Or.inl (by decide))

theorem not_listed_three_people : ¬ Listed ['三', '个', '人'] :=
  not_listed_of_tail (by decide) (not_neural_counted "个人" (by decide))

/-- In 三个人 the tone of 人 is lost and 个 keeps its own. -/
theorem NeuralSandhi_counted_three_people :
    OnlyCounted ['三', '个', '人'] [] (str "n") 1 ∧
      SplitWord (cutting [str "三个人"]) (Utf8.encodeChars (['三', '个', '人'] ++ [])) =
        Except.ok [Utf8.encodeChars ['三', '个', '人'], Utf8.encodeChars []] ∧
      NeuralSandhi (cutting [str "三个人"]) (Utf8.encodeChars (['三', '个', '人'] ++ []))
          (str "n") [str "an1", str "e4", str "en2"] =
        Except.ok [str "an1", str "e4", str "en5"] ∧
      [str "an1", str "e4", str "en5"] ≠
        [str "an1", str "e4", str "en2"].modify 1 (toned 53) := by
  have honly : OnlyCounted ['三', '个', '人'] [] (str "n") 1 :=
    { counts := ⟨by decide, by decide, by decide⟩
      particle := by decide
      twice := by
        intro j hj hrepeats
        have hpairs : forall j, j < 3 -> 1 ≤ j ->
            ['三', '个', '人'][j]? ≠ ['三', '个', '人'][j - 1]? := by
          decide
        exact hpairs j hj hrepeats.1 hrepeats.2.1
      word := not_listed_three_people
      first := not_listed_three_people
      second := not_listed_of_length (by decide) }
  have hsplit : SplitWord (cutting [str "三个人"])
      (Utf8.encodeChars (['三', '个', '人'] ++ [])) =
      Except.ok [Utf8.encodeChars ['三', '个', '人'], Utf8.encodeChars []] := by
    decide
  constructor
  · exact honly
  constructor
  · exact hsplit
  constructor
  · exact NeuralSandhi_counted honly hsplit ⟨rfl, by decide⟩
  · decide

end FrontEngineInterface
end VoiceTts
