import VoiceTts.Front.Endings
import VoiceTts.Front.Inventory

/-!
# The fold of 儿

`MergeErhua` asks two lists of exceptions, a list of tags, the number of finals
and, in its last round, the end of the word.  This module says of the characters
of a word what these tests come to together, and what the two lists are then.
-/

namespace VoiceTts
namespace FrontEngineInterface

/-!
## When 儿 is folded
-/

/-- The lists and the tag let 儿 be folded in this word. -/
def Admits (word pos : CString) : Prop :=
  word ∈ must_erhua ∨ (word ∉ not_erhua ∧ pos ∉ ["a", "j", "nr"].map str)

theorem not_exempt_iff {word pos : CString} {word_wstr : WString} {n : Nat} :
    ¬ Exempt word pos word_wstr n ↔ n = word_wstr.length ∧ Admits word pos := by
  unfold Exempt Admits
  tauto

/-- The word ends in 儿, and its last final and its last two characters allow a fold. -/
structure Closes (cs : List Char) (er : CString) : Prop where
  two_characters : 2 ≤ cs.length
  ends_in_er : cs.getLast? = some '儿'
  tone : er = str "er2" ∨ er = str "er5"
  no_exception : Utf8.encodeChars (cs.drop (cs.length - 2)) ∉ not_erhua

theorem last_unit {cs : List Char} {i : Nat} (h : i + 1 = cs.length) :
    (Utf8.units cs)[i]? = some 20799 ↔ cs.getLast? = some '儿' := by
  have hi : i = cs.length - 1 := by
    omega
  unfold Utf8.units
  rw [List.getElem?_map, hi, ← List.getLast?_eq_getElem?, Option.map_eq_some_iff]
  constructor
  · intro h
    rcases h with ⟨c, hc, hval⟩
    rw [hc, show c = '儿' from Char.ext hval]
  · intro h
    exact ⟨'儿', h, rfl⟩

theorem foldsEr_units {cs : List Char} {fs : List CString} {er : CString}
    (h : (fs ++ [er]).length = cs.length) :
    Yields (fun folds => folds = true ↔ Closes cs er) (fun _ : Error => False)
      (foldsEr (Utf8.units cs) (fs ++ [er]) fs fs.length er) := by
  have hsize : fs.length + 1 = cs.length := by
    rw [← h, List.length_append]
    rfl
  have hunits : (Utf8.units cs).length = cs.length := List.length_map Char.val
  unfold foldsEr
  simp only [last_unit hsize, hunits, lastTwo_units]
  split
  · rename_i hcond
    change _ ↔ _
    rw [decide_eq_true_eq]
    constructor
    · intro htail
      exact ⟨hcond.2.2.2, hcond.2.1, hcond.2.2.1, htail.1⟩
    · intro hcloses
      refine ⟨hcloses.no_exception, ?_⟩
      rintro rfl
      exact absurd hcond.2.2.2 (by rw [← hsize]; decide)
  · rename_i hcond
    change _ ↔ _
    constructor
    · intro hfalse
      cases hfalse
    · intro hcloses
      refine absurd ?_ hcond
      exact ⟨by simp, hcloses.ends_in_er, hcloses.tone, hcloses.two_characters⟩

/-!
## The two lists
-/

/-- The word admits the fold, it has one final per character, and it closes in 儿. -/
structure FoldsEr (cs : List Char) (pos : CString) (finals : List CString) : Prop where
  one_final_each : finals.length = cs.length
  admits : Admits (Utf8.encodeChars cs) pos
  closes : exists er, finals.getLast? = some er ∧ Closes cs er

theorem foldsEr_concat {cs : List Char} {pos er : CString} {fs : List CString} :
    FoldsEr cs pos (fs ++ [er]) ↔
      ¬ Exempt (Utf8.encodeChars cs) pos (Utf8.units cs) (fs ++ [er]).length ∧
        Closes cs er := by
  have hunits : (Utf8.units cs).length = cs.length := List.length_map Char.val
  rw [not_exempt_iff, hunits]
  constructor
  · intro h
    rcases h.closes with ⟨er', hlast, hcloses⟩
    rw [List.getLast?_concat, Option.some_inj] at hlast
    rw [← hlast] at hcloses
    exact ⟨⟨h.one_final_each, h.admits⟩, hcloses⟩
  · intro h
    exact ⟨h.1.1, h.1.2, er, List.getLast?_concat, h.2⟩

theorem MergeErhua_copies {cs : List Char} {pos : CString} {initials finals : List CString}
    (hlen : initials.length = finals.length) (h : ¬ FoldsEr cs pos finals) :
    MergeErhua initials finals (Utf8.encodeChars cs) pos =
      Except.ok (initials, finals) := by
  have hword := utf8string2wstring_encodeChars cs
  by_cases hexempt : Exempt (Utf8.encodeChars cs) pos (Utf8.units cs) finals.length
  · exact MergeErhua_of_exempt hword hexempt
  · rw [MergeErhua_of_not_exempt hword hexempt]
    rcases concat_of_length_eq hlen with ⟨rfl, rfl⟩ | ⟨is, initial, fs, er, rfl, rfl, hlen'⟩
    · rfl
    · have hsize : (fs ++ [er]).length = cs.length := by
        rw [not_exempt_iff] at hexempt
        rw [hexempt.1]
        exact List.length_map Char.val
      rw [foldlM_erhuaStep_concat hlen']
      have htest := @foldsEr_units cs fs er hsize
      cases hfolds : foldsEr (Utf8.units cs) (fs ++ [er]) fs fs.length er with
      | error err =>
          rw [hfolds] at htest
          exact htest.elim
      | ok folds =>
          rw [hfolds] at htest
          cases folds with
          | false =>
              rfl
          | true =>
              exact absurd (foldsEr_concat.mpr ⟨hexempt, htest.mp rfl⟩) h

theorem FoldsEr.split {cs : List Char} {pos : CString} {finals : List CString}
    (h : FoldsEr cs pos finals) :
    exists fs final er, finals = fs ++ [final] ++ [er] := by
  rcases h.closes with ⟨er, hlast, hcloses⟩
  have htwo : 2 ≤ finals.length := by
    rw [h.one_final_each]
    exact hcloses.two_characters
  rcases List.eq_nil_or_concat finals with rfl | ⟨gs, er', rfl⟩
  · cases hlast
  · rcases List.eq_nil_or_concat gs with rfl | ⟨fs, final, rfl⟩
    · simp at htwo
    · exact ⟨fs, final, er', by simp⟩

theorem FoldsEr.merges {cs : List Char} {pos : CString} {initials finals : List CString}
    (hlen : initials.length = finals.length) (h : FoldsEr cs pos finals) :
    exists fs final er, finals = fs ++ [final] ++ [er] ∧
      MergeErhua initials finals (Utf8.encodeChars cs) pos =
        (rhotic final).map fun last => (initials.dropLast, fs ++ [last]) := by
  rcases h.split with ⟨fs, final, er, rfl⟩
  refine ⟨fs, final, er, rfl, ?_⟩
  rcases concat_of_length_eq hlen with ⟨-, hnil⟩ | ⟨is, initial, gs, er', rfl, hgs, hlen'⟩
  · simp at hnil
  · rcases List.append_inj' hgs rfl with ⟨rfl, her⟩
    rcases foldsEr_concat.mp h with ⟨hexempt, hcloses⟩
    have hlast : (Utf8.units cs).getLast? = some 20799 := by
      unfold Utf8.units
      rw [List.getLast?_map, hcloses.ends_in_er]
      rfl
    rw [MergeErhua_rhotic hlen' (utf8string2wstring_encodeChars cs) hexempt hcloses.tone
      hlast (lastTwo_units cs) hcloses.no_exception, List.dropLast_concat]

theorem MergeErhua_folded {cs : List Char} {pos : CString} {initials finals : List CString}
    (hlen : initials.length = finals.length) (hne : forall f, f ∈ finals -> f ≠ [])
    (h : FoldsEr cs pos finals) :
    exists fs f t er, finals = fs ++ [f ++ [t]] ++ [er] ∧
      MergeErhua initials finals (Utf8.encodeChars cs) pos =
        Except.ok (initials.dropLast, fs ++ [f ++ str "r" ++ [t]]) := by
  rcases h.merges hlen with ⟨fs, final, er, rfl, hmerge⟩
  have hfinal : final ≠ [] := hne final (by simp)
  refine ⟨fs, final.dropLast, final.getLast hfinal, er, ?_, ?_⟩
  · rw [List.dropLast_append_getLast hfinal]
  · rw [hmerge, rhotic_eq hfinal, coloured, List.getLastD_eq_getLast?,
      List.getLast?_eq_some_getLast hfinal]
    rfl

theorem MergeErhua_returns {cs : List Char} {pos : CString}
    {initials finals : List CString} {r : List CString × List CString}
    (hlen : initials.length = finals.length)
    (h : MergeErhua initials finals (Utf8.encodeChars cs) pos = Except.ok r) :
    (¬ FoldsEr cs pos finals ∧ r = (initials, finals)) ∨
      (FoldsEr cs pos finals ∧ exists fs final er, finals = fs ++ [final] ++ [er] ∧
        final ≠ [] ∧ r = (initials.dropLast, fs ++ [coloured final])) := by
  by_cases hfolds : FoldsEr cs pos finals
  · refine Or.inr ⟨hfolds, ?_⟩
    rcases hfolds.merges hlen with ⟨fs, final, er, rfl, hmerge⟩
    rw [hmerge] at h
    rcases except_map_eq_ok.mp h with ⟨last, hrhotic, rfl⟩
    have hfinal : final ≠ [] := by
      rintro rfl
      cases hrhotic
    rw [rhotic_eq hfinal] at hrhotic
    cases hrhotic
    exact ⟨fs, final, er, rfl, hfinal, rfl⟩
  · rw [MergeErhua_copies hlen hfolds] at h
    exact Or.inl ⟨hfolds, (Except.ok.inj h).symm⟩

/--
Both lists come out equally long, and they differ from what went in exactly when
儿 is folded.
-/
theorem MergeErhua_iff {cs : List Char} {pos : CString} {initials finals : List CString}
    (hlen : initials.length = finals.length) (hne : forall f, f ∈ finals -> f ≠ []) :
    exists new_initials new_finals,
      MergeErhua initials finals (Utf8.encodeChars cs) pos =
        Except.ok (new_initials, new_finals) ∧
      new_initials.length = new_finals.length ∧
      ((new_initials ≠ initials ∨ new_finals ≠ finals) ↔
        finals.length = cs.length ∧ 2 ≤ cs.length ∧ cs.getLast? = some '儿' ∧
        (finals.getLast? = some (str "er2") ∨ finals.getLast? = some (str "er5")) ∧
        Utf8.encodeChars (cs.drop (cs.length - 2)) ∉ not_erhua ∧
        (Utf8.encodeChars cs ∈ must_erhua ∨
          (Utf8.encodeChars cs ∉ not_erhua ∧ pos ∉ ["a", "j", "nr"].map str))) ∧
      ((new_initials ≠ initials ∨ new_finals ≠ finals) ->
        exists fs f t er, finals = fs ++ [f ++ [t]] ++ [er] ∧
          new_initials = initials.dropLast ∧
          new_finals = fs ++ [f ++ str "r" ++ [t]]) := by
  have hconditions : FoldsEr cs pos finals ↔
      finals.length = cs.length ∧ 2 ≤ cs.length ∧ cs.getLast? = some '儿' ∧
      (finals.getLast? = some (str "er2") ∨ finals.getLast? = some (str "er5")) ∧
      Utf8.encodeChars (cs.drop (cs.length - 2)) ∉ not_erhua ∧
      (Utf8.encodeChars cs ∈ must_erhua ∨
        (Utf8.encodeChars cs ∉ not_erhua ∧ pos ∉ ["a", "j", "nr"].map str)) := by
    constructor
    · intro h
      rcases h.closes with ⟨er, hlast, hcloses⟩
      refine ⟨h.one_final_each, hcloses.two_characters, hcloses.ends_in_er, ?_,
        hcloses.no_exception, h.admits⟩
      rw [hlast]
      exact hcloses.tone.imp (congrArg some) (congrArg some)
    · rintro ⟨hsize, htwo, hend, hlast, htail, hadmits⟩
      refine ⟨hsize, hadmits, ?_⟩
      cases hlast with
      | inl h =>
          exact ⟨_, h, htwo, hend, Or.inl rfl, htail⟩
      | inr h =>
          exact ⟨_, h, htwo, hend, Or.inr rfl, htail⟩
  by_cases h : FoldsEr cs pos finals
  · rcases MergeErhua_folded hlen hne h with ⟨fs, f, t, er, rfl, hmerge⟩
    have hsize : (fs ++ [f ++ str "r" ++ [t]]).length + 1 =
        (fs ++ [f ++ [t]] ++ [er]).length := by
      simp
    have hchanged : fs ++ [f ++ str "r" ++ [t]] ≠ fs ++ [f ++ [t]] ++ [er] := by
      intro heq
      rw [heq] at hsize
      exact Nat.succ_ne_self _ hsize
    refine ⟨_, _, hmerge, ?_, ?_, ?_⟩
    · rw [List.length_dropLast, hlen, ← hsize]
      rfl
    · exact iff_of_true (Or.inr hchanged) (hconditions.mp h)
    · intro _
      exact ⟨fs, f, t, er, rfl, rfl, rfl⟩
  · refine ⟨_, _, MergeErhua_copies hlen h, hlen, ?_, ?_⟩
    · exact iff_of_false (by simp) fun hcond => h (hconditions.mpr hcond)
    · intro hdiffers
      simp at hdiffers

/-- 小孩儿 is in no list, and its last final is folded into the one before it. -/
theorem MergeErhua_iff_child :
    exists new_initials new_finals,
      MergeErhua [str "x", str "h", []] [str "iao3", str "ai2", str "er2"]
          (Utf8.encodeChars ['小', '孩', '儿']) (str "n") =
        Except.ok (new_initials, new_finals) ∧
      new_initials.length = new_finals.length ∧
      (new_initials ≠ [str "x", str "h", []] ∨
        new_finals ≠ [str "iao3", str "ai2", str "er2"]) ∧
      exists fs f t er, [str "iao3", str "ai2", str "er2"] = fs ++ [f ++ [t]] ++ [er] ∧
        new_initials = [str "x", str "h", []].dropLast ∧
        new_finals = fs ++ [f ++ str "r" ++ [t]] := by
  rcases @MergeErhua_iff ['小', '孩', '儿'] (str "n") [str "x", str "h", []]
    [str "iao3", str "ai2", str "er2"] rfl (by decide) with
      ⟨is, fs, hmerge, hsize, hchanges, hfolded⟩
  have hchanged := hchanges.mpr (by decide +kernel)
  exact ⟨is, fs, hmerge, hsize, hchanged, hfolded hchanged⟩

end FrontEngineInterface
end VoiceTts
