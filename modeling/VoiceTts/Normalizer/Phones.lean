import VoiceTts.Lib.RewriteLocal
import VoiceTts.Normalizer.Sentences

/-!
# Telephone numbers

The two telephone rules read a number digit by digit.  The list of its parts
lives outside the loop, and `Stringsplit` only ever appends to it: from the second
number on, a round says all numbers before once more.
-/

namespace VoiceTts
namespace Spoken

open TextNormalizer Reading Prog Regex

/-!
## What a listener hears
-/

/-- The digits of `w` one by one, with 幺 for `1`. -/
def dial (w : WString) : WString :=
  Utf8.units (spell true (Utf8.narrow (w.filter isDigit)))

/-- The digit that a character is, written or said. -/
def digitOf (c : UInt32) : Option Nat :=
  if isDigit c then some (c.toNat - 48)
  else if c = '幺'.val then some 1
  else (wstr "零一二三四五六七八九").idxOf? c

/-- The digits of a sentence in order, whether they are written or said. -/
def heard (w : WString) : List Nat :=
  w.filterMap digitOf

theorem heard_append (u v : WString) : heard (u ++ v) = heard u ++ heard v :=
  List.filterMap_append

theorem dial_append (u v : WString) : dial (u ++ v) = dial u ++ dial v := by
  simp [dial, Utf8.narrow, Utf8.units, spell]

/-- Of the characters of a number only the digits are said, each as itself. -/
theorem dialled_char {c : UInt32} (h : IsDialled c) :
    heard (dial [c]) = heard [c] ∧
      Utf8.units (spell true (Utf8.narrow [c])) = dial [c] ∧
      forall x, x ∈ dial [c] -> ¬ IsDialled x := by
  have hall : forall i : Fin 128, IsDialled (UInt32.ofNat i) ->
      heard (dial [UInt32.ofNat i]) = heard [UInt32.ofNat i] ∧
        Utf8.units (spell true (Utf8.narrow [UInt32.ofNat i])) =
          dial [UInt32.ofNat i] ∧
        forall x, x ∈ dial [UInt32.ofNat i] -> ¬ IsDialled x := by
    decide +kernel
  have hlt : c.toNat < 128 := by
    rcases h with h | rfl | rfl | rfl
    · have := isDigit_iff.mp h
      omega
    · decide
    · decide
    · decide
  have hc : UInt32.ofNat c.toNat = c := UInt32.ofNat_toNat
  have hchar := hall ⟨c.toNat, hlt⟩
  rw [hc] at hchar
  exact hchar h

theorem dialled_text {w : WString} (h : forall c, c ∈ w -> IsDialled c) :
    heard (dial w) = heard w ∧
      Utf8.units (spell true (Utf8.narrow w)) = dial w ∧
      forall x, x ∈ dial w -> ¬ IsDialled x := by
  induction w with
  | nil =>
      exact ⟨rfl, rfl, by simp [dial, Utf8.units, Utf8.narrow, spell]⟩
  | cons c w ih =>
      obtain ⟨hheard, hsaid, hforeign⟩ := dialled_char (h c List.mem_cons_self)
      obtain ⟨hheard', hsaid', hforeign'⟩ := ih fun x hx => h x (List.mem_cons_of_mem c hx)
      have hsplit : dial (c :: w) = dial [c] ++ dial w := dial_append [c] w
      refine ⟨?_, ?_, ?_⟩
      · rw [hsplit, heard_append, hheard, hheard']
        exact (heard_append [c] w).symm
      · rw [hsplit, ← hsaid, ← hsaid']
        simp [Utf8.units, Utf8.narrow, spell]
      · intro x hx
        rw [hsplit] at hx
        rcases List.mem_append.mp hx with hx | hx
        · exact hforeign x hx
        · exact hforeign' x hx

/-- The cuts of `Stringsplit` take away no digit. -/
theorem spell_splitParts (alt_one : Bool) (cur s : CString) :
    (splitParts 43 cur (s ++ [43])).flatMap (spell alt_one) =
      spell alt_one (cur ++ s) := by
  induction s generalizing cur with
  | nil =>
      simp [splitParts]
  | cons c s ih =>
      rw [List.cons_append, splitParts]
      split
      · rename_i hc
        rw [List.flatMap_cons, ih, hc]
        simp [spell, digitName]
      · rw [ih]
        simp

theorem spell_Stringsplit (alt_one : Bool) (s : CString) :
    (Stringsplit s 43).flatMap (spell alt_one) = spell alt_one s := by
  unfold Stringsplit
  split
  · rename_i hs
    rw [hs]
    rfl
  · exact spell_splitParts alt_one [] s

/-!
## The rounds of a telephone rule
-/

section Rounds

variable {pattern : Regex UInt32} {parts : List CString} {s : WString} {mt : Match UInt32}

theorem phone_body (hall : pattern.All IsDialled) (hsearch : pattern.search s = some mt) :
    (phone pattern).body parts mt.group =
      Except.ok (parts ++ Stringsplit (Utf8.narrow mt.text) 43,
        Utf8.units (parts.flatMap (spell true)) ++ dial mt.text) := by
  have hown := (dialled_text (dialled_of_all hall hsearch)).2.1
  have hgroup : mt.group 0 = mt.text := rfl
  rw [← hown, ← spell_Stringsplit true (Utf8.narrow mt.text)]
  simp only [phone, hgroup, List.flatMap_append, Utf8.units, List.map_append]
  rfl

theorem dial_ne_nil (hmust : pattern.Must fun c => isDigit c = true)
    (hsearch : pattern.search s = some mt) : dial mt.text ≠ [] := by
  obtain ⟨c, hc, hdigit⟩ := run_must hmust (Match.search_hit hsearch)
  have hbounds := isDigit_iff.mp hdigit
  have hbyte : c.toUInt8.toNat = c.toNat := toUInt8_toNat (by omega)
  refine units_ne_nil (spell_ne_nil (c := c.toUInt8) ?_ ?_)
  · exact List.mem_map_of_mem (List.mem_filter.mpr ⟨hc, hdigit⟩)
  · rw [isdigit_iff, hbyte]
    exact hbounds

/-- After the first round the search goes on behind the first number. -/
theorem search_behind (hall : pattern.All IsDialled)
    (hmust : pattern.Must fun c => isDigit c = true)
    (hsearch : pattern.search s = some mt) :
    pattern.search (mt.pre ++ dial mt.text ++ mt.post) =
      (pattern.search mt.post).map fun m =>
        ⟨mt.pre ++ dial mt.text ++ m.pre, m.text, m.post,
          m.caps.shift (mt.pre ++ dial mt.text).length⟩ := by
  have hnull := hmust.not_nullable
  obtain ⟨v, -, hbefore, -⟩ := search_eq_some.mp hsearch
  exact search_blocked
    (blocked_of_foreign hall hnull (free_of_noHitBefore hnull hbefore)
      (dial_ne_nil hmust hsearch) (dialled_text (dialled_of_all hall hsearch)).2.2) mt.post

end Rounds

/--
Each round says the digits of its own match, and the sentence that comes back is
heard as the one that went in.
-/
structure SaysOwnDigits (rule : Rule NormM (List CString) UInt32) (s : WString)
    (n : TextNormalizer) : Prop where
  own : forall c c' mt rep, rule.Reaches ⟨[], s, n⟩ c -> rule.Round c mt rep c' ->
    rep = dial mt.text
  whole : forall s', (replaceAll rule [] s n).1 = Except.ok s' -> heard s' = heard s

section Numbers

variable {rule : Rule NormM (List CString) UInt32} {pattern : Regex UInt32}
  {s : WString} {n : TextNormalizer}

theorem first_round (href : Rule.Refines Valid rule (phone pattern))
    (hall : pattern.All IsDialled) (hn : Valid n) {mt : Match UInt32} {rep : WString}
    {c : Rule.Config TextNormalizer (List CString) UInt32}
    (hround : rule.Round ⟨[], s, n⟩ mt rep c) :
    pattern.search s = some mt ∧ rep = dial mt.text ∧
      c.sentence = mt.pre ++ dial mt.text ++ mt.post := by
  obtain ⟨hsearch, hbody, hsentence, -⟩ := href.round hn hround
  rw [phone_body hall hsearch] at hbody
  have hrep : dial mt.text = rep := congrArg Prod.snd (Except.ok.inj hbody)
  refine ⟨hsearch, hrep.symm, ?_⟩
  rw [hsentence, hrep]
  exact Rule.replaced_eq rfl hsearch rep

/-- There is no second round when nothing is found behind the first number. -/
theorem rounds_of_one (href : Rule.Refines Valid rule (phone pattern))
    (hall : pattern.All IsDialled) (hmust : pattern.Must fun c => isDigit c = true)
    (hn : Valid n)
    (hone : forall mt, pattern.search s = some mt -> pattern.search mt.post = none)
    {c : Rule.Config TextNormalizer (List CString) UInt32}
    (hreach : rule.Reaches ⟨[], s, n⟩ c) :
    c = ⟨[], s, n⟩ ∨ rule.pattern.search c.sentence = none := by
  induction hreach with
  | start => exact Or.inl rfl
  | round _ hround ih =>
      right
      rcases ih with rfl | hnone
      · obtain ⟨hsearch, -, hsentence⟩ := first_round href hall hn hround
        rw [hsentence, href.pattern]
        change pattern.search _ = none
        rw [search_behind hall hmust hsearch, hone _ hsearch]
        rfl
      · have hfound := hround.found
        rw [hnone] at hfound
        cases hfound

theorem saysOwnDigits_of_one (href : Rule.Refines Valid rule (phone pattern))
    (hall : pattern.All IsDialled) (hmust : pattern.Must fun c => isDigit c = true)
    (hn : Valid n)
    (hone : forall mt, pattern.search s = some mt -> pattern.search mt.post = none) :
    SaysOwnDigits rule s n := by
  constructor
  · intro c c' mt rep hreach hround
    rcases rounds_of_one href hall hmust hn hone hreach with rfl | hnone
    · exact (first_round href hall hn hround).2.1
    · have hfound := hround.found
      rw [hnone] at hfound
      cases hfound
  · intro s' hs'
    have heffect := effective_phone (fun _ _ => dialled_of_all hall) hmust
    cases hsearch : pattern.search s with
    | none =>
        have hruns : (phone pattern).Runs [] s (Except.ok s) := Rule.Runs.done hsearch
        rw [replaceAll_of_runs href heffect hmust hn hruns] at hs'
        cases hs'
        rfl
    | some mt =>
        have hnone : pattern.search (mt.pre ++ dial mt.text ++ mt.post) = none := by
          rw [search_behind hall hmust hsearch, hone mt hsearch]
          rfl
        have hruns : (phone pattern).Runs [] s
            (Except.ok (mt.pre ++ dial mt.text ++ mt.post)) := by
          refine Rule.Runs.round hsearch (phone_body hall hsearch) ?_
          rw [Rule.replaced_eq rfl hsearch]
          exact Rule.Runs.done hnone
        rw [replaceAll_of_runs href heffect hmust hn hruns] at hs'
        cases hs'
        rw [heard_append, heard_append, (dialled_text (dialled_of_all hall hsearch)).1,
          ← heard_append, ← heard_append, ← Match.search_splits hsearch]

/-- The second round says the first number once more. -/
theorem search_of_saysOwnDigits (href : Rule.Refines Valid rule (phone pattern))
    (hall : pattern.All IsDialled) (hmust : pattern.Must fun c => isDigit c = true)
    (hn : Valid n) (h : SaysOwnDigits rule s n) {mt : Match UInt32}
    (hsearch : pattern.search s = some mt) : pattern.search mt.post = none := by
  cases hnext : pattern.search mt.post with
  | none => rfl
  | some mt' =>
      obtain ⟨c, hround, hcarried⟩ := href.exists_round (c := ⟨[], s, n⟩) hn hsearch
        (phone_body hall hsearch)
      have hreach := Rule.Reaches.round Rule.Reaches.start hround
      have hbehind := search_behind hall hmust hsearch
      rw [hnext, ← (first_round href hall hn hround).2.2] at hbehind
      obtain ⟨c', hround', -⟩ := href.exists_round (href.reaches hn hreach) hbehind
        (phone_body hall hbehind)
      have hrep := h.own _ _ _ _ hreach hround'
      rw [hcarried, List.nil_append, spell_Stringsplit,
        (dialled_text (dialled_of_all hall hsearch)).2.1] at hrep
      exact absurd (List.append_left_eq_self.mp hrep) (dial_ne_nil hmust hsearch)

theorem saysOwnDigits_iff (href : Rule.Refines Valid rule (phone pattern))
    (hall : pattern.All IsDialled) (hmust : pattern.Must fun c => isDigit c = true)
    (hn : Valid n) : SaysOwnDigits rule s n ↔ (pattern.found s).length ≤ 1 := by
  have hnull := hmust.not_nullable
  constructor
  · intro h
    cases hsearch : pattern.search s with
    | none =>
        have hnil := (foundIn_eq_nil hnull (Nat.le_refl s.length)).mpr hsearch
        rw [found, hnil]
        exact Nat.zero_le 1
    | some mt =>
        rw [length_found_le_one hnull hsearch]
        exact search_of_saysOwnDigits href hall hmust hn h hsearch
  · intro h
    apply saysOwnDigits_of_one href hall hmust hn
    intro mt hsearch
    exact (length_found_le_one hnull hsearch).mp h

end Numbers

/--
The telephone rules say each number by its own digits, and the sentence is heard
as it was written, exactly when one pass over the sentence finds at most one number.
-/
theorem ReMobilePhone_RePhone_iff (n : TextNormalizer) (hn : Reachable n) (s : WString) :
    (SaysOwnDigits mobilePhoneRule s n ↔ (mobilePhonePattern.found s).length ≤ 1) ∧
      (SaysOwnDigits phoneRule s n ↔ (phonePattern.found s).length ≤ 1) := by
  constructor
  · exact saysOwnDigits_iff (refines_phone fun _ _ => mobilePhone_dialled)
      all_mobilePhone must_mobilePhone hn.valid
  · exact saysOwnDigits_iff (refines_phone fun _ _ => phone_dialled) all_phone must_phone
      hn.valid

theorem ReMobilePhone_RePhone_iff_one :
    SaysOwnDigits mobilePhoneRule (wstr "+86 18883862235") construct ∧
      SaysOwnDigits phoneRule (wstr "010-51093154") construct :=
  ⟨(ReMobilePhone_RePhone_iff construct Reachable.construct _).1.mpr (by decide +kernel),
    (ReMobilePhone_RePhone_iff construct Reachable.construct _).2.mpr (by decide +kernel)⟩

/-- The second of two numbers is said behind the first one, which is said twice. -/
theorem ReMobilePhone_RePhone_two_numbers :
    (ReMobilePhone (wstr "13800138000,13900139000") construct).1 =
        Except.ok (wstr
          "幺三八零零幺三八零零零,幺三八零零幺三八零零零幺三九零零幺三九零零零") ∧
      ¬ SaysOwnDigits mobilePhoneRule (wstr "13800138000,13900139000") construct ∧
      (RePhone (wstr "6234567,7234567") construct).1 =
        Except.ok (wstr "六二三四五六七,六二三四五六七七二三四五六七") ∧
      ¬ SaysOwnDigits phoneRule (wstr "6234567,7234567") construct := by
  have hmobile : (ReMobilePhone (wstr "13800138000,13900139000") construct).1 =
      Except.ok (wstr
        "幺三八零零幺三八零零零,幺三八零零幺三八零零零幺三九零零幺三九零零零") := by
    decide +kernel
  have hphone : (RePhone (wstr "6234567,7234567") construct).1 =
      Except.ok (wstr "六二三四五六七,六二三四五六七七二三四五六七") := by
    decide +kernel
  refine ⟨hmobile, ?_, hphone, ?_⟩
  · intro h
    have hheard := h.whole _ hmobile
    exact absurd hheard (by decide +kernel)
  · intro h
    have hheard := h.whole _ hphone
    exact absurd hheard (by decide +kernel)

end Spoken
end VoiceTts
