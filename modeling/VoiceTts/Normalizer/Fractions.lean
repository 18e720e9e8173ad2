import VoiceTts.Normalizer.Numerals
import VoiceTts.Normalizer.Sentences
import Mathlib.Data.List.DropRight

/-!
# Decimal fractions

`Digits2Text` reads a fraction digit by digit, without the zeros at its end.  The
point is said in any case, so a fraction of zeros leaves it with nothing behind it.

A decimal with a minus sign never reaches `ReDecimalNum` as a whole: `ReInterger`
takes the sign and the integer part, and what is left begins with the point.
-/

namespace VoiceTts
namespace Reading

open TextNormalizer

/-- The integer part; a fraction may come without one. -/
def wholeText (i : CString) : List Char :=
  if i = [] then [] else shorten false (numeral false true i.length i)

/-- The point and the digits up to the last one that is not a zero, if there is one. -/
def fractionText (f : CString) : List Char :=
  if exists c, c ∈ f ∧ c ≠ 48 then
    '点' :: spell false (f.rdropWhile fun c => decide (c = 48))
  else []

/--
`i.f` is read as `i` and then as the fraction `f`, and no point is left at the end.
-/
def ReadsFraction (n : TextNormalizer) (i f : CString) : Prop :=
  exists whole cs,
    (if i = [] then whole = []
      else (MultiDigit2Text i false true n).1 = Except.ok (Utf8.encodeChars whole)) ∧
    (Digits2Text (i ++ 46 :: f) n).1 = Except.ok (Utf8.encodeChars cs) ∧
    cs = whole ++ fractionText f ∧ cs.getLast? ≠ some '点'

section

variable {n : TextNormalizer} {i f : CString}

theorem decimal_point (hi : AllDigits i) (hvalue : digitsValue i ≤ 2147483647)
    (hf : AllDigits f) :
    decimal (i ++ 46 :: f) =
      Except.ok (wholeText i ++ '点' :: spell false (dropTrailingZeros f)) := by
  rw [decimal, Spoken.Stringsplit_point hi hf]
  by_cases hne : i = []
  · simp only [wholeText, if_pos hne]
    rfl
  · simp only [wholeText, multi, if_neg hne, if_pos hvalue]
    rfl

theorem Digits2Text_point (hn : Valid n) (hi : AllDigits i)
    (hvalue : digitsValue i ≤ 2147483647) (hf : AllDigits f) :
    (Digits2Text (i ++ 46 :: f) n).1 = Except.ok (Utf8.encodeChars
      (wholeText i ++ '点' :: spell false (dropTrailingZeros f))) := by
  have hparts : forall part, part ∈ Stringsplit (i ++ 46 :: f) 46 -> AllDigits part := by
    rw [Spoken.Stringsplit_point hi hf]
    exact List.forall_mem_cons.mpr ⟨hi, List.forall_mem_singleton.mpr hf⟩
  rw [(computes_Digits2Text hparts n hn).1, decimal_point hi hvalue hf]
  rfl

theorem wholeText_spec (hn : Valid n) (hi : AllDigits i)
    (hvalue : digitsValue i ≤ 2147483647) :
    if i = [] then wholeText i = []
    else (MultiDigit2Text i false true n).1 = Except.ok (Utf8.encodeChars (wholeText i)) := by
  split
  case isTrue hnil => exact if_pos hnil
  case isFalse hne =>
    rw [wholeText, if_neg hne]
    exact MultiDigit2Text_eq ⟨hi, hne, hvalue⟩ true hn

theorem dropTrailingZeros_eq_nil :
    dropTrailingZeros f = [] ↔ ¬ exists c, c ∈ f ∧ c ≠ 48 := by
  show f.rdropWhile _ = [] ↔ _
  rw [List.rdropWhile_eq_nil_iff]
  simp only [decide_eq_true_eq, not_exists, not_and, not_not]

theorem getLast?_fraction (cs : List Char) (hf : AllDigits f)
    (hne : dropTrailingZeros f ≠ []) :
    (cs ++ '点' :: spell false (dropTrailingZeros f)).getLast? ≠ some '点' := by
  have hdigits : AllDigits (dropTrailingZeros f) := by
    intro c hc
    exact hf c ((List.rdropWhile_prefix (p := fun c => decide (c = 48)) (l := f)).subset hc)
  have hspell : spell false (dropTrailingZeros f) ≠ [] := by
    obtain ⟨c, hc⟩ := List.exists_mem_of_ne_nil _ hne
    exact Spoken.spell_ne_nil hc (hdigits c hc)
  intro hlast
  rw [List.getLast?_append_cons, List.getLast?_cons_of_ne_nil hspell] at hlast
  exact absurd (Spoken.mem_spell (List.mem_of_getLast? hlast)) (by decide)

end

/-- The fraction is read as it should be exactly when it is not zero. -/
theorem Digits2Text_fraction_iff (n : TextNormalizer) (i f : CString) (hn : Valid n)
    (hi : AllDigits i) (hvalue : digitsValue i ≤ 2147483647) (hf : AllDigits f) :
    ReadsFraction n i f ↔ exists c, c ∈ f ∧ c ≠ 48 := by
  have hrun := Digits2Text_point hn hi hvalue hf
  constructor
  · rintro ⟨whole, cs, -, hcs, -, hlast⟩
    by_contra hzero
    rw [hrun, dropTrailingZeros_eq_nil.mpr hzero] at hcs
    rw [← Utf8.encodeChars_injective (Except.ok.inj hcs)] at hlast
    exact hlast List.getLast?_concat
  · intro hdigit
    have hkept : dropTrailingZeros f ≠ [] := fun h => dropTrailingZeros_eq_nil.mp h hdigit
    refine ⟨wholeText i, _, wholeText_spec hn hi hvalue, hrun, ?_,
      getLast?_fraction _ hf hkept⟩
    rw [fractionText, if_pos hdigit]
    rfl

theorem Digits2Text_fraction_iff_pi :
    ReadsFraction construct (str "3") (str "140") := by
  have hi : AllDigits (str "3") := by
    unfold AllDigits
    decide +kernel
  have hf : AllDigits (str "140") := by
    unfold AllDigits
    decide +kernel
  exact (Digits2Text_fraction_iff construct (str "3") (str "140") valid_construct.valid hi
    (by decide +kernel) hf).mpr ⟨49, by decide +kernel, by decide⟩

/-- A zero after the point leaves the point alone at the end. -/
theorem Digits2Text_zero_fraction :
    (Digits2Text (str "3" ++ 46 :: str "0") construct).1 = Except.ok (str "三点") ∧
      ¬ ReadsFraction construct (str "3") (str "0") := by
  have hrun : (Digits2Text (str "3" ++ 46 :: str "0") construct).1 =
      Except.ok (Utf8.encodeChars ['三', '点']) := by
    decide +kernel
  refine ⟨hrun, ?_⟩
  rintro ⟨whole, cs, -, hcs, -, hlast⟩
  rw [hrun] at hcs
  rw [← Utf8.encodeChars_injective (Except.ok.inj hcs)] at hlast
  exact hlast rfl

end Reading

namespace Spoken

open TextNormalizer Reading Regex

/-!
## A signed decimal, read by two rules
-/

/-- No digit, no minus sign and no point. -/
def Unsigned (s : WString) : Prop :=
  forall c, c ∈ s -> isDigit c = false ∧ c ≠ 45 ∧ c ≠ 46

theorem Unsigned.append {s t : WString} (hs : Unsigned s) (ht : Unsigned t) :
    Unsigned (s ++ t) := by
  intro c hc
  cases List.mem_append.mp hc with
  | inl hc => exact hs c hc
  | inr hc => exact ht c hc

theorem unsigned_units {cs : List Char} (h : Audible cs) : Unsigned (Utf8.units cs) := by
  intro c hc
  have hlarge := audible_units h c hc
  refine ⟨digitFree_of_audible (audible_units h) c hc, ?_, ?_⟩
  · intro h45
    rw [h45] at hlarge
    exact absurd hlarge (by decide)
  · intro h46
    rw [h46] at hlarge
    exact absurd hlarge (by decide)

theorem Unsigned.head {s : WString} (h : Unsigned s) :
    forall c, s.head? = some c -> isDigit c = false :=
  fun c hc => (h c (List.mem_of_head? hc)).1

/-- A loop that finds the text `t` behind `u`, and then nothing any more. -/
theorem loop_once {pattern : Regex UInt32} {text : (Nat -> WString) -> Except Error (List Char)}
    (heffect : Effective (rule pattern 0 text))
    (hmust : pattern.Must fun c => isDigit c = true) {u t v : WString} {cs : List Char}
    (hblocked : Blocked pattern u) (hprefers : Prefers pattern (t ++ v) t)
    (hbody : forall s mt, pattern.search s = some mt -> mt.text = t ->
      text mt.group = Except.ok cs)
    (hdone : pattern.search (u ++ Utf8.units cs ++ v) = none) :
    loop (rule pattern 0 text) () (u ++ (t ++ v)) = Except.ok (u ++ Utf8.units cs ++ v) := by
  obtain ⟨mt, hsearch, hpre, htext, hpost⟩ := search_of_prefers (hblocked _) hprefers
  have hround : (rule pattern 0 text).body () mt.group = Except.ok ((), Utf8.units cs) := by
    show text mt.group >>= _ = _
    rw [hbody _ mt hsearch htext]
    rfl
  have hreplaced : (rule pattern 0 text).replaced (u ++ (t ++ v)) mt (Utf8.units cs) =
      u ++ Utf8.units cs ++ v := by
    rw [Rule.replaced_eq rfl hsearch, hpre, hpost, List.drop_left]
  refine loop_of_runs heffect hmust (Rule.Runs.round hsearch hround ?_)
  rw [hreplaced]
  exact Rule.Runs.done hdone

section Decimals

variable {p q a b : WString} {cs : List Char}

theorem loop_interger (ha : Number a) (hcs : number true a = Except.ok cs)
    (hp : Unsigned p) (hb : forall c, c ∈ b -> isDigit c = true) (hq : Unsigned q) :
    loop (rule intergerPattern 0 intergerText) () (p ++ 45 :: (a ++ 46 :: (b ++ q))) =
      Except.ok (p ++ Utf8.units ('负' :: cs) ++ 46 :: (b ++ q)) := by
  have hblocked : Blocked intergerPattern p := by
    apply blocked_of_not_first
    · intro hnull
      exact hnull.1
    · intro c hc hfirst
      cases hfirst with
      | inl hsign => exact (hp c hc).2.1 (of_decide_eq_true hsign)
      | inr hskip => exact hskip.1
  have hprefers : Prefers intergerPattern (45 :: (a ++ 46 :: (b ++ q))) (45 :: a) :=
    ((prefers_set rfl).group 1).seq
      ((prefers_number ha (fun c hc => by cases hc; rfl)).group 2) ⟨trivial, trivial⟩
  have hbody : forall s mt, intergerPattern.search s = some mt -> mt.text = 45 :: a ->
      intergerText mt.group = Except.ok ('负' :: cs) := by
    intro s mt hsearch htext
    obtain ⟨w, -, hw, hgroup⟩ := interger_shape hsearch
    rw [htext] at hw
    have hwa : a = w := (List.cons.inj hw).2
    rw [intergerText, hgroup, ← hwa, hcs]
    rfl
  have hdone : intergerPattern.search (p ++ Utf8.units ('负' :: cs) ++ 46 :: (b ++ q)) = none := by
    have haudible : Audible ('负' :: cs) :=
      List.forall_mem_cons.mpr ⟨by decide, audible_number hcs⟩
    apply Match.search_none_of_must (P := fun c => c = 45)
    · exact Or.inl fun c hc => of_decide_eq_true hc
    · refine List.forall_mem_append.mpr
        ⟨fun c hc => ((hp.append (unsigned_units haudible)) c hc).2.1,
          List.forall_mem_cons.mpr ⟨by decide, List.forall_mem_append.mpr
            ⟨?_, fun c hc => (hq c hc).2.1⟩⟩⟩
      intro c hc hminus
      rw [hminus] at hc
      exact absurd (hb 45 hc) (by decide)
  exact loop_once effective_interger (Or.inr (Or.inl fun _ h => h)) hblocked hprefers hbody hdone

/-- The first alternative of `decimalNumPattern`. -/
def signedDecimal : Regex UInt32 :=
  seq (group 1 (opt (lit "-")))
    (group 2 (seq (group 3 (plus digit)) (group 4 (seq (lit ".") (plus digit)))))

theorem first_signedDecimal {c : UInt32} (h : signedDecimal.First c) :
    c = 45 ∨ isDigit c = true := by
  rcases h with (hsign | hsign) | ⟨-, (hnumber | hnumber) | hnumber⟩
  · exact Or.inl (of_decide_eq_true hsign)
  · exact False.elim hsign
  · exact Or.inr hnumber
  · exact False.elim hnumber.1
  · exact False.elim hnumber.1.1

/-- What is left of the decimal is its point and the digits behind it. -/
theorem loop_decimalNum (hp : Unsigned p) (hb : Number b) (hq : Unsigned q) :
    loop (rule decimalNumPattern 0 (signedText 1)) () (p ++ 46 :: (b ++ q)) =
      Except.ok (p ++ Utf8.units
        ('点' :: spell false (dropTrailingZeros (Utf8.narrow b))) ++ q) := by
  have hblocked : Blocked decimalNumPattern p := by
    apply blocked_of_not_first
    · rintro (hnull | hnull)
      · exact hnull.2.1.1
      · exact hnull.1
    · intro c hc hfirst
      obtain ⟨hdigit, hminus, hpoint⟩ := hp c hc
      rcases hfirst with hsigned | (hfraction | hfraction)
      · cases first_signedDecimal hsigned with
        | inl hsign => exact hminus hsign
        | inr hnumber =>
            rw [hdigit] at hnumber
            cases hnumber
      · exact hpoint (of_decide_eq_true hfraction)
      · exact hfraction.1
  have hnone : choices signedDecimal (46 :: (b ++ q)) = [] := by
    apply noHit_iff_choices.mp
    apply noHit_of_not_first
    · exact fun hnull => hnull.2.1.1
    · intro hfirst
      cases first_signedDecimal hfirst with
      | inl hsign => exact absurd hsign (by decide)
      | inr hnumber => exact absurd hnumber (by decide)
  have hprefers : Prefers decimalNumPattern (46 :: b ++ q) (46 :: b) :=
    Prefers.right hnone (((prefers_set rfl).seq ((prefers_number hb hq.head).group 6)
      ⟨trivial, trivial⟩).group 5)
  have hbody : forall s mt, decimalNumPattern.search s = some mt -> mt.text = 46 :: b ->
      signedText 1 mt.group =
        Except.ok ('点' :: spell false (dropTrailingZeros (Utf8.narrow b))) := by
    intro s mt hsearch htext
    obtain ⟨sign', w, hsign, -, hw, hgroup, hnumber⟩ := (decimalNum_shape hsearch).groups
    rw [htext] at hw
    have hpoint : sign' = [] ∧ w = 46 :: b := by
      cases hsign with
      | inl hnil =>
          rw [hnil] at hw ⊢
          exact ⟨rfl, hw.symm⟩
      | inr hminus =>
          rw [hminus] at hw
          exact absurd (List.cons.inj hw).1 (by decide)
    rw [signedText, hnumber, hgroup, hpoint.1, hpoint.2]
    have hread := decimalNumber_point (i := []) (fun _ hc => absurd hc List.not_mem_nil) hb
    rw [List.nil_append] at hread
    rw [hread]
    rfl
  have hdone : decimalNumPattern.search (p ++ Utf8.units
      ('点' :: spell false (dropTrailingZeros (Utf8.narrow b))) ++ q) = none := by
    have haudible : Audible ('点' :: spell false (dropTrailingZeros (Utf8.narrow b))) :=
      List.forall_mem_cons.mpr ⟨by decide, audible_numerals fun _ => mem_spell⟩
    apply Match.search_none_of_must (P := fun c => c = 46)
    · exact ⟨Or.inr (Or.inr (Or.inl fun c hc => of_decide_eq_true hc)),
        Or.inl fun c hc => of_decide_eq_true hc⟩
    · intro c hc
      exact (((hp.append (unsigned_units haudible)).append hq) c hc).2.2
  exact loop_once (effective_signed fun _ _ => decimalNum_shape)
    ⟨Or.inr (Or.inl (Or.inl fun _ h => h)), Or.inr (Or.inl fun _ h => h)⟩ hblocked hprefers
    hbody hdone

end Decimals

/--
A decimal with a minus sign is read by two rules, and these say the same as the
reader of decimals does after the sign.
-/
theorem ReInterger_ReDecimalNum (n : TextNormalizer) (a b p q : WString) (hn : Valid n)
    (ha : Number a) (hvalue : value a ≤ 2147483647) (hb : Number b)
    (hp : Unsigned p) (hq : Unsigned q) :
    exists cs, (Digits2TextW (a ++ wstr "." ++ b) n).1 = Except.ok (Utf8.encodeChars cs) ∧
      ((ReInterger (p ++ wstr "-" ++ a ++ wstr "." ++ b ++ q) >>= ReDecimalNum) n).1 =
        Except.ok (p ++ wstr "负" ++ Utf8.units cs ++ q) := by
  obtain ⟨ds, hds⟩ := number_of_le true ha.nonempty hvalue
  have hdecimal : decimalNumber (a ++ wstr "." ++ b) =
      Except.ok (ds ++ '点' :: spell false (dropTrailingZeros (Utf8.narrow b))) := by
    rw [List.append_assoc]
    show decimalNumber (a ++ 46 :: b) = _
    rw [decimalNumber_point ha.digits hb, Spoken.optional, if_pos ha.nonempty, hds]
    rfl
  have hsentence : p ++ wstr "-" ++ a ++ wstr "." ++ b ++ q =
      p ++ 45 :: (a ++ 46 :: (b ++ q)) := by
    rw [show wstr "-" = [45] from rfl, show wstr "." = [46] from rfl]
    simp only [List.append_assoc, List.cons_append, List.nil_append]
  have hsign : Audible ('负' :: ds) := List.forall_mem_cons.mpr ⟨by decide, audible_number hds⟩
  have hfirst : Prog.Computes Valid Valid (ReInterger (p ++ 45 :: (a ++ 46 :: (b ++ q))))
      (loop (rule intergerPattern 0 intergerText) () (p ++ 45 :: (a ++ 46 :: (b ++ q)))) :=
    refines_interger.rewriteLoop _ () _
  have hsecond : Prog.Computes Valid Valid
      (ReDecimalNum (p ++ Utf8.units ('负' :: ds) ++ 46 :: (b ++ q)))
      (loop (rule decimalNumPattern 0 (signedText 1)) ()
        (p ++ Utf8.units ('负' :: ds) ++ 46 :: (b ++ q))) :=
    (refines_signed fun _ _ => decimalNum_shape).rewriteLoop _ () _
  rw [loop_interger ha hds hp hb.digits hq] at hfirst
  rw [loop_decimalNum (hp.append (unsigned_units hsign)) hb hq] at hsecond
  refine ⟨ds ++ '点' :: spell false (dropTrailingZeros (Utf8.narrow b)), ?_, ?_⟩
  · have hpoint : Decimal (a ++ wstr "." ++ b) := by
      rw [List.append_assoc]
      exact Decimal.point ha.digits hb
    rw [(computes_decimalNumber hpoint n hn).1, hdecimal]
    rfl
  · rw [hsentence, (Prog.Computes.bind_ok hfirst hsecond n hn).1, Utf8.units_append,
      Utf8.units_cons, show wstr "负" = ['负'.val] from rfl]
    simp only [List.append_assoc, List.cons_append, List.nil_append]

theorem ReInterger_ReDecimalNum_minus_twelve :
    (Digits2TextW (wstr "12" ++ wstr "." ++ wstr "50") construct).1 =
        Except.ok (Utf8.encodeChars "十二点五".toList) ∧
      ((ReInterger (wstr "零下" ++ wstr "-" ++ wstr "12" ++ wstr "." ++ wstr "50" ++ wstr "度") >>=
          ReDecimalNum) construct).1 =
        Except.ok (wstr "零下" ++ wstr "负" ++ Utf8.units "十二点五".toList ++ wstr "度") := by
  have hnumber : forall w : WString, (w ≠ [] ∧ w.all isDigit = true) -> Number w :=
    fun w h => ⟨h.1, List.all_eq_true.mp h.2⟩
  have hunsigned : forall w : WString,
      (w.all fun c => !isDigit c && decide (c ≠ 45) && decide (c ≠ 46)) = true -> Unsigned w := by
    intro w h c hc
    have hall := List.all_eq_true.mp h c hc
    simpa [and_assoc] using hall
  obtain ⟨cs, hcs, hrun⟩ := ReInterger_ReDecimalNum construct (wstr "12") (wstr "50")
    (wstr "零下") (wstr "度") valid_construct.valid (hnumber _ (by decide +kernel))
    (by decide +kernel) (hnumber _ (by decide +kernel)) (hunsigned _ (by decide +kernel))
    (hunsigned _ (by decide +kernel))
  have hread : (Digits2TextW (wstr "12" ++ wstr "." ++ wstr "50") construct).1 =
      Except.ok (Utf8.encodeChars "十二点五".toList) := by
    decide +kernel
  rw [hread] at hcs
  rw [← Utf8.encodeChars_injective (Except.ok.inj hcs)] at hrun
  exact ⟨hread, hrun⟩

end Spoken
end VoiceTts
