import VoiceTts.Lib.RegexExtent
import VoiceTts.Normalizer.Faults
import VoiceTts.Normalizer.Quantities
import Mathlib.Data.List.DropRight

/-!
# Numbers torn apart

A round can begin or end inside a run of digits, so that one written number is
said in two pieces.  Most rules cannot: they take all digits in front of them, and
the search for their matches goes from left to right.  The rules for dates, times
and telephone numbers ask for a number of digits, and here the length of the run
decides.
-/

namespace VoiceTts
namespace Spoken

open TextNormalizer Reading Regex

/-!
## Runs of digits
-/

/-- The digits that the text ends in. -/
def runBefore (w : WString) : WString :=
  w.rtakeWhile isDigit

/-- The digits that the text starts with. -/
def runAfter (w : WString) : WString :=
  w.takeWhile isDigit

/-- The position `i` is strictly inside a maximal run of digits. -/
def InsideRun (s : WString) (i : Nat) : Prop :=
  exists u d v, s = u ++ d ++ v ∧ (forall c, c ∈ d -> isDigit c = true) ∧
    (forall c, u.getLast? = some c -> isDigit c = false) ∧
    (forall c, v.head? = some c -> isDigit c = false) ∧
    u.length < i ∧ i < u.length + d.length

/-- The span that a round replaces begins or ends strictly inside a run of digits. -/
def Torn (span : Nat) (s : WString) (mt : Match UInt32) : Prop :=
  InsideRun s (mt.position span) ∨ InsideRun s (mt.position span + mt.length span)

theorem runBefore_ne_nil {w : WString} :
    runBefore w ≠ [] ↔ exists c, w.getLast? = some c ∧ isDigit c = true := by
  rcases List.eq_nil_or_concat w with rfl | ⟨w, x, rfl⟩
  · simp [runBefore]
  · rw [List.concat_eq_append, runBefore, List.rtakeWhile_concat, List.getLast?_concat]
    cases hx : isDigit x <;> simp [hx]

theorem runAfter_ne_nil {w : WString} :
    runAfter w ≠ [] ↔ exists c, w.head? = some c ∧ isDigit c = true := by
  cases w with
  | nil => simp [runAfter]
  | cons x w =>
      cases hx : isDigit x <;> simp [runAfter, hx]

theorem insideRun_append {a b : WString} :
    InsideRun (a ++ b) a.length ↔ runBefore a ≠ [] ∧ runAfter b ≠ [] := by
  constructor
  · rintro ⟨u, d, v, hs, hd, -, -, hleft, hright⟩
    have hsplit : exists f e, a = u ++ f ∧ d = f ++ e ∧ b = e ++ v := by
      rw [List.append_assoc] at hs
      rcases List.append_eq_append_iff.mp hs with ⟨f, hu, -⟩ | ⟨f, ha, hdv⟩
      · rw [hu, List.length_append] at hleft
        omega
      · rcases List.append_eq_append_iff.mp hdv with ⟨e, hf, -⟩ | ⟨e, hde, hb⟩
        · rw [ha, hf, List.length_append, List.length_append] at hright
          omega
        · exact ⟨f, e, ha, hde, hb⟩
    obtain ⟨f, e, rfl, rfl, rfl⟩ := hsplit
    rw [List.length_append] at hleft hright
    rw [List.length_append] at hright
    constructor
    · rcases List.eq_nil_or_concat f with rfl | ⟨f, x, rfl⟩
      · simp at hleft
      · rw [List.concat_eq_append, ← List.append_assoc, runBefore_ne_nil,
          List.getLast?_concat]
        exact ⟨x, rfl, hd x (by simp)⟩
    · cases e with
      | nil => simp at hright
      | cons x e => exact runAfter_ne_nil.mpr ⟨x, rfl, hd x (by simp)⟩
  · rintro ⟨ha, hb⟩
    have hsplit := List.rdropWhile_append_rtakeWhile (p := isDigit) (l := a)
    have hlength := congrArg List.length hsplit
    rw [List.length_append] at hlength
    have hleft : 0 < (runBefore a).length := List.length_pos_iff.mpr ha
    have hright : 0 < (runAfter b).length := List.length_pos_iff.mpr hb
    refine ⟨a.rdropWhile isDigit, runBefore a ++ runAfter b, b.dropWhile isDigit, ?_, ?_, ?_,
      ?_, ?_, ?_⟩
    · rw [← List.append_assoc, runBefore, hsplit, runAfter, List.append_assoc,
        List.takeWhile_append_dropWhile]
    · intro c hc
      rcases List.mem_append.mp hc with hc | hc
      · exact List.mem_rtakeWhile_imp hc
      · exact List.mem_takeWhile_imp hc
    · intro c hc
      obtain ⟨hne, heq⟩ := List.mem_getLast?_eq_getLast hc
      rw [heq]
      simpa using List.rdropWhile_last_not isDigit a hne
    · intro c hc
      have hnot := List.head?_dropWhile_not isDigit b
      rw [hc] at hnot
      exact hnot
    · unfold runBefore at hleft
      omega
    · rw [List.length_append]
      unfold runBefore at hleft ⊢
      omega

theorem torn_iff {span : Nat} {s a old b : WString} {mt : Match UInt32}
    (hs : s = a ++ old ++ b) (hold : old ≠ []) (hposition : mt.position span = a.length)
    (hlength : mt.length span = old.length) :
    Torn span s mt ↔ (runBefore a ≠ [] ∧ runAfter old ≠ []) ∨
      (runBefore old ≠ [] ∧ runAfter b ≠ []) := by
  have hafter : runAfter (old ++ b) ≠ [] ↔ runAfter old ≠ [] := by
    rw [runAfter_ne_nil, runAfter_ne_nil, List.head?_append_of_ne_nil _ hold]
  have hbefore : runBefore (a ++ old) ≠ [] ↔ runBefore old ≠ [] := by
    rw [runBefore_ne_nil, runBefore_ne_nil, List.getLast?_append_of_ne_nil _ hold]
  unfold Torn
  rw [hposition, hlength, hs]
  have hbegin : InsideRun (a ++ old ++ b) a.length ↔
      runBefore a ≠ [] ∧ runAfter old ≠ [] := by
    rw [List.append_assoc, insideRun_append, hafter]
  have hend : InsideRun (a ++ old ++ b) (a.length + old.length) ↔
      runBefore old ≠ [] ∧ runAfter b ≠ [] := by
    rw [← List.length_append, insideRun_append, hbefore]
  rw [hbegin, hend]

theorem torn_match {r : Regex UInt32} {s : WString} {mt : Match UInt32}
    (h : r.search s = some mt) (hne : mt.text ≠ []) :
    Torn 0 s mt ↔ (runBefore mt.pre ≠ [] ∧ runAfter mt.text ≠ []) ∨
      (runBefore mt.text ≠ [] ∧ runAfter mt.post ≠ []) :=
  torn_iff (Match.search_splits h) hne rfl rfl

/-!
## Rules that take whole runs
-/

theorem plain_plus : (plus digit).Plain :=
  ⟨trivial, trivial⟩

theorem plain_point : (seq (lit ".") (plus digit)).Plain :=
  ⟨trivial, plain_plus⟩

theorem plain_fraction (n : Nat) : (opt (group n (seq (lit ".") (plus digit)))).Plain :=
  ⟨plain_point, trivial⟩

theorem plain_decimal (n : Nat) : (TextNormalizer.decimal n).Plain :=
  ⟨plain_plus, plain_fraction n⟩

theorem plain_number (n : Nat) : (numberAlternatives n).Plain :=
  ⟨⟨⟨trivial, trivial⟩, plain_plus, plain_fraction (n + 3)⟩, trivial, plain_plus⟩

theorem lengthens_digits : (plus digit).Lengthens isDigit :=
  lengthens_plus_set

theorem lengthens_signed {b : Regex UInt32} (n : Nat) (hb : b.Lengthens isDigit)
    (hplain : b.Plain) : (seq (group n (opt (lit "-"))) b).Lengthens isDigit :=
  hb.signed (by decide) hplain n

theorem lengthens_decimal (n : Nat) : (TextNormalizer.decimal n).Lengthens isDigit :=
  lengthens_digits.seq (plain_fraction n)

theorem first_point {b : Regex UInt32} (x : UInt32) (h : (seq (lit ".") b).First x) :
    isDigit x = false := by
  rcases h with h | ⟨h, -⟩
  · rw [of_decide_eq_true h]
    decide
  · cases h

theorem lengthens_number (n : Nat) : (numberAlternatives n).Lengthens isDigit := by
  refine Lengthens.alt (lengthens_signed n ?_ ?_) (fun h => h.1) first_point
  · exact ((lengthens_digits.group (n + 2)).seq (plain_fraction (n + 3))).group (n + 1)
  · exact ⟨plain_plus, plain_fraction (n + 3)⟩

theorem exhausts_digits : (plus digit).Exhausts isDigit :=
  exhausts_plus_set

theorem exhausts_point : (seq (lit ".") (plus digit)).Exhausts isDigit :=
  exhausts_digits.seq plain_plus (lit ".")

theorem exhausts_number (n : Nat) : (numberAlternatives n).Exhausts isDigit := by
  have hdigits := (exhausts_digits.group (n + 2)).seq_opt (exhausts_point.group (n + 3))
    plain_point
  have hfraction : (group (n + 5) (plus digit)).Exhausts isDigit := exhausts_digits.group _
  refine Exhausts.alt ((hdigits.group (n + 1)).seq ?_ _) (Exhausts.group ?_ (n + 4))
  · exact ⟨plain_plus, plain_fraction (n + 3)⟩
  · exact hfraction.seq plain_plus (lit ".")

section Whole

variable {r : Regex UInt32} {s : WString} {mt : Match UInt32}

theorem text_ne_nil (hmust : r.Must fun c => isDigit c = true)
    (h : r.search s = some mt) : mt.text ≠ [] := by
  obtain ⟨c, hc, -⟩ := run_must hmust (Match.search_hit h)
  exact List.ne_nil_of_mem hc

/-- No run of digits is cut where the match begins. -/
theorem begins_of_lengthens (hr : r.Lengthens isDigit) (h : r.search s = some mt) :
    ¬ (runBefore mt.pre ≠ [] ∧ runAfter mt.text ≠ []) := by
  rintro ⟨hpre, htext⟩
  obtain ⟨x, hx, hdigit⟩ := runBefore_ne_nil.mp hpre
  obtain ⟨y, hy, hdigit'⟩ := runAfter_ne_nil.mp htext
  obtain ⟨t, ht⟩ := List.head?_eq_some_iff.mp hy
  rw [hr.search h ht hdigit' hx] at hdigit
  cases hdigit

/-- No run of digits is cut where the match ends. -/
theorem ends_of_exhausts (hr : r.Exhausts isDigit) (h : r.search s = some mt) :
    ¬ (runBefore mt.text ≠ [] ∧ runAfter mt.post ≠ []) := by
  rintro ⟨-, hpost⟩
  obtain ⟨x, hx, hdigit⟩ := runAfter_ne_nil.mp hpost
  rw [hr.search h hx] at hdigit
  cases hdigit

theorem not_digit_at_end {w u : WString} (hu : u ≠ [])
    (hlast : forall c, u.getLast? = some c -> isDigit c = false) :
    runBefore (w ++ u) = [] := by
  by_contra hne
  obtain ⟨c, hc, hdigit⟩ := runBefore_ne_nil.mp hne
  rw [List.getLast?_append_of_ne_nil w hu] at hc
  rw [hlast c hc] at hdigit
  cases hdigit

end Whole

theorem whole_temperature {s : WString} {mt : Match UInt32}
    (h : temperaturePattern.search s = some mt) : ¬ Torn 0 s mt := by
  have hunits : (group 4 (anyOf (lit "°C") [lit "℃", lit "度", lit "摄氏度"])).Plain :=
    ⟨plain_word _, plain_word _, plain_word _, plain_word _⟩
  have hlengthens : temperaturePattern.Lengthens isDigit :=
    lengthens_signed 1 (((lengthens_decimal 3).group 2).seq hunits) ⟨plain_decimal 3, hunits⟩
  rw [torn_match h (text_ne_nil must_temperature h), not_or]
  refine ⟨begins_of_lengthens hlengthens h, ?_⟩
  rcases temperature_shape h with ⟨sign, number, unit, -, -, hunit, htext, -⟩
  have hlast : runBefore (sign ++ number ++ unit) = [] := by
    rcases hunit with rfl | rfl | rfl | rfl <;> exact not_digit_at_end (by decide) (by decide)
  rw [htext, hlast]
  simp

theorem whole_percentage {s : WString} {mt : Match UInt32}
    (h : percentagePattern.search s = some mt) : ¬ Torn 0 s mt := by
  have hsign : (lit "%").Plain := plain_word _
  have hlengthens : percentagePattern.Lengthens isDigit :=
    lengthens_signed 1 (((lengthens_decimal 3).group 2).seq hsign) ⟨plain_decimal 3, hsign⟩
  rw [torn_match h (text_ne_nil must_percentage h), not_or]
  refine ⟨begins_of_lengthens hlengthens h, ?_⟩
  rcases percentage_shape h with ⟨sign, number, -, -, htext, -⟩
  have hlast : runBefore (sign ++ number ++ wstr "%") = [] :=
    not_digit_at_end (by decide) (by decide)
  rw [htext, hlast]
  simp

theorem whole_of_extent {r : Regex UInt32} {s : WString} {mt : Match UInt32}
    (hmust : r.Must fun c => isDigit c = true) (hbegin : r.Lengthens isDigit)
    (hend : r.Exhausts isDigit) (h : r.search s = some mt) : ¬ Torn 0 s mt := by
  rw [torn_match h (text_ne_nil hmust h), not_or]
  exact ⟨begins_of_lengthens hbegin h, ends_of_exhausts hend h⟩

theorem whole_frac {s : WString} {mt : Match UInt32}
    (h : fracPattern.search s = some mt) : ¬ Torn 0 s mt := by
  have hdenominator : (group 3 (plus digit)).Exhausts isDigit := exhausts_digits.group 3
  have hplain : (seq (lit "/") (group 3 (plus digit))).Plain := ⟨trivial, trivial, trivial⟩
  refine whole_of_extent must_frac ?_ ?_ h
  · exact lengthens_signed 1 ((lengthens_plus_set.group 2).seq hplain) ⟨⟨trivial, trivial⟩, hplain⟩
  · have hends : (seq (lit "/") (group 3 (plus digit))).Exhausts isDigit :=
      hdenominator.seq plain_plus _
    have hrest : (seq (group 2 (plus digit)) (seq (lit "/") (group 3 (plus digit)))).Plain :=
      ⟨plain_plus, hplain⟩
    exact (hends.seq hplain (group 2 (plus digit))).seq hrest _

theorem whole_range {s : WString} {mt : Match UInt32}
    (h : rangePattern.search s = some mt) : ¬ Torn 0 s mt := by
  have hplain : (seq (cls "-~") (group 8 (numberAlternatives 9))).Plain :=
    ⟨trivial, plain_number 9⟩
  refine whole_of_extent must_range ?_ ?_ h
  · exact ((lengthens_number 2).group 1).seq hplain
  · exact (((exhausts_number 9).group 8).seq (plain_number 9) _).seq hplain _

theorem whole_interger {s : WString} {mt : Match UInt32}
    (h : intergerPattern.search s = some mt) : ¬ Torn 0 s mt := by
  have hends : intergerPattern.Exhausts isDigit :=
    (exhausts_digits.group 2).seq plain_plus _
  rcases interger_shape h with ⟨number, -, htext, -⟩
  have hfirst : runAfter mt.text = [] := by
    rw [htext]
    rfl
  rw [torn_match h (text_ne_nil must_interger h), not_or, hfirst]
  exact ⟨by simp, ends_of_exhausts hends h⟩

theorem whole_decimalNum {s : WString} {mt : Match UInt32}
    (h : decimalNumPattern.search s = some mt) : ¬ Torn 0 s mt := by
  have hfraction : (group 4 (seq (lit ".") (plus digit))).Plain :=
    ⟨trivial, trivial, trivial⟩
  have hnumber : (group 2 (seq (group 3 (plus digit))
      (group 4 (seq (lit ".") (plus digit))))).Plain := ⟨⟨trivial, trivial⟩, hfraction⟩
  refine whole_of_extent must_decimalNum ?_ ?_ h
  · refine Lengthens.alt ?_ (fun h => h.1) first_point
    exact lengthens_signed 1 (((lengthens_plus_set.group 3).seq hfraction).group 2) hnumber
  · refine Exhausts.alt ?_ (Exhausts.group ?_ 5)
    · exact (((exhausts_point.group 4).seq hfraction _).group 2).seq hnumber _
    · exact (exhausts_digits.group 6).seq plain_plus _

theorem whole_defalutNum {s : WString} {mt : Match UInt32}
    (h : defalutNumPattern.search s = some mt) : ¬ Torn 0 s mt :=
  whole_of_extent must_defalutNum (lengthens_at_least 2)
    (Exhausts.seq (b := star digit) exhausts_star_set trivial _) h

theorem whole_number {s : WString} {mt : Match UInt32}
    (h : numberPattern.search s = some mt) : ¬ Torn 0 s mt :=
  whole_of_extent must_number (lengthens_number 1) (exhausts_number 1) h

/-- Only the digits in front of a measure word are replaced. -/
theorem whole_positiveQuantifiers {s : WString} {mt : Match UInt32}
    (h : positiveQuantifiersPattern.search s = some mt) : ¬ Torn 1 s mt := by
  have hlengthens : positiveQuantifiersPattern.Lengthens isDigit :=
    (lengthens_plus_set.group 1).seq plain_quantityTail
  obtain ⟨number, rest, hnumber, htext, hgroup, hposition, -, x, t, hrest, hx⟩ :=
    quantity_match h
  have hs : s = mt.pre ++ number ++ (rest ++ mt.post) := by
    rw [Match.search_splits h, htext]
    simp
  have hlength : mt.length 1 = number.length := by
    rw [Match.length, hgroup]
  have hafter : runAfter (rest ++ mt.post) = [] := by
    rw [hrest, runAfter, List.cons_append, List.takeWhile_cons_of_neg (by simp [hx])]
  have hbegin := begins_of_lengthens hlengthens h
  rw [htext, runAfter_ne_nil (w := number ++ rest),
    List.head?_append_of_ne_nil _ hnumber.nonempty, ← runAfter_ne_nil] at hbegin
  rw [torn_iff hs hnumber.nonempty hposition hlength, hafter, not_or]
  exact ⟨hbegin, by simp⟩

/-!
## Rules that ask for a number of digits
-/

/-- The digits in front of 年 are two or four. -/
def YearFits (mt : Match UInt32) : Prop :=
  (runBefore mt.pre ++ mt.group 1).length = 2 ∨ (runBefore mt.pre ++ mt.group 1).length = 4

/-- The digits of the year are four, and those of the day two. -/
def DateFits (mt : Match UInt32) : Prop :=
  (runBefore mt.pre ++ mt.group 1).length = 4 ∧ (mt.group 4 ++ runAfter mt.post).length = 2

/-- The digits in front of the first colon are an hour, and two are those of the second. -/
def TimeFits (mt : Match UInt32) : Prop :=
  ((runBefore mt.pre ++ mt.group 1).length ≤ 2 ∧
      value (runBefore mt.pre ++ mt.group 1) ≤ 23) ∧
    (mt.group 4 ++ runAfter mt.post).length = 2

/-- At most one digit stands in front of a telephone number, and at most one behind it. -/
def PhoneFits (mt : Match UInt32) : Prop :=
  (runBefore mt.pre ++ mt.group 1).length ≤ 1 ∧ (mt.group 5 ++ runAfter mt.post).length ≤ 1

theorem runBefore_eq_nil {w : WString} :
    runBefore w = [] ↔ forall c, w.getLast? = some c -> isDigit c = false := by
  rw [← not_iff_not, ← ne_eq, runBefore_ne_nil]
  simp

theorem runAfter_eq_nil {w : WString} :
    runAfter w = [] ↔ forall c, w.head? = some c -> isDigit c = false := by
  rw [← not_iff_not, ← ne_eq, runAfter_ne_nil]
  simp

theorem runBefore_number {w d : WString} (hd : Number d) : runBefore (w ++ d) ≠ [] := by
  rw [runBefore_ne_nil, List.getLast?_append_of_ne_nil w hd.nonempty]
  exact ⟨_, List.getLast?_eq_some_getLast hd.nonempty, hd.digits _ (List.getLast_mem _)⟩

theorem runAfter_number {w d : WString} (hd : Number d) : runAfter (d ++ w) ≠ [] := by
  rw [runAfter_ne_nil, List.head?_append_of_ne_nil d hd.nonempty]
  exact ⟨_, List.head?_eq_some_head hd.nonempty, hd.digits _ (List.head_mem _)⟩

section Margins

variable {s : WString} {mt : Match UInt32}

theorem left_fits (h : Margins isDigit 1 5 mt) :
    ¬ (runBefore mt.pre ≠ [] ∧ runAfter mt.text ≠ []) ↔
      (runBefore mt.pre ++ mt.group 1).length ≤ 1 := by
  rcases h.left with ⟨hgroup, hpre⟩ | ⟨x, t, hx, hgroup, htext⟩
  · rw [runBefore_eq_nil.mpr hpre, hgroup]
    simp
  · have htaken : runAfter mt.text ≠ [] := runAfter_ne_nil.mpr ⟨x, by rw [htext]; rfl, hx⟩
    rw [and_iff_left htaken, ne_eq, not_not, ← List.length_eq_zero_iff, hgroup,
      List.length_append, List.length_singleton]
    omega

theorem right_fits (h : Margins isDigit 1 5 mt) :
    ¬ (runBefore mt.text ≠ [] ∧ runAfter mt.post ≠ []) ↔
      (mt.group 5 ++ runAfter mt.post).length ≤ 1 := by
  rcases h.right with ⟨hgroup, hpost⟩ | ⟨x, t, hx, hgroup, htext⟩
  · rw [runAfter_eq_nil.mpr hpost, hgroup]
    simp
  · have htaken : runBefore mt.text ≠ [] := by
      rw [htext, runBefore_ne_nil, List.getLast?_concat]
      exact ⟨x, rfl, hx⟩
    rw [and_iff_right htaken, ne_eq, not_not, ← List.length_eq_zero_iff, hgroup,
      List.length_append, List.length_singleton]
    omega

theorem phone_fits {r : Regex UInt32} (hmust : r.Must fun c => isDigit c = true)
    (h : r.search s = some mt) (hmargins : Margins isDigit 1 5 mt) :
    ¬ Torn 0 s mt ↔ PhoneFits mt := by
  rw [torn_match h (text_ne_nil hmust h), not_or, left_fits hmargins, right_fits hmargins]
  rfl

end Margins

theorem mobilePhone_fits {s : WString} {mt : Match UInt32}
    (h : mobilePhonePattern.search s = some mt) : ¬ Torn 0 s mt ↔ PhoneFits mt := by
  refine phone_fits must_mobilePhone h ?_
  have hcountry : (opt (group 3 (cat (opt (lit "+")) [lit "86", opt (lit " ")]))).Plain :=
    ⟨⟨⟨plain_word _, trivial⟩, plain_word _, plain_word _, trivial⟩, trivial⟩
  have hnetwork : (group 4 (anyOf (seq (cls "38") digit)
      [seq (lit "5") (ranges '0' '3' '5' '9'), seq (lit "7") (cls "678"),
        seq (lit "9") (cls "89")])).Plain :=
    ⟨⟨trivial, trivial⟩, ⟨plain_word _, trivial⟩, ⟨plain_word _, trivial⟩,
      plain_word _, trivial⟩
  refine margins_of_search (b := group 2 _) ?_ (by decide) (by decide) (by decide) h
  exact ⟨hcountry, plain_word _, hnetwork, plain_times_set isDigit 8⟩

theorem phonePattern_fits {s : WString} {mt : Match UInt32}
    (h : phonePattern.search s = some mt) : ¬ Torn 0 s mt ↔ PhoneFits mt := by
  refine phone_fits must_phone h ?_
  have harea : (opt (group 3 (cat (lit "0")
      [group 4 (anyOf (lit "10") [seq (lit "2") (range '1' '3'),
        seq (range '3' '9') (times 2 digit)]), opt (lit "-")]))).Plain :=
    ⟨⟨plain_word _, ⟨plain_word _, ⟨plain_word _, trivial⟩, trivial,
      plain_times_set isDigit 2⟩, plain_word _, trivial⟩, trivial⟩
  refine margins_of_search (b := group 2 _) ?_ (by decide) (by decide) (by decide) h
  exact ⟨harea, trivial, plain_times_set isDigit 6, trivial, trivial⟩

theorem data2_fits {s : WString} {mt : Match UInt32}
    (h : data2Pattern.search s = some mt) : ¬ Torn 0 s mt ↔ DateFits mt := by
  rcases data2_shape h with ⟨year, sep, month, day, hyear, -, -, hday, htext, hone, -, hfour⟩
  have hbegin : runAfter mt.text ≠ [] := by
    rw [htext]
    simp only [List.append_assoc]
    exact runAfter_number hyear.number
  have hend : runBefore mt.text ≠ [] := by
    rw [htext]
    exact runBefore_number hday.number
  have hyears := hyear.least
  have hyears' := hyear.most
  have hdays := hday.least
  have hdays' := hday.most
  rw [torn_match h (text_ne_nil must_data2 h), not_or, and_iff_left hbegin, and_iff_right hend,
    ne_eq, not_not, ne_eq, not_not, ← List.length_eq_zero_iff, ← List.length_eq_zero_iff,
    DateFits, hone, hfour, List.length_append, List.length_append]
  omega

/-!
## Years
-/

def yearPattern : Regex UInt32 :=
  group 1 (alt (times 4 digit) (times 2 digit))

/-- What follows 年. -/
def yearTail : Regex UInt32 :=
  cat (opt (group 2
      (seq
        (group 3
          (alt (seq (opt (lit "0")) (range '1' '9'))
            (seq (lit "1") (range '0' '2'))))
        (lit "月"))))
    [opt (group 4
      (seq
        (group 5
          (anyOf (group 6 (seq (opt (lit "0")) (range '1' '9')))
            [group 7 (seq (group 8 (alt (lit "1") (lit "2"))) (range '0' '9')),
              lit "30", lit "31"]))
        (group 9 (cls "日号"))))]

theorem dataPattern_eq : dataPattern = seq yearPattern (seq (chr 24180) yearTail) :=
  rfl

theorem plain_yearTail : yearTail.Plain :=
  ⟨⟨⟨⟨⟨⟨plain_word _, trivial⟩, trivial⟩, plain_word _, trivial⟩, plain_word _⟩, trivial⟩,
    ⟨⟨⟨⟨plain_word _, trivial⟩, trivial⟩, ⟨⟨plain_word _, plain_word _⟩, trivial⟩,
      plain_word _, plain_word _⟩, trivial⟩, trivial⟩

theorem mem_choices_year {s t : WString} : t ∈ choices yearPattern s ↔
    (t.length = 4 ∨ t.length = 2) ∧ t <+: s ∧ forall c, c ∈ t -> isDigit c = true := by
  rw [yearPattern, choices_group, choices_alt, List.mem_append]
  change t ∈ choices (times (3 + 1) (set isDigit)) s ∨
    t ∈ choices (times (1 + 1) (set isDigit)) s ↔ _
  rw [mem_choices_times_set, mem_choices_times_set, ← or_and_right]

theorem stays_year : yearPattern.Stays isDigit := fun _ _ ht => (mem_choices_year.mp ht).2.2

/-- The last digits of a text, when it ends in at least so many. -/
theorem exists_runBefore {w : WString} {n : Nat} (h : n ≤ (runBefore w).length) :
    exists q d, w = q ++ d ∧ d.length = n ∧ forall c, c ∈ d -> isDigit c = true := by
  have hdrop : (runBefore w).length - n + n = (runBefore w).length := Nat.sub_add_cancel h
  refine ⟨w.rdropWhile isDigit ++ (runBefore w).take ((runBefore w).length - n),
    (runBefore w).drop ((runBefore w).length - n), ?_, ?_, ?_⟩
  · rw [List.append_assoc, List.take_append_drop]
    exact List.rdropWhile_append_rtakeWhile.symm
  · rw [List.length_drop]
    omega
  · intro c hc
    exact List.mem_rtakeWhile_imp (List.mem_of_mem_drop hc)

/-- With two or more digits in front of it a match would have begun there. -/
theorem year_begins {s : WString} {mt : Match UInt32} (h : dataPattern.search s = some mt) :
    ((mt.group 1).length = 4 ∨ (mt.group 1).length = 2 ∧ (runBefore mt.pre).length ≤ 1) ∧
      runAfter mt.text ≠ [] ∧ runBefore mt.text = [] := by
  rcases data_shape h with ⟨year, month, day, hyear, htext, hone, hmonth, hday⟩
  have hyear' : Field (1 + 1) 4 year := hyear
  have hclosed : mt.text = year ++ 24180 :: (month ++ day) := by
    rw [htext, List.append_assoc, List.append_assoc]
    rfl
  have hsearch := h
  rw [dataPattern_eq] at hsearch
  obtain ⟨hchoice, hbefore⟩ := stays_year.search (by decide) plain_yearTail hsearch hyear.digits
    (by decide) hclosed
  refine ⟨?_, ?_, ?_⟩
  · rw [hone]
    rcases (mem_choices_year.mp hchoice).1 with hlength | hlength
    · exact Or.inl hlength
    · right
      refine ⟨hlength, ?_⟩
      by_contra hmore
      obtain ⟨q, d, hq, hd, hdigits⟩ := exists_runBefore (n := 2) (Nat.lt_of_not_le hmore)
      apply hbefore q d hq (List.ne_nil_of_length_pos (by omega))
      refine mem_choices_year.mpr ⟨Or.inl (by simp [hd, hlength]), List.prefix_append _ _, ?_⟩
      exact List.forall_mem_append.mpr ⟨hdigits, hyear.digits⟩
  · rw [hclosed]
    exact runAfter_number hyear'.number
  · rw [htext]
    rcases hday with ⟨rfl, -⟩ | ⟨-, rfl, hunit⟩
    · rcases hmonth with ⟨rfl, -⟩ | ⟨-, rfl⟩
      · rw [List.append_nil, List.append_nil]
        exact not_digit_at_end (by decide) (by decide)
      · rw [List.append_nil, ← List.append_assoc]
        exact not_digit_at_end (by decide) (by decide)
    · rw [← List.append_assoc]
      rcases hunit with hunit | hunit
      · rw [hunit]
        exact not_digit_at_end (by decide) (by decide)
      · rw [hunit]
        exact not_digit_at_end (by decide) (by decide)

theorem data_fits {s : WString} {mt : Match UInt32}
    (h : dataPattern.search s = some mt) : ¬ Torn 0 s mt ↔ YearFits mt := by
  obtain ⟨hlength, hbegin, hend⟩ := year_begins h
  rw [torn_match h (text_ne_nil must_data h), not_or, and_iff_left hbegin, hend, ne_eq, not_not,
    ← List.length_eq_zero_iff, YearFits, List.length_append]
  have hends : ¬ (([] : WString) ≠ [] ∧ runAfter mt.post ≠ []) := by simp
  rw [and_iff_left hends]
  omega

/-!
## Times
-/

def hourPattern : Regex UInt32 :=
  group 1
    (alt (seq (opt (range '0' '1')) (range '0' '9'))
      (seq (lit "2") (range '0' '3')))

/-- What follows the first colon. -/
def minutePattern : Regex UInt32 :=
  cat (group 2 (seq (range '0' '5') (range '0' '9')))
    [opt (group 3
      (seq (lit ":") (group 4 (seq (range '0' '5') (range '0' '9')))))]

theorem timePattern_eq : timePattern = seq hourPattern (seq (chr 58) minutePattern) :=
  rfl

theorem plain_minute : minutePattern.Plain :=
  ⟨⟨trivial, trivial⟩, ⟨plain_word _, trivial, trivial⟩, trivial⟩

theorem value_two {a b : UInt32} (ha : isDigit a = true) (hb : isDigit b = true) :
    value [a, b] = 10 * (a.toNat - 48) + (b.toNat - 48) := by
  rw [isDigit_iff] at ha hb
  have hvalue : value [a, b] = b.toNat % 256 - 48 + 10 * (a.toNat % 256 - 48) := by
    simp [value, digitsValue, Utf8.narrow, Nat.ofDigits_cons]
  omega

/-- One digit, or two with a value of at most 23. -/
def Hour (w : WString) : Prop :=
  (exists b, isDigit b = true ∧ w = [b]) ∨
    exists a b, isDigit a = true ∧ isDigit b = true ∧ value [a, b] ≤ 23 ∧ w = [a, b]

theorem in_range {a b : Char} {c : UInt32} :
    decide (a.val ≤ c ∧ c ≤ b.val) = true ↔
      a.val.toNat ≤ c.toNat ∧ c.toNat ≤ b.val.toNat := by
  rw [decide_eq_true_eq, UInt32.le_iff_toNat_le, UInt32.le_iff_toNat_le]

theorem mem_choices_hour {s t : WString} :
    t ∈ choices hourPattern s ↔ Hour t ∧ t <+: s := by
  have hplain : (range '0' '9').Plain := trivial
  rw [hourPattern, choices_group, choices_alt, List.mem_append, mem_choices_seq_opt hplain]
  change ((t ∈ choices (seq (set _) (set _)) s ∨ t ∈ choices (set _) s) ∨
    t ∈ choices (seq (set fun c => decide (c = 50)) (set _)) s) ↔ _
  rw [mem_choices_pair, mem_choices_pair, mem_choices_set]
  simp only [in_range]
  simp only [decide_eq_true_eq, show '0'.val.toNat = 48 from rfl,
    show '1'.val.toNat = 49 from rfl, show '3'.val.toNat = 51 from rfl,
    show '9'.val.toNat = 57 from rfl]
  constructor
  · rintro ((⟨a, b, ha, hb, rfl, hs⟩ | ⟨b, hb, rfl, hs⟩) | ⟨a, b, rfl, hb, rfl, hs⟩)
    · have ha' : isDigit a = true := isDigit_iff.mpr (by omega)
      have hb' : isDigit b = true := isDigit_iff.mpr hb
      refine ⟨Or.inr ⟨a, b, ha', hb', ?_, rfl⟩, hs⟩
      rw [value_two ha' hb']
      omega
    · obtain ⟨s', rfl⟩ := List.head?_eq_some_iff.mp hs
      exact ⟨Or.inl ⟨b, isDigit_iff.mpr hb, rfl⟩, s', rfl⟩
    · have hb' : isDigit b = true := isDigit_iff.mpr (by omega)
      refine ⟨Or.inr ⟨50, b, by decide, hb', ?_, rfl⟩, hs⟩
      rw [value_two (by decide) hb']
      have htwo : (50 : UInt32).toNat = 50 := rfl
      omega
  · rintro ⟨⟨b, hb, rfl⟩ | ⟨a, b, ha, hb, hvalue, rfl⟩, hs⟩
    · obtain ⟨s', rfl⟩ := hs
      exact Or.inl (Or.inr ⟨b, isDigit_iff.mp hb, rfl, rfl⟩)
    · rw [value_two ha hb] at hvalue
      rw [isDigit_iff] at ha hb
      by_cases htwo : a = 50
      · have htwo' : a.toNat = 50 := congrArg UInt32.toNat htwo
        exact Or.inr ⟨a, b, htwo, by omega, rfl, hs⟩
      · have htwo' : a.toNat ≠ 50 := fun h => htwo (UInt32.toNat_inj.mp h)
        exact Or.inl (Or.inl ⟨a, b, by omega, hb, rfl, hs⟩)

theorem Hour.field {t : WString} (h : Hour t) : Field 1 2 t := by
  rcases h with ⟨b, hb, rfl⟩ | ⟨a, b, ha, hb, -, rfl⟩
  · exact ⟨Nat.le_refl 1, Nat.le_succ 1, by simpa using hb⟩
  · exact ⟨Nat.le_succ 1, Nat.le_refl 2, by simpa using ⟨ha, hb⟩⟩

theorem hour_iff {t : WString} (h : Number t) : Hour t ↔ t.length ≤ 2 ∧ value t ≤ 23 := by
  constructor
  · intro hour
    refine ⟨hour.field.most, ?_⟩
    rcases hour with ⟨b, hb, rfl⟩ | ⟨a, b, -, -, hvalue, rfl⟩
    · have hfield : Field 1 1 [b] := ⟨Nat.le_refl 1, Nat.le_refl 1, by simpa using hb⟩
      have hlt := value_lt_of_field hfield
      omega
    · exact hvalue
  · rintro ⟨hlength, hvalue⟩
    match t, h, hlength with
    | [], h, _ => exact absurd rfl h.nonempty
    | [b], h, _ => exact Or.inl ⟨b, h.digits b (by simp), rfl⟩
    | [a, b], h, _ =>
        exact Or.inr ⟨a, b, h.digits a (by simp), h.digits b (by simp), hvalue, rfl⟩

theorem stays_hour : hourPattern.Stays isDigit := fun _ _ ht =>
  (mem_choices_hour.mp ht).1.field.digits

theorem digits_runBefore {w : WString} : forall c, c ∈ runBefore w -> isDigit c = true :=
  fun _ hc => List.mem_rtakeWhile_imp hc

/-- A match does not begin behind digits that belong to the hour. -/
theorem time_begins {s : WString} {mt : Match UInt32} (h : timePattern.search s = some mt) :
    runBefore mt.pre = [] ↔
      (runBefore mt.pre ++ mt.group 1).length ≤ 2 ∧
        value (runBefore mt.pre ++ mt.group 1) ≤ 23 := by
  rcases time_shape h with ⟨hour, minute, rest, hfield, -, htext, hone, -, -⟩
  have hclosed : mt.text = hour ++ 58 :: (minute ++ rest) := by
    rw [htext, List.append_assoc, List.append_assoc]
    rfl
  have hfield' : Field (0 + 1) 2 hour := hfield
  have hnumber : Number (runBefore mt.pre ++ hour) :=
    ⟨List.append_ne_nil_of_right_ne_nil _ hfield'.number.nonempty,
      List.forall_mem_append.mpr ⟨digits_runBefore, hfield.digits⟩⟩
  have hsearch := h
  rw [timePattern_eq] at hsearch
  obtain ⟨hchoice, hbefore⟩ := stays_hour.search (by decide) plain_minute hsearch hfield.digits
    (by decide) hclosed
  rw [hone, ← hour_iff hnumber]
  constructor
  · intro hnone
    rw [hnone]
    exact (mem_choices_hour.mp hchoice).1
  · intro hour'
    by_contra hne
    apply hbefore (mt.pre.rdropWhile isDigit) (runBefore mt.pre)
      List.rdropWhile_append_rtakeWhile.symm hne
    exact mem_choices_hour.mpr ⟨hour', List.prefix_append _ _⟩

/-- A time without seconds is not replaced: its rule throws. -/
theorem time_fits {s : WString} {mt : Match UInt32} (h : timePattern.search s = some mt)
    (hseconds : (mt.caps 4).isSome = true) : ¬ Torn 0 s mt ↔ TimeFits mt := by
  have hbegins := time_begins h
  rcases time_shape h with ⟨hour, minute, rest, hfield, -, htext, -, -, hrest⟩
  have hfield' : Field (0 + 1) 2 hour := hfield
  have hbegin : runAfter mt.text ≠ [] := by
    rw [htext]
    simp only [List.append_assoc]
    exact runAfter_number hfield'.number
  rcases hrest with ⟨-, hnone⟩ | ⟨second, hsecond, rfl, hfour⟩
  · rw [Captures.texts, Option.map_eq_none_iff] at hnone
    rw [hnone] at hseconds
    cases hseconds
  · have hsecond' : Field (1 + 1) 2 second := hsecond
    have hend : runBefore mt.text ≠ [] := by
      rw [htext, ← List.append_assoc]
      exact runBefore_number hsecond'.number
    have hgroup : mt.group 4 = second := by
      rw [Match.group_eq_texts, hfour]
      rfl
    have hleast := hsecond.least
    have hmost := hsecond.most
    rw [torn_match h (text_ne_nil must_time h), not_or, and_iff_left hbegin,
      and_iff_right hend, ne_eq, not_not, ne_eq, not_not, hbegins, TimeFits, hgroup,
      ← List.length_eq_zero_iff]
    have hlength : (runAfter mt.post).length = 0 ↔
        (second ++ runAfter mt.post).length = 2 := by
      rw [List.length_append]
      omega
    rw [hlength]

/-!
## All rules
-/

/-- How many digits a match has in front of it and behind it, where its rule counts them. -/
def Fits (i : Fin loops.length) (mt : Match UInt32) : Prop :=
  match i.val with
  | 0 => YearFits mt
  | 1 => DateFits mt
  | 2 => TimeFits mt
  | 6 | 7 => PhoneFits mt
  | _ => True

/-- The rounds of `ReTime` are those of times with seconds. -/
theorem round_time {c c' : Rule.Config TextNormalizer Unit UInt32} {mt : Match UInt32}
    {rep : WString} (hc : Valid c.state) (h : timeRule.Round c mt rep c') :
    ¬ Torn 0 c.sentence mt ↔ TimeFits mt := by
  obtain ⟨hfound, hbody, -, -⟩ := refines_time.round hc h
  refine time_fits hfound ?_
  rcases timeText_reads hfound with ⟨hseconds, -⟩ | ⟨-, herror⟩
  · exact hseconds
  · simp only [rule, herror] at hbody
    cases hbody

theorem round_fits (i : Fin loops.length)
    {c c' : Rule.Config TextNormalizer (loops.get i).κ UInt32} {mt : Match UInt32}
    {rep : WString} (hc : Valid c.state) (h : (loops.get i).rule.Round c mt rep c') :
    ¬ Torn (loops.get i).rule.span c.sentence mt ↔ Fits i mt := by
  match i with
  | ⟨0, _⟩ => exact data_fits h.found
  | ⟨1, _⟩ => exact data2_fits h.found
  | ⟨2, _⟩ => exact round_time hc h
  | ⟨3, _⟩ => exact iff_of_true (whole_temperature h.found) trivial
  | ⟨4, _⟩ => exact iff_of_true (whole_frac h.found) trivial
  | ⟨5, _⟩ => exact iff_of_true (whole_percentage h.found) trivial
  | ⟨6, _⟩ => exact mobilePhone_fits h.found
  | ⟨7, _⟩ => exact phonePattern_fits h.found
  | ⟨8, _⟩ => exact iff_of_true (whole_range h.found) trivial
  | ⟨9, _⟩ => exact iff_of_true (whole_interger h.found) trivial
  | ⟨10, _⟩ => exact iff_of_true (whole_decimalNum h.found) trivial
  | ⟨11, _⟩ => exact iff_of_true (whole_positiveQuantifiers h.found) trivial
  | ⟨12, _⟩ => exact iff_of_true (whole_defalutNum h.found) trivial
  | ⟨13, _⟩ => exact iff_of_true (whole_number h.found) trivial

/-- No step of the run replaces a part that begins or ends inside a run of digits. -/
def NeverTears (n : TextNormalizer) (s : WString) : Prop :=
  forall i c mt rep c', ComesTo loops s n i c -> (loops.get i).rule.Round c mt rep c' ->
    ¬ Torn (loops.get i).rule.span c.sentence mt

/--
A run never tears a number apart exactly when at each of its steps the match of a
date, a time or a telephone number has as many digits around it as its rule counts.
-/
theorem SentenceNormalize_never_tears_iff (n : TextNormalizer) (hn : Reachable n)
    (s : WString) :
    NeverTears n s ↔ forall i c mt rep c', ComesTo loops s n i c ->
      (loops.get i).rule.Round c mt rep c' -> Fits i mt := by
  have hsound : forall l, l ∈ loops -> l.Sound := fun _ hl => loops_sound hl
  have hstep : forall {i c mt rep c'}, ComesTo loops s n i c ->
      (loops.get i).rule.Round c mt rep c' ->
      (¬ Torn (loops.get i).rule.span c.sentence mt ↔ Fits i mt) := by
    intro i c mt rep c' hcomes hround
    have hvalid := (hcomes.kept (P := fun _ => True) hsound (fun _ _ _ _ _ => trivial)
      hn.valid trivial).1
    exact round_fits i hvalid hround
  constructor
  · intro h i c mt rep c' hcomes hround
    exact (hstep hcomes hround).mp (h i c mt rep c' hcomes hround)
  · intro h i c mt rep c' hcomes hround
    exact (hstep hcomes hround).mpr (h i c mt rep c' hcomes hround)

/-- With a single digit no date, time or telephone number is found, after another call. -/
theorem SentenceNormalize_never_tears_iff_digit :
    NeverTears ((Call.singleDigit2Text (str "110") true).exec construct) (wstr "有3只猫") := by
  refine (SentenceNormalize_never_tears_iff _ (Reachable.construct.call _) _).mpr ?_
  intro i c mt rep c' hcomes hround
  have hkept := hcomes.kept (P := fun t => t = wstr "有3只猫" ∨ DigitFree t)
    (fun _ hl => loops_sound hl) ?_ (Reachable.construct.call _).valid (Or.inl rfl)
  · rcases hkept.2 with hsame | hfree
    · have hcounted : forall i : Fin loops.length, i.val ∈ [0, 1, 2, 6, 7] ->
          ((loops.get i).rule.pattern.search (wstr "有3只猫")).isNone = true := by
        decide +kernel
      have hother : i.val ∉ [0, 1, 2, 6, 7] := by
        intro hi
        have hnone := hcounted i hi
        rw [← hsame, hround.found] at hnone
        cases hnone
      unfold Fits
      split <;> simp_all
    · rcases loops_sound (List.get_mem loops i) with ⟨rule', href, -, hmust⟩
      obtain ⟨hsearch, -⟩ := href.round hkept.1 hround
      rw [search_digitFree hmust hfree] at hsearch
      cases hsearch
  · intro t rep t' heffect ht
    have hfewer := Effect.digitCount_lt heffect
    refine Or.inr (digitCount_eq_zero.mp ?_)
    rcases ht with rfl | hfree
    · have hone : digitCount (wstr "有3只猫") = 1 := by
        decide
      omega
    · rw [digitCount_eq_zero.mpr hfree] at hfewer
      cases hfewer

/-- Five digits in front of 年: the year takes the last four and leaves the first. -/
theorem SentenceNormalize_torn_year :
    ¬ NeverTears construct (wstr "12345年") ∧
      (ReData (wstr "12345年") construct).1 = Except.ok (wstr "1二三四五年") := by
  refine ⟨?_, by decide +kernel⟩
  intro h
  have hfirst : (dataPattern.search (wstr "12345年")).map (fun mt => (mt.pre, mt.group 1)) =
      some (wstr "1", wstr "2345") := by decide +kernel
  obtain ⟨mt, hsearch, hmt⟩ := Option.map_eq_some_iff.mp hfirst
  obtain ⟨hpre, hyear⟩ := Prod.mk.inj hmt
  obtain ⟨cs, hcs⟩ := dataText_reads hsearch
  have hbody : (rule dataPattern 0 dataText).body () mt.group =
      Except.ok ((), Utf8.units cs) := by
    simp only [rule, hcs]
    rfl
  obtain ⟨c', hround, -⟩ := refines_data.exists_round (c := ⟨(), wstr "12345年", construct⟩)
    Reachable.construct.valid hsearch hbody
  have hfits := (data_fits hsearch).mp (h ⟨0, by decide⟩ _ mt _ c'
    ⟨_, _, rfl, Rule.Reaches.start⟩ hround)
  rw [YearFits, hpre, hyear] at hfits
  exact absurd hfits (by decide)

end Spoken
end VoiceTts
