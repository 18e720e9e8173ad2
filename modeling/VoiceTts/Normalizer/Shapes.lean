import VoiceTts.Lib.RegexChoices
import VoiceTts.Lib.RegexText
import VoiceTts.Normalizer.Rules

/-!
# The shapes of the matches

For each pattern of the normaliser, the text of a match as a sequence of its
parts, and which part each group holds.  Everything that is proved about a round
of a rule starts from these shapes.
-/

namespace VoiceTts
namespace TextNormalizer

open Regex

/-- A string of `lo` to `hi` digits. -/
structure Field (lo hi : Nat) (w : WString) : Prop where
  least : lo ≤ w.length
  most : w.length ≤ hi
  digits : forall c, c ∈ w -> isDigit c = true

structure Number (w : WString) : Prop where
  nonempty : w ≠ []
  digits : forall c, c ∈ w -> isDigit c = true

/-- A number with or without a fraction; with one, the integer part can be empty. -/
inductive Decimal : WString -> Prop where
  | whole {w} : Number w -> Decimal w
  | point {i f} : (forall c, c ∈ i -> isDigit c = true) -> Number f ->
      Decimal (i ++ 46 :: f)

/-- The text starts with a digit. -/
def Leading (w : WString) : Prop :=
  exists c t, w = c :: t ∧ isDigit c = true

/-- An optional minus sign. -/
def Sign (w : WString) : Prop :=
  w = [] ∨ w = [45]

theorem Decimal.exists_digit {w : WString} (h : Decimal w) :
    exists c, c ∈ w ∧ isDigit c = true := by
  cases h with
  | whole h =>
      rcases List.exists_mem_of_ne_nil _ h.nonempty with ⟨c, hc⟩
      exact ⟨c, hc, h.digits c hc⟩
  | @point i f hi hf =>
      rcases List.exists_mem_of_ne_nil _ hf.nonempty with ⟨c, hc⟩
      exact ⟨c, by simp [hc], hf.digits c hc⟩

theorem Number.exists_digit {w : WString} (h : Number w) :
    exists c, c ∈ w ∧ isDigit c = true :=
  Decimal.exists_digit (Decimal.whole h)

theorem Number.of_plus {w : WString} {c c' : Texts UInt32}
    (h : (plus digit).Derives w c c') : Number w ∧ c' = c := by
  rcases derives_plus_set.mp h with ⟨hne, hall, rfl⟩
  exact ⟨⟨hne, hall⟩, rfl⟩

theorem Field.of_times {n : Nat} {w : WString} {c c' : Texts UInt32}
    (h : (times n digit).Derives w c c') : Field n n w ∧ c' = c := by
  rcases derives_times_set h with ⟨hlen, hall, rfl⟩
  exact ⟨⟨hlen.ge, hlen.le, hall⟩, rfl⟩

theorem Field.of_flat {r : Regex UInt32} {w : WString} {c c' : Texts UInt32}
    (h : r.Derives w c c') (hflat : r.Flat fun c => isDigit c = true) :
    Field r.least r.most w ∧ c' = c := by
  rcases derives_flat hflat h with ⟨hall, hleast, hmost, rfl⟩
  exact ⟨⟨hleast, hmost, hall⟩, rfl⟩

theorem Field.mono {lo hi lo' hi' : Nat} {w : WString} (h : Field lo hi w)
    (hlo : lo' ≤ lo) (hhi : hi ≤ hi') : Field lo' hi' w :=
  ⟨hlo.trans h.least, h.most.trans hhi, h.digits⟩

theorem Field.append {lo hi lo' hi' : Nat} {w v : WString} (hw : Field lo hi w)
    (hv : Field lo' hi' v) : Field (lo + lo') (hi + hi') (w ++ v) := by
  refine ⟨?_, ?_, ?_⟩
  · rw [List.length_append]
    exact Nat.add_le_add hw.least hv.least
  · rw [List.length_append]
    exact Nat.add_le_add hw.most hv.most
  · intro c hc
    rcases List.mem_append.mp hc with hc | hc
    · exact hw.digits c hc
    · exact hv.digits c hc

theorem Field.number {lo hi : Nat} {w : WString} (h : Field (lo + 1) hi w) :
    Number w := by
  refine ⟨?_, h.digits⟩
  rintro rfl
  exact absurd h.least (by simp)

/-- Digits are taken up to a character that is none. -/
theorem prefers_number {w v : WString} (hw : Number w)
    (hv : forall c, v.head? = some c -> isDigit c = false) :
    Prefers (plus digit) (w ++ v) w := by
  cases w with
  | nil => exact absurd rfl hw.nonempty
  | cons c w =>
      have h := prefers_plus_set (hw.digits c List.mem_cons_self) (w ++ v)
      rw [← List.cons_append, takeWhile_run hw.digits hv] at h
      exact h

theorem Sign.of_opt {w : WString} {c c' : Texts UInt32}
    (h : (opt (lit "-")).Derives w c c') : Sign w ∧ c' = c := by
  rcases h with h | ⟨rfl, rfl⟩
  · rcases derives_word.mp h with ⟨rfl, rfl⟩
    exact ⟨Or.inr rfl, rfl⟩
  · exact ⟨Or.inl rfl, rfl⟩

theorem mem_cls {s : String} {w : WString} {c c' : Texts UInt32}
    (h : (cls s).Derives w c c') :
    (exists x, x ∈ wstr s ∧ w = [x]) ∧ c' = c := by
  rcases h with ⟨x, hx, rfl, rfl⟩
  exact ⟨⟨x, of_decide_eq_true hx, rfl⟩, rfl⟩

theorem isDigit_iff {c : UInt32} :
    isDigit c = true ↔ 48 ≤ c.toNat ∧ c.toNat ≤ 57 := by
  simp [isDigit]

theorem flat_range {a b : Char} (ha : 48 ≤ a.val.toNat) (hb : b.val.toNat ≤ 57) :
    (range a b).Flat fun c => isDigit c = true := by
  intro c hc
  rcases of_decide_eq_true hc with ⟨hac, hcb⟩
  rw [UInt32.le_iff_toNat_le] at hac hcb
  exact isDigit_iff.mpr ⟨ha.trans hac, hcb.trans hb⟩

theorem flat_cls {s : String} (h : forall c, c ∈ wstr s -> isDigit c = true) :
    (cls s).Flat fun c => isDigit c = true := by
  intro c hc
  exact h c (of_decide_eq_true hc)

theorem flat_lit {s : String} (h : forall c, c ∈ wstr s -> isDigit c = true) :
    (lit s).Flat fun c => isDigit c = true := by
  unfold lit
  generalize wstr s = w at h
  induction w using word.induct with
  | case1 =>
      trivial
  | case2 x =>
      intro c hc
      rw [of_decide_eq_true hc]
      exact h x (by simp)
  | case3 x y w ih =>
      refine ⟨?_, ih fun c hc => h c (List.mem_cons_of_mem x hc)⟩
      intro c hc
      rw [of_decide_eq_true hc]
      exact h x (by simp)

/-!
## Dates and times
-/

theorem data_texts {s : WString} {mt : Match UInt32}
    (h : dataPattern.search s = some mt) :
    exists year month day, Field 2 4 year ∧
      mt.text = year ++ wstr "年" ++ month ++ day ∧ mt.caps.texts 1 = some year ∧
      ((month = [] ∧ mt.caps.texts 3 = none) ∨
        exists m, Field 1 2 m ∧ mt.caps.texts 3 = some m ∧ month = m ++ wstr "月") ∧
      ((day = [] ∧ mt.caps.texts 5 = none) ∨
        exists d u, Field 1 2 d ∧ u ∈ wstr "日号" ∧ mt.caps.texts 5 = some d ∧
          mt.caps.texts 9 = some [u] ∧ day = d ++ [u]) := by
  rcases Match.search_derives h with
    ⟨year, _, ⟨c, hy, rfl⟩, _, ⟨_, _, hn, _,
      ⟨month, cm, hm, day, hd, rfl⟩, rfl⟩, htext⟩
  have hyear : Field 2 4 year ∧ c = fun _ => none := by
    rcases hy with hy | hy
    · rcases Field.of_times hy with ⟨hyear, hc⟩
      exact ⟨hyear.mono (by omega) (by omega), hc⟩
    · rcases Field.of_times hy with ⟨hyear, hc⟩
      exact ⟨hyear.mono (by omega) (by omega), hc⟩
  rcases hyear with ⟨hyear, rfl⟩
  rcases derives_word.mp hn with ⟨rfl, rfl⟩
  -- the texts of the groups after the optional month
  have hmonth : cm 1 = some year ∧ cm 5 = none ∧
      ((month = [] ∧ cm 3 = none) ∨
        exists m, Field 1 2 m ∧ cm 3 = some m ∧ month = m ++ wstr "月") := by
    rcases hm with ⟨_, ⟨m, _, ⟨_, hm, rfl⟩, _, hyue, rfl⟩, rfl⟩ | ⟨rfl, rfl⟩
    · rcases Field.of_flat hm
        ⟨⟨⟨flat_lit (by decide), trivial⟩, flat_range (by decide) (by decide)⟩,
          flat_lit (by decide), flat_range (by decide) (by decide)⟩
        with ⟨hfield, rfl⟩
      rcases derives_word.mp hyue with ⟨rfl, rfl⟩
      refine ⟨by simp [Texts.record], by simp [Texts.record], Or.inr ⟨m,
        hfield.mono (by decide) (by decide), by simp [Texts.record], rfl⟩⟩
    · exact ⟨by simp [Texts.record], by simp [Texts.record],
        Or.inl ⟨rfl, by simp [Texts.record]⟩⟩
  rcases hmonth with ⟨hone, hfive, hthree⟩
  have hday : mt.caps.texts 1 = some year ∧ mt.caps.texts 3 = cm 3 ∧
      ((day = [] ∧ mt.caps.texts 5 = none) ∨
        exists d u, Field 1 2 d ∧ u ∈ wstr "日号" ∧
          mt.caps.texts 5 = some d ∧ mt.caps.texts 9 = some [u] ∧
          day = d ++ [u]) := by
    rcases hd with ⟨_, ⟨d, cd, ⟨cr, hd, rfl⟩, _, ⟨_, hri, rfl⟩, rfl⟩, hcaps⟩ |
      ⟨rfl, hcaps⟩
    · have hfield : Field 1 2 d ∧ cr 1 = cm 1 ∧ cr 3 = cm 3 := by
        rcases hd with ⟨_, hd, rfl⟩ |
          ⟨_, ⟨_, _, ⟨_, hd1, rfl⟩, _, hd2, rfl⟩, rfl⟩ | hd
        · rcases Field.of_flat hd
            ⟨⟨flat_lit (by decide), trivial⟩,
              flat_range (by decide) (by decide)⟩ with ⟨hfield, rfl⟩
          exact ⟨hfield.mono (by decide) (by decide), by simp [Texts.record],
            by simp [Texts.record]⟩
        · rcases Field.of_flat hd1 ⟨flat_lit (by decide), flat_lit (by decide)⟩
            with ⟨hfield1, rfl⟩
          rcases Field.of_flat hd2 (flat_range (by decide) (by decide))
            with ⟨hfield2, rfl⟩
          exact ⟨(hfield1.append hfield2).mono (by decide) (by decide),
            by simp [Texts.record], by simp [Texts.record]⟩
        · rcases Field.of_flat hd ⟨flat_lit (by decide), flat_lit (by decide)⟩
            with ⟨hfield, rfl⟩
          exact ⟨hfield.mono (by decide) (by decide), rfl, rfl⟩
      rcases hfield with ⟨hfield, hcr1, hcr3⟩
      rcases mem_cls hri with ⟨⟨u, hu, rfl⟩, rfl⟩
      refine ⟨by simp [hcaps, Texts.record, hcr1, hone],
        by simp [hcaps, Texts.record, hcr3], Or.inr ⟨d, u, hfield, hu, ?_, ?_, rfl⟩⟩
      · simp [hcaps, Texts.record]
      · simp [hcaps, Texts.record]
    · exact ⟨by rw [hcaps, hone], by rw [hcaps],
        Or.inl ⟨rfl, by rw [hcaps, hfive]⟩⟩
  rcases hday with ⟨hgroup1, hgroup3, hday⟩
  exact ⟨year, month, day, hyear, by simpa using htext, hgroup1, hgroup3 ▸ hthree, hday⟩

theorem data_shape {s : WString} {mt : Match UInt32}
    (h : dataPattern.search s = some mt) :
    exists year month day, Field 2 4 year ∧
      mt.text = year ++ wstr "年" ++ month ++ day ∧ mt.group 1 = year ∧
      ((month = [] ∧ mt.group 3 = []) ∨
        (Field 1 2 (mt.group 3) ∧ month = mt.group 3 ++ wstr "月")) ∧
      ((day = [] ∧ mt.group 5 = []) ∨
        (Field 1 2 (mt.group 5) ∧ day = mt.group 5 ++ mt.group 9 ∧
          (mt.group 9 = wstr "日" ∨ mt.group 9 = wstr "号"))) := by
  rcases data_texts h with ⟨year, month, day, hyear, htext, hgroup1, hthree, hday⟩
  refine ⟨year, month, day, hyear, htext, ?_, ?_, ?_⟩
  · simp [Match.group_eq_texts, hgroup1]
  · rcases hthree with ⟨rfl, hgroup3⟩ | ⟨m, hfield, hgroup3, rfl⟩
    · exact Or.inl ⟨rfl, by simp [Match.group_eq_texts, hgroup3]⟩
    · have hm : mt.group 3 = m := by
        simp [Match.group_eq_texts, hgroup3]
      rw [hm]
      exact Or.inr ⟨hfield, rfl⟩
  · rcases hday with ⟨rfl, hgroup5⟩ | ⟨d, u, hfield, hu, hgroup5, hgroup9, rfl⟩
    · exact Or.inl ⟨rfl, by simp [Match.group_eq_texts, hgroup5]⟩
    · have hd : mt.group 5 = d := by
        simp [Match.group_eq_texts, hgroup5]
      have hg : mt.group 9 = [u] := by
        simp [Match.group_eq_texts, hgroup9]
      rw [hd, hg]
      have hunit : forall u, u ∈ wstr "日号" ->
          [u] = wstr "日" ∨ [u] = wstr "号" := by
        decide
      exact Or.inr ⟨hfield, rfl, hunit u hu⟩

theorem data2_shape {s : WString} {mt : Match UInt32}
    (h : data2Pattern.search s = some mt) :
    exists year sep month day, Field 4 4 year ∧ sep ∈ wstr "- /." ∧
      Field 2 2 month ∧ Field 2 2 day ∧
      mt.text = year ++ [sep] ++ month ++ [sep] ++ day ∧
      mt.group 1 = year ∧ mt.group 3 = month ∧ mt.group 4 = day := by
  rcases Match.search_derives h with
    ⟨year, _, ⟨_, hy, rfl⟩, _, ⟨_, _, ⟨_, hs, rfl⟩, _,
      ⟨month, _, ⟨_, hm, rfl⟩, _, ⟨back, _, hback, day,
        ⟨_, hd, hcaps⟩, rfl⟩, rfl⟩, rfl⟩, htext⟩
  rcases Field.of_times hy with ⟨hyear, rfl⟩
  rcases mem_cls hs with ⟨⟨sep, hsep, rfl⟩, rfl⟩
  rcases Field.of_flat hm
    ⟨⟨flat_lit (by decide), flat_range (by decide) (by decide)⟩,
      flat_lit (by decide), flat_cls (by decide)⟩ with ⟨hmonth, rfl⟩
  rcases hback with ⟨rfl, rfl⟩
  rcases Field.of_flat hd
    ⟨⟨flat_lit (by decide), flat_range (by decide) (by decide)⟩,
      ⟨flat_cls (by decide), flat_range (by decide) (by decide)⟩,
      flat_lit (by decide), flat_cls (by decide)⟩ with ⟨hday, rfl⟩
  refine ⟨year, sep, month, day, hyear, hsep,
    hmonth.mono (by decide) (by decide), hday.mono (by decide) (by decide),
    ?_, ?_, ?_, ?_⟩
  · rw [htext]
    simp [Texts.record]
  · simp [Match.group_eq_texts, hcaps, Texts.record]
  · simp [Match.group_eq_texts, hcaps, Texts.record]
  · simp [Match.group_eq_texts, hcaps, Texts.record]

theorem time_shape {s : WString} {mt : Match UInt32}
    (h : timePattern.search s = some mt) :
    exists hour minute rest, Field 1 2 hour ∧ Field 2 2 minute ∧
      mt.text = hour ++ wstr ":" ++ minute ++ rest ∧
      mt.group 1 = hour ∧ mt.group 2 = minute ∧
      ((rest = [] ∧ mt.caps.texts 4 = none) ∨
        exists second, Field 2 2 second ∧ rest = wstr ":" ++ second ∧
          mt.caps.texts 4 = some second) := by
  have hfield : (seq (range '0' '5') (range '0' '9')).Flat
      fun c => isDigit c = true :=
    ⟨flat_range (by decide) (by decide), flat_range (by decide) (by decide)⟩
  rcases Match.search_derives h with
    ⟨hour, _, ⟨_, hh, rfl⟩, _, ⟨_, _, hcolon, _,
      ⟨minute, _, ⟨_, hm, rfl⟩, rest, hrest, rfl⟩, rfl⟩, htext⟩
  rcases Field.of_flat hh
    ⟨⟨⟨flat_range (by decide) (by decide), trivial⟩,
        flat_range (by decide) (by decide)⟩,
      flat_lit (by decide), flat_range (by decide) (by decide)⟩
    with ⟨hhour, rfl⟩
  rcases derives_word.mp hcolon with ⟨rfl, rfl⟩
  rcases Field.of_flat hm hfield with ⟨hminute, rfl⟩
  refine ⟨hour, minute, rest, hhour.mono (by decide) (by decide), hminute,
    by simpa using htext, ?_⟩
  rcases hrest with ⟨_, ⟨_, _, hcolon, second, ⟨_, hs, rfl⟩, rfl⟩, hcaps⟩ |
    ⟨rfl, hcaps⟩
  · rcases derives_word.mp hcolon with ⟨rfl, rfl⟩
    rcases Field.of_flat hs hfield with ⟨hsecond, rfl⟩
    refine ⟨?_, ?_, Or.inr ⟨second, hsecond, rfl, ?_⟩⟩
    · simp [Match.group_eq_texts, hcaps, Texts.record]
    · simp [Match.group_eq_texts, hcaps, Texts.record]
    · simp [hcaps, Texts.record]
  · refine ⟨?_, ?_, Or.inl ⟨rfl, ?_⟩⟩
    · simp [Match.group_eq_texts, hcaps, Texts.record]
    · simp [Match.group_eq_texts, hcaps, Texts.record]
    · simp [hcaps, Texts.record]

/-!
## Numbers with a sign
-/

/-- Digits, and a fraction with its point exactly when the group of the fraction took part. -/
inductive Fractional : WString -> WString -> Option WString -> Prop where
  | whole {i} : Number i -> Fractional i i none
  | point {i f} : Number i -> Number f -> Fractional i (i ++ 46 :: f) (some (46 :: f))

theorem Fractional.toDecimal {i w : WString} {f : Option WString} (h : Fractional i w f) :
    Decimal w := by
  cases h with
  | whole hi =>
      exact Decimal.whole hi
  | point hi hf =>
      exact Decimal.point hi.digits hf

theorem Fractional.leading {i w : WString} {f : Option WString} (h : Fractional i w f) :
    Leading w := by
  have hlead : forall {i : WString} (f : WString), Number i -> Leading (i ++ f) := by
    intro i f hi
    cases i with
    | nil =>
        exact absurd rfl hi.nonempty
    | cons d i =>
        exact ⟨d, i ++ f, rfl, hi.digits d (by simp)⟩
  cases h with
  | whole hi =>
      have hi' := hlead [] hi
      rwa [List.append_nil] at hi'
  | point hi hf =>
      exact hlead _ hi

theorem Fractional.of_decimal {n : Nat} {w : WString} {c c' : Texts UInt32}
    (h : (decimal n).Derives w c c') (hn : c n = none) :
    (exists i, Fractional i w (c' n)) ∧ forall k, k ≠ n -> c' k = c k := by
  rcases h with ⟨i, _, hi, f, hf, rfl⟩
  rcases Number.of_plus hi with ⟨hint, rfl⟩
  rcases hf with ⟨_, ⟨_, _, hdot, f, hf, rfl⟩, rfl⟩ | ⟨rfl, rfl⟩
  · rcases derives_word.mp hdot with ⟨rfl, rfl⟩
    rcases Number.of_plus hf with ⟨hfrac, rfl⟩
    constructor
    · have hself : forall (c : Texts UInt32) (w : WString), (c.record n w) n = some w := by
        intro c w
        simp [Texts.record]
      refine ⟨i, ?_⟩
      rw [hself]
      exact Fractional.point hint hfrac
    · intro k hk
      simp [Texts.record, hk]
  · rw [List.append_nil, hn]
    exact ⟨⟨i, Fractional.whole hint⟩, fun _ _ => rfl⟩

theorem temperature_texts {s : WString} {mt : Match UInt32}
    (h : temperaturePattern.search s = some mt) :
    exists sign i number unit, Sign sign ∧ Fractional i number (mt.caps.texts 3) ∧
      (unit = wstr "°C" ∨ unit = wstr "℃" ∨ unit = wstr "度" ∨
        unit = wstr "摄氏度") ∧
      mt.text = sign ++ number ++ unit ∧ mt.caps.texts 1 = some sign ∧
      mt.caps.texts 2 = some number ∧ mt.caps.texts 4 = some unit := by
  rcases Match.search_derives h with
    ⟨sign, _, ⟨_, hs, rfl⟩, _, ⟨number, _, ⟨c, hn, rfl⟩, unit,
      ⟨cu, hu, hcaps⟩, rfl⟩, htext⟩
  rcases Sign.of_opt hs with ⟨hsign, rfl⟩
  rcases Fractional.of_decimal hn rfl with ⟨⟨i, hnumber⟩, hframe⟩
  have hone : c 1 = some sign := by
    simp [hframe 1 (by decide), Texts.record]
  have hunit : (unit = wstr "°C" ∨ unit = wstr "℃" ∨ unit = wstr "度" ∨
      unit = wstr "摄氏度") ∧ cu = c.record 2 number := by
    rcases hu with hu | hu | hu | hu
    all_goals
      rcases derives_word.mp hu with ⟨rfl, rfl⟩
      simp
  rcases hunit with ⟨hunit, rfl⟩
  refine ⟨sign, i, number, unit, hsign, ?_, hunit, by simpa using htext, ?_, ?_, ?_⟩
  · rw [hcaps]
    exact hnumber
  · simp [hcaps, Texts.record, hone]
  · simp [hcaps, Texts.record]
  · simp [hcaps, Texts.record]

theorem temperature_shape {s : WString} {mt : Match UInt32}
    (h : temperaturePattern.search s = some mt) :
    exists sign number unit, Sign sign ∧ (Decimal number ∧ Leading number) ∧
      (unit = wstr "°C" ∨ unit = wstr "℃" ∨ unit = wstr "度" ∨
        unit = wstr "摄氏度") ∧
      mt.text = sign ++ number ++ unit ∧
      mt.group 1 = sign ∧ mt.group 2 = number ∧ mt.group 4 = unit := by
  rcases temperature_texts h with
    ⟨sign, i, number, unit, hsign, hnumber, hunit, htext, hg1, hg2, hg4⟩
  refine ⟨sign, number, unit, hsign, ⟨hnumber.toDecimal, hnumber.leading⟩, hunit, htext,
    ?_, ?_, ?_⟩
  · simp [Match.group_eq_texts, hg1]
  · simp [Match.group_eq_texts, hg2]
  · simp [Match.group_eq_texts, hg4]

theorem frac_shape {s : WString} {mt : Match UInt32}
    (h : fracPattern.search s = some mt) :
    exists sign numerator denominator, Sign sign ∧ Number numerator ∧
      Number denominator ∧
      mt.text = sign ++ numerator ++ wstr "/" ++ denominator ∧
      mt.group 1 = sign ∧ mt.group 2 = numerator ∧
      mt.group 3 = denominator := by
  rcases Match.search_derives h with
    ⟨sign, _, ⟨_, hs, rfl⟩, _, ⟨numerator, _, ⟨_, hn, rfl⟩, _,
      ⟨_, _, hslash, denominator, ⟨_, hd, hcaps⟩, rfl⟩, rfl⟩, htext⟩
  rcases Sign.of_opt hs with ⟨hsign, rfl⟩
  rcases Number.of_plus hn with ⟨hnumerator, rfl⟩
  rcases derives_word.mp hslash with ⟨rfl, rfl⟩
  rcases Number.of_plus hd with ⟨hdenominator, rfl⟩
  refine ⟨sign, numerator, denominator, hsign, hnumerator, hdenominator,
    by simpa using htext, ?_, ?_, ?_⟩
  · simp [Match.group_eq_texts, hcaps, Texts.record]
  · simp [Match.group_eq_texts, hcaps, Texts.record]
  · simp [Match.group_eq_texts, hcaps, Texts.record]

theorem percentage_texts {s : WString} {mt : Match UInt32}
    (h : percentagePattern.search s = some mt) :
    exists sign i number, Sign sign ∧ Fractional i number (mt.caps.texts 3) ∧
      mt.text = sign ++ number ++ wstr "%" ∧ mt.caps.texts 1 = some sign ∧
      mt.caps.texts 2 = some number := by
  rcases Match.search_derives h with
    ⟨sign, _, ⟨_, hs, rfl⟩, _, ⟨number, _, ⟨c, hn, rfl⟩, _, hpercent, rfl⟩,
      htext⟩
  rcases Sign.of_opt hs with ⟨hsign, rfl⟩
  rcases Fractional.of_decimal hn rfl with ⟨⟨i, hnumber⟩, hframe⟩
  rcases derives_word.mp hpercent with ⟨rfl, hcaps⟩
  have hone : c 1 = some sign := by
    simp [hframe 1 (by decide), Texts.record]
  refine ⟨sign, i, number, hsign, ?_, by simpa using htext, ?_, ?_⟩
  · rw [hcaps]
    exact hnumber
  · simp [hcaps, Texts.record, hone]
  · simp [hcaps, Texts.record]

theorem percentage_shape {s : WString} {mt : Match UInt32}
    (h : percentagePattern.search s = some mt) :
    exists sign number, Sign sign ∧ (Decimal number ∧ Leading number) ∧
      mt.text = sign ++ number ++ wstr "%" ∧
      mt.group 1 = sign ∧ mt.group 2 = number := by
  rcases percentage_texts h with ⟨sign, i, number, hsign, hnumber, htext, hg1, hg2⟩
  refine ⟨sign, number, hsign, ⟨hnumber.toDecimal, hnumber.leading⟩, htext, ?_, ?_⟩
  · simp [Match.group_eq_texts, hg1]
  · simp [Match.group_eq_texts, hg2]

theorem interger_shape {s : WString} {mt : Match UInt32}
    (h : intergerPattern.search s = some mt) :
    exists number, Number number ∧ mt.text = wstr "-" ++ number ∧
      mt.group 2 = number := by
  rcases Match.search_derives h with
    ⟨_, _, ⟨_, hs, rfl⟩, number, ⟨_, hn, hcaps⟩, htext⟩
  rcases derives_word.mp hs with ⟨rfl, rfl⟩
  rcases Number.of_plus hn with ⟨hnumber, rfl⟩
  refine ⟨number, hnumber, htext, ?_⟩
  simp [Match.group_eq_texts, hcaps, Texts.record]

/--
A number with its sign, in the groups counted from `n`: the sign, the number, and
in its place the number that starts with its point.
-/
def Signed (n : Nat) (t : WString) (c : Texts UInt32) : Prop :=
  exists sign number, Sign sign ∧ Decimal number ∧ number ≠ [] ∧
    t = sign ++ number ∧ (c n).getD [] = sign ∧
    ((c (n + 4) = none ∧ c (n + 1) = some number) ∨ c (n + 4) = some number)

/--
The groups of such a number as far as they took part: those of a number that starts with
a digit, or the one of a number that starts with its point.
-/
def Branches (n : Nat) (t : WString) (c : Texts UInt32) : Prop :=
  (exists sign i number, Sign sign ∧ Fractional i number (c (n + 3)) ∧ t = sign ++ number ∧
      c n = some sign ∧ c (n + 1) = some number ∧ c (n + 2) = some i ∧ c (n + 4) = none) ∨
    exists f, Number f ∧ t = 46 :: f ∧ c n = none ∧ c (n + 4) = some (46 :: f)

theorem Branches.signed {n : Nat} {t : WString} {c : Texts UInt32} (h : Branches n t c) :
    Signed n t c := by
  rcases h with ⟨sign, i, number, hsign, hnumber, rfl, hn, hn1, -, hn4⟩ |
    ⟨f, hf, rfl, hn, hn4⟩
  · refine ⟨sign, number, hsign, hnumber.toDecimal, ?_, rfl, by rw [hn]; rfl,
      Or.inl ⟨hn4, hn1⟩⟩
    rintro rfl
    rcases hnumber.leading with ⟨_, _, hnil, _⟩
    cases hnil
  · exact ⟨[], 46 :: f, Or.inl rfl, Decimal.point (i := []) (by simp) hf, by simp, rfl,
      by rw [hn]; rfl, Or.inr hn4⟩

theorem Branches.congr {n : Nat} {t : WString} {c c' : Texts UInt32}
    (h : Branches n t c) (hc : forall k, n ≤ k -> k ≤ n + 4 -> c' k = c k) :
    Branches n t c' := by
  unfold Branches
  rw [hc n (by omega) (by omega), hc (n + 1) (by omega) (by omega),
    hc (n + 2) (by omega) (by omega), hc (n + 3) (by omega) (by omega),
    hc (n + 4) (by omega) (by omega)]
  exact h

theorem Branches.of_alternatives {n : Nat} {t : WString} {c c' : Texts UInt32}
    (h : (numberAlternatives n).Derives t c c') (hn : c n = none)
    (hn3 : c (n + 3) = none) (hn4 : c (n + 4) = none) :
    Branches n t c' ∧ forall k, k < n ∨ n + 5 < k -> c' k = c k := by
  rcases h with ⟨sign, _, ⟨_, hs, rfl⟩, number, ⟨_, ⟨i, _, ⟨_, hi, rfl⟩, f, hf,
    rfl⟩, rfl⟩, rfl⟩ | ⟨_, ⟨_, _, hdot, f, ⟨_, hf, rfl⟩, rfl⟩, rfl⟩
  · rcases Sign.of_opt hs with ⟨hsign, rfl⟩
    rcases Number.of_plus hi with ⟨hint, rfl⟩
    rcases hf with ⟨_, ⟨_, _, hdot, f, hf, rfl⟩, rfl⟩ | ⟨rfl, rfl⟩
    · rcases derives_word.mp hdot with ⟨rfl, rfl⟩
      rcases Number.of_plus hf with ⟨hfrac, rfl⟩
      refine ⟨Or.inl ⟨sign, i, _, hsign, ?_, rfl, ?_, ?_, ?_, ?_⟩, ?_⟩
      · have hthree : forall c : Texts UInt32, forall w v : WString,
            ((c.record (n + 3) w).record (n + 1) v) (n + 3) = some w := by
          intro c w v
          simp [Texts.record]
        rw [hthree]
        exact Fractional.point hint hfrac
      · simp [Texts.record]
      · simp [Texts.record]
      · simp [Texts.record]
      · simp [Texts.record, hn4]
      · intro k hk
        simp (disch := omega) only [Texts.record_of_ne]
    · rw [List.append_nil]
      refine ⟨Or.inl ⟨sign, i, i, hsign, ?_, rfl, ?_, ?_, ?_, ?_⟩, ?_⟩
      · simp (disch := omega) only [Texts.record_of_ne, hn3]
        exact Fractional.whole hint
      · simp [Texts.record]
      · simp [Texts.record]
      · simp [Texts.record]
      · simp [Texts.record, hn4]
      · intro k hk
        simp (disch := omega) only [Texts.record_of_ne]
  · rcases derives_word.mp hdot with ⟨rfl, rfl⟩
    rcases Number.of_plus hf with ⟨hfrac, rfl⟩
    refine ⟨Or.inr ⟨f, hfrac, rfl, ?_, ?_⟩, ?_⟩
    · simp [Texts.record, hn]
    · simp [Texts.record]
      rfl
    · intro k hk
      simp (disch := omega) only [Texts.record_of_ne]

theorem Signed.groups {n : Nat} {t : WString} {mt : Match UInt32}
    (h : Signed (n + 1) t mt.caps.texts) :
    exists sign number, Sign sign ∧ Decimal number ∧ t = sign ++ number ∧
      mt.group (n + 1) = sign ∧
      (if mt.group (n + 1 + 4) ≠ [] then mt.group (n + 1 + 4)
        else mt.group (n + 1 + 1)) = number := by
  rcases h with ⟨sign, number, hsign, hnumber, hne, ht, hn, hgroups⟩
  refine ⟨sign, number, hsign, hnumber, ht, by rw [Match.group_eq_texts, hn], ?_⟩
  have hpoint : mt.group (n + 1 + 4) = (mt.caps.texts (n + 1 + 4)).getD [] :=
    Match.group_eq_texts mt (n + 4)
  have hwhole : mt.group (n + 1 + 1) = (mt.caps.texts (n + 1 + 1)).getD [] :=
    Match.group_eq_texts mt (n + 1)
  rw [hpoint, hwhole]
  rcases hgroups with ⟨hpoint, hwhole⟩ | hpoint
  · simp [hpoint, hwhole]
  · simp [hpoint, hne]

theorem range_texts {s : WString} {mt : Match UInt32}
    (h : rangePattern.search s = some mt) :
    exists first sep second, sep ∈ wstr "-~" ∧
      mt.text = first ++ [sep] ++ second ∧
      Branches 2 first mt.caps.texts ∧ Branches 9 second mt.caps.texts := by
  rcases Match.search_derives h with
    ⟨first, _, ⟨c, hf, rfl⟩, _, ⟨_, _, hs, second, ⟨c', hc, hcaps⟩, rfl⟩, htext⟩
  rcases mem_cls hs with ⟨⟨sep, hsep, rfl⟩, rfl⟩
  rcases Branches.of_alternatives hf rfl rfl rfl with ⟨hfirst, hframe⟩
  have hnone : forall k, 8 < k -> (c.record 1 first) k = none := by
    intro k hk
    rw [Texts.record_of_ne _ _ (by omega), hframe k (by omega)]
  rcases Branches.of_alternatives hc (hnone 9 (by omega)) (hnone 12 (by omega))
    (hnone 13 (by omega)) with ⟨hsecond, hframe'⟩
  refine ⟨first, sep, second, hsep, by simpa using htext, ?_, ?_⟩
  · apply hfirst.congr
    intro k hlo hhi
    rw [hcaps, Texts.record_of_ne _ _ (by omega), hframe' k (by omega),
      Texts.record_of_ne _ _ (by omega)]
  · apply hsecond.congr
    intro k hlo hhi
    rw [hcaps, Texts.record_of_ne _ _ (by omega)]

theorem range_shape {s : WString} {mt : Match UInt32}
    (h : rangePattern.search s = some mt) :
    exists first sep second, sep ∈ wstr "-~" ∧
      mt.text = first ++ [sep] ++ second ∧
      Signed 2 first mt.caps.texts ∧ Signed 9 second mt.caps.texts := by
  rcases range_texts h with ⟨first, sep, second, hsep, htext, hfirst, hsecond⟩
  exact ⟨first, sep, second, hsep, htext, hfirst.signed, hsecond.signed⟩

theorem decimalNum_texts {s : WString} {mt : Match UInt32}
    (h : decimalNumPattern.search s = some mt) :
    Branches 1 mt.text mt.caps.texts := by
  rcases Match.search_derives h with ⟨sign, _, ⟨_, hs, rfl⟩, number, ⟨_, ⟨i, _,
    ⟨_, hi, rfl⟩, _, ⟨_, ⟨_, _, hdot, f, hf, rfl⟩, rfl⟩, rfl⟩, hcaps⟩, htext⟩ |
    ⟨_, ⟨_, _, hdot, f, ⟨_, hf, rfl⟩, htext⟩, hcaps⟩
  · rcases Sign.of_opt hs with ⟨hsign, rfl⟩
    rcases Number.of_plus hi with ⟨hint, rfl⟩
    rcases derives_word.mp hdot with ⟨rfl, rfl⟩
    rcases Number.of_plus hf with ⟨hfrac, rfl⟩
    refine Or.inl ⟨sign, i, _, hsign, ?_, htext, ?_, ?_, ?_, ?_⟩
    · have hfour : mt.caps.texts (1 + 3) = some (46 :: f) := by
        rw [hcaps]
        rfl
      rw [hfour]
      exact Fractional.point hint hfrac
    · simp [hcaps, Texts.record]
    · simp [hcaps, Texts.record]
    · simp [hcaps, Texts.record]
    · simp [hcaps, Texts.record]
  · rcases derives_word.mp hdot with ⟨rfl, rfl⟩
    rcases Number.of_plus hf with ⟨hfrac, rfl⟩
    refine Or.inr ⟨f, hfrac, htext, ?_, ?_⟩
    · simp [hcaps, Texts.record]
    · rw [hcaps, htext]
      simp [Texts.record]
      rfl

theorem decimalNum_shape {s : WString} {mt : Match UInt32}
    (h : decimalNumPattern.search s = some mt) :
    Signed 1 mt.text mt.caps.texts :=
  (decimalNum_texts h).signed

theorem number_texts {s : WString} {mt : Match UInt32}
    (h : numberPattern.search s = some mt) :
    Branches 1 mt.text mt.caps.texts :=
  (Branches.of_alternatives (Match.search_derives h) rfl rfl rfl).1

theorem number_shape {s : WString} {mt : Match UInt32}
    (h : numberPattern.search s = some mt) :
    Signed 1 mt.text mt.caps.texts :=
  (number_texts h).signed

/-!
## Codes, quantities and telephone numbers
-/

theorem defalutNum_shape {s : WString} {mt : Match UInt32}
    (h : defalutNumPattern.search s = some mt) : Number mt.text := by
  rcases Match.search_derives h with ⟨first, _, hf, rest, hr, htext⟩
  rcases Field.of_times hf with ⟨hfirst, rfl⟩
  rcases derives_star_set.mp hr with ⟨hrest, _⟩
  rw [htext]
  refine ⟨?_, ?_⟩
  · intro heq
    exact hfirst.number.nonempty (List.append_eq_nil_iff.mp heq).1
  · intro c hc
    rcases List.mem_append.mp hc with hc | hc
    · exact hfirst.digits c hc
    · exact hrest c hc

theorem groups_singles (s : String) : (singles s).flatMap groups = [] := by
  simp [singles, chr, groups]

theorem groups_grouped (n : Nat) (first : String) (others : List String)
    (tail : String) : (grouped n first others tail).groups = [n] := by
  simp [grouped, groups, lit]

theorem groups_lit (s : String) : (lit s).groups = [] :=
  groups_word _

theorem groups_common_quantifiers :
    common_quantifiers.groups = [3, 4, 5, 6, 7, 8, 9] := by
  rw [common_quantifiers, groups_group, groups_anyOf]
  simp only [groups_lit, List.flatMap_append, groups_singles,
    List.flatMap_cons, List.flatMap_nil, groups_grouped, List.nil_append,
    List.append_nil, groups_group, groups_anyOf, List.map_cons, List.map_nil,
    List.cons_append]

theorem one_notMem_groups :
    1 ∉ (cat (opt (group 2 (cls "多余几"))) [common_quantifiers]).groups := by
  simp only [cat, opt, groups, cls, groups_common_quantifiers]
  decide

theorem positiveQuantifiers_hit {s : WString} {mt : Match UInt32}
    (h : positiveQuantifiersPattern.search s = some mt) :
    exists number rest pos caps caps', Number number ∧ mt.text = number ++ rest ∧
      mt.group 1 = number ∧ mt.position 1 = mt.pre.length ∧
      (⟨rest, mt.post, caps'⟩ : Hit UInt32) ∈
        run (cat (opt (group 2 (cls "多余几"))) [common_quantifiers]) pos (rest ++ mt.post)
          caps := by
  rcases mem_run_seq.mp (Match.search_hit h) with ⟨h1, hh1, h2, hh2, hh⟩
  rcases mem_run_group.mp hh1 with ⟨h0, hh0, rfl⟩
  have hnumber := (Number.of_plus (run_derives hh0)).1
  have htext : mt.text = h0.taken ++ h2.taken := congrArg Hit.taken hh
  have hpost : mt.post = h2.rest := congrArg Hit.rest hh
  have hcaps : mt.caps 1 = some ⟨mt.pre.length, h0.taken⟩ := by
    have hrest : mt.caps = h2.caps := congrArg Hit.caps hh
    rw [hrest, run_frame one_notMem_groups hh2]
    exact h0.caps.record_self 1 _
  refine ⟨h0.taken, h2.taken, mt.pre.length + h0.taken.length,
    h0.caps.record 1 ⟨mt.pre.length, h0.taken⟩, h2.caps, hnumber, htext, ?_, ?_, ?_⟩
  · simp [Match.group, hcaps]
  · simp [Match.position, hcaps]
  · rw [hpost, run_splits hh2]
    exact hh2

/-- The digits stand at the head of the match, so that their span is replaced there. -/
theorem positiveQuantifiers_shape {s : WString} {mt : Match UInt32}
    (h : positiveQuantifiersPattern.search s = some mt) :
    exists number rest, Number number ∧ mt.text = number ++ rest ∧
      mt.group 1 = number ∧ mt.position 1 = mt.pre.length := by
  obtain ⟨number, rest, -, -, -, hnumber, htext, hgroup, hposition, -⟩ :=
    positiveQuantifiers_hit h
  exact ⟨number, rest, hnumber, htext, hgroup, hposition⟩

/-- The characters of a telephone number. -/
def IsDialled (c : UInt32) : Prop :=
  isDigit c = true ∨ c = 43 ∨ c = 45 ∨ c = 32

section Dialled

variable {A : UInt32 -> Prop}

theorem all_lit {s : String} (h : forall c, c ∈ wstr s -> A c) : (lit s).All A :=
  all_word h

theorem all_cls {s : String} (h : forall c, c ∈ wstr s -> A c) : (cls s).All A :=
  fun c hc => h c (of_decide_eq_true hc)

end Dialled

instance : DecidablePred IsDialled := by
  unfold IsDialled
  infer_instance

theorem all_range {a b : Char} (ha : 48 ≤ a.val.toNat) (hb : b.val.toNat ≤ 57) :
    (range a b).All IsDialled :=
  fun c hc => Or.inl (flat_range ha hb c hc)

theorem all_mobilePhone : mobilePhonePattern.All IsDialled := by
  have hdigit : digit.All IsDialled := fun _ h => Or.inl h
  have hranges : (ranges '0' '3' '5' '9').All IsDialled := by
    intro c hc
    rcases of_decide_eq_true hc with hc | hc
    · exact all_range (a := '0') (b := '3') (by decide) (by decide) c
        (decide_eq_true hc)
    · exact all_range (a := '5') (b := '9') (by decide) (by decide) c
        (decide_eq_true hc)
  exact ⟨⟨hdigit, trivial⟩,
    ⟨⟨⟨⟨all_lit (by decide), trivial⟩, all_lit (by decide),
        all_lit (by decide), trivial⟩, trivial⟩,
      all_lit (by decide),
      ⟨⟨all_cls (by decide), hdigit⟩,
        ⟨all_lit (by decide), hranges⟩,
        ⟨all_lit (by decide), all_cls (by decide)⟩,
        ⟨all_lit (by decide), all_cls (by decide)⟩⟩,
      all_times hdigit 8⟩,
    ⟨hdigit, trivial⟩⟩

theorem all_phone : phonePattern.All IsDialled := by
  have hdigit : digit.All IsDialled := fun _ h => Or.inl h
  exact ⟨⟨hdigit, trivial⟩,
    ⟨⟨⟨all_lit (by decide),
        ⟨all_lit (by decide),
          ⟨all_lit (by decide), all_range (by decide) (by decide)⟩,
          all_range (by decide) (by decide), all_times hdigit 2⟩,
        all_lit (by decide), trivial⟩, trivial⟩,
      all_range (by decide) (by decide), all_times hdigit 6, hdigit, trivial⟩,
    ⟨hdigit, trivial⟩⟩

theorem dialled_of_all {pattern : Regex UInt32} (hall : pattern.All IsDialled)
    {s : WString} {mt : Match UInt32} (h : pattern.search s = some mt) :
    forall c, c ∈ mt.text -> IsDialled c :=
  (run_all hall (Captures.within_none _) (Match.search_hit h)).1

theorem mobilePhone_dialled {s : WString} {mt : Match UInt32}
    (h : mobilePhonePattern.search s = some mt) :
    forall c, c ∈ mt.text -> IsDialled c :=
  dialled_of_all all_mobilePhone h

theorem phone_dialled {s : WString} {mt : Match UInt32}
    (h : phonePattern.search s = some mt) :
    forall c, c ∈ mt.text -> IsDialled c :=
  dialled_of_all all_phone h

end TextNormalizer
end VoiceTts
