import VoiceTts.Normalizer.Spoken

/-!
# One round of a rule

What a round of a rule does to the sentence: the text it puts in has no ASCII
character, the text it takes out has a digit, and every ordinary character that
is taken out is put in again.
-/

namespace VoiceTts
namespace Spoken

open TextNormalizer Reading

/-- A text of characters outside ASCII. -/
def Audible (cs : List Char) : Prop :=
  forall x, x ∈ cs -> 128 ≤ x.val.toNat

instance (cs : List Char) : Decidable (Audible cs) :=
  inferInstanceAs (Decidable (forall x, x ∈ cs -> 128 ≤ x.val.toNat))

/-- Neither a digit nor one of the symbols that the patterns consume. -/
def ordinary (c : UInt32) : Bool :=
  !isDigit c && decide (c ∉ wstr "- /.:%+~°C℃")

/-- The ordinary characters of a sentence, in order. -/
def ordinaryText (w : WString) : WString :=
  w.filter ordinary

theorem Audible.append {cs ds : List Char} (hcs : Audible cs) (hds : Audible ds) :
    Audible (cs ++ ds) := by
  intro x hx
  rcases List.mem_append.mp hx with hx | hx
  · exact hcs x hx
  · exact hds x hx

theorem audible_numerals {cs : List Char} (h : forall x, x ∈ cs -> x ∈ numerals) :
    Audible cs := by
  have hnumerals : Audible numerals := by
    decide
  exact fun x hx => hnumerals x (h x hx)

theorem mem_shorten {alt_one : Bool} {cs : List Char} {x : Char}
    (h : x ∈ shorten alt_one cs) : x ∈ cs := by
  unfold shorten at h
  split at h
  · split at h
    · exact List.mem_cons_of_mem _ h
    · exact h
  · exact h

theorem mem_spell {alt_one : Bool} {s : CString} {x : Char}
    (h : x ∈ spell alt_one s) : x ∈ numerals := by
  rcases List.mem_flatMap.mp h with ⟨c, _, hx⟩
  exact mem_digitName hx

theorem spell_ne_nil {alt_one : Bool} {s : CString} {c : UInt8} (hc : c ∈ s)
    (hdigit : isdigit c = true) : spell alt_one s ≠ [] := by
  have hbounds := isdigit_iff.mp hdigit
  have hbyte : UInt8.ofNat (48 + (c.toNat - 48)) = c := by
    rw [← UInt8.toNat_inj, UInt8.toNat_ofNat']
    omega
  have hname : digitName alt_one c ≠ [] := by
    rw [← hbyte]
    exact digitName_ne_nil (by omega)
  rcases List.exists_mem_of_ne_nil _ hname with ⟨x, hx⟩
  exact List.ne_nil_of_mem (List.mem_flatMap.mpr ⟨c, hc, hx⟩)

theorem digits_ne_nil {w : WString} (h : Number w) : digits w ≠ [] := by
  rcases List.exists_mem_of_ne_nil _ h.nonempty with ⟨c, hc⟩
  have hmem : c.toUInt8 ∈ Utf8.narrow w := List.mem_map_of_mem hc
  exact spell_ne_nil hmem (allDigits_narrow h.digits _ hmem)

theorem audible_digits (w : WString) : Audible (digits w) :=
  audible_numerals fun _ hx => mem_spell hx

theorem audible_sign (w : WString) : Audible (sign w) := by
  unfold sign
  split <;> decide

theorem audible_zero (w : WString) : Audible (zero w) := by
  unfold zero
  split <;> decide

/-!
## Values and what is read
-/

/-- The value of a string of digits. -/
def value (w : WString) : Nat :=
  digitsValue (Utf8.narrow w)

/-- The digits in front of the point. -/
def integerPart (w : WString) : WString :=
  w.takeWhile isDigit

/-- The number is not larger than an `int`. -/
def InRange (w : WString) : Prop :=
  value (integerPart w) ≤ 2147483647

instance (w : WString) : Decidable (InRange w) :=
  inferInstanceAs (Decidable (_ ≤ _))

theorem number_ok {use_zero : Bool} {w : WString} {cs : List Char}
    (h : number use_zero w = Except.ok cs) :
    cs ≠ [] ∧ forall x, x ∈ cs -> x ∈ numerals := by
  unfold number multi at h
  split at h
  · cases h
  · rename_i hne
    split at h
    · have hcs := Except.ok.inj h
      subst hcs
      constructor
      · have hnumeral : numeral false use_zero (Utf8.narrow w).length
            (Utf8.narrow w) ≠ [] :=
          numeral_ne_nil (List.length_pos_iff.mpr hne)
        unfold shorten
        split
        · split <;> simp
        · exact hnumeral
      · intro x hx
        exact mem_numeral (mem_shorten hx)
    · cases h

theorem number_of_le (use_zero : Bool) {w : WString} (hne : w ≠ [])
    (hle : value w ≤ 2147483647) :
    exists cs, number use_zero w = Except.ok cs := by
  have hne' : Utf8.narrow w ≠ [] := by
    simpa using hne
  have hle' : digitsValue (Utf8.narrow w) ≤ 2147483647 := hle
  simp [number, multi, hne', hle']

theorem number_of_gt {use_zero : Bool} {w : WString} (hne : w ≠ [])
    (hgt : ¬ value w ≤ 2147483647) :
    number use_zero w = Except.error Error.out_of_range := by
  have hne' : Utf8.narrow w ≠ [] := by
    simpa using hne
  rw [number, multi, if_neg hne']
  exact if_neg hgt

theorem value_lt_of_field {lo hi : Nat} {w : WString} (h : Field lo hi w) :
    value w < 10 ^ hi := by
  have hlt := digitsValue_lt (allDigits_narrow h.digits)
  rw [Utf8.length_narrow] at hlt
  exact hlt.trans_le (Nat.pow_le_pow_right (by omega) h.most)

theorem number_of_field (use_zero : Bool) {lo hi : Nat} {w : WString}
    (h : Field (lo + 1) hi w) (hhi : hi ≤ 4) :
    exists cs, number use_zero w = Except.ok cs := by
  have hlt := value_lt_of_field h
  have hpow : 10 ^ hi ≤ 10 ^ 4 := Nat.pow_le_pow_right (by omega) hhi
  exact number_of_le use_zero h.number.nonempty (by omega)

theorem integerPart_digits {w : WString}
    (h : forall c, c ∈ w -> isDigit c = true) : integerPart w = w :=
  List.takeWhile_eq_self_iff.mpr h

theorem integerPart_point {i f : WString}
    (h : forall c, c ∈ i -> isDigit c = true) :
    integerPart (i ++ 46 :: f) = i := by
  unfold integerPart
  rw [List.takeWhile_append_of_pos h]
  simp [isDigit]

theorem decimalNumber_ok {w : WString} (h : Decimal w) {cs : List Char}
    (hok : decimalNumber w = Except.ok cs) :
    cs ≠ [] ∧ forall x, x ∈ cs -> x ∈ numerals ∨ x = '点' := by
  cases h with
  | whole h =>
      rw [decimalNumber_whole h] at hok
      rcases number_ok hok with ⟨hne, hall⟩
      exact ⟨hne, fun x hx => Or.inl (hall x hx)⟩
  | @point i f hi hf =>
      rw [decimalNumber_point hi hf, except_map_eq_ok] at hok
      rcases hok with ⟨whole, hwhole, rfl⟩
      refine ⟨by simp, ?_⟩
      intro x hx
      rcases List.mem_append.mp hx with hx | hx
      · unfold optional at hwhole
        split at hwhole
        · exact Or.inl ((number_ok hwhole).2 x hx)
        · cases hwhole
          cases hx
      · rcases List.mem_cons.mp hx with hx | hx
        · exact Or.inr hx
        · exact Or.inl (mem_spell hx)

theorem decimalNumber_of_inRange {w : WString} (h : Decimal w)
    (hrange : InRange w) : exists cs, decimalNumber w = Except.ok cs := by
  cases h with
  | whole h =>
      rw [InRange, integerPart_digits h.digits] at hrange
      rw [decimalNumber_whole h]
      exact number_of_le _ h.nonempty hrange
  | @point i f hi hf =>
      rw [InRange, integerPart_point hi] at hrange
      rw [decimalNumber_point hi hf]
      by_cases hne : i = []
      · subst hne
        exact ⟨_, rfl⟩
      · rcases number_of_le true hne hrange with ⟨cs, hcs⟩
        simp [optional, hne, hcs, Except.map]

theorem decimalNumber_of_not_inRange {w : WString} (h : Decimal w)
    (hrange : ¬ InRange w) :
    decimalNumber w = Except.error Error.out_of_range := by
  cases h with
  | whole h =>
      rw [InRange, integerPart_digits h.digits] at hrange
      rw [decimalNumber_whole h]
      exact number_of_gt h.nonempty hrange
  | @point i f hi hf =>
      rw [InRange, integerPart_point hi] at hrange
      rw [decimalNumber_point hi hf]
      have hne : i ≠ [] := by
        rintro rfl
        exact hrange (by decide)
      rw [optional, if_pos hne, number_of_gt hne hrange]
      rfl

theorem audible_number {use_zero : Bool} {w : WString} {cs : List Char}
    (h : number use_zero w = Except.ok cs) : Audible cs :=
  audible_numerals (number_ok h).2

theorem audible_decimalNumber {w : WString} (h : Decimal w) {cs : List Char}
    (hok : decimalNumber w = Except.ok cs) : Audible cs := by
  intro x hx
  rcases (decimalNumber_ok h hok).2 x hx with hx | rfl
  · exact audible_numerals (fun _ h => h) x hx
  · decide

/-!
## The effect of a round
-/

/-- What a round must do to the sentence. -/
structure Effect (s : WString) (rep : WString) (s' : WString) : Prop where
  /-- The text `old` between `pre` and `post` is replaced. -/
  splits : exists pre old post, s = pre ++ old ++ post ∧ s' = pre ++ rep ++ post ∧
    (exists c, c ∈ old ∧ isDigit c = true) ∧
    (ordinaryText old).Sublist rep
  audible : forall c, c ∈ rep -> 128 ≤ c.toNat
  spoken : rep ≠ []

/-- Every round of the rule has the effect. -/
def Effective {κ : Type} (rule : Rule (Except Error) κ UInt32) : Prop :=
  forall k s mt k' rep, rule.pattern.search s = some mt ->
    rule.body k mt.group = Except.ok (k', rep) ->
    Effect s rep (rule.replaced s mt rep)

theorem audible_units {cs : List Char} (h : Audible cs) :
    forall c, c ∈ Utf8.units cs -> 128 ≤ c.toNat := by
  intro c hc
  rcases List.mem_map.mp hc with ⟨x, hx, rfl⟩
  exact h x hx

theorem units_ne_nil {cs : List Char} (h : cs ≠ []) : Utf8.units cs ≠ [] := by
  simpa [Utf8.units] using h

theorem effect_of_match {m : Type -> Type} {κ : Type} {rule : Rule m κ UInt32}
    (hspan : rule.span = 0) {s : WString} {mt : Match UInt32}
    (hsearch : rule.pattern.search s = some mt) {cs : List Char}
    (hdigit : exists c, c ∈ mt.text ∧ isDigit c = true) (haudible : Audible cs)
    (hspoken : cs ≠ [])
    (hkept : (ordinaryText mt.text).Sublist (Utf8.units cs)) :
    Effect s (Utf8.units cs) (rule.replaced s mt (Utf8.units cs)) := by
  refine ⟨⟨mt.pre, mt.text, mt.post, Match.search_splits hsearch, ?_, hdigit,
    hkept⟩, audible_units haudible, units_ne_nil hspoken⟩
  exact Rule.replaced_eq hspan hsearch _

theorem effective_rule {pattern : Regex UInt32}
    {text : (Nat -> WString) -> Except Error (List Char)}
    (h : forall s mt cs, pattern.search s = some mt ->
      text mt.group = Except.ok cs ->
      (exists c, c ∈ mt.text ∧ isDigit c = true) ∧ Audible cs ∧ cs ≠ [] ∧
        (ordinaryText mt.text).Sublist (Utf8.units cs)) :
    Effective (rule pattern 0 text) := by
  intro k s mt k' rep hsearch hbody
  rcases except_bind_eq_ok.mp hbody with ⟨cs, hcs, hpure⟩
  cases hpure
  rcases h s mt cs hsearch hcs with ⟨hdigit, haudible, hspoken, hkept⟩
  exact effect_of_match rfl hsearch hdigit haudible hspoken hkept

@[simp] theorem ordinaryText_append (w v : WString) :
    ordinaryText (w ++ v) = ordinaryText w ++ ordinaryText v := by
  simp [ordinaryText]

theorem ordinaryText_digits {w : WString}
    (h : forall c, c ∈ w -> isDigit c = true) : ordinaryText w = [] := by
  unfold ordinaryText
  rw [List.filter_eq_nil_iff]
  intro c hc
  simp [ordinary, h c hc]

theorem ordinaryText_decimal {w : WString} (h : Decimal w) :
    ordinaryText w = [] := by
  cases h with
  | whole h =>
      exact ordinaryText_digits h.digits
  | @point i f hi hf =>
      have hpoint : ordinaryText [46] = [] := by
        decide
      rw [← List.singleton_append, ordinaryText_append, ordinaryText_append,
        ordinaryText_digits hi, ordinaryText_digits hf.digits, hpoint]
      rfl

theorem ordinaryText_sign {w : WString} (h : Sign w) : ordinaryText w = [] := by
  rcases h with rfl | rfl <;> decide

/-- An optional number with the word behind it says that word. -/
theorem optional_word {w part u : WString} {unit cs : List Char}
    (hpart : (part = [] ∧ w = []) ∨ (Field 1 2 w ∧ part = w ++ u))
    (hunit : w ≠ [] -> Audible unit ∧ Utf8.units unit = u)
    (hcs : optional w ((number false w).map (· ++ unit)) = Except.ok cs) :
    Audible cs ∧ (ordinaryText part).Sublist (Utf8.units cs) := by
  rcases hpart with ⟨rfl, rfl⟩ | ⟨hfield, rfl⟩
  · cases hcs
    exact ⟨by decide, List.Sublist.refl _⟩
  · have hne : w ≠ [] := hfield.number.nonempty
    rw [optional, if_pos hne, except_map_eq_ok] at hcs
    rcases hcs with ⟨text, htext, rfl⟩
    rcases hunit hne with ⟨haudible, rfl⟩
    refine ⟨(audible_number htext).append haudible, ?_⟩
    rw [ordinaryText_append, ordinaryText_digits hfield.digits, Utf8.units_append]
    exact (List.nil_sublist _).append List.filter_sublist

theorem effective_data : Effective (rule dataPattern 0 dataText) := by
  apply effective_rule
  intro s mt cs hsearch htext
  rcases data_shape hsearch with
    ⟨year, month, day, hyear, hsplit, hg1, hmonth, hday⟩
  simp only [dataText, except_bind_eq_ok] at htext
  rcases htext with ⟨m, hm, d, hd, hpure⟩
  cases hpure
  have hm' := optional_word (u := wstr "月") hmonth (fun _ => by decide) hm
  have hunit : mt.group 5 ≠ [] ->
      Audible (chars (mt.group 9)) ∧
        Utf8.units (chars (mt.group 9)) = mt.group 9 := by
    intro hne
    rcases hday with ⟨_, hg5⟩ | ⟨_, _, hg9 | hg9⟩
    · exact absurd hg5 hne
    · rw [hg9]
      decide +kernel
    · rw [hg9]
      decide +kernel
  have hpart : (day = [] ∧ mt.group 5 = []) ∨
      (Field 1 2 (mt.group 5) ∧ day = mt.group 5 ++ mt.group 9) :=
    hday.imp_right fun h => ⟨h.1, h.2.1⟩
  have hd' := optional_word hpart hunit hd
  refine ⟨?_, ?_, by simp, ?_⟩
  · rcases hyear.number.exists_digit with ⟨c, hc, hdigit⟩
    exact ⟨c, by simp [hsplit, hc], hdigit⟩
  · exact (((audible_digits _).append (by decide)).append hm'.1).append hd'.1
  · have hnian : ordinaryText (wstr "年") = Utf8.units ['年'] := by
      decide
    simp only [hsplit, ordinaryText_append, Utf8.units_append, hnian,
      ordinaryText_digits hyear.digits]
    exact (((List.nil_sublist _).append (List.Sublist.refl _)).append
      hm'.2).append hd'.2

theorem ordinaryText_sep {s : String} {c : UInt32}
    (hs : ordinaryText (wstr s) = []) (hc : c ∈ wstr s) :
    ordinaryText [c] = [] := by
  unfold ordinaryText at hs ⊢
  rw [List.filter_eq_nil_iff] at hs ⊢
  intro x hx
  rw [List.mem_singleton.mp hx]
  exact hs c hc

theorem effective_data2 : Effective (rule data2Pattern 0 data2Text) := by
  apply effective_rule
  intro s mt cs hsearch htext
  rcases data2_shape hsearch with
    ⟨year, sep, month, day, hyear, hsep, hmonth, hday, hsplit, hg1, hg3, hg4⟩
  simp only [data2Text, except_bind_eq_ok] at htext
  rcases htext with ⟨m, hm, d, hd, hpure⟩
  cases hpure
  refine ⟨?_, ?_, by simp, ?_⟩
  · rcases hyear.number.exists_digit with ⟨c, hc, hdigit⟩
    exact ⟨c, by simp [hsplit, hc], hdigit⟩
  · exact (((((audible_digits _).append (by decide)).append
      (audible_number hm)).append (by decide)).append (audible_number hd)).append
      (by decide)
  · simp only [hsplit, ordinaryText_append, ordinaryText_digits hyear.digits,
      ordinaryText_digits hmonth.digits, ordinaryText_digits hday.digits,
      ordinaryText_sep (s := "- /.") (by decide) hsep]
    exact List.nil_sublist _

theorem effective_time : Effective (rule timePattern 0 timeText) := by
  apply effective_rule
  intro s mt cs hsearch htext
  rcases time_shape hsearch with
    ⟨hour, minute, rest, hhour, hminute, hsplit, hg1, hg2, hrest⟩
  simp only [timeText, except_bind_eq_ok] at htext
  rcases htext with ⟨h, hh, m, hm, sec, hsec, hpure⟩
  cases hpure
  have hcolon : ordinaryText (wstr ":") = [] := by
    decide
  have hrest' : ordinaryText rest = [] := by
    rcases hrest with ⟨rfl, _⟩ | ⟨second, hsecond, rfl, _⟩
    · rfl
    · rw [ordinaryText_append, hcolon, ordinaryText_digits hsecond.digits]
      rfl
  refine ⟨?_, ?_, by simp, ?_⟩
  · rcases hhour.number.exists_digit with ⟨c, hc, hdigit⟩
    exact ⟨c, by simp [hsplit, hc], hdigit⟩
  · exact (((((((audible_number hh).append (by decide)).append
      (audible_zero _)).append (audible_number hm)).append (by decide)).append
      (audible_zero _)).append (audible_number hsec)).append (by decide)
  · simp only [hsplit, ordinaryText_append, ordinaryText_digits hhour.digits,
      ordinaryText_digits hminute.digits, hcolon, hrest']
    exact List.nil_sublist _

theorem effective_temperature :
    Effective (rule temperaturePattern 0 temperatureText) := by
  apply effective_rule
  intro s mt cs hsearch htext
  rcases temperature_shape hsearch with
    ⟨sign', number', unit, hsign, ⟨hnumber, _⟩, hunit, hsplit, hg1, hg2, hg4⟩
  simp only [temperatureText, except_bind_eq_ok, hg1, hg2, hg4] at htext
  rcases htext with ⟨v, hv, hpure⟩
  cases hpure
  have hne := (decimalNumber_ok hnumber hv).1
  refine ⟨?_, ?_, by simp [hne], ?_⟩
  · rcases hnumber.exists_digit with ⟨c, hc, hdigit⟩
    exact ⟨c, by simp [hsplit, hc], hdigit⟩
  · refine ((audible_sign _).append (audible_decimalNumber hnumber hv)).append ?_
    split <;> decide
  · simp only [hsplit, ordinaryText_append, ordinaryText_sign hsign,
      ordinaryText_decimal hnumber, Utf8.units_append]
    refine ((List.nil_sublist _).append (List.nil_sublist _)).append ?_
    rcases hunit with rfl | rfl | rfl | rfl <;> decide

theorem effective_frac : Effective (rule fracPattern 0 fracText) := by
  apply effective_rule
  intro s mt cs hsearch htext
  rcases frac_shape hsearch with
    ⟨sign', numerator, denominator, hsign, hnum, hden, hsplit, hg1, hg2, hg3⟩
  simp only [fracText, except_bind_eq_ok] at htext
  rcases htext with ⟨d, hd, n, hn, hpure⟩
  cases hpure
  have hslash : ordinaryText (wstr "/") = [] := by
    decide
  refine ⟨?_, ?_, by simp, ?_⟩
  · rcases hnum.exists_digit with ⟨c, hc, hdigit⟩
    exact ⟨c, by simp [hsplit, hc], hdigit⟩
  · exact (((audible_sign _).append (audible_number hd)).append
      (by decide)).append (audible_number hn)
  · simp only [hsplit, ordinaryText_append, ordinaryText_sign hsign,
      ordinaryText_digits hnum.digits, ordinaryText_digits hden.digits, hslash]
    exact List.nil_sublist _

theorem effective_percentage :
    Effective (rule percentagePattern 0 percentageText) := by
  apply effective_rule
  intro s mt cs hsearch htext
  rcases percentage_shape hsearch with
    ⟨sign', number', hsign, ⟨hnumber, _⟩, hsplit, hg1, hg2⟩
  simp only [percentageText, except_bind_eq_ok, hg2] at htext
  rcases htext with ⟨v, hv, hpure⟩
  cases hpure
  have hpercent : ordinaryText (wstr "%") = [] := by
    decide
  refine ⟨?_, ?_, by simp, ?_⟩
  · rcases hnumber.exists_digit with ⟨c, hc, hdigit⟩
    exact ⟨c, by simp [hsplit, hc], hdigit⟩
  · exact ((audible_sign _).append (by decide)).append
      (audible_decimalNumber hnumber hv)
  · simp only [hsplit, ordinaryText_append, ordinaryText_sign hsign,
      ordinaryText_decimal hnumber, hpercent]
    exact List.nil_sublist _

theorem effective_phone {pattern : Regex UInt32}
    (hdialled : forall s mt, pattern.search s = some mt ->
      forall c, c ∈ mt.text -> IsDialled c)
    (hmust : pattern.Must fun c => isDigit c = true) :
    Effective (phone pattern) := by
  intro parts s mt parts' rep hsearch hbody
  cases hbody
  have hdigit := Regex.run_must hmust (Match.search_hit hsearch)
  refine effect_of_match rfl hsearch hdigit ?_ ?_ ?_
  · apply audible_numerals
    intro x hx
    rcases List.mem_flatMap.mp hx with ⟨part, _, hx⟩
    exact mem_spell hx
  · rcases hdigit with ⟨c, hc, hdigit⟩
    have hbounds := isDigit_iff.mp hdigit
    have hbyte : c.toUInt8.toNat = c.toNat := toUInt8_toNat (by omega)
    have hmem : c.toUInt8 ∈ Utf8.narrow mt.text := List.mem_map_of_mem hc
    have hplus : c.toUInt8 ≠ 43 := by
      intro heq
      rw [heq] at hbyte
      have hnat : (43 : UInt8).toNat = 43 := rfl
      omega
    have hdigit' : isdigit c.toUInt8 = true := by
      rw [isdigit_iff, hbyte]
      exact hbounds
    rcases mem_Stringsplit hmem hplus with ⟨part, hpart, hcpart⟩
    rcases List.exists_mem_of_ne_nil _ (spell_ne_nil hcpart hdigit') with ⟨x, hx⟩
    exact List.ne_nil_of_mem (List.mem_flatMap.mpr
      ⟨part, List.mem_append_right _ hpart, hx⟩)
  · have hnone : ordinaryText mt.text = [] := by
      unfold ordinaryText
      rw [List.filter_eq_nil_iff]
      intro c hc
      rcases hdialled s mt hsearch c hc with hc | rfl | rfl | rfl
      · simp [ordinary, hc]
      · decide
      · decide
      · decide
    rw [hnone]
    exact List.nil_sublist _

theorem signedText_ok {n : Nat} {t : WString} {mt : Match UInt32}
    (h : Signed (n + 1) t mt.caps.texts) {cs : List Char}
    (hok : signedText (n + 1) mt.group = Except.ok cs) :
    Audible cs ∧ cs ≠ [] ∧ ordinaryText t = [] ∧
      exists c, c ∈ t ∧ isDigit c = true := by
  rcases h.groups with ⟨sign', number', hsign, hnumber, ht, hg, hchoice⟩
  simp only [signedText, except_bind_eq_ok, hchoice] at hok
  rcases hok with ⟨v, hv, hpure⟩
  cases hpure
  have hne := (decimalNumber_ok hnumber hv).1
  refine ⟨(audible_sign _).append (audible_decimalNumber hnumber hv),
    by simp [hne], ?_, ?_⟩
  · rw [ht, ordinaryText_append, ordinaryText_sign hsign,
      ordinaryText_decimal hnumber]
    rfl
  · rcases hnumber.exists_digit with ⟨c, hc, hdigit⟩
    exact ⟨c, by simp [ht, hc], hdigit⟩

theorem effective_range : Effective (rule rangePattern 0 rangeText) := by
  apply effective_rule
  intro s mt cs hsearch htext
  rcases range_shape hsearch with
    ⟨first, sep, second, hsep, hsplit, hfirst, hsecond⟩
  simp only [rangeText, except_bind_eq_ok] at htext
  rcases htext with ⟨f, hf, g, hg, hpure⟩
  cases hpure
  rcases signedText_ok hfirst hf with ⟨haudible, _, hnone, c, hc, hdigit⟩
  rcases signedText_ok hsecond hg with ⟨haudible', _, hnone', _⟩
  refine ⟨⟨c, by simp [hsplit, hc], hdigit⟩,
    (haudible.append (by decide)).append haudible', by simp, ?_⟩
  simp only [hsplit, ordinaryText_append, hnone, hnone',
    ordinaryText_sep (s := "-~") (by decide) hsep]
  exact List.nil_sublist _

theorem effective_interger :
    Effective (rule intergerPattern 0 intergerText) := by
  apply effective_rule
  intro s mt cs hsearch htext
  rcases interger_shape hsearch with ⟨number', hnumber, hsplit, hg2⟩
  simp only [intergerText, except_bind_eq_ok] at htext
  rcases htext with ⟨v, hv, hpure⟩
  cases hpure
  have hminus : ordinaryText (wstr "-") = [] := by
    decide
  refine ⟨?_, ?_, by simp, ?_⟩
  · rcases hnumber.exists_digit with ⟨c, hc, hdigit⟩
    exact ⟨c, by simp [hsplit, hc], hdigit⟩
  · have hminus : Audible ['负'] := by decide
    exact hminus.append (audible_number hv)
  · simp only [hsplit, ordinaryText_append, hminus,
      ordinaryText_digits hnumber.digits]
    exact List.nil_sublist _

theorem effective_signed {pattern : Regex UInt32}
    (hshape : forall s mt, pattern.search s = some mt ->
      Signed 1 mt.text mt.caps.texts) :
    Effective (rule pattern 0 (signedText 1)) := by
  apply effective_rule
  intro s mt cs hsearch htext
  rcases signedText_ok (hshape s mt hsearch) htext with
    ⟨haudible, hspoken, hnone, hdigit⟩
  rw [hnone]
  exact ⟨hdigit, haudible, hspoken, List.nil_sublist _⟩

theorem effective_positiveQuantifiers :
    Effective (rule positiveQuantifiersPattern 1 quantityText) := by
  intro k s mt k' rep hsearch hbody
  rcases except_bind_eq_ok.mp hbody with ⟨cs, hcs, hpure⟩
  cases hpure
  rcases positiveQuantifiers_shape hsearch with
    ⟨number', rest, hnumber, hsplit, hg1, hposition⟩
  have hs : s = mt.pre ++ number' ++ (rest ++ mt.post) := by
    rw [Match.search_splits hsearch, hsplit]
    simp
  refine ⟨⟨mt.pre, number', rest ++ mt.post, hs, ?_, hnumber.exists_digit, ?_⟩,
    audible_units (audible_number hcs), units_ne_nil (number_ok hcs).1⟩
  · rw [Rule.replaced]
    change splice s (mt.position 1) (mt.length 1) _ = _
    rw [hposition, Match.length, hg1, hs]
    simp [splice]
  · rw [ordinaryText_digits hnumber.digits]
    exact List.nil_sublist _

theorem effective_defalutNum :
    Effective (rule defalutNumPattern 0 codeText) := by
  apply effective_rule
  intro s mt cs hsearch htext
  have hnumber := defalutNum_shape hsearch
  cases htext
  rw [ordinaryText_digits hnumber.digits]
  exact ⟨hnumber.exists_digit, audible_digits _, digits_ne_nil hnumber,
    List.nil_sublist _⟩

end Spoken
end VoiceTts
