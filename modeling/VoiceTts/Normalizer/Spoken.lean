import VoiceTts.Normalizer.Reading
import VoiceTts.Normalizer.Shapes

/-!
# The rules as texts

The rules of the normaliser once more, now as functions from the texts of a match
to the text spoken for it.  On every match the body of a rule computes the text
of its spoken counterpart, from every valid state.
-/

namespace VoiceTts
namespace Spoken

open TextNormalizer Reading

def chars (w : WString) : List Char :=
  w.map fun c => Char.ofNat c.toNat

def number (use_zero : Bool) (w : WString) : Except Error (List Char) :=
  multi false use_zero (Utf8.narrow w)

def decimalNumber (w : WString) : Except Error (List Char) :=
  Reading.decimal (Utf8.narrow w)

def digits (w : WString) : List Char :=
  spell false (Utf8.narrow w)

def sign (w : WString) : List Char :=
  if w = wstr "-" then ['负'] else []

/-- The zero said for a field that is written with one. -/
def zero (w : WString) : List Char :=
  if w.head? = some 48 then ['零'] else []

/-- A text that is said only for a group that took part. -/
def optional (w : WString) (text : Except Error (List Char)) :
    Except Error (List Char) :=
  if w ≠ [] then text else pure []

/-- A rule that says one text for each match. -/
def rule (pattern : Regex UInt32) (span : Nat)
    (text : (Nat -> WString) -> Except Error (List Char)) :
    Rule (Except Error) Unit UInt32 where
  pattern := pattern
  span := span
  body := fun k g => do
    let cs <- text g
    pure (k, Utf8.units cs)

def dataText (g : Nat -> WString) : Except Error (List Char) := do
  let month <- optional (g 3) ((number false (g 3)).map (· ++ ['月']))
  let day <- optional (g 5) ((number false (g 5)).map (· ++ chars (g 9)))
  pure (digits (g 1) ++ ['年'] ++ month ++ day)

def data2Text (g : Nat -> WString) : Except Error (List Char) := do
  let month <- number false (g 3)
  let day <- number false (g 4)
  pure (digits (g 1) ++ ['年'] ++ month ++ ['月'] ++ day ++ ['日'])

def timeText (g : Nat -> WString) : Except Error (List Char) := do
  let hour <- number false (g 1)
  let minute <- number true (g 2)
  let second <- number true (g 4)
  pure (hour ++ ['点'] ++ zero (g 2) ++ minute ++ ['分'] ++ zero (g 4) ++ second ++
    ['秒'])

def temperatureText (g : Nat -> WString) : Except Error (List Char) := do
  let value <- decimalNumber (g 2)
  pure (sign (g 1) ++ value ++
    if g 4 = wstr "摄氏度" then ['摄', '氏', '度'] else ['度'])

def fracText (g : Nat -> WString) : Except Error (List Char) := do
  let denominator <- number true (g 3)
  let numerator <- number true (g 2)
  pure (sign (g 1) ++ denominator ++ ['分', '之'] ++ numerator)

def percentageText (g : Nat -> WString) : Except Error (List Char) := do
  let value <- decimalNumber (g 2)
  pure (sign (g 1) ++ ['百', '分', '之'] ++ value)

/-- The sign and the number in the groups counted from `n`. -/
def signedText (n : Nat) (g : Nat -> WString) : Except Error (List Char) := do
  let value <- decimalNumber (if g (n + 4) ≠ [] then g (n + 4) else g (n + 1))
  pure (sign (g n) ++ value)

def rangeText (g : Nat -> WString) : Except Error (List Char) := do
  let first <- signedText 2 g
  let second <- signedText 9 g
  pure (first ++ ['到'] ++ second)

def intergerText (g : Nat -> WString) : Except Error (List Char) := do
  let value <- number true (g 2)
  pure ('负' :: value)

def quantityText (g : Nat -> WString) : Except Error (List Char) :=
  number true (g 1)

def codeText (g : Nat -> WString) : Except Error (List Char) :=
  pure (digits (g 0))

/-- A telephone number, after all those of the rounds before. -/
def phone (pattern : Regex UInt32) : Rule (Except Error) (List CString) UInt32 where
  pattern := pattern
  span := 0
  body := fun parts g =>
    let parts := parts ++ Stringsplit (Utf8.narrow (g 0)) 43
    pure (parts, Utf8.units (parts.flatMap (spell true)))

/-!
## The readers on wide strings
-/

section Readers

open Prog

theorem ascii_of_digits {w : WString} (h : forall c, c ∈ w -> isDigit c = true) :
    Utf8.Ascii w := by
  intro c hc
  have := isDigit_iff.mp (h c hc)
  omega

theorem toUInt8_toNat {c : UInt32} (h : c.toNat < 256) :
    c.toUInt8.toNat = c.toNat := by
  rw [UInt32.toNat_toUInt8]
  omega

theorem allDigits_narrow {w : WString}
    (h : forall c, c ∈ w -> isDigit c = true) : AllDigits (Utf8.narrow w) := by
  intro b hb
  rcases List.mem_map.mp hb with ⟨c, hc, rfl⟩
  have hdigit := isDigit_iff.mp (h c hc)
  rw [isdigit_iff, toUInt8_toNat (by omega)]
  exact hdigit

theorem computes_number (use_zero : Bool) {w : WString}
    (h : forall c, c ∈ w -> isDigit c = true) :
    Computes Valid Valid (MultiDigit2TextW w false use_zero)
      ((number use_zero w).map Utf8.encodeChars) := by
  unfold MultiDigit2TextW
  rw [wstring2utf8string_ascii (ascii_of_digits h)]
  exact Computes.bind_ok (computes_lift _)
    (computes_MultiDigit2Text use_zero (allDigits_narrow h))

theorem computes_digits {w : WString}
    (h : forall c, c ∈ w -> isDigit c = true) :
    Computes Valid Valid (SingleDigit2TextW w false)
      (Except.ok (Utf8.encodeChars (digits w))) := by
  unfold SingleDigit2TextW
  rw [wstring2utf8string_ascii (ascii_of_digits h)]
  exact Computes.bind_ok (computes_lift _) (computes_SingleDigit2Text _)

theorem point_notMem {i : CString} (h : AllDigits i) : 46 ∉ i := by
  intro hmem
  exact absurd (h 46 hmem) (by decide)

theorem Stringsplit_whole {i : CString} (h : AllDigits i) (hne : i ≠ []) :
    Stringsplit i 46 = [i] := by
  rw [Stringsplit_eq_splitOn hne, List.splitOn_eq_singleton (point_notMem h)]

theorem Stringsplit_point {i f : CString} (hi : AllDigits i) (hf : AllDigits f) :
    Stringsplit (i ++ 46 :: f) 46 = [i, f] := by
  rw [Stringsplit_eq_splitOn (by simp), List.splitOn_append_cons_self,
    List.splitOn_eq_singleton (point_notMem hi),
    List.splitOn_eq_singleton (point_notMem hf)]
  rfl

theorem decimalNumber_whole {w : WString} (h : Number w) :
    decimalNumber w = number true w := by
  have hne : Utf8.narrow w ≠ [] := by
    simpa using h.nonempty
  rw [decimalNumber, Reading.decimal,
    Stringsplit_whole (allDigits_narrow h.digits) hne]
  rfl

theorem narrow_point (i f : WString) :
    Utf8.narrow (i ++ 46 :: f) = Utf8.narrow i ++ 46 :: Utf8.narrow f := by
  simp [Utf8.narrow]

theorem decimalNumber_point {i f : WString}
    (hi : forall c, c ∈ i -> isDigit c = true) (hf : Number f) :
    decimalNumber (i ++ 46 :: f) =
      (optional i (number true i)).map fun whole =>
        whole ++ '点' :: spell false (dropTrailingZeros (Utf8.narrow f)) := by
  rw [decimalNumber, Reading.decimal, narrow_point,
    Stringsplit_point (allDigits_narrow hi) (allDigits_narrow hf.digits)]
  by_cases hne : i = []
  · subst hne
    rfl
  · simp only [optional, ne_eq, hne, not_false_eq_true, if_true,
      Utf8.narrow_eq_nil, if_false, number]

theorem ascii_of_decimal {w : WString} (h : Decimal w) : Utf8.Ascii w := by
  cases h with
  | whole h =>
      exact ascii_of_digits h.digits
  | point hi hf =>
      intro c hc
      rcases List.mem_append.mp hc with hc | hc
      · exact ascii_of_digits hi c hc
      · rcases List.mem_cons.mp hc with rfl | hc
        · decide
        · exact ascii_of_digits hf.digits c hc

theorem computes_decimalNumber {w : WString} (h : Decimal w) :
    Computes Valid Valid (Digits2TextW w)
      ((decimalNumber w).map Utf8.encodeChars) := by
  have hparts : forall part, part ∈ Stringsplit (Utf8.narrow w) 46 ->
      AllDigits part := by
    cases h with
    | whole h =>
        rw [Stringsplit_whole (allDigits_narrow h.digits)
          (by simpa using h.nonempty)]
        intro part hpart
        rw [List.mem_singleton.mp hpart]
        exact allDigits_narrow h.digits
    | point hi hf =>
        rw [narrow_point, Stringsplit_point (allDigits_narrow hi)
          (allDigits_narrow hf.digits)]
        intro part hpart
        simp only [List.mem_cons, List.not_mem_nil, or_false] at hpart
        rcases hpart with rfl | rfl
        · exact allDigits_narrow hi
        · exact allDigits_narrow hf.digits
  unfold Digits2TextW
  rw [wstring2utf8string_ascii (ascii_of_decimal h)]
  exact Computes.bind_ok (computes_lift _) (computes_Digits2Text hparts)

theorem computes_replacement {κ : Type} {k : κ} {rep : CString} {cs : List Char}
    (h : rep = Utf8.encodeChars cs) :
    Computes Valid Valid (replacement k rep) (pure (k, Utf8.units cs)) := by
  subst h
  unfold replacement
  rw [utf8string2wstring_encodeChars]
  exact Computes.bind_ok (computes_lift _) (computes_pure _)

/-!
## The bodies of the rules
-/

theorem encodeChars_sign (w : WString) :
    signText w = Utf8.encodeChars (sign w) := by
  unfold signText sign
  split <;> rfl

theorem refines_rule {pattern : Regex UInt32} {span : Nat}
    {text : (Nat -> WString) -> Except Error (List Char)}
    {body : Unit -> (Nat -> WString) -> NormM (Unit × WString)}
    (h : forall s mt, pattern.search s = some mt ->
      Computes Valid Valid (body () mt.group)
        (text mt.group >>= fun cs => pure ((), Utf8.units cs))) :
    Rule.Refines Valid ⟨pattern, span, body⟩ (rule pattern span text) := by
  refine ⟨rfl, rfl, ?_⟩
  intro k s mt hsearch
  exact h s mt hsearch

theorem computes_number_word {w : WString}
    (hw : forall c, c ∈ w -> isDigit c = true) (rep unit : List Char) :
    Computes Valid Valid
      (do
        let text <- MultiDigit2TextW w false false
        pure (Utf8.encodeChars rep ++ (text ++ Utf8.encodeChars unit)))
      (((number false w).map (· ++ unit)).map
        fun cs => Utf8.encodeChars (rep ++ cs)) := by
  have hnumber := computes_number false hw
  cases hr : number false w with
  | error e =>
      rw [hr] at hnumber
      exact Computes.bind_error hnumber fun _ h => h
  | ok cs =>
      rw [hr] at hnumber
      apply Computes.bind_ok hnumber
      simp only [Except.map, Utf8.encodeChars_append]
      exact computes_pure _

theorem computes_skip (rep : List Char) (r : Except Error (List Char)) :
    Computes Valid Valid (pure (Utf8.encodeChars rep) : NormM CString)
      ((optional [] r).map fun cs => Utf8.encodeChars (rep ++ cs)) := by
  have hpure := computes_pure (ε := Error) (I := Valid) (Utf8.encodeChars rep)
  simpa [optional, Except.map, pure, Except.pure] using hpure

theorem computes_addMonth {w : WString}
    (hw : forall c, c ∈ w -> isDigit c = true) (rep : List Char) :
    Computes Valid Valid (addMonth (Utf8.encodeChars rep) w)
      ((optional w ((number false w).map (· ++ ['月']))).map
        fun cs => Utf8.encodeChars (rep ++ cs)) := by
  by_cases hne : w = []
  · subst hne
    exact computes_skip rep _
  · simp only [addMonth, optional, ne_eq, hne, not_false_eq_true, if_true]
    exact computes_number_word hw rep ['月']

theorem computes_addDay {w unit : WString}
    (hw : forall c, c ∈ w -> isDigit c = true)
    (hunit : w ≠ [] -> wstring2utf8string unit =
      Except.ok (Utf8.encodeChars (chars unit))) (rep : List Char) :
    Computes Valid Valid (addDay (Utf8.encodeChars rep) w unit)
      ((optional w ((number false w).map (· ++ chars unit))).map
        fun cs => Utf8.encodeChars (rep ++ cs)) := by
  by_cases hne : w = []
  · subst hne
    exact computes_skip rep _
  · simp only [addDay, optional, ne_eq, hne, not_false_eq_true, if_true,
      hunit hne]
    exact computes_number_word hw rep (chars unit)

theorem refines_data :
    Rule.Refines Valid dataRule (rule dataPattern 0 dataText) := by
  apply refines_rule
  intro s mt hsearch
  rcases data_shape hsearch with ⟨year, month, day, hyear, _, hg1, hmonth, hday⟩
  have hgroup3 : forall c, c ∈ mt.group 3 -> isDigit c = true := by
    rcases hmonth with ⟨_, hg3⟩ | ⟨hfield, _⟩
    · simp [hg3]
    · exact hfield.digits
  have hgroup5 : forall c, c ∈ mt.group 5 -> isDigit c = true := by
    rcases hday with ⟨_, hg5⟩ | ⟨hfield, _⟩
    · simp [hg5]
    · exact hfield.digits
  have hunit : mt.group 5 ≠ [] ->
      wstring2utf8string (mt.group 9) =
        Except.ok (Utf8.encodeChars (chars (mt.group 9))) := by
    intro hne
    rcases hday with ⟨_, hg5⟩ | ⟨_, _, hg9 | hg9⟩
    · exact absurd hg5 hne
    · rw [hg9]
      decide +kernel
    · rw [hg9]
      decide +kernel
  simp only [dataText, bind_assoc, pure_bind, hg1]
  apply Computes.bind_ok (computes_digits hyear.digits)
  have hyear' : Utf8.encodeChars (digits year) ++ str "年" =
      Utf8.encodeChars (digits year ++ ['年']) := by
    simp [str]
  rw [hyear']
  refine Computes.bind_map (computes_addMonth hgroup3 _) ?_ fun _ h => h
  intro m _
  refine Computes.bind_map (computes_addDay hgroup5 hunit _) ?_ fun _ h => h
  intro d _
  exact computes_replacement rfl

theorem refines_data2 :
    Rule.Refines Valid data2Rule (rule data2Pattern 0 data2Text) := by
  apply refines_rule
  intro s mt hsearch
  rcases data2_shape hsearch with
    ⟨year, sep, month, day, hyear, _, hmonth, hday, _, hg1, hg3, hg4⟩
  simp only [data2Text, bind_assoc, pure_bind, hg1, hg3, hg4]
  apply Computes.bind_ok (computes_digits hyear.digits)
  refine Computes.bind_map (computes_number false hmonth.digits) ?_ fun _ h => h
  intro m _
  refine Computes.bind_map (computes_number false hday.digits) ?_ fun _ h => h
  intro d _
  exact computes_replacement (by simp [str])

theorem encodeChars_zero {w : WString} (h : forall c, c ∈ w -> isDigit c = true) :
    zeroText (Utf8.narrow w) = Utf8.encodeChars (zero w) := by
  cases w with
  | nil =>
      rfl
  | cons c w =>
      have hc := isDigit_iff.mp (h c (by simp))
      have hiff : c.toUInt8 = 48 ↔ c = 48 := by
        rw [← UInt8.toNat_inj, ← UInt32.toNat_inj, toUInt8_toNat (by omega)]
        rfl
      simp only [zeroText, zero, front, Utf8.narrow, List.map_cons,
        List.headD_cons, List.head?_cons, Option.some.injEq, hiff]
      split <;> rfl

theorem refines_time :
    Rule.Refines Valid timeRule (rule timePattern 0 timeText) := by
  apply refines_rule
  intro s mt hsearch
  rcases time_shape hsearch with
    ⟨hour, minute, rest, hhour, hminute, _, hg1, hg2, hrest⟩
  have hsecond : forall c, c ∈ mt.group 4 -> isDigit c = true := by
    rcases hrest with ⟨_, hg4⟩ | ⟨second, hsecond, _, hg4⟩
    · simp [Match.group_eq_texts, hg4]
    · simpa [Match.group_eq_texts, hg4] using hsecond.digits
  simp only [timeText, bind_assoc, pure_bind, hg1, hg2]
  refine Computes.bind_map (computes_number false hhour.digits) ?_ fun _ h => h
  intro h _
  rw [wstring2utf8string_ascii (ascii_of_digits hminute.digits)]
  apply Computes.bind_ok (computes_lift _)
  refine Computes.bind_map (computes_number true hminute.digits) ?_ fun _ h => h
  intro m _
  rw [wstring2utf8string_ascii (ascii_of_digits hsecond)]
  apply Computes.bind_ok (computes_lift _)
  refine Computes.bind_map (computes_number true hsecond) ?_ fun _ h => h
  intro sec _
  rw [encodeChars_zero hminute.digits, encodeChars_zero hsecond]
  exact computes_replacement (by simp [str])

theorem refines_temperature :
    Rule.Refines Valid temperatureRule
      (rule temperaturePattern 0 temperatureText) := by
  apply refines_rule
  intro s mt hsearch
  rcases temperature_shape hsearch with
    ⟨_, value, _, _, ⟨hvalue, _⟩, _, _, _, hg2, _⟩
  simp only [temperatureText, bind_assoc, pure_bind, hg2]
  refine Computes.bind_map (computes_decimalNumber hvalue) ?_ fun _ h => h
  intro v _
  apply computes_replacement
  rw [encodeChars_sign]
  split <;> simp [str]

theorem refines_frac :
    Rule.Refines Valid fracRule (rule fracPattern 0 fracText) := by
  apply refines_rule
  intro s mt hsearch
  rcases frac_shape hsearch with
    ⟨_, numerator, denominator, _, hnumerator, hdenominator, _, _, hg2, hg3⟩
  simp only [fracText, bind_assoc, pure_bind, hg2, hg3]
  refine Computes.bind_map (computes_number true hdenominator.digits) ?_
    fun _ h => h
  intro d _
  refine Computes.bind_map (computes_number true hnumerator.digits) ?_
    fun _ h => h
  intro n _
  exact computes_replacement (by simp [str, encodeChars_sign])

theorem refines_percentage :
    Rule.Refines Valid percentageRule
      (rule percentagePattern 0 percentageText) := by
  apply refines_rule
  intro s mt hsearch
  rcases percentage_shape hsearch with ⟨_, value, _, ⟨hvalue, _⟩, _, _, hg2⟩
  simp only [percentageText, bind_assoc, pure_bind, hg2]
  refine Computes.bind_map (computes_decimalNumber hvalue) ?_ fun _ h => h
  intro v _
  exact computes_replacement (by simp [str, encodeChars_sign])

theorem computes_readParts (parts : List CString) :
    forall cs : List Char,
      Computes Valid Valid (readParts (Utf8.encodeChars cs) parts)
        (Except.ok (Utf8.encodeChars (cs ++ parts.flatMap (spell true)))) := by
  induction parts with
  | nil =>
      intro cs
      simp only [List.flatMap_nil, List.append_nil]
      exact computes_pure _
  | cons part parts ih =>
      intro cs
      apply Computes.bind_ok (computes_SingleDigit2Text part)
      rw [← Utf8.encodeChars_append]
      have h := ih (cs ++ spell true part)
      simpa using h

theorem refines_phone {pattern : Regex UInt32}
    (hdialled : forall s mt, pattern.search s = some mt ->
      forall c, c ∈ mt.text -> IsDialled c) :
    Rule.Refines Valid ⟨pattern, 0, phoneBody⟩ (phone pattern) := by
  refine ⟨rfl, rfl, ?_⟩
  intro parts s mt hsearch
  have hascii : Utf8.Ascii mt.text := by
    intro c hc
    rcases hdialled s mt hsearch c hc with hc | rfl | rfl | rfl
    · have := isDigit_iff.mp hc
      omega
    · decide
    · decide
    · decide
  simp only [phoneBody, phone]
  rw [show mt.group 0 = mt.text from rfl, wstring2utf8string_ascii hascii]
  apply Computes.bind_ok (computes_lift _)
  apply Computes.bind_ok (computes_readParts _ [])
  exact computes_replacement rfl

theorem computes_numberText {n : Nat} {t : WString} {mt : Match UInt32}
    (h : Signed (n + 1) t mt.caps.texts) :
    Computes Valid Valid (numberText (n + 1) mt.group)
      ((signedText (n + 1) mt.group).map Utf8.encodeChars) := by
  rcases h.groups with ⟨_, value, _, hvalue, _, _, hchoice⟩
  have hnumber := computes_decimalNumber hvalue
  simp only [numberText, signedText, encodeChars_sign, hchoice]
  cases hr : decimalNumber value with
  | error e =>
      rw [hr] at hnumber
      exact Computes.bind_error hnumber fun _ h => h
  | ok cs =>
      rw [hr] at hnumber
      apply Computes.bind_ok hnumber
      rw [← Utf8.encodeChars_append]
      exact computes_pure _

theorem refines_range :
    Rule.Refines Valid rangeRule (rule rangePattern 0 rangeText) := by
  apply refines_rule
  intro s mt hsearch
  rcases range_shape hsearch with ⟨_, _, _, _, _, hfirst, hsecond⟩
  simp only [rangeText, bind_assoc, pure_bind]
  refine Computes.bind_map (computes_numberText hfirst) ?_ fun _ h => h
  intro first _
  refine Computes.bind_map (computes_numberText hsecond) ?_ fun _ h => h
  intro second _
  exact computes_replacement (by simp [str])

theorem refines_interger :
    Rule.Refines Valid intergerRule (rule intergerPattern 0 intergerText) := by
  apply refines_rule
  intro s mt hsearch
  rcases interger_shape hsearch with ⟨value, hvalue, _, hg2⟩
  simp only [intergerText, bind_assoc, pure_bind, hg2]
  refine Computes.bind_map (computes_number true hvalue.digits) ?_ fun _ h => h
  intro v _
  exact computes_replacement (by simp [str])

theorem refines_signed {pattern : Regex UInt32}
    (hshape : forall s mt, pattern.search s = some mt ->
      Signed 1 mt.text mt.caps.texts) :
    Rule.Refines Valid
      ⟨pattern, 0, fun k g => do
        let rep <- numberText 1 g
        replacement k rep⟩
      (rule pattern 0 (signedText 1)) := by
  apply refines_rule
  intro s mt hsearch
  refine Computes.bind_map (computes_numberText (hshape s mt hsearch)) ?_
    fun _ h => h
  intro v _
  exact computes_replacement rfl

theorem refines_positiveQuantifiers :
    Rule.Refines Valid positiveQuantifiersRule
      (rule positiveQuantifiersPattern 1 quantityText) := by
  apply refines_rule
  intro s mt hsearch
  rcases positiveQuantifiers_shape hsearch with ⟨value, _, hvalue, _, hg1, _⟩
  simp only [quantityText, hg1]
  refine Computes.bind_map (computes_number true hvalue.digits) ?_ fun _ h => h
  intro v _
  exact computes_replacement rfl

theorem refines_defalutNum :
    Rule.Refines Valid defalutNumRule (rule defalutNumPattern 0 codeText) := by
  apply refines_rule
  intro s mt hsearch
  simp only [codeText, pure_bind]
  apply Computes.bind_ok (computes_digits (defalutNum_shape hsearch).digits)
  exact computes_replacement rfl

end Readers
end Spoken
end VoiceTts
