import VoiceTts.Normalizer.Numbers

/-!
# What the number readers say

The texts that the readers of `TextNormalizer` produce, as functions of the
digits alone.  The maps of the object only ever hold their initial entries, the
entry of `1` in one of its two forms, and empty entries, so that every reader
computes these texts from every state that calls can lead to.
-/

namespace VoiceTts
namespace Reading

open TextNormalizer

def digitName (alt_one : Bool) (c : UInt8) : List Char :=
  match c.toNat with
  | 48 => ['零']
  | 49 => if alt_one then ['幺'] else ['一']
  | 50 => ['二']
  | 51 => ['三']
  | 52 => ['四']
  | 53 => ['五']
  | 54 => ['六']
  | 55 => ['七']
  | 56 => ['八']
  | 57 => ['九']
  | _ => []

def unitName (u : Nat) : List Char :=
  match u with
  | 1 => ['十']
  | 2 => ['百']
  | 3 => ['千']
  | 4 => ['万']
  | 8 => ['亿']
  | _ => []

def spell (alt_one : Bool) (s : CString) : List Char :=
  s.flatMap (digitName alt_one)

/-- A number as a whole, before the shortening of its first syllables. -/
def numeral (alt_one use_zero : Bool) : Nat -> CString -> List Char
  | 0, _ => []
  | fuel + 1, s =>
      let len := (natDigits (digitsValue s)).length
      if len = 1 then
        (if use_zero && decide (1 < s.length) then ['零'] else []) ++
          digitName alt_one (UInt8.ofNat (48 + digitsValue s))
      else
        numeral alt_one use_zero fuel (s.take (s.length - largestUnit len)) ++
          unitName (largestUnit len) ++
          numeral alt_one use_zero fuel (s.drop (s.length - largestUnit len))

/-- `一十八` is shortened to `十八`. -/
def shorten (alt_one : Bool) : List Char -> List Char
  | a :: b :: rest =>
      if [a] = digitName alt_one 49 ∧ b = '十' then b :: rest else a :: b :: rest
  | cs => cs

/-- A number as a whole: neither an empty string nor a value above `int` is read. -/
def multi (alt_one use_zero : Bool) (s : CString) : Except Error (List Char) :=
  if s = [] then Except.error Error.invalid_argument
  else if digitsValue s ≤ 2147483647 then
    Except.ok (shorten alt_one (numeral alt_one use_zero s.length s))
  else Except.error Error.out_of_range

/-- A number whose fraction, if any, is read digit by digit. -/
def decimal (s : CString) : Except Error (List Char) :=
  match Stringsplit s 46 with
  | [integer] => multi false true integer
  | [integer, fraction] =>
      let digits := spell false (dropTrailingZeros fraction)
      if integer = [] then Except.ok ('点' :: digits)
      else (multi false true integer).map fun whole => whole ++ '点' :: digits
  | _ => Except.ok "The value does not conform to the numeric format".toList

/-!
## The states that calls can lead to
-/

def digitTable (alt_one : Bool) : StdMap CString CString :=
  construct.digits_map.insert (str "1") (oneText alt_one)

/-- Both maps read like the initial ones, with the given text for `1`. -/
structure ValidWith (alt_one : Bool) (n : TextNormalizer) : Prop where
  digits : forall key, n.digits_map.peek key = (digitTable alt_one).peek key
  units : forall key, n.units_map.peek key = construct.units_map.peek key

def Valid (n : TextNormalizer) : Prop :=
  exists alt_one, ValidWith alt_one n

theorem ValidWith.valid {alt_one : Bool} {n : TextNormalizer}
    (h : ValidWith alt_one n) : Valid n :=
  ⟨alt_one, h⟩

theorem peek_digitTable_digit (alt_one : Bool) (c : UInt8) :
    (digitTable alt_one).peek [c] = Utf8.encodeChars (digitName alt_one c) := by
  have hall : forall b : Bool, forall n : Fin 256,
      (digitTable b).peek [UInt8.ofNat n] =
        Utf8.encodeChars (digitName b (UInt8.ofNat n)) := by
    decide +kernel
  have hc := hall alt_one ⟨c.toNat, c.toNat_lt⟩
  simpa using hc

theorem peek_units_largestUnit {len : Nat} (h : 1 < len) :
    construct.units_map.peek (largestUnit len : Int) =
      Utf8.encodeChars (unitName (largestUnit len)) := by
  have hcases : largestUnit len = 1 ∨ largestUnit len = 2 ∨
      largestUnit len = 3 ∨ largestUnit len = 4 ∨ largestUnit len = 8 := by
    unfold largestUnit
    split_ifs <;> omega
  rcases hcases with h | h | h | h | h <;> rw [h] <;> decide +kernel

theorem valid_construct : ValidWith false construct := by
  refine ⟨?_, fun _ => rfl⟩
  intro key
  by_cases hkey : key = str "1"
  · subst hkey
    decide +kernel
  · rw [digitTable, StdMap.peek_insert_of_ne _ _ hkey]

section Readers

open Prog

variable {alt_one : Bool}

theorem computes_setOne (alt_one : Bool) :
    Computes Valid (ValidWith alt_one) (setOne alt_one) (Except.ok ()) := by
  rintro n ⟨old, hold⟩
  refine ⟨rfl, ?_, hold.units⟩
  intro key
  change (n.digits_map.insert (str "1") (oneText alt_one)).peek key = _
  by_cases hkey : key = str "1"
  · subst hkey
    simp [digitTable]
  · rw [digitTable, StdMap.peek_insert_of_ne _ _ hkey,
      StdMap.peek_insert_of_ne _ _ hkey, hold.digits, digitTable,
      StdMap.peek_insert_of_ne _ _ hkey]

theorem computes_digitsAt (key : CString) :
    Computes (ValidWith alt_one) (ValidWith alt_one) (digitsAt key)
      (Except.ok ((digitTable alt_one).peek key)) := by
  intro n hn
  refine ⟨?_, ?_, hn.units⟩
  · simp [digitsAt, hn.digits]
  · intro key'
    simp [digitsAt, hn.digits]

theorem computes_unitsAt (key : Int) :
    Computes (ValidWith alt_one) (ValidWith alt_one) (unitsAt key)
      (Except.ok (construct.units_map.peek key)) := by
  intro n hn
  refine ⟨?_, hn.digits, ?_⟩
  · simp [unitsAt, hn.units]
  · intro key'
    simp [unitsAt, hn.units]

/-!
## The readers compute the texts
-/

theorem largestUnit_bounds {len : Nat} (h : 1 < len) :
    0 < largestUnit len ∧ largestUnit len < len := by
  unfold largestUnit
  split_ifs <;> omega

theorem computes_createTextValue (use_zero : Bool) :
    forall {fuel : Nat} {s : CString}, AllDigits s -> s ≠ [] ->
      s.length ≤ fuel -> digitsValue s ≤ 2147483647 ->
      Computes (ValidWith alt_one) (ValidWith alt_one)
        (createTextValue use_zero fuel s)
        (Except.ok (Utf8.encodeChars (numeral alt_one use_zero fuel s))) := by
  intro fuel
  induction fuel with
  | zero =>
      intro s _ hne hlen _
      exact absurd (List.length_eq_zero_iff.mp (by omega)) hne
  | succ fuel ih =>
      intro s hs hne hlen hvalue
      have hstoi : stoi s = Except.ok (digitsValue s : Int) := by
        rw [stoi_digits hs hne, if_pos hvalue]
      have hpos := length_natDigits_pos (digitsValue s)
      have hle : (natDigits (digitsValue s)).length ≤ s.length :=
        length_natDigits_le (List.length_pos_iff.mpr hne) (digitsValue_lt hs)
      have htext : to_string (digitsValue s : Int) =
          natDigits (digitsValue s) := by
        simp [to_string]
      unfold createTextValue
      rw [hstoi]
      apply Computes.bind_ok (computes_lift _)
      simp only [htext, if_neg (Nat.ne_of_gt hpos)]
      by_cases hone : (natDigits (digitsValue s)).length = 1
      · rcases natDigits_of_length_eq_one hone with ⟨_, heq⟩
        simp only [if_pos hone]
        by_cases hzero : (use_zero && decide (1 < s.length)) = true
        · simp only [hone, hzero, if_true, numeral]
          apply Computes.bind_ok (computes_digitsAt (str "0"))
          apply Computes.bind_ok (computes_digitsAt _)
          rw [heq, peek_digitTable_digit, Utf8.encodeChars_append]
          exact computes_pure _
        · simp only [hone, hzero, numeral, if_true]
          rw [heq]
          have h : Computes (ValidWith alt_one) (ValidWith alt_one)
              (digitsAt [UInt8.ofNat (48 + digitsValue s)])
              (Except.ok ((digitTable alt_one).peek _)) :=
            computes_digitsAt [UInt8.ofNat (48 + digitsValue s)]
          rw [peek_digitTable_digit] at h
          simpa using h
      · have hmany : 1 < (natDigits (digitsValue s)).length := by omega
        rcases largestUnit_bounds hmany with ⟨hunit, hless⟩
        simp only [if_neg hone, numeral]
        rw [if_neg (by omega)]
        -- both parts are nonempty digit strings, shorter and not larger
        have hfirst := ih
          (hs.take (s.length - largestUnit (natDigits (digitsValue s)).length)) (by
            rw [ne_eq, List.take_eq_nil_iff, not_or]
            exact ⟨by omega, hne⟩)
          (by rw [List.length_take]; omega)
          ((digitsValue_take_le s _).trans hvalue)
        have hsecond := ih
          (hs.drop (s.length - largestUnit (natDigits (digitsValue s)).length)) (by
            rw [ne_eq, List.drop_eq_nil_iff]
            omega)
          (by rw [List.length_drop]; omega)
          ((digitsValue_drop_le s _).trans hvalue)
        apply Computes.bind_ok hfirst
        apply Computes.bind_ok (computes_unitsAt _)
        apply Computes.bind_ok hsecond
        rw [peek_units_largestUnit hmany, Utf8.encodeChars_append,
          Utf8.encodeChars_append]
        exact computes_pure _

def numerals : List Char :=
  "零一二三四五六七八九幺十百千万亿".toList

theorem mem_digitName {c : UInt8} {x : Char} (h : x ∈ digitName alt_one c) :
    x ∈ numerals := by
  have hall : forall b : Bool, forall n : Fin 256,
      forall x, x ∈ digitName b (UInt8.ofNat n) -> x ∈ numerals := by
    decide +kernel
  have hc := hall alt_one ⟨c.toNat, c.toNat_lt⟩ x
  exact hc (by simpa using h)

theorem mem_unitName {u : Nat} {x : Char} (h : x ∈ unitName u) :
    x ∈ numerals := by
  unfold unitName at h
  split at h <;> revert x <;> decide

theorem digitName_ne_nil {n : Nat} (h : n < 10) :
    digitName alt_one (UInt8.ofNat (48 + n)) ≠ [] := by
  have hall : forall b : Bool, forall n : Fin 10,
      digitName b (UInt8.ofNat (48 + n)) ≠ [] := by
    decide +kernel
  exact hall alt_one ⟨n, h⟩

theorem mem_numeral {use_zero : Bool} :
    forall {fuel : Nat} {s : CString} {x : Char},
      x ∈ numeral alt_one use_zero fuel s -> x ∈ numerals := by
  intro fuel
  induction fuel with
  | zero =>
      intro s x h
      cases h
  | succ fuel ih =>
      intro s x h
      unfold numeral at h
      dsimp only at h
      split at h
      · rcases List.mem_append.mp h with h | h
        · split at h
          · rw [List.mem_singleton.mp h]
            decide
          · cases h
        · exact mem_digitName h
      · rcases List.mem_append.mp h with h | h
        · rcases List.mem_append.mp h with h | h
          · exact ih h
          · exact mem_unitName h
        · exact ih h

theorem numeral_ne_nil {use_zero : Bool} {fuel : Nat} {s : CString}
    (hfuel : 0 < fuel) : numeral alt_one use_zero fuel s ≠ [] := by
  cases fuel with
  | zero =>
      omega
  | succ fuel =>
      unfold numeral
      dsimp only
      split
      · rename_i hone
        intro heq
        exact digitName_ne_nil (natDigits_of_length_eq_one hone).1
          (List.append_eq_nil_iff.mp heq).2
      · rename_i hone
        have hpos := length_natDigits_pos (digitsValue s)
        have hunit : unitName
            (largestUnit (natDigits (digitsValue s)).length) ≠ [] := by
          unfold largestUnit
          split_ifs <;> first | omega | decide
        intro heq
        exact hunit
          (List.append_eq_nil_iff.mp (List.append_eq_nil_iff.mp heq).1).2

theorem CreateTextValue_nil (use_zero : Bool) :
    Computes (ValidWith alt_one) (ValidWith alt_one)
      (CreateTextValue [] use_zero) (Except.error Error.invalid_argument) := by
  intro n hn
  exact ⟨rfl, hn⟩

theorem CreateTextValue_large {s : CString} (hs : AllDigits s) (hne : s ≠ [])
    (hvalue : ¬ digitsValue s ≤ 2147483647) (use_zero : Bool) :
    Computes (ValidWith alt_one) (ValidWith alt_one)
      (CreateTextValue s use_zero) (Except.error Error.out_of_range) := by
  have hstoi : stoi s = Except.error Error.out_of_range := by
    rw [stoi_digits hs hne, if_neg hvalue]
  cases s with
  | nil =>
      exact absurd rfl hne
  | cons c t =>
      simp only [CreateTextValue, List.length_cons, createTextValue, hstoi]
      exact Computes.bind_error (computes_lift _) fun _ h => h

theorem computes_shortenText {cs : List Char} (hne : cs ≠ []) :
    Computes (ValidWith alt_one) (ValidWith alt_one)
      (shortenText (Utf8.encodeChars cs))
      (Except.ok (Utf8.encodeChars (shorten alt_one cs))) := by
  have hone : (digitTable alt_one).peek (str "1") =
      Utf8.encodeChars (digitName alt_one 49) :=
    peek_digitTable_digit alt_one 49
  have hten : construct.units_map.peek 1 = Utf8.encodeChars ['十'] := by
    decide +kernel
  cases cs with
  | nil =>
      exact absurd rfl hne
  | cons a rest =>
      have hfirst : ([a.val] = Utf8.units (digitName alt_one 49)) ↔
          [a] = digitName alt_one 49 :=
        @Utf8.units_injective [a] _
      have hsecond : wcharAt (Utf8.units (a :: rest)) 1 =
          Except.ok ((Utf8.units rest).getD 0 0) := by
        simp [wcharAt]
      unfold shortenText
      rw [utf8string2wstring_encodeChars]
      apply Computes.bind_ok (computes_lift _)
      apply Computes.bind_ok (computes_lift _)
      rw [hsecond]
      apply Computes.bind_ok (computes_lift _)
      apply Computes.bind_ok (computes_digitsAt _)
      rw [hone, utf8string2wstring_encodeChars]
      apply Computes.bind_ok (computes_lift _)
      have hdrop : (Utf8.units (a :: rest)).drop 1 = Utf8.units rest := rfl
      simp only [Utf8.units_cons, List.getD_cons_zero, hfirst, List.drop_one,
        List.tail_cons]
      by_cases ha : [a] = digitName alt_one 49
      · rw [if_pos ha]
        apply Computes.bind_ok (computes_unitsAt _)
        rw [hten, utf8string2wstring_encodeChars]
        apply Computes.bind_ok (computes_lift _)
        cases rest with
        | nil =>
            rw [if_neg (by decide)]
            rw [← Utf8.units_cons, wstring2utf8string_units]
            exact computes_lift _
        | cons b rest =>
            have hb : ([b.val] = Utf8.units ['十']) ↔ b = '十' := by
              rw [show [b.val] = Utf8.units [b] from rfl, Utf8.units_injective]
              simp
            simp only [Utf8.units_cons, List.getD_cons_zero, shorten, ha,
              true_and] at hb ⊢
            by_cases hbt : b = '十'
            · rw [if_pos (hb.mpr hbt), if_pos hbt, ← Utf8.units_cons,
                wstring2utf8string_units]
              exact computes_lift _
            · rw [if_neg (fun h => hbt (hb.mp h)), if_neg hbt,
                ← Utf8.units_cons, ← Utf8.units_cons, wstring2utf8string_units]
              exact computes_lift _
      · have hkeep : shorten alt_one (a :: rest) = a :: rest := by
          cases rest with
          | nil => rfl
          | cons b rest => simp [shorten, ha]
        rw [if_neg ha, hkeep, ← Utf8.units_cons, wstring2utf8string_units]
        exact computes_lift _

theorem computes_MultiDigit2Text (use_zero : Bool) {s : CString}
    (hs : AllDigits s) :
    Computes Valid Valid (MultiDigit2Text s alt_one use_zero)
      ((multi alt_one use_zero s).map Utf8.encodeChars) := by
  unfold MultiDigit2Text multi
  apply Computes.bind_ok (computes_setOne alt_one)
  refine Computes.mono (I := ValidWith alt_one) (J := ValidWith alt_one) ?_
    (fun _ h => h) (fun _ h => h.valid)
  by_cases hne : s = []
  · subst hne
    exact Computes.bind_error (CreateTextValue_nil use_zero) fun _ h => h
  · rw [if_neg hne]
    by_cases hvalue : digitsValue s ≤ 2147483647
    · rw [if_pos hvalue]
      apply Computes.bind_ok
        (computes_createTextValue use_zero hs hne (Nat.le_refl _) hvalue)
      exact computes_shortenText
        (numeral_ne_nil (List.length_pos_iff.mpr hne))
    · rw [if_neg hvalue]
      exact Computes.bind_error (CreateTextValue_large hs hne hvalue use_zero)
        fun _ h => h

theorem computes_singleDigits (s : CString) :
    forall cs : List Char,
      Computes (ValidWith alt_one) (ValidWith alt_one)
        (singleDigits (Utf8.encodeChars cs) s)
        (Except.ok (Utf8.encodeChars (cs ++ spell alt_one s))) := by
  induction s with
  | nil =>
      intro cs
      simp only [spell, List.flatMap_nil, List.append_nil]
      exact computes_pure _
  | cons c s ih =>
      intro cs
      apply Computes.bind_ok (computes_digitsAt [c])
      rw [peek_digitTable_digit, ← Utf8.encodeChars_append]
      have h := ih (cs ++ digitName alt_one c)
      simpa [spell] using h

theorem computes_SingleDigit2Text (s : CString) :
    Computes Valid Valid (SingleDigit2Text s alt_one)
      (Except.ok (Utf8.encodeChars (spell alt_one s))) := by
  apply Computes.bind_ok (computes_setOne alt_one)
  exact Computes.mono (computes_singleDigits s []) (fun _ h => h)
    (fun _ h => h.valid)

theorem computes_Digits2Text {s : CString}
    (hs : forall part, part ∈ Stringsplit s 46 -> AllDigits part) :
    Computes Valid Valid (Digits2Text s)
      ((decimal s).map Utf8.encodeChars) := by
  unfold Digits2Text decimal
  generalize Stringsplit s 46 = parts at hs
  rcases parts with _ | ⟨integer, _ | ⟨fraction, _ | ⟨_, _⟩⟩⟩
  · exact computes_pure _
  · exact computes_MultiDigit2Text true (hs integer (by simp))
  · dsimp only
    by_cases hint : integer = []
    · rw [if_pos hint, if_pos hint]
      apply Computes.bind_ok (computes_SingleDigit2Text _)
      exact computes_pure _
    · rw [if_neg hint, if_neg hint]
      have hwhole : Computes Valid Valid (MultiDigit2Text integer false true)
          ((multi false true integer).map Utf8.encodeChars) :=
        computes_MultiDigit2Text true (hs integer (by simp))
      cases hmulti : multi false true integer with
      | error e =>
          rw [hmulti] at hwhole
          exact Computes.bind_error hwhole fun _ h => h
      | ok whole =>
          rw [hmulti] at hwhole
          apply Computes.bind_ok hwhole
          apply Computes.bind_ok (computes_SingleDigit2Text _)
          have htext : Utf8.encodeChars
              (whole ++ '点' ::
                spell false (dropTrailingZeros fraction)) =
              Utf8.encodeChars whole ++ str "点" ++
                Utf8.encodeChars (spell false (dropTrailingZeros fraction)) := by
            simp [str]
          simp only [Except.map, htext]
          exact computes_pure _
  · exact computes_pure _

end Readers
end Reading
end VoiceTts
