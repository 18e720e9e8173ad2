import VoiceTts.Normalizer.Reading

/-!
# The value of a numeral

A listener who hears a Chinese numeral adds it up from left to right.  Every
text that `CreateTextValue` makes of a digit string adds up to the number that
the digits denote, so that no two numbers sound the same.  Most of these texts
are nevertheless not how the number is said: `stoi` strips the zeros in front
of a part, but the zeros at its end are read.
-/

namespace VoiceTts
namespace Reading

open TextNormalizer

/-!
## Hearing a numeral
-/

/--
What has been heard so far: the sections closed by `万` and `亿`, the section
that is still open, and the digit that may wait for its unit.
-/
structure Count where
  finished : Nat
  current : Nat
  digit : Nat
deriving DecidableEq

def Count.zero : Count :=
  ⟨0, 0, 0⟩

def Count.total (k : Count) : Nat :=
  k.finished + k.current + k.digit

def Count.times (k : Count) (unit : Nat) : Count :=
  ⟨k.finished, k.current + k.digit * unit, 0⟩

def digitOf (c : Char) : Nat :=
  "零一二三四五六七八九".toList.idxOf c

def Count.hear (k : Count) (c : Char) : Count :=
  match c with
  | '十' => k.times 10
  | '百' => k.times 100
  | '千' => k.times 1000
  | '万' => ⟨k.finished + (k.current + k.digit) * 10000, 0, 0⟩
  | '亿' => ⟨k.total * 100000000, 0, 0⟩
  | c => ⟨k.finished, k.current + k.digit, digitOf c⟩

/-- The value of a numeral; a leading `十` stands for `一十`. -/
def textValue : List Char -> Nat
  | '十' :: rest => (('一' :: '十' :: rest).foldl Count.hear Count.zero).total
  | cs => (cs.foldl Count.hear Count.zero).total

example : textValue "二十一亿四千七百四十八万三千六百四十七".toList = 2147483647 := by
  decide +kernel

/-!
## How a numeral is put together
-/

/--
A digit string and its text: one digit, perhaps after zeros, or two parts around
the largest unit of the number.
-/
inductive Numeral (alt_one use_zero : Bool) : CString -> List Char -> Prop
  | digit {s : CString} (hs : AllDigits s) (hne : s ≠ [])
      (hvalue : digitsValue s < 10) :
      Numeral alt_one use_zero s
        ((if use_zero && decide (1 < s.length) then ['零'] else []) ++
          digitName alt_one (UInt8.ofNat (48 + digitsValue s)))
  | parts {first second : CString} {cs ds : List Char}
      (hten : 10 ≤ digitsValue (first ++ second))
      (hunit : second.length =
        largestUnit (natDigits (digitsValue (first ++ second))).length)
      (hfirst : Numeral alt_one use_zero first cs)
      (hsecond : Numeral alt_one use_zero second ds) :
      Numeral alt_one use_zero (first ++ second)
        (cs ++ unitName second.length ++ ds)

variable {alt_one use_zero : Bool}

theorem lt_length_natDigits {n k : Nat} (h : 10 ^ k ≤ n) :
    k < (natDigits n).length := by
  have hn : n ≠ 0 := by
    have hpow : 0 < 10 ^ k := by positivity
    omega
  simpa [natDigits, hn] using (Nat.lt_digits_length_iff (by omega) n).mpr h

theorem numeral_spec :
    forall {fuel : Nat} {s : CString}, AllDigits s -> s ≠ [] ->
      s.length ≤ fuel ->
      Numeral alt_one use_zero s (numeral alt_one use_zero fuel s) := by
  intro fuel
  induction fuel with
  | zero =>
      intro s _ hne hlen
      exact absurd (List.length_eq_zero_iff.mp (by omega)) hne
  | succ fuel ih =>
      intro s hs hne hlen
      have hpos := length_natDigits_pos (digitsValue s)
      have hle : (natDigits (digitsValue s)).length ≤ s.length :=
        length_natDigits_le (List.length_pos_iff.mpr hne) (digitsValue_lt hs)
      unfold numeral
      by_cases hone : (natDigits (digitsValue s)).length = 1
      · simp only [if_pos hone]
        exact Numeral.digit hs hne (natDigits_of_length_eq_one hone).1
      · have hmany : 1 < (natDigits (digitsValue s)).length := by omega
        have hten : 10 ≤ digitsValue s := by
          by_contra hlt
          have hshort := length_natDigits_le (n := digitsValue s) (k := 1)
            (by omega) (by omega)
          omega
        rcases largestUnit_bounds hmany with ⟨hunit, hless⟩
        simp only [if_neg hone]
        generalize hcut : s.length -
          largestUnit (natDigits (digitsValue s)).length = cut
        have hsplit : s.take cut ++ s.drop cut = s := List.take_append_drop cut s
        have hlength : (s.drop cut).length =
            largestUnit (natDigits (digitsValue s)).length := by
          rw [List.length_drop]
          omega
        have hfirst := ih (hs.take cut)
          (by
            rw [ne_eq, List.take_eq_nil_iff, not_or]
            exact ⟨by omega, hne⟩)
          (by rw [List.length_take]; omega)
        have hsecond := ih (hs.drop cut)
          (by rw [ne_eq, List.drop_eq_nil_iff]; omega)
          (by rw [List.length_drop]; omega)
        have hparts := Numeral.parts (by rw [hsplit]; exact hten)
          (by rw [hsplit]; exact hlength) hfirst hsecond
        rw [hsplit, hlength] at hparts
        exact hparts

theorem Numeral.allDigits {s : CString} {cs : List Char}
    (h : Numeral alt_one use_zero s cs) : AllDigits s := by
  induction h with
  | digit hs _ _ =>
      exact hs
  | parts _ _ _ _ hfirst hsecond =>
      exact allDigits_append.mpr ⟨hfirst, hsecond⟩

theorem largestUnit_natDigits {n : Nat} (h : 10 ≤ n) :
    (n < 100 ∧ largestUnit (natDigits n).length = 1) ∨
    (100 ≤ n ∧ n < 1000 ∧ largestUnit (natDigits n).length = 2) ∨
    (1000 ≤ n ∧ n < 10000 ∧ largestUnit (natDigits n).length = 3) ∨
    (10000 ≤ n ∧ n < 100000000 ∧ largestUnit (natDigits n).length = 4) ∨
    (100000000 ≤ n ∧ largestUnit (natDigits n).length = 8) := by
  have hup : forall k, 0 < k -> n < 10 ^ k -> (natDigits n).length ≤ k :=
    fun k hk hlt => length_natDigits_le hk hlt
  have hlow : forall k, 10 ^ k ≤ n -> k < (natDigits n).length :=
    fun k hle => lt_length_natDigits hle
  have h1 := hlow 1
  have h2 := hup 2
  have h2' := hlow 2
  have h3 := hup 3
  have h3' := hlow 3
  have h4 := hup 4
  have h4' := hlow 4
  have h8 := hup 8
  have h8' := hlow 8
  norm_num at h1 h2 h2' h3 h3' h4 h4' h8 h8'
  unfold largestUnit
  split_ifs <;> omega

theorem hear_digitName (k : Count) {v : Nat} (h : v < 10) :
    (digitName false (UInt8.ofNat (48 + v))).foldl Count.hear k =
      ⟨k.finished, k.current + k.digit, v⟩ := by
  interval_cases v <;> rfl

/-- A one-digit number is left waiting for a unit. -/
theorem Numeral.hear_digit {s : CString} {cs : List Char}
    (h : Numeral false use_zero s cs) (hvalue : digitsValue s < 10)
    (k : Count) :
    cs.foldl Count.hear k =
      ⟨k.finished, k.current + k.digit, digitsValue s⟩ := by
  cases h with
  | digit hs hne _ =>
      rw [List.foldl_append, hear_digitName _ hvalue]
      split
      · rfl
      · rfl
  | parts hten _ _ _ =>
      omega

theorem Numeral.hear_section {s : CString} {cs : List Char}
    (h : Numeral false use_zero s cs) :
    digitsValue s < 10000 -> forall k : Count,
      (cs.foldl Count.hear k).finished = k.finished ∧
      (cs.foldl Count.hear k).current + (cs.foldl Count.hear k).digit =
        k.current + k.digit + digitsValue s := by
  induction h with
  | digit hs hne hvalue =>
      intro _ k
      rw [(Numeral.digit hs hne hvalue).hear_digit hvalue k]
      exact ⟨rfl, rfl⟩
  | @parts first second cs ds hten hunit hfirst hsecond _ ih =>
      intro hsmall k
      have hlt := digitsValue_lt hsecond.allDigits
      have happ := digitsValue_append first second
      -- the first part is one digit, which the unit multiplies
      have hstep : forall u, u = 10 ^ second.length ->
          (forall k : Count, (unitName second.length).foldl Count.hear k =
            k.times u) ->
          digitsValue first < 10 -> digitsValue second < 10000 ->
          ((cs ++ unitName second.length ++ ds).foldl Count.hear k).finished =
            k.finished ∧
          ((cs ++ unitName second.length ++ ds).foldl Count.hear k).current +
              ((cs ++ unitName second.length ++ ds).foldl Count.hear k).digit =
            k.current + k.digit + digitsValue (first ++ second) := by
        intro u hu htimes hone hrest
        rw [List.foldl_append, List.foldl_append, hfirst.hear_digit hone,
          htimes, happ, ← hu]
        rcases ih hrest (Count.times _ u) with ⟨hfin, hsum⟩
        constructor
        · exact hfin
        · rw [hsum]
          simp only [Count.times]
          ring
      rcases largestUnit_natDigits hten with h | h | h | h | h
      · rw [h.2] at hunit
        rw [hunit] at happ hlt hstep ⊢
        exact hstep 10 rfl (fun _ => rfl) (by omega) (by omega)
      · rw [h.2.2] at hunit
        rw [hunit] at happ hlt hstep ⊢
        exact hstep 100 rfl (fun _ => rfl) (by omega) (by omega)
      · rw [h.2.2] at hunit
        rw [hunit] at happ hlt hstep ⊢
        exact hstep 1000 rfl (fun _ => rfl) (by omega) (by omega)
      · omega
      · omega

theorem Numeral.hear_sections {s : CString} {cs : List Char}
    (h : Numeral false use_zero s cs) (hvalue : digitsValue s < 100000000)
    (n : Nat) :
    (cs.foldl Count.hear ⟨n, 0, 0⟩).total = n + digitsValue s := by
  by_cases hsmall : digitsValue s < 10000
  · rcases h.hear_section hsmall ⟨n, 0, 0⟩ with ⟨hfin, hsum⟩
    simp only [Count.total] at hfin hsum ⊢
    omega
  · cases h with
    | digit _ _ hten =>
        omega
    | @parts first second cs ds hten hunit hfirst hsecond =>
        have hlt := digitsValue_lt hsecond.allDigits
        have happ := digitsValue_append first second
        have hfour : second.length = 4 := by
          have hcases := largestUnit_natDigits hten
          omega
        rw [hfour] at happ hlt ⊢
        have hunitname : forall k : Count, (unitName 4).foldl Count.hear k =
            ⟨k.finished + (k.current + k.digit) * 10000, 0, 0⟩ := fun _ => rfl
        rw [List.foldl_append, List.foldl_append, hunitname]
        rcases hfirst.hear_section (by omega) ⟨n, 0, 0⟩ with ⟨hfin, hsum⟩
        rcases hsecond.hear_section (by omega)
          ⟨n + digitsValue first * 10000, 0, 0⟩ with ⟨hfin', hsum'⟩
        simp only [Count.total] at hfin hsum hfin' hsum' ⊢
        rw [hfin, hsum]
        simp only [Nat.zero_add] at hsum' ⊢
        omega

theorem Numeral.hear_total {s : CString} {cs : List Char}
    (h : Numeral false use_zero s cs) (hvalue : digitsValue s ≤ 2147483647) :
    (cs.foldl Count.hear Count.zero).total = digitsValue s := by
  by_cases hsmall : digitsValue s < 100000000
  · rw [Count.zero, h.hear_sections hsmall 0, Nat.zero_add]
  · cases h with
    | digit _ _ hten =>
        omega
    | @parts first second cs ds hten hunit hfirst hsecond =>
        have hlt := digitsValue_lt hsecond.allDigits
        have happ := digitsValue_append first second
        have height : second.length = 8 := by
          have hcases := largestUnit_natDigits hten
          omega
        rw [height] at happ hlt ⊢
        have hunitname : forall k : Count, (unitName 8).foldl Count.hear k =
            ⟨k.total * 100000000, 0, 0⟩ := fun _ => rfl
        rw [List.foldl_append, List.foldl_append, hunitname, Count.zero,
          hfirst.hear_sections (by omega) 0, Nat.zero_add,
          hsecond.hear_sections (by omega)]
        omega

def unitChars : List Char :=
  ['十', '百', '千', '万', '亿']

theorem exists_digitName {v : Nat} (h : v < 10) :
    exists c, digitName false (UInt8.ofNat (48 + v)) = [c] ∧ c ∉ unitChars ∧
      (c = '零' ↔ v = 0) := by
  interval_cases v <;> exact ⟨_, rfl, by decide⟩

theorem Numeral.exists_head {s : CString} {cs : List Char}
    (h : Numeral false use_zero s cs) :
    exists c rest, cs = c :: rest ∧ c ∉ unitChars := by
  induction h with
  | @digit s hs hne hvalue =>
      rcases exists_digitName hvalue with ⟨c, hc, hunit, _⟩
      rw [hc]
      split
      · exact ⟨'零', [c], rfl, by decide⟩
      · exact ⟨c, [], rfl, hunit⟩
  | parts _ _ _ _ ih _ =>
      rcases ih with ⟨c, rest, rfl, hunit⟩
      exact ⟨c, _, rfl, hunit⟩

theorem textValue_of_notMem {c : Char} {rest : List Char}
    (h : c ∉ unitChars) :
    textValue (c :: rest) = ((c :: rest).foldl Count.hear Count.zero).total := by
  unfold textValue
  split
  · rename_i heq
    rw [(List.cons.inj heq).1] at h
    exact absurd (by decide) h
  · rfl

theorem Numeral.textValue_eq {s : CString} {cs : List Char}
    (h : Numeral false use_zero s cs) (hvalue : digitsValue s ≤ 2147483647) :
    textValue cs = digitsValue s := by
  rcases h.exists_head with ⟨c, rest, rfl, hunit⟩
  rw [textValue_of_notMem hunit]
  exact h.hear_total hvalue

/-- Dropping the `一` of a leading `一十` does not change the value. -/
theorem textValue_shorten {c : Char} {rest : List Char} (h : c ∉ unitChars) :
    textValue (shorten false (c :: rest)) = textValue (c :: rest) := by
  cases rest with
  | nil =>
      rfl
  | cons d rest =>
      by_cases hone : [c] = digitName false 49 ∧ d = '十'
      · rcases hone with ⟨hc, rfl⟩
        have hc : c = '一' := (List.cons.inj hc).1
        subst hc
        rw [textValue_of_notMem h]
        rfl
      · simp only [shorten, if_neg hone]

/-!
## The readings of the code
-/

/-- A digit string that `stoi` accepts. -/
structure Readable (s : CString) : Prop where
  digits : AllDigits s
  nonempty : s ≠ []
  bound : digitsValue s ≤ 2147483647

/-- The result is a text, and its value is the number. -/
def Says (v : Nat) (r : Except Error CString) : Prop :=
  exists cs, r = Except.ok (Utf8.encodeChars cs) ∧ textValue cs = v

theorem Says.unique {v v' : Nat} {r : Except Error CString} (h : Says v r)
    (h' : Says v' r) : v = v' := by
  rcases h with ⟨cs, hr, rfl⟩
  rcases h' with ⟨cs', hr', rfl⟩
  rw [hr] at hr'
  rw [Utf8.encodeChars_injective (Except.ok.inj hr')]

theorem Readable.numeral {s : CString} (h : Readable s)
    (alt_one use_zero : Bool) :
    Numeral alt_one use_zero s (numeral alt_one use_zero s.length s) :=
  numeral_spec h.digits h.nonempty (Nat.le_refl _)

theorem says_CreateTextValue {s : CString} (h : Readable s) (use_zero : Bool)
    {n : TextNormalizer} (hn : ValidWith false n) :
    Says (digitsValue s) (CreateTextValue s use_zero n).1 := by
  have hrun := (computes_createTextValue use_zero h.digits h.nonempty
    (Nat.le_refl _) h.bound) n hn
  exact ⟨_, hrun.1, (h.numeral false use_zero).textValue_eq h.bound⟩

theorem MultiDigit2Text_eq {s : CString} (h : Readable s) (use_zero : Bool)
    {n : TextNormalizer} (hn : Valid n) :
    (MultiDigit2Text s alt_one use_zero n).1 =
      Except.ok (Utf8.encodeChars
        (shorten alt_one (numeral alt_one use_zero s.length s))) := by
  rw [((computes_MultiDigit2Text use_zero h.digits) n hn).1, multi,
    if_neg h.nonempty, if_pos h.bound]
  rfl

theorem says_MultiDigit2Text {s : CString} (h : Readable s) (use_zero : Bool)
    {n : TextNormalizer} (hn : Valid n) :
    Says (digitsValue s) (MultiDigit2Text s false use_zero n).1 := by
  refine ⟨_, MultiDigit2Text_eq h use_zero hn, ?_⟩
  have hvalue := (h.numeral false use_zero).textValue_eq h.bound
  rcases (h.numeral false use_zero).exists_head with
    ⟨c, rest, heq, hunit⟩
  rw [heq] at hvalue ⊢
  rw [textValue_shorten hunit, hvalue]

/-- No number is read as another one. -/
theorem readings_keep_value :
    (forall (s : CString) (use_zero : Bool) (n : TextNormalizer),
      Readable s -> ValidWith false n ->
        Says (digitsValue s) (CreateTextValue s use_zero n).1) ∧
    (forall (s : CString) (use_zero : Bool) (n : TextNormalizer),
      Readable s -> Valid n ->
        Says (digitsValue s) (MultiDigit2Text s false use_zero n).1) ∧
    (forall (s t : CString) (use_zero use_zero' : Bool) (n n' : TextNormalizer),
      Readable s -> Readable t -> ValidWith false n -> ValidWith false n' ->
        digitsValue s ≠ digitsValue t ->
        (CreateTextValue s use_zero n).1 ≠ (CreateTextValue t use_zero' n').1) ∧
    (forall (s t : CString) (use_zero use_zero' : Bool) (n n' : TextNormalizer),
      Readable s -> Readable t -> Valid n -> Valid n' ->
        digitsValue s ≠ digitsValue t ->
        (MultiDigit2Text s false use_zero n).1 ≠
          (MultiDigit2Text t false use_zero' n').1) := by
  refine ⟨?_, ?_, ?_, ?_⟩
  · intro s use_zero n hs hn
    exact says_CreateTextValue hs use_zero hn
  · intro s use_zero n hs hn
    exact says_MultiDigit2Text hs use_zero hn
  · intro s t use_zero use_zero' n n' hs ht hn hn' hne heq
    have hheard := says_CreateTextValue hs use_zero hn
    rw [heq] at hheard
    exact hne (hheard.unique (says_CreateTextValue ht use_zero' hn'))
  · intro s t use_zero use_zero' n n' hs ht hn hn' hne heq
    have hheard := says_MultiDigit2Text hs use_zero hn
    rw [heq] at hheard
    exact hne (hheard.unique (says_MultiDigit2Text ht use_zero' hn'))

theorem readable_documented : Readable (str "10200") where
  digits := by unfold AllDigits; decide +kernel
  nonempty := by decide +kernel
  bound := by decide +kernel

theorem readings_keep_value_documented :
    digitsValue (str "10200") = 10200 ∧
    Says 10200 (CreateTextValue (str "10200") true construct).1 := by
  have hvalue : digitsValue (str "10200") = 10200 := by decide +kernel
  have h := readings_keep_value.1 (str "10200") true construct
    readable_documented valid_construct
  rw [hvalue] at h
  exact ⟨hvalue, h⟩

/-!
## The zeros of a reading
-/

/-- How a number other than zero is said. -/
structure StandardReading (cs : List Char) : Prop where
  last : cs.getLast? ≠ some '零'
  zeros : ¬ ['零', '零'] <:+: cs
  units : forall u, u ∈ unitChars -> ¬ ['零', u] <:+: cs

/-- What may stand behind a character. -/
def MayFollow (c d : Char) : Prop :=
  c = '零' -> d ≠ '零' ∧ d ∉ unitChars

theorem standardReading_iff {cs : List Char} :
    StandardReading cs ↔
      cs.IsChain MayFollow ∧ cs.getLast? ≠ some '零' := by
  constructor
  · intro h
    constructor
    · rw [List.isChain_iff_forall_rel_of_append_cons_cons]
      intro c d pre post heq hc
      subst hc heq
      constructor
      · rintro rfl
        exact h.zeros ⟨pre, post, by simp⟩
      · intro hd
        exact h.units d hd ⟨pre, post, by simp⟩
    · exact h.last
  · rintro ⟨hchain, hlast⟩
    rw [List.isChain_iff_forall_rel_of_append_cons_cons] at hchain
    constructor
    · exact hlast
    · rintro ⟨pre, post, rfl⟩
      exact (@hchain '零' '零' pre post (by simp) rfl).1 rfl
    · rintro u hu ⟨pre, post, rfl⟩
      exact (@hchain '零' u pre post (by simp) rfl).2 hu

theorem standardReading_parts {cs ds : List Char} {u : Char}
    (hu : u ∈ unitChars) (hds : ds ≠ []) :
    StandardReading (cs ++ [u] ++ ds) ↔
      StandardReading cs ∧ StandardReading ds := by
  have hzero : u ≠ '零' := by
    rintro rfl
    revert hu
    decide
  have hlast : (cs ++ [u] ++ ds).getLast? = ds.getLast? :=
    List.getLast?_append_of_ne_nil _ hds
  have htail : ([u] ++ ds).IsChain MayFollow ↔ ds.IsChain MayFollow := by
    rw [List.isChain_append]
    constructor
    · intro h
      exact h.2.1
    · intro h
      refine ⟨List.isChain_singleton u, h, ?_⟩
      intro x hx y _ hx0
      rw [List.getLast?_singleton, Option.mem_some_iff] at hx
      exact absurd (hx.trans hx0) hzero
  rw [standardReading_iff, standardReading_iff, standardReading_iff, hlast,
    List.append_assoc, List.isChain_append, htail]
  constructor
  · rintro ⟨⟨hcs, hds, hmid⟩, hend⟩
    refine ⟨⟨hcs, ?_⟩, hds, hend⟩
    intro hx
    exact (hmid '零' hx u rfl rfl).2 hu
  · rintro ⟨⟨hcs, hx⟩, hds, hend⟩
    refine ⟨⟨hcs, hds, ?_⟩, hend⟩
    intro x hmem y _ hx0
    rw [hx0] at hmem
    exact absurd hmem hx

theorem Numeral.standardReading_digit {s : CString} {cs : List Char}
    (h : Numeral false use_zero s cs) (hvalue : digitsValue s < 10) :
    StandardReading cs ↔ digitsValue s ≠ 0 := by
  cases h with
  | digit hs hne _ =>
      rcases exists_digitName hvalue with ⟨c, hc, hunit, hzero⟩
      have hne : c ≠ '零' ↔ digitsValue s ≠ 0 := not_congr hzero
      rw [hc, standardReading_iff, ← hne]
      split
      · simp [MayFollow, hunit]
      · simp
  | parts hten _ _ _ =>
      omega

theorem Numeral.standardReading_parts {first second : CString}
    {cs ds : List Char} (hten : 10 ≤ digitsValue (first ++ second))
    (hunit : second.length =
      largestUnit (natDigits (digitsValue (first ++ second))).length)
    (hsecond : Numeral false use_zero second ds) :
    StandardReading (cs ++ unitName second.length ++ ds) ↔
      StandardReading cs ∧ StandardReading ds := by
  have hds : ds ≠ [] := by
    rcases hsecond.exists_head with ⟨c, rest, rfl, _⟩
    simp
  have hname : exists u, unitName second.length = [u] ∧ u ∈ unitChars := by
    rw [hunit]
    rcases largestUnit_natDigits hten with h | h | h | h | h
    · exact ⟨'十', by rw [h.2]; rfl, by decide⟩
    · exact ⟨'百', by rw [h.2.2]; rfl, by decide⟩
    · exact ⟨'千', by rw [h.2.2]; rfl, by decide⟩
    · exact ⟨'万', by rw [h.2.2]; rfl, by decide⟩
    · exact ⟨'亿', by rw [h.2]; rfl, by decide⟩
  rcases hname with ⟨u, heq, hu⟩
  rw [heq]
  exact Reading.standardReading_parts hu hds

/-- Below ten thousand only the last digit matters. -/
theorem Numeral.standardReading_section {s : CString} {cs : List Char}
    (h : Numeral false use_zero s cs) :
    digitsValue s < 10000 ->
      (StandardReading cs ↔ digitsValue s % 10 ≠ 0) := by
  induction h with
  | digit hs hne hvalue =>
      intro _
      rw [(Numeral.digit hs hne hvalue).standardReading_digit hvalue]
      omega
  | @parts first second cs ds hten hunit hfirst hsecond _ ih =>
      intro hsmall
      have hlt := digitsValue_lt hsecond.allDigits
      have happ := digitsValue_append first second
      have hcases := largestUnit_natDigits hten
      rw [← hunit] at hcases
      have hlength : second.length = 1 ∨ second.length = 2 ∨
          second.length = 3 := by
        omega
      rw [Numeral.standardReading_parts hten hunit hsecond]
      have hdigit : digitsValue first < 10 ∧ digitsValue first ≠ 0 ∧
          digitsValue second < 10000 ∧
          digitsValue (first ++ second) % 10 = digitsValue second % 10 := by
        rcases hlength with hl | hl | hl <;> rw [hl] at happ hlt <;> omega
      rcases hdigit with ⟨hone, hpos, hrest, hmod⟩
      rw [hfirst.standardReading_digit hone, ih hrest, hmod]
      exact ⟨fun h => h.2, fun h => ⟨hpos, h⟩⟩

theorem Numeral.standardReading_sections {s : CString} {cs : List Char}
    (h : Numeral false use_zero s cs) (hvalue : digitsValue s < 100000000) :
    StandardReading cs ↔ digitsValue s % 10 ≠ 0 ∧
      (digitsValue s / 10000 % 10 ≠ 0 ∨ digitsValue s / 10000 = 0) := by
  by_cases hsmall : digitsValue s < 10000
  · rw [h.standardReading_section hsmall]
    omega
  · cases h with
    | digit _ _ hten =>
        omega
    | @parts first second cs ds hten hunit hfirst hsecond =>
        have hlt := digitsValue_lt hsecond.allDigits
        have happ := digitsValue_append first second
        have hfour : second.length = 4 := by
          have hcases := largestUnit_natDigits hten
          omega
        rw [Numeral.standardReading_parts hten hunit hsecond]
        rw [hfour] at happ hlt
        rw [hfirst.standardReading_section (by omega),
          hsecond.standardReading_section (by omega)]
        omega

/-- Every section of four digits that is read ends in a digit other than zero. -/
def SectionsEnd (v : Nat) : Prop :=
  v % 10 ≠ 0 ∧
  (v / 10000 % 10 ≠ 0 ∨ v / 10000 % 10000 = 0) ∧
  (v / 100000000 % 10 ≠ 0 ∨ v / 100000000 = 0)

theorem Numeral.standardReading_iff {s : CString} {cs : List Char}
    (h : Numeral false use_zero s cs) (hvalue : digitsValue s ≤ 2147483647) :
    StandardReading cs ↔ SectionsEnd (digitsValue s) := by
  unfold SectionsEnd
  by_cases hsmall : digitsValue s < 100000000
  · rw [h.standardReading_sections hsmall]
    omega
  · cases h with
    | digit _ _ hten =>
        omega
    | @parts first second cs ds hten hunit hfirst hsecond =>
        have hlt := digitsValue_lt hsecond.allDigits
        have happ := digitsValue_append first second
        have height : second.length = 8 := by
          have hcases := largestUnit_natDigits hten
          omega
        rw [Numeral.standardReading_parts hten hunit hsecond]
        rw [height] at happ hlt
        rw [hfirst.standardReading_section (by omega),
          hsecond.standardReading_sections (by omega)]
        omega

theorem standardReading_shorten (cs : List Char) :
    StandardReading (shorten false cs) ↔ StandardReading cs := by
  unfold shorten
  split
  · rename_i c d rest
    by_cases hone : [c] = digitName false 49 ∧ d = '十'
    · rw [if_pos hone]
      rcases hone with ⟨hc, rfl⟩
      have hc : c = '一' := (List.cons.inj hc).1
      subst hc
      rw [Reading.standardReading_iff, Reading.standardReading_iff,
        List.isChain_cons_cons]
      simp [MayFollow]
    · rw [if_neg hone]
  · rfl

/-- The result is a text of the right value, said the way numbers are said. -/
def ReadsStandard (s : CString) (r : Except Error CString) : Prop :=
  exists cs, r = Except.ok (Utf8.encodeChars cs) ∧
    textValue cs = digitsValue s ∧ (s ≠ str "0" -> StandardReading cs)

theorem MultiDigit2Text_standard_iff (s : CString) (n : TextNormalizer)
    (hs : Readable s) (hn : Valid n) :
    ReadsStandard s (MultiDigit2Text s false true n).1 ↔
      s = str "0" ∨ SectionsEnd (digitsValue s) := by
  have hcs : StandardReading
      (shorten false (Reading.numeral false true s.length s)) ↔
        SectionsEnd (digitsValue s) :=
    (standardReading_shorten _).trans
      ((hs.numeral false true).standardReading_iff hs.bound)
  rcases says_MultiDigit2Text hs true hn with ⟨ds, hds, hvalue⟩
  have heq : (MultiDigit2Text s false true n).1 = _ :=
    MultiDigit2Text_eq hs true hn
  rw [hds] at heq
  rw [← Utf8.encodeChars_injective (Except.ok.inj heq)] at hcs
  constructor
  · rintro ⟨cs, hrun, _, hstandard⟩
    rw [hds] at hrun
    have hsame := Utf8.encodeChars_injective (Except.ok.inj hrun)
    by_cases hzero : s = str "0"
    · exact Or.inl hzero
    · right
      rw [← hsame] at hstandard
      exact hcs.mp (hstandard hzero)
  · intro hcond
    refine ⟨ds, hds, hvalue, ?_⟩
    intro hzero
    exact hcs.mpr (hcond.resolve_left hzero)

theorem MultiDigit2Text_standard_iff_10201 :
    ReadsStandard (str "10201") (MultiDigit2Text (str "10201") false true
      construct).1 := by
  have hs : Readable (str "10201") := by
    constructor
    · unfold AllDigits
      decide +kernel
    · decide +kernel
    · decide +kernel
  have hend : SectionsEnd (digitsValue (str "10201")) := by
    unfold SectionsEnd
    decide +kernel
  exact (MultiDigit2Text_standard_iff (str "10201") construct hs
    valid_construct.valid).mpr (Or.inr hend)

/-- The number of the comment in the source is read with two zeros at its end. -/
theorem MultiDigit2Text_documented_zeros :
    (MultiDigit2Text (str "10200") false true construct).1 =
      Except.ok (str "一万零二百零零") ∧
    ¬ ReadsStandard (str "10200")
      (MultiDigit2Text (str "10200") false true construct).1 := by
  have hrun : (MultiDigit2Text (str "10200") false true construct).1 =
      Except.ok (Utf8.encodeChars "一万零二百零零".toList) := by
    decide +kernel
  constructor
  · exact hrun
  · rintro ⟨cs, heq, _, hstandard⟩
    rw [hrun] at heq
    have hcs := Utf8.encodeChars_injective (Except.ok.inj heq)
    have hlast := (hstandard (by decide +kernel)).last
    rw [← hcs] at hlast
    exact hlast (by decide +kernel)

end Reading
end VoiceTts
