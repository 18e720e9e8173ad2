import VoiceTts.Normalizer.Pieces

/-!
# When the normaliser throws

`std::stoi` throws on an empty string and on a number beyond `int`.  Which of the
two happens, and whether it happens at all, can be told from the sentence: from
the times without seconds, and from the numbers that the rules before the
telephone rules find.
-/

namespace VoiceTts
namespace TextNormalizer

open Reading Spoken Prog Regex

/-!
## The rules on a single match
-/

theorem dataText_reads {s : WString} {mt : Match UInt32}
    (h : dataPattern.search s = some mt) :
    exists cs, dataText mt.group = Except.ok cs := by
  rcases data_shape h with ⟨_, _, _, _, _, _, hmonth, hday⟩
  have hread : forall (w : WString) (unit : List Char), w = [] ∨ Field 1 2 w ->
      exists cs, Spoken.optional w ((number false w).map (· ++ unit)) =
        Except.ok cs := by
    rintro w unit (rfl | hfield)
    · exact ⟨[], rfl⟩
    · rcases number_of_field false hfield (by omega) with ⟨cs, hcs⟩
      simp [Spoken.optional, hfield.number.nonempty, hcs, Except.map]
  rcases hread (mt.group 3) ['月']
    (hmonth.imp (fun h => h.2) fun h => h.1) with ⟨m, hm⟩
  rcases hread (mt.group 5) (chars (mt.group 9))
    (hday.imp (fun h => h.2) fun h => h.1) with ⟨d, hd⟩
  refine ⟨digits (mt.group 1) ++ ['年'] ++ m ++ d, ?_⟩
  simp only [dataText, hm, hd]
  rfl

theorem data2Text_reads {s : WString} {mt : Match UInt32}
    (h : data2Pattern.search s = some mt) :
    exists cs, data2Text mt.group = Except.ok cs := by
  rcases data2_shape h with ⟨_, _, month, day, _, _, hmonth, hday, _, _, hg3, hg4⟩
  rcases number_of_field false hmonth (by omega) with ⟨m, hm⟩
  rcases number_of_field false hday (by omega) with ⟨d, hd⟩
  refine ⟨digits (mt.group 1) ++ ['年'] ++ m ++ ['月'] ++ d ++ ['日'], ?_⟩
  simp only [data2Text, hg3, hg4, hm, hd]
  rfl

/-- A time is read when it has seconds; without them `stoi` gets an empty string. -/
theorem timeText_reads {s : WString} {mt : Match UInt32}
    (h : timePattern.search s = some mt) :
    ((mt.caps 4).isSome = true ∧ exists cs, timeText mt.group = Except.ok cs) ∨
      ((mt.caps 4).isSome = false ∧
        timeText mt.group = Except.error Error.invalid_argument) := by
  rcases time_shape h with
    ⟨hour, minute, _, hhour, hminute, _, hg1, hg2, hrest⟩
  rcases number_of_field false hhour (by omega) with ⟨hr, hhr⟩
  rcases number_of_field true hminute (by omega) with ⟨m, hm⟩
  rcases hrest with ⟨_, hg4⟩ | ⟨second, hsecond, _, hg4⟩
  · right
    constructor
    · simpa [Captures.texts] using hg4
    · have hempty : mt.group 4 = [] := by
        simp [Match.group_eq_texts, hg4]
      simp only [timeText, hg1, hg2, hempty, hhr, hm]
      rfl
  · left
    have hgroup : mt.group 4 = second := by
      simp [Match.group_eq_texts, hg4]
    rcases number_of_field true hsecond (by omega) with ⟨sec, hsec⟩
    constructor
    · cases hc : mt.caps 4 with
      | none =>
          simp [Captures.texts, hc] at hg4
      | some c =>
          rfl
    · simp only [timeText, hg1, hg2, hgroup, hhr, hm, hsec]
      exact ⟨_, rfl⟩

theorem temperatureText_reads {s : WString} {mt : Match UInt32}
    (h : temperaturePattern.search s = some mt) :
    (InRange (mt.group 2) ∧ exists cs, temperatureText mt.group = Except.ok cs) ∨
      (¬ InRange (mt.group 2) ∧
        temperatureText mt.group = Except.error Error.out_of_range) := by
  rcases temperature_shape h with
    ⟨_, number', _, _, ⟨hnumber, _⟩, _, _, _, hg2, _⟩
  by_cases hrange : InRange (mt.group 2)
  · left
    rw [hg2] at hrange
    rcases decimalNumber_of_inRange hnumber hrange with ⟨v, hv⟩
    rw [hg2]
    simp only [temperatureText, hg2, hv]
    exact ⟨hrange, _, rfl⟩
  · right
    refine ⟨hrange, ?_⟩
    rw [hg2] at hrange
    simp only [temperatureText, hg2, decimalNumber_of_not_inRange hnumber hrange]
    rfl

theorem percentageText_reads {s : WString} {mt : Match UInt32}
    (h : percentagePattern.search s = some mt) :
    (InRange (mt.group 2) ∧ exists cs, percentageText mt.group = Except.ok cs) ∨
      (¬ InRange (mt.group 2) ∧
        percentageText mt.group = Except.error Error.out_of_range) := by
  rcases percentage_shape h with ⟨_, number', _, ⟨hnumber, _⟩, _, _, hg2⟩
  by_cases hrange : InRange (mt.group 2)
  · left
    rw [hg2] at hrange
    rcases decimalNumber_of_inRange hnumber hrange with ⟨v, hv⟩
    rw [hg2]
    simp only [percentageText, hg2, hv]
    exact ⟨hrange, _, rfl⟩
  · right
    refine ⟨hrange, ?_⟩
    rw [hg2] at hrange
    simp only [percentageText, hg2, decimalNumber_of_not_inRange hnumber hrange]
    rfl

theorem number_reads (use_zero : Bool) {w : WString} (h : Number w) :
    (InRange w ∧ exists cs, number use_zero w = Except.ok cs) ∨
      (¬ InRange w ∧ number use_zero w = Except.error Error.out_of_range) := by
  rw [InRange, integerPart_digits h.digits]
  by_cases hle : value w ≤ 2147483647
  · exact Or.inl ⟨hle, number_of_le use_zero h.nonempty hle⟩
  · exact Or.inr ⟨hle, number_of_gt h.nonempty hle⟩

theorem fracText_reads {s : WString} {mt : Match UInt32}
    (h : fracPattern.search s = some mt) :
    ((InRange (mt.group 2) ∧ InRange (mt.group 3)) ∧
        exists cs, fracText mt.group = Except.ok cs) ∨
      (¬ (InRange (mt.group 2) ∧ InRange (mt.group 3)) ∧
        fracText mt.group = Except.error Error.out_of_range) := by
  rcases frac_shape h with ⟨_, num, den, _, hnum, hden, _, _, hg2, hg3⟩
  rw [hg2, hg3]
  simp only [fracText, hg2, hg3]
  rcases number_reads true hden with ⟨hr, d, hd⟩ | ⟨hr, hd⟩
  · rw [hd]
    rcases number_reads true hnum with ⟨hr', n, hn⟩ | ⟨hr', hn⟩
    · rw [hn]
      exact Or.inl ⟨⟨hr', hr⟩, _, rfl⟩
    · rw [hn]
      exact Or.inr ⟨fun h => hr' h.1, rfl⟩
  · rw [hd]
    exact Or.inr ⟨fun h => hr h.2, rfl⟩

/-!
## The loops on the pieces of a sentence
-/

/-- On a match the rule gives a text when `P` holds of the match, and else fails. -/
def Decides (pattern : Regex UInt32)
    (text : (Nat -> WString) -> Except Error (List Char))
    (P : Match UInt32 -> Prop) (e : Error) : Prop :=
  forall s mt, pattern.search s = some mt ->
    (P mt ∧ exists cs, text mt.group = Except.ok cs) ∨
      (¬ P mt ∧ text mt.group = Except.error e)

/-- `P` holds of every match that a pass over the pieces finds. -/
def Everywhere (gs : List WString) (pattern : Regex UInt32)
    (P : Match UInt32 -> Prop) : Prop :=
  forall g, g ∈ gs -> forall mt, mt ∈ pattern.found g -> P mt

instance (gs : List WString) (pattern : Regex UInt32) (P : Match UInt32 -> Prop)
    [DecidablePred P] : Decidable (Everywhere gs pattern P) :=
  inferInstanceAs (Decidable (forall g, g ∈ gs ->
    forall mt, mt ∈ pattern.found g -> P mt))

section Decides

variable {pattern : Regex UInt32}
  {text : (Nat -> WString) -> Except Error (List Char)}
  {P : Match UInt32 -> Prop} {e : Error} {rs : List (Regex UInt32)}
  {s t : WString}

theorem Decides.loop_ok (h : Decides pattern text P e)
    (hpiece : Piecewise (rule pattern 0 text))
    (ht : Woven Block (remains rs s) t)
    (hP : Everywhere (remains rs s) pattern P) :
    exists t', loop (rule pattern 0 text) () t = Except.ok t' ∧
      Woven Block (remains (rs ++ [pattern]) s) t' := by
  rw [remains_concat]
  refine hpiece.loop_ok ht ?_
  intro g hg mt hmt
  rcases mem_foundIn hmt with ⟨u, hu⟩
  rcases h u mt hu with ⟨_, cs, hcs⟩ | ⟨hnot, _⟩
  · refine ⟨Utf8.units cs, ?_⟩
    simp only [rule, hcs]
    rfl
  · exact absurd (hP g hg mt hmt) hnot

theorem Decides.loop_error (h : Decides pattern text P e)
    (hpiece : Piecewise (rule pattern 0 text))
    (ht : Woven Block (remains rs s) t)
    (hP : ¬ Everywhere (remains rs s) pattern P) :
    loop (rule pattern 0 text) () t = Except.error e := by
  refine hpiece.loop_error ?_ ht ?_
  · intro u mt e' hu hbody
    rcases h u mt hu with ⟨_, cs, hcs⟩ | ⟨_, herr⟩
    · simp only [rule, hcs] at hbody
      cases hbody
    · simp only [rule, herr] at hbody
      cases hbody
      rfl
  · unfold Everywhere at hP
    push Not at hP
    rcases hP with ⟨g, hg, mt, hmt, hnot⟩
    rcases mem_foundIn hmt with ⟨u, hu⟩
    rcases h u mt hu with ⟨hyes, _⟩ | ⟨_, herr⟩
    · exact absurd hyes hnot
    · refine ⟨g, mt, e, hg, hmt, ?_⟩
      simp only [rule, herr]
      rfl

end Decides

/-- Every time of the sentence, its dates apart, is written with seconds. -/
def SecondsGiven (s : WString) : Prop :=
  Everywhere (remains [dataPattern, data2Pattern] s) timePattern
    fun mt => (mt.caps 4).isSome = true

instance (s : WString) : Decidable (SecondsGiven s) :=
  inferInstanceAs (Decidable (Everywhere _ _ _))

/-- The dates of a sentence are always read. -/
theorem dates_read (s : WString) :
    exists s1 s2, loop (rule dataPattern 0 dataText) () s = Except.ok s1 ∧
      loop (rule data2Pattern 0 data2Text) () s1 = Except.ok s2 ∧
      Woven Block (remains [dataPattern, data2Pattern] s) s2 := by
  have hdata : Decides dataPattern dataText (fun _ => True)
      Error.invalid_argument :=
    fun _ _ h => Or.inl ⟨trivial, dataText_reads h⟩
  have hdata2 : Decides data2Pattern data2Text (fun _ => True)
      Error.invalid_argument :=
    fun _ _ h => Or.inl ⟨trivial, data2Text_reads h⟩
  have hw : Woven Block (remains [] s) s := Woven.last s
  rcases hdata.loop_ok piecewise_data hw
    (fun _ _ _ _ => trivial) with ⟨s1, hs1, hw1⟩
  rcases hdata2.loop_ok piecewise_data2 hw1
    (fun _ _ _ _ => trivial) with ⟨s2, hs2, hw2⟩
  exact ⟨s1, s2, hs1, hs2, hw2⟩

theorem decides_time : Decides timePattern timeText
    (fun mt => (mt.caps 4).isSome = true) Error.invalid_argument := by
  intro s mt h
  rcases timeText_reads h with hread | ⟨hnone, herr⟩
  · exact Or.inl hread
  · exact Or.inr ⟨by simp [hnone], herr⟩

/-!
## The rules behind the times
-/

/-- The loop fails with `out_of_range` only. -/
def Loop.Ranged (l : Loop) : Prop :=
  exists rule' : Rule (Except Error) l.κ UInt32,
    Rule.Refines Valid l.rule rule' ∧
      forall k s mt e, rule'.pattern.search s = some mt ->
        rule'.body k mt.group = Except.error e -> e = Error.out_of_range

theorem ranged_rule {pattern : Regex UInt32} {span : Nat}
    {text : (Nat -> WString) -> Except Error (List Char)}
    {concrete : Rule NormM Unit UInt32}
    (href : Rule.Refines Valid concrete (rule pattern span text))
    (herr : forall s mt e, pattern.search s = some mt ->
      text mt.group = Except.error e -> e = Error.out_of_range) :
    Loop.Ranged ⟨_, (), concrete⟩ := by
  refine ⟨_, href, ?_⟩
  intro k s mt e hsearch hbody
  refine herr s mt e hsearch ?_
  simp only [rule] at hbody
  cases htext : text mt.group with
  | error e' =>
      rw [htext] at hbody
      cases hbody
      rfl
  | ok cs =>
      rw [htext] at hbody
      cases hbody

theorem number_error {use_zero : Bool} {w : WString} (h : Number w) {e : Error}
    (herr : number use_zero w = Except.error e) : e = Error.out_of_range := by
  rcases number_reads use_zero h with ⟨_, cs, hcs⟩ | ⟨_, hr⟩
  · rw [hcs] at herr
    cases herr
  · rw [hr] at herr
    cases herr
    rfl

theorem decimalNumber_error {w : WString} (h : Decimal w) {e : Error}
    (herr : decimalNumber w = Except.error e) : e = Error.out_of_range := by
  by_cases hrange : InRange w
  · rcases decimalNumber_of_inRange h hrange with ⟨cs, hcs⟩
    rw [hcs] at herr
    cases herr
  · rw [decimalNumber_of_not_inRange h hrange] at herr
    cases herr
    rfl

theorem Decides.error_eq {pattern : Regex UInt32}
    {text : (Nat -> WString) -> Except Error (List Char)}
    {P : Match UInt32 -> Prop} {e : Error} (h : Decides pattern text P e)
    {s : WString} {mt : Match UInt32} {e' : Error}
    (hsearch : pattern.search s = some mt)
    (herr : text mt.group = Except.error e') : e' = e := by
  rcases h s mt hsearch with ⟨_, cs, hcs⟩ | ⟨_, hr⟩
  · rw [hcs] at herr
    cases herr
  · rw [hr] at herr
    cases herr
    rfl

theorem signedText_error {n : Nat} {t : WString} {mt : Match UInt32}
    (h : Signed (n + 1) t mt.caps.texts) {e : Error}
    (herr : signedText (n + 1) mt.group = Except.error e) :
    e = Error.out_of_range := by
  rcases h.groups with ⟨_, number', _, hnumber, _, _, hchoice⟩
  simp only [signedText, hchoice] at herr
  cases hr : decimalNumber number' with
  | error e' =>
      rw [hr] at herr
      cases herr
      exact decimalNumber_error hnumber hr
  | ok cs =>
      rw [hr] at herr
      cases herr

theorem loops_ranged {l : Loop} (hl : l ∈ loops.drop 3) : l.Ranged := by
  simp only [loops, List.drop_succ_cons, List.drop_zero, List.mem_cons,
    List.not_mem_nil, or_false] at hl
  rcases hl with rfl | rfl | rfl | rfl | rfl | rfl | rfl | rfl | rfl | rfl | rfl
  · exact ranged_rule refines_temperature fun _ _ _ hsearch herr =>
      Decides.error_eq (fun _ _ => temperatureText_reads) hsearch herr
  · exact ranged_rule refines_frac fun _ _ _ hsearch herr =>
      Decides.error_eq
        (P := fun mt => InRange (mt.group 2) ∧ InRange (mt.group 3))
        (fun _ _ => fracText_reads) hsearch herr
  · exact ranged_rule refines_percentage fun _ _ _ hsearch herr =>
      Decides.error_eq (fun _ _ => percentageText_reads) hsearch herr
  · refine ⟨_, refines_phone fun _ _ => mobilePhone_dialled, ?_⟩
    intro k s mt e _ hbody
    cases hbody
  · refine ⟨_, refines_phone fun _ _ => phone_dialled, ?_⟩
    intro k s mt e _ hbody
    cases hbody
  · refine ranged_rule refines_range ?_
    intro s mt e hsearch herr
    rcases range_shape hsearch with ⟨_, _, _, _, _, hfirst, hsecond⟩
    simp only [rangeText] at herr
    cases hr : signedText 2 mt.group with
    | error e' =>
        rw [hr] at herr
        cases herr
        exact signedText_error hfirst hr
    | ok first =>
        rw [hr] at herr
        cases hr' : signedText 9 mt.group with
        | error e' =>
            simp only [hr', bind, Except.bind] at herr
            cases herr
            exact signedText_error hsecond hr'
        | ok second =>
            simp only [hr', bind, Except.bind] at herr
            cases herr
  · refine ranged_rule refines_interger ?_
    intro s mt e hsearch herr
    rcases interger_shape hsearch with ⟨number', hnumber, _, hg2⟩
    simp only [intergerText, hg2] at herr
    cases hr : number true number' with
    | error e' =>
        rw [hr] at herr
        cases herr
        exact number_error hnumber hr
    | ok cs =>
        rw [hr] at herr
        cases herr
  · exact ranged_rule (refines_signed fun _ _ => decimalNum_shape)
      fun _ _ _ hsearch herr => signedText_error (decimalNum_shape hsearch) herr
  · refine ranged_rule refines_positiveQuantifiers ?_
    intro s mt e hsearch herr
    rcases positiveQuantifiers_shape hsearch with ⟨_, _, hnumber, _, hg1, _⟩
    rw [quantityText, hg1] at herr
    exact number_error hnumber herr
  · refine ranged_rule refines_defalutNum ?_
    intro s mt e _ herr
    cases herr
  · exact ranged_rule (refines_signed fun _ _ => number_shape)
      fun _ _ _ hsearch herr => signedText_error (number_shape hsearch) herr

theorem runLoops_ranged {ls : List Loop} (h : forall l, l ∈ ls -> l.Ranged) :
    forall s {n : TextNormalizer}, Valid n -> forall e,
      (runLoops ls s n).1 = Except.error e -> e = Error.out_of_range := by
  induction ls with
  | nil =>
      intro s n _ e he
      cases he
  | cons l ls ih =>
      intro s n hn e he
      rcases h l (by simp) with ⟨rule', href, herr⟩
      rcases href.rewriteLoop s.length l.start s n hn with ⟨hres, hvalid⟩
      rcases hrun : l.run s n with ⟨res, m⟩
      have hloop : l.rule.rewriteLoop s.length l.start s n = (res, m) := hrun
      rw [hloop] at hres hvalid
      cases res with
      | error e' =>
          have hbind : runLoops (l :: ls) s n = (Except.error e', m) :=
            bind_of_error hrun
          rw [hbind] at he
          cases he
          exact Rule.rewriteLoop_error (fun e => e = Error.out_of_range) herr
            s.length l.start s e hres.symm
      | ok s' =>
          have hbind : runLoops (l :: ls) s n = runLoops ls s' m :=
            bind_of_ok hrun
          rw [hbind] at he
          exact ih (fun l' hl' => h l' (List.mem_cons_of_mem l hl')) s' hvalid e he

theorem SentenceNormalize_split (s : WString) :
    SentenceNormalize s = runLoops (loops.take 2) s >>= fun s2 =>
      Loop.run ⟨_, (), timeRule⟩ s2 >>= runLoops (loops.drop 3) := by
  rw [SentenceNormalize_eq_runLoops, ← List.take_append_drop 2 loops,
    runLoops_append]
  rfl

theorem computes_dates {s s1 s2 : WString}
    (hs1 : loop (rule dataPattern 0 dataText) () s = Except.ok s1)
    (hs2 : loop (rule data2Pattern 0 data2Text) () s1 = Except.ok s2) :
    Computes Valid Valid (runLoops (loops.take 2) s) (Except.ok s2) := by
  have hdata := refines_data.rewriteLoop s.length () s
  have hdata2 := refines_data2.rewriteLoop s1.length () s1
  unfold loop at hs1 hs2
  rw [hs1] at hdata
  rw [hs2] at hdata2
  exact Computes.bind_ok hdata (Computes.bind_ok hdata2 (computes_pure s2))

/-- The dates are read, and the rest of the run decides the result. -/
theorem computes_behind_dates {s s2 : WString} {r : Except Error WString}
    (hdates : Computes Valid Valid (runLoops (loops.take 2) s) (Except.ok s2))
    (h : Computes Valid Valid
      (Loop.run ⟨_, (), timeRule⟩ s2 >>= runLoops (loops.drop 3)) r) :
    Computes Valid Valid (SentenceNormalize s) r := by
  rw [SentenceNormalize_split]
  exact Computes.bind_ok hdates h

/-- `std::stoi` gets an empty string exactly from a time without seconds. -/
theorem invalid_argument_iff {n : TextNormalizer} (hn : Valid n) (s : WString) :
    (SentenceNormalize s n).1 ≠ Except.error Error.invalid_argument ↔ SecondsGiven s := by
  rcases dates_read s with ⟨s1, s2, hs1, hs2, hwoven⟩
  have hdates := computes_dates hs1 hs2
  have htime := refines_time.rewriteLoop s2.length () s2
  by_cases hgiven : SecondsGiven s
  · rcases decides_time.loop_ok piecewise_time hwoven hgiven with ⟨s3, hs3, _⟩
    unfold loop at hs3
    rw [hs3] at htime
    rcases runLoops_outcome (loops.drop 3)
      (fun l hl => loops_sound (List.mem_of_mem_drop hl)) s3 with ⟨r, hr⟩
    have hall := computes_behind_dates hdates (Computes.bind_ok htime hr.computes)
    refine iff_of_true ?_ hgiven
    rw [(hall n hn).1]
    intro heq
    have hrest := (hr.computes n hn).1
    rw [heq] at hrest
    cases runLoops_ranged (fun _ => loops_ranged) s3 hn _ hrest
  · have herr : loop (rule timePattern 0 timeText) () s2 =
        Except.error Error.invalid_argument :=
      decides_time.loop_error piecewise_time hwoven hgiven
    unfold loop at herr
    rw [herr] at htime
    have hall := computes_behind_dates hdates (Computes.bind_error htime fun _ h => h)
    exact iff_of_false (fun hresult => hresult (hall n hn).1) hgiven

/-!
## Numbers beyond `int`
-/

/-- Every number that the rules before the telephone rules find fits an `int`. -/
def NumbersInRange (s : WString) : Prop :=
  Everywhere (remains [dataPattern, data2Pattern, timePattern] s)
      temperaturePattern (fun mt => InRange (mt.group 2)) ∧
    Everywhere (remains [dataPattern, data2Pattern, timePattern,
        temperaturePattern] s)
      fracPattern (fun mt => InRange (mt.group 2) ∧ InRange (mt.group 3)) ∧
    Everywhere (remains [dataPattern, data2Pattern, timePattern,
        temperaturePattern, fracPattern] s)
      percentagePattern (fun mt => InRange (mt.group 2))

instance (s : WString) : Decidable (NumbersInRange s) :=
  inferInstanceAs (Decidable (_ ∧ _ ∧ _))

theorem decides_temperature : Decides temperaturePattern temperatureText
    (fun mt => InRange (mt.group 2)) Error.out_of_range :=
  fun _ _ => temperatureText_reads

theorem decides_frac : Decides fracPattern fracText
    (fun mt => InRange (mt.group 2) ∧ InRange (mt.group 3)) Error.out_of_range :=
  fun _ _ => fracText_reads

theorem decides_percentage : Decides percentagePattern percentageText
    (fun mt => InRange (mt.group 2)) Error.out_of_range :=
  fun _ _ => percentageText_reads

/-- The three loops between the times and the telephone numbers. -/
def numberLoops (s : WString) : Except Error WString := do
  let s <- loop (rule temperaturePattern 0 temperatureText) () s
  let s <- loop (rule fracPattern 0 fracText) () s
  loop (rule percentagePattern 0 percentageText) () s

theorem numberLoops_eq {s s3 : WString}
    (hwoven : Woven Block
      (remains [dataPattern, data2Pattern, timePattern] s) s3) :
    (NumbersInRange s ∧ exists s', numberLoops s3 = Except.ok s') ∨
      (¬ NumbersInRange s ∧
        numberLoops s3 = Except.error Error.out_of_range) := by
  unfold numberLoops NumbersInRange
  by_cases htemp : Everywhere
      (remains [dataPattern, data2Pattern, timePattern] s)
      temperaturePattern (fun mt => InRange (mt.group 2))
  · rcases decides_temperature.loop_ok piecewise_temperature hwoven htemp with
      ⟨s4, hs4, hwoven4⟩
    rw [hs4]
    by_cases hfrac : Everywhere
        (remains [dataPattern, data2Pattern, timePattern, temperaturePattern] s)
        fracPattern (fun mt => InRange (mt.group 2) ∧ InRange (mt.group 3))
    · rcases decides_frac.loop_ok piecewise_frac hwoven4 hfrac with
        ⟨s5, hs5, hwoven5⟩
      simp only [bind, Except.bind, hs5]
      by_cases hpercent : Everywhere
          (remains [dataPattern, data2Pattern, timePattern, temperaturePattern,
            fracPattern] s)
          percentagePattern (fun mt => InRange (mt.group 2))
      · rcases decides_percentage.loop_ok piecewise_percentage hwoven5 hpercent
          with ⟨s6, hs6, _⟩
        exact Or.inl ⟨⟨htemp, hfrac, hpercent⟩, s6, hs6⟩
      · exact Or.inr ⟨fun h => hpercent h.2.2,
          decides_percentage.loop_error piecewise_percentage hwoven5 hpercent⟩
    · have herr := decides_frac.loop_error piecewise_frac hwoven4 hfrac
      refine Or.inr ⟨fun h => hfrac h.2.1, ?_⟩
      simp only [bind, Except.bind, herr]
  · have herr := decides_temperature.loop_error piecewise_temperature hwoven htemp
    rw [herr]
    exact Or.inr ⟨fun h => htemp h.1, rfl⟩

theorem computes_numberLoops (s : WString) :
    Computes Valid Valid (runLoops ((loops.take 6).drop 3) s) (numberLoops s) := by
  refine Computes.bind (refines_temperature.rewriteLoop s.length () s) ?_
    fun _ h => h
  intro s4 _
  refine Computes.bind (refines_frac.rewriteLoop s4.length () s4) ?_
    fun _ h => h
  intro s5 _
  have hlast : runLoops [⟨_, (), percentageRule⟩] s5 =
      Loop.run ⟨_, (), percentageRule⟩ s5 := by
    simp only [runLoops, bind_pure]
  change Computes Valid Valid (runLoops [⟨_, (), percentageRule⟩] s5) _
  rw [hlast]
  exact refines_percentage.rewriteLoop s5.length () s5

theorem computes_take_six {s s2 : WString} {r : Except Error WString}
    (hdates : Computes Valid Valid (runLoops (loops.take 2) s) (Except.ok s2))
    (h : Computes Valid Valid
      (Loop.run ⟨_, (), timeRule⟩ s2 >>= runLoops ((loops.take 6).drop 3)) r) :
    Computes Valid Valid (runLoops (loops.take 6) s) r := by
  have hsplit : loops.take 6 = loops.take 2 ++ ⟨_, (), timeRule⟩ ::
      (loops.take 6).drop 3 := rfl
  rw [hsplit, runLoops_append]
  exact Computes.bind_ok hdates h

/--
The rules before the telephone rules throw `out_of_range` unless a time without
seconds throws first or all the numbers they find fit an `int`.
-/
theorem runLoops_in_range (n : TextNormalizer) (hn : Reachable n) (s : WString) :
    (runLoops (loops.take 6) s n).1 ≠ Except.error Error.out_of_range ↔
      ¬ SecondsGiven s ∨ NumbersInRange s := by
  rcases dates_read s with ⟨s1, s2, hs1, hs2, hwoven⟩
  have hdates := computes_dates hs1 hs2
  have htime := refines_time.rewriteLoop s2.length () s2
  by_cases hgiven : SecondsGiven s
  · rcases decides_time.loop_ok piecewise_time hwoven hgiven with
      ⟨s3, hs3, hwoven3⟩
    unfold loop at hs3
    rw [hs3] at htime
    have hall := computes_take_six hdates
      (Computes.bind_ok htime (computes_numberLoops s3))
    rw [(hall n hn.valid).1]
    rcases numberLoops_eq hwoven3 with ⟨hyes, s', hs'⟩ | ⟨hno, herr⟩
    · rw [hs']
      exact ⟨fun _ => Or.inr hyes, fun _ h => by cases h⟩
    · rw [herr]
      simp [hgiven, hno]
  · have herr : loop (rule timePattern 0 timeText) () s2 =
        Except.error Error.invalid_argument :=
      decides_time.loop_error piecewise_time hwoven hgiven
    unfold loop at herr
    rw [herr] at htime
    have hall := computes_take_six hdates
      (Computes.bind_error htime fun _ h => h)
    rw [(hall n hn.valid).1]
    exact ⟨fun _ => Or.inl hgiven, fun _ h => by cases h⟩

theorem runLoops_in_range_percent :
    (runLoops (loops.take 6) (wstr "2147483647%") construct).1 ≠
      Except.error Error.out_of_range :=
  (runLoops_in_range construct Reachable.construct (wstr "2147483647%")).mpr
    (Or.inr (by decide +kernel))

/-- One more than the largest `int` is too much for the percentage rule. -/
theorem runLoops_out_of_range_percent :
    (runLoops (loops.take 6) (wstr "2147483648%") construct).1 =
        Except.error Error.out_of_range ∧
      (SentenceNormalize (wstr "2147483648%") construct).1 =
        Except.error Error.out_of_range := by
  decide +kernel

end TextNormalizer
end VoiceTts
