import VoiceTts.Normalizer.Faults

/-!
# Groups that took no part

Some groups of the patterns are optional: the month and the day of a date, the seconds of
a time, the fraction of a number, either form of a number with or without digits before
its point.  This module says for each rule what its groups are to say, each of them only if
it took part, and when the rules of the normaliser say just that.  They do but for the
seconds of a time.
-/

namespace VoiceTts
namespace Spoken

open TextNormalizer Reading Regex Prog

/-!
## What the groups of a match say
-/

/-- What a group says: nothing if it took no part. -/
def saidBy (group : Option WString) (text : WString -> Except Error (List Char)) :
    Except Error (List Char) :=
  match group with
  | none => pure []
  | some w => text w

/-- The text of a group that takes part in every match. -/
def taken (group : Option WString) : WString :=
  group.getD []

def dataSaid (g : Texts UInt32) : Except Error (List Char) := do
  let month <- saidBy (g 3) fun w => (number false w).map (· ++ ['月'])
  let day <- saidBy (g 5) fun w => (number false w).map (· ++ chars (taken (g 9)))
  pure (digits (taken (g 1)) ++ ['年'] ++ month ++ day)

def data2Said (g : Texts UInt32) : Except Error (List Char) := do
  let month <- number false (taken (g 3))
  let day <- number false (taken (g 4))
  pure (digits (taken (g 1)) ++ ['年'] ++ month ++ ['月'] ++ day ++ ['日'])

def timeSaid (g : Texts UInt32) : Except Error (List Char) := do
  let hour <- number false (taken (g 1))
  let minute <- number true (taken (g 2))
  let second <- saidBy (g 4) fun w => (number true w).map (zero w ++ · ++ ['秒'])
  pure (hour ++ ['点'] ++ zero (taken (g 2)) ++ minute ++ ['分'] ++ second)

/-- The point and the digits behind it, read one by one. -/
def pointText (fraction : WString) : List Char :=
  '点' :: spell false (dropTrailingZeros (Utf8.narrow fraction.tail))

/-- A number from the digits before its point and the group of its fraction. -/
def numberSaid (whole : WString) (fraction : Option WString) : Except Error (List Char) := do
  let whole <- number true whole
  let fraction <- saidBy fraction fun w => pure (pointText w)
  pure (whole ++ fraction)

/-- The digits of a number before its fraction. -/
def wholePart (number : WString) (fraction : Option WString) : WString :=
  number.take (number.length - (taken fraction).length)

def temperatureSaid (g : Texts UInt32) : Except Error (List Char) := do
  let value <- numberSaid (wholePart (taken (g 2)) (g 3)) (g 3)
  pure (sign (taken (g 1)) ++ value ++
    if taken (g 4) = wstr "摄氏度" then ['摄', '氏', '度'] else ['度'])

def fracSaid (g : Texts UInt32) : Except Error (List Char) := do
  let denominator <- number true (taken (g 3))
  let numerator <- number true (taken (g 2))
  pure (sign (taken (g 1)) ++ denominator ++ ['分', '之'] ++ numerator)

def percentageSaid (g : Texts UInt32) : Except Error (List Char) := do
  let value <- numberSaid (wholePart (taken (g 2)) (g 3)) (g 3)
  pure (sign (taken (g 1)) ++ ['百', '分', '之'] ++ value)

/--
A number in the groups counted from `n`.  One that starts with its point has neither a
sign nor digits before the point.
-/
def signedSaid (n : Nat) (g : Texts UInt32) : Except Error (List Char) :=
  match g (n + 4) with
  | some w => pure (pointText w)
  | none => do
      let value <- numberSaid (taken (g (n + 2))) (g (n + 3))
      pure (sign (taken (g n)) ++ value)

def rangeSaid (g : Texts UInt32) : Except Error (List Char) := do
  let first <- signedSaid 2 g
  let second <- signedSaid 9 g
  pure (first ++ ['到'] ++ second)

def intergerSaid (g : Texts UInt32) : Except Error (List Char) := do
  let value <- number true (taken (g 2))
  pure ('负' :: value)

def quantitySaid (g : Texts UInt32) : Except Error (List Char) :=
  number true (taken (g 1))

/-- The digits of all telephone numbers so far, one by one. -/
def phoneSaid (parts : List CString) (text : WString) : Except Error (List Char) :=
  pure ((parts ++ Stringsplit (Utf8.narrow text) 43).flatMap (spell true))

/-- What each of the fourteen rules is to say for a match. -/
def said : (i : Fin loops.length) -> (loops.get i).κ -> Match UInt32 ->
    Except Error (List Char)
  | ⟨0, _⟩, _, mt => dataSaid mt.caps.texts
  | ⟨1, _⟩, _, mt => data2Said mt.caps.texts
  | ⟨2, _⟩, _, mt => timeSaid mt.caps.texts
  | ⟨3, _⟩, _, mt => temperatureSaid mt.caps.texts
  | ⟨4, _⟩, _, mt => fracSaid mt.caps.texts
  | ⟨5, _⟩, _, mt => percentageSaid mt.caps.texts
  | ⟨6, _⟩, parts, mt => phoneSaid parts mt.text
  | ⟨7, _⟩, parts, mt => phoneSaid parts mt.text
  | ⟨8, _⟩, _, mt => rangeSaid mt.caps.texts
  | ⟨9, _⟩, _, mt => intergerSaid mt.caps.texts
  | ⟨10, _⟩, _, mt => signedSaid 1 mt.caps.texts
  | ⟨11, _⟩, _, mt => quantitySaid mt.caps.texts
  | ⟨12, _⟩, _, mt => pure (digits mt.text)
  | ⟨13, _⟩, _, mt => signedSaid 1 mt.caps.texts

/-!
## The rules and their groups
-/

theorem group_eq_taken (mt : Match UInt32) (n : Nat) :
    mt.group (n + 1) = taken (mt.caps.texts (n + 1)) :=
  Match.group_eq_texts mt n

/-- A group that takes no empty text is said if it took part, as the test of its text says. -/
theorem optional_eq_saidBy {group : Option WString} (hne : group ≠ some [])
    (text : WString -> Except Error (List Char)) :
    optional (taken group) (text (taken group)) = saidBy group text := by
  cases group with
  | none =>
      rfl
  | some w =>
      have hw : w ≠ [] := by
        rintro rfl
        exact hne rfl
      exact if_pos hw

section Matches

variable {s : WString} {mt : Match UInt32}

theorem dataText_eq (h : dataPattern.search s = some mt) :
    dataText mt.group = dataSaid mt.caps.texts := by
  rcases data_texts h with ⟨_, _, _, _, _, _, hmonth, hday⟩
  have hthree : mt.caps.texts 3 ≠ some [] := by
    rcases hmonth with ⟨_, hnone⟩ | ⟨m, hfield, hsome, _⟩
    · rw [hnone]
      exact (Option.some_ne_none []).symm
    · rw [hsome, ne_eq, Option.some.injEq]
      exact hfield.number.nonempty
  have hfive : mt.caps.texts 5 ≠ some [] := by
    rcases hday with ⟨_, hnone⟩ | ⟨d, _, hfield, _, hsome, _⟩
    · rw [hnone]
      exact (Option.some_ne_none []).symm
    · rw [hsome, ne_eq, Option.some.injEq]
      exact hfield.number.nonempty
  unfold dataText dataSaid
  simp only [group_eq_taken]
  rw [← optional_eq_saidBy hthree, ← optional_eq_saidBy hfive]

theorem data2Text_eq (mt : Match UInt32) :
    data2Text mt.group = data2Said mt.caps.texts := by
  unfold data2Text data2Said
  simp only [group_eq_taken]

/-- The seconds are read whether they took part or not. -/
theorem timeText_eq (h : (mt.caps 4).isSome = true) :
    timeText mt.group = timeSaid mt.caps.texts := by
  rcases Option.isSome_iff_exists.mp h with ⟨c, hc⟩
  have hfour : mt.caps.texts 4 = some c.text := by
    rw [Captures.texts, hc]
    rfl
  have hhour : mt.group 1 = taken (mt.caps.texts 1) := group_eq_taken mt 0
  have hminute : mt.group 2 = taken (mt.caps.texts 2) := group_eq_taken mt 1
  have hsecond : mt.group 4 = c.text := by
    rw [group_eq_taken, hfour]
    rfl
  unfold timeText timeSaid
  rw [hhour, hminute, hsecond, hfour, saidBy]
  cases number false (taken (mt.caps.texts 1)) with
  | error e =>
      rfl
  | ok hour =>
      cases number true (taken (mt.caps.texts 2)) with
      | error e =>
          rfl
      | ok minute =>
          cases number true c.text with
          | error e =>
              rfl
          | ok second =>
              simp [bind, Except.bind, Except.map, pure, Except.pure]

theorem wholePart_eq {i w : WString} {f : Option WString} (h : Fractional i w f) :
    wholePart w f = i := by
  unfold wholePart taken
  cases h with
  | whole hi =>
      simp
  | point hi hf =>
      simp

theorem decimalNumber_eq {i w : WString} {f : Option WString} (h : Fractional i w f) :
    decimalNumber w = numberSaid i f := by
  cases h with
  | whole hi =>
      rw [decimalNumber_whole hi, numberSaid]
      cases number true i with
      | error e =>
          rfl
      | ok cs =>
          simp [saidBy, bind, Except.bind, pure, Except.pure]
  | @point f hi hf =>
      rw [decimalNumber_point hi.digits hf, optional, if_pos hi.nonempty, numberSaid]
      cases number true i with
      | error e =>
          rfl
      | ok cs =>
          rfl

theorem temperatureText_eq (h : temperaturePattern.search s = some mt) :
    temperatureText mt.group = temperatureSaid mt.caps.texts := by
  rcases temperature_texts h with ⟨_, i, number', _, _, hnumber, _, _, _, hg2, _⟩
  unfold temperatureText temperatureSaid
  simp only [group_eq_taken, hg2, taken, Option.getD_some, wholePart_eq hnumber,
    decimalNumber_eq hnumber]
  rfl

theorem fracText_eq (mt : Match UInt32) :
    fracText mt.group = fracSaid mt.caps.texts := by
  unfold fracText fracSaid
  simp only [group_eq_taken]

theorem percentageText_eq (h : percentagePattern.search s = some mt) :
    percentageText mt.group = percentageSaid mt.caps.texts := by
  rcases percentage_texts h with ⟨_, i, number', _, hnumber, _, _, hg2⟩
  unfold percentageText percentageSaid
  simp only [group_eq_taken, hg2, taken, Option.getD_some, wholePart_eq hnumber,
    decimalNumber_eq hnumber]

/-- Neither form of a number reads the groups of the other one. -/
theorem signedText_eq {n : Nat} {t : WString} (h : Branches (n + 1) t mt.caps.texts) :
    signedText (n + 1) mt.group = signedSaid (n + 1) mt.caps.texts := by
  unfold signedText signedSaid
  rcases h with ⟨sign', i, w, _, hw, _, hsign, hnumber, hwhole, hpoint⟩ |
    ⟨f, hf, _, hsign, hpoint⟩
  · have hfour : mt.group (n + 1 + 4) = [] := by
      rw [Match.group_eq_texts mt (n + 4), hpoint]
      rfl
    have hone : mt.group (n + 1 + 1) = w := by
      rw [Match.group_eq_texts mt (n + 1), hnumber]
      rfl
    rw [hpoint, hwhole, if_neg (not_not.mpr hfour), hone, decimalNumber_eq hw, group_eq_taken]
    rfl
  · have hfour : mt.group (n + 1 + 4) = 46 :: f := by
      rw [Match.group_eq_texts mt (n + 4), hpoint]
      rfl
    have hnil : mt.group (n + 1) = [] := by
      rw [Match.group_eq_texts, hsign]
      rfl
    have hread : decimalNumber (46 :: f) = Except.ok (pointText (46 :: f)) :=
      decimalNumber_point (i := []) (by simp) hf
    rw [hpoint, hfour, if_pos (List.cons_ne_nil 46 f), hread, hnil]
    rfl

theorem rangeText_eq (h : rangePattern.search s = some mt) :
    rangeText mt.group = rangeSaid mt.caps.texts := by
  rcases range_texts h with ⟨_, _, _, _, _, hfirst, hsecond⟩
  unfold rangeText rangeSaid
  rw [signedText_eq hfirst, signedText_eq hsecond]

theorem intergerText_eq (mt : Match UInt32) :
    intergerText mt.group = intergerSaid mt.caps.texts := by
  unfold intergerText intergerSaid
  simp only [group_eq_taken]

theorem quantityText_eq (mt : Match UInt32) :
    quantityText mt.group = quantitySaid mt.caps.texts := by
  unfold quantityText quantitySaid
  rw [group_eq_taken]

end Matches

/-!
## Whole runs
-/

theorem body_eq {concrete : Rule NormM Unit UInt32} {pattern : Regex UInt32} {span : Nat}
    {text : (Nat -> WString) -> Except Error (List Char)}
    (href : Rule.Refines Valid concrete (rule pattern span text))
    {s : WString} {mt : Match UInt32} {cs : Except Error (List Char)} {k : Unit}
    {n : TextNormalizer} (hn : Valid n) (hsearch : concrete.pattern.search s = some mt)
    (htext : text mt.group = cs) :
    (concrete.body k mt.group n).1.map Prod.snd = cs.map Utf8.units := by
  rw [href.pattern] at hsearch
  have hbody := congrArg (Except.map Prod.snd) (href.body k s mt hsearch n hn).1
  simp only [rule, htext] at hbody
  refine hbody.trans ?_
  cases cs with
  | error e =>
      rfl
  | ok cs =>
      rfl

theorem phoneBody_eq {pattern : Regex UInt32}
    (hdialled : forall s mt, pattern.search s = some mt ->
      forall c, c ∈ mt.text -> IsDialled c)
    {s : WString} {mt : Match UInt32} {parts : List CString} {n : TextNormalizer}
    (hn : Valid n) (hsearch : pattern.search s = some mt) :
    (phoneBody parts mt.group n).1.map Prod.snd =
      (phoneSaid parts mt.text).map Utf8.units := by
  have hbody := ((refines_phone hdialled).body parts s mt hsearch n hn).1
  exact congrArg (Except.map Prod.snd) hbody

/-- Every rule says what its groups are to say, a time if its seconds took part. -/
theorem body_said (i : Fin loops.length)
    {c : Rule.Config TextNormalizer (loops.get i).κ UInt32} {mt : Match UInt32}
    (hc : Valid c.state)
    (hsearch : (loops.get i).rule.pattern.search c.sentence = some mt)
    (hseconds : i.val = 2 -> (mt.caps 4).isSome = true) :
    ((loops.get i).rule.body c.carried mt.group c.state).1.map Prod.snd =
      (said i c.carried mt).map Utf8.units := by
  match i with
  | ⟨0, _⟩ => exact body_eq refines_data hc hsearch (dataText_eq hsearch)
  | ⟨1, _⟩ => exact body_eq refines_data2 hc hsearch (data2Text_eq mt)
  | ⟨2, _⟩ => exact body_eq refines_time hc hsearch (timeText_eq (hseconds rfl))
  | ⟨3, _⟩ => exact body_eq refines_temperature hc hsearch (temperatureText_eq hsearch)
  | ⟨4, _⟩ => exact body_eq refines_frac hc hsearch (fracText_eq mt)
  | ⟨5, _⟩ => exact body_eq refines_percentage hc hsearch (percentageText_eq hsearch)
  | ⟨6, _⟩ => exact phoneBody_eq (fun _ _ => mobilePhone_dialled) hc hsearch
  | ⟨7, _⟩ => exact phoneBody_eq (fun _ _ => phone_dialled) hc hsearch
  | ⟨8, _⟩ => exact body_eq refines_range hc hsearch (rangeText_eq hsearch)
  | ⟨9, _⟩ => exact body_eq refines_interger hc hsearch (intergerText_eq mt)
  | ⟨10, _⟩ =>
      exact body_eq (refines_signed fun _ _ => decimalNum_shape) hc hsearch
        (signedText_eq (decimalNum_texts hsearch))
  | ⟨11, _⟩ => exact body_eq refines_positiveQuantifiers hc hsearch (quantityText_eq mt)
  | ⟨12, _⟩ => exact body_eq refines_defalutNum hc hsearch rfl
  | ⟨13, _⟩ =>
      exact body_eq (refines_signed fun _ _ => number_shape) hc hsearch
        (signedText_eq (number_texts hsearch))

section Runs

variable {n : TextNormalizer} {s : WString} {i : Fin loops.length}
  {c : Rule.Config TextNormalizer (loops.get i).κ UInt32} {mt : Match UInt32}

theorem valid_of_comesTo (hn : Valid n) (h : ComesTo loops s n i c) : Valid c.state :=
  (h.kept (P := fun _ => True) (fun _ hl => loops_sound hl) (fun _ _ _ _ _ => trivial)
    hn trivial).1

/-- What a rule throws on a match that the run comes to is thrown by the whole run. -/
theorem throws_of_comesTo (hn : Valid n) (h : ComesTo loops s n i c)
    (hsearch : (loops.get i).rule.pattern.search c.sentence = some mt) {e : Error}
    (hbody : ((loops.get i).rule.body c.carried mt.group c.state).1 = Except.error e) :
    (SentenceNormalize s n).1 = Except.error e := by
  rcases h with ⟨s', n', hrun, hreach⟩
  rcases runLoops_outcome (loops.take i)
    (fun l hl => loops_sound (List.mem_of_mem_take hl)) s with ⟨r, hr⟩
  have hvalid := (hr.computes n hn).2
  rw [hrun] at hvalid
  have hstop := hreach.ends (Rule.Ends.stop hsearch (Prod.ext hbody rfl))
  have hloop := hstop.unique
    (Loop.ends (loops_sound (List.get_mem loops i)) hvalid s')
  have hsplit : loops = loops.take i ++ loops.get i :: loops.drop (i + 1) := by
    rw [List.get_eq_getElem, ← List.drop_eq_getElem_cons i.isLt, List.take_append_drop]
  rw [SentenceNormalize_eq_runLoops, hsplit, runLoops_append, bind_of_ok hrun, runLoops,
    bind_of_error hloop.symm]

/-- Every match that a run comes to is said from the groups that took part. -/
structure ReadsParticipating (n : TextNormalizer) (s : WString) : Prop where
  spoken : forall i c mt, ComesTo loops s n i c ->
    (loops.get i).rule.pattern.search c.sentence = some mt ->
    ((loops.get i).rule.body c.carried mt.group c.state).1.map Prod.snd =
      (said i c.carried mt).map Utf8.units
  reads : (SentenceNormalize s n).1 ≠ Except.error Error.invalid_argument

theorem seconds_of_comesTo (hn : Valid n) (h : ComesTo loops s n i c) (hi : i.val = 2)
    (hsearch : (loops.get i).rule.pattern.search c.sentence = some mt)
    (hreads : (SentenceNormalize s n).1 ≠ Except.error Error.invalid_argument) :
    (mt.caps 4).isSome = true := by
  have htwo : i = ⟨2, by decide⟩ := Fin.ext hi
  subst htwo
  rcases timeText_reads hsearch with ⟨hsome, -⟩ | ⟨-, herror⟩
  · exact hsome
  · refine absurd (throws_of_comesTo hn h hsearch ?_) hreads
    have hbody := (refines_time.body c.carried c.sentence mt hsearch c.state
      (valid_of_comesTo hn h)).1
    simp only [rule, herror] at hbody
    exact hbody

end Runs

/--
In a run of the normaliser a group that took no part says nothing and is read by no
number reader, in every rule and at every match, exactly when all times outside of the
dates are written with seconds.
-/
theorem SentenceNormalize_optional_groups (n : TextNormalizer) (hn : Reachable n)
    (s : WString) : ReadsParticipating n s ↔ SecondsGiven s := by
  rw [← invalid_argument_iff hn.valid s]
  constructor
  · intro h
    exact h.reads
  · intro hreads
    refine ⟨?_, hreads⟩
    intro i c mt hcomes hsearch
    exact body_said i (valid_of_comesTo hn.valid hcomes) hsearch
      fun hi => seconds_of_comesTo hn.valid hcomes hi hsearch hreads

/-- A date without its day, and a time with seconds. -/
theorem SentenceNormalize_optional_groups_full :
    ReadsParticipating construct (wstr "2021年8月09:05:02") :=
  (SentenceNormalize_optional_groups construct Reachable.construct
    (wstr "2021年8月09:05:02")).mpr (by decide +kernel)

/-- A time without seconds is not read as hour and minute: it throws. -/
theorem SentenceNormalize_half_past_twelve :
    (SentenceNormalize (wstr "12:30") construct).1 =
        Except.error Error.invalid_argument ∧
      ((timePattern.search (wstr "12:30")).map fun mt => timeSaid mt.caps.texts) =
        some (Except.ok "十二点三十零分".toList) ∧
      ¬ ReadsParticipating construct (wstr "12:30") := by
  have hresult : (SentenceNormalize (wstr "12:30") construct).1 =
      Except.error Error.invalid_argument := by
    decide +kernel
  exact ⟨hresult, by decide +kernel, fun h => h.reads hresult⟩

end Spoken
end VoiceTts
