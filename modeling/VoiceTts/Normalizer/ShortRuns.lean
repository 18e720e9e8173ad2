import VoiceTts.Normalizer.Sentences

/-!
# Numbers behind the telephone rules

What the telephone rules leave behind has no digit from 1 to 9 with six further
digits behind it.  No later rule writes digits, so this stays so to the end, and
the numbers that the later rules read as a whole stay below a million.  The later
rules are given here once more with the number reader as a parameter: they do the
same with every reader that is right on such numbers.
-/

namespace VoiceTts
namespace TextNormalizer

open Reading Spoken Prog Regex

/-!
## Sentences with short runs
-/

/-- Fewer than six digits follow a digit from 1 to 9. -/
def ShortRuns (s : WString) : Prop :=
  forall c w, (c :: w) <:+: s -> 49 ≤ c.toNat -> c.toNat ≤ 57 ->
    (forall x, x ∈ w -> isDigit x = true) -> w.length < 6

/-- A digit from 1 to 9 with six further digits is a telephone number. -/
theorem phonePattern_takes {c : UInt32} {w : WString} (hlow : 49 ≤ c.toNat)
    (hhigh : c.toNat ≤ 57) (hw : forall x, x ∈ w -> isDigit x = true)
    (hlength : w.length = 6) (s : WString) : phonePattern.Takes (c :: w) s := by
  have hrange : (range '1' '9').Takes [c] ((w ++ []) ++ ([] ++ s)) := by
    apply takes_set
    rw [decide_eq_true_eq, UInt32.le_iff_toNat_le, UInt32.le_iff_toNat_le]
    exact ⟨hlow, hhigh⟩
  have hsix : (times 6 digit).Takes w ([] ++ ([] ++ s)) := by
    rw [← hlength]
    exact takes_times_set hw _
  have hnumber := (takes_opt (group 3 (cat (lit "0")
    [group 4 (anyOf (lit "10") [seq (lit "2") (range '1' '3'),
      seq (range '3' '9') (times 2 digit)]), opt (lit "-")])) _).seq
    (hrange.seq (hsix.seq (takes_opt digit ([] ++ s))))
  have hall : phonePattern.Takes _ s := (takes_opt (group 1 digit) _).seq
    ((hnumber.group 2).seq (takes_opt (group 5 digit) s))
  simpa using hall

/-- Where the telephone rule finds nothing, all runs are short. -/
theorem shortRuns_of_search {s : WString} (h : phonePattern.search s = none) :
    ShortRuns s := by
  intro c w hw hlow hhigh hdigits
  by_contra hlong
  rcases hw with ⟨u, v, hs⟩
  have hsix : (w.take 6).length = 6 := by
    rw [List.length_take]
    omega
  have htakes := phonePattern_takes hlow hhigh
    (fun x hx => hdigits x (List.mem_of_mem_take hx)) hsix (w.drop 6 ++ v)
  refine htakes.search_ne_none u ?_
  have hsplit : u ++ (c :: w.take 6 ++ (w.drop 6 ++ v)) = s := by
    rw [← hs, List.cons_append, ← List.append_assoc, List.take_append_drop]
    simp
  rw [hsplit]
  exact h

theorem infix_of_notMem {α : Type} {d a b : List α} {x : α} (h : d <:+: a ++ x :: b)
    (hx : x ∉ d) : d <:+: a ∨ d <:+: b := by
  rcases h with ⟨u, v, huv⟩
  rw [List.append_assoc] at huv
  rcases List.append_eq_append_iff.mp huv with ⟨e, ha, hdv⟩ | ⟨e, hu, hb⟩
  · rcases List.append_eq_append_iff.mp hdv with ⟨f, he, -⟩ | ⟨f, hd, hrest⟩
    · left
      rw [ha, he, ← List.append_assoc]
      exact ⟨u, f, rfl⟩
    · cases f with
      | nil =>
          left
          rw [ha, hd, List.append_nil]
          exact ⟨u, [], by simp⟩
      | cons y f =>
          injection hrest with hyx _
          refine absurd ?_ hx
          rw [hd, hyx]
          simp
  · cases e with
    | nil =>
        cases d with
        | nil => exact Or.inl (List.nil_infix)
        | cons y d =>
            injection hb with hxy _
            exact absurd (hxy ▸ List.mem_cons_self) hx
    | cons y e =>
        right
        injection hb with _ hb
        exact ⟨e, v, (List.append_assoc e d v).trans hb.symm⟩

theorem infix_behind {α : Type} {d p b : List α} (hp : forall x, x ∈ p -> x ∉ d)
    (h : d <:+: p ++ b) : d <:+: b := by
  induction p with
  | nil => exact h
  | cons x p ih =>
      rcases infix_of_notMem (a := []) h (hp x List.mem_cons_self) with hnil | hrest
      · rw [List.infix_nil] at hnil
        rw [hnil]
        exact List.nil_infix
      · exact ih (fun y hy => hp y (List.mem_cons_of_mem x hy)) hrest

/-- No effect lengthens a run of digits. -/
theorem ShortRuns.effect {s rep s' : WString} (h : Effect s rep s') (hs : ShortRuns s) :
    ShortRuns s' := by
  rcases h.splits with ⟨pre, old, post, rfl, rfl, -⟩
  intro c w hw hlow hhigh hdigits
  have hforeign : forall x, x ∈ rep -> x ∉ c :: w := by
    intro x hx hmem
    have hloud := h.audible x hx
    rcases List.mem_cons.mp hmem with rfl | hmem
    · omega
    · have := isDigit_iff.mp (hdigits x hmem)
      omega
  have hspoken := h.spoken
  have hsides : (c :: w) <:+: pre ∨ (c :: w) <:+: post := by
    cases rep with
    | nil => exact absurd rfl hspoken
    | cons x rep =>
        rw [List.append_assoc, List.cons_append] at hw
        refine (infix_of_notMem hw (hforeign x List.mem_cons_self)).imp_right ?_
        exact infix_behind fun y hy => hforeign y (List.mem_cons_of_mem x hy)
  have hwhole : (c :: w) <:+: pre ++ old ++ post := by
    rcases hsides with hpre | hpost
    · rw [List.append_assoc]
      exact List.infix_append_of_infix_left hpre
    · exact List.infix_append_of_infix_right hpost
  exact hs c w hwhole hlow hhigh hdigits

/-- A number in such a sentence is less than a million. -/
theorem ShortRuns.value_lt {s : WString} (hs : ShortRuns s) :
    forall {w : WString}, w <:+: s -> (forall c, c ∈ w -> isDigit c = true) ->
      value w < 1000000 := by
  intro w
  induction w with
  | nil =>
      intro _ _
      decide
  | cons c w ih =>
      intro hw hdigits
      have hrest : forall x, x ∈ w -> isDigit x = true := fun x hx =>
        hdigits x (List.mem_cons_of_mem c hx)
      have hc := isDigit_iff.mp (hdigits c List.mem_cons_self)
      by_cases hzero : c = 48
      · have hvalue : value (c :: w) = value w := by
          rw [hzero]
          simp [value, digitsValue, Utf8.narrow]
        rw [hvalue]
        exact ih ((List.suffix_cons c w).isInfix.trans hw) hrest
      · have hlow : 49 ≤ c.toNat := by
          have hne : c.toNat ≠ 48 := fun heq => hzero (UInt32.toNat_inj.mp heq)
          omega
        have hlength := hs c w hw hlow hc.2 hrest
        have hlt := digitsValue_lt (allDigits_narrow hdigits)
        rw [Utf8.length_narrow, List.length_cons] at hlt
        refine hlt.trans_le ?_
        exact Nat.pow_le_pow_right (by decide) hlength

/-!
## The later rules with any number reader
-/

section Reader

variable (create : CString -> Bool -> NormM CString)

/-- `MultiDigit2Text` with `create` in the place of `CreateTextValue`. -/
def MultiDigit2TextVia (num_str : CString) (alt_one use_zero : Bool) :
    NormM CString := do
  setOne alt_one
  let text <- create num_str use_zero
  shortenText text

def Digits2TextVia (num_str : CString) : NormM CString :=
  match Stringsplit num_str 46 with
  | [integer] => MultiDigit2TextVia create integer false true
  | [integer, decimal] => do
      let s := dropTrailingZeros decimal
      if integer = [] then do
        let fraction <- SingleDigit2Text s false
        pure (str "点" ++ fraction)
      else do
        let whole <- MultiDigit2TextVia create integer false true
        let fraction <- SingleDigit2Text s false
        pure (whole ++ str "点" ++ fraction)
  | _ => pure (str "The value does not conform to the numeric format")

def MultiDigit2TextWVia (num : WString) (alt_one use_zero : Bool) :
    NormM CString := do
  let num_str <- Prog.lift (wstring2utf8string num)
  MultiDigit2TextVia create num_str alt_one use_zero

def Digits2TextWVia (num : WString) : NormM CString := do
  let num_str <- Prog.lift (wstring2utf8string num)
  Digits2TextVia create num_str

def numberTextVia (n : Nat) (g : Nat -> WString) : NormM CString := do
  let number <- Digits2TextWVia create (if g (n + 4) ≠ [] then g (n + 4) else g (n + 1))
  pure (signText (g n) ++ number)

def rangeRuleVia : Rule NormM Unit UInt32 where
  pattern := rangePattern
  span := 0
  body := fun k g => do
    let first <- numberTextVia create 2 g
    let second <- numberTextVia create 9 g
    replacement k ((first ++ str "到") ++ second)

def intergerRuleVia : Rule NormM Unit UInt32 where
  pattern := intergerPattern
  span := 0
  body := fun k g => do
    let number <- MultiDigit2TextWVia create (g 2) false true
    replacement k (str "负" ++ number)

/-- `ReDecimalNum` and `ReNumber` differ in their patterns only. -/
def signedRuleVia (pattern : Regex UInt32) : Rule NormM Unit UInt32 where
  pattern := pattern
  span := 0
  body := fun k g => do
    let rep <- numberTextVia create 1 g
    replacement k rep

def positiveQuantifiersRuleVia : Rule NormM Unit UInt32 where
  pattern := positiveQuantifiersPattern
  span := 1
  body := fun k g => do
    let rep <- MultiDigit2TextWVia create (g 1) false true
    replacement k rep

/-- The rules behind `RePhone`, in order. -/
def laterRules : List (Rule NormM Unit UInt32) :=
  [rangeRuleVia create, intergerRuleVia create, signedRuleVia create decimalNumPattern,
    positiveQuantifiersRuleVia create, defalutNumRule, signedRuleVia create numberPattern]

end Reader

/-- A rule whose rounds hand nothing on. -/
def Loop.plain (rule : Rule NormM Unit UInt32) : Loop :=
  ⟨Unit, (), rule⟩

theorem laterRules_CreateTextValue :
    (laterRules CreateTextValue).map Loop.plain = loops.drop 8 :=
  rfl

/-- A string of digits, not empty, for a number less than a million. -/
structure Small (num_str : CString) : Prop where
  digits : AllDigits num_str
  nonempty : num_str ≠ []
  value : digitsValue num_str < 1000000

/-- The reader does what `CreateTextValue` does on such strings. -/
def RightOnSmall (create : CString -> Bool -> NormM CString) : Prop :=
  forall num_str use_zero, Small num_str ->
    create num_str use_zero = CreateTextValue num_str use_zero

section Small

variable {create : CString -> Bool -> NormM CString} {s : WString}

theorem ShortRuns.small (hs : ShortRuns s) {w : WString} (hw : w <:+: s)
    (hnumber : Number w) : Small (Utf8.narrow w) where
  digits := allDigits_narrow hnumber.digits
  nonempty := by
    simpa using hnumber.nonempty
  value := hs.value_lt hw hnumber.digits

theorem MultiDigit2TextVia_eq (hcreate : RightOnSmall create) {num_str : CString}
    (h : Small num_str) (alt_one use_zero : Bool) :
    MultiDigit2TextVia create num_str alt_one use_zero =
      MultiDigit2Text num_str alt_one use_zero := by
  rw [MultiDigit2TextVia, MultiDigit2Text, hcreate num_str use_zero h]

theorem MultiDigit2TextWVia_eq (hcreate : RightOnSmall create) (hs : ShortRuns s)
    {w : WString} (hw : w <:+: s) (hnumber : Number w) (alt_one use_zero : Bool) :
    MultiDigit2TextWVia create w alt_one use_zero =
      MultiDigit2TextW w alt_one use_zero := by
  rw [MultiDigit2TextWVia, MultiDigit2TextW,
    wstring2utf8string_ascii (ascii_of_digits hnumber.digits)]
  exact MultiDigit2TextVia_eq hcreate (hs.small hw hnumber) alt_one use_zero

theorem Digits2TextVia_whole (hcreate : RightOnSmall create) {i : CString}
    (h : Small i) : Digits2TextVia create i = Digits2Text i := by
  rw [Digits2TextVia, Digits2Text, Stringsplit_whole h.digits h.nonempty]
  exact MultiDigit2TextVia_eq hcreate h false true

theorem Digits2TextVia_point (hcreate : RightOnSmall create) {i f : CString}
    (hi : AllDigits i) (hf : AllDigits f) (hsmall : i ≠ [] -> Small i) :
    Digits2TextVia create (i ++ 46 :: f) = Digits2Text (i ++ 46 :: f) := by
  rw [Digits2TextVia, Digits2Text, Stringsplit_point hi hf]
  dsimp only
  split
  · rfl
  · rename_i hne
    rw [MultiDigit2TextVia_eq hcreate (hsmall hne)]

theorem Digits2TextWVia_eq (hcreate : RightOnSmall create) (hs : ShortRuns s)
    {w : WString} (hw : w <:+: s) (hnumber : Decimal w) :
    Digits2TextWVia create w = Digits2TextW w := by
  cases hnumber with
  | whole hnumber =>
      rw [Digits2TextWVia, Digits2TextW,
        wstring2utf8string_ascii (ascii_of_digits hnumber.digits)]
      exact Digits2TextVia_whole hcreate (hs.small hw hnumber)
  | @point i f hi hf =>
      have hpart : i <:+: s := (List.prefix_append i _).isInfix.trans hw
      rw [Digits2TextWVia, Digits2TextW,
        wstring2utf8string_ascii (ascii_of_decimal (Decimal.point hi hf)), narrow_point]
      refine Digits2TextVia_point hcreate (allDigits_narrow hi)
        (allDigits_narrow hf.digits) ?_
      intro hne
      exact hs.small hpart ⟨by simpa using hne, hi⟩

/-- The numbers of such a sentence fit an `int`. -/
theorem ShortRuns.inRange (hs : ShortRuns s) {w : WString} (hw : w <:+: s) :
    InRange w := by
  have hpart : integerPart w <:+: s := (List.takeWhile_prefix isDigit).isInfix.trans hw
  have hdigits : forall c, c ∈ integerPart w -> isDigit c = true := fun c hc =>
    List.mem_takeWhile_imp hc
  have hlt := hs.value_lt hpart hdigits
  unfold InRange
  omega

theorem numberTextVia_eq (hcreate : RightOnSmall create) (hs : ShortRuns s) {n : Nat}
    {t : WString} (ht : t <:+: s) {mt : Match UInt32}
    (h : Signed (n + 1) t mt.caps.texts) :
    numberTextVia create (n + 1) mt.group = numberText (n + 1) mt.group ∧
      exists cs, signedText (n + 1) mt.group = Except.ok cs := by
  rcases h.groups with ⟨sign, number, _, hnumber, htext, _, hchoice⟩
  have hpart : number <:+: s := by
    refine List.IsInfix.trans ?_ ht
    rw [htext]
    exact (List.suffix_append sign number).isInfix
  constructor
  · rw [numberTextVia, numberText, hchoice, Digits2TextWVia_eq hcreate hs hpart hnumber]
  · rcases decimalNumber_of_inRange hnumber (hs.inRange hpart) with ⟨cs, hcs⟩
    rw [signedText, hchoice, hcs]
    exact ⟨_, rfl⟩

end Small

/-!
## The later rules on sentences with short runs
-/

/--
Where all runs are short, the two rules have one body, which does not fail.
-/
structure Tame (other rule : Rule NormM Unit UInt32) : Prop where
  pattern : other.pattern = rule.pattern
  span : other.span = rule.span
  counterpart : exists rule' : Rule (Except Error) Unit UInt32,
    Rule.Refines Valid rule rule' ∧ Effective rule' ∧
      forall s mt, ShortRuns s -> rule'.pattern.search s = some mt ->
        other.body () mt.group = rule.body () mt.group ∧
          exists rep, rule'.body () mt.group = Except.ok ((), rep)

theorem Tame.run {other rule : Rule NormM Unit UInt32} (h : Tame other rule)
    {s : WString} {n : TextNormalizer} (hs : ShortRuns s) (hn : Valid n) :
    (Loop.plain other).run s n = (Loop.plain rule).run s n ∧
      exists s' n', (Loop.plain rule).run s n = (Except.ok s', n') ∧ ShortRuns s' ∧
        Valid n' := by
  rcases h.counterpart with ⟨rule', href, heffect, hbody⟩
  have hkeep : forall (k : Unit) (t : WString) (mt : Match UInt32) (k' : Unit)
      (rep : WString), ShortRuns t -> rule'.pattern.search t = some mt ->
      rule'.body k mt.group = Except.ok (k', rep) ->
      ShortRuns (rule'.replaced t mt rep) := fun k t mt k' rep ht hsearch hrep =>
    ht.effect (heffect k t mt k' rep hsearch hrep)
  constructor
  · exact href.rewriteLoop_congr hkeep h.pattern h.span
      (fun _ t mt ht hsearch => (hbody t mt ht hsearch).1) s.length () s n hs hn
  · have hround : forall (k : Unit) t mt, ShortRuns t ->
        rule'.pattern.search t = some mt -> exists k' rep,
          rule'.body k mt.group = Except.ok (k', rep) ∧
            ShortRuns (rule'.replaced t mt rep) := by
      intro k t mt ht hsearch
      rcases (hbody t mt ht hsearch).2 with ⟨rep, hrep⟩
      exact ⟨(), rep, hrep, hkeep () t mt () rep ht hsearch hrep⟩
    rcases Rule.rewriteLoop_ok hround s.length () s hs with ⟨s', hloop, hs'⟩
    rcases href.rewriteLoop s.length () s n hn with ⟨hresult, hvalid⟩
    rw [hloop] at hresult
    exact ⟨s', _, Prod.ext hresult rfl, hs', hvalid⟩

/-- A sequence of such loops gives a sentence, and the same one with both rules. -/
theorem runLoops_tame {others rules : List (Rule NormM Unit UInt32)}
    (h : List.Forall₂ Tame others rules) :
    forall {s : WString} {n : TextNormalizer}, ShortRuns s -> Valid n ->
      runLoops (others.map Loop.plain) s n = runLoops (rules.map Loop.plain) s n ∧
        exists s', (runLoops (rules.map Loop.plain) s n).1 = Except.ok s' := by
  induction h with
  | nil =>
      intro s n _ _
      exact ⟨rfl, s, rfl⟩
  | @cons other rule others rules hrule _ ih =>
      intro s n hs hn
      rcases hrule.run hs hn with ⟨hsame, s1, n1, hrun, hs1, hn1⟩
      have hleft : runLoops ((other :: others).map Loop.plain) s n =
          runLoops (others.map Loop.plain) s1 n1 :=
        bind_of_ok (hsame.trans hrun)
      have hright : runLoops ((rule :: rules).map Loop.plain) s n =
          runLoops (rules.map Loop.plain) s1 n1 :=
        bind_of_ok hrun
      rw [hleft, hright]
      exact ih hs1 hn1

section Rules

variable {create : CString -> Bool -> NormM CString}

theorem tame_range (hcreate : RightOnSmall create) :
    Tame (rangeRuleVia create) rangeRule := by
  refine ⟨rfl, rfl, _, refines_range, effective_range, ?_⟩
  intro s mt hs hsearch
  rcases range_shape hsearch with ⟨first, sep, second, _, htext, hfirst, hsecond⟩
  have hwhole : first ++ [sep] ++ second <:+: s := by
    rw [← htext]
    exact Match.text_infix hsearch
  have hpart : first <:+: s := by
    rw [List.append_assoc] at hwhole
    exact (List.prefix_append first _).isInfix.trans hwhole
  have hpart' : second <:+: s := (List.suffix_append _ second).isInfix.trans hwhole
  obtain ⟨hsame, cs, hcs⟩ := numberTextVia_eq hcreate hs hpart hfirst
  obtain ⟨hsame', ds, hds⟩ := numberTextVia_eq hcreate hs hpart' hsecond
  constructor
  · simp only [rangeRuleVia, rangeRule, hsame, hsame']
  · simp only [rule, rangeText, hcs, hds]
    exact ⟨_, rfl⟩

theorem whole_reads (hcreate : RightOnSmall create) {s : WString} (hs : ShortRuns s)
    {w : WString} (hw : w <:+: s) (hnumber : Number w) :
    MultiDigit2TextWVia create w false true = MultiDigit2TextW w false true ∧
      exists cs, number true w = Except.ok cs := by
  have hlt := hs.value_lt hw hnumber.digits
  exact ⟨MultiDigit2TextWVia_eq hcreate hs hw hnumber false true,
    number_of_le true hnumber.nonempty (by omega)⟩

theorem tame_interger (hcreate : RightOnSmall create) :
    Tame (intergerRuleVia create) intergerRule := by
  refine ⟨rfl, rfl, _, refines_interger, effective_interger, ?_⟩
  intro s mt hs hsearch
  rcases interger_shape hsearch with ⟨value, hvalue, htext, hgroup⟩
  have hpart : value <:+: s := by
    refine List.IsInfix.trans ?_ (Match.text_infix hsearch)
    rw [htext]
    exact (List.suffix_append _ value).isInfix
  obtain ⟨hsame, cs, hcs⟩ := whole_reads hcreate hs hpart hvalue
  constructor
  · simp only [intergerRuleVia, intergerRule, hgroup, hsame]
  · simp only [rule, intergerText, hgroup, hcs]
    exact ⟨_, rfl⟩

theorem tame_signed (hcreate : RightOnSmall create) {pattern : Regex UInt32}
    (hshape : forall s mt, pattern.search s = some mt ->
      Signed 1 mt.text mt.caps.texts) :
    Tame (signedRuleVia create pattern)
      ⟨pattern, 0, fun k g => do
        let rep <- numberText 1 g
        replacement k rep⟩ := by
  refine ⟨rfl, rfl, _, refines_signed hshape, effective_signed hshape, ?_⟩
  intro s mt hs hsearch
  obtain ⟨hsame, cs, hcs⟩ := numberTextVia_eq hcreate hs (Match.text_infix hsearch)
    (hshape s mt hsearch)
  constructor
  · simp only [signedRuleVia, hsame]
  · simp only [rule, hcs]
    exact ⟨_, rfl⟩

theorem tame_positiveQuantifiers (hcreate : RightOnSmall create) :
    Tame (positiveQuantifiersRuleVia create) positiveQuantifiersRule := by
  refine ⟨rfl, rfl, _, refines_positiveQuantifiers, effective_positiveQuantifiers, ?_⟩
  intro s mt hs hsearch
  rcases positiveQuantifiers_shape hsearch with ⟨value, rest, hvalue, htext, hgroup, -⟩
  have hpart : value <:+: s := by
    refine List.IsInfix.trans ?_ (Match.text_infix hsearch)
    rw [htext]
    exact (List.prefix_append value rest).isInfix
  obtain ⟨hsame, cs, hcs⟩ := whole_reads hcreate hs hpart hvalue
  constructor
  · simp only [positiveQuantifiersRuleVia, positiveQuantifiersRule, hgroup, hsame]
  · simp only [rule, quantityText, hgroup, hcs]
    exact ⟨_, rfl⟩

/-- Codes are said digit by digit, and no number reader is asked. -/
theorem tame_defalutNum : Tame defalutNumRule defalutNumRule :=
  ⟨rfl, rfl, _, refines_defalutNum, effective_defalutNum,
    fun _ _ _ _ => ⟨rfl, _, rfl⟩⟩

theorem tame_later (hcreate : RightOnSmall create) :
    List.Forall₂ Tame (laterRules create) (laterRules CreateTextValue) :=
  List.Forall₂.cons (tame_range hcreate)
    (List.Forall₂.cons (tame_interger hcreate)
      (List.Forall₂.cons (tame_signed hcreate fun _ _ => decimalNum_shape)
        (List.Forall₂.cons (tame_positiveQuantifiers hcreate)
          (List.Forall₂.cons tame_defalutNum
            (List.Forall₂.cons (tame_signed hcreate fun _ _ => number_shape)
              List.Forall₂.nil)))))

end Rules

/-- The telephone rule never fails, and it leaves short runs only. -/
theorem RePhone_ok {n : TextNormalizer} (hn : Valid n) (s : WString) :
    exists s' n', RePhone s n = (Except.ok s', n') ∧ Valid n' ∧ ShortRuns s' := by
  have hsound : Loop.Sound ⟨_, [], phoneRule⟩ := loops_sound (by simp [loops])
  rcases Loop.outcome hsound s with ⟨r, hr⟩
  have hround : forall k t mt, True -> (phone phonePattern).pattern.search t = some mt ->
      exists k' rep, (phone phonePattern).body k mt.group = Except.ok (k', rep) ∧ True :=
    fun _ _ _ _ _ => ⟨_, _, rfl, trivial⟩
  rcases Rule.rewriteLoop_ok hround s.length [] s trivial with ⟨s', hloop, -⟩
  have hrun := (refines_phone fun _ _ => phone_dialled).rewriteLoop s.length [] s n hn
  rw [hloop] at hrun
  have hresult : r = Except.ok s' := (hr.computes n hn).1.symm.trans hrun.1
  exact ⟨s', _, Prod.ext hrun.1 rfl, hrun.2, shortRuns_of_search (hr.done s' hresult)⟩

/--
Behind `RePhone` no run of digits is long, in no sentence that the later rules
come to.  They give a sentence, and the same one with every number reader that
does what `CreateTextValue` does on non-empty strings of digits for numbers less
than a million: they read no others.
-/
theorem RePhone_short_runs (n : TextNormalizer) (hn : Reachable n) (s : WString) :
    exists s' n', RePhone s n = (Except.ok s', n') ∧ ShortRuns s' ∧
      (forall i c, ComesTo (loops.drop 8) s' n' i c -> ShortRuns c.sentence) ∧
      (exists s2, (runLoops (loops.drop 8) s' n').1 = Except.ok s2) ∧
      forall create, RightOnSmall create ->
        runLoops ((laterRules create).map Loop.plain) s' n' =
          runLoops (loops.drop 8) s' n' := by
  rcases RePhone_ok hn.valid s with ⟨s', n', hrun, hvalid, hshort⟩
  have hkeep : forall t rep t', Effect t rep t' -> ShortRuns t -> ShortRuns t' :=
    fun _ _ _ heffect ht => ht.effect heffect
  refine ⟨s', n', hrun, hshort, ?_, ?_, ?_⟩
  · intro i c hc
    have hsound : forall l, l ∈ loops.drop 8 -> l.Sound := fun l hl =>
      loops_sound (List.mem_of_mem_drop hl)
    exact (hc.kept hsound hkeep hvalid hshort).2
  · rw [← laterRules_CreateTextValue]
    exact (runLoops_tame (tame_later fun _ _ _ => rfl) hshort hvalid).2
  · intro create hcreate
    rw [← laterRules_CreateTextValue]
    exact (runLoops_tame (tame_later hcreate) hshort hvalid).1

/-- A reader that throws on all other strings is never asked for one of them. -/
theorem RePhone_short_runs_flat :
    exists s' n', RePhone (wstr "23-8456789号3-45层") construct = (Except.ok s', n') ∧
      ShortRuns s' ∧
      runLoops ((laterRules fun num_str use_zero =>
          if num_str ≠ [] ∧ digitsValue num_str < 1000000 then
            CreateTextValue num_str use_zero
          else Prog.fail Error.invalid_argument).map Loop.plain) s' n' =
        runLoops (loops.drop 8) s' n' := by
  obtain ⟨s', n', hrun, hshort, -, -, hsame⟩ :=
    RePhone_short_runs construct Reachable.construct (wstr "23-8456789号3-45层")
  refine ⟨s', n', hrun, hshort, hsame _ ?_⟩
  intro num_str use_zero hsmall
  exact if_pos ⟨hsmall.nonempty, hsmall.value⟩

end TextNormalizer
end VoiceTts
