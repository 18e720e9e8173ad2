import VoiceTts.Normalizer.Rounds

/-!
# Whole runs of the normaliser

The loops of the normaliser all end, because each round lowers the number of
digits in the sentence.  A sentence that comes back has no digit left, and all of
its ordinary text is still there.
-/

namespace VoiceTts
namespace TextNormalizer

open Reading Spoken Prog

/-- A rule together with what its loop starts with. -/
structure Loop where
  κ : Type
  start : κ
  rule : Rule NormM κ UInt32

def Loop.run (l : Loop) (sentence : WString) : NormM WString :=
  replaceAll l.rule l.start sentence

/-- The loops of `SentenceNormalize`, in order. -/
def loops : List Loop :=
  [⟨_, (), dataRule⟩, ⟨_, (), data2Rule⟩, ⟨_, (), timeRule⟩,
    ⟨_, (), temperatureRule⟩, ⟨_, (), fracRule⟩, ⟨_, (), percentageRule⟩,
    ⟨_, [], mobilePhoneRule⟩, ⟨_, [], phoneRule⟩, ⟨_, (), rangeRule⟩,
    ⟨_, (), intergerRule⟩, ⟨_, (), decimalNumRule⟩,
    ⟨_, (), positiveQuantifiersRule⟩, ⟨_, (), defalutNumRule⟩,
    ⟨_, (), numberRule⟩]

def runLoops : List Loop -> WString -> NormM WString
  | [], sentence => pure sentence
  | l :: ls, sentence => do
      let sentence <- l.run sentence
      runLoops ls sentence

theorem SentenceNormalize_eq_runLoops (sentence : WString) :
    SentenceNormalize sentence = runLoops loops sentence := by
  simp only [loops, runLoops, bind_pure]
  rfl

theorem runLoops_append (ls ls' : List Loop) (sentence : WString) :
    runLoops (ls ++ ls') sentence = runLoops ls sentence >>= runLoops ls' := by
  induction ls generalizing sentence with
  | nil =>
      rfl
  | cons l ls ih =>
      simp only [List.cons_append, runLoops, bind_assoc, ih]

/-!
## The states of a normaliser
-/

/-- The calls that other code can make on a normaliser. -/
inductive Call where
  | createTextValue (num_str : CString) (use_zero : Bool)
  | singleDigit2Text (num_str : CString) (alt_one : Bool)
  | multiDigit2Text (num_str : CString) (alt_one use_zero : Bool)
  | digits2Text (num_str : CString)
  | re (i : Fin loops.length) (sentence : WString)
  | sentenceNormalize (sentence : WString)

/-- The state that a call leaves, whether it returns or throws. -/
def Call.exec (n : TextNormalizer) : Call -> TextNormalizer
  | createTextValue num_str use_zero => (CreateTextValue num_str use_zero n).2
  | singleDigit2Text num_str alt_one => (SingleDigit2Text num_str alt_one n).2
  | multiDigit2Text num_str alt_one use_zero =>
      (MultiDigit2Text num_str alt_one use_zero n).2
  | digits2Text num_str => (Digits2Text num_str n).2
  | re i sentence => ((loops.get i).run sentence n).2
  | sentenceNormalize sentence => (SentenceNormalize sentence n).2

/-- The states that any sequence of calls leads to. -/
inductive Reachable : TextNormalizer -> Prop where
  | construct : Reachable construct
  | call {n} : Reachable n -> (c : Call) -> Reachable (c.exec n)

/-!
## One loop
-/

/-- The digits left in a sentence. -/
def digitCount (s : WString) : Nat :=
  s.countP isDigit

def DigitFree (s : WString) : Prop :=
  forall c, c ∈ s -> isDigit c = false

theorem digitCount_eq_zero {s : WString} : digitCount s = 0 ↔ DigitFree s := by
  simp [digitCount, DigitFree, List.countP_eq_zero]

theorem digitFree_of_audible {s : WString} (h : forall c, c ∈ s -> 128 ≤ c.toNat) :
    DigitFree s := by
  intro c hc
  have := h c hc
  simp only [isDigit, decide_eq_false_iff_not]
  omega

/-- A run of digits between texts without digits ends where a digit meets another symbol. -/
theorem digits_end {p d v w : WString} {c x : UInt32} {u t : WString} (hp : DigitFree p)
    (hd : forall c, c ∈ d -> isDigit c = true) (hv : DigitFree v)
    (h : w ++ x :: t = p ++ d ++ v) (hw : w = u ++ [c]) (hc : isDigit c = true)
    (hx : isDigit x = false) : x :: t = v := by
  have hlast : c ∈ w := by
    rw [hw]
    exact List.mem_append_right u (List.mem_singleton_self c)
  rcases List.append_eq_append_iff.mp h with ⟨a, hpd, hxt⟩ | ⟨a, hwa, hva⟩
  · cases a with
    | nil => exact hxt
    | cons y a =>
        have hyx : x = y := (List.cons.inj hxt).1
        subst hyx
        have hnot : x ∉ d := by
          intro hmem
          rw [hd x hmem] at hx
          cases hx
        rw [hw, List.append_assoc] at hpd
        rcases List.append_eq_append_iff.mp hpd with ⟨b, hub, hdb⟩ | ⟨b, hpb, hdb⟩
        · refine absurd ?_ hnot
          rw [hdb]
          simp
        · cases b with
          | nil =>
              refine absurd ?_ hnot
              rw [List.nil_append] at hdb
              rw [← hdb]
              simp
          | cons z b =>
              have hcz : c = z := (List.cons.inj hdb).1
              have hmem : c ∈ p := by
                rw [hpb, ← hcz]
                simp
              rw [hp c hmem] at hc
              cases hc
  · cases a with
    | nil => exact hva.symm
    | cons y a =>
        have hmem : c ∈ v := by
          have hsuffix : u ++ [c] = p ++ d ++ (y :: a) := hw ▸ hwa
          have hlast' := congrArg List.getLast? hsuffix
          rw [List.getLast?_concat, List.getLast?_append_cons] at hlast'
          rw [hva]
          exact List.mem_append_left _ (List.mem_of_getLast? hlast'.symm)
        rw [hv c hmem] at hc
        cases hc

theorem Effect.digitCount_lt {s rep s' : WString} (h : Effect s rep s') :
    digitCount s' < digitCount s := by
  rcases h.splits with ⟨pre, old, post, rfl, rfl, ⟨c, hc, hdigit⟩, _⟩
  have hrep : digitCount rep = 0 :=
    digitCount_eq_zero.mpr (digitFree_of_audible h.audible)
  have hold : 0 < digitCount old := List.countP_pos_iff.mpr ⟨c, hc, hdigit⟩
  simp only [digitCount, List.countP_append] at hrep hold ⊢
  omega

theorem Effect.ordinaryText_sublist {s rep s' : WString} (h : Effect s rep s') :
    (ordinaryText s).Sublist (ordinaryText s') := by
  rcases h.splits with ⟨pre, old, post, rfl, rfl, _, hkept⟩
  have hold : (ordinaryText old).Sublist (ordinaryText rep) := by
    have hfilter := hkept.filter ordinary
    simpa [ordinaryText] using hfilter
  rw [ordinaryText_append, ordinaryText_append, ordinaryText_append,
    ordinaryText_append]
  exact ((List.Sublist.refl _).append hold).append (List.Sublist.refl _)

/-- The loop has a stateless counterpart whose rounds all have the effect. -/
def Loop.Sound (l : Loop) : Prop :=
  exists rule' : Rule (Except Error) l.κ UInt32,
    Rule.Refines Valid l.rule rule' ∧ Effective rule' ∧
      rule'.pattern.Must fun c => isDigit c = true

theorem search_digitFree {r : Regex UInt32}
    (hmust : r.Must fun c => isDigit c = true) {s : WString} (h : DigitFree s) :
    r.search s = none :=
  Match.search_none_of_must hmust fun c hc hdigit => absurd (h c hc) (by simp [hdigit])

theorem digitCount_pos_of_search {r : Regex UInt32}
    (hmust : r.Must fun c => isDigit c = true) {s : WString} {mt : Match UInt32}
    (hsearch : r.search s = some mt) : 0 < digitCount s := by
  by_contra hzero
  have hfree : DigitFree s := digitCount_eq_zero.mp (by omega)
  rw [search_digitFree hmust hfree] at hsearch
  cases hsearch

/-- The loop ends after at most as many rounds as the sentence has digits. -/
theorem Loop.ends {l : Loop} (h : l.Sound) {n : TextNormalizer} (hn : Valid n)
    (s : WString) : l.rule.Ends l.start s n (l.run s n) := by
  rcases h with ⟨rule', href, heffect, hmust⟩
  refine href.ends digitCount ?_ ?_ s.length l.start s n hn
    List.countP_le_length
  · intro k s mt k' rep hsearch hbody
    exact Effect.digitCount_lt (heffect k s mt k' rep hsearch hbody)
  · intro s mt hsearch
    exact digitCount_pos_of_search hmust hsearch

/-- A stateless loop, executed. -/
def loop {κ : Type} (rule : Rule (Except Error) κ UInt32) (k : κ) (s : WString) :
    Except Error WString :=
  rule.rewriteLoop s.length k s

theorem runs_loop {κ : Type} {rule : Rule (Except Error) κ UInt32}
    (heffect : Effective rule)
    (hmust : rule.pattern.Must fun c => isDigit c = true) (k : κ) (s : WString) :
    Rule.Runs rule k s (loop rule k s) := by
  refine Rule.runs_rewriteLoop digitCount ?_ ?_ s.length k s
    List.countP_le_length
  · intro k s mt k' rep hsearch hbody
    exact Effect.digitCount_lt (heffect k s mt k' rep hsearch hbody)
  · intro s mt hsearch
    exact digitCount_pos_of_search hmust hsearch

theorem loop_of_runs {κ : Type} {rule : Rule (Except Error) κ UInt32}
    (heffect : Effective rule) (hmust : rule.pattern.Must fun c => isDigit c = true)
    {k : κ} {s : WString} {r : Except Error WString} (h : Rule.Runs rule k s r) :
    loop rule k s = r :=
  (runs_loop heffect hmust k s).unique h

/-- The loop of the program ends as its stateless counterpart does. -/
theorem replaceAll_of_runs {κ : Type} {rule : Rule NormM κ UInt32}
    {rule' : Rule (Except Error) κ UInt32} (href : Rule.Refines Valid rule rule')
    (heffect : Effective rule') (hmust : rule'.pattern.Must fun c => isDigit c = true)
    {k : κ} {s : WString} {r : Except Error WString} {n : TextNormalizer} (hn : Valid n)
    (h : Rule.Runs rule' k s r) : (replaceAll rule k s n).1 = r := by
  rw [← loop_of_runs heffect hmust h]
  exact (href.rewriteLoop s.length k s n hn).1

/-- What a loop makes of a sentence, from every valid state. -/
structure Loop.Outcome (l : Loop) (s : WString) (r : Except Error WString) :
    Prop where
  computes : Computes Valid Valid (l.run s) r
  kept : forall P : WString -> Prop,
    (forall t rep t', Effect t rep t' -> P t -> P t') -> P s ->
    forall s', r = Except.ok s' -> P s'
  done : forall s', r = Except.ok s' -> l.rule.pattern.search s' = none
  same : DigitFree s -> r = Except.ok s

theorem Loop.outcome {l : Loop} (h : l.Sound) (s : WString) :
    exists r, l.Outcome s r := by
  rcases h with ⟨rule', href, heffect, hmust⟩
  have hruns := runs_loop heffect hmust l.start s
  refine ⟨loop rule' l.start s, href.rewriteLoop s.length l.start s, ?_, ?_, ?_⟩
  · intro P hP hs s' hr
    rw [hr] at hruns
    refine hruns.invariant P ?_ hs
    intro k t mt k' rep ht hsearch hbody
    exact hP t rep _ (heffect k t mt k' rep hsearch hbody) ht
  · intro s' hr
    rw [hr] at hruns
    rw [href.pattern]
    exact hruns.search_none
  · intro hfree
    exact hruns.unique (Rule.Runs.done (search_digitFree hmust hfree))

/-!
## The fourteen loops
-/

theorem must_number_alternatives (n : Nat) :
    (numberAlternatives n).Must fun c => isDigit c = true :=
  ⟨Or.inr (Or.inl (Or.inl fun _ h => h)), Or.inr (Or.inl fun _ h => h)⟩

theorem must_data : dataPattern.Must fun c => isDigit c = true :=
  Or.inl ⟨Or.inl fun _ h => h, Or.inl fun _ h => h⟩

theorem must_data2 : data2Pattern.Must fun c => isDigit c = true :=
  Or.inl (Or.inl fun _ h => h)

theorem must_time : timePattern.Must fun c => isDigit c = true :=
  Or.inl ⟨Or.inr (flat_range (by decide) (by decide)),
    Or.inr (flat_range (by decide) (by decide))⟩

theorem must_temperature : temperaturePattern.Must fun c => isDigit c = true :=
  Or.inr (Or.inl (Or.inl (Or.inl fun _ h => h)))

theorem must_frac : fracPattern.Must fun c => isDigit c = true :=
  Or.inr (Or.inl (Or.inl fun _ h => h))

theorem must_percentage : percentagePattern.Must fun c => isDigit c = true :=
  Or.inr (Or.inl (Or.inl (Or.inl fun _ h => h)))

theorem must_mobilePhone :
    mobilePhonePattern.Must fun c => isDigit c = true := by
  refine Or.inr (Or.inl (Or.inr (Or.inl ?_)))
  intro c hc
  rw [of_decide_eq_true hc]
  decide

theorem must_phone : phonePattern.Must fun c => isDigit c = true :=
  Or.inr (Or.inl (Or.inr (Or.inl (flat_range (by decide) (by decide)))))

theorem must_range : rangePattern.Must fun c => isDigit c = true :=
  Or.inl (must_number_alternatives 2)

theorem must_interger : intergerPattern.Must fun c => isDigit c = true :=
  Or.inr (Or.inl fun _ h => h)

theorem must_decimalNum : decimalNumPattern.Must fun c => isDigit c = true :=
  ⟨Or.inr (Or.inl (Or.inl fun _ h => h)), Or.inr (Or.inl fun _ h => h)⟩

theorem must_positiveQuantifiers :
    positiveQuantifiersPattern.Must fun c => isDigit c = true :=
  Or.inl (Or.inl fun _ h => h)

theorem must_defalutNum : defalutNumPattern.Must fun c => isDigit c = true :=
  Or.inl (Or.inl fun _ h => h)

theorem must_number : numberPattern.Must fun c => isDigit c = true :=
  must_number_alternatives 1

theorem loops_sound {l : Loop} (hl : l ∈ loops) : l.Sound := by
  simp only [loops, List.mem_cons, List.not_mem_nil, or_false] at hl
  rcases hl with rfl | rfl | rfl | rfl | rfl | rfl | rfl | rfl | rfl | rfl | rfl |
    rfl | rfl | rfl
  · exact ⟨_, refines_data, effective_data, must_data⟩
  · exact ⟨_, refines_data2, effective_data2, must_data2⟩
  · exact ⟨_, refines_time, effective_time, must_time⟩
  · exact ⟨_, refines_temperature, effective_temperature, must_temperature⟩
  · exact ⟨_, refines_frac, effective_frac, must_frac⟩
  · exact ⟨_, refines_percentage, effective_percentage, must_percentage⟩
  · exact ⟨_, refines_phone fun _ _ => mobilePhone_dialled,
      effective_phone (fun _ _ => mobilePhone_dialled) must_mobilePhone,
      must_mobilePhone⟩
  · exact ⟨_, refines_phone fun _ _ => phone_dialled,
      effective_phone (fun _ _ => phone_dialled) must_phone, must_phone⟩
  · exact ⟨_, refines_range, effective_range, must_range⟩
  · exact ⟨_, refines_interger, effective_interger, must_interger⟩
  · exact ⟨_, refines_signed fun _ _ => decimalNum_shape,
      effective_signed fun _ _ => decimalNum_shape, must_decimalNum⟩
  · exact ⟨_, refines_positiveQuantifiers, effective_positiveQuantifiers,
      must_positiveQuantifiers⟩
  · exact ⟨_, refines_defalutNum, effective_defalutNum, must_defalutNum⟩
  · exact ⟨_, refines_signed fun _ _ => number_shape,
      effective_signed fun _ _ => number_shape, must_number⟩

/-!
## Sequences of loops
-/

structure RunOutcome (ls : List Loop) (s : WString) (r : Except Error WString) :
    Prop where
  computes : Computes Valid Valid (runLoops ls s) r
  kept : forall P : WString -> Prop,
    (forall t rep t', Effect t rep t' -> P t -> P t') -> P s ->
    forall s', r = Except.ok s' -> P s'
  same : DigitFree s -> r = Except.ok s

theorem runLoops_outcome (ls : List Loop) (h : forall l, l ∈ ls -> l.Sound)
    (s : WString) : exists r, RunOutcome ls s r := by
  induction ls generalizing s with
  | nil =>
      refine ⟨Except.ok s, computes_pure s, ?_, fun _ => rfl⟩
      intro P _ hs s' hr
      cases hr
      exact hs
  | cons l ls ih =>
      rcases Loop.outcome (h l (by simp)) s with ⟨r, hr⟩
      cases r with
      | error e =>
          refine ⟨Except.error e,
            Computes.bind_error hr.computes fun _ h => h, ?_, ?_⟩
          · intro P _ _ s' hs
            cases hs
          · exact hr.same
      | ok s1 =>
          rcases ih (fun l' hl' => h l' (List.mem_cons_of_mem l hl')) s1 with
            ⟨r', hr'⟩
          refine ⟨r', Computes.bind_ok hr.computes hr'.computes, ?_, ?_⟩
          · intro P hP hs s' hres
            exact hr'.kept P hP (hr.kept P hP hs s1 rfl) s' hres
          · intro hfree
            have hsame := Except.ok.inj (hr.same hfree)
            subst hsame
            exact hr'.same hfree

theorem SentenceNormalize_outcome (s : WString) :
    exists r, RunOutcome loops s r :=
  runLoops_outcome loops (fun _ => loops_sound) s

/-!
## Steps of a run
-/

/-- The loop `i` comes to `c` when the loops are run on the sentence `s`. -/
def ComesTo (ls : List Loop) (s : WString) (n : TextNormalizer) (i : Fin ls.length)
    (c : Rule.Config TextNormalizer (ls.get i).κ UInt32) : Prop :=
  exists s' n', runLoops (ls.take i) s n = (Except.ok s', n') ∧
    (ls.get i).rule.Reaches ⟨(ls.get i).start, s', n'⟩ c

section Steps

variable {P : WString -> Prop} {l : Loop} {s : WString} {n : TextNormalizer}

theorem Loop.Sound.effect (h : l.Sound) {c c' : Rule.Config TextNormalizer l.κ UInt32}
    {mt : Match UInt32} {rep : WString} (hc : Valid c.state)
    (hround : l.rule.Round c mt rep c') :
    Effect c.sentence rep c'.sentence ∧ Valid c'.state := by
  rcases h with ⟨rule', href, heffect, -⟩
  obtain ⟨hsearch, hbody, hsentence, hvalid⟩ := href.round hc hround
  rw [hsentence]
  exact ⟨heffect _ _ _ _ _ hsearch hbody, hvalid⟩

/-- What every effect keeps holds of all sentences that a loop comes to. -/
theorem Loop.Sound.reaches (h : l.Sound)
    (hP : forall t rep t', Effect t rep t' -> P t -> P t')
    {c c' : Rule.Config TextNormalizer l.κ UInt32} (hc : Valid c.state)
    (hs : P c.sentence) (hreach : l.rule.Reaches c c') :
    Valid c'.state ∧ P c'.sentence := by
  induction hreach with
  | start => exact ⟨hc, hs⟩
  | round _ hround ih =>
      have hstep := h.effect ih.1 hround
      exact ⟨hstep.2, hP _ _ _ hstep.1 ih.2⟩

/-- What every effect keeps holds of all sentences of a run. -/
theorem ComesTo.kept {ls : List Loop} (hls : forall l, l ∈ ls -> l.Sound)
    (hP : forall t rep t', Effect t rep t' -> P t -> P t') {i : Fin ls.length}
    {c : Rule.Config TextNormalizer (ls.get i).κ UInt32} (h : ComesTo ls s n i c)
    (hn : Valid n) (hs : P s) : Valid c.state ∧ P c.sentence := by
  rcases h with ⟨s', n', hrun, hreach⟩
  rcases runLoops_outcome (ls.take i) (fun l hl => hls l (List.mem_of_mem_take hl)) s with
    ⟨r, hr⟩
  have hentered := hr.computes n hn
  rw [hrun] at hentered
  have hs' := hr.kept P hP hs s' hentered.1.symm
  exact (hls _ (List.get_mem ls i)).reaches hP hentered.2 hs' hreach

end Steps

/-!
## Reachable states
-/

theorem keeps_digitsAt {alt_one : Bool} (key : CString) :
    Keeps (ValidWith alt_one) (digitsAt key) :=
  (computes_digitsAt key).keeps

theorem keeps_unitsAt {alt_one : Bool} (key : Int) :
    Keeps (ValidWith alt_one) (unitsAt key) :=
  (computes_unitsAt key).keeps

theorem keeps_createTextValue {alt_one : Bool} (use_zero : Bool) :
    forall (fuel : Nat) (s : CString),
      Keeps (ValidWith alt_one) (createTextValue use_zero fuel s) := by
  intro fuel
  induction fuel with
  | zero =>
      intro s n hn
      exact hn
  | succ fuel ih =>
      intro s
      refine (keeps_lift _).bind fun value => ?_
      dsimp only
      split
      · exact keeps_pure _
      · split
        · split
          · exact (keeps_digitsAt _).bind fun _ =>
              (keeps_digitsAt _).bind fun _ => keeps_pure _
          · exact keeps_digitsAt _
        · split
          · intro n hn
            exact hn
          · exact (ih _).bind fun _ => (keeps_unitsAt _).bind fun _ =>
              (ih _).bind fun _ => keeps_pure _

theorem keeps_shortenText {alt_one : Bool} (text : CString) :
    Keeps (ValidWith alt_one) (shortenText text) := by
  refine (keeps_lift _).bind fun _ => (keeps_lift _).bind fun _ =>
    (keeps_lift _).bind fun _ => (keeps_digitsAt _).bind fun _ =>
    (keeps_lift _).bind fun _ => ?_
  split
  · refine (keeps_unitsAt _).bind fun _ => (keeps_lift _).bind fun _ => ?_
    split <;> exact keeps_lift _
  · exact keeps_lift _

theorem keeps_CreateTextValue (num_str : CString) (use_zero : Bool) :
    Keeps Valid (CreateTextValue num_str use_zero) := by
  rintro n ⟨alt_one, hn⟩
  exact ⟨alt_one, keeps_createTextValue use_zero _ _ n hn⟩

theorem keeps_MultiDigit2Text (num_str : CString) (alt_one use_zero : Bool) :
    Keeps Valid (MultiDigit2Text num_str alt_one use_zero) := by
  intro n hn
  have hset := (computes_setOne alt_one n hn).2
  have hrest : Keeps (ValidWith alt_one)
      (CreateTextValue num_str use_zero >>= shortenText) :=
    (keeps_createTextValue use_zero _ _).bind fun _ => keeps_shortenText _
  exact (hrest _ hset).valid

theorem keeps_Digits2Text (num_str : CString) :
    Keeps Valid (Digits2Text num_str) := by
  unfold Digits2Text
  split
  · exact keeps_MultiDigit2Text _ _ _
  · dsimp only
    split
    · exact (computes_SingleDigit2Text _).keeps.bind fun _ => keeps_pure _
    · exact (keeps_MultiDigit2Text _ _ _).bind fun _ =>
        (computes_SingleDigit2Text _).keeps.bind fun _ => keeps_pure _
  · exact keeps_pure _

theorem keeps_run {l : Loop} (h : l.Sound) (s : WString) :
    Keeps Valid (l.run s) := by
  rcases Loop.outcome h s with ⟨r, hr⟩
  exact hr.computes.keeps

theorem Reachable.valid {n : TextNormalizer} (h : Reachable n) : Valid n := by
  induction h with
  | construct =>
      exact valid_construct.valid
  | call _ c ih =>
      cases c with
      | createTextValue num_str use_zero =>
          exact keeps_CreateTextValue num_str use_zero _ ih
      | singleDigit2Text num_str alt_one =>
          exact (computes_SingleDigit2Text num_str).keeps _ ih
      | multiDigit2Text num_str alt_one use_zero =>
          exact keeps_MultiDigit2Text num_str alt_one use_zero _ ih
      | digits2Text num_str =>
          exact keeps_Digits2Text num_str _ ih
      | re i sentence =>
          exact keeps_run (loops_sound (List.get_mem loops i)) sentence _ ih
      | sentenceNormalize sentence =>
          rcases SentenceNormalize_outcome sentence with ⟨r, hr⟩
          simp only [Call.exec, SentenceNormalize_eq_runLoops]
          exact hr.computes.keeps _ ih

/-- From a reachable state the sentence alone decides the result. -/
theorem SentenceNormalize_result {n : TextNormalizer} (hn : Reachable n)
    (s : WString) :
    RunOutcome loops s (SentenceNormalize s n).1 := by
  rcases SentenceNormalize_outcome s with ⟨r, hr⟩
  have hresult : (SentenceNormalize s n).1 = r := by
    rw [SentenceNormalize_eq_runLoops]
    exact (hr.computes n hn.valid).1
  rw [hresult]
  exact hr

/-- The normaliser has no memory, whatever was read before and however it ended. -/
theorem SentenceNormalize_no_memory (n : TextNormalizer) (hn : Reachable n)
    (s : WString) :
    (SentenceNormalize s n).1 = (SentenceNormalize s construct).1 := by
  rcases SentenceNormalize_outcome s with ⟨r, hr⟩
  rw [SentenceNormalize_eq_runLoops]
  rw [(hr.computes n hn.valid).1]
  rw [(hr.computes construct Reachable.construct.valid).1]

/-- A telephone number, then a time that throws. -/
theorem SentenceNormalize_no_memory_after_throw :
    (SentenceNormalize (wstr "12:30")
        ((Call.singleDigit2Text (str "110") true).exec construct)).1 =
        Except.error Error.invalid_argument ∧
      forall s, (SentenceNormalize s
          ((Call.sentenceNormalize (wstr "12:30")).exec
            ((Call.singleDigit2Text (str "110") true).exec construct))).1 =
        (SentenceNormalize s construct).1 := by
  constructor
  · decide +kernel
  · intro s
    exact SentenceNormalize_no_memory _ ((Reachable.construct.call _).call _) s

/-!
## What comes back
-/

theorem numberPattern_takes {c : UInt32} (hc : isDigit c = true) (s : WString) :
    numberPattern.Takes [c] s := by
  have hplus : (Regex.plus digit).Takes ([c] ++ []) s :=
    Regex.Takes.seq (a := digit) (Regex.takes_set hc _) (Regex.takes_star _ _)
  have hnumber := (hplus.group 3).seq
    (Regex.takes_opt (Regex.group 4 (Regex.seq (lit ".") (Regex.plus digit))) s)
  exact (((Regex.takes_opt (lit "-") ([c] ++ s)).group 1).seq
    (hnumber.group 2)).left _

theorem digitFree_of_search {s : WString}
    (h : numberPattern.search s = none) : DigitFree s := by
  intro c hc
  by_contra hdigit
  rcases List.append_of_mem hc with ⟨pre, post, rfl⟩
  exact (numberPattern_takes (by simpa using hdigit) post).search_ne_none pre h

theorem digitFree_of_SentenceNormalize {n : TextNormalizer} (hn : Reachable n)
    {s s' : WString} (h : (SentenceNormalize s n).1 = Except.ok s') :
    DigitFree s' := by
  have hsplit : loops = loops.dropLast ++ [⟨_, (), numberRule⟩] := rfl
  rcases runLoops_outcome loops.dropLast
    (fun l hl => loops_sound (List.mem_of_mem_dropLast hl)) s with ⟨r, hr⟩
  have hnumber : Loop.Sound ⟨_, (), numberRule⟩ := loops_sound (by simp [loops])
  rw [SentenceNormalize_eq_runLoops, hsplit, runLoops_append] at h
  rcases hr.computes n hn.valid with ⟨hres, hvalid⟩
  rcases hrun : runLoops loops.dropLast s n with ⟨res, m⟩
  rw [hrun] at hres hvalid
  cases res with
  | error e =>
      rw [bind_of_error hrun] at h
      cases h
  | ok mid =>
      rw [bind_of_ok hrun, runLoops] at h
      rcases Loop.outcome hnumber mid with ⟨r', hr'⟩
      simp only [runLoops, bind_pure] at h
      rw [(hr'.computes m hvalid).1] at h
      exact digitFree_of_search (hr'.done s' h)

/--
Every loop ends, a sentence that comes back has no digit and comes back
unchanged the next time, and a sentence without digits is left as it is.
-/
theorem SentenceNormalize_digit_free (n : TextNormalizer) (hn : Reachable n)
    (s : WString) :
    (forall l, l ∈ loops -> l.rule.Ends l.start s n (l.run s n)) ∧
      (forall s', (SentenceNormalize s n).1 = Except.ok s' ->
        DigitFree s' ∧
          forall m, Reachable m -> (SentenceNormalize s' m).1 = Except.ok s') ∧
      (DigitFree s -> (SentenceNormalize s n).1 = Except.ok s) := by
  refine ⟨?_, ?_, (SentenceNormalize_result hn s).same⟩
  · intro l hl
    exact Loop.ends (loops_sound hl) hn.valid s
  · intro s' hs'
    have hfree : DigitFree s' := digitFree_of_SentenceNormalize hn hs'
    exact ⟨hfree, fun m hm => (SentenceNormalize_result hm s').same hfree⟩

theorem SentenceNormalize_digit_free_year :
    (SentenceNormalize (wstr "2021年8月") construct).1 =
        Except.ok (wstr "二零二一年八月") ∧
      DigitFree (wstr "二零二一年八月") := by
  have hresult : (SentenceNormalize (wstr "2021年8月") construct).1 =
      Except.ok (wstr "二零二一年八月") := by
    decide +kernel
  exact ⟨hresult,
    ((SentenceNormalize_digit_free construct Reachable.construct
      (wstr "2021年8月")).2.1 _ hresult).1⟩

/-- No ordinary text is lost or reordered. -/
theorem SentenceNormalize_keeps_text (n : TextNormalizer) (hn : Reachable n)
    (s s' : WString) (h : (SentenceNormalize s n).1 = Except.ok s') :
    (ordinaryText s).Sublist s' := by
  have hkept := (SentenceNormalize_result hn s).kept
    (fun t => (ordinaryText s).Sublist (ordinaryText t))
    (fun _ _ _ heffect ht => ht.trans (Effect.ordinaryText_sublist heffect))
    (List.Sublist.refl _) s' h
  exact hkept.trans List.filter_sublist

theorem SentenceNormalize_keeps_text_temperature :
    (ordinaryText (wstr "气温3度")).Sublist (wstr "气温三度") :=
  SentenceNormalize_keeps_text construct Reachable.construct (wstr "气温3度")
    (wstr "气温三度") (by decide +kernel)

end TextNormalizer
end VoiceTts
