import VoiceTts.Lib.RewriteLocal
import VoiceTts.Normalizer.Sentences

/-!
# The sentence in pieces

Up to the telephone rules a round leaves a spoken block in the sentence that no
later match can touch.  The rules therefore see the sentence as the pieces of the
input that were not yet read, and what each rule finds can be told from the
input.
-/

namespace VoiceTts
namespace Spoken

open TextNormalizer Reading Regex

/-- The characters that the first six patterns can take. -/
def Written (c : UInt32) : Prop :=
  c.toNat < 128 ∨ c ∈ wstr "年月日号°℃度摄氏"

instance (c : UInt32) : Decidable (Written c) :=
  inferInstanceAs (Decidable (_ ∨ _))

/-- A spoken text, which starts with a character that no pattern takes. -/
structure Block (d : WString) : Prop where
  entry : exists x t, d = x :: t ∧ ¬ Written x
  audible : forall c, c ∈ d -> 128 ≤ c.toNat

theorem inert_of_block {r : Regex UInt32}
    (hfirst : forall x, r.First x -> x.toNat < 128) {d : WString} (h : Block d) :
    r.Inert Written d := by
  refine ⟨h.entry, ?_⟩
  intro x hx hr
  have hlarge := h.audible x hx
  have hsmall := hfirst x hr
  omega

/-- The characters a spoken text can start with. -/
def heads : List Char :=
  '负' :: numerals

/-!
## The first six patterns
-/

theorem written_digit : digit.All Written := by
  intro c hc
  have := isDigit_iff.mp hc
  exact Or.inl (by omega)

theorem written_range {a b : Char} (hb : b.val.toNat < 128) :
    (range a b).All Written := by
  intro c hc
  have hle := (of_decide_eq_true hc).2
  rw [UInt32.le_iff_toNat_le] at hle
  exact Or.inl (by omega)

theorem written_data : dataPattern.All Written :=
  ⟨⟨all_times written_digit 4, all_times written_digit 2⟩,
    all_lit (by decide),
    ⟨⟨⟨⟨⟨all_lit (by decide), trivial⟩, written_range (by decide)⟩,
      all_lit (by decide), written_range (by decide)⟩, all_lit (by decide)⟩,
      trivial⟩,
    ⟨⟨⟨⟨all_lit (by decide), trivial⟩, written_range (by decide)⟩,
      ⟨⟨all_lit (by decide), all_lit (by decide)⟩, written_range (by decide)⟩,
      all_lit (by decide), all_lit (by decide)⟩, all_cls (by decide)⟩,
    trivial⟩

theorem written_data2 : data2Pattern.All Written :=
  ⟨all_times written_digit 4, all_cls (by decide),
    ⟨⟨all_lit (by decide), written_range (by decide)⟩, all_lit (by decide),
      all_cls (by decide)⟩,
    trivial, ⟨all_lit (by decide), written_range (by decide)⟩,
    ⟨all_cls (by decide), written_range (by decide)⟩, all_lit (by decide),
    all_cls (by decide)⟩

theorem written_time : timePattern.All Written :=
  ⟨⟨⟨⟨written_range (by decide), trivial⟩, written_range (by decide)⟩,
      all_lit (by decide), written_range (by decide)⟩,
    all_lit (by decide), ⟨written_range (by decide), written_range (by decide)⟩,
    ⟨all_lit (by decide), written_range (by decide), written_range (by decide)⟩,
    trivial⟩

theorem written_decimal (n : Nat) : (TextNormalizer.decimal n).All Written :=
  ⟨⟨written_digit, written_digit⟩,
    ⟨all_lit (by decide), written_digit, written_digit⟩, trivial⟩

theorem written_temperature : temperaturePattern.All Written :=
  ⟨⟨all_lit (by decide), trivial⟩, written_decimal 3, all_lit (by decide),
    all_lit (by decide), all_lit (by decide), all_lit (by decide)⟩

theorem written_frac : fracPattern.All Written :=
  ⟨⟨all_lit (by decide), trivial⟩, ⟨written_digit, written_digit⟩,
    all_lit (by decide), written_digit, written_digit⟩

theorem written_percentage : percentagePattern.All Written :=
  ⟨⟨all_lit (by decide), trivial⟩, written_decimal 3, all_lit (by decide)⟩

theorem small_digit {c : UInt32} (h : digit.First c) : c.toNat < 128 := by
  have := isDigit_iff.mp h
  omega

theorem small_range {a b : Char} {c : UInt32} (h : (range a b).First c)
    (hb : b.val.toNat < 128) : c.toNat < 128 := by
  have hle := (of_decide_eq_true h).2
  rw [UInt32.le_iff_toNat_le] at hle
  omega

theorem small_chr {a c : UInt32} (h : (chr a).First c) (ha : a.toNat < 128) :
    c.toNat < 128 := by
  rw [of_decide_eq_true h]
  exact ha

theorem first_data (x : UInt32) (h : dataPattern.First x) : x.toNat < 128 := by
  rcases h with ((h | ⟨h, _⟩) | (h | ⟨h, _⟩)) | ⟨⟨h, _⟩ | ⟨h, _⟩, _⟩
  · exact small_digit h
  · exact h.elim
  · exact small_digit h
  · exact h.elim
  · exact h.elim
  · exact h.elim

theorem first_data2 (x : UInt32) (h : data2Pattern.First x) : x.toNat < 128 := by
  rcases h with (h | ⟨h, _⟩) | ⟨⟨h, _⟩, _⟩
  · exact small_digit h
  · exact h.elim
  · exact h.elim

theorem first_time (x : UInt32) (h : timePattern.First x) : x.toNat < 128 := by
  rcases h with (((h | h) | ⟨_, h⟩) | (h | ⟨h, _⟩)) | ⟨⟨_, h⟩ | ⟨h, _⟩, _⟩
  · exact small_range h (by decide)
  · exact h.elim
  · exact small_range h (by decide)
  · exact small_chr h (by decide)
  · exact h.elim
  · exact h.elim
  · exact h.elim

theorem first_signed {b : Regex UInt32}
    (hb : forall x, b.First x -> x.toNat < 128) (x : UInt32)
    (h : (seq (group 1 (opt (lit "-"))) b).First x) : x.toNat < 128 := by
  rcases h with (h | h) | ⟨_, h⟩
  · exact small_chr h (by decide)
  · exact h.elim
  · exact hb x h

theorem first_plus {b : Regex UInt32} (x : UInt32)
    (h : (seq (plus digit) b).First x) : x.toNat < 128 := by
  rcases h with (h | ⟨h, _⟩) | ⟨⟨h, _⟩, _⟩
  · exact small_digit h
  · exact h.elim
  · exact h.elim

theorem first_temperature (x : UInt32) (h : temperaturePattern.First x) :
    x.toNat < 128 := by
  refine first_signed ?_ x h
  rintro x (h | ⟨⟨⟨h, _⟩, _⟩, _⟩)
  · exact first_plus x h
  · exact h.elim

theorem first_frac (x : UInt32) (h : fracPattern.First x) : x.toNat < 128 :=
  first_signed (fun x h => first_plus x h) x h

theorem first_percentage (x : UInt32) (h : percentagePattern.First x) :
    x.toNat < 128 := by
  refine first_signed ?_ x h
  rintro x (h | ⟨⟨⟨h, _⟩, _⟩, _⟩)
  · exact first_plus x h
  · exact h.elim

/-!
## Loops over pieces
-/

/-- The text starts with one of the heads. -/
def Headed (cs : List Char) : Prop :=
  exists x rest, cs = x :: rest ∧ x ∈ heads

theorem Headed.append {cs : List Char} (h : Headed cs) (ds : List Char) :
    Headed (cs ++ ds) := by
  rcases h with ⟨x, rest, rfl, hx⟩
  exact ⟨x, rest ++ ds, rfl, hx⟩

theorem headed_of_numerals {cs : List Char} (hne : cs ≠ [])
    (h : forall x, x ∈ cs -> x ∈ numerals) : Headed cs := by
  cases cs with
  | nil =>
      exact absurd rfl hne
  | cons x rest =>
      exact ⟨x, rest, rfl, List.mem_cons_of_mem _ (h x (by simp))⟩

theorem headed_number {use_zero : Bool} {w : WString} {cs : List Char}
    (h : number use_zero w = Except.ok cs) : Headed cs :=
  headed_of_numerals (number_ok h).1 (number_ok h).2

theorem headed_sign {cs : List Char} (h : Headed cs) (w : WString) :
    Headed (sign w ++ cs) := by
  unfold sign
  split
  · exact ⟨'负', cs, rfl, by decide⟩
  · exact h

theorem headed_digits {w : WString} (h : Number w) : Headed (digits w) :=
  headed_of_numerals (digits_ne_nil h) fun _ hx => mem_spell hx

theorem headed_decimalNumber {w : WString} (h : Decimal w)
    (hlead : Leading w) {cs : List Char}
    (hok : decimalNumber w = Except.ok cs) : Headed cs := by
  cases h with
  | whole h =>
      rw [decimalNumber_whole h] at hok
      exact headed_number hok
  | @point i f hi hf =>
      have hint : i ≠ [] := by
        rintro rfl
        rcases hlead with ⟨c, t, heq, hc⟩
        cases heq
        exact absurd hc (by decide)
      rw [decimalNumber_point hi hf, except_map_eq_ok] at hok
      rcases hok with ⟨whole, hwhole, rfl⟩
      rw [optional, if_pos hint] at hwhole
      exact (headed_number hwhole).append _

/-- A rule whose loop treats the pieces between blocks apart. -/
structure Piecewise (rule : Rule (Except Error) Unit UInt32) : Prop where
  proper : rule.Local Written
  inert : forall d, Block d -> rule.pattern.Inert Written d
  settles : rule.Settles Written Block
  runs : forall s, Rule.Runs rule () s (loop rule () s)

theorem piecewise_rule {pattern : Regex UInt32}
    {text : (Nat -> WString) -> Except Error (List Char)}
    (hwritten : pattern.All Written)
    (hmust : pattern.Must fun c => isDigit c = true)
    (hfirst : forall x, pattern.First x -> x.toNat < 128)
    (heffect : Effective (rule pattern 0 text))
    (hheaded : forall s mt cs, pattern.search s = some mt ->
      text mt.group = Except.ok cs -> Headed cs) :
    Piecewise (rule pattern 0 text) := by
  refine ⟨⟨rfl, hwritten, hmust.not_nullable⟩, fun d => inert_of_block hfirst,
    ?_, runs_loop heffect hmust ()⟩
  intro s mt rep hsearch hbody
  have haudible := (heffect () s mt () rep hsearch hbody).audible
  rcases except_bind_eq_ok.mp hbody with ⟨cs, hcs, hpure⟩
  cases hpure
  rcases hheaded s mt cs hsearch hcs with ⟨x, rest, rfl, hx⟩
  have hheads : forall x, x ∈ heads -> ¬ Written x.val := by
    decide
  have hblock : Block (Utf8.units (x :: rest)) :=
    ⟨⟨x.val, Utf8.units rest, rfl, hheads x hx⟩, haudible⟩
  exact ⟨inert_of_block hfirst hblock, hblock⟩

section Piecewise

variable {rule : Rule (Except Error) Unit UInt32} {gs : List WString} {s : WString}

theorem Piecewise.loop_ok (h : Piecewise rule) (hs : Woven Block gs s)
    (hok : forall g, g ∈ gs -> forall mt, mt ∈ rule.pattern.found g ->
      exists rep, rule.body () mt.group = Except.ok ((), rep)) :
    exists s', loop rule () s = Except.ok s' ∧
      Woven Block (gs.flatMap rule.pattern.gaps) s' := by
  rcases Rule.runs_woven_ok h.proper h.settles h.inert hs hok with
    ⟨s', hruns, hwoven⟩
  exact ⟨s', (h.runs s).unique hruns, hwoven⟩

theorem Piecewise.loop_error (h : Piecewise rule) {e : Error}
    (herr : forall s mt e', rule.pattern.search s = some mt ->
      rule.body () mt.group = Except.error e' -> e' = e)
    (hs : Woven Block gs s)
    (hbad : exists g mt e', g ∈ gs ∧ mt ∈ rule.pattern.found g ∧
      rule.body () mt.group = Except.error e') :
    loop rule () s = Except.error e :=
  (h.runs s).unique
    (Rule.runs_woven_error h.proper h.settles h.inert herr hs hbad)

end Piecewise

/-!
## The six rules
-/

theorem piecewise_data : Piecewise (rule dataPattern 0 dataText) := by
  refine piecewise_rule written_data must_data first_data effective_data ?_
  intro s mt cs hsearch htext
  rcases data_shape hsearch with ⟨year, _, _, hyear, _, hg1, _⟩
  simp only [dataText, except_bind_eq_ok, hg1] at htext
  rcases htext with ⟨m, _, d, _, hpure⟩
  cases hpure
  exact (((headed_digits hyear.number).append _).append _).append _

theorem piecewise_data2 : Piecewise (rule data2Pattern 0 data2Text) := by
  refine piecewise_rule written_data2 must_data2 first_data2 effective_data2 ?_
  intro s mt cs hsearch htext
  rcases data2_shape hsearch with ⟨year, _, _, _, hyear, _, _, _, _, hg1, _⟩
  simp only [data2Text, except_bind_eq_ok, hg1] at htext
  rcases htext with ⟨m, _, d, _, hpure⟩
  cases hpure
  exact (((((headed_digits hyear.number).append _).append _).append _).append
    _).append _

theorem piecewise_time : Piecewise (rule timePattern 0 timeText) := by
  refine piecewise_rule written_time must_time first_time effective_time ?_
  intro s mt cs hsearch htext
  simp only [timeText, except_bind_eq_ok] at htext
  rcases htext with ⟨h, hh, m, _, sec, _, hpure⟩
  cases hpure
  exact (((((((headed_number hh).append _).append _).append _).append _).append
    _).append _).append _

theorem piecewise_temperature :
    Piecewise (rule temperaturePattern 0 temperatureText) := by
  refine piecewise_rule written_temperature must_temperature first_temperature
    effective_temperature ?_
  intro s mt cs hsearch htext
  rcases temperature_shape hsearch with
    ⟨_, _, _, _, ⟨hnumber, hlead⟩, _, _, _, hg2, _⟩
  simp only [temperatureText, except_bind_eq_ok, hg2] at htext
  rcases htext with ⟨v, hv, hpure⟩
  cases hpure
  exact (headed_sign (headed_decimalNumber hnumber hlead hv) _).append _

theorem piecewise_frac : Piecewise (rule fracPattern 0 fracText) := by
  refine piecewise_rule written_frac must_frac first_frac effective_frac ?_
  intro s mt cs hsearch htext
  simp only [fracText, except_bind_eq_ok] at htext
  rcases htext with ⟨d, hd, n, _, hpure⟩
  cases hpure
  exact ((headed_sign (headed_number hd) _).append _).append _

theorem piecewise_percentage :
    Piecewise (rule percentagePattern 0 percentageText) := by
  refine piecewise_rule written_percentage must_percentage first_percentage
    effective_percentage ?_
  intro s mt cs hsearch htext
  simp only [percentageText, except_bind_eq_ok] at htext
  rcases htext with ⟨v, _, hpure⟩
  cases hpure
  exact (headed_sign ⟨'百', ['分', '之'], rfl, by decide⟩ _).append _

end Spoken
end VoiceTts
