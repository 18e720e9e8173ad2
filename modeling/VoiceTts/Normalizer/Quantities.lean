import VoiceTts.Lib.RegexChoices
import VoiceTts.Normalizer.Sentences

/-!
# Quantities

`common_quantifiers` is one string over several source lines, and the blanks at the
beginning of a line belong to the alternative behind them.  Such a measure word is
found only with these blanks in front of it, so the number before it is not read
as a quantity.
-/

namespace VoiceTts
namespace Spoken

open TextNormalizer Reading Regex

/-!
## The words of the pattern
-/

def letters (s : String) : List WString :=
  s.toList.map fun c => [c.val]

def compounds (first : String) (others : List String) (tail : String) : List WString :=
  ((first :: others).map wstr).map fun w => w ++ wstr tail

/-- The texts that `common_quantifiers` takes, in the order of the source. -/
def quantifierTexts : List WString :=
  [wstr "朵"] ++
    (letters "匹张座回场尾条个首阙阵网炮顶丘棵只支袭辆挑担颗壳窠曲" ++
      [wstr "     墙"] ++
      letters "群腔砣座客贯扎捆刀令打手罗坡山岭江溪钟队单双对出口头脚板跳枝件贴针线管名位身堂" ++
      [wstr "     课"] ++
      letters "本页家户层丝毫厘分钱两斤担铢石钧锱忽" ++
      compounds "千" ["毫", "微"] "克" ++
      letters "毫厘" ++
      compounds "公" [] "分" ++
      letters "分寸尺丈里寻常铺程" ++
      compounds "千" ["分", "厘", "     毫", "微"] "米" ++
      letters "米撮勺合升斗石盘碗碟叠桶笼盆盒杯钟斛锅簋篮盘桶罐瓶壶卮盏箩箱煲啖袋钵年月日" ++
      [wstr "     季"] ++
      letters "刻时周天秒分旬纪岁世更夜春夏秋冬代伏辈丸泡粒颗幢堆条根支道面片张颗块元" ++
      (["亿", "千万", "百万", "     万", "千", "百"].map wstr ++
        (compounds "亿" ["千万", "百万", "万", "千", "百", "美", ""] "元" ++
          compounds "亿" ["千万", "百万", "万", "千", "百", ""] "块")) ++
      letters "角毛分")

/-- The measure words, read without the blanks of the layout. -/
def measureWords : List WString :=
  quantifierTexts.map fun w => w.filter fun c => decide (c ≠ 32)

theorem spellsAll_singles (s : String) : SpellsAll (singles s) (letters s) := by
  have h := spellsAll_words (letters s)
  rw [letters, List.map_map] at h
  exact h

theorem spells_lits (first : String) (others : List String) :
    (anyOf (lit first) (others.map lit)).Spells ((first :: others).map wstr) := by
  have h := spellsAll_words ((first :: others).map wstr)
  rw [List.map_map] at h
  exact spells_anyOf h

theorem spells_grouped (n : Nat) (first : String) (others : List String) (tail : String) :
    (grouped n first others tail).Spells (compounds first others tail) :=
  ((spells_lits first others).group n).seq_word (wstr tail)

theorem spellsAll_grouped (n : Nat) (first : String) (others : List String) (tail : String) :
    SpellsAll [grouped n first others tail] (compounds first others tail) :=
  (spells_grouped n first others tail).all

theorem spellsAll_lit (s : String) : SpellsAll [lit s] [wstr s] :=
  (spells_word (wstr s)).all

theorem spells_common_quantifiers : common_quantifiers.Spells quantifierTexts := by
  unfold common_quantifiers quantifierTexts
  refine Spells.group (spells_anyOf (SpellsAll.cons (spells_word (wstr "朵")) ?_)) 3
  refine SpellsAll.append (SpellsAll.append ?_ ?_) (spellsAll_singles _)
  · refine SpellsAll.append (SpellsAll.append ?_ (spellsAll_lit _)) (spellsAll_singles _)
    refine SpellsAll.append (SpellsAll.append ?_ (spellsAll_grouped 6 _ _ _))
      (spellsAll_singles _)
    refine SpellsAll.append (SpellsAll.append ?_ (spellsAll_grouped 5 _ _ _))
      (spellsAll_singles _)
    refine SpellsAll.append (SpellsAll.append ?_ (spellsAll_grouped 4 _ _ _))
      (spellsAll_singles _)
    refine SpellsAll.append (SpellsAll.append ?_ (spellsAll_lit _)) (spellsAll_singles _)
    exact SpellsAll.append (SpellsAll.append (spellsAll_singles _) (spellsAll_lit _))
      (spellsAll_singles _)
  · exact SpellsAll.cons ((spells_lits _ _).group 7)
      (SpellsAll.cons (spells_grouped 8 _ _ _) (spellsAll_grouped 9 _ _ _))

/-- The words that the pattern has only with the blanks of the layout before them. -/
def hidden : List WString :=
  [['墙'.val], ['课'.val], ['季'.val]]

/-- A text of the pattern starts with no hidden word, and 万 starts only two. -/
structure Sighted (w : WString) : Prop where
  ne_nil : w ≠ []
  free : forall x, x ∈ w -> isDigit x = false
  head : forall x, x ∈ w.head? -> [x] ∉ hidden
  wan : w.head? = some '万'.val -> w = ['万'.val, '元'.val] ∨ w = ['万'.val, '块'.val]

instance (w : WString) : Decidable (Sighted w) :=
  decidable_of_iff (w ≠ [] ∧ (forall x, x ∈ w -> isDigit x = false) ∧
      (forall x, x ∈ w.head? -> [x] ∉ hidden) ∧
      (w.head? = some '万'.val -> w = ['万'.val, '元'.val] ∨ w = ['万'.val, '块'.val]))
    ⟨fun h => ⟨h.1, h.2.1, h.2.2.1, h.2.2.2⟩, fun h => ⟨h.ne_nil, h.free, h.head, h.wan⟩⟩

/-- Characters are taken from a literal without decoding it. -/
theorem all_letters {P : WString -> Prop} {l : List Char} (h : forall c, c ∈ l -> P [c.val]) :
    forall w, w ∈ letters (String.ofList l) -> P w := by
  intro w hw
  rw [letters, String.toList_ofList] at hw
  obtain ⟨c, hc, rfl⟩ := List.mem_map.mp hw
  exact h c hc

theorem quantifierTexts_sighted : forall w, w ∈ quantifierTexts -> Sighted w ∧
    (32 ∈ w -> (w.filter fun c => decide (c ≠ 32)) ∈
      ['毫'.val, '米'.val] :: ['万'.val] :: hidden) := by
  have hletters : forall {l : List Char}, (forall c, c ∈ l -> Sighted [c.val] ∧ c.val ≠ 32) ->
      forall w, w ∈ letters (String.ofList l) -> Sighted w ∧
        (32 ∈ w -> (w.filter fun c => decide (c ≠ 32)) ∈
          ['毫'.val, '米'.val] :: ['万'.val] :: hidden) := by
    intro l h
    refine all_letters fun c hc => ⟨(h c hc).1, fun hblank => ?_⟩
    exact absurd (List.mem_singleton.mp hblank).symm (h c hc).2
  unfold quantifierTexts
  simp only [List.forall_mem_append]
  and_intros
  all_goals
    first
      | exact hletters (by decide +kernel)
      | decide +kernel

theorem measureWords_cases {q : WString} (hq : q ∈ measureWords) :
    q ∈ quantifierTexts ∨ q = ['毫'.val, '米'.val] ∨ q = ['万'.val] ∨ q ∈ hidden := by
  obtain ⟨w, hw, rfl⟩ := List.mem_map.mp hq
  by_cases hblank : 32 ∈ w
  · have hmem := (quantifierTexts_sighted w hw).2 hblank
    rw [List.mem_cons, List.mem_cons] at hmem
    exact Or.inr hmem
  · left
    have hsame : (w.filter fun c => decide (c ≠ 32)) = w := by
      rw [List.filter_eq_self]
      intro c hc
      apply decide_eq_true
      intro h32
      exact hblank (h32 ▸ hc)
    rw [hsame]
    exact hw

theorem mem_quantifierTexts {w : WString}
    (h : w ∈ letters "毫厘" ∨
      w ∈ compounds "亿" ["千万", "百万", "万", "千", "百", "美", ""] "元" ∨
      w ∈ compounds "亿" ["千万", "百万", "万", "千", "百", ""] "块") :
    w ∈ quantifierTexts := by
  rcases h with h | h | h
  · simp only [quantifierTexts, List.mem_append, h, true_or, or_true]
  · simp only [quantifierTexts, List.mem_append, h, true_or, or_true]
  · simp only [quantifierTexts, List.mem_append, h, true_or, or_true]

/-- The word is found in front of `r`; 万 stands in the pattern before 元 and 块 only. -/
def Found (q r : WString) : Prop :=
  q ∉ hidden ∧
    (q = ['万'.val] -> r.head? = some '元'.val ∨ r.head? = some '块'.val)

theorem exists_of_mem_hidden {q : WString} (hq : q ∈ hidden) :
    exists x, q = [x] ∧ x ∉ wstr "多余几" := by
  simp only [hidden, List.mem_cons, List.not_mem_nil, or_false] at hq
  rcases hq with rfl | rfl | rfl
  · exact ⟨_, rfl, by decide⟩
  · exact ⟨_, rfl, by decide⟩
  · exact ⟨_, rfl, by decide⟩

theorem measureWord_ne_nil {q : WString} (hq : q ∈ measureWords) : q ≠ [] := by
  rcases measureWords_cases hq with htext | rfl | rfl | hmem
  · exact (quantifierTexts_sighted q htext).1.ne_nil
  · exact List.cons_ne_nil _ _
  · exact List.cons_ne_nil _ _
  · obtain ⟨x, rfl, -⟩ := exists_of_mem_hidden hmem
    exact List.cons_ne_nil _ _

theorem digitFree_measureWord {q : WString} (hq : q ∈ measureWords) : DigitFree q := by
  obtain ⟨w, hw, rfl⟩ := List.mem_map.mp hq
  intro c hc
  exact (quantifierTexts_sighted w hw).1.free c (List.mem_of_mem_filter hc)

/-- Where the pattern has a text in front of which a measure word stands. -/
theorem choices_common_quantifiers {q r : WString} (hq : q ∈ measureWords) :
    choices common_quantifiers (q ++ r) ≠ [] ↔ Found q r := by
  rw [Ne, spells_common_quantifiers.choices_eq_nil]
  simp only [not_forall, not_not, exists_prop]
  constructor
  · rintro ⟨w, hw, hpre⟩
    have hsighted := (quantifierTexts_sighted w hw).1
    obtain ⟨y, q', rfl⟩ := List.exists_cons_of_ne_nil (measureWord_ne_nil hq)
    cases w with
    | nil => exact absurd rfl hsighted.ne_nil
    | cons x w =>
        rw [List.cons_append, List.cons_prefix_cons] at hpre
        obtain ⟨rfl, hpre⟩ := hpre
        constructor
        · intro hhidden
          obtain ⟨y, hy, -⟩ := exists_of_mem_hidden hhidden
          rw [(List.cons.inj hy).2] at hhidden
          exact hsighted.head x rfl hhidden
        · intro hwan
          obtain ⟨hx, hq'⟩ := List.cons.inj hwan
          rw [hq', List.nil_append] at hpre
          rcases hsighted.wan (congrArg some hx) with hw' | hw'
          · rw [(List.cons.inj hw').2] at hpre
            obtain ⟨r', rfl⟩ := hpre
            exact Or.inl rfl
          · rw [(List.cons.inj hw').2] at hpre
            obtain ⟨r', rfl⟩ := hpre
            exact Or.inr rfl
  · rintro ⟨hseen, hwan⟩
    rcases measureWords_cases hq with htext | rfl | rfl | hmem
    · exact ⟨q, htext, List.prefix_append q r⟩
    · exact ⟨['毫'.val], mem_quantifierTexts (Or.inl (by decide)), ['米'.val] ++ r, rfl⟩
    · rcases hwan rfl with hr | hr
      · obtain ⟨r', rfl⟩ := List.head?_eq_some_iff.mp hr
        exact ⟨['万'.val, '元'.val], mem_quantifierTexts (Or.inr (Or.inl (by decide))), r', rfl⟩
      · obtain ⟨r', rfl⟩ := List.head?_eq_some_iff.mp hr
        exact ⟨['万'.val, '块'.val], mem_quantifierTexts (Or.inr (Or.inr (by decide))), r', rfl⟩
    · exact absurd hmem hseen

/-!
## The number in front of a measure word
-/

/-- What follows the digits: perhaps one of three characters, and a measure word. -/
def quantityTail : Regex UInt32 :=
  cat (opt (group 2 (cls "多余几"))) [common_quantifiers]

theorem plain_singles (s : String) : forall r, r ∈ singles s -> r.Plain := by
  intro r hr
  obtain ⟨c, -, rfl⟩ := List.mem_map.mp hr
  exact trivial

theorem plain_lits (ss : List String) : forall r, r ∈ ss.map lit -> r.Plain := by
  intro r hr
  obtain ⟨s, -, rfl⟩ := List.mem_map.mp hr
  exact plain_word (wstr s)

theorem plain_grouped (n : Nat) (first : String) (others : List String) (tail : String) :
    (grouped n first others tail).Plain :=
  ⟨plain_anyOf (plain_lits (first :: others)), plain_word (wstr tail)⟩

theorem plain_common_quantifiers : common_quantifiers.Plain := by
  unfold common_quantifiers
  show (anyOf _ _).Plain
  refine plain_anyOf (List.forall_mem_cons.mpr ⟨trivial, ?_⟩)
  simp only [List.forall_mem_append, List.forall_mem_cons, plain_grouped, lit, plain_word,
    List.not_mem_nil, false_implies, implies_true, and_true]
  exact ⟨⟨⟨⟨⟨⟨⟨⟨plain_singles _, plain_singles _⟩, plain_singles _⟩, plain_singles _⟩,
    plain_singles _⟩, plain_singles _⟩, plain_singles _⟩, plain_anyOf (plain_lits ("亿" :: _))⟩,
    plain_singles _⟩

theorem plain_quantityTail : quantityTail.Plain :=
  ⟨⟨trivial, trivial⟩, plain_common_quantifiers⟩

theorem first_quantityTail {s t : WString} (h : t ∈ choices quantityTail s) :
    exists x u, t = x :: u ∧ isDigit x = false := by
  obtain ⟨u, v, rfl, hu, hv⟩ := (mem_choices_seq plain_common_quantifiers).mp h
  have hsighted := (quantifierTexts_sighted v ((spells_common_quantifiers _ v).mp hv).1).1
  rw [choices_opt, choices_group, List.mem_append, List.mem_singleton] at hu
  rcases hu with hu | rfl
  · cases s with
    | nil => cases hu
    | cons x s =>
        rw [cls, choices_set_cons] at hu
        split at hu
        case isTrue hx =>
          rw [List.mem_singleton.mp hu]
          have hnone : forall x, x ∈ wstr "多余几" -> isDigit x = false := by
            decide
          exact ⟨x, v, rfl, hnone x (of_decide_eq_true hx)⟩
        case isFalse => cases hu
  · cases v with
    | nil => exact absurd rfl hsighted.ne_nil
    | cons x v => exact ⟨x, v, rfl, hsighted.free x List.mem_cons_self⟩

section Quantity

variable {p d v : WString}

/-- A match ends its digits where a digit meets another symbol. -/
theorem quantity_match {s : WString} {mt : Match UInt32}
    (h : positiveQuantifiersPattern.search s = some mt) :
    exists number rest, Number number ∧ mt.text = number ++ rest ∧ mt.group 1 = number ∧
      mt.position 1 = mt.pre.length ∧ rest ∈ choices quantityTail (rest ++ mt.post) ∧
      exists x t, rest = x :: t ∧ isDigit x = false := by
  obtain ⟨number, rest, pos, caps, caps', hnumber, htext, hgroup, hposition, hhit⟩ :=
    positiveQuantifiers_hit h
  have hchoice : rest ∈ choices quantityTail (rest ++ mt.post) :=
    mem_choices_of_run plain_quantityTail hhit
  exact ⟨number, rest, hnumber, htext, hgroup, hposition, hchoice, first_quantityTail hchoice⟩

theorem search_quantity_some (hp : DigitFree p) (hd : Number d) (hv : DigitFree v)
    (htail : choices quantityTail v ≠ []) :
    exists mt, positiveQuantifiersPattern.search (p ++ d ++ v) = some mt ∧ mt.pre = p ∧
      mt.group 1 = d ∧ mt.position 1 = mt.pre.length := by
  have hhead : forall c, v.head? = some c -> isDigit c = false :=
    fun c hc => hv c (List.mem_of_head? hc)
  obtain ⟨u, hu⟩ := exists_prefers htail
  have hblocked : Blocked positiveQuantifiersPattern p := by
    apply blocked_of_not_first
    · exact fun hnull => hnull.1.1
    · rintro c hc ((hdigit | hskip) | hskip)
      · exact absurd (show isDigit c = true from hdigit) (by simp [hp c hc])
      · exact hskip.1
      · exact hskip.1.1
  have hprefers : Prefers positiveQuantifiersPattern (d ++ v) (d ++ u) := by
    refine ((prefers_number hd hhead).group 1).seq ?_ plain_quantityTail
    rw [List.drop_left]
    exact hu
  obtain ⟨mt, hsearch, hpre, htext, -⟩ := search_of_prefers (hblocked _) hprefers
  rw [← List.append_assoc] at hsearch
  obtain ⟨number, rest, hnumber, htext', hgroup, hposition, -, x, t, rfl, hx⟩ :=
    quantity_match hsearch
  obtain ⟨y, u', rfl, hy⟩ := first_quantityTail hu.mem
  have hsame : number = d :=
    (run_unique hnumber.digits hd.digits hx hy (htext'.symm.trans htext)).1
  exact ⟨mt, hsearch, hpre, hgroup.trans hsame, hposition⟩

theorem search_quantity_none (hp : DigitFree p) (hd : Number d) (hv : DigitFree v)
    (htail : choices quantityTail v = []) :
    positiveQuantifiersPattern.search (p ++ d ++ v) = none := by
  cases hsearch : positiveQuantifiersPattern.search (p ++ d ++ v) with
  | none => rfl
  | some mt =>
      obtain ⟨number, rest, hnumber, htext, -, -, hchoice, x, t, rfl, hx⟩ :=
        quantity_match hsearch
      have hsplit := Match.search_splits hsearch
      rw [htext] at hsplit
      obtain ⟨u, c, hlast⟩ := List.eq_nil_or_concat number |>.resolve_left hnumber.nonempty
      have hv' : x :: (t ++ mt.post) = v := by
        refine digits_end (w := mt.pre ++ number) (u := mt.pre ++ u) (c := c) hp hd.digits hv ?_
          ?_ (hnumber.digits c (by simp [hlast])) hx
        · rw [hsplit]
          simp only [List.append_assoc, List.cons_append]
        · rw [hlast, List.concat_eq_append, List.append_assoc]
      rw [List.cons_append, hv', htail] at hchoice
      cases hchoice

theorem loop_quantity (hp : DigitFree p) (hd : Number d) (hv : DigitFree v) {cs : List Char}
    (hcs : number true d = Except.ok cs) :
    loop (rule positiveQuantifiersPattern 1 quantityText) () (p ++ d ++ v) =
      Except.ok (if choices quantityTail v = [] then p ++ d ++ v
        else p ++ Utf8.units cs ++ v) := by
  have hmust : positiveQuantifiersPattern.Must fun c => isDigit c = true :=
    Or.inl (Or.inl fun _ h => h)
  by_cases htail : choices quantityTail v = []
  · rw [if_pos htail]
    exact loop_of_runs effective_positiveQuantifiers hmust
      (Rule.Runs.done (search_quantity_none hp hd hv htail))
  · rw [if_neg htail]
    obtain ⟨mt, hsearch, hpre, hgroup, hposition⟩ := search_quantity_some hp hd hv htail
    have hbody : (rule positiveQuantifiersPattern 1 quantityText).body () mt.group =
        Except.ok ((), Utf8.units cs) := by
      show number true (mt.group 1) >>= _ = _
      rw [hgroup, hcs]
      rfl
    have hreplaced : (rule positiveQuantifiersPattern 1 quantityText).replaced (p ++ d ++ v) mt
        (Utf8.units cs) = p ++ Utf8.units cs ++ v := by
      show splice (p ++ d ++ v) (mt.position 1) (mt.group 1).length _ = _
      rw [hposition, hpre, hgroup]
      simp [splice]
    have hfree : DigitFree (p ++ Utf8.units cs ++ v) := by
      have haudible := digitFree_of_audible (audible_units (audible_number hcs))
      exact List.forall_mem_append.mpr ⟨List.forall_mem_append.mpr ⟨hp, haudible⟩, hv⟩
    refine loop_of_runs effective_positiveQuantifiers hmust (Rule.Runs.round hsearch hbody ?_)
    rw [hreplaced]
    exact Rule.Runs.done (search_digitFree hmust hfree)

end Quantity

/-- The number `d` in front of the measure word `q` is read as a number. -/
def ReadsQuantity (n : TextNormalizer) (p d q r : WString) : Prop :=
  exists cs, (MultiDigit2TextW d false true n).1 = Except.ok (Utf8.encodeChars cs) ∧
    (RePositiveQuantifiers (p ++ d ++ q ++ r) n).1 =
      Except.ok (p ++ Utf8.units cs ++ q ++ r)

theorem choices_quantityTail {q r : WString} (hq : q ∈ measureWords) :
    choices quantityTail (q ++ r) = [] ↔ ¬ Found q r := by
  rw [← choices_common_quantifiers hq, not_not]
  have hplain := plain_common_quantifiers
  constructor
  · intro htail
    rw [List.eq_nil_iff_forall_not_mem] at htail ⊢
    intro t ht
    refine htail t ((mem_choices_seq hplain).mpr ⟨[], t, rfl, ?_, ht⟩)
    rw [choices_opt]
    exact List.mem_append_right _ (List.mem_singleton_self [])
  · intro hnone
    have hskip : choices (opt (group 2 (cls "多余几"))) (q ++ r) = [[]] := by
      have hnot : ¬ Found q r := by
        rw [← choices_common_quantifiers hq, not_not]
        exact hnone
      have hhead : q ∈ hidden ∨ q = ['万'.val] := by
        by_contra hother
        rw [not_or] at hother
        exact hnot ⟨hother.1, fun hwan => absurd hwan hother.2⟩
      have hsymbol : exists x, q = [x] ∧ x ∉ wstr "多余几" := by
        rcases hhead with hmem | rfl
        · exact exists_of_mem_hidden hmem
        · exact ⟨_, rfl, by decide⟩
      obtain ⟨x, rfl, hx⟩ := hsymbol
      rw [choices_opt, choices_group, cls, List.singleton_append, choices_set_cons,
        decide_eq_false hx]
      rfl
    rw [quantityTail, cat, cat, choices_seq _ hplain, hskip, List.flatMap_cons,
      List.length_nil, List.drop_zero, hnone]
    rfl

theorem RePositiveQuantifiers_eq {n : TextNormalizer} {p d q r : WString} {cs : List Char}
    (hn : Valid n) (hd : Number d) (hcs : number true d = Except.ok cs)
    (hq : q ∈ measureWords) (hp : DigitFree p) (hr : DigitFree r) :
    (RePositiveQuantifiers (p ++ d ++ q ++ r) n).1 =
      Except.ok (if choices quantityTail (q ++ r) = [] then p ++ d ++ q ++ r
        else p ++ Utf8.units cs ++ q ++ r) := by
  have hqr : DigitFree (q ++ r) :=
    List.forall_mem_append.mpr ⟨digitFree_measureWord hq, hr⟩
  have hloop := loop_quantity hp hd hqr hcs
  simp only [← List.append_assoc _ q r] at hloop
  exact (refines_positiveQuantifiers.rewriteLoop _ () _ n hn).1.trans hloop

/-- The number is read as a quantity exactly when the pattern has its measure word. -/
theorem RePositiveQuantifiers_iff (n : TextNormalizer) (p d q r : WString) (hn : Valid n)
    (hd : Number d) (hvalue : value d ≤ 2147483647) (hq : q ∈ measureWords)
    (hp : DigitFree p) (hr : DigitFree r) :
    ReadsQuantity n p d q r ↔ Found q r := by
  obtain ⟨cs, hcs⟩ := number_of_le true hd.nonempty hvalue
  have hread : (MultiDigit2TextW d false true n).1 = Except.ok (Utf8.encodeChars cs) := by
    rw [(computes_number true hd.digits n hn).1, hcs]
    rfl
  have hrun := RePositiveQuantifiers_eq hn hd hcs hq hp hr
  constructor
  · rintro ⟨ds, hds, hres⟩
    rw [hread] at hds
    rw [← Utf8.encodeChars_injective (Except.ok.inj hds), hrun] at hres
    by_contra hnot
    rw [if_pos ((choices_quantityTail hq).mpr hnot)] at hres
    have hsame : d = Utf8.units cs :=
      List.append_cancel_left (List.append_cancel_right
        (List.append_cancel_right (Except.ok.inj hres)))
    obtain ⟨c, hc, hdigit⟩ := hd.exists_digit
    rw [hsame] at hc
    rw [digitFree_of_audible (audible_units (audible_number hcs)) c hc] at hdigit
    cases hdigit
  · intro hfound
    refine ⟨cs, hread, ?_⟩
    rw [hrun, if_neg fun hnone => (choices_quantityTail hq).mp hnone hfound]

theorem RePositiveQuantifiers_iff_flowers :
    ReadsQuantity construct (wstr "有") (wstr "123") (wstr "朵") (wstr "花") := by
  have hd : Number (wstr "123") :=
    ⟨by decide, List.all_eq_true.mp (by decide)⟩
  have hq : wstr "朵" ∈ measureWords :=
    List.mem_map.mpr ⟨wstr "朵", List.mem_append_left _ (List.mem_singleton_self _), by decide⟩
  have hfree : forall w : WString, (w.all fun c => !isDigit c) = true -> DigitFree w := by
    intro w h c hc
    simpa using List.all_eq_true.mp h c hc
  exact (RePositiveQuantifiers_iff construct (wstr "有") (wstr "123") (wstr "朵") (wstr "花")
    valid_construct.valid hd (by decide) hq (hfree _ (by decide)) (hfree _ (by decide))).mpr
    ⟨by decide, fun hwan => absurd hwan (by decide)⟩

/-- A measure word at the beginning of a source line: the number is read as a code. -/
theorem RePositiveQuantifiers_walls :
    wstr "墙" ∈ measureWords ∧
      (RePositiveQuantifiers ([] ++ wstr "123" ++ wstr "墙" ++ []) construct).1 =
        Except.ok (wstr "123墙") ∧
      (ReDefalutNum (wstr "123墙") construct).1 = Except.ok (wstr "一二三墙") ∧
      ¬ ReadsQuantity construct [] (wstr "123") (wstr "墙") [] := by
  have hd : Number (wstr "123") :=
    ⟨by decide, List.all_eq_true.mp (by decide)⟩
  have hq : wstr "墙" ∈ measureWords := by
    refine List.mem_map.mpr ⟨wstr "     墙", ?_, by decide⟩
    simp only [quantifierTexts, List.mem_append, List.mem_singleton, true_or, or_true]
  have hnil : DigitFree [] := fun _ hc => nomatch hc
  have hhidden : ¬ Found (wstr "墙") [] := fun hfound => hfound.1 (by decide)
  have hcs : number true (wstr "123") = Except.ok "一百二十三".toList := by
    decide +kernel
  have hrun := RePositiveQuantifiers_eq valid_construct.valid hd hcs hq hnil hnil
  rw [if_pos ((choices_quantityTail hq).mpr hhidden)] at hrun
  refine ⟨hq, hrun.trans (by decide), by decide +kernel, ?_⟩
  rintro ⟨ds, hds, hres⟩
  rw [hrun] at hres
  have hread : (MultiDigit2TextW (wstr "123") false true construct).1 =
      Except.ok (Utf8.encodeChars "一百二十三".toList) := by
    decide +kernel
  rw [hread] at hds
  rw [← Utf8.encodeChars_injective (Except.ok.inj hds)] at hres
  exact absurd (Except.ok.inj hres) (by decide)

end Spoken
end VoiceTts
