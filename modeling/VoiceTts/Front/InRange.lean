import VoiceTts.Front.SplitWords
import VoiceTts.Front.Tones

/-!
# Tone changes that stay in range

`ModifyTone` subscripts the characters of a word and its finals without looking at
their numbers.  With one final per character every subscript of its steps is in
range, but for one word: the test for 第一 reads the second character of a
word that starts with 第, and that word may be 第 alone.
-/

namespace VoiceTts
namespace FrontEngineInterface

/-!
## One final per character
-/

/-- A final with another tone. -/
def toned (t : UInt8) (final : CString) : CString :=
  final.dropLast ++ [t]

theorem toned_ne_nil (t : UInt8) (final : CString) : toned t final ≠ [] := by
  simp [toned]

theorem toned_eq_self {t : UInt8} {f : CString} (hf : f ≠ []) :
    toned t f = f ↔ f.getLast? = some t := by
  constructor
  · intro h
    rw [← h]
    simp [toned]
  · intro h
    have hlast : f.getLast hf = t := by
      rw [List.getLast?_eq_some_getLast hf, Option.some.injEq] at h
      exact h
    rw [toned, ← hlast, List.dropLast_append_getLast]

/-- The final at a position has the tone `t`. -/
def HasTone (finals : List CString) (i : Nat) (t : UInt8) : Prop :=
  exists f, finals[i]? = some f ∧ f.getLast? = some t

/-- As many finals as characters, each of them with a tone. -/
structure Fits (n : Nat) (finals : List CString) : Prop where
  length_eq : finals.length = n
  ne_nil : forall f, f ∈ finals -> f ≠ []

namespace Fits

variable {n m : Nat} {finals front rear : List CString} {E : Error -> Prop}

theorem append (hfront : Fits n front) (hrear : Fits m rear) :
    Fits (n + m) (front ++ rear) where
  length_eq := by
    rw [List.length_append, hfront.length_eq, hrear.length_eq]
  ne_nil := by
    intro f hf
    cases List.mem_append.mp hf with
    | inl h =>
        exact hfront.ne_nil f h
    | inr h =>
        exact hrear.ne_nil f h

theorem retone (h : Fits n finals) {f : CString} (hf : f ∈ finals) (t : UInt8) :
    retone f t = Except.ok (toned t f) := by
  unfold FrontEngineInterface.retone
  rw [if_neg (h.ne_nil f hf)]
  rfl

theorem modify (h : Fits n finals) (i : Nat) (t : UInt8) :
    Fits n (finals.modify i (toned t)) where
  length_eq := by
    rw [List.length_modify]
    exact h.length_eq
  ne_nil := by
    intro f hf
    rcases List.mem_iff_getElem?.mp hf with ⟨j, hj⟩
    rw [List.getElem?_modify] at hj
    rcases Option.map_eq_some_iff.mp hj with ⟨g, hg, hfg⟩
    rw [← hfg]
    split
    · exact toned_ne_nil t g
    · exact h.ne_nil g (List.mem_of_getElem? hg)

theorem setTone_eq (h : Fits n finals) (c : Container) {i : Nat} (hi : i < n)
    (t : UInt8) : setTone c finals i t = Except.ok (finals.modify i (toned t)) := by
  have hlt : i < finals.length := by
    rw [h.length_eq]
    exact hi
  unfold FrontEngineInterface.setTone
  rw [elementAt_of_lt c finals hlt, ok_bind, h.retone (List.getElem_mem hlt), ok_bind,
    List.modify_eq_take_cons_drop hlt, List.set_eq_take_append_cons_drop, if_pos hlt]
  rfl

theorem setLastTone_eq (h : Fits n finals) (c : Container) (hn : 0 < n) (t : UInt8) :
    setLastTone c finals t = Except.ok (finals.modify (n - 1) (toned t)) := by
  rcases List.eq_nil_or_concat finals with rfl | ⟨pre, last, rfl⟩
  · have hzero : 0 = n := h.length_eq
    exact absurd hzero (Nat.ne_of_lt hn)
  · rw [List.concat_eq_append] at h ⊢
    have hlast : last ∈ pre ++ [last] := by
      simp
    have hn : n - 1 = pre.length := by
      rw [← h.length_eq]
      simp
    unfold FrontEngineInterface.setLastTone
    rw [back_concat, ok_bind, h.retone hlast, ok_bind, hn, List.dropLast_concat,
      List.modify_eq_take_cons_drop (by simp)]
    simp [toned]
    rfl

theorem setTone (h : Fits n finals) (c : Container) {i : Nat} (hi : i < n)
    (t : UInt8) : Yields (Fits n) E (setTone c finals i t) := by
  rw [h.setTone_eq c hi t]
  exact h.modify i t

theorem setLastTone (h : Fits n finals) (c : Container) (hn : 0 < n) (t : UInt8) :
    Yields (Fits n) E (setLastTone c finals t) := by
  rw [h.setLastTone_eq c hn t]
  exact h.modify (n - 1) t

theorem hasTone_iff (h : Fits n finals) {i : Nat} (hi : i < finals.length) (t : UInt8) :
    HasTone finals i t ↔ toned t finals[i] = finals[i] := by
  rw [toned_eq_self (h.ne_nil _ (List.getElem_mem hi))]
  unfold HasTone
  rw [List.getElem?_eq_getElem hi]
  simp

theorem toneAt (h : Fits n finals) (c : Container) {i : Nat} (hi : i < n) :
    Yields (fun _ => True) E (toneAt c finals i) := by
  have hlt : i < finals.length := by
    rw [h.length_eq]
    exact hi
  have hne : finals[i] ≠ [] := h.ne_nil _ (List.getElem_mem hlt)
  unfold FrontEngineInterface.toneAt
  rw [elementAt_of_lt c finals hlt, ok_bind]
  exact (back_of_ne_nil Container.final hne).mono (fun _ ha => ha) (fun _ he => he.elim)

theorem cutFinals (h : Fits n finals) (hm : m ≤ n) :
    Yields (fun p => Fits m p.1 ∧ Fits (n - m) p.2) E (cutFinals finals m) := by
  have hle : m ≤ finals.length := by
    rw [h.length_eq]
    exact hm
  unfold FrontEngineInterface.cutFinals
  rw [if_pos hle]
  constructor
  · constructor
    · exact List.length_take_of_le hle
    · intro f hf
      exact h.ne_nil f (List.mem_of_mem_take hf)
  · constructor
    · rw [List.length_drop, h.length_eq]
    · intro f hf
      exact h.ne_nil f (List.mem_of_mem_drop hf)

theorem AllToneThree (h : Fits n finals) :
    Yields (fun flags => flags = false -> 0 < n) E (AllToneThree finals) := by
  induction finals generalizing n with
  | nil =>
      intro hflags
      cases hflags
  | cons f finals ih =>
      have hn : 0 < n := by
        rw [← h.length_eq]
        exact Nat.succ_pos _
      have hrest : Fits finals.length finals :=
        ⟨rfl, fun g hg => h.ne_nil g (List.mem_cons_of_mem f hg)⟩
      have hf : f ≠ [] := h.ne_nil f List.mem_cons_self
      unfold FrontEngineInterface.AllToneThree
      refine ((back_of_ne_nil Container.final hf).mono (fun _ ha => ha)
        (fun _ he => he.elim)).bind ?_
      intro c _
      refine (ih hrest).bind ?_
      intro flags _ _
      exact hn

end Fits

/-!
## 不 and 一
-/

section Word

variable {cs : List Char} {finals : List CString} {E : Error -> Prop}

theorem buSandiStep_fits (h : Fits cs.length finals) (i : Nat) :
    Yields (Fits cs.length) E (buSandiStep (cs.map letter) finals i) := by
  unfold buSandiStep
  split
  · rename_i hcond
    have hi : i + 1 < cs.length := by
      rw [← length_letters cs]
      exact hcond.2
    refine (h.toneAt Container.finals hi).bind ?_
    intro tone _
    split
    · exact h.setTone Container.finals (Nat.lt_of_succ_lt hi) 50
    · exact h
  · exact h

theorem BuSandi_fits (h : Fits cs.length finals) :
    Yields (Fits cs.length) E (BuSandi (Utf8.encodeChars cs) finals) := by
  unfold BuSandi
  rw [Word2WordVec_encodeChars, ok_bind]
  split
  · rename_i hcond
    have hlength : cs.length = 3 := by
      rw [← length_letters cs]
      exact hcond.1
    exact h.setTone Container.finals (by omega) 53
  · exact Yields.foldlM_range _ finals (fun _ => Fits cs.length) _ h
      fun i _ _ hb => buSandiStep_fits hb i

theorem yiSandhiStep_fits (h : Fits cs.length finals) (i : Nat) :
    Yields (Fits cs.length) E (yiSandhiStep (cs.map letter) finals i) := by
  unfold yiSandhiStep
  split
  · rename_i hcond
    have hi : i + 1 < cs.length := by
      rw [← length_letters cs]
      exact hcond.2
    refine (h.toneAt Container.finals hi).bind ?_
    intro tone _
    exact h.setTone Container.finals (Nat.lt_of_succ_lt hi) _
  · exact h

theorem isOrdinal_letters (hcs : cs ≠ []) (hdi : cs ≠ ['第']) :
    isOrdinal (cs.map letter) = Except.ok (decide (['第', '一'] <+: cs)) := by
  cases cs with
  | nil =>
      exact absurd rfl hcs
  | cons c cs =>
      by_cases hc : c = '第'
      · subst hc
        cases cs with
        | nil =>
            exact absurd rfl hdi
        | cons d cs =>
            have hd : letter d = wstr "一" ↔ ['第', '一'] <+: '第' :: d :: cs := by
              rw [List.prefix_cons_inj, List.cons_prefix_cons]
              constructor
              · intro h
                have hletter : letter d = letter '一' := h
                exact ⟨(letter_injective hletter).symm, List.nil_prefix⟩
              · intro h
                rw [← h.1]
                rfl
            change Except.ok (decide (letter d = wstr "一")) = _
            simp only [hd]
      · have hletter : letter c ≠ wstr "第" := by
          intro h
          have hsame : letter c = letter '第' := h
          exact hc (letter_injective hsame)
        have hprefix : ¬ ['第', '一'] <+: c :: cs := by
          intro h
          exact hc (List.cons_prefix_cons.mp h).1.symm
        change (if letter c = wstr "第" then _ else Except.ok false) = _
        rw [if_neg hletter, decide_eq_false hprefix]

theorem YiSandhi_fits (h : Fits cs.length finals) (hcs : cs ≠ []) (hdi : cs ≠ ['第']) :
    Yields (Fits cs.length) E (YiSandhi (Utf8.encodeChars cs) finals) := by
  unfold YiSandhi
  rw [Word2WordVec_encodeChars, ok_bind]
  split
  · exact h
  · split
    · rename_i hcond
      have hlength : cs.length = 3 := by
        rw [← length_letters cs]
        exact hcond.1
      exact h.setTone Container.finals (by omega) 53
    · rw [isOrdinal_letters hcs hdi, ok_bind]
      split
      · rename_i hordinal
        have htwo : 2 ≤ cs.length := (of_decide_eq_true hordinal).length_le
        exact h.setTone Container.finals (by omega) 49
      · exact Yields.foldlM_range _ finals (fun _ => Fits cs.length) _ h
          fun i _ _ hb => yiSandhiStep_fits hb i

end Word

/-- For 第 alone the test for 第一 reads behind the end of `wordvec`. -/
theorem YiSandhi_di (finals : List CString) :
    YiSandhi (str "第") finals = Except.error (Error.access Container.wordvec) :=
  rfl

/--
With one final per character the first two steps stay in range exactly for the
words other than 第.
-/
theorem BuSandi_YiSandhi_in_range_iff (cs : List Char) (finals : List CString)
    (hcs : cs ≠ []) (hlength : finals.length = cs.length)
    (hfinals : forall f, f ∈ finals -> f ≠ []) :
    ((exists r, BuSandi (Utf8.encodeChars cs) finals = Except.ok r) ∧
      exists r, YiSandhi (Utf8.encodeChars cs) finals = Except.ok r) ↔
      cs ≠ ['第'] := by
  have hfits : Fits cs.length finals := ⟨hlength, hfinals⟩
  constructor
  · intro hrange hdi
    subst hdi
    rcases hrange.2 with ⟨r, hr⟩
    have herror := YiSandhi_di finals
    change YiSandhi (Utf8.encodeChars ['第']) finals = _ at herror
    rw [hr] at herror
    cases herror
  · intro hdi
    constructor
    · rcases (BuSandi_fits hfits).exists_ok with ⟨r, hr, -⟩
      exact ⟨r, hr⟩
    · rcases (YiSandhi_fits hfits hcs hdi).exists_ok with ⟨r, hr, -⟩
      exact ⟨r, hr⟩

/-- 一起 and 第 -/
theorem BuSandi_YiSandhi_in_range_together :
    ((exists r, BuSandi (str "一起") [str "i1", str "i3"] = Except.ok r) ∧
      exists r, YiSandhi (str "一起") [str "i1", str "i3"] = Except.ok r) :=
  (BuSandi_YiSandhi_in_range_iff ['一', '起'] [str "i1", str "i3"] (by decide) (by decide)
    (by decide)).mpr (by decide)

theorem YiSandhi_out_of_range_di :
    ['第'].length = [str "i4"].length ∧ (forall f, f ∈ [str "i4"] -> f ≠ []) ∧
      YiSandhi (Utf8.encodeChars ['第']) [str "i4"] =
        Except.error (Error.access Container.wordvec) := by
  decide

/-!
## Neutral tones
-/

section Neutral

variable {cs as bs : List Char} {finals : List CString}

theorem reduplicationStep_fits (h : Fits cs.length finals) (pos : CString) (j : Nat)
    (hj : j < cs.length) :
    Yields (Fits cs.length) (fun _ => False)
      (reduplicationStep (cs.map letter) pos finals j) := by
  unfold reduplicationStep
  split
  · exact h.setTone Container.finals hj 53
  · exact h

theorem neutralEnd_fits (h : Fits cs.length finals) (hcs : cs ≠ []) (pos : CString) :
    Yields (Fits cs.length) (fun _ => False)
      (neutralEnd (Utf8.encodeChars cs) (Utf8.units cs) pos finals) := by
  unfold neutralEnd
  refine (endsNeutral_units cs pos).bind ?_
  intro neutral _
  split
  · exact h.setLastTone Container.finals (List.length_pos_iff.mpr hcs) 53
  · exact h

theorem neutralPart_fits (h : Fits cs.length finals) :
    Yields (Fits cs.length) (fun _ => False)
      (neutralPart (Utf8.encodeChars cs) finals) := by
  unfold neutralPart
  rw [utf8string2wstring_encodeChars, ok_bind, mustBeNeutral_units, ok_bind]
  split
  · rename_i hlisted
    have hcs : cs ≠ [] := by
      intro hnil
      subst hnil
      exact not_listed_of_length (by decide) (of_decide_eq_true hlisted)
    exact h.setLastTone Container.finals_list (List.length_pos_iff.mpr hcs) 53
  · exact h

theorem neutralParts_fits (h : Fits (as ++ bs).length finals) :
    Yields (Fits (as ++ bs).length) (fun _ => False)
      (neutralParts [Utf8.encodeChars as, Utf8.encodeChars bs] finals) := by
  have hlength : (Utf8.units as).length = as.length := List.length_map Char.val
  have hboth : (as ++ bs).length = as.length + bs.length := List.length_append
  unfold neutralParts
  change Yields _ _ (utf8string2wstring (Utf8.encodeChars as) >>= _)
  rw [utf8string2wstring_encodeChars, ok_bind, hlength]
  refine (h.cutFinals (by omega)).bind ?_
  intro parts hparts
  rw [hboth, Nat.add_sub_cancel_left] at hparts
  refine (neutralPart_fits hparts.1).bind ?_
  intro front hfront
  refine (neutralPart_fits hparts.2).bind ?_
  intro rear hrear
  rw [hboth]
  exact hfront.append hrear

theorem NeuralSandhi_fits {st : Setup} {pos : CString} (has : as ≠ [])
    (hsplit : SplitWord st (Utf8.encodeChars (as ++ bs)) =
      Except.ok [Utf8.encodeChars as, Utf8.encodeChars bs])
    (h : Fits (as ++ bs).length finals) :
    Yields (Fits (as ++ bs).length) (fun _ => False)
      (NeuralSandhi st (Utf8.encodeChars (as ++ bs)) pos finals) := by
  have hne : as ++ bs ≠ [] := List.append_ne_nil_of_left_ne_nil has bs
  unfold NeuralSandhi
  rw [utf8string2wstring_encodeChars, ok_bind, Word2WordVec_encodeChars, ok_bind,
    length_letters]
  have hloop := Yields.foldlM_range (E := fun _ : Error => False)
    (reduplicationStep ((as ++ bs).map letter) pos) finals
    (fun _ => Fits (as ++ bs).length) (as ++ bs).length h
    fun j _ hj hb => reduplicationStep_fits hb pos j hj
  refine hloop.bind ?_
  intro finals1 h1
  refine (neutralEnd_fits h1 hne pos).bind ?_
  intro finals2 h2
  rw [hsplit, ok_bind]
  split
  · rename_i hnil
    rw [hnil] at h2
    exact h2
  · exact neutralParts_fits h2

end Neutral

/-!
## Third tones
-/

section Third

variable {n m : Nat} {finals front rear : List CString}

theorem raisePair_fits (h : Fits n finals) :
    Yields (Fits n) (fun _ => False) (raisePair finals) := by
  unfold raisePair
  refine h.AllToneThree.bind ?_
  intro flags _
  split
  · rename_i hpair
    rw [Bool.and_eq_true, decide_eq_true_eq, h.length_eq] at hpair
    exact h.setTone Container.finals_list (by omega) 50
  · exact h

theorem raiseEdge_fits (hfront : Fits n front) (hrear : Fits m rear) (hn : 0 < n)
    (hm : 0 < m) : Yields (Fits n) (fun _ => False) (raiseEdge front rear) := by
  unfold raiseEdge
  refine (hrear.toneAt Container.finals_list hm).bind ?_
  intro first _
  split
  · rcases List.eq_nil_or_concat front with rfl | ⟨pre, last, rfl⟩
    · have hzero : 0 = n := hfront.length_eq
      exact absurd hzero (Nat.ne_of_lt hn)
    · rw [List.concat_eq_append] at hfront ⊢
      have hlast : last ≠ [] := hfront.ne_nil last (by simp)
      rw [back_concat, ok_bind]
      refine (back_of_ne_nil Container.final hlast).bind ?_
      intro tone _
      split
      · exact hfront.setLastTone Container.finals_list hn 50
      · exact hfront
  · exact hfront

theorem raiseParts_fits (hfront : Fits n front) (hrear : Fits m rear) (hn : 0 < n) :
    Yields (Fits (n + m)) (fun _ => False) (raiseParts front rear) := by
  unfold raiseParts
  refine (raisePair_fits hfront).bind ?_
  intro front1 hfront1
  refine hrear.AllToneThree.bind ?_
  intro flags hflags
  cases flags with
  | true =>
      refine (raisePair_fits hrear).bind ?_
      intro rear1 hrear1
      exact hfront1.append hrear1
  | false =>
      refine (raiseEdge_fits hfront1 hrear hn (hflags rfl)).bind ?_
      intro front2 hfront2
      exact hfront2.append hrear

theorem raiseThree_fits (h : Fits 3 finals) (k : Nat) :
    Yields (Fits 3) (fun _ => False) (raiseThree k finals) := by
  unfold raiseThree
  split
  · refine (h.setTone Container.finals (by decide) 50).bind ?_
    intro finals1 h1
    exact h1.setTone Container.finals (by decide) 50
  · split
    · exact h.setTone Container.finals (by decide) 50
    · exact h

theorem raiseHalf_fits (h : Fits n finals) (hn : 0 < n) :
    Yields (Fits n) (fun _ => False) (raiseHalf finals) := by
  unfold raiseHalf
  refine h.AllToneThree.bind ?_
  intro flags _
  split
  · exact h.setTone Container.finals_list hn 50
  · exact h

theorem ThreeSandhi_fits {st : Setup} {as bs : List Char} (has : as ≠ [])
    (hsplit : SplitWord st (Utf8.encodeChars (as ++ bs)) =
      Except.ok [Utf8.encodeChars as, Utf8.encodeChars bs])
    (h : Fits (as ++ bs).length finals) :
    Yields (Fits (as ++ bs).length) (fun _ => False)
      (ThreeSandhi st (Utf8.encodeChars (as ++ bs)) finals) := by
  have hpos : 0 < as.length := List.length_pos_iff.mpr has
  have hunits : (Utf8.units as).length = as.length := List.length_map Char.val
  have hboth : (as ++ bs).length = as.length + bs.length := List.length_append
  unfold ThreeSandhi
  rw [Word2WordVec_encodeChars, ok_bind, length_letters]
  split
  · rename_i htwo
    refine h.AllToneThree.bind ?_
    intro flags _
    split
    · exact h.setTone Container.finals (by omega) 50
    · exact h
  · rename_i hthree
    rw [hsplit, ok_bind]
    refine h.AllToneThree.bind ?_
    intro flags _
    change Yields _ _ (utf8string2wstring (Utf8.encodeChars as) >>= _)
    rw [utf8string2wstring_encodeChars, ok_bind, hunits]
    split
    · rw [hthree] at h ⊢
      exact raiseThree_fits h as.length
    · refine (h.cutFinals (by omega)).bind ?_
      intro parts hparts
      rw [hboth, Nat.add_sub_cancel_left] at hparts
      rw [hboth]
      exact raiseParts_fits hparts.1 hparts.2 hpos
  · rename_i hfour
    rw [hfour] at h ⊢
    refine (h.cutFinals (by decide)).bind ?_
    intro parts hparts
    refine (raiseHalf_fits hparts.1 (by decide)).bind ?_
    intro front1 hfront
    refine (raiseHalf_fits hparts.2 (by decide)).bind ?_
    intro rear1 hrear
    exact hfront.append hrear
  · exact h

end Third

/-!
## The whole of `ModifyTone`
-/

/-- A final that ends in one of the tone digits from 1 to 5. -/
def EndsInTone (final : CString) : Prop :=
  exists t, final.getLast? = some t ∧ t ∈ [49, 50, 51, 52, 53]

theorem EndsInTone.ne_nil {final : CString} (h : EndsInTone final) : final ≠ [] := by
  intro hnil
  subst hnil
  rcases h with ⟨t, ht, -⟩
  cases ht

theorem ModifyTone_fits {st : Setup} {pos : CString} {as bs : List Char}
    {finals : List CString} (has : as ≠ []) (htwo : 2 ≤ (as ++ bs).length)
    (hsplit : SplitWord st (Utf8.encodeChars (as ++ bs)) =
      Except.ok [Utf8.encodeChars as, Utf8.encodeChars bs])
    (h : Fits (as ++ bs).length finals) :
    Yields (Fits (as ++ bs).length) (fun _ => False)
      (ModifyTone st (Utf8.encodeChars (as ++ bs)) pos finals) := by
  have hne : as ++ bs ≠ [] := List.append_ne_nil_of_left_ne_nil has bs
  have hdi : as ++ bs ≠ ['第'] := by
    intro heq
    rw [heq] at htwo
    exact absurd htwo (by decide)
  unfold ModifyTone
  refine (BuSandi_fits h).bind ?_
  intro finals1 h1
  refine (YiSandhi_fits h1 hne hdi).bind ?_
  intro finals2 h2
  refine (NeuralSandhi_fits has hsplit h2).bind ?_
  intro finals3 h3
  exact ThreeSandhi_fits has hsplit h3

theorem Painted.forall₂_tone {finals result tones : List CString}
    (h : Painted (fun t => t ∈ newTones) finals result tones)
    (hfinals : forall f, f ∈ finals -> EndsInTone f) :
    List.Forall₂ (fun f g => g.dropLast = f.dropLast ∧ EndsInTone g) finals result := by
  rcases h with ⟨cells, rfl, rfl, -⟩
  rw [List.forall₂_map_left_iff, List.forall₂_map_right_iff, List.forall₂_same]
  intro cell hcell
  have hbefore := hfinals cell.before (List.mem_map_of_mem hcell)
  cases cell with
  | empty =>
      exact ⟨rfl, hbefore⟩
  | toned stem was now sound =>
      constructor
      · simp [Cell.final, Cell.before]
      · refine ⟨now, by simp [Cell.final], ?_⟩
        cases sound with
        | inl hsame =>
            rcases hbefore with ⟨t, ht, hmem⟩
            have hwas : was = t := by
              simpa [Cell.before] using ht
            rw [hsame, hwas]
            exact hmem
        | inr hnew =>
            exact (by decide : forall t, t ∈ newTones -> t ∈ [49, 50, 51, 52, 53]) _ hnew

/--
For a word of at least two characters with one final per character `ModifyTone`
stays in range and returns, and of each final it changes the tone only.
-/
theorem ModifyTone_changes_tones (st : Setup) (as bs : List Char) (pos : CString)
    (finals : List CString) (htwo : 2 ≤ (as ++ bs).length) (has : as ≠ [])
    (hsplit : SplitWord st (Utf8.encodeChars (as ++ bs)) =
      Except.ok [Utf8.encodeChars as, Utf8.encodeChars bs])
    (hlength : finals.length = (as ++ bs).length)
    (hfinals : forall f, f ∈ finals -> EndsInTone f) :
    exists result, ModifyTone st (Utf8.encodeChars (as ++ bs)) pos finals =
        Except.ok result ∧
      result.length = finals.length ∧
      List.Forall₂ (fun f g => g.dropLast = f.dropLast ∧ EndsInTone g)
        finals result := by
  have hne : forall f, f ∈ finals -> f ≠ [] := fun f hf => (hfinals f hf).ne_nil
  have hyields : Yields (Fits (as ++ bs).length) (fun _ => False)
      (ModifyTone st (Utf8.encodeChars (as ++ bs)) pos finals) :=
    ModifyTone_fits has htwo hsplit ⟨hlength, hne⟩
  rcases hyields.exists_ok with ⟨result, hresult, hfits⟩
  rcases ModifyTone_painted hresult with ⟨tones, hpainted⟩
  refine ⟨result, hresult, ?_, hpainted.forall₂_tone hfinals⟩
  rw [hfits.length_eq, hlength]

instance (final : CString) : Decidable (EndsInTone final) :=
  inferInstanceAs (Decidable (exists t, final.getLast? = some t ∧ t ∈ [49, 50, 51, 52, 53]))

/-- 小雨伞 -/
theorem ModifyTone_changes_tones_umbrella :
    SplitWord (cutting [str "小", str "雨伞"]) (Utf8.encodeChars (['小'] ++ ['雨', '伞'])) =
        Except.ok [Utf8.encodeChars ['小'], Utf8.encodeChars ['雨', '伞']] ∧
      exists result, ModifyTone (cutting [str "小", str "雨伞"])
          (Utf8.encodeChars (['小'] ++ ['雨', '伞'])) (str "n")
          [str "iao3", str "v3", str "an3"] = Except.ok result ∧
        result.length = [str "iao3", str "v3", str "an3"].length ∧
        List.Forall₂ (fun f g => g.dropLast = f.dropLast ∧ EndsInTone g)
          [str "iao3", str "v3", str "an3"] result :=
  ⟨by decide, ModifyTone_changes_tones _ ['小'] ['雨', '伞'] (str "n")
    [str "iao3", str "v3", str "an3"] (by decide) (by decide) (by decide) (by decide)
    (by decide)⟩

end FrontEngineInterface
end VoiceTts
