import VoiceTts.Front.Borders
import VoiceTts.Front.Tags

/-!
# Kinds of words

`GetWordsIds` sends a word to one of four places: a quotation mark is left out, a
punctuation mark becomes a pause, a word tagged `x` goes to the dictionary, and
everything else to the English model.  The merge passes join words without asking
for their kind; this module says exactly which neighbours make them mix kinds.
-/

namespace VoiceTts
namespace FrontEngineInterface

open Blocks

inductive Kind where
  | omitted
  | pause
  | chinese
  | latin
  deriving DecidableEq

/-- The branch that `GetWordsIds` takes for a word. -/
def kind (t : CString × CString) : Kind :=
  if t.2 = str "x" then
    if t.1 ∈ _punc_omit then Kind.omitted
    else if t.1 ∈ _punc then Kind.pause
    else Kind.chinese
  else Kind.latin

/-- A word made of a block of words of its own kind. -/
def SameKind (b : Seg) (t : CString × CString) : Prop :=
  Joined b t ∧ forall u, u ∈ b -> kind u = kind t

/-- A block that may become one word: a single word, or all Chinese, or all Latin. -/
def Alike (b : Seg) : Prop :=
  b.length ≤ 1 ∨ (forall u, u ∈ b -> kind u = Kind.chinese) ∨
    (forall u, u ∈ b -> kind u = Kind.latin)

/-- Neighbours that no word may be made of: of two kinds, or punctuation marks. -/
def Border (u v : CString × CString) : Prop :=
  kind u ≠ kind v ∨ kind u = Kind.omitted ∨ kind u = Kind.pause

/-- Valid UTF-8, and not empty. -/
def ProperWord (w : CString) : Prop :=
  Utf8Word w ∧ w ≠ []

theorem ProperWord.append {u v : CString} (hu : ProperWord u) (hv : ProperWord v) :
    ProperWord (u ++ v) :=
  ⟨hu.1.append hv.1, by simp [hu.2]⟩

/-!
## Texts of two words
-/

theorem decode_mark {w : CString} (h : w ∈ _punc ∨ w ∈ _punc_omit) :
    (Utf8.decode w).map List.length = some 1 := by
  have hall : forall w, w ∈ _punc ++ _punc_omit ->
      (Utf8.decode w).map List.length = some 1 := by
    decide +kernel
  exact hall w (List.mem_append.mpr h)

/-- Two words together are no punctuation mark. -/
theorem text_ne_mark {b : Seg} (hlen : 2 ≤ b.length)
    (hwords : forall t, t ∈ b -> ProperWord t.1) :
    text b ∉ _punc ∧ text b ∉ _punc_omit := by
  match b, hlen with
  | t :: u :: b, _ =>
      rcases hwords t (by simp) with ⟨⟨cs, hcs⟩, ht⟩
      have hrest : ProperWord (text (u :: b)) :=
        word_text (fun _ _ => ProperWord.append) (by simp)
          fun v hv => hwords v (List.mem_cons_of_mem t hv)
      rcases hrest with ⟨⟨ds, hds⟩, hne⟩
      have hcs' : cs ≠ [] := by
        rintro rfl
        exact ht hcs
      have hds' : ds ≠ [] := by
        rintro rfl
        exact hne hds
      have htext : text (t :: u :: b) = Utf8.encodeChars (cs ++ ds) := by
        rw [text_cons, hcs, hds, Utf8.encodeChars_append]
      have hdecode : (Utf8.decode (text (t :: u :: b))).map List.length =
          some (cs.length + ds.length) := by
        rw [htext, Utf8.decode_encodeChars]
        simp [Utf8.units]
      have hpos := List.length_pos_iff.mpr hcs'
      have hpos' := List.length_pos_iff.mpr hds'
      have hnot : ¬ (text (t :: u :: b) ∈ _punc ∨ text (t :: u :: b) ∈ _punc_omit) := by
        intro hmark
        have hone := (decode_mark hmark).symm.trans hdecode
        rw [Option.some.injEq] at hone
        omega
      exact not_or.mp hnot

theorem kind_of_text {t : CString × CString} (h : t.1 ∉ _punc ∧ t.1 ∉ _punc_omit) :
    kind t = Kind.chinese ∨ kind t = Kind.latin := by
  unfold kind
  split
  · exact Or.inl (by simp [h.1, h.2])
  · exact Or.inr rfl

theorem tag_of_kind_chinese {t : CString × CString} (h : kind t = Kind.chinese) :
    t.2 = str "x" := by
  by_contra hne
  rw [kind, if_neg hne] at h
  cases h

theorem tag_of_kind_latin {t : CString × CString} (h : kind t = Kind.latin) :
    t.2 ≠ str "x" := by
  intro hx
  rw [kind, if_pos hx] at h
  split at h
  · cases h
  · split at h
    · cases h
    · cases h

/-!
## Words that come out
-/

/-- A word made of a block of neighbours, tagged `x` if one of them is. -/
def Tagged (b : Seg) (t : CString × CString) : Prop :=
  Joined b t ∧ exists u, u ∈ b ∧ (t.2 = str "x" ↔ u.2 = str "x")

theorem Inherited.tagged {b : Seg} {t : CString × CString} (h : Inherited b t) :
    Tagged b t := by
  rcases h with ⟨hjoined, u, hu, htag⟩
  exact ⟨hjoined, u, hu, by rw [htag]⟩

theorem Tagged.trans {bs : List Seg} {cs : Seg} {t : CString × CString}
    (h : Inherited cs t) (hs : List.Forall₂ Tagged bs cs) : Tagged bs.flatten t := by
  refine ⟨h.1.trans (hs.imp fun _ _ hb => hb.1), ?_⟩
  rcases h.2 with ⟨u, hu, htag⟩
  rcases exists_of_mem_right hs hu with ⟨b, hb, -, v, hv, htag'⟩
  exact ⟨v, List.mem_flatten.mpr ⟨b, hb, hv⟩, htag ▸ htag'⟩

/-- A block of one kind keeps it, whichever of its tags the new word gets. -/
theorem sameKind_of_alike {b : Seg} {t : CString × CString} (h : Tagged b t)
    (hwords : forall u, u ∈ b -> ProperWord u.1) (halike : Alike b) :
    SameKind b t := by
  refine ⟨h.1, ?_⟩
  rcases h with ⟨⟨hne, htext⟩, v, hv, htag⟩
  by_cases hlen : b.length ≤ 1
  · have hone : b.length = 1 := by
      have hpos := List.length_pos_iff.mpr hne
      omega
    rcases List.length_eq_one_iff.mp hone with ⟨w, rfl⟩
    rw [List.mem_singleton] at hv
    subst hv
    rw [text_cons, text_nil, List.append_nil] at htext
    intro u hu
    rw [List.mem_singleton.mp hu, kind, kind, htext]
    simp only [htag]
  · have hmark := text_ne_mark (by omega) hwords
    rw [← htext] at hmark
    rcases halike with hle | hchinese | hlatin
    · exact absurd hle hlen
    · intro u hu
      have hx : t.2 = str "x" := htag.mpr (tag_of_kind_chinese (hchinese v hv))
      rw [hchinese u hu, kind, if_pos hx, if_neg hmark.2, if_neg hmark.1]
    · intro u hu
      have hx : t.2 ≠ str "x" := fun hx => tag_of_kind_latin (hlatin v hv) (htag.mp hx)
      rw [hlatin u hu, kind, if_neg hx]

theorem kind_of_not_border {u v : CString × CString} (h : ¬ Border u v) :
    kind u = kind v ∧ (kind u = Kind.chinese ∨ kind u = Kind.latin) := by
  unfold Border at h
  rw [not_or, not_or, not_not] at h
  refine ⟨h.1, ?_⟩
  cases hu : kind u with
  | omitted =>
      exact absurd hu h.2.1
  | pause =>
      exact absurd hu h.2.2
  | chinese =>
      exact Or.inl rfl
  | latin =>
      exact Or.inr rfl

/-- A block without a border inside. -/
theorem alike_of_isChain {b : Seg} (h : b.IsChain fun u v => ¬ Border u v) : Alike b := by
  match b with
  | [] =>
      exact Or.inl (by simp)
  | [t] =>
      exact Or.inl (by simp)
  | t :: u :: b =>
      have hkind : forall w, w ∈ u :: b -> kind t = kind w := by
        have hsame := h.imp fun _ _ hb => (kind_of_not_border hb).1
        have htrans : (t :: u :: b).Pairwise fun u v => kind u = kind v :=
          (List.isChain_iff_pairwise (R := fun u v => kind u = kind v)).mp hsame
        exact (List.pairwise_cons.mp htrans).1
      right
      rcases (kind_of_not_border (List.isChain_cons_cons.mp h).1).2 with ht | ht
      · left
        intro w hw
        rcases List.mem_cons.mp hw with rfl | hw
        · exact ht
        · exact (hkind w hw).symm.trans ht
      · right
        intro w hw
        rcases List.mem_cons.mp hw with rfl | hw
        · exact ht
        · exact (hkind w hw).symm.trans ht

/-- No word that comes out reaches over a border. -/
def BordersKept (l out : Seg) : Prop :=
  forall pre u v post, l = pre ++ u :: v :: post -> Border u v ->
    SplitsAt out (text (pre ++ [u])).length

theorem sameKind_of_bordersKept {l out : Seg} (hl : forall t, t ∈ l -> ProperWord t.1)
    (htagged : Coarsens Tagged l out) (h : BordersKept l out) :
    Coarsens SameKind l out := by
  rcases htagged with ⟨bs, rfl, hrel⟩
  have hjoined : List.Forall₂ Joined bs out := hrel.imp fun _ _ hb => hb.1
  have halike : forall b, b ∈ bs -> Alike b := by
    intro b hb
    refine alike_of_isChain (List.isChain_iff_forall_rel_of_append_cons_cons.mpr ?_)
    intro u v c d hcd hborder
    rcases List.append_of_mem hb with ⟨xs, ys, rfl⟩
    have hflat : (xs ++ b :: ys).flatten =
        (xs.flatten ++ c) ++ u :: v :: (d ++ ys.flatten) := by
      simp [hcd]
    have hcut : (xs.flatten ++ c) ++ [u] ++ v :: (d ++ ys.flatten) =
        (xs ++ b :: ys).flatten := by
      simp [hcd]
    refine not_splitsAt_of_crosses hjoined (l := (xs.flatten ++ c) ++ [u])
      (m := v :: (d ++ ys.flatten)) ?_ ?_ (h _ u v _ hflat hborder)
    · rw [hcut]
      exact fun t ht => (hl t ht).2
    · exact ⟨xs, c ++ [u], v :: d, ys, by simp [hcd], by simp, by simp, by simp, by simp⟩
  refine ⟨bs, rfl, ?_⟩
  refine List.forall₂_iff_zip.mpr ⟨hrel.length_eq, ?_⟩
  intro b t hbt
  have hb := (List.of_mem_zip hbt).1
  exact sameKind_of_alike ((List.forall₂_iff_zip.mp hrel).2 hbt)
    (fun u hu => hl u (List.mem_flatten.mpr ⟨b, hb, hu⟩)) (halike b hb)

theorem bordersKept_of_sameKind {l out : Seg} (hl : forall t, t ∈ l -> ProperWord t.1)
    (h : Coarsens SameKind l out) : BordersKept l out := by
  intro pre u v post hcut hborder
  rcases h with ⟨bs, rfl, hrel⟩
  rw [List.append_cons] at hcut
  -- where the blocks end at the border, so do the words
  have hends : forall as cs, bs = as ++ cs -> pre ++ [u] = as.flatten ->
      SplitsAt out (text (pre ++ [u])).length := by
    rintro as cs rfl hpre
    have htake := List.forall₂_take as.length hrel
    rw [List.take_left] at htake
    have htext := text_of_coarsens ⟨as, rfl, htake.imp fun _ _ hb => hb.1⟩
    rw [hpre]
    exact ⟨_, _, (List.take_append_drop as.length out).symm, congrArg List.length htext⟩
  rcases List.flatten_eq_append_iff.mp hcut with
    ⟨as, cs, hbs, hpre, -⟩ | ⟨as, b, c, cs, ds, hbs, hpre, hpost⟩
  · exact hends as cs hbs hpre
  · rcases List.eq_nil_or_concat b with rfl | ⟨b, w, rfl⟩
    · exact hends as _ hbs (by simpa using hpre)
    · -- a word over the border is of the kind of both neighbours, but of no mark's
      exfalso
      rw [List.concat_eq_append, ← List.append_assoc] at hpre
      rw [List.cons_append, List.cons.injEq] at hpost
      have hu : u = w := (List.append_inj' hpre rfl).2 |> List.singleton_inj.mp
      rcases exists_of_mem_left hrel (show b.concat w ++ c :: cs ∈ bs by simp [hbs]) with
        ⟨t, -, hjoined, hkind⟩
      have hku := hkind u (by simp [hu])
      have hkv := hkind v (by simp [hpost.1])
      have hmark := text_ne_mark (b := b.concat w ++ c :: cs) (by simp; omega) fun t ht =>
        hl t (List.mem_flatten.mpr ⟨_, by simp [hbs], ht⟩)
      rw [← hjoined.2] at hmark
      rcases hborder with hne | hmarked
      · exact hne (hku.trans hkv.symm)
      · rw [hku] at hmarked
        rcases kind_of_text hmark with ht | ht
        · simp [ht] at hmarked
        · simp [ht] at hmarked

/-!
## Runs of all passes
-/

section Runs

variable {σ : Type} {getFinals : CString -> Prog Error σ (List CString)}

theorem forall₂_last {R : CString × CString -> CString × CString -> Prop}
    (hrefl : forall t, R t t) (m : Seg) {u v : CString × CString} (h : R u v) :
    List.Forall₂ R (m ++ [u]) (m ++ [v]) := by
  induction m with
  | nil =>
      exact List.Forall₂.cons h List.Forall₂.nil
  | cons t m ih =>
      exact List.Forall₂.cons (hrefl t) ih

/-- Without a Chinese 不 at the end that nothing takes, `x` stays with Chinese words. -/
theorem tagged_afterYi {l : Seg} (hl : NoEmpty l)
    (hleft : forall u, l.getLast? = some u -> u.2 = str "x" ->
      (takes l).1 = true -> (takes l).2 = true) : Coarsens Tagged l (afterYi l) := by
  have hkeep : Coarsens Tagged l ((yiBlocks (keepTags l)).map firstToken) :=
    ((inherits_keepTags l).trans (inherits_firstToken yiJoin (keepTags l))
      fun _ _ _ => Inherited.trans).mono fun _ _ => Inherited.tagged
  rcases afterYi_cases hl with
    ⟨-, heq⟩ | ⟨hfst, hsnd, m, u, heq, hkeep', hlast, hu, -⟩
  · rw [heq]
    exact hkeep
  · have hx : u.2 ≠ str "x" := by
      intro hx
      have htrue := hleft u hlast hx hfst
      rw [hsnd] at htrue
      cases htrue
    have hd : str "d" ≠ str "x" := by decide
    rw [hkeep'] at hkeep
    rw [heq]
    rcases hkeep with ⟨bs, hbs, hrel⟩
    have hlast' : List.Forall₂ (fun t t' => t.1 = t'.1 ∧ (t'.2 = str "x" ↔ t.2 = str "x"))
        (m ++ [u]) (m ++ [(str "不", str "d")]) :=
      forall₂_last (fun _ => ⟨rfl, Iff.rfl⟩) m ⟨hu, by simp [hx, hd]⟩
    refine ⟨bs, hbs, forall₂_comp ?_ hrel hlast'⟩
    rintro b t t' ⟨hjoined, v, hv, htag⟩ ht
    exact ⟨⟨hjoined.1, ht.1 ▸ hjoined.2⟩, v, hv, ht.2.trans htag⟩

theorem tagged_of_ok {l out : Seg} {s s' : σ} (hl : NoEmpty l)
    (hverb : NoVerb (MergeBu l))
    (h : MergeforModify getFinals l s = (Except.ok out, s'))
    (hleft : forall u, l.getLast? = some u -> u.2 = str "x" ->
      (takes l).1 = true -> (takes l).2 = true) : Coarsens Tagged l out := by
  rcases MergeforModify_ok hverb h with
    ⟨finals, s1, finals', -, hlen, -, hlen', hout⟩
  have hredup : Coarsens Inherited (afterYi l) (byText l) := by
    change Coarsens Inherited (afterYi l) (MergeReduplication (afterYi l))
    rw [MergeReduplication_eq]
    exact inherits_firstToken redupJoin (afterYi l)
  have hthree := hredup.trans (inherits_byTones bothToneThree hlen)
    fun _ _ _ => Inherited.trans
  have hthree' := hthree.trans (inherits_byTones edgeToneThree hlen')
    fun _ _ _ => Inherited.trans
  rw [hout]
  exact (tagged_afterYi hl hleft).trans (hthree'.trans (inherits_firstToken erJoin _)
    fun _ _ _ => Inherited.trans) fun _ _ _ => Tagged.trans

theorem coarsens_last {R : Seg -> CString × CString -> Prop} {l out : Seg}
    {t : CString × CString} (hne : forall b t, R b t -> b ≠ [])
    (h : Coarsens R l out) (ht : out.getLast? = some t) :
    exists b u, R b t ∧ l.getLast? = some u ∧ u ∈ b := by
  rcases h with ⟨bs, rfl, hrel⟩
  rcases List.getLast?_eq_some_iff.mp ht with ⟨pre, rfl⟩
  rcases List.forall₂_cons_right_iff.mp
    (List.forall₂_drop_append bs pre [t] hrel) with ⟨b, rest, hb, hnil, hdrop⟩
  rw [List.forall₂_nil_right_iff.mp hnil] at hdrop
  have hbs : bs = bs.take pre.length ++ [b] := by
    rw [← hdrop, List.take_append_drop]
  rcases List.eq_nil_or_concat b with rfl | ⟨c, u, rfl⟩
  · exact absurd rfl (hne _ t hb)
  · refine ⟨_, u, hb, ?_, by simp⟩
    rw [hbs]
    simp

/-- A run that keeps the kinds leaves no Chinese 不 over at the end. -/
theorem takes_of_kept {l out : Seg} {s s' : σ} (hne : NoEmpty l)
    (hverb : NoVerb (MergeBu l))
    (h : MergeforModify getFinals l s = (Except.ok out, s'))
    (hkept : Coarsens SameKind l out) :
    forall u, l.getLast? = some u -> u.2 = str "x" ->
      (takes l).1 = true -> (takes l).2 = true := by
  intro u hu hx hfst
  rcases MergeforModify_tags hne hverb h with ⟨htakes, -⟩ | ⟨-, -, hlast⟩
  · exact htakes hfst
  · rcases coarsens_last (fun b t hb => hb.1.1) hkept hlast with
      ⟨b, v, hb, hv, hvb⟩
    rw [hu, Option.some.injEq] at hv
    subst hv
    have hkind := hb.2 u hvb
    have hd : str "d" ≠ str "x" := by decide
    rw [kind, if_pos hx, kind, if_neg hd] at hkind
    split at hkind
    · cases hkind
    · split at hkind
      · cases hkind
      · cases hkind

/--
The neighbours of different kinds, and the punctuation marks and what is beside them,
all stay apart.  And the list does not end in a Chinese 不 that is left over and that
no 一 takes.
-/
structure Separate (getFinals : CString -> Prog Error σ (List CString)) (l : Seg)
    (s : σ) : Prop where
  left : forall u, l.getLast? = some u -> u.2 = str "x" ->
    (takes l).1 = true -> (takes l).2 = true
  apart : forall pre u v post, l = pre ++ u :: v :: post -> Border u v ->
    StayApart getFinals (pre ++ [u]) (v :: post) s

/--
Every word that comes out is of the kind of all the words it was made of exactly
when the neighbours of different kinds and the punctuation marks stay apart.
-/
theorem MergeforModify_kinds {σ : Type}
    (getFinals : CString -> Prog Error σ (List CString)) (l : Seg)
    (hl : forall t, t ∈ l -> ProperWord t.1) (htags : forall t, t ∈ l -> CutTag t)
    (s s' : σ) (out : Seg)
    (h : MergeforModify getFinals l s = (Except.ok out, s')) :
    Coarsens SameKind l out ↔ Separate getFinals l s := by
  have hverb := noVerb_MergeBu htags
  have hne : NoEmpty l := fun t ht => (hl t ht).2
  constructor
  · intro hkept
    refine ⟨takes_of_kept hne hverb h hkept, ?_⟩
    intro pre u v post hcut hborder
    have hsplit := bordersKept_of_sameKind hl hkept pre u v post hcut hborder
    rw [List.append_cons] at hcut
    rw [hcut] at hne hverb h
    exact stayApart_of_splitsAt hne (by simp) (by simp) hverb h hsplit
  · intro hsep
    refine sameKind_of_bordersKept hl (tagged_of_ok hne hverb h hsep.left) ?_
    intro pre u v post hcut hborder
    have hapart := hsep.apart pre u v post hcut hborder
    rw [List.append_cons] at hcut
    rw [hcut] at hne hverb h
    exact splitsAt_of_stayApart hne (by simp) hverb h hapart

end Runs

/-- 不怕 and an English word behind a comma; all words are looked up with fourth tones. -/
def fearless : Seg :=
  [(str "不", str "x"), (str "怕", str "x"), (str "，", str "x"), (str "apple", str "eng")]

theorem MergeforModify_kinds_fearless :
    MergeforModify (fun _ => pure [str "u4", str "a4"]) fearless () =
        (Except.ok [(str "不怕", str "x"), (str "，", str "x"), (str "apple", str "eng")],
          ()) ∧
      Coarsens SameKind fearless
        [(str "不怕", str "x"), (str "，", str "x"), (str "apple", str "eng")] ∧
      Separate (fun _ => pure [str "u4", str "a4"]) fearless () := by
  have hrun : MergeforModify (fun _ => pure [str "u4", str "a4"]) fearless () =
      (Except.ok [(str "不怕", str "x"), (str "，", str "x"), (str "apple", str "eng")],
        ()) := by
    decide +kernel
  have hkept : Coarsens SameKind fearless
      [(str "不怕", str "x"), (str "，", str "x"), (str "apple", str "eng")] := by
    refine ⟨[[(str "不", str "x"), (str "怕", str "x")], [(str "，", str "x")],
      [(str "apple", str "eng")]], rfl, ?_⟩
    refine List.Forall₂.cons ?_ (List.Forall₂.cons ?_ (List.Forall₂.cons ?_ List.Forall₂.nil))
    · exact ⟨⟨by simp, by decide⟩, by decide +kernel⟩
    · exact ⟨⟨by simp, by decide⟩, by decide +kernel⟩
    · exact ⟨⟨by simp, by decide⟩, by decide +kernel⟩
  refine ⟨hrun, hkept, (MergeforModify_kinds _ fearless ?_ ?_ () () _ hrun).mp hkept⟩
  · intro t ht
    simp only [fearless, List.mem_cons, List.not_mem_nil, or_false] at ht
    rcases ht with rfl | rfl | rfl | rfl
    · exact ⟨⟨"不".toList, rfl⟩, by decide⟩
    · exact ⟨⟨"怕".toList, rfl⟩, by decide⟩
    · exact ⟨⟨"，".toList, rfl⟩, by decide⟩
    · exact ⟨⟨"apple".toList, rfl⟩, by decide⟩
  · intro t ht
    simp only [fearless, List.mem_cons, List.not_mem_nil, or_false] at ht
    rcases ht with rfl | rfl | rfl | rfl
    · exact Or.inl rfl
    · exact Or.inl rfl
    · exact Or.inl rfl
    · exact Or.inr (Or.inr rfl)

/-- 不apple, where 不 takes an English word. -/
def mixedPair : Seg :=
  [(str "不", str "x"), (str "apple", str "eng")]

theorem MergeforModify_mixes_kinds :
    MergeforModify (fun _ => pure []) mixedPair () =
        (Except.ok [(str "不apple", str "eng")], ()) ∧
      ¬ Coarsens SameKind mixedPair [(str "不apple", str "eng")] := by
  refine ⟨by decide +kernel, ?_⟩
  rintro ⟨bs, hbs, hrel⟩
  rcases List.forall₂_cons_right_iff.mp hrel with ⟨b, rest, hb, hnil, rfl⟩
  rw [List.forall₂_nil_right_iff.mp hnil, List.flatten_singleton] at hbs
  have hkind := hb.2 (str "不", str "x") (by simp [hbs, mixedPair])
  exact absurd hkind (by decide +kernel)

end FrontEngineInterface
end VoiceTts
