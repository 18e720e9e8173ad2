import VoiceTts.Front.Passes

/-!
# Merging only coarsens a segmentation

A run of `MergeforModify` as a chain of blocks, and what it keeps: every word it
returns is the concatenation of a block of neighbours, and no pass reaches
outside its containers.
-/

namespace VoiceTts
namespace FrontEngineInterface

open Blocks

/-- A word made of a block of neighbours. -/
def Joined (b : Seg) (t : CString × CString) : Prop :=
  b ≠ [] ∧ t.1 = text b

theorem Joined.trans {bs : List Seg} {cs : Seg} {t : CString × CString}
    (h : Joined cs t) (hs : List.Forall₂ Joined bs cs) : Joined bs.flatten t := by
  have htext : bs.map text = cs.map Prod.fst := by
    clear h
    induction hs with
    | nil =>
        rfl
    | cons hb _ ih =>
        rw [List.map_cons, List.map_cons, hb.2, ih]
  constructor
  · cases hs with
    | nil =>
        exact absurd rfl h.1
    | cons hb _ =>
        simp [hb.1]
  · rw [h.2, text_flatten, htext]
    rfl

theorem text_of_coarsens {l out : Seg} (h : Coarsens Joined l out) :
    text out = text l := by
  rcases h with ⟨bs, rfl, hrel⟩
  induction hrel with
  | nil =>
      rfl
  | cons hb _ ih =>
      rw [text_cons, List.flatten_cons, text_append, hb.2, ih]

/-!
## Each pass
-/

theorem joined_firstToken {b : Seg} (hb : b ≠ []) : Joined b (firstToken b) :=
  ⟨hb, rfl⟩

theorem coarsens_MergeBu (l : Seg) : Coarsens Joined l (MergeBu l) := by
  rw [MergeBu_eq]
  refine coarsens_blocks buJoin buToken l ?_
  intro b hb
  exact ⟨ne_nil_of_mem_blocks hb, buToken_fst b⟩

theorem coarsens_firstToken (join : Seg -> CString × CString -> Bool) (l : Seg) :
    Coarsens Joined l ((blocks join l).map firstToken) := by
  refine coarsens_blocks join firstToken l ?_
  intro b hb
  exact joined_firstToken (ne_nil_of_mem_blocks hb)

/-- The result of a pass over tones, from the finals it has looked up. -/
def byTones (tones : List CString -> List CString -> Except Error Bool) (l : Seg)
    (finals : List (List CString)) : Seg :=
  (threeBlocks tones l finals).map firstToken

theorem coarsens_byTones (tones : List CString -> List CString -> Except Error Bool)
    {l : Seg} {finals : List (List CString)}
    (hlen : finals.length = (body l).length) :
    Coarsens Joined l (byTones tones l finals) := by
  refine ⟨threeBlocks tones l finals, flatten_threeBlocks tones hlen, ?_⟩
  rw [byTones, List.forall₂_map_right_iff, List.forall₂_same]
  intro b hb
  exact joined_firstToken (ne_nil_of_mem_threeBlocks hb)

/-- The words after the passes that look at texts only. -/
def byText (l : Seg) : Seg :=
  MergeReduplication ((yiBlocks (MergeBu l)).map firstToken)

theorem coarsens_byText (l : Seg) : Coarsens Joined l (byText l) := by
  unfold byText
  rw [MergeReduplication_eq]
  have hbu := coarsens_MergeBu l
  have hyi := coarsens_firstToken yiJoin (MergeBu l)
  have hredup := coarsens_firstToken redupJoin ((yiBlocks (MergeBu l)).map firstToken)
  exact (hbu.trans hyi fun _ _ _ => Joined.trans).trans hredup
    fun _ _ _ => Joined.trans

theorem ne_nil_of_coarsens {l out : Seg} (h : Coarsens Joined l out) (hl : l ≠ []) :
    out ≠ [] := by
  rintro rfl
  rcases h with ⟨bs, rfl, hrel⟩
  cases hrel
  exact hl rfl

/-!
## Tags
-/

def CutTag (t : CString × CString) : Prop :=
  t.2 = str "x" ∨ t.2 = str "m" ∨ t.2 = str "eng"

theorem mem_tag_firstToken {b : Seg} (hb : b ≠ []) :
    exists t, t ∈ b ∧ (firstToken b).2 = t.2 := by
  cases b with
  | nil =>
      exact absurd rfl hb
  | cons t b =>
      exact ⟨t, by simp, rfl⟩

theorem mem_tag_lastToken {b : Seg} (hb : b ≠ []) :
    exists t, t ∈ b ∧ (lastToken b).2 = t.2 := by
  rcases List.eq_nil_or_concat b with rfl | ⟨pre, t, rfl⟩
  · exact absurd rfl hb
  · refine ⟨t, by simp, ?_⟩
    rw [List.concat_eq_append, lastToken_concat]

theorem tag_MergeBu {l : Seg} {t : CString × CString} (ht : t ∈ MergeBu l) :
    t.2 = str "d" ∨ exists u, u ∈ l ∧ t.2 = u.2 := by
  rw [MergeBu_eq] at ht
  rcases List.mem_map.mp ht with ⟨b, hb, rfl⟩
  unfold buToken
  split
  · exact Or.inl rfl
  · rcases mem_tag_lastToken (ne_nil_of_mem_blocks hb) with ⟨u, hu, htag⟩
    exact Or.inr ⟨u, mem_of_mem_blocks hb hu, htag⟩

theorem noVerb_MergeBu {l : Seg} (h : forall t, t ∈ l -> CutTag t) :
    NoVerb (MergeBu l) := by
  intro t ht
  rcases tag_MergeBu ht with hd | ⟨u, hu, htag⟩
  · rw [hd]
    decide
  · rw [htag]
    rcases h u hu with hu | hu | hu
    · rw [hu]
      decide
    · rw [hu]
      decide
    · rw [hu]
      decide

/-!
## Runs
-/

section Runs

variable {σ : Type} {getFinals : CString -> Prog Error σ (List CString)}
  {tones : List CString -> List CString -> Except Error Bool} {E : Error -> Prop}

theorem yields_true {α : Type} (r : Except Error α) :
    Yields (fun _ => True) (fun _ => True) r := by
  cases r with
  | ok a =>
      exact True.intro
  | error e =>
      exact True.intro

theorem finalsRows_length {l : Seg} {s s' : σ} {finals : List (List CString)}
    (h : finalsRows getFinals l s = (Except.ok finals, s')) :
    finals.length = l.length := by
  induction l generalizing s finals with
  | nil =>
      cases h
      rfl
  | cons t l ih =>
      rcases Prog.bind_eq_ok h with ⟨row, s1, -, hrest⟩
      rcases Prog.bind_eq_ok hrest with ⟨rows, s2, hrows, hpure⟩
      cases hpure
      rw [List.length_cons, List.length_cons, ih hrows]

/-- A pass over tones that returns has looked up the finals of its words. -/
theorem mergeThree_ok {l out : Seg} {s s' : σ}
    (h : mergeThree getFinals tones l s = (Except.ok out, s')) :
    l ≠ [] ∧ exists finals,
      finalsRows getFinals (body l) s = (Except.ok finals, s') ∧
        finals.length = (body l).length ∧ out = byTones tones l finals := by
  have hl : l ≠ [] := by
    rintro rfl
    have hfault : (mergeThree getFinals tones [] s).1 =
        Except.error (Error.access Container.seg_result) := rfl
    rw [h] at hfault
    simp at hfault
  rw [mergeThree_apply hl] at h
  rcases Prog.bind_eq_ok h with ⟨finals, s1, hrows, hres⟩
  have hlen := finalsRows_length hrows
  have hresult : threeResult tones l finals = Except.ok out :=
    congrArg Prod.fst hres
  have hstate : s1 = s' := congrArg Prod.snd hres
  have hyields := threeResult_yields (E := fun _ => True) tones hlen
    (fun _ _ _ _ => yields_true _) (fun _ _ _ _ => yields_true _)
  refine ⟨hl, finals, ?_, hlen, hyields.of_eq_ok hresult⟩
  rw [hrows, hstate]

theorem MergeforModify_ok {l out : Seg} {s s' : σ} (hverb : NoVerb (MergeBu l))
    (h : MergeforModify getFinals l s = (Except.ok out, s')) :
    exists finals s1 finals',
      finalsRows getFinals (body (byText l)) s = (Except.ok finals, s1) ∧
      finals.length = (body (byText l)).length ∧
      finalsRows getFinals (body (byTones bothToneThree (byText l) finals)) s1 =
        (Except.ok finals', s') ∧
      finals'.length = (body (byTones bothToneThree (byText l) finals)).length ∧
      out = (erBlocks (byTones edgeToneThree
        (byTones bothToneThree (byText l) finals) finals')).map firstToken := by
  unfold MergeforModify at h
  rw [Mergeyi_eq hverb] at h
  rcases Prog.bind_eq_ok h with ⟨m, s0, hm, h⟩
  simp only [Prog.lift_apply, Prod.mk.injEq, Except.ok.injEq] at hm
  rw [← hm.1, ← hm.2] at h
  rcases Prog.bind_eq_ok h with ⟨m1, s1, hm1, h⟩
  rcases mergeThree_ok hm1 with ⟨-, finals, hrows, hlen, hbyTones⟩
  rw [hbyTones] at h
  rcases Prog.bind_eq_ok h with ⟨m2, s2, hm2, h⟩
  rcases mergeThree_ok hm2 with ⟨-, finals', hrows', hlen', hbyTones'⟩
  rw [hbyTones', MergeEr_eq] at h
  simp only [Prog.lift_apply, Prod.mk.injEq, Except.ok.injEq] at h
  rw [h.2] at hrows'
  exact ⟨finals, s1, finals', hrows, hlen, hrows', hlen', h.1.symm⟩

theorem coarsens_of_ok {l out : Seg} {s s' : σ} (hverb : NoVerb (MergeBu l))
    (h : MergeforModify getFinals l s = (Except.ok out, s')) :
    Coarsens Joined l out := by
  rcases MergeforModify_ok hverb h with
    ⟨finals, s1, finals', -, hlen, -, hlen', hout⟩
  rw [hout]
  have htext := coarsens_byText l
  have hthree := coarsens_byTones bothToneThree hlen
  have hthree' := coarsens_byTones edgeToneThree hlen'
  have her := coarsens_firstToken erJoin (byTones edgeToneThree
    (byTones bothToneThree (byText l) finals) finals')
  exact ((htext.trans hthree fun _ _ _ => Joined.trans).trans hthree'
    fun _ _ _ => Joined.trans).trans her fun _ _ _ => Joined.trans

end Runs

/-!
## No pass leaves its containers

`W` is what the words of the segmentation have in common and `F` what the finals
have in common; `E` are the errors that the lookups and the conversions of such
words and finals can end with.
-/

section Bounds

variable {σ : Type} {getFinals : CString -> Prog Error σ (List CString)}
  {E : Error -> Prop} {W F : CString -> Prop}

theorem AllToneThree_yields
    (hback : forall f, F f -> Yields (fun _ => True) E (back Container.final f))
    {finals : List CString} (h : forall f, f ∈ finals -> F f) :
    Yields (fun _ => True) E (AllToneThree finals) := by
  induction finals with
  | nil =>
      exact True.intro
  | cons f finals ih =>
      refine Yields.bind (hback f (h f (by simp))) fun c _ => ?_
      refine Yields.bind (ih fun g hg => h g (by simp [hg])) fun flags _ => ?_
      exact True.intro

theorem bothToneThree_yields
    (hback : forall f, F f -> Yields (fun _ => True) E (back Container.final f))
    {f g : List CString} (hf : forall x, x ∈ f -> F x) (hg : forall x, x ∈ g -> F x) :
    Yields (fun _ => True) E (bothToneThree f g) := by
  refine Yields.bind (AllToneThree_yields hback hf) fun flags _ => ?_
  split
  · exact AllToneThree_yields hback hg
  · exact True.intro

theorem edgeToneThree_yields
    (hback : forall f, F f -> Yields (fun _ => True) E (back Container.final f))
    {f g : List CString} (hf : forall x, x ∈ f -> F x) (hg : forall x, x ∈ g -> F x) :
    Yields (fun _ => True) E (edgeToneThree f g) := by
  unfold edgeToneThree
  split
  · exact True.intro
  · rename_i last hlast
    refine Yields.bind (hback last (hf last (List.mem_of_getLast? hlast))) ?_
    intro c _
    split
    · split
      · exact True.intro
      · rename_i first hfirst
        refine Yields.bind (hback first (hg first (List.mem_of_head? hfirst))) ?_
        intro d _
        exact True.intro
    · exact True.intro

theorem finalsRows_yields
    (hget : forall w s, Yields (fun fs => forall f, f ∈ fs -> F f) E
      (getFinals w s).1) (l : Seg) (s : σ) :
    Yields (fun rows => forall r, r ∈ rows -> forall f, f ∈ r -> F f) E
      (finalsRows getFinals l s).1 := by
  induction l generalizing s with
  | nil =>
      intro r hr
      simp at hr
  | cons t l ih =>
      have hrow : Yields (fun fs => forall f, f ∈ fs -> F f) E
          (finalsRow getFinals t s).1 := by
        unfold finalsRow
        split
        · exact hget t.1 s
        · intro f hf
          simp at hf
      refine Prog.yields_bind hrow fun row s1 hr _ => ?_
      refine Prog.yields_bind (ih s1) fun rows s2 hrs _ => ?_
      intro r hmem
      rcases List.mem_cons.mp hmem with rfl | hmem
      · exact hr
      · exact hrs r hmem

theorem mergeThree_yields
    {tones : List CString -> List CString -> Except Error Bool}
    (hget : forall w s, Yields (fun fs => forall f, f ∈ fs -> F f) E
      (getFinals w s).1)
    (htones : forall f g, (forall x, x ∈ f -> F x) -> (forall x, x ∈ g -> F x) ->
      Yields (fun _ => True) E (tones f g))
    (hfits : forall u v, W u -> W v -> Yields (fun _ => True) E (fitsThree u v))
    {l : Seg} (hl : l ≠ []) (hwords : forall t, t ∈ l -> W t.1) (s : σ) :
    Yields (fun _ => True) E (mergeThree getFinals tones l s).1 := by
  rw [mergeThree_apply hl]
  refine Prog.yields_bind (finalsRows_yields hget (body l) s) ?_
  intro finals s1 hrows heq
  have hresult := threeResult_yields tones (finalsRows_length heq)
    (fun f g hf hg => htones f g (hrows f hf) (hrows g hg))
    (fun p t hp ht => hfits p.1 t.1 (hwords p hp) (hwords t ht))
  exact hresult.mono (fun _ _ => True.intro) fun _ he => he

theorem word_text (happ : forall u v, W u -> W v -> W (u ++ v)) {b : Seg}
    (hb : b ≠ []) (hwords : forall t, t ∈ b -> W t.1) : W (text b) := by
  induction b with
  | nil =>
      exact absurd rfl hb
  | cons t b ih =>
      have ht := hwords t (by simp)
      rw [text_cons]
      by_cases hnil : b = []
      · simpa [hnil] using ht
      · exact happ _ _ ht (ih hnil fun u hu => hwords u (by simp [hu]))

theorem words_of_coarsens (happ : forall u v, W u -> W v -> W (u ++ v))
    {l out : Seg} (h : Coarsens Joined l out) (hwords : forall t, t ∈ l -> W t.1) :
    forall t, t ∈ out -> W t.1 := by
  rcases h with ⟨bs, rfl, hrel⟩
  intro t ht
  rcases exists_of_mem_right hrel ht with ⟨b, hb, hne, htext⟩
  rw [htext]
  refine word_text happ hne fun u hu => hwords u ?_
  exact List.mem_flatten.mpr ⟨b, hb, hu⟩

/-- A run of all passes ends with a value or with an error of its lookups. -/
theorem MergeforModify_yields
    (happ : forall u v, W u -> W v -> W (u ++ v))
    (hback : forall f, F f -> Yields (fun _ => True) E (back Container.final f))
    (hget : forall w s, Yields (fun fs => forall f, f ∈ fs -> F f) E
      (getFinals w s).1)
    (hfits : forall u v, W u -> W v -> Yields (fun _ => True) E (fitsThree u v))
    {l : Seg} (hl : l ≠ []) (hverb : NoVerb (MergeBu l))
    (hwords : forall t, t ∈ l -> W t.1) (s : σ) :
    Yields (fun _ => True) E (MergeforModify getFinals l s).1 := by
  unfold MergeforModify
  rw [Mergeyi_eq hverb]
  refine Prog.yields_bind (P := fun m => MergeReduplication m = byText l) rfl ?_
  intro m s0 hm _
  have htext := coarsens_byText l
  rw [hm]
  refine Prog.yields_bind (mergeThree_yields hget
    (fun _ _ => bothToneThree_yields hback) hfits (ne_nil_of_coarsens htext hl)
    (words_of_coarsens happ htext hwords) s0) ?_
  intro m1 s1 _ hm1
  rcases mergeThree_ok hm1 with ⟨-, finals, -, hlen, hbyTones⟩
  have hthree := htext.trans (coarsens_byTones bothToneThree hlen)
    fun _ _ _ => Joined.trans
  rw [← hbyTones] at hthree
  refine Prog.yields_bind (mergeThree_yields hget
    (fun _ _ => edgeToneThree_yields hback) hfits (ne_nil_of_coarsens hthree hl)
    (words_of_coarsens happ hthree hwords) s1) ?_
  intro m2 s2 _ _
  rw [MergeEr_eq]
  exact True.intro

end Bounds

def Utf8Word (w : CString) : Prop :=
  exists cs : List Char, w = Utf8.encodeChars cs

theorem Utf8Word.append {u v : CString} (hu : Utf8Word u) (hv : Utf8Word v) :
    Utf8Word (u ++ v) := by
  rcases hu with ⟨cs, rfl⟩
  rcases hv with ⟨ds, rfl⟩
  exact ⟨cs ++ ds, by simp⟩

/-- One character written twice. -/
def Reduplication (cs : List Char) : Prop :=
  cs.length = 2 ∧ cs[0]? = cs[1]?

instance (cs : List Char) : Decidable (Reduplication cs) :=
  inferInstanceAs (Decidable (_ ∧ _))

theorem IsReduplication_encodeChars (cs : List Char) :
    IsReduplication (Utf8.encodeChars cs) = Except.ok (decide (Reduplication cs)) := by
  unfold IsReduplication Reduplication
  rw [utf8string2wstring_encodeChars, ok_bind]
  match cs with
  | [] =>
      rfl
  | [c] =>
      rfl
  | [c, d] =>
      simp [pure, Except.pure, Char.ext_iff]
  | _ :: _ :: _ :: _ =>
      simp [pure, Except.pure]

theorem fitsThree_encodeChars (cs ds : List Char) :
    fitsThree (Utf8.encodeChars cs) (Utf8.encodeChars ds) =
      Except.ok (decide (¬ Reduplication cs ∧ cs.length + ds.length ≤ 3)) := by
  unfold fitsThree
  rw [IsReduplication_encodeChars, ok_bind, utf8string2wstring_encodeChars,
    utf8string2wstring_encodeChars, ok_bind, ok_bind]
  by_cases htwice : Reduplication cs
  · simp [htwice, pure, Except.pure]
  · simp [htwice, pure, Except.pure, Utf8.units]

theorem fitsThree_utf8 {u v : CString} (hu : Utf8Word u) (hv : Utf8Word v) :
    Yields (fun _ => True) (fun _ : Error => False) (fitsThree u v) := by
  rcases hu with ⟨cs, rfl⟩
  rcases hv with ⟨ds, rfl⟩
  rw [fitsThree_encodeChars]
  exact True.intro

/--
Whatever non-empty finals the lookups return, all passes stay inside their
containers, and the words that come out are the concatenations of non-empty
blocks of neighbours that make up the input in order.
-/
theorem MergeforModify_coarsens {σ : Type}
    (getFinals : CString -> Prog Error σ (List CString))
    (hfinals : forall w s, exists finals s',
      getFinals w s = (Except.ok finals, s') ∧ forall f, f ∈ finals -> f ≠ [])
    (l : Seg) (hl : l ≠ []) (hwords : forall t, t ∈ l -> Utf8Word t.1)
    (htags : forall t, t ∈ l -> CutTag t) (s : σ) :
    exists out s', MergeforModify getFinals l s = (Except.ok out, s') ∧
      Coarsens Joined l out ∧ text out = text l := by
  have hget : forall w s, Yields (fun fs => forall f, f ∈ fs -> f ≠ [])
      (fun _ : Error => False) (getFinals w s).1 := by
    intro w s
    rcases hfinals w s with ⟨finals, s', heq, hne⟩
    rw [heq]
    exact hne
  have hverb := noVerb_MergeBu htags
  have hyields := MergeforModify_yields (W := Utf8Word)
    (fun _ _ => Utf8Word.append) (fun _ => back_of_ne_nil Container.final) hget
    (fun _ _ => fitsThree_utf8) hl hverb hwords s
  rcases hyields.exists_ok with ⟨out, hout, -⟩
  have hrun : MergeforModify getFinals l s =
      (Except.ok out, (MergeforModify getFinals l s).2) := Prod.ext hout rfl
  have hcoarsens := coarsens_of_ok hverb hrun
  exact ⟨out, _, hrun, hcoarsens, text_of_coarsens hcoarsens⟩

theorem MergeforModify_coarsens_not_once :
    exists out s', MergeforModify (σ := Unit) (fun _ => pure [str "i3"])
        [(str "不", str "x"), (str "一", str "x"), (str "次", str "x")] () =
        (Except.ok out, s') ∧
      Coarsens Joined
        [(str "不", str "x"), (str "一", str "x"), (str "次", str "x")] out ∧
      text out =
        text [(str "不", str "x"), (str "一", str "x"), (str "次", str "x")] := by
  refine MergeforModify_coarsens _ ?_ _ (by simp) ?_ ?_ ()
  · intro w s
    exact ⟨[str "i3"], s, rfl, by decide⟩
  · intro t ht
    simp only [List.mem_cons, List.not_mem_nil, or_false] at ht
    rcases ht with rfl | rfl | rfl
    · exact ⟨"不".toList, rfl⟩
    · exact ⟨"一".toList, rfl⟩
    · exact ⟨"次".toList, rfl⟩
  · intro t ht
    simp only [List.mem_cons, List.not_mem_nil, or_false] at ht
    rcases ht with rfl | rfl | rfl
    · exact Or.inl rfl
    · exact Or.inl rfl
    · exact Or.inl rfl

end FrontEngineInterface
end VoiceTts
