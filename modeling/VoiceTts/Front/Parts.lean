import VoiceTts.Front.Tags
import VoiceTts.Normalizer.Sentences

/-!
# Parts of a text on their way to the merge passes

A text is split at its punctuation marks, every part is normalised, and the
result is segmented.  Blanks are no words, so a part of nothing but blanks
arrives as an empty list; the passes over tones then look at the last
element of a list that has none.
-/

namespace VoiceTts
namespace FrontEngineInterface

open Blocks TextNormalizer

/-- An access outside one of the containers of the merge passes. -/
def MergeFault : Error -> Prop
  | Error.access c =>
      c ∈ [Container.seg_result, Container.result_temp, Container.result,
        Container.merge_last, Container.finals_rows]
  | _ => False

/-- The merge passes of a sentence stay inside their containers. -/
def MergesSafely (st : Setup) (sentence : CString) (e : FrontEngineInterface) :
    Prop :=
  forall err, (Cut st sentence e).1 = Except.error err -> ¬ MergeFault err

/-!
## Faults of the lookups
-/

theorem initialsFinals_yields (phone_vec : List CString) :
    Yields (fun _ => True) (fun err => ¬ MergeFault err)
      (initialsFinals phone_vec) := by
  fun_induction initialsFinals phone_vec with
  | case1 =>
      exact True.intro
  | case2 _ _ _ ih =>
      exact ih
  | case3 =>
      simp [Yields, MergeFault]
  | case4 =>
      simp [Yields, MergeFault]
  | case5 =>
      rename_i ih
      exact ih.map fun _ _ => True.intro
  | case6 =>
      rename_i ih
      exact ih.map fun _ _ => True.intro

theorem appendPhones_yields (phone : CString) (wordcut : List CString)
    (e : FrontEngineInterface) :
    Yields (fun _ => True) (fun err => ¬ MergeFault err)
      (appendPhones phone wordcut e).1 := by
  induction wordcut generalizing phone e with
  | nil =>
      exact True.intro
  | cons piece wordcut ih =>
      refine Prog.yields_bind (P := fun _ => True) True.intro ?_
      intro p e' _ _
      exact ih _ e'

theorem GetPhone_yields (st : Setup) (word : CString) (e : FrontEngineInterface) :
    Yields (fun _ => True) (fun err => ¬ MergeFault err) (GetPhone st word e).1 := by
  refine Prog.yields_bind (P := fun _ => True) True.intro ?_
  intro known e' _ _
  split
  · exact True.intro
  · cases st._jieba.CutAll word with
    | nil =>
        simp [phoneOfPieces, Yields, MergeFault]
    | cons piece rest =>
        refine Prog.yields_bind (P := fun _ => True) True.intro ?_
        intro phone e'' _ _
        exact appendPhones_yields phone rest e''

theorem GetFinals_yields (st : Setup) (word : CString) (e : FrontEngineInterface) :
    Yields (fun _ => True) (fun err => ¬ MergeFault err) (GetFinals st word e).1 := by
  have hboth : Yields (fun _ => True) (fun err => ¬ MergeFault err)
      (GetInitialsFinals st word e).1 := by
    refine Prog.yields_bind (GetPhone_yields st word e) ?_
    intro phone e' _ _
    exact initialsFinals_yields _
  refine Prog.yields_bind hboth ?_
  intro r e' _ _
  exact True.intro

theorem back_final_yields (f : CString) :
    Yields (fun _ => True) (fun err => ¬ MergeFault err)
      (back Container.final f) := by
  unfold back
  split
  · exact True.intro
  · simp [Yields, MergeFault]

theorem utf8string2wstring_yields (s : CString) :
    Yields (fun _ => True) (fun err => ¬ MergeFault err) (utf8string2wstring s) := by
  unfold utf8string2wstring
  split
  · exact True.intro
  · simp [Yields, MergeFault]

theorem fitsThree_yields (u v : CString) :
    Yields (fun _ => True) (fun err => ¬ MergeFault err) (fitsThree u v) := by
  have htwice : Yields (fun _ => True) (fun err => ¬ MergeFault err)
      (IsReduplication u) := by
    refine Yields.bind (utf8string2wstring_yields u) ?_
    intro w _
    split
    · exact True.intro
    · exact True.intro
  refine Yields.bind htwice ?_
  intro twice _
  split
  · exact True.intro
  · refine Yields.bind (utf8string2wstring_yields u) fun x _ => ?_
    refine Yields.bind (utf8string2wstring_yields v) fun y _ => ?_
    exact True.intro

/-- The passes of a sentence are safe exactly when there is a word to look at. -/
theorem mergesSafely_iff (st : Setup) (sentence : CString)
    (e : FrontEngineInterface) :
    MergesSafely st sentence e ↔ segment st sentence ≠ [] := by
  constructor
  · intro h hnil
    have hfault : (Cut st sentence e).1 =
        Except.error (Error.access Container.seg_result) := by
      unfold Cut
      rw [hnil]
      rfl
    exact h _ hfault (by simp [MergeFault])
  · intro hne err herr
    have hverb := noVerb_MergeBu (cutTag_segment st sentence)
    have hyields := MergeforModify_yields (W := fun _ => True) (F := fun _ => True)
      (fun _ _ _ _ => True.intro) (fun f _ => back_final_yields f)
      (fun w s => (GetFinals_yields st w s).mono (fun _ _ _ _ => True.intro)
        fun _ he => he)
      (fun u v _ _ => fitsThree_yields u v) hne hverb (fun _ _ => True.intro) e
    have hcut : (MergeforModify (GetFinals st) (segment st sentence) e).1 =
        Except.error err := herr
    rw [hcut] at hyields
    exact hyields

/-!
## Blanks
-/

def Blank (s : WString) : Prop :=
  forall c, c ∈ s -> c = 32

instance (s : WString) : Decidable (Blank s) :=
  inferInstanceAs (Decidable (forall c, c ∈ s -> c = 32))

theorem Blank.ascii {s : WString} (h : Blank s) : Utf8.Ascii s := by
  intro c hc
  rw [h c hc]
  decide

theorem Blank.digitFree {s : WString} (h : Blank s) : DigitFree s := by
  intro c hc
  rw [h c hc]
  decide

theorem decode_blank {u : CString} (h : forall b, b ∈ u -> b = 32) :
    exists w, Utf8.decode u = some w ∧ Blank w := by
  induction u with
  | nil =>
      exact ⟨[], rfl, by simp [Blank]⟩
  | cons b u ih =>
      rcases ih fun c hc => h c (by simp [hc]) with ⟨w, hw, hblank⟩
      have hb : b = 32 := h b (by simp)
      refine ⟨32 :: w, ?_, ?_⟩
      · rw [hb, Utf8.decode.eq_def]
        simp [hw]
      · intro c hc
        rcases List.mem_cons.mp hc with rfl | hc
        · rfl
        · exact hblank c hc

theorem encodeChars_blank (cs : List Char) :
    (forall b, b ∈ Utf8.encodeChars cs -> b = 32) ↔ Blank (Utf8.units cs) := by
  constructor
  · intro h
    rcases decode_blank h with ⟨w, hw, hblank⟩
    rw [Utf8.decode_encodeChars, Option.some.injEq] at hw
    rw [hw]
    exact hblank
  · intro h
    have hnarrow : Utf8.encodeChars cs = Utf8.narrow (Utf8.units cs) := by
      rw [← Option.some.injEq, ← Utf8.encode_units, Utf8.encode_ascii h.ascii]
    intro b hb
    rw [hnarrow] at hb
    rcases List.mem_map.mp hb with ⟨c, hc, rfl⟩
    rw [h c hc]
    rfl

/-- Rewriting numbers neither makes a part blank nor fills a blank one. -/
theorem blank_SentenceNormalize {n : TextNormalizer} (hn : Reachable n)
    {part s' : WString} (h : (SentenceNormalize part n).1 = Except.ok s') :
    Blank s' ↔ Blank part := by
  have hrun := SentenceNormalize_result hn part
  constructor
  · intro hs'
    by_contra hpart
    simp only [Blank, not_forall] at hpart
    rcases hpart with ⟨c, hc, hne⟩
    have hkept := hrun.kept (fun t => exists c, c ∈ t ∧ c ≠ 32) ?_ ⟨c, hc, hne⟩ s' h
    · rcases hkept with ⟨d, hd, hd'⟩
      exact hd' (hs' d hd)
    · intro t rep t' heffect _
      rcases heffect.splits with ⟨pre, old, post, -, rfl, -, -⟩
      rcases List.exists_mem_of_ne_nil rep heffect.spoken with ⟨d, hd⟩
      refine ⟨d, by simp [hd], ?_⟩
      rintro rfl
      exact absurd (heffect.audible _ hd) (by decide)
  · intro hpart
    rw [hrun.same hpart.digitFree, Except.ok.injEq] at h
    rw [← h]
    exact hpart

section Segmenter

variable {st : Setup}
  (hconcat : forall cs, (st._jieba.Cut (Utf8.encodeChars cs)).flatten =
    Utf8.encodeChars cs)
  (hblank : forall s w, w ∈ st._jieba.Cut s -> 32 ∈ w -> w = str " ")

include hconcat hblank

theorem segment_eq_nil (cs : List Char) :
    segment st (Utf8.encodeChars cs) = [] ↔ Blank (Utf8.units cs) := by
  have hskip : segment st (Utf8.encodeChars cs) = [] ↔
      forall w, w ∈ st._jieba.Cut (Utf8.encodeChars cs) -> w ≠ [] ->
        w = str " " := by
    simp [segment, PosTagger.Tag, List.filter_eq_nil_iff]
  rw [hskip, ← encodeChars_blank]
  constructor
  · intro h b hb
    rw [← hconcat, List.mem_flatten] at hb
    rcases hb with ⟨w, hw, hb⟩
    rw [h w hw (List.ne_nil_of_mem hb)] at hb
    exact List.mem_singleton.mp hb
  · intro h w hw hne
    rcases List.exists_mem_of_ne_nil w hne with ⟨b, hb⟩
    have hmem : b ∈ Utf8.encodeChars cs := by
      rw [← hconcat, List.mem_flatten]
      exact ⟨w, hw, hb⟩
    rw [h b hmem] at hb
    exact hblank _ w hw hb

theorem mergesSafely_part {n : TextNormalizer} (hn : Reachable n)
    {part s' : WString} {u : CString}
    (hnormal : (SentenceNormalize part n).1 = Except.ok s')
    (hutf8 : wstring2utf8string s' = Except.ok u) (e : FrontEngineInterface) :
    MergesSafely st u e ↔ ¬ Blank part := by
  have hencode : Utf8.encode s' = some u := by
    unfold wstring2utf8string at hutf8
    split at hutf8
    · rename_i v hv
      rw [hv, Except.ok.inj hutf8]
    · cases hutf8
  rcases Utf8.encode_eq_some hencode with ⟨cs, rfl, rfl⟩
  rw [mergesSafely_iff, ← blank_SentenceNormalize hn hnormal, ne_eq,
    segment_eq_nil hconcat hblank]

end Segmenter

/--
With a segmenter that cuts a text without loss and makes every blank a word of
its own: the merge passes stay inside their containers on all parts of a text
exactly when no part consists of blanks only.
-/
theorem merges_safely_of_parts (st : Setup)
    (hconcat : forall cs, (st._jieba.Cut (Utf8.encodeChars cs)).flatten =
      Utf8.encodeChars cs)
    (hblank : forall s w, w ∈ st._jieba.Cut s -> 32 ∈ w -> w = str " ")
    (text : WString) (n : TextNormalizer) (hn : Reachable n)
    (e : FrontEngineInterface) :
    (forall part, part ∈ SplitByPunc text -> forall s' u,
        (SentenceNormalize part n).1 = Except.ok s' ->
        wstring2utf8string s' = Except.ok u -> MergesSafely st u e) ↔
      forall part, part ∈ SplitByPunc text -> ¬ Blank part := by
  constructor
  · intro h part hpart hblanks
    have hnormal := (SentenceNormalize_result hn part).same hblanks.digitFree
    have hutf8 : wstring2utf8string part = Except.ok (Utf8.narrow part) := by
      unfold wstring2utf8string
      rw [Utf8.encode_ascii hblanks.ascii]
    have hsafe := h part hpart part (Utf8.narrow part) hnormal hutf8
    exact (mergesSafely_part hconcat hblank hn hnormal hutf8 e).mp hsafe hblanks
  · intro h part hpart s' u hnormal hutf8
    exact (mergesSafely_part hconcat hblank hn hnormal hutf8 e).mpr (h part hpart)

/-- A segmenter that cuts at blanks only. -/
def blankSetup : Setup where
  _jieba := {
    Cut := blocks fun cur c => decide (c ≠ 32 ∧ 32 ∉ cur)
    CutAll := fun s => [s]
    CutForSearch := fun s => [s] }
  g2pmodel := fun _ => []
  _seperate_tone := str "false"

theorem blankSetup_concat (cs : List Char) :
    (blankSetup._jieba.Cut (Utf8.encodeChars cs)).flatten = Utf8.encodeChars cs :=
  flatten_blocks _ _

theorem blankSetup_blank (s w : CString) (hw : w ∈ blankSetup._jieba.Cut s)
    (h : 32 ∈ w) : w = str " " := by
  refine forall_mem_blocks s (P := fun b => 32 ∈ b -> b = str " ") ?_ ?_ w hw h
  · intro c _ hc
    rw [← List.mem_singleton.mp hc]
    rfl
  · intro cur c _ _ hjoin hmem
    rw [decide_eq_true_eq] at hjoin
    rcases List.mem_append.mp hmem with hmem | hmem
    · exact absurd hmem hjoin.2
    · exact absurd (List.mem_singleton.mp hmem).symm hjoin.1

theorem merges_safely_of_parts_greeting :
    (forall part, part ∈ SplitByPunc (wstr "你好") -> ¬ Blank part) ∧
    forall part, part ∈ SplitByPunc (wstr "你好") -> forall s' u,
      (SentenceNormalize part construct).1 = Except.ok s' ->
      wstring2utf8string s' = Except.ok u ->
      MergesSafely blankSetup u (wordEngine [(str "你好", str "n i3 h ao3")]) := by
  have hparts : forall part, part ∈ SplitByPunc (wstr "你好") -> ¬ Blank part := by
    decide +kernel
  exact ⟨hparts, (merges_safely_of_parts blankSetup blankSetup_concat blankSetup_blank
    (wstr "你好") construct Reachable.construct _).mpr hparts⟩

theorem merges_unsafely_trailing_blank :
    ¬ forall part, part ∈ SplitByPunc (wstr "你好。 ") -> forall s' u,
      (SentenceNormalize part construct).1 = Except.ok s' ->
      wstring2utf8string s' = Except.ok u ->
      MergesSafely blankSetup u (wordEngine [(str "你好", str "n i3 h ao3")]) := by
  intro h
  have hpart : wstr " " ∈ SplitByPunc (wstr "你好。 ") := by decide +kernel
  have hnormal : (SentenceNormalize (wstr " ") construct).1 =
      Except.ok (wstr " ") := by
    decide +kernel
  exact (mergesSafely_iff _ _ _).mp (h _ hpart _ _ hnormal rfl) (by decide +kernel)

end FrontEngineInterface
end VoiceTts
