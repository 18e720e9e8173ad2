import VoiceTts.Front.Loaders
import VoiceTts.Front.Lookups
import VoiceTts.Normalizer.Marks
import VoiceTts.Player.Wire
import VoiceTts.Segmenter.FrontEnd

/-!
# The native call for a segment of text

`SpeakText` asks the native library for the ids of one segment after the other.  A call
converts the segment, looks for punctuation once more, and takes what it finds through
the normaliser and the front engine.  Both keep their state between the calls.
-/

namespace VoiceTts

open FrontEngineInterface TextNormalizer

/-!
## Strings of the virtual machine
-/

/-- A code unit of UTF-16 in three bytes. -/
def threeBytes (u : Nat) : CString :=
  [UInt8.ofNat (u / 4096 + 224), UInt8.ofNat (u / 64 % 64 + 128), UInt8.ofNat (u % 64 + 128)]

/-- Zero and the characters that take two code units are not written in UTF-8. -/
def modifiedUtf8 (c : Char) : CString :=
  if c.toNat = 0 then [192, 128]
  else if 65536 ≤ c.toNat then
    threeBytes (55296 + (c.toNat - 65536) / 1024) ++
      threeBytes (56320 + (c.toNat - 65536) % 1024)
  else String.utf8EncodeChar c

def GetStringUTFChars (text : JString) : CString :=
  text.flatMap modifiedUtf8

/-- The characters that are written in UTF-8. -/
def Basic (c : Char) : Prop :=
  c.toNat ≠ 0 ∧ c.toNat < 65536

instance (c : Char) : Decidable (Basic c) :=
  inferInstanceAs (Decidable (_ ∧ _))

theorem decode_modifiedUtf8 (c : Char) (rest : CString) :
    Utf8.decode (modifiedUtf8 c ++ rest) =
      if Basic c then (Utf8.decode rest).map (c.val :: ·) else none := by
  unfold modifiedUtf8
  by_cases hzero : c.toNat = 0
  · have hnot : ¬ Basic c := fun h => h.1 hzero
    rw [if_pos hzero, if_neg hnot, Utf8.decode.eq_def]
    rfl
  · rw [if_neg hzero]
    by_cases hlarge : 65536 ≤ c.toNat
    · have hnot : ¬ Basic c := fun h => absurd h.2 (Nat.not_lt.mpr hlarge)
      rw [if_pos hlarge, if_neg hnot]
      have hvalid : c.toNat < 1114112 := by
        have hscalar : c.toNat < 55296 ∨ (57343 < c.toNat ∧ c.toNat < 1114112) := c.valid
        omega
      -- the first unit is a high surrogate, which no sequence of three bytes may encode
      generalize hu : 55296 + (c.toNat - 65536) / 1024 = u
      have hb : (UInt8.ofNat (u / 4096 + 224)).toNat = 237 := by
        rw [Utf8.toNat_byte (by omega)]
        omega
      have hb1 : (UInt8.ofNat (u / 64 % 64 + 128)).toNat = u / 64 % 64 + 128 :=
        Utf8.toNat_byte (by omega)
      have hsecond : Utf8.secondOk (UInt8.ofNat (u / 4096 + 224))
          (UInt8.ofNat (u / 64 % 64 + 128)) = false := by
        simp only [Utf8.secondOk, hb, hb1]
        rw [if_neg (by decide), if_pos trivial, decide_eq_false_iff_not]
        omega
      have htail : (Utf8.secondOk (UInt8.ofNat (u / 4096 + 224))
          (UInt8.ofNat (u / 64 % 64 + 128)) && Utf8.Tail (UInt8.ofNat (u % 64 + 128))) =
          false := by
        rw [hsecond, Bool.false_and]
      rw [threeBytes, List.append_assoc]
      exact Utf8.decode_three_none _ (by omega) (by omega) htail
    · have hbasic : Basic c := ⟨hzero, Nat.not_le.mp hlarge⟩
      rw [if_neg hlarge, if_pos hbasic]
      exact Utf8.decode_utf8EncodeChar c rest

theorem utf8string2wstring_chars (text : JString) :
    utf8string2wstring (GetStringUTFChars text) =
      if forall c, c ∈ text -> Basic c then Except.ok (Utf8.units text)
      else Except.error Error.range_error := by
  have hdecode : Utf8.decode (GetStringUTFChars text) =
      if forall c, c ∈ text -> Basic c then some (Utf8.units text) else none := by
    induction text with
    | nil =>
        rfl
    | cons c text ih =>
        unfold GetStringUTFChars at ih ⊢
        rw [List.flatMap_cons, decode_modifiedUtf8, ih]
        simp only [List.forall_mem_cons]
        by_cases hc : Basic c
        · by_cases htext : forall c, c ∈ text -> Basic c
          · rw [if_pos hc, if_pos htext, if_pos ⟨hc, htext⟩]
            rfl
          · rw [if_pos hc, if_neg htext, if_neg fun h => htext h.2]
            rfl
        · rw [if_neg hc, if_neg fun h => hc h.1]
  unfold utf8string2wstring
  rw [hdecode]
  split_ifs <;> rfl

/-!
## The call
-/

/-- The object behind `front_inst`: the engine, which is a normaliser as well. -/
structure Native where
  engine : FrontEngineInterface
  normalizer : TextNormalizer

abbrev CallM (α : Type) : Type :=
  Prog Error Native α

namespace CalcMac

def onEngine {α : Type} (m : FrontM α) : CallM α :=
  fun n => ((m n.engine).1, { n with engine := (m n.engine).2 })

def onNormalizer {α : Type} (m : NormM α) : CallM α :=
  fun n => ((m n.normalizer).1, { n with normalizer := (m n.normalizer).2 })

def partIds (st : Setup) (part : WString) : CallM (List Int × List Int) := do
  let part <- onNormalizer (SentenceNormalize part)
  let s_sentence <- Prog.lift (wstring2utf8string part)
  onEngine (GetSentenceIds st s_sentence)

def partsIds (st : Setup) : List WString -> CallM (List Int × List Int)
  | [] => pure ([], [])
  | part :: sentence_part => do
      let r <- partIds st part
      let rs <- partsIds st sentence_part
      pure (r.1 ++ rs.1, r.2 ++ rs.2)

def Native_JniCalcText (st : Setup) (trand_simp_map : Dictionary) (text : JString) :
    CallM JString := do
  let ws_sentence <- Prog.lift (utf8string2wstring (GetStringUTFChars text))
  let sentence_simp <- Prog.lift (Trand2Simp trand_simp_map ws_sentence)
  let r <- partsIds st (SplitByPunc sentence_simp)
  pure (NewStringUTF (Join r.1 (str ",")))

def getAllPhoneIds (st : Setup) (trand_simp_map : Dictionary) :
    List JString -> CallM (List JString)
  | [] => pure []
  | text :: segmentText => do
      let codes <- Native_JniCalcText st trand_simp_map text
      let rest <- getAllPhoneIds st trand_simp_map segmentText
      pure (codes :: rest)

/-!
## The segments of a text
-/

/-- The replacements of the dictionary are neither blank nor marked. -/
def Sounding (trand_simp_map : Dictionary) : Prop :=
  forall k w, trand_simp_map.contains k = true ->
    utf8string2wstring (trand_simp_map.peek k) = Except.ok w -> Unmarked w ∧ ¬ Blank w

theorem sounding_empty : Sounding StdMap.empty := by
  intro k w hk
  cases hk

theorem unmarked_append {s t : WString} (hs : Unmarked s) (ht : Unmarked t) :
    Unmarked (s ++ t) := by
  intro c hc
  rcases List.mem_append.mp hc with hc | hc
  · exact hs c hc
  · exact ht c hc

theorem blank_append {s t : WString} : Blank (s ++ t) ↔ Blank s ∧ Blank t :=
  List.forall_mem_append

/-- What a character without a mark becomes has none, and is blank for a blank only. -/
theorem Trand2Simp_sounding {trand_simp_map : Dictionary} (hmap : Sounding trand_simp_map)
    {sentence sentence_simp : WString}
    (h : Trand2Simp trand_simp_map sentence = Except.ok sentence_simp)
    (hfree : Unmarked sentence) :
    Unmarked sentence_simp ∧ (Blank sentence_simp -> Blank sentence) := by
  induction sentence generalizing sentence_simp with
  | nil =>
      cases h
      exact ⟨hfree, id⟩
  | cons c sentence ih =>
      have hchar : exists simp rest, Trand2Simp trand_simp_map sentence = Except.ok rest ∧
          sentence_simp = simp ++ rest ∧ Unmarked simp ∧ (Blank simp -> Blank [c]) := by
        rcases except_bind_eq_ok.mp h with ⟨sigle_word, -, h⟩
        split at h
        · rename_i hknown
          rcases except_bind_eq_ok.mp h with ⟨simp, hsimp, h⟩
          rcases except_bind_eq_ok.mp h with ⟨rest, hrest, hpure⟩
          cases hpure
          have hsound := hmap sigle_word simp hknown hsimp
          exact ⟨simp, rest, hrest, rfl, hsound.1, fun hblank => absurd hblank hsound.2⟩
        · rcases except_bind_eq_ok.mp h with ⟨simp, hsimp, h⟩
          rcases except_bind_eq_ok.mp h with ⟨rest, hrest, hpure⟩
          cases hsimp
          cases hpure
          refine ⟨[c], rest, hrest, rfl, ?_, id⟩
          intro d hd
          exact hfree d (List.mem_singleton.mp hd ▸ List.mem_cons_self ..)
      rcases hchar with ⟨simp, rest, hrest, rfl, hunmarked, hblank⟩
      have hothers := ih hrest fun d hd => hfree d (List.mem_cons_of_mem _ hd)
      refine ⟨unmarked_append hunmarked hothers.1, ?_⟩
      rw [blank_append, ← List.singleton_append, blank_append]
      exact fun h => ⟨hblank h.1, hothers.2 h.2⟩

theorem SplitByPunc_unmarked {sentence : WString} (hne : sentence ≠ [])
    (hfree : Unmarked sentence) : SplitByPunc sentence = [sentence] := by
  obtain ⟨n, hn⟩ := Nat.exists_eq_succ_of_ne_zero (List.length_pos_iff.mpr hne).ne'
  rw [SplitByPunc, hn]
  simp only [splitByPunc, search_punc_none.mpr hfree]
  rw [if_pos hne, List.nil_append]

theorem mem_splitOnPPrepend {p : Char -> Bool} {s acc part : JString}
    (hpart : part ∈ s.splitOnPPrepend p acc) {c : Char} (hc : c ∈ part) :
    c ∈ acc ∨ (c ∈ s ∧ p c = false) := by
  induction s generalizing acc with
  | nil =>
      rw [List.splitOnPPrepend_nil, List.mem_singleton] at hpart
      rw [hpart] at hc
      exact Or.inl (List.mem_reverse.mp hc)
  | cons d s ih =>
      cases hd : p d with
      | true =>
          rw [List.splitOnPPrepend_cons_pos hd] at hpart
          rcases List.mem_cons.mp hpart with rfl | hpart
          · exact Or.inl (List.mem_reverse.mp hc)
          · have hrest := (ih hpart).resolve_left List.not_mem_nil
            exact Or.inr ⟨List.mem_cons_of_mem d hrest.1, hrest.2⟩
      | false =>
          rw [List.splitOnPPrepend_cons_neg hd] at hpart
          rcases ih hpart with hacc | hrest
          · rcases List.mem_cons.mp hacc with rfl | hacc
            · exact Or.inr ⟨List.mem_cons_self .., hd⟩
            · exact Or.inl hacc
          · exact Or.inr ⟨List.mem_cons_of_mem d hrest.1, hrest.2⟩

theorem mem_splitOn {x : Char} {s part : JString} (hpart : part ∈ s.splitOn x) {c : Char}
    (hc : c ∈ part) : c ∈ s ∧ c ≠ x := by
  rw [List.splitOn_eq_splitOnP] at hpart
  have hmem := (mem_splitOnPPrepend hpart hc).resolve_left List.not_mem_nil
  exact ⟨hmem.1, ne_of_beq_false hmem.2⟩

/-- What is left by `trim` ends in a character that it would not remove. -/
theorem trim_spec {s : JString} (hne : trim s ≠ []) :
    (forall c, c ∈ trim s -> c ∈ s) ∧ exists c, c ∈ trim s ∧ 32 < c.val.toNat := by
  have htrim : trim s = (s.dropWhile fun c => decide (c.val.toNat ≤ 32)).rdropWhile
      fun c => decide (c.val.toNat ≤ 32) := rfl
  rw [htrim] at hne ⊢
  constructor
  · intro c hc
    exact (List.dropWhile_suffix _).subset ((List.rdropWhile_prefix _ _).subset hc)
  · refine ⟨_, List.getLast_mem hne, ?_⟩
    have hlast := List.rdropWhile_last_not _ _ hne
    rw [decide_eq_true_eq] at hlast
    exact Nat.not_le.mp hlast

theorem mem_marks {c : Char} (h : c.val ∈ marks) : c = '，' ∨ c ∈ charSplit := by
  rcases List.mem_map.mp (show c.val ∈ "：，；。？！,;?!".toList.map Char.val from h) with
    ⟨d, hd, heq⟩
  have hall : forall d, d ∈ "：，；。？！,;?!".toList -> d = '，' ∨ d ∈ charSplit := by
    decide
  rw [← Char.ext heq]
  exact hall d hd

/-- A segment has no mark, and it is not blank. -/
theorem segment_spec {text s : JString} (hs : s ∈ segmentText text) :
    Unmarked (Utf8.units s) ∧ ¬ Blank (Utf8.units s) := by
  unfold segmentText at hs
  rw [List.mem_filter, decide_eq_true_eq] at hs
  rcases hs with ⟨hmem, hne⟩
  rcases List.mem_map.mp hmem with ⟨part, hpart, rfl⟩
  have htrim := trim_spec hne
  constructor
  · intro u hu hmark
    rcases List.mem_map.mp hu with ⟨c, hc, rfl⟩
    have hsplit := mem_splitOn hpart (htrim.1 c hc)
    rcases List.mem_map.mp hsplit.1 with ⟨d, -, rfl⟩
    have hsplitter := (mem_marks hmark).resolve_left hsplit.2
    split at hsplitter
    · exact absurd hsplitter (by decide)
    · rename_i hnot
      exact hnot hsplitter
  · intro hblank
    rcases htrim.2 with ⟨c, hc, hlarge⟩
    have hspace : c.val = 32 := hblank c.val (List.mem_map_of_mem hc)
    rw [hspace] at hlarge
    exact absurd hlarge (by decide)

theorem partsIds_single (st : Setup) (part : WString) :
    partsIds st [part] = partIds st part := by
  have hpair : (fun r : List Int × List Int =>
      (pure (r.1 ++ [], r.2 ++ []) : CallM (List Int × List Int))) = pure := by
    funext r
    rw [List.append_nil, List.append_nil]
  simp only [partsIds, pure_bind]
  rw [hpair, bind_pure]

/-- The loops of the normaliser leave it in a state that some calls lead to. -/
theorem Native_JniCalcText_reachable (st : Setup) (trand_simp_map : Dictionary)
    (text : JString) :
    Prog.Keeps (fun n => Reachable n.normalizer)
      (Native_JniCalcText st trand_simp_map text) := by
  have hpart : forall part, Prog.Keeps (fun n : Native => Reachable n.normalizer)
      (partIds st part) := by
    intro part
    refine Prog.Keeps.bind ?_ fun s' => (Prog.keeps_lift _).bind fun s_sentence => ?_
    · intro n hn
      exact hn.call (Call.sentenceNormalize part)
    · intro n hn
      exact hn
  have hparts : forall sentence_part, Prog.Keeps (fun n : Native => Reachable n.normalizer)
      (partsIds st sentence_part) := by
    intro sentence_part
    induction sentence_part with
    | nil =>
        exact Prog.keeps_pure _
    | cons part sentence_part ih =>
        exact (hpart part).bind fun r => ih.bind fun rs => Prog.keeps_pure _
  exact (Prog.keeps_lift _).bind fun ws_sentence => (Prog.keeps_lift _).bind
    fun sentence_simp => (hparts _).bind fun r => Prog.keeps_pure _

theorem text_of_utf8 {w : WString} {u : CString} (h : wstring2utf8string w = Except.ok u) :
    exists cs, w = Utf8.units cs ∧ u = Utf8.encodeChars cs := by
  unfold wstring2utf8string at h
  split at h
  · rename_i v hv
    rw [← Except.ok.inj h]
    exact Utf8.encode_eq_some hv
  · cases h

def callPart (st : Setup) (sentence_simp : WString) : CallM JString := do
  let r <- partIds st sentence_simp
  pure (NewStringUTF (Join r.1 (str ",")))

/--
A segment of a text goes through the native library as one part, or it has a character
that stops the call at once.  The merge passes of such a part stay inside their
containers, since it has a word to look at; this holds of every call of a run.
-/
theorem SpeakText_merges_safely {W : Type} [Cppjieba.Double W] (j : Cppjieba.Jieba W) (st : Setup)
    (hst : st._jieba = j.front) (hblank : 32 ∈ j.symbols_) (trand_simp_map : Dictionary)
    (hmap : Sounding trand_simp_map) (text s : JString) (hs : s ∈ segmentText text)
    (n : Native) (hn : Reachable n.normalizer) :
    (Native_JniCalcText st trand_simp_map s n =
      if forall c, c ∈ s -> Basic c then
        (Prog.lift (Trand2Simp trand_simp_map (Utf8.units s)) >>= callPart st) n
      else (Except.error Error.range_error, n)) ∧
      (forall sentence_simp part u,
        Trand2Simp trand_simp_map (Utf8.units s) = Except.ok sentence_simp ->
        (SentenceNormalize sentence_simp n.normalizer).1 = Except.ok part ->
        wstring2utf8string part = Except.ok u -> MergesSafely st u n.engine) ∧
      Reachable (Native_JniCalcText st trand_simp_map s n).2.normalizer := by
  rcases segment_spec hs with ⟨hfree, hsound⟩
  refine ⟨?_, ?_, Native_JniCalcText_reachable st trand_simp_map s n hn⟩
  · unfold Native_JniCalcText
    rw [utf8string2wstring_chars]
    split_ifs
    · rw [Prog.bind_of_ok (Prog.lift_apply _ n)]
      cases hsimp : Trand2Simp trand_simp_map (Utf8.units s) with
      | error err =>
          rfl
      | ok sentence_simp =>
          have hspec := Trand2Simp_sounding hmap hsimp hfree
          have hne : sentence_simp ≠ [] := by
            rintro rfl
            exact hsound (hspec.2 fun _ hc => absurd hc List.not_mem_nil)
          rw [Prog.bind_of_ok (Prog.lift_apply _ n), Prog.bind_of_ok (Prog.lift_apply _ n),
            SplitByPunc_unmarked hne hspec.1, partsIds_single]
          rfl
    · rfl
  · intro sentence_simp part u hsimp hnormal hutf8
    have hspec := Trand2Simp_sounding hmap hsimp hfree
    have hpart : ¬ Blank part := fun hblanks =>
      hsound (hspec.2 ((blank_SentenceNormalize hn hnormal).mp hblanks))
    rcases text_of_utf8 hutf8 with ⟨cs, rfl, rfl⟩
    rw [mergesSafely_iff, Cppjieba.segment_ne_nil_iff hst hblank]
    by_contra hall
    refine hpart fun c hc => ?_
    rcases List.mem_map.mp hc with ⟨d, hd, rfl⟩
    by_contra hne
    exact hall ⟨d, hd, fun heq => hne (heq ▸ rfl)⟩

theorem Trand2Simp_empty (cs : List Char) :
    Trand2Simp StdMap.empty (Utf8.units cs) = Except.ok (Utf8.units cs) := by
  induction cs with
  | nil =>
      rfl
  | cons c cs ih =>
      have hchar : wstring2utf8string [c.val] = Except.ok (Utf8.encodeChars [c]) :=
        wstring2utf8string_units [c]
      change Trand2Simp StdMap.empty (c.val :: Utf8.units cs) = _
      rw [Trand2Simp, hchar, ih]
      rfl

/-- The second segment of a text has two words, which `MergeBu` joins. -/
theorem SpeakText_merges_safely_country :
    Native_JniCalcText Cppjieba.chineseSetup StdMap.empty ['不', ' ', '中', '国']
        ⟨Cppjieba.deniedEngine, construct⟩ =
      callPart Cppjieba.chineseSetup (Utf8.units ['不', ' ', '中', '国'])
        ⟨Cppjieba.deniedEngine, construct⟩ ∧
      segment Cppjieba.chineseSetup (Utf8.encodeChars ['不', ' ', '中', '国']) =
        [(str "不", str "x"), (str "中国", str "x")] ∧
      MergesSafely Cppjieba.chineseSetup (Utf8.encodeChars ['不', ' ', '中', '国'])
        Cppjieba.deniedEngine ∧
      Reachable (Native_JniCalcText Cppjieba.chineseSetup StdMap.empty
        ['不', ' ', '中', '国'] ⟨Cppjieba.deniedEngine, construct⟩).2.normalizer := by
  have hsafe := SpeakText_merges_safely
    (Cppjieba.Jieba.create Cppjieba.chineseWords Cppjieba.pairModel)
    Cppjieba.chineseSetup rfl (by decide) StdMap.empty sounding_empty
    "好。 不 中国 ".toList ['不', ' ', '中', '国'] (by decide)
    ⟨Cppjieba.deniedEngine, construct⟩ Reachable.construct
  have hsame : (SentenceNormalize (Utf8.units ['不', ' ', '中', '国']) construct).1 =
      Except.ok (Utf8.units ['不', ' ', '中', '国']) :=
    (SentenceNormalize_result Reachable.construct _).same (by unfold DigitFree; decide)
  refine ⟨?_, by decide +kernel, ?_, hsafe.2.2⟩
  · rw [hsafe.1, if_pos (by decide), Trand2Simp_empty]
    exact Prog.bind_of_ok (Prog.lift_apply _ _)
  · exact hsafe.2.1 _ _ _ (Trand2Simp_empty _) hsame (wstring2utf8string_units _)

end CalcMac

end VoiceTts
