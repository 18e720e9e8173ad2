import VoiceTts.Front.Keys
import VoiceTts.Player.NativeCall

/-!
# The ids that arrive

A text is spoken in calls of the native library, one for each segment, and the engine keeps
its tables between them.  This module follows the names of all calls of a run: what the
player reads are the ids of keys as long as every call finds its names in `phone_id_map`.
-/

namespace VoiceTts

open FrontEngineInterface TextNormalizer

namespace CalcMac

/-!
## The names of a run
-/

/-- What the parts of a text have to find among the keys, one after the other. -/
def PartsKeys (K : CString -> Prop) (st : Setup) : List WString -> Native -> Prop
  | [], _ => True
  | part :: sentence_part, n =>
      (forall normal s_sentence cut_result e,
        (SentenceNormalize part n.normalizer).1 = Except.ok normal ->
        wstring2utf8string normal = Except.ok s_sentence ->
        FrontEngineInterface.Cut st s_sentence n.engine = (Except.ok cut_result, e) ->
        CallKeys K st cut_result e) ∧
      PartsKeys K st sentence_part (partIds st part n).2

/-- What the segments of a text have to find, in calls that all return. -/
def TextsKeys (K : CString -> Prop) (st : Setup) (trand_simp_map : Dictionary) :
    List JString -> Native -> Prop
  | [], _ => True
  | text :: segmentText, n =>
      (forall ws_sentence sentence_simp,
        utf8string2wstring (GetStringUTFChars text) = Except.ok ws_sentence ->
        Trand2Simp trand_simp_map ws_sentence = Except.ok sentence_simp ->
        PartsKeys K st (SplitByPunc sentence_simp) n) ∧
      TextsKeys K st trand_simp_map segmentText (Native_JniCalcText st trand_simp_map text n).2

theorem textsKeys_cons {K : CString -> Prop} {st : Setup} {trand_simp_map : Dictionary}
    {text codes : JString} {segmentText : List JString} {n n1 : Native}
    (h : Native_JniCalcText st trand_simp_map text n = (Except.ok codes, n1)) :
    TextsKeys K st trand_simp_map (text :: segmentText) n ↔
      TextsKeys K st trand_simp_map [text] n ∧ TextsKeys K st trand_simp_map segmentText n1 := by
  rw [TextsKeys, TextsKeys, TextsKeys, h]
  exact and_congr_left fun _ => (and_iff_left trivial).symm

theorem getAllPhoneIds_cons_ok {st : Setup} {trand_simp_map : Dictionary}
    {text codes : JString} {segmentText codess : List JString} {n n1 n2 : Native}
    (h : Native_JniCalcText st trand_simp_map text n = (Except.ok codes, n1))
    (hs : getAllPhoneIds st trand_simp_map segmentText n1 = (Except.ok codess, n2)) :
    getAllPhoneIds st trand_simp_map (text :: segmentText) n =
      (Except.ok (codes :: codess), n2) := by
  rw [getAllPhoneIds, Prog.bind_of_ok h, Prog.bind_of_ok hs]
  rfl

/-- The player reads the codes as ids of keys. -/
def Answers (st : Setup) (loaded : StdMap CString CString) (codes : JString) : Prop :=
  exists phones : List CString, (forall p, p ∈ phones -> Key st._seperate_tone loaded p) ∧
    phonesOfCodes codes = some (segmentPhones (phones.map fun p =>
      atoi (loaded.peek (keyOf st._seperate_tone p))))

/-- All calls of a run give ids of keys, and none has inserted a name. -/
structure Served (st : Setup) (n n' : Native) (codess : List JString) : Prop where
  table : n'.engine.phone_id_map = n.engine.phone_id_map
  answers : forall codes, codes ∈ codess -> Answers st n.engine.phone_id_map codes

section Keys

variable {st : Setup} {e e' : FrontEngineInterface} {n n' : Native}

theorem Cut_spelled (mode : CString) {sentence : CString} {r : Seg}
    (h : FrontEngineInterface.Cut st sentence e = (Except.ok r, e')) :
    exists heard, Spelled mode [] heard [] e e' := by
  have hphone : forall w, Prog.Simulates
      (fun s t => s = t ∧ exists heard, Spelled mode [] heard [] e s)
      (GetPhone st w) (GetPhone st w) := by
    intro w
    refine Prog.simulates_self.mpr ?_
    rintro s ⟨heard, hs⟩
    exact ⟨_, hs.append (GetPhone_spelled st mode w s)⟩
  have hkeeps := Prog.simulates_self.mp (MergeforModify_simulates
    (fun w => GetFinals_simulates (hphone w)) (segment st sentence)) e
    ⟨[], Spelled.refl mode e⟩
  have hrun : MergeforModify (GetFinals st) (segment st sentence) e = (Except.ok r, e') := h
  rw [hrun] at hkeeps
  exact hkeeps

theorem partIds_names {part : WString} {r : List Int × List Int}
    (h : partIds st part n = (Except.ok r, n')) :
    exists phones heard, Spelled st._seperate_tone phones heard r.1 n.engine n'.engine ∧
      forall K : CString -> Prop, (forall p, p ∈ phones -> K p) ↔ PartsKeys K st [part] n := by
  rcases Prog.bind_eq_ok h with ⟨normal, n1, hnormal, hrest⟩
  rcases Prog.bind_eq_ok hrest with ⟨s_sentence, n2, hutf8, hids⟩
  have hengine1 : n1.engine = n.engine := (congrArg (fun p => p.2.engine) hnormal).symm
  have hengine2 : n2.engine = n1.engine := (congrArg (fun p => p.2.engine) hutf8).symm
  have hresult : (GetSentenceIds st s_sentence n2.engine).1 = Except.ok r :=
    congrArg Prod.fst hids
  have hengine : (GetSentenceIds st s_sentence n2.engine).2 = n'.engine :=
    congrArg (fun p => p.2.engine) hids
  have hrun : GetSentenceIds st s_sentence n2.engine = (Except.ok r, n'.engine) :=
    Prod.ext hresult hengine
  rw [hengine2, hengine1] at hrun
  rcases Prog.bind_eq_ok hrun with ⟨cut_result, e1, hcut, hwords⟩
  rcases Cut_spelled st._seperate_tone hcut with ⟨heard, hquiet⟩
  rcases GetWordsIds_names hwords with ⟨phones, heard', hspelled, hnames⟩
  refine ⟨_, _, hquiet.append hspelled, fun K => ?_⟩
  have hnormal' : (SentenceNormalize part n.normalizer).1 = Except.ok normal :=
    congrArg Prod.fst hnormal
  have hutf8' : wstring2utf8string normal = Except.ok s_sentence := congrArg Prod.fst hutf8
  rw [List.nil_append, hnames]
  constructor
  · intro hkeys
    refine ⟨?_, trivial⟩
    intro normal' s_sentence' cut_result' e1' hn hu hc
    rw [hnormal', Except.ok.injEq] at hn
    rw [← hn, hutf8', Except.ok.injEq] at hu
    rw [← hu, hcut] at hc
    cases hc
    exact hkeys
  · intro hkeys
    exact hkeys.1 normal s_sentence cut_result e1 hnormal' hutf8' hcut

theorem partsIds_names {sentence_part : List WString} {r : List Int × List Int}
    (h : partsIds st sentence_part n = (Except.ok r, n')) :
    exists phones heard, Spelled st._seperate_tone phones heard r.1 n.engine n'.engine ∧
      forall K : CString -> Prop,
        (forall p, p ∈ phones -> K p) ↔ PartsKeys K st sentence_part n := by
  induction sentence_part generalizing n r with
  | nil =>
      cases h
      refine ⟨[], [], Spelled.refl _ _, fun K => ?_⟩
      exact iff_of_true (fun _ hp => absurd hp List.not_mem_nil) trivial
  | cons part sentence_part ih =>
      rcases Prog.bind_eq_ok h with ⟨r1, n1, h1, hrest⟩
      rcases Prog.bind_eq_ok hrest with ⟨r2, n2, h2, hpure⟩
      cases hpure
      rcases partIds_names h1 with ⟨phones, heard, hspelled, hnames⟩
      rcases ih h2 with ⟨phones', heard', hspelled', hnames'⟩
      refine ⟨_, _, hspelled.append hspelled', fun K => ?_⟩
      rw [List.forall_mem_append, hnames, hnames', PartsKeys, PartsKeys, PartsKeys, h1]
      exact and_congr_left fun _ => and_iff_left trivial

theorem Native_JniCalcText_names (hint : forall k, InInt (atoi (n.engine.phone_id_map.peek k)))
    {trand_simp_map : Dictionary} {text codes : JString}
    (h : Native_JniCalcText st trand_simp_map text n = (Except.ok codes, n')) :
    exists phones heard ids, Spelled st._seperate_tone phones heard ids n.engine n'.engine ∧
      phonesOfCodes codes = some (segmentPhones ids) ∧
      forall K : CString -> Prop, (forall p, p ∈ phones -> K p) ↔
        TextsKeys K st trand_simp_map [text] n := by
  rcases Prog.bind_eq_ok h with ⟨ws_sentence, n1, hwide, h⟩
  rcases Prog.bind_eq_ok h with ⟨sentence_simp, n2, hsimp, h⟩
  rcases Prog.bind_eq_ok h with ⟨r, n3, hparts, hpure⟩
  rcases Prod.mk.inj hwide with ⟨hwide', rfl⟩
  rcases Prod.mk.inj hsimp with ⟨hsimp', rfl⟩
  cases hpure
  rcases partsIds_names hparts with ⟨phones, heard, hspelled, hnames⟩
  refine ⟨phones, heard, r.1, hspelled, ?_, fun K => ?_⟩
  · refine phonesOfCodes_eq r.1 fun i hi => ?_
    rw [hspelled.ids_eq] at hi
    rcases List.mem_map.mp hi with ⟨p, -, rfl⟩
    exact hint _
  · rw [hnames]
    constructor
    · intro hkeys
      refine ⟨?_, trivial⟩
      intro ws_sentence' sentence_simp' hw hs
      rw [hwide', Except.ok.injEq] at hw
      rw [← hw, hsimp', Except.ok.injEq] at hs
      rw [← hs]
      exact hkeys
    · intro hkeys
      exact hkeys.1 ws_sentence sentence_simp hwide' hsimp'

/-- The names of a run, and where in it the phones of a call come from. -/
theorem getAllPhoneIds_names {trand_simp_map : Dictionary} {texts codess : List JString}
    (hint : forall k, InInt (atoi (n.engine.phone_id_map.peek k)))
    (h : getAllPhoneIds st trand_simp_map texts n = (Except.ok codess, n')) :
    codess.length = texts.length ∧
      exists phones heard ids, Spelled st._seperate_tone phones heard ids n.engine n'.engine ∧
        (forall K : CString -> Prop, (forall p, p ∈ phones -> K p) ↔
          TextsKeys K st trand_simp_map texts n) ∧
        forall codes, codes ∈ codess -> exists ps : List CString,
          (forall p, p ∈ ps -> p ∈ phones) ∧
          phonesOfCodes codes = some (segmentPhones (ps.map fun p =>
            atoi (n.engine.phone_id_map.peek (keyOf st._seperate_tone p)))) := by
  induction texts generalizing n codess with
  | nil =>
      cases h
      refine ⟨rfl, [], [], [], Spelled.refl _ _, fun K => ?_, ?_⟩
      · exact iff_of_true (fun _ hp => absurd hp List.not_mem_nil) trivial
      · exact fun _ hcodes => absurd hcodes List.not_mem_nil
  | cons text texts ih =>
      rcases Prog.bind_eq_ok h with ⟨codes, n1, hcall, hrest⟩
      rcases Prog.bind_eq_ok hrest with ⟨rest, n2, hcalls, hpure⟩
      cases hpure
      rcases Native_JniCalcText_names hint hcall with
        ⟨phones, heard, ids, hspelled, hcodes, hnames⟩
      have hpeek : forall k, n1.engine.phone_id_map.peek k = n.engine.phone_id_map.peek k := by
        intro k
        rw [hspelled.table, StdMap.peek_touchAll]
      have hint1 : forall k, InInt (atoi (n1.engine.phone_id_map.peek k)) := by
        intro k
        rw [hpeek]
        exact hint k
      rcases ih hint1 hcalls with
        ⟨hlen, phones', heard', ids', hspelled', hnames', hanswers⟩
      refine ⟨congrArg (· + 1) hlen, _, _, _, hspelled.append hspelled', fun K => ?_, ?_⟩
      · rw [List.forall_mem_append, hnames, hnames']
        exact (textsKeys_cons hcall).symm
      · intro c hc
        rcases List.mem_cons.mp hc with rfl | hc
        · refine ⟨phones, fun p hp => List.mem_append_left _ hp, ?_⟩
          rw [hcodes, hspelled.ids_eq]
        · rcases hanswers c hc with ⟨ps, hps, hread⟩
          refine ⟨ps, fun p hp => List.mem_append_right _ (hps p hp), ?_⟩
          simp only [hread, hpeek]

/--
Whatever a text is made of, and however many texts there are: the player reads the codes of
every call as the ids of keys and no name is inserted, exactly when every call finds the
names of its words among the keys.
-/
theorem getAllPhoneIds_keys_iff (st : Setup) (trand_simp_map : Dictionary)
    (texts : List JString) (n n' : Native) (codess : List JString)
    (hint : forall k, InInt (atoi (n.engine.phone_id_map.peek k)))
    (h : getAllPhoneIds st trand_simp_map texts n = (Except.ok codess, n')) :
    codess.length = texts.length ∧ (Served st n n' codess ↔
      TextsKeys (Key st._seperate_tone n.engine.phone_id_map) st trand_simp_map texts n) := by
  rcases getAllPhoneIds_names hint h with
    ⟨hlen, phones, heard, ids, hspelled, hnames, hanswers⟩
  refine ⟨hlen, ?_⟩
  rw [← hnames, ← hspelled.table_eq_iff]
  constructor
  · intro hserved
    exact hserved.table
  · intro htable
    refine ⟨htable, ?_⟩
    intro codes hcodes
    rcases hanswers codes hcodes with ⟨ps, hps, hread⟩
    exact ⟨ps, fun p hp => hspelled.table_eq_iff.mp htable p (hps p hp), hread⟩

end Keys

/-!
## A run of two words
-/

/-- A single word leaves the merge passes as it came. -/
theorem MergeforModify_lone {σ : Type} {getFinals : CString -> Prog Error σ (List CString)}
    {w : CString} {fs : List CString} {s : σ} (hword : Spoken w) (hbu : w ≠ str "不")
    (hget : getFinals w s = (Except.ok fs, s)) :
    MergeforModify getFinals [(w, str "x")] s = (Except.ok [(w, str "x")], s) := by
  have hmergeBu : MergeBu [(w, str "x")] = [(w, str "x")] := by
    have hnone : ([] : CString) ≠ str "不" := by
      decide
    simp [MergeBu, mergeBuStep, hbu, hnone]
  have hrow : finalsRows getFinals [(w, str "x")] s = (Except.ok [fs], s) := by
    have hfinals : finalsRow getFinals (w, str "x") s = (Except.ok fs, s) := by
      rw [finalsRow, if_pos ⟨rfl, hword.2.2, hword.1⟩, hget]
    rw [finalsRows, Prog.bind_of_ok hfinals]
    rfl
  have hthree : forall tones, mergeThree getFinals tones [(w, str "x")] s =
      (Except.ok [(w, str "x")], s) := by
    intro tones
    have hbody : body [(w, str "x")] = [(w, str "x")] := by
      simp [body, hword.2.1]
    have hheld : held [(w, str "x")] = [] := by
      simp [held, hword.2.1]
    have hresult : threeResult tones [(w, str "x")] [fs] = Except.ok [(w, str "x")] := by
      have hfirst : joinsThree tones [(w, str "x")] [fs] [false] (w, str "x") 0 =
          Except.ok false := if_neg fun h => absurd h.2.2 (by decide)
      have hstep : threeStep tones [(w, str "x")] [fs] ([], [false]) 0 =
          Except.ok ([(w, str "x")], [false]) := by
        change (joinsThree tones [(w, str "x")] [fs] [false] (w, str "x") 0 >>= _) = _
        rw [hfirst]
        rfl
      rw [threeResult, hbody, hheld]
      change ((threeStep tones [(w, str "x")] [fs] ([], [false]) 0 >>= pure) >>= _) = _
      rw [hstep]
      rfl
    rw [mergeThree_apply (List.cons_ne_nil _ _), hbody, Prog.bind_of_ok hrow, hresult]
    rfl
  unfold MergeforModify
  rw [hmergeBu]
  change (MergeThreeTones getFinals [(w, str "x")] >>= _) s = _
  rw [MergeThreeTones, Prog.bind_of_ok (hthree bothToneThree)]
  rw [MergeThreeTones2, Prog.bind_of_ok (hthree edgeToneThree)]
  rfl

/-- A text that is one word for the segmenter, and nothing for the normaliser. -/
structure LoneWord (st : Setup) (cs : List Char) : Prop where
  ne : cs ≠ []
  basic : forall c, c ∈ cs -> Basic c
  unmarked : forall c, c ∈ cs -> c.val ∉ marks
  audible : forall c, c ∈ cs -> 128 ≤ c.val.toNat
  whole : segment st (Utf8.encodeChars cs) = [(Utf8.encodeChars cs, str "x")]
  spoken : Spoken (Utf8.encodeChars cs)
  no_bu : Utf8.encodeChars cs ≠ str "不"

/-- The call for a word of the dictionary returns, and it reads the names of that word. -/
theorem LoneWord.call {st : Setup} {cs : List Char} (hlone : LoneWord st cs) {n : Native}
    (hn : Reachable n.normalizer) {entry phone : CString} {pairs : List (CString × CString)}
    (hentry : n.engine.word_phone_map.find (Utf8.encodeChars cs) = some entry)
    (hreads : Reads entry pairs)
    (hphone : wordPhones st (Utf8.encodeChars cs) (str "x") (initialsAndFinals pairs) =
      Except.ok phone)
    (hmode : st._seperate_tone ≠ str "true") :
    exists codes n', Native_JniCalcText st StdMap.empty cs n = (Except.ok codes, n') ∧
      Reachable n'.normalizer ∧ n'.engine.word_phone_map = n.engine.word_phone_map ∧
      forall K : CString -> Prop, WordKeys K st n.engine cs ->
        TextsKeys K st StdMap.empty [cs] n := by
  have hwide : utf8string2wstring (GetStringUTFChars cs) = Except.ok (Utf8.units cs) := by
    rw [utf8string2wstring_chars, if_pos hlone.basic]
  have hsplit : SplitByPunc (Utf8.units cs) = [Utf8.units cs] := by
    refine SplitByPunc_unmarked ?_ ?_
    · exact fun hnil => hlone.ne (List.map_eq_nil_iff.mp hnil)
    · intro u hu
      rcases List.mem_map.mp hu with ⟨c, hc, rfl⟩
      exact hlone.unmarked c hc
  have hsilent : DigitFree (Utf8.units cs) := by
    refine digitFree_of_audible fun u hu => ?_
    rcases List.mem_map.mp hu with ⟨c, hc, rfl⟩
    exact hlone.audible c hc
  have hnormal := (SentenceNormalize_result hn (Utf8.units cs)).same hsilent
  have hcut : FrontEngineInterface.Cut st (Utf8.encodeChars cs) n.engine =
      (Except.ok [(Utf8.encodeChars cs, str "x")], n.engine) := by
    have hfinals : GetFinals st (Utf8.encodeChars cs) n.engine =
        (Except.ok (initialsAndFinals pairs).2, n.engine) := by
      rw [GetFinals, Prog.bind_of_ok (GetInitialsFinals_entry hentry hreads)]
      rfl
    rw [FrontEngineInterface.Cut, hlone.whole]
    exact MergeforModify_lone hlone.spoken hlone.no_bu hfinals
  rcases idsOfPhones_ok (Stringsplit phone 32) (fun h => absurd h hmode) n.engine with
    ⟨r, e', hids⟩
  have hword := (idsOfToken_entry hlone.spoken hentry hreads hphone).trans hids
  have hwords : GetWordsIds st [(Utf8.encodeChars cs, str "x")] n.engine =
      (Except.ok (r.1 ++ [], r.2 ++ []), e') := by
    have hnone : GetWordsIds st [] e' = (Except.ok ([], []), e') := rfl
    exact GetWordsIds_cons_ok hword hnone
  have hsentence : GetSentenceIds st (Utf8.encodeChars cs) n.engine =
      (Except.ok (r.1 ++ [], r.2 ++ []), e') := by
    rw [GetSentenceIds, Prog.bind_of_ok hcut, hwords]
  have hpart : partIds st (Utf8.units cs) n = (Except.ok (r.1 ++ [], r.2 ++ []),
      ⟨e', (SentenceNormalize (Utf8.units cs) n.normalizer).2⟩) := by
    have hnormalize : onNormalizer (SentenceNormalize (Utf8.units cs)) n =
        (Except.ok (Utf8.units cs),
          { n with normalizer := (SentenceNormalize (Utf8.units cs) n.normalizer).2 }) := by
      rw [onNormalizer, hnormal]
    rw [partIds, Prog.bind_of_ok hnormalize, wstring2utf8string_units,
      Prog.bind_of_ok (Prog.lift_apply _ _), onEngine, hsentence]
  have hrun : Native_JniCalcText st StdMap.empty cs n =
      (Except.ok (NewStringUTF (Join (r.1 ++ []) (str ","))),
        ⟨e', (SentenceNormalize (Utf8.units cs) n.normalizer).2⟩) := by
    rw [Native_JniCalcText, hwide, Prog.bind_of_ok (Prog.lift_apply _ _), Trand2Simp_empty,
      Prog.bind_of_ok (Prog.lift_apply _ _), hsplit, partsIds_single, Prog.bind_of_ok hpart]
    rfl
  refine ⟨_, _, hrun, ?_, ?_, ?_⟩
  · exact hn.call (Call.sentenceNormalize (Utf8.units cs))
  · rw [(idsOfPhones_spelled hids).1.words]
    rfl
  · intro K hkeys
    refine ⟨?_, trivial⟩
    intro ws_sentence sentence_simp hw hs
    rw [hwide, Except.ok.injEq] at hw
    rw [← hw, Trand2Simp_empty, Except.ok.injEq] at hs
    rw [← hs, hsplit]
    refine ⟨?_, trivial⟩
    intro normal s_sentence cut_result e1 hnormal' hutf8 hcut'
    rw [hnormal, Except.ok.injEq] at hnormal'
    rw [← hnormal', wstring2utf8string_units, Except.ok.injEq] at hutf8
    rw [← hutf8, hcut] at hcut'
    cases hcut'
    exact ⟨(tokenKeys_word cs rfl hlone.spoken rfl).mpr hkeys, trivial⟩

/-- 二个月 as `word2phone_fs2.dict.txt` has it. -/
def monthsPairs : List (CString × CString) :=
  [([], str "er4"), (str "g", str "e5"), ([], str "ve4")]

def runEngine : FrontEngineInterface :=
  zhEngine [(str "二个月", str "er4 g e5 ve4"), (str "整个儿", str "zh eng3 g e5 er2")]

theorem ModifyTone_months :
    ModifyTone (rehearsal (str "false") []) (str "二个月") (str "x")
      (monthsPairs.map Prod.snd) = Except.ok ([str "er4", str "e5", str "ve5"]) := by
  refine (ModifyTone_unlisted ['二', '个', '月'] (by decide)
    (not_neural_ends "个月" (by decide)) (by decide) _).trans ?_
  decide +kernel

theorem inInt_phone_id_map (k : CString) : InInt (atoi (phone_id_map_zh_en.peek k)) := by
  have hsize : forall i, i < phoneNames.length -> InInt (atoi (natDigits i)) := by
    decide +kernel
  unfold StdMap.peek
  cases hfind : phone_id_map_zh_en.find k with
  | none =>
      decide
  | some v =>
      have hmem := (StdMap.mem_of_find_insertAll hfind).resolve_right (by simp)
      rcases List.mem_map.mp hmem with ⟨n, hn, heq⟩
      rw [Option.getD_some, ← show natDigits n.2 = v from congrArg Prod.snd heq]
      have hlt := List.snd_lt_of_mem_zipIdx hn
      rw [Nat.add_zero] at hlt
      exact hsize n.2 hlt

theorem loneWord_months : LoneWord (rehearsal (str "false") []) ['二', '个', '月'] := by
  constructor <;> decide +kernel

theorem loneWord_whole : LoneWord (rehearsal (str "false") []) ['整', '个', '儿'] := by
  constructor <;> decide +kernel

/-- In both calls of the run a tone changes, and in the second one 儿 is folded. -/
theorem getAllPhoneIds_keys_iff_words :
    exists codess n', getAllPhoneIds (rehearsal (str "false") []) StdMap.empty
        [['二', '个', '月'], ['整', '个', '儿']] ⟨runEngine, construct⟩ =
        (Except.ok codess, n') ∧ codess.length = 2 ∧
      Served (rehearsal (str "false") []) ⟨runEngine, construct⟩ n' codess := by
  have hmode : (rehearsal (str "false") [])._seperate_tone ≠ str "true" := by
    decide
  have hmonths : runEngine.word_phone_map.find (str "二个月") = some (str "er4 g e5 ve4") := by
    decide +kernel
  have hwhole : runEngine.word_phone_map.find (str "整个儿") =
      some (str "zh eng3 g e5 er2") := by
    decide +kernel
  have hreads : Reads (str "er4 g e5 ve4") monthsPairs := by
    have hsplit : Stringsplit (str "er4 g e5 ve4") 32 = ["er4", "g", "e5", "ve4"].map str := by
      decide
    unfold Reads
    rw [hsplit]
    exact Splits.final (by decide) (by decide)
      (Splits.initial (by decide) (by decide) (by decide)
        (Splits.final (by decide) (by decide) Splits.nil))
  have hplain : MergeErhua [[], str "g", []] [str "er4", str "e5", str "ve5"]
      (str "二个月") (str "x") =
        Except.ok ([[], str "g", []], [str "er4", str "e5", str "ve5"]) := by
    decide +kernel
  have hfolded : MergeErhua [str "zh", str "g", []] ([str "eng3"] ++ [str "e5"] ++ [str "er5"])
      (str "整个儿") (str "x") = Except.ok ([str "zh", str "g"], [str "eng3", str "er5"]) := by
    decide +kernel
  rcases loneWord_months.call (n := ⟨runEngine, construct⟩) Reachable.construct hmonths hreads
    (wordPhones_of_merge (r := initialsAndFinals monthsPairs) ModifyTone_months hplain rfl)
    hmode with ⟨codes1, n1, hcall1, hn1, hwords1, hnames1⟩
  have hwhole1 : n1.engine.word_phone_map.find (str "整个儿") =
      some (str "zh eng3 g e5 er2") := by
    rw [hwords1]
    exact hwhole
  rcases loneWord_whole.call hn1 hwhole1 reads_whole
    (wordPhones_of_merge (r := initialsAndFinals wholePairs) (ModifyTone_whole _) hfolded rfl)
    hmode with ⟨codes2, n2, hcall2, -, -, hnames2⟩
  have hnone : getAllPhoneIds (rehearsal (str "false") []) StdMap.empty [] n2 =
      (Except.ok [], n2) := rfl
  have hrun := getAllPhoneIds_cons_ok hcall1 (getAllPhoneIds_cons_ok hcall2 hnone)
  have hphones : runEngine.phone_id_map = phone_id_map_zh_en := by
    simp only [runEngine, zhEngine]
  have hkeys := getAllPhoneIds_keys_iff _ _ _ ⟨runEngine, construct⟩ n2 _
    (hphones.symm ▸ inInt_phone_id_map) hrun
  refine ⟨_, n2, hrun, hkeys.1, hkeys.2.mpr ?_⟩
  rw [hphones, textsKeys_cons hcall1]
  refine ⟨hnames1 _ ?_, hnames2 _ ?_⟩
  · have hsplits : Splits (entryTokens (rehearsal (str "false") []) runEngine
        (Utf8.encodeChars ['二', '个', '月'])) monthsPairs := by
      have htokens := entryTokens_of_find (rehearsal (str "false") []) hmonths
      exact htokens ▸ hreads
    have hends : ¬ FoldsEr ['二', '个', '月'] (str "x") [str "er4", str "e5", str "ve5"] := by
      rintro ⟨-, -, er, -, hcloses⟩
      exact absurd hcloses.ends_in_er (by decide)
    refine (wordKeys_plain hsplits ModifyTone_months hends).mpr ?_
    exact keyed_zh ["", "g", ""] ["er4", "e5", "ve5"] (by decide +kernel) (by decide +kernel)
  · have hsplits : Splits (entryTokens (rehearsal (str "false") []) n1.engine
        (Utf8.encodeChars ['整', '个', '儿'])) wholePairs := by
      have htokens := entryTokens_of_find (rehearsal (str "false") []) hwhole1
      exact htokens ▸ reads_whole
    refine (wordKeys_folded hsplits (ModifyTone_whole _) foldsEr_whole).mpr ?_
    exact keyed_zh ["zh", "g"] ["eng3", "er5"] (by decide +kernel) (by decide +kernel)

end CalcMac

end VoiceTts
