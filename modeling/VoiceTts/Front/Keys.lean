import VoiceTts.Front.Erhua
import VoiceTts.Front.PhoneTable

/-!
# Names that are keys

Changes of tone and r-colouring make new names, and the names of a Latin word are sorted
out with another list than `phone_id_map`.  This module says for one call of `GetWordsIds`
which names have to be keys: those of the pauses, of the Latin phones that are listed, and
of the syllables of each Chinese word with the tones that the word gives them.
-/

namespace VoiceTts
namespace FrontEngineInterface

/-!
## The names of a call
-/

/-- A word of the dictionary that is no punctuation. -/
def Spoken (word : CString) : Prop :=
  word ∉ _punc_omit ∧ word ∉ _punc ∧ word ≠ str " "

instance (word : CString) : Decidable (Spoken word) :=
  inferInstanceAs (Decidable (_ ∧ _ ∧ _))

/-- The tokens that the dictionary has for a word, or for its pieces. -/
def entryTokens (st : Setup) (e : FrontEngineInterface) (word : CString) : List CString :=
  tokensOf ((pieces st e word).map e.word_phone_map.peek)

/-- The names of some syllables; an initial may be missing. -/
structure Keyed (K : CString -> Prop) (initials finals : List CString) : Prop where
  initials : forall i, i ∈ initials -> i ≠ [] -> K i
  finals : forall f, f ∈ finals -> K f

/--
The names of a Chinese word, with the tones that it gives to its finals.  Where 儿 is
folded, a coloured final stands for the last two.
-/
structure WordKeys (K : CString -> Prop) (st : Setup) (e : FrontEngineInterface)
    (cs : List Char) : Prop where
  plain : forall pairs finals, Splits (entryTokens st e (Utf8.encodeChars cs)) pairs ->
    ModifyTone st (Utf8.encodeChars cs) (str "x") (pairs.map Prod.snd) = Except.ok finals ->
    ¬ FoldsEr cs (str "x") finals -> Keyed K (pairs.map Prod.fst) finals
  folded : forall pairs finals final er,
    Splits (entryTokens st e (Utf8.encodeChars cs)) pairs ->
    ModifyTone st (Utf8.encodeChars cs) (str "x") (pairs.map Prod.snd) =
      Except.ok (finals ++ [final] ++ [er]) ->
    FoldsEr cs (str "x") (finals ++ [final] ++ [er]) ->
    Keyed K (pairs.map Prod.fst).dropLast (finals ++ [coloured final])

/-- With separate tones an empty name stops the call. -/
def Speakable (st : Setup) (phone : CString) : Prop :=
  st._seperate_tone = str "true" -> [] ∉ Stringsplit phone 32

structure TokenKeys (K : CString -> Prop) (st : Setup) (e : FrontEngineInterface)
    (t : CString × CString) : Prop where
  pause : t.2 = str "x" -> t.1 ∉ _punc_omit -> t.1 ∈ _punc -> K (pausePhone st)
  word : forall cs, t.2 = str "x" -> Spoken t.1 -> t.1 = Utf8.encodeChars cs ->
    WordKeys K st e cs
  latin : t.2 ≠ str "x" -> t.1 ≠ str " " ->
    forall phone, phone ∈ latinNames st e (ToLower t.1) ->
      e.orderdict_map.peek phone ≠ [] -> Speakable st phone ->
      forall name, name ∈ Stringsplit phone 32 -> K name

/-- The engine after the words of a token were looked up. -/
def after (st : Setup) (e : FrontEngineInterface) (t : CString × CString) :
    FrontEngineInterface :=
  { e with word_phone_map :=
      e.word_phone_map.touchAll ((tokenLookups t).flatMap (pieces st e)) }

/-- What the tokens of a call have to find among the keys, one after the other. -/
def CallKeys (K : CString -> Prop) (st : Setup) : Seg -> FrontEngineInterface -> Prop
  | [], _ => True
  | t :: cut_result, e => TokenKeys K st e t ∧ CallKeys K st cut_result (after st e t)

/--
The ids of a call are those of keys of the table that was loaded, and the call finds there
every name that it looks up.
-/
structure FromKeys (st : Setup) (loaded : StdMap CString CString) (cut_result : Seg)
    (e : FrontEngineInterface) (ids : List Int) : Prop where
  ids : exists phones : List CString,
    (forall p, p ∈ phones -> Key st._seperate_tone loaded p) ∧
    ids = phones.map fun p => atoi (loaded.peek (keyOf st._seperate_tone p))
  table : (GetWordsIds st cut_result { e with phone_id_map := loaded }).2.phone_id_map = loaded

/-!
## Names of a word
-/

theorem Splits.tokens {phone_vec : List CString} {pairs : List (CString × CString)}
    (h : Splits phone_vec pairs) {p : CString × CString} (hp : p ∈ pairs) :
    (p.1 = [] ∨ p.1 ∈ phone_vec) ∧ p.2 ∈ phone_vec ∧ (p.1 = [] -> p.2 ≠ []) := by
  induction h with
  | nil =>
      cases hp
  | pause _ _ ih =>
      rcases ih hp with ⟨hfirst, hsecond, hne⟩
      exact ⟨hfirst.imp_right (List.mem_cons_of_mem _), List.mem_cons_of_mem _ hsecond, hne⟩
  | initial hinitial _ _ _ ih =>
      rcases List.mem_cons.mp hp with rfl | hp
      · exact ⟨Or.inr (by simp), by simp, fun hnil => absurd hnil hinitial⟩
      · rcases ih hp with ⟨hfirst, hsecond, hne⟩
        exact ⟨hfirst.imp_right fun hmem => by simp [hmem], by simp [hsecond], hne⟩
  | final _ htoned _ ih =>
      rcases List.mem_cons.mp hp with rfl | hp
      · refine ⟨Or.inl rfl, by simp, ?_⟩
        rintro - rfl
        exact absurd htoned (by decide)
      · rcases ih hp with ⟨hfirst, hsecond, hne⟩
        exact ⟨hfirst.imp_right (List.mem_cons_of_mem _), List.mem_cons_of_mem _ hsecond, hne⟩

/-- A change of tone brings no blank into a final and makes none empty. -/
theorem ModifyTone_mem {st : Setup} {word pos : CString} {finals result : List CString}
    (h : ModifyTone st word pos finals = Except.ok result) {f : CString} (hf : f ∈ result) :
    ((forall o, o ∈ finals -> 32 ∉ o) -> 32 ∉ f) ∧
      ((forall o, o ∈ finals -> o ≠ []) -> f ≠ []) := by
  rcases ModifyTone_painted h with ⟨tones, hpainted⟩
  rcases hpainted.mem_final hf with ⟨o, ho, rfl | ⟨t, ht, rfl⟩⟩
  · exact ⟨fun hblank => hblank f ho, fun hne => hne f ho⟩
  · constructor
    · intro hblank hmem
      rcases List.mem_append.mp hmem with hstem | htone
      · exact hblank o ho (List.mem_of_mem_dropLast hstem)
      · rw [List.mem_singleton] at htone
        rw [← htone] at ht
        exact absurd ht (by decide)
    · intro _
      simp

theorem ModifyTone_length {st : Setup} {word pos : CString} {finals result : List CString}
    (h : ModifyTone st word pos finals = Except.ok result) : result.length = finals.length := by
  rcases ModifyTone_painted h with ⟨tones, hpainted⟩
  exact hpainted.before_length_eq

theorem forall_pairTokens_iff (K : CString -> Prop) (ps : List (CString × CString)) :
    (forall name, name ∈ ps.flatMap pairTokens -> K name) ↔
      Keyed K (ps.map Prod.fst) (ps.map Prod.snd) := by
  constructor
  · intro h
    constructor
    · intro i hi hne
      rcases List.mem_map.mp hi with ⟨p, hp, rfl⟩
      refine h p.1 (List.mem_flatMap.mpr ⟨p, hp, ?_⟩)
      rw [pairTokens, if_neg hne]
      exact List.mem_cons_self
    · intro f hf
      rcases List.mem_map.mp hf with ⟨p, hp, rfl⟩
      refine h p.2 (List.mem_flatMap.mpr ⟨p, hp, ?_⟩)
      unfold pairTokens
      split
      · exact List.mem_singleton_self _
      · simp
  · intro h name hname
    rcases List.mem_flatMap.mp hname with ⟨p, hp, hmem⟩
    unfold pairTokens at hmem
    split at hmem
    · rw [List.mem_singleton] at hmem
      rw [hmem]
      exact h.finals p.2 (List.mem_map_of_mem hp)
    · rename_i hne
      rcases List.mem_pair.mp hmem with rfl | rfl
      · exact h.initials p.1 (List.mem_map_of_mem hp) hne
      · exact h.finals p.2 (List.mem_map_of_mem hp)

theorem pairTokens_of_lone {ps : List (CString × CString)}
    (h : ps.flatMap pairTokens = [[]]) : ps = [([], [])] := by
  cases ps with
  | nil =>
      cases h
  | cons p ps =>
      have hrest : ps.flatMap pairTokens = [] := by
        have hlen := congrArg List.length h
        have hfirst := List.length_pos_iff.mpr (pairTokens_ne_nil p)
        rw [List.flatMap_cons, List.length_append, List.length_singleton] at hlen
        exact List.length_eq_zero_iff.mp (by omega)
      have hnone : ps = [] := by
        rw [List.flatMap_eq_nil_iff] at hrest
        refine List.eq_nil_iff_forall_not_mem.mpr fun q hq => ?_
        exact pairTokens_ne_nil q (hrest q hq)
      rw [List.flatMap_cons, hrest, List.append_nil] at h
      unfold pairTokens at h
      split at h
      · rename_i hnil
        rw [hnone, List.singleton_inj]
        exact Prod.ext hnil (List.singleton_inj.mp h)
      · exact absurd (congrArg List.length h) (by simp)

theorem Stringsplit_assemble_iff {is fs : List CString} (hlen : is.length = fs.length)
    (his : forall i, i ∈ is -> 32 ∉ i) (hfs : forall f, f ∈ fs -> 32 ∉ f)
    (hlone : is = [[]] -> fs ≠ [[]]) (K : CString -> Prop) :
    (forall name, name ∈ Stringsplit (assemble is fs) 32 -> K name) ↔ Keyed K is fs := by
  have hfst : (List.zip is fs).map Prod.fst = is := List.map_fst_zip hlen.le
  have hsnd : (List.zip is fs).map Prod.snd = fs := List.map_snd_zip hlen.ge
  have hsplit : Stringsplit (assemble is fs) 32 = (List.zip is fs).flatMap pairTokens := by
    rw [assemble_eq]
    refine Stringsplit_intercalate ?_ ?_
    · intro hnil
      have hpair := pairTokens_of_lone hnil
      rw [hpair] at hfst hsnd
      exact hlone hfst.symm hsnd.symm
    · intro name hname
      rcases List.mem_flatMap.mp hname with ⟨p, hp, hmem⟩
      rcases List.of_mem_zip hp with ⟨hi, hf⟩
      unfold pairTokens at hmem
      split at hmem
      · rw [List.mem_singleton] at hmem
        rw [hmem]
        exact hfs p.2 hf
      · rcases List.mem_pair.mp hmem with rfl | rfl
        · exact his p.1 hi
        · exact hfs p.2 hf
  rw [hsplit, forall_pairTokens_iff, hfst, hsnd]

theorem wordPhones_names {st : Setup} {cs : List Char} {tokens : List CString}
    {pairs : List (CString × CString)} {phone : CString} (hsplits : Splits tokens pairs)
    (htokens : forall token, token ∈ tokens -> 32 ∉ token)
    (h : wordPhones st (Utf8.encodeChars cs) (str "x") (initialsAndFinals pairs) =
      Except.ok phone) (K : CString -> Prop) :
    exists finals, ModifyTone st (Utf8.encodeChars cs) (str "x") (pairs.map Prod.snd) =
        Except.ok finals ∧
      ((¬ FoldsEr cs (str "x") finals ∧
        ((forall name, name ∈ Stringsplit phone 32 -> K name) ↔
          Keyed K (pairs.map Prod.fst) finals)) ∨
      (FoldsEr cs (str "x") finals ∧ exists fs final er, finals = fs ++ [final] ++ [er] ∧
        ((forall name, name ∈ Stringsplit phone 32 -> K name) ↔
          Keyed K (pairs.map Prod.fst).dropLast (fs ++ [coloured final])))) := by
  rcases except_bind_eq_ok.mp h with ⟨finals, hmodify, h⟩
  rcases except_bind_eq_ok.mp h with ⟨merged, hmerge, h⟩
  refine ⟨finals, hmodify, ?_⟩
  have hsize := ModifyTone_length hmodify
  have hlen : (pairs.map Prod.fst).length = finals.length := by
    rw [hsize]
    simp [initialsAndFinals]
  have hinitials : forall i, i ∈ pairs.map Prod.fst -> 32 ∉ i := by
    intro i hi
    rcases List.mem_map.mp hi with ⟨p, hp, rfl⟩
    rcases (hsplits.tokens hp).1 with hnil | hmem
    · rw [hnil]
      exact List.not_mem_nil
    · exact htokens p.1 hmem
  have hfinals : forall f, f ∈ finals -> 32 ∉ f := by
    intro f hf
    refine (ModifyTone_mem hmodify hf).1 fun o ho => ?_
    rcases List.mem_map.mp ho with ⟨p, hp, rfl⟩
    exact htokens p.2 (hsplits.tokens hp).2.1
  rcases MergeErhua_returns hlen hmerge with ⟨hplain, rfl⟩ |
    ⟨hfolds, fs, final, er, rfl, hfinal, rfl⟩
  · refine Or.inl ⟨hplain, ?_⟩
    rw [if_pos hlen] at h
    cases h
    refine Stringsplit_assemble_iff hlen hinitials hfinals ?_ K
    -- a syllable without an initial has a tone
    intro hlone hnil
    have hmem : [] ∈ finals := by
      rw [hnil]
      exact List.mem_singleton_self _
    refine (ModifyTone_mem hmodify hmem).2 (fun o ho => ?_) rfl
    rcases List.mem_map.mp ho with ⟨p, hp, rfl⟩
    refine (hsplits.tokens hp).2.2 ?_
    have hfirst : p.1 ∈ pairs.map Prod.fst := List.mem_map_of_mem hp
    rw [hlone, List.mem_singleton] at hfirst
    exact hfirst
  · refine Or.inr ⟨hfolds, fs, final, er, rfl, ?_⟩
    split at h
    · rename_i hsame
      cases h
      refine Stringsplit_assemble_iff hsame ?_ ?_ ?_ K
      · intro i hi
        exact hinitials i (List.mem_of_mem_dropLast hi)
      · intro f hf
        rcases List.mem_append.mp hf with hmem | hmem
        · exact hfinals f (by simp [hmem])
        · rw [List.mem_singleton] at hmem
          rw [hmem]
          exact blank_coloured hfinal (hfinals final (by simp))
      · intro _ hnil
        have hmem : coloured final ∈ [[]] := by
          rw [← hnil]
          simp
        rw [List.mem_singleton] at hmem
        simp [coloured] at hmem
    · cases h

/-!
## Names of a token
-/

section Tokens

variable {st : Setup} {e e' : FrontEngineInterface} {K : CString -> Prop}

/-- What the condition on a token reads: the words, the Latin words and the list. -/
structure ReadsAlike (e e' : FrontEngineInterface) : Prop where
  words : e'.word_phone_map = e.word_phone_map
  cmu : forall w, e'.cmu_map.peek w = e.cmu_map.peek w
  order : forall p, e'.orderdict_map.peek p = e.orderdict_map.peek p

theorem ReadsAlike.symm (h : ReadsAlike e e') : ReadsAlike e' e where
  words := h.words.symm
  cmu := fun w => (h.cmu w).symm
  order := fun p => (h.order p).symm

theorem ReadsAlike.pieces (h : ReadsAlike e e') : pieces st e' = pieces st e := by
  unfold FrontEngineInterface.pieces
  rw [h.words]

theorem ReadsAlike.after (h : ReadsAlike e e') (t : CString × CString) :
    ReadsAlike (after st e t) (after st e' t) where
  words := by
    unfold FrontEngineInterface.after
    rw [h.words, h.pieces]
  cmu := h.cmu
  order := h.order

theorem WordKeys.congr (h : ReadsAlike e e') {cs : List Char} (hkeys : WordKeys K st e cs) :
    WordKeys K st e' cs := by
  have htokens : entryTokens st e' (Utf8.encodeChars cs) =
      entryTokens st e (Utf8.encodeChars cs) := by
    unfold entryTokens
    rw [h.pieces, h.words]
  constructor
  · intro pairs finals hsplits
    rw [htokens] at hsplits
    exact hkeys.plain pairs finals hsplits
  · intro pairs finals final er hsplits
    rw [htokens] at hsplits
    exact hkeys.folded pairs finals final er hsplits

theorem TokenKeys.congr (h : ReadsAlike e e') {t : CString × CString}
    (hkeys : TokenKeys K st e t) : TokenKeys K st e' t where
  pause := hkeys.pause
  word := fun cs hx hspoken hcs => (hkeys.word cs hx hspoken hcs).congr h
  latin := by
    intro hx hblank phone hphone hlisted
    have hnames : latinNames st e' (ToLower t.1) = latinNames st e (ToLower t.1) := by
      unfold latinNames
      rw [h.cmu]
    rw [hnames] at hphone
    rw [h.order] at hlisted
    exact hkeys.latin hx hblank phone hphone hlisted

theorem CallKeys.congr (h : ReadsAlike e e') {cut_result : Seg} (hkeys : CallKeys K st cut_result e) :
    CallKeys K st cut_result e' := by
  induction cut_result generalizing e e' with
  | nil =>
      exact trivial
  | cons t cut_result ih =>
      exact ⟨hkeys.1.congr h, ih (h.after t) hkeys.2⟩

theorem callKeys_iff (h : ReadsAlike e e') (cut_result : Seg) :
    CallKeys K st cut_result e ↔ CallKeys K st cut_result e' :=
  ⟨CallKeys.congr h, CallKeys.congr h.symm⟩

/-- The readings of the entry and the changed finals of a word are unique. -/
theorem wordKeys_plain {cs : List Char} {pairs : List (CString × CString)}
    {finals : List CString} (hsplits : Splits (entryTokens st e (Utf8.encodeChars cs)) pairs)
    (hmodify : ModifyTone st (Utf8.encodeChars cs) (str "x") (pairs.map Prod.snd) =
      Except.ok finals) (hplain : ¬ FoldsEr cs (str "x") finals) :
    WordKeys K st e cs ↔ Keyed K (pairs.map Prod.fst) finals := by
  constructor
  · intro hkeys
    exact hkeys.plain pairs finals hsplits hmodify hplain
  · intro hkeyed
    constructor
    · intro pairs' finals' hsplits' hmodify' _
      rw [hsplits'.unique hsplits] at hmodify' ⊢
      rw [hmodify] at hmodify'
      cases hmodify'
      exact hkeyed
    · intro pairs' fs final er hsplits' hmodify' hfolds
      rw [hsplits'.unique hsplits, hmodify] at hmodify'
      cases hmodify'
      exact absurd hfolds hplain

theorem wordKeys_folded {cs : List Char} {pairs : List (CString × CString)}
    {fs : List CString} {final er : CString}
    (hsplits : Splits (entryTokens st e (Utf8.encodeChars cs)) pairs)
    (hmodify : ModifyTone st (Utf8.encodeChars cs) (str "x") (pairs.map Prod.snd) =
      Except.ok (fs ++ [final] ++ [er]))
    (hfolds : FoldsEr cs (str "x") (fs ++ [final] ++ [er])) :
    WordKeys K st e cs ↔ Keyed K (pairs.map Prod.fst).dropLast (fs ++ [coloured final]) := by
  constructor
  · intro hkeys
    exact hkeys.folded pairs fs final er hsplits hmodify hfolds
  · intro hkeyed
    constructor
    · intro pairs' finals' hsplits' hmodify' hplain
      rw [hsplits'.unique hsplits, hmodify] at hmodify'
      cases hmodify'
      exact absurd hfolds hplain
    · intro pairs' fs' final' er' hsplits' hmodify' _
      rw [hsplits'.unique hsplits] at hmodify' ⊢
      rw [hmodify, Except.ok.injEq] at hmodify'
      rcases List.append_inj' hmodify' rfl with ⟨hfront, -⟩
      rcases List.append_inj' hfront rfl with ⟨rfl, hfinal⟩
      rw [← List.singleton_inj.mp hfinal]
      exact hkeyed

section Kinds

variable {t : CString × CString}

theorem tokenKeys_silent (h : (t.2 = str "x" ∧ t.1 ∈ _punc_omit) ∨ t.1 = str " ") :
    TokenKeys K st e t where
  pause := by
    intro _ homit hpunc
    rcases h with h | h
    · exact absurd h.2 homit
    · rw [h] at hpunc
      exact absurd hpunc (by decide)
  word := by
    intro _ _ hspoken
    rcases h with h | h
    · exact absurd h.2 hspoken.1
    · exact absurd h hspoken.2.2
  latin := by
    intro hx hblank
    rcases h with h | h
    · exact absurd h.1 hx
    · exact absurd h hblank

theorem tokenKeys_pause (hx : t.2 = str "x") (homit : t.1 ∉ _punc_omit) (hpunc : t.1 ∈ _punc) :
    TokenKeys K st e t ↔ K (pausePhone st) := by
  constructor
  · intro hkeys
    exact hkeys.pause hx homit hpunc
  · intro hkey
    exact {
      pause := fun _ _ _ => hkey
      word := fun _ _ hspoken => absurd hpunc hspoken.2.1
      latin := fun hnot => absurd hx hnot }

theorem tokenKeys_word (cs : List Char) (hx : t.2 = str "x") (hspoken : Spoken t.1)
    (hcs : t.1 = Utf8.encodeChars cs) : TokenKeys K st e t ↔ WordKeys K st e cs := by
  constructor
  · intro hkeys
    exact hkeys.word cs hx hspoken hcs
  · intro hkeys
    exact {
      pause := fun _ _ hpunc => absurd hpunc hspoken.2.1
      word := by
        intro cs' _ _ hcs'
        rw [← Utf8.encodeChars_injective (hcs.symm.trans hcs')]
        exact hkeys
      latin := fun hnot => absurd hx hnot }

theorem tokenKeys_latin (hx : t.2 ≠ str "x") (hblank : t.1 ≠ str " ") :
    TokenKeys K st e t ↔ forall phone, phone ∈ latinNames st e (ToLower t.1) ->
      e.orderdict_map.peek phone ≠ [] -> Speakable st phone ->
      forall name, name ∈ Stringsplit phone 32 -> K name := by
  constructor
  · intro hkeys
    exact hkeys.latin hx hblank
  · intro hkeys
    exact {
      pause := fun h => absurd h hx
      word := fun _ h => absurd h hx
      latin := fun _ _ => hkeys }

end Kinds

theorem chars_of_ModifyTone {word pos : CString} {finals result : List CString}
    (h : ModifyTone st word pos finals = Except.ok result) :
    exists cs, word = Utf8.encodeChars cs := by
  unfold ModifyTone at h
  rcases except_bind_eq_ok.mp h with ⟨finals', hbu, -⟩
  rcases except_bind_eq_ok.mp hbu with ⟨wordvec, hvec, -⟩
  rcases except_bind_eq_ok.mp hvec with ⟨word_wstr, hwide, -⟩
  unfold utf8string2wstring at hwide
  split at hwide
  · rename_i w hdecode
    exact Utf8.decode_eq_some hdecode
  · cases hwide

theorem splits_of_GetInitialsFinals {word : CString} {r : List CString × List CString}
    (h : GetInitialsFinals st word e = (Except.ok r, e')) :
    exists pairs, Splits (entryTokens st e word) pairs ∧ r = initialsAndFinals pairs := by
  have hresult : (GetInitialsFinals st word e).1 = Except.ok r := congrArg Prod.fst h
  have hne : pieces st e word ≠ [] := by
    intro hnil
    unfold GetInitialsFinals at hresult
    rw [Prog.bind_of_error (GetPhone_no_pieces hnil)] at hresult
    cases hresult
  rw [GetInitialsFinals_result st word e hne] at hresult
  exact splits_of_initialsFinals hresult

theorem idsOfWord_names {word : CString} {r : List Int × List Int}
    (h : idsOfWord st word (str "x") e = (Except.ok r, e')) :
    exists cs phones, word = Utf8.encodeChars cs ∧
      Spelled st._seperate_tone phones (pieces st e word) r.1 e e' ∧
        forall K : CString -> Prop, (forall p, p ∈ phones -> K p) ↔ WordKeys K st e cs := by
  rcases Prog.bind_eq_ok h with ⟨initials_finals, e1, hinitials, hrest⟩
  rcases Prog.bind_eq_ok hrest with ⟨phone, e2, hphone, hids⟩
  rcases splits_of_GetInitialsFinals hinitials with ⟨pairs, hsplits, rfl⟩
  rcases Prod.mk.inj hphone with ⟨hword, rfl⟩
  rcases except_bind_eq_ok.mp hword with ⟨finals, hmodify, -⟩
  rcases chars_of_ModifyTone hmodify with ⟨cs, rfl⟩
  have hlooked := (GetInitialsFinals_spelled st._seperate_tone hinitials).append
    (idsOfPhones_spelled hids).1
  rw [List.append_nil] at hlooked
  refine ⟨cs, _, rfl, hlooked, ?_⟩
  intro K
  have htokens : forall token, token ∈ entryTokens st e (Utf8.encodeChars cs) ->
      32 ∉ token := fun token htoken => notMem_of_mem_Stringsplit htoken
  rcases wordPhones_names hsplits htokens hword K with ⟨finals, hmodify,
    ⟨hplain, hnames⟩ | ⟨hfolds, fs, final, er, rfl, hnames⟩⟩
  · exact hnames.trans (wordKeys_plain hsplits hmodify hplain).symm
  · exact hnames.trans (wordKeys_folded hsplits hmodify hfolds).symm

theorem idsOfLatinPhone_names {phone : CString} {r : List Int × List Int}
    (h : idsOfLatinPhone st phone e = (Except.ok r, e')) :
    exists phones, Spelled st._seperate_tone phones [] r.1 e e' ∧
      forall K : CString -> Prop, (forall p, p ∈ phones -> K p) ↔
        (e.orderdict_map.peek phone ≠ [] -> Speakable st phone ->
          forall name, name ∈ Stringsplit phone 32 -> K name) := by
  rcases Prog.bind_eq_ok h with ⟨entry, e1, hentry, hids⟩
  have hpeek : entry = e.orderdict_map.peek phone := by
    cases hentry
    rfl
  have hlooked := orderEntry_spelled st._seperate_tone phone e
  rw [hentry] at hlooked
  rw [← hpeek]
  split at hids
  · rename_i hlisted
    rcases idsOfPhones_spelled hids with ⟨hspelled, hspeakable⟩
    refine ⟨_, hlooked.append hspelled, ?_⟩
    intro K
    exact ⟨fun hall _ _ => hall, fun hall => hall hlisted hspeakable⟩
  · rename_i hunlisted
    cases hids
    refine ⟨[], hlooked, ?_⟩
    intro K
    exact iff_of_true (fun _ hp => absurd hp List.not_mem_nil)
      fun hlisted => absurd hlisted hunlisted

theorem idsOfLatinPhones_names {word_final : List CString} {r : List Int × List Int}
    (h : idsOfLatinPhones st word_final e = (Except.ok r, e')) :
    exists phones, Spelled st._seperate_tone phones [] r.1 e e' ∧
      forall K : CString -> Prop, (forall p, p ∈ phones -> K p) ↔
        forall phone, phone ∈ word_final -> e.orderdict_map.peek phone ≠ [] ->
          Speakable st phone -> forall name, name ∈ Stringsplit phone 32 -> K name := by
  induction word_final generalizing e r with
  | nil =>
      cases h
      refine ⟨[], Spelled.refl _ _, ?_⟩
      intro K
      exact iff_of_true (fun _ hp => absurd hp List.not_mem_nil)
        fun _ hp => absurd hp List.not_mem_nil
  | cons phone word_final ih =>
      rcases Prog.bind_eq_ok h with ⟨r1, e1, h1, hrest⟩
      rcases Prog.bind_eq_ok hrest with ⟨r2, e2, h2, hpure⟩
      cases hpure
      rcases idsOfLatinPhone_names h1 with ⟨phones, hspelled, hnames⟩
      rcases ih h2 with ⟨phones', hspelled', hnames'⟩
      refine ⟨_, hspelled.append hspelled', ?_⟩
      intro K
      rw [List.forall_mem_append, hnames, hnames', List.forall_mem_cons]
      simp only [hspelled.order]

theorem Stringsplit_pausePhone (st : Setup) :
    Stringsplit (pausePhone st) 32 = [pausePhone st] := by
  unfold pausePhone
  split
  · decide
  · decide

theorem idsOfToken_names {t : CString × CString} {r : List Int × List Int}
    (h : idsOfToken st t e = (Except.ok r, e')) :
    exists phones,
      Spelled st._seperate_tone phones ((tokenLookups t).flatMap (pieces st e)) r.1 e e' ∧
        forall K : CString -> Prop, (forall p, p ∈ phones -> K p) ↔ TokenKeys K st e t := by
  unfold idsOfToken at h
  unfold tokenLookups
  by_cases hword : t.2 = str "x" ∧ t.1 ≠ str " "
  · rw [if_pos hword] at h
    by_cases homit : t.1 ∈ _punc_omit
    · rw [if_pos homit] at h
      rw [if_neg fun hall => hall.2.2.1 homit]
      cases h
      refine ⟨[], Spelled.refl _ _, fun K => ?_⟩
      exact iff_of_true (fun _ hp => absurd hp List.not_mem_nil)
        (tokenKeys_silent (Or.inl ⟨hword.1, homit⟩))
    · rw [if_neg homit] at h
      by_cases hpunc : t.1 ∈ _punc
      · rw [if_pos hpunc] at h
        rw [if_neg fun hall => hall.2.2.2 hpunc]
        refine ⟨_, (idsOfPhones_spelled h).1, fun K => ?_⟩
        rw [Stringsplit_pausePhone, List.forall_mem_singleton,
          tokenKeys_pause hword.1 homit hpunc]
      · rw [if_neg hpunc, hword.1] at h
        rw [if_pos ⟨hword.1, hword.2, homit, hpunc⟩, List.flatMap_singleton]
        rcases idsOfWord_names h with ⟨cs, phones, hcs, hspelled, hnames⟩
        refine ⟨phones, hspelled, fun K => ?_⟩
        rw [hnames, tokenKeys_word cs hword.1 ⟨homit, hpunc, hword.2⟩ hcs]
  · rw [if_neg hword] at h
    rw [if_neg fun hall => hword ⟨hall.1, hall.2.1⟩]
    by_cases hblank : t.1 = str " "
    · rw [if_neg (not_not.mpr hblank)] at h
      cases h
      refine ⟨[], Spelled.refl _ _, fun K => ?_⟩
      exact iff_of_true (fun _ hp => absurd hp List.not_mem_nil)
        (tokenKeys_silent (Or.inr hblank))
    · rw [if_pos hblank] at h
      rcases Prog.bind_eq_ok h with ⟨word_final, e1, hphones, hids⟩
      rcases latinPhones_spelled st._seperate_tone hphones with ⟨hquiet, rfl⟩
      rcases idsOfLatinPhones_names hids with ⟨phones, hspelled, hnames⟩
      refine ⟨phones, hquiet.append hspelled, fun K => ?_⟩
      rw [hnames, tokenKeys_latin (fun hx => hword ⟨hx, hblank⟩) hblank]
      simp only [hquiet.order]

theorem GetWordsIds_names {cut_result : Seg} {r : List Int × List Int}
    (h : GetWordsIds st cut_result e = (Except.ok r, e')) :
    exists phones heard, Spelled st._seperate_tone phones heard r.1 e e' ∧
      forall K : CString -> Prop,
        (forall p, p ∈ phones -> K p) ↔ CallKeys K st cut_result e := by
  induction cut_result generalizing e r with
  | nil =>
      cases h
      refine ⟨[], [], Spelled.refl _ _, fun K => ?_⟩
      exact iff_of_true (fun _ hp => absurd hp List.not_mem_nil) trivial
  | cons t cut_result ih =>
      rcases Prog.bind_eq_ok h with ⟨r1, e1, h1, hrest⟩
      rcases Prog.bind_eq_ok hrest with ⟨r2, e2, h2, hpure⟩
      cases hpure
      rcases idsOfToken_names h1 with ⟨phones, hspelled, hnames⟩
      rcases ih h2 with ⟨phones', heard, hspelled', hnames'⟩
      refine ⟨_, _, hspelled.append hspelled', fun K => ?_⟩
      have halike : ReadsAlike (after st e t) e1 :=
        ⟨hspelled.words, hspelled.cmu, hspelled.order⟩
      rw [List.forall_mem_append, hnames, hnames', ← callKeys_iff halike]
      exact Iff.rfl

end Tokens

/-!
## Words whose changed names are all keys
-/

/--
It is enough for a word that its finals are keys with every tone that the changes write,
and coloured as well if the word ends in 儿.
-/
theorem wordKeys_of_changes {st : Setup} {e : FrontEngineInterface} {K : CString -> Prop}
    {cs : List Char}
    (h : forall pairs, Splits (entryTokens st e (Utf8.encodeChars cs)) pairs ->
      forall p, p ∈ pairs -> (p.1 ≠ [] -> K p.1) ∧ K p.2 ∧
        (forall t, t ∈ newTones -> K (withTone p.2 t)) ∧
        (cs.getLast? = some '儿' -> K (coloured p.2) ∧
          forall t, t ∈ erTones -> K (coloured (withTone p.2 t)))) :
    WordKeys K st e cs := by
  have hfinal : forall pairs finals, Splits (entryTokens st e (Utf8.encodeChars cs)) pairs ->
      ModifyTone st (Utf8.encodeChars cs) (str "x") (pairs.map Prod.snd) = Except.ok finals ->
      forall f, f ∈ finals -> K f := by
    intro pairs finals hsplits hmodify f hf
    rcases ModifyTone_painted hmodify with ⟨tones, hpainted⟩
    rcases hpainted.mem_final hf with ⟨o, ho, hchanged⟩
    rcases List.mem_map.mp ho with ⟨p, hp, rfl⟩
    have hnames := h pairs hsplits p hp
    rcases hchanged with rfl | ⟨t, ht, rfl⟩
    · exact hnames.2.1
    · exact hnames.2.2.1 t ht
  constructor
  · intro pairs finals hsplits hmodify _
    refine ⟨?_, hfinal pairs finals hsplits hmodify⟩
    intro i hi
    rcases List.mem_map.mp hi with ⟨p, hp, rfl⟩
    exact (h pairs hsplits p hp).1
  · intro pairs fs final er hsplits hmodify hfolds
    have hend : cs.getLast? = some '儿' := by
      rcases hfolds.closes with ⟨er', -, hcloses⟩
      exact hcloses.ends_in_er
    have hlast : (Utf8.units cs).getLast? = some 20799 := by
      unfold Utf8.units
      rw [List.getLast?_map, hend]
      rfl
    constructor
    · intro i hi
      rcases List.mem_map.mp (List.mem_of_mem_dropLast hi) with ⟨p, hp, rfl⟩
      exact (h pairs hsplits p hp).1
    · intro f hf
      rcases List.mem_append.mp hf with hmem | hmem
      · exact hfinal pairs _ hsplits hmodify f (by simp [hmem])
      · rw [List.mem_singleton] at hmem
        rw [hmem]
        rcases ModifyTone_painted_er (utf8string2wstring_encodeChars cs) hlast hmodify with
          ⟨tones, hpainted⟩
        rcases hpainted.mem_final (f := final) (by simp) with ⟨o, ho, hchanged⟩
        rcases List.mem_map.mp ho with ⟨p, hp, rfl⟩
        have hcoloured := (h pairs hsplits p hp).2.2.2 hend
        rcases hchanged with rfl | ⟨t, ht, rfl⟩
        · exact hcoloured.1
        · exact hcoloured.2 t ht

/-!
## Calls that return
-/

theorem idsOfPhones_ok {st : Setup} (phones : List CString)
    (h : st._seperate_tone = str "true" -> [] ∉ phones) (e : FrontEngineInterface) :
    exists r e', idsOfPhones st phones e = (Except.ok r, e') := by
  induction phones generalizing e with
  | nil =>
      exact ⟨_, _, rfl⟩
  | cons phone phones ih =>
      have hphone : exists r e1, idsOfPhone st phone e = (Except.ok r, e1) := by
        unfold idsOfPhone
        by_cases hmode : st._seperate_tone = str "true"
        · rw [if_pos hmode]
          cases hlast : phone.getLast? with
          | none =>
              rw [List.getLast?_eq_none_iff] at hlast
              exact absurd (by rw [hlast]; exact List.mem_cons_self) (h hmode)
          | some c =>
              exact ⟨_, _, rfl⟩
        · rw [if_neg hmode]
          exact ⟨_, _, rfl⟩
      rcases hphone with ⟨r, e1, hrun⟩
      rcases ih (fun hmode hmem => h hmode (List.mem_cons_of_mem _ hmem)) e1 with
        ⟨rs, e2, hrest⟩
      refine ⟨(r.1 ++ rs.1, r.2 ++ rs.2), e2, ?_⟩
      rw [idsOfPhones, Prog.bind_of_ok hrun, Prog.bind_of_ok hrest]
      rfl

theorem GetWordsIds_cons_ok {st : Setup} {t : CString × CString} {cut_result : Seg}
    {e e1 e2 : FrontEngineInterface} {r rs : List Int × List Int}
    (h : idsOfToken st t e = (Except.ok r, e1))
    (hs : GetWordsIds st cut_result e1 = (Except.ok rs, e2)) :
    GetWordsIds st (t :: cut_result) e = (Except.ok (r.1 ++ rs.1, r.2 ++ rs.2), e2) := by
  rw [GetWordsIds, Prog.bind_of_ok h, Prog.bind_of_ok hs]
  rfl

theorem entryTokens_of_find (st : Setup) {e : FrontEngineInterface} {word entry : CString}
    (h : e.word_phone_map.find word = some entry) :
    entryTokens st e word = Stringsplit entry 32 := by
  have hcontains : e.word_phone_map.contains word = true := by
    simp [StdMap.contains, h]
  have hpeek : e.word_phone_map.peek word = entry := by
    simp [StdMap.peek, h]
  rw [entryTokens, pieces, if_pos hcontains, List.map_singleton, tokensOf_singleton, hpeek]

theorem GetInitialsFinals_entry {st : Setup} {word entry : CString}
    {pairs : List (CString × CString)} {e : FrontEngineInterface}
    (hentry : e.word_phone_map.find word = some entry) (hreads : Reads entry pairs) :
    GetInitialsFinals st word e = (Except.ok (initialsAndFinals pairs), e) := by
  have hcontains : e.word_phone_map.contains word = true := by
    simp [StdMap.contains, hentry]
  have hpeek : e.word_phone_map.peek word = entry := by
    simp [StdMap.peek, hentry]
  unfold GetInitialsFinals
  rw [Prog.bind_of_ok (GetPhone_of_contains hcontains), hpeek]
  exact Prod.ext (initialsFinals_of_splits hreads) rfl

theorem idsOfToken_entry {st : Setup} {word entry phone : CString}
    {pairs : List (CString × CString)} {e : FrontEngineInterface} (hword : Spoken word)
    (hentry : e.word_phone_map.find word = some entry) (hreads : Reads entry pairs)
    (hphone : wordPhones st word (str "x") (initialsAndFinals pairs) =
      Except.ok phone) :
    idsOfToken st (word, str "x") e = idsOfPhones st (Stringsplit phone 32) e := by
  unfold idsOfToken
  rw [if_pos ⟨rfl, hword.2.2⟩, if_neg hword.1, if_neg hword.2.1]
  unfold idsOfWord
  rw [Prog.bind_of_ok (GetInitialsFinals_entry hentry hreads)]
  change (Prog.lift (wordPhones _ _ _ _) >>= _) e = _
  rw [hphone]
  rfl

theorem wordPhones_of_merge {st : Setup} {word pos : CString}
    {r merged : List CString × List CString} {word_finals : List CString}
    (hmodify : ModifyTone st word pos r.2 = Except.ok word_finals)
    (hmerge : MergeErhua r.1 word_finals word pos = Except.ok merged)
    (hlen : merged.1.length = merged.2.length) :
    wordPhones st word pos r = Except.ok (assemble merged.1 merged.2) := by
  unfold wordPhones
  rw [hmodify]
  change (MergeErhua r.1 word_finals word pos >>= _) = _
  rw [hmerge]
  change (if _ then _ else _) = _
  rw [if_pos hlen]
  rfl

/-!
## The ids of a call
-/

/-- Two engines with the same tables but for the phones, which read alike. -/
structure SameButPhones (e e' : FrontEngineInterface) : Prop where
  words : e.word_phone_map = e'.word_phone_map
  phones : forall k, e.phone_id_map.peek k = e'.phone_id_map.peek k
  tones : forall k, e.tone_id_map.peek k = e'.tone_id_map.peek k
  cmu : forall k, e.cmu_map.peek k = e'.cmu_map.peek k
  order : forall k, e.orderdict_map.peek k = e'.orderdict_map.peek k

theorem respected_sameButPhones : Respected SameButPhones where
  phoneId := fun k _ _ h => ⟨congrArg Except.ok (h.phones k),
    { h with phones := StdMap.peek_touch_congr h.phones k }⟩
  toneId := fun k _ _ h => ⟨congrArg Except.ok (h.tones k),
    { h with tones := StdMap.peek_touch_congr h.tones k }⟩
  cmuEntry := fun k _ _ h => ⟨congrArg Except.ok (h.cmu k),
    { h with cmu := StdMap.peek_touch_congr h.cmu k }⟩
  orderEntry := fun k _ _ h => ⟨congrArg Except.ok (h.order k),
    { h with order := StdMap.peek_touch_congr h.order k }⟩

theorem GetPhone_sameButPhones (st : Setup) (word : CString) :
    Prog.Simulates SameButPhones (GetPhone st word) (GetPhone st word) := by
  have hword : forall w, Prog.Simulates SameButPhones (wordPhone w) (wordPhone w) := by
    intro w e e' h
    refine ⟨?_, ?_⟩
    · change Except.ok (e.word_phone_map.peek w) = Except.ok (e'.word_phone_map.peek w)
      rw [h.words]
    · exact { h with words := congrArg (fun m => m.touch w) h.words }
  have happend : forall wordcut phone, Prog.Simulates SameButPhones
      (appendPhones phone wordcut) (appendPhones phone wordcut) := by
    intro wordcut
    induction wordcut with
    | nil =>
        exact fun phone => Prog.simulates_pure phone
    | cons piece wordcut ih =>
        exact fun phone => (hword piece).bind fun p => ih _
  refine (Prog.simulates_gets fun e e' h => ?_).bind fun known => ?_
  · rw [h.words]
  · split
    · exact hword word
    · cases st._jieba.CutAll word with
      | nil =>
          exact fun _ _ h => ⟨rfl, h⟩
      | cons piece rest =>
          exact (hword piece).bind fun phone => happend rest _

/--
Whatever names earlier calls may have inserted: the ids of a call that returns are those of
keys as they were loaded, exactly when the phone of its pauses, the listed phones of its
Latin words and the changed syllables of its Chinese words are such keys.
-/
theorem GetWordsIds_keys_iff (st : Setup) (loaded : StdMap CString CString)
    (inserted : List CString) (cut_result : Seg) (e e' : FrontEngineInterface)
    (r : List Int × List Int) (he : e.phone_id_map = loaded.touchAll inserted)
    (h : GetWordsIds st cut_result e = (Except.ok r, e')) :
    FromKeys st loaded cut_result e r.1 ↔
      CallKeys (Key st._seperate_tone loaded) st cut_result e := by
  have hsame : SameButPhones e { e with phone_id_map := loaded } :=
    ⟨rfl, fun k => by rw [he, StdMap.peek_touchAll], fun _ => rfl, fun _ => rfl, fun _ => rfl⟩
  have hresult := (GetWordsIds_simulates respected_sameButPhones
    (GetPhone_sameButPhones st) cut_result _ _ hsame).1
  rw [h] at hresult
  have hrun : GetWordsIds st cut_result { e with phone_id_map := loaded } =
      (Except.ok r, (GetWordsIds st cut_result { e with phone_id_map := loaded }).2) :=
    Prod.ext hresult.symm rfl
  rcases GetWordsIds_names hrun with ⟨phones, heard, hspelled, hnames⟩
  have halike : ReadsAlike e { e with phone_id_map := loaded } :=
    ⟨rfl, fun _ => rfl, fun _ => rfl⟩
  rw [callKeys_iff halike, ← hnames, ← hspelled.table_eq_iff]
  constructor
  · intro hfrom
    exact hfrom.table
  · intro htable
    exact ⟨⟨phones, hspelled.table_eq_iff.mp htable, hspelled.ids_eq⟩, htable⟩

/-- The ends of some words, which are not in the table of neutral tones. -/
theorem not_neural_ends : forall s, s ∈ ["个儿", "个月", "兜儿"] ->
    str s ∉ must_neural_tone_words := by
  intro s hs
  unfold must_neural_tone_words
  rw [List.mem_map_of_injective str_injective]
  revert s
  decide +kernel

/-- 整个儿 as `word2phone_fs2.dict.txt` has it. -/
def wholePairs : List (CString × CString) :=
  [(str "zh", str "eng3"), (str "g", str "e5"), ([], str "er2")]

def wholeEngine : FrontEngineInterface :=
  zhEngine [(str "整个儿", str "zh eng3 g e5 er2")]

theorem reads_whole : Reads (str "zh eng3 g e5 er2") wholePairs := by
  have hsplit : Stringsplit (str "zh eng3 g e5 er2") 32 =
      ["zh", "eng3", "g", "e5", "er2"].map str := by
    decide
  unfold Reads
  rw [hsplit]
  exact Splits.initial (by decide) (by decide) (by decide)
    (Splits.initial (by decide) (by decide) (by decide)
      (Splits.final (by decide) (by decide) Splits.nil))

/-- The 个 is counted, so that 儿 loses its tone. -/
theorem ModifyTone_whole (mode : CString) :
    ModifyTone (rehearsal mode []) (str "整个儿") (str "x") (wholePairs.map Prod.snd) =
      Except.ok ([str "eng3"] ++ [str "e5"] ++ [str "er5"]) := by
  refine (ModifyTone_unlisted ['整', '个', '儿'] (by decide)
    (not_neural_ends "个儿" (by decide)) (by decide) _).trans ?_
  decide +kernel

theorem foldsEr_whole : FoldsEr ['整', '个', '儿'] (str "x")
    ([str "eng3"] ++ [str "e5"] ++ [str "er5"]) where
  one_final_each := rfl
  admits := Or.inr (by decide +kernel)
  closes := ⟨str "er5", rfl, by decide, rfl, Or.inr rfl, by decide +kernel⟩

theorem key_zh (name : String) (h : name ∈ phoneNames) :
    Key (str "false") phone_id_map_zh_en (str name) := by
  have hkey : keyOf (str "false") (str name) = str name := if_neg (by decide)
  unfold Key
  rw [hkey, contains_phone_id_map]
  exact decide_eq_true h

theorem keyed_zh (initials finals : List String)
    (hinitials : forall i, i ∈ initials -> i ≠ "" -> i ∈ phoneNames)
    (hfinals : forall f, f ∈ finals -> f ∈ phoneNames) :
    Keyed (Key (str "false") phone_id_map_zh_en) (initials.map str) (finals.map str) := by
  constructor
  · intro i hi hne
    rcases List.mem_map.mp hi with ⟨name, hname, rfl⟩
    refine key_zh name (hinitials name hname ?_)
    rintro rfl
    exact hne (by decide)
  · intro f hf
    rcases List.mem_map.mp hf with ⟨name, hname, rfl⟩
    exact key_zh name (hfinals name hname)

/-- In 整个儿 the final of 儿 loses its tone and colours the one before it. -/
theorem GetWordsIds_keys_iff_whole :
    exists r e', GetWordsIds (rehearsal (str "false") [])
        [(str "整个儿", str "x"), (str "，", str "x")] wholeEngine = (Except.ok r, e') ∧
      FromKeys (rehearsal (str "false") []) phone_id_map_zh_en
        [(str "整个儿", str "x"), (str "，", str "x")] wholeEngine r.1 := by
  have hentry : wholeEngine.word_phone_map.find (str "整个儿") =
      some (str "zh eng3 g e5 er2") := StdMap.find_insert_self _ _ _
  have hspoken : Spoken (str "整个儿") := by
    decide +kernel
  have hmerge : MergeErhua [str "zh", str "g", []] ([str "eng3"] ++ [str "e5"] ++ [str "er5"])
      (str "整个儿") (str "x") = Except.ok ([str "zh", str "g"], [str "eng3", str "er5"]) := by
    decide +kernel
  have hmode : (rehearsal (str "false") [])._seperate_tone ≠ str "true" := by
    decide
  have hword := idsOfToken_entry hspoken hentry reads_whole
    (wordPhones_of_merge (r := initialsAndFinals wholePairs) (ModifyTone_whole (str "false"))
      hmerge rfl)
  rcases idsOfPhones_ok _ (fun h => absurd h hmode) wholeEngine with ⟨r1, e1, hids1⟩
  rcases idsOfPhones_ok _ (fun h => absurd h hmode) e1 with ⟨r2, e2, hids2⟩
  have hpause : idsOfToken (rehearsal (str "false") []) (str "，", str "x") e1 =
      (Except.ok r2, e2) := hids2
  have hnone : GetWordsIds (rehearsal (str "false") []) [] e2 = (Except.ok ([], []), e2) := rfl
  have hrun := GetWordsIds_cons_ok (hword.trans hids1) (GetWordsIds_cons_ok hpause hnone)
  refine ⟨_, _, hrun, ?_⟩
  refine (GetWordsIds_keys_iff _ phone_id_map_zh_en [] _ wholeEngine e2 _
    (phones_zhEngine _) hrun).mpr ?_
  refine ⟨?_, ?_, trivial⟩
  · refine (tokenKeys_word ['整', '个', '儿'] rfl hspoken rfl).mpr ?_
    have hsplits : Splits (entryTokens (rehearsal (str "false") []) wholeEngine
        (Utf8.encodeChars ['整', '个', '儿'])) wholePairs := by
      have htokens := entryTokens_of_find (rehearsal (str "false") []) hentry
      exact htokens ▸ reads_whole
    refine (wordKeys_folded hsplits (ModifyTone_whole _) foldsEr_whole).mpr ?_
    exact keyed_zh ["zh", "g"] ["eng3", "er5"] (by decide +kernel) (by decide +kernel)
  · refine (tokenKeys_pause rfl (by decide +kernel) (by decide +kernel)).mpr ?_
    exact key_zh "sp" (by decide +kernel)

/-- 兜儿 as `word2phone_fs2.dict.txt` has it. -/
def pocketEngine : FrontEngineInterface :=
  zhEngine [(str "兜儿", str "d ou1 er2")]

theorem wordPhones_pocket :
    wordPhones (rehearsal (str "false") []) (str "兜儿") (str "x")
      ([str "d", []], [str "ou1", str "er2"]) =
        Except.ok (assemble [str "d"] [str "our1"]) := by
  have hmodify : ModifyTone (rehearsal (str "false") []) (str "兜儿") (str "x")
      [str "ou1", str "er2"] = Except.ok [str "ou1", str "er2"] := by
    refine (ModifyTone_unlisted ['兜', '儿'] (by decide)
      (not_neural_ends "兜儿" (by decide)) (by decide) _).trans ?_
    decide +kernel
  have hmerge : MergeErhua [str "d", []] [str "ou1", str "er2"] (str "兜儿") (str "x") =
      Except.ok ([str "d"], [str "our1"]) := by
    decide +kernel
  exact wordPhones_of_merge (r := ([str "d", []], [str "ou1", str "er2"]))
    hmodify hmerge rfl

theorem idsOfToken_pocket :
    idsOfToken (rehearsal (str "false") []) (str "兜儿", str "x") pocketEngine =
      idsOfPhones (rehearsal (str "false") []) [str "d", str "our1"] pocketEngine := by
  have hentry : pocketEngine.word_phone_map.find (str "兜儿") =
      some (str "d ou1 er2") := StdMap.find_insert_self _ _ _
  have hreads : Reads (str "d ou1 er2") [(str "d", str "ou1"), ([], str "er2")] := by
    have hsplit : Stringsplit (str "d ou1 er2") 32 = [str "d", str "ou1", str "er2"] := by
      decide
    unfold Reads
    rw [hsplit]
    exact Splits.initial (by decide) (by decide) (by decide)
      (Splits.final (by decide) (by decide) Splits.nil)
  have hsplit : Stringsplit (assemble [str "d"] [str "our1"]) 32 =
      [str "d", str "our1"] := by
    decide
  rw [← hsplit]
  exact idsOfToken_entry (by decide +kernel) hentry hreads wordPhones_pocket

/--
All phones of 兜儿 are keys, but `our1` is none: it gets the id 0, and an entry
that was not there.
-/
theorem coloured_phone_has_no_id :
    (forall p, p ∈ ["d", "ou1", "er2"] ->
      pocketEngine.phone_id_map.contains (str p) = true) ∧
    pocketEngine.phone_id_map.contains (str "our1") = false ∧
    exists r e',
      GetWordsIds (rehearsal (str "false") []) [(str "兜儿", str "x")] pocketEngine =
        (Except.ok r, e') ∧
      r.1 = [atoi (pocketEngine.phone_id_map.peek (str "d")), 0] ∧
      e'.phone_id_map.contains (str "our1") = true := by
  have hknown : forall p, p ∈ ["d", "ou1", "er2"] -> p ∈ phoneNames := by
    decide +kernel
  have hmissing : phone_id_map_zh_en.contains (str "our1") = false := by
    rw [contains_phone_id_map]
    decide +kernel
  have hphones : pocketEngine.phone_id_map = phone_id_map_zh_en := by
    simp only [pocketEngine, zhEngine]
  rw [hphones]
  refine ⟨?_, hmissing, ?_⟩
  · intro p hp
    rw [contains_phone_id_map]
    exact decide_eq_true (hknown p hp)
  · have hmode : (rehearsal (str "false") [])._seperate_tone ≠ str "true" := by
      decide
    rcases idsOfPhones_ok _ (fun h => absurd h hmode) pocketEngine with ⟨r, e', hids⟩
    have hspelled := (idsOfPhones_spelled hids).1
    have hkey : forall p, keyOf (rehearsal (str "false") [])._seperate_tone p = p :=
      fun _ => if_neg hmode
    refine ⟨(r.1 ++ [], r.2 ++ []), e', ?_, ?_, ?_⟩
    · rw [GetWordsIds, Prog.bind_of_ok (idsOfToken_pocket.trans hids)]
      rfl
    · have hpeek : phone_id_map_zh_en.peek (str "our1") = [] :=
        StdMap.peek_of_not_contains hmissing
      have hzero : atoi [] = 0 := by
        decide
      rw [List.append_nil, hspelled.ids_eq, hphones]
      simp only [List.map_cons, List.map_nil, hkey, hpeek, hzero]
    · rw [hspelled.table, StdMap.contains_touchAll]
      simp [hkey]

end FrontEngineInterface
end VoiceTts
