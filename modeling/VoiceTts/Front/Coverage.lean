import VoiceTts.Front.Keys

/-!
# Inventories that are safe

Which tables are safe for every word of a dictionary?  An inventory says which finals a
dictionary may use.  For every name that the changes can make of them there is a word that
makes `GetWordsIds` look it up.  So all calls are safe on all dictionaries of an inventory
exactly when it has all these names, and no inventory with the phones of the repository has.
-/

namespace VoiceTts
namespace FrontEngineInterface

/-!
## Inventories
-/

/--
The tables that decide about the names, and the finals that a dictionary may
use.  儿 and 二 are among its words.
-/
structure Inventory where
  _seperate_tone : CString
  phone_id_map : StdMap CString CString
  orderdict_map : StdMap CString CString
  finals : CString -> Prop
  finals_final : forall f, finals f -> Final f
  er2 : finals (str "er2")
  er4 : finals (str "er4")

namespace Inventory

def Key (I : Inventory) (phone : CString) : Prop :=
  FrontEngineInterface.Key I._seperate_tone I.phone_id_map phone

def pause (I : Inventory) : CString :=
  if I._seperate_tone = str "true" then str "sp0" else str "sp"

/-- A word of the dictionary: its initials are keys and its finals known. -/
def Pronounces (I : Inventory) (phone : CString) : Prop :=
  exists pairs, Reads phone pairs ∧ forall p, p ∈ pairs ->
    (p.1 = [] ∨ I.Key p.1) ∧ I.finals p.2

/-- An engine with the tables of the inventory, at any time between two calls. -/
structure Stocks (I : Inventory) (st : Setup) (e : FrontEngineInterface) : Prop where
  mode : st._seperate_tone = I._seperate_tone
  phones : e.phone_id_map = I.phone_id_map
  order : forall p, e.orderdict_map.peek p = I.orderdict_map.peek p
  words : forall w, I.Pronounces (e.word_phone_map.peek w)

/--
Whatever the words are and however they are cut: when a call returns, the
ids it has appended are the ids of keys, and no lookup has inserted a name.
-/
def Covers (I : Inventory) : Prop :=
  forall st e tokens r e', I.Stocks st e ->
    GetWordsIds st tokens e = (Except.ok r, e') ->
    e'.phone_id_map = I.phone_id_map ∧
      exists phones : List CString, (forall p, p ∈ phones -> I.Key p) ∧
        r.1 = phones.map fun p =>
          atoi (I.phone_id_map.peek (keyOf I._seperate_tone p))

/-- With separate tones an empty name stops the call. -/
def Speakable (I : Inventory) (phone : CString) : Prop :=
  I._seperate_tone = str "true" -> [] ∉ Stringsplit phone 32

/-- Every name that can come up is a key. -/
structure Closed (I : Inventory) : Prop where
  pause : I.Key I.pause
  latin : forall phone, I.orderdict_map.peek phone ≠ [] -> I.Speakable phone ->
    forall token, token ∈ Stringsplit phone 32 -> I.Key token
  plain : forall f, I.finals f -> I.Key f
  toned : forall f, I.finals f -> forall t, t ∈ newTones -> I.Key (withTone f t)
  coloured : forall f, I.finals f -> I.Key (coloured f)
  colouredToned : forall f, I.finals f -> forall t, t ∈ erTones ->
    I.Key (FrontEngineInterface.coloured (withTone f t))

end Inventory

theorem reads_joinTokens {finals : List CString} (h : forall f, f ∈ finals -> Final f) :
    Reads (joinTokens finals) (finals.map fun f => ([], f)) := by
  have hsplit : Stringsplit (joinTokens finals) 32 = finals := by
    refine Stringsplit_intercalate ?_ fun f hf => (h f hf).2
    rintro rfl
    exact (h [] (by simp)).ne_nil rfl
  unfold Reads
  rw [hsplit]
  clear hsplit
  induction finals with
  | nil =>
      exact Splits.nil
  | cons f finals ih =>
      have hf := h f List.mem_cons_self
      refine Splits.final ?_ hf.1 (ih fun g hg => h g (List.mem_cons_of_mem f hg))
      rintro (hpause | hpause)
      · rw [hpause] at hf
        exact absurd hf.1 (by decide)
      · rw [hpause] at hf
        exact absurd hf.1 (by decide)

/-!
## Closed inventories
-/

namespace Inventory

variable {I : Inventory} {st : Setup} {e e' : FrontEngineInterface}

theorem initialsAndFinals_injective : Function.Injective initialsAndFinals := by
  intro ps qs h
  have hzip : forall ps : List (CString × CString),
      List.zip (initialsAndFinals ps).1 (initialsAndFinals ps).2 = ps := by
    intro ps
    rw [initialsAndFinals, List.zip_map']
    exact List.map_id ps
  rw [← hzip ps, h, hzip]

/-- A syllable that the dictionary can have. -/
def Pair (I : Inventory) (p : CString × CString) : Prop :=
  (p.1 = [] ∨ I.Key p.1) ∧ I.finals p.2

theorem Pronounces.pairs {phone : CString} (h : I.Pronounces phone)
    {pairs : List (CString × CString)} (hreads : Reads phone pairs) :
    forall p, p ∈ pairs -> I.Pair p := by
  rcases h with ⟨pairs', hreads', hpairs'⟩
  rw [hreads.unique hreads']
  exact hpairs'

theorem Stocks.pairs (h : I.Stocks st e) {word : CString}
    {pairs : List (CString × CString)} (hsplits : Splits (entryTokens st e word) pairs) :
    forall p, p ∈ pairs -> I.Pair p := by
  by_cases hne : pieces st e word = []
  · have hnil : entryTokens st e word = [] := by
      rw [entryTokens, hne]
      rfl
    rw [hnil] at hsplits
    cases hsplits
    exact fun p hp => absurd hp List.not_mem_nil
  · have hresult : (GetInitialsFinals st word e).1 = Except.ok (initialsAndFinals pairs) := by
      rw [GetInitialsFinals_result st word e hne]
      exact initialsFinals_of_splits hsplits
    have hread : forall p, p ∈ (pieces st e word).map e.word_phone_map.peek -> p ≠ [] ->
        exists pairs, Reads p pairs := by
      intro p hp _
      rcases List.mem_map.mp hp with ⟨piece, -, rfl⟩
      rcases h.words piece with ⟨pairs, hreads, -⟩
      exact ⟨pairs, hreads⟩
    rcases aligned_of_whole (whole_of_ok hread hresult) with ⟨pairss, hreads, haligned⟩
    have hall := Except.ok.inj (hresult.symm.trans haligned)
    rw [initialsAndFinals_injective hall]
    intro p hp
    rcases List.mem_flatten.mp hp with ⟨pairs', hpairs', hmem⟩
    rcases Blocks.exists_of_mem_right hreads hpairs' with ⟨phone, hphone, hread'⟩
    rcases List.mem_map.mp (List.mem_filter.mp hphone).1 with ⟨piece, -, rfl⟩
    exact (h.words piece).pairs hread' p hmem

/-- What is looked up for a token changes nothing that the inventory speaks of. -/
theorem Stocks.after (h : I.Stocks st e) (t : CString × CString) :
    I.Stocks st (after st e t) where
  mode := h.mode
  phones := h.phones
  order := h.order
  words := by
    intro w
    have hpeek : (FrontEngineInterface.after st e t).word_phone_map.peek w =
        e.word_phone_map.peek w := StdMap.peek_touchAll _ _ w
    rw [hpeek]
    exact h.words w

theorem pausePhone_eq (h : I.Stocks st e) : pausePhone st = I.pause := by
  unfold pausePhone pause
  rw [h.mode]

theorem Closed.tokenKeys (hI : I.Closed) (h : I.Stocks st e) (t : CString × CString) :
    TokenKeys I.Key st e t where
  pause := by
    intro _ _ _
    rw [pausePhone_eq h]
    exact hI.pause
  word := by
    intro cs _ _ _
    refine wordKeys_of_changes fun pairs hsplits p hp => ?_
    rcases h.pairs hsplits p hp with ⟨hinitial, hfinal⟩
    refine ⟨fun hne => hinitial.resolve_left hne, hI.plain p.2 hfinal,
      hI.toned p.2 hfinal, fun _ => ?_⟩
    exact ⟨hI.coloured p.2 hfinal, hI.colouredToned p.2 hfinal⟩
  latin := by
    intro _ _ phone _ hlisted hspeakable
    rw [h.order] at hlisted
    refine hI.latin phone hlisted ?_
    unfold Inventory.Speakable
    rw [← h.mode]
    exact hspeakable

theorem Closed.callKeys (hI : I.Closed) (h : I.Stocks st e) (cut_result : Seg) :
    CallKeys I.Key st cut_result e := by
  induction cut_result generalizing e with
  | nil =>
      exact trivial
  | cons t cut_result ih =>
      exact ⟨hI.tokenKeys h t, ih (h.after t)⟩

theorem covers_of_closed (hI : I.Closed) : I.Covers := by
  intro st e tokens r e' h hrun
  have hkeys := hI.callKeys h tokens
  have hsame : { e with phone_id_map := I.phone_id_map } = e := by
    rw [← h.phones]
  have hkey : I.Key = FrontEngineInterface.Key st._seperate_tone I.phone_id_map := by
    rw [h.mode]
    rfl
  rw [hkey] at hkeys
  have hfrom := (GetWordsIds_keys_iff st I.phone_id_map [] tokens e e' r h.phones hrun).mpr hkeys
  have htable := hfrom.table
  rw [hsame, hrun] at htable
  rcases hfrom.ids with ⟨phones, hphones, hids⟩
  rw [h.mode] at hphones hids
  exact ⟨htable, phones, hphones, hids⟩

/-!
## Inventories that are not closed
-/

def engine (I : Inventory) (words : List (CString × CString)) :
    FrontEngineInterface where
  word_phone_map := StdMap.empty.insertAll words
  phone_id_map := I.phone_id_map
  tone_id_map := StdMap.empty
  cmu_map := StdMap.empty
  orderdict_map := I.orderdict_map

theorem stocks_engine (phones : List CString) (word : CString)
    {finals : List CString} (h : forall f, f ∈ finals -> I.finals f) :
    I.Stocks (rehearsal I._seperate_tone phones)
      (I.engine [(word, joinTokens finals)]) where
  mode := rfl
  phones := rfl
  order := fun _ => rfl
  words := by
    intro w
    by_cases hw : w = word
    · refine ⟨finals.map fun f => ([], f), ?_, ?_⟩
      · have hpeek : (I.engine [(word, joinTokens finals)]).word_phone_map.peek w =
            joinTokens finals := by
          rw [hw]
          exact StdMap.peek_insert_self _ _ _
        rw [hpeek]
        exact reads_joinTokens fun f hf => I.finals_final f (h f hf)
      · intro p hp
        rcases List.mem_map.mp hp with ⟨f, hf, rfl⟩
        exact ⟨Or.inl rfl, h f hf⟩
    · refine ⟨[], ?_, fun p hp => absurd hp List.not_mem_nil⟩
      have hpeek : (I.engine [(word, joinTokens finals)]).word_phone_map.peek w = [] :=
        StdMap.peek_insert_of_ne _ _ hw
      rw [hpeek]
      exact reads_nil.mpr rfl

theorem stocks_empty (I : Inventory) (phones : List CString) :
    I.Stocks (rehearsal I._seperate_tone phones) (I.engine [([], [])]) :=
  stocks_engine phones [] fun _ hf => absurd hf List.not_mem_nil

/-- What a call looks up in an engine of the inventory are keys. -/
theorem Covers.keys (hI : I.Covers) {st : Setup} {e e' : FrontEngineInterface}
    (h : I.Stocks st e) {tokens : Seg} {r : List Int × List Int}
    (hrun : GetWordsIds st tokens e = (Except.ok r, e')) {phones heard : List CString}
    {ids : List Int} (hspelled : Spelled I._seperate_tone phones heard ids e e') :
    forall p, p ∈ phones -> I.Key p := by
  have htable := (hI st e tokens r e' h hrun).1
  rw [hspelled.table, h.phones, StdMap.touchAll_eq_self_iff] at htable
  intro p hp
  exact htable _ (List.mem_map_of_mem hp)

theorem Covers.token (hI : I.Covers) {st : Setup} {e : FrontEngineInterface}
    (h : I.Stocks st e) {t : CString × CString} {phones : List CString}
    (hrun : idsOfToken st t e = idsOfPhones st phones e)
    (hne : st._seperate_tone = str "true" -> [] ∉ phones) :
    forall p, p ∈ phones -> I.Key p := by
  rcases idsOfPhones_ok _ hne e with ⟨r, e', hids⟩
  have htokens : GetWordsIds st [t] e = (Except.ok (r.1 ++ [], r.2 ++ []), e') := by
    rw [GetWordsIds, Prog.bind_of_ok (hrun.trans hids)]
    rfl
  have hspelled := (idsOfPhones_spelled hids).1
  rw [h.mode] at hspelled
  exact hI.keys h htokens hspelled

theorem Covers.pause (hI : I.Covers) : I.Key I.pause := by
  have hsplit : Stringsplit I.pause 32 = [I.pause] := by
    unfold Inventory.pause
    split
    · decide
    · decide
  have hrun : idsOfToken (rehearsal I._seperate_tone []) (str "，", str "x")
      (I.engine [([], [])]) =
      idsOfPhones (rehearsal I._seperate_tone []) [I.pause] (I.engine [([], [])]) := by
    rw [← hsplit]
    rfl
  refine hI.token (stocks_empty I []) hrun ?_ I.pause List.mem_cons_self
  intro _ hmem
  rw [List.mem_singleton] at hmem
  unfold Inventory.pause at hmem
  split at hmem
  · exact absurd hmem (by decide)
  · exact absurd hmem (by decide)

theorem idsOfToken_latin {phone : CString} {e e1 : FrontEngineInterface} {mode : CString}
    (hlatin : latinPhones (rehearsal mode [phone]) (str "a") e =
      (Except.ok [phone], e1))
    (hlisted : e1.orderdict_map.peek phone ≠ []) {r : List Int × List Int}
    {e' : FrontEngineInterface}
    (hids : idsOfPhones (rehearsal mode [phone]) (Stringsplit phone 32)
      (orderEntry phone e1).2 = (Except.ok r, e')) :
    idsOfToken (rehearsal mode [phone]) (str "a", str "eng") e =
      (Except.ok (r.1 ++ [], r.2 ++ []), e') := by
  have hphone : idsOfLatinPhone (rehearsal mode [phone]) phone e1 =
      (Except.ok r, e') := by
    have hentry : orderEntry phone e1 =
        (Except.ok (e1.orderdict_map.peek phone), (orderEntry phone e1).2) := rfl
    unfold idsOfLatinPhone
    rw [Prog.bind_of_ok hentry, if_pos hlisted]
    exact hids
  change (latinPhones (rehearsal mode [phone]) (str "a") >>= _) e = _
  rw [Prog.bind_of_ok hlatin, idsOfLatinPhones, Prog.bind_of_ok hphone]
  rfl

theorem Covers.latin (hI : I.Covers) {phone : CString}
    (hlisted : I.orderdict_map.peek phone ≠ []) (hspeakable : I.Speakable phone) :
    forall p, p ∈ Stringsplit phone 32 -> I.Key p := by
  have hlatin : latinPhones (rehearsal I._seperate_tone [phone]) (str "a")
      (I.engine [([], [])]) = (Except.ok [phone],
        (cmuEntry (str "a") (I.engine [([], [])])).2) := rfl
  have hquiet := (latinPhones_spelled I._seperate_tone hlatin).1
  generalize (cmuEntry (str "a") (I.engine [([], [])])).2 = e1 at hlatin hquiet
  have horder := orderEntry_spelled I._seperate_tone phone e1
  have hmode : (rehearsal I._seperate_tone [phone])._seperate_tone = str "true" ->
      [] ∉ Stringsplit phone 32 := hspeakable
  rcases idsOfPhones_ok _ hmode (orderEntry phone e1).2 with ⟨r, e', hids⟩
  have hlisted' : e1.orderdict_map.peek phone ≠ [] := by
    rw [hquiet.order]
    exact hlisted
  have htoken := idsOfToken_latin hlatin hlisted' hids
  have htokens : GetWordsIds (rehearsal I._seperate_tone [phone])
      [(str "a", str "eng")] (I.engine [([], [])]) =
      (Except.ok (r.1 ++ [] ++ [], r.2 ++ [] ++ []), e') := by
    rw [GetWordsIds, Prog.bind_of_ok htoken]
    rfl
  have hspelled := (hquiet.append horder).append (idsOfPhones_spelled hids).1
  exact hI.keys (stocks_empty I [phone]) htokens hspelled

/-!
## Words for the finals
-/

def digits : List UInt8 :=
  [49, 50, 51, 52, 53, 54, 55, 56, 57]

theorem tone_mem_digits {f : CString} (h : Final f) : f.getLastD 0 ∈ digits := by
  rcases h.1 with ⟨c, hlast, hdigit, hzero⟩
  have hc : f.getLastD 0 = c := by
    rw [List.getLastD_eq_getLast?, hlast]
    rfl
  rw [hc]
  rw [isdigit_iff] at hdigit
  have hne : c.toNat ≠ 48 := fun heq => hzero (UInt8.toNat_inj.mp heq)
  have hofNat : c = UInt8.ofNat c.toNat := (UInt8.ofNat_toNat).symm
  rw [hofNat]
  generalize c.toNat = n at hdigit hne
  have hn : n ∈ [49, 50, 51, 52, 53, 54, 55, 56, 57] := by
    simp only [List.mem_cons, List.not_mem_nil, or_false]
    omega
  have hall : forall n, n ∈ [49, 50, 51, 52, 53, 54, 55, 56, 57] ->
      UInt8.ofNat n ∈ digits := by
    decide
  exact hall n hn

theorem withTone_self {f : CString} (h : f ≠ []) : withTone f (f.getLastD 0) = f := by
  unfold withTone
  rw [List.getLastD_eq_getLast?, List.getLast?_eq_some_getLast h]
  exact List.dropLast_append_getLast h

theorem Stringsplit_finals {fs : List CString} (h : forall f, f ∈ fs -> Final f) :
    Stringsplit (assemble (fs.map fun _ => []) fs) 32 = fs := by
  have hpairs : (List.zip (fs.map fun _ => ([] : CString)) fs).flatMap pairTokens = fs := by
    clear h
    induction fs with
    | nil =>
        rfl
    | cons f fs ih =>
        rw [List.map_cons, List.zip_cons_cons, List.flatMap_cons, ih]
        rfl
  rw [assemble_eq, hpairs]
  refine Stringsplit_intercalate ?_ fun f hf => (h f hf).2
  rintro rfl
  exact (h [] (by simp)).ne_nil rfl

theorem final_of_modified {word pos : CString} {finals result : List CString}
    (hfinals : forall f, f ∈ finals -> I.finals f)
    (h : ModifyTone st word pos finals = Except.ok result) {f : CString}
    (hf : f ∈ result) : Final f := by
  rcases ModifyTone_painted h with ⟨tones, hpainted⟩
  rcases hpainted.mem_final hf with ⟨o, ho, rfl | ⟨t, ht, rfl⟩⟩
  · exact I.finals_final f (hfinals f ho)
  · exact (I.finals_final o (hfinals o ho)).newTone ht

section Words

variable {word : CString} {word_wstr : WString} {finals tones : List CString}

/-- The finals of a word after the changes of tone. -/
def changed (finals tones : List CString) : List CString :=
  List.zipWith (fun f t => f.dropLast ++ t) finals tones

theorem modify_changed (hfinals : forall f, f ∈ finals -> I.finals f)
    (htones : ModifyTone (rehearsal [] []) word (str "x")
      (finals.map fun f => [f.getLastD 0]) = Except.ok tones) :
    ModifyTone (rehearsal I._seperate_tone []) word (str "x") finals =
      Except.ok (changed finals tones) := by
  rw [ModifyTone_rehearsal]
  exact ModifyTone_of_tones (fun f hf => (I.finals_final f (hfinals f hf)).ne_nil) htones

theorem length_changed (hfinals : forall f, f ∈ finals -> I.finals f)
    (htones : ModifyTone (rehearsal [] []) word (str "x")
      (finals.map fun f => [f.getLastD 0]) = Except.ok tones) :
    (changed finals tones).length = finals.length := by
  exact ModifyTone_length (modify_changed hfinals htones)

theorem Covers.merged (hI : I.Covers) (fs : List CString) (hword : Spoken word)
    (hfinals : forall f, f ∈ finals -> I.finals f)
    (htones : ModifyTone (rehearsal [] []) word (str "x")
      (finals.map fun f => [f.getLastD 0]) = Except.ok tones)
    (hmerge : MergeErhua (finals.map fun _ => []) (changed finals tones) word
      (str "x") = Except.ok (fs.map fun _ => [], fs))
    (hfs : forall f, f ∈ fs -> Final f) : forall f, f ∈ fs -> I.Key f := by
  have hentry : (I.engine [(word, joinTokens finals)]).word_phone_map.find word =
      some (joinTokens finals) :=
    StdMap.find_insert_self _ _ _
  have hreads := reads_joinTokens fun f hf => I.finals_final f (hfinals f hf)
  have hpairs : initialsAndFinals (finals.map fun f => ([], f)) =
      (finals.map fun _ => [], finals) := by
    simp [initialsAndFinals, Function.comp_def]
  have hphone := wordPhones_of_merge (r := (finals.map fun _ => [], finals))
    (modify_changed hfinals htones) hmerge (by simp)
  rw [← hpairs] at hphone
  have hrun := idsOfToken_entry hword hentry hreads hphone
  rw [Stringsplit_finals hfs] at hrun
  exact hI.token (stocks_engine [] word hfinals) hrun fun _ hmem =>
    (hfs [] hmem).ne_nil rfl

theorem Covers.plainWord (hI : I.Covers) (hword : Spoken word)
    (hwide : utf8string2wstring word = Except.ok word_wstr)
    (hlast : word_wstr.getLast? ≠ some 20799)
    (hfinals : forall f, f ∈ finals -> I.finals f)
    (htones : ModifyTone (rehearsal [] []) word (str "x")
      (finals.map fun f => [f.getLastD 0]) = Except.ok tones) :
    forall f, f ∈ changed finals tones -> I.Key f := by
  have hlen := length_changed hfinals htones
  refine hI.merged _ hword hfinals htones ?_ ?_
  · have hempty : (finals.map fun _ => ([] : CString)) =
        (changed finals tones).map fun _ => [] := by
      rw [List.map_const', List.map_const', hlen]
    rw [hempty]
    exact MergeErhua_keeps (by simp) hwide hlast
  · intro f hf
    exact final_of_modified hfinals (modify_changed hfinals htones) hf

theorem Covers.erWord (hI : I.Covers) {fs : List CString} {final er tail : CString}
    (hfinals : forall f, f ∈ finals -> I.finals f)
    (htones : ModifyTone (rehearsal [] []) word (str "x")
      (finals.map fun f => [f.getLastD 0]) = Except.ok tones)
    (hchanged : changed finals tones = fs ++ [final] ++ [er])
    (her : er = str "er2" ∨ er = str "er5") (hword : Spoken word)
    (hwide : utf8string2wstring word = Except.ok word_wstr)
    (hexempt : ¬ Exempt word (str "x") word_wstr (fs ++ [final] ++ [er]).length)
    (hlast : word_wstr.getLast? = some 20799)
    (htail : lastTwo word_wstr = Except.ok tail) (hnot : tail ∉ not_erhua) :
    I.Key (coloured final) := by
  have hlen := length_changed hfinals htones
  have hfinal : forall f, f ∈ changed finals tones -> Final f := fun f hf =>
    final_of_modified hfinals (modify_changed hfinals htones) hf
  rw [hchanged] at hfinal hlen
  have hcoloured : Final (coloured final) := (hfinal final (by simp)).coloured
  refine hI.merged (fs ++ [coloured final]) hword hfinals htones ?_ ?_ _ (by simp)
  · have hempty : (finals.map fun _ => ([] : CString)) =
        (fs ++ [coloured final]).map (fun _ => []) ++ [[]] := by
      rw [List.map_const', List.map_const', ← hlen]
      simp [List.replicate_succ']
    rw [hempty, hchanged]
    rw [MergeErhua_rhotic (by simp) hwide hexempt her hlast htail hnot,
      rhotic_eq (hfinal final (by simp)).ne_nil]
    rfl
  · intro f hf
    rcases List.mem_append.mp hf with hmem | hmem
    · exact hfinal f (by simp [hmem])
    · rw [List.mem_singleton] at hmem
      rw [hmem]
      exact hcoloured

end Words

/--
Words with the tones of their finals, before and after all changes; `t` is the
tone of a final that is carried through.
-/
def scenes (t : UInt8) : List (CString × List CString × List CString) :=
  [(str "第一不一", [[t], [t], [t], [52]], [[t], [49], [50], [52]]),
    (str "一个一", [[t], [50], [t]], [[52], [50], [53]]),
    (str "兜儿", [[t], [50]], [[t], [50]]),
    (str "人不儿", [[50], [t], [50]], [[50], [53], [50]]),
    (str "一个不儿", [[50], [50], [t], [52]], [[50], [50], [50], [53]])]

/-- The ends of these words are not in the table of neutral tones. -/
theorem not_neural_scenes : forall s, s ∈ ["不一", "个一", "兜儿", "不儿"] ->
    str s ∉ must_neural_tone_words := by
  intro s hs
  unfold must_neural_tone_words
  rw [List.mem_map_of_injective str_injective]
  revert s
  decide +kernel

theorem ModifyTone_scenes : forall t, t ∈ digits -> forall s, s ∈ scenes t ->
    ModifyTone (rehearsal [] []) s.1 (str "x") s.2.1 = Except.ok s.2.2 := by
  intro t ht s hs
  simp only [scenes, List.mem_cons, List.not_mem_nil, or_false] at hs
  rcases hs with rfl | rfl | rfl | rfl | rfl
  · refine (ModifyTone_unlisted ['第', '一', '不', '一'] (by decide)
      (not_neural_scenes "不一" (by decide)) (by decide) _).trans ?_
    revert t
    decide +kernel
  · refine (ModifyTone_unlisted ['一', '个', '一'] (by decide)
      (not_neural_scenes "个一" (by decide)) (by decide) _).trans ?_
    revert t
    decide +kernel
  · refine (ModifyTone_unlisted ['兜', '儿'] (by decide)
      (not_neural_scenes "兜儿" (by decide)) (by decide) _).trans ?_
    revert t
    decide +kernel
  · refine (ModifyTone_unlisted ['人', '不', '儿'] (by decide)
      (not_neural_scenes "不儿" (by decide)) (by decide) _).trans ?_
    revert t
    decide +kernel
  · refine (ModifyTone_unlisted ['一', '个', '不', '儿'] (by decide)
      (not_neural_scenes "不儿" (by decide)) (by decide) _).trans ?_
    revert t
    decide +kernel

theorem Covers.ordinal (hI : I.Covers) {f : CString} (hf : I.finals f) :
    I.Key f ∧ I.Key (withTone f 49) ∧ I.Key (withTone f 50) := by
  have htones := ModifyTone_scenes _ (tone_mem_digits (I.finals_final f hf))
    (str "第一不一", [[f.getLastD 0], [f.getLastD 0], [f.getLastD 0], [52]],
      [[f.getLastD 0], [49], [50], [52]]) (by simp [scenes])
  have hword : Spoken (str "第一不一") := by
    decide +kernel
  have hwide : utf8string2wstring (str "第一不一") = Except.ok (wstr "第一不一") := by
    decide +kernel
  have hfinals : forall g, g ∈ [f, f, f, str "er4"] -> I.finals g := by
    simp [hf, I.er4]
  have hkeys := hI.plainWord hword hwide (by decide) hfinals htones
  have hchanged : changed [f, f, f, str "er4"] [[f.getLastD 0], [49], [50], [52]] =
      [f, withTone f 49, withTone f 50, str "er4"] := by
    change [withTone f (f.getLastD 0), _, _, _] = _
    rw [withTone_self (I.finals_final f hf).ne_nil]
    rfl
  rw [hchanged] at hkeys
  exact ⟨hkeys _ (by simp), hkeys _ (by simp), hkeys _ (by simp)⟩

theorem Covers.counted (hI : I.Covers) {f : CString} (hf : I.finals f) :
    I.Key (withTone f 52) ∧ I.Key (withTone f 53) := by
  have htones := ModifyTone_scenes _ (tone_mem_digits (I.finals_final f hf))
    (str "一个一", [[f.getLastD 0], [50], [f.getLastD 0]], [[52], [50], [53]])
    (by simp [scenes])
  have hword : Spoken (str "一个一") := by
    decide +kernel
  have hwide : utf8string2wstring (str "一个一") = Except.ok (wstr "一个一") := by
    decide +kernel
  have hfinals : forall g, g ∈ [f, str "er2", f] -> I.finals g := by
    simp [hf, I.er2]
  have hkeys := hI.plainWord hword hwide (by decide) hfinals htones
  have hchanged : changed [f, str "er2", f] [[52], [50], [53]] =
      [withTone f 52, str "er2", withTone f 53] := rfl
  rw [hchanged] at hkeys
  exact ⟨hkeys _ (by simp), hkeys _ (by simp)⟩

theorem Covers.toned (hI : I.Covers) {f : CString} (hf : I.finals f) {t : UInt8}
    (ht : t ∈ newTones) : I.Key (withTone f t) := by
  simp only [newTones, List.mem_cons, List.not_mem_nil, or_false] at ht
  rcases ht with rfl | rfl | rfl | rfl
  · exact (hI.ordinal hf).2.1
  · exact (hI.ordinal hf).2.2
  · exact (hI.counted hf).1
  · exact (hI.counted hf).2

theorem Covers.coloured (hI : I.Covers) {f : CString} (hf : I.finals f) :
    I.Key (FrontEngineInterface.coloured f) := by
  have htones := ModifyTone_scenes _ (tone_mem_digits (I.finals_final f hf))
    (str "兜儿", [[f.getLastD 0], [50]],
      [[f.getLastD 0], [50]]) (by simp [scenes])
  have hword : Spoken (str "兜儿") := by
    decide +kernel
  have hwide : utf8string2wstring (str "兜儿") = Except.ok (wstr "兜儿") := by
    decide +kernel
  have htail : lastTwo (wstr "兜儿") = Except.ok (str "兜儿") := by
    decide +kernel
  have hexempt : ¬ Exempt (str "兜儿") (str "x") (wstr "兜儿") 2 := by
    decide +kernel
  have hfinals : forall g, g ∈ [f, str "er2"] -> I.finals g := by
    simp [hf, I.er2]
  have hchanged : changed [f, str "er2"] [[f.getLastD 0], [50]] =
      [] ++ [f] ++ [str "er2"] := by
    change [withTone f (f.getLastD 0), _] = _
    rw [withTone_self (I.finals_final f hf).ne_nil]
    rfl
  exact hI.erWord hfinals htones hchanged (Or.inl rfl) hword hwide hexempt
    (by decide) htail (by decide +kernel)

theorem Covers.colouredNeutral (hI : I.Covers) {f : CString} (hf : I.finals f) :
    I.Key (FrontEngineInterface.coloured (withTone f 53)) := by
  have htones := ModifyTone_scenes _ (tone_mem_digits (I.finals_final f hf))
    (str "人不儿", [[50], [f.getLastD 0], [50]],
      [[50], [53], [50]]) (by simp [scenes])
  have hword : Spoken (str "人不儿") := by
    decide +kernel
  have hwide : utf8string2wstring (str "人不儿") = Except.ok (wstr "人不儿") := by
    decide +kernel
  have htail : lastTwo (wstr "人不儿") = Except.ok (str "不儿") := by
    decide +kernel
  have hexempt : ¬ Exempt (str "人不儿") (str "x") (wstr "人不儿") 3 := by
    decide +kernel
  have hfinals : forall g, g ∈ [str "er2", f, str "er2"] -> I.finals g := by
    simp [hf, I.er2]
  have hchanged : changed [str "er2", f, str "er2"] [[50], [53], [50]] =
      [str "er2"] ++ [withTone f 53] ++ [str "er2"] := by
    rfl
  exact hI.erWord hfinals htones hchanged (Or.inl rfl) hword hwide hexempt
    (by decide) htail (by decide +kernel)

theorem Covers.colouredSecond (hI : I.Covers) {f : CString} (hf : I.finals f) :
    I.Key (FrontEngineInterface.coloured (withTone f 50)) := by
  have htones := ModifyTone_scenes _ (tone_mem_digits (I.finals_final f hf))
    (str "一个不儿", [[50], [50], [f.getLastD 0], [52]],
      [[50], [50], [50], [53]]) (by simp [scenes])
  have hword : Spoken (str "一个不儿") := by
    decide +kernel
  have hwide : utf8string2wstring (str "一个不儿") = Except.ok (wstr "一个不儿") := by
    decide +kernel
  have htail : lastTwo (wstr "一个不儿") = Except.ok (str "不儿") := by
    decide +kernel
  have hexempt : ¬ Exempt (str "一个不儿") (str "x") (wstr "一个不儿") 4 := by
    decide +kernel
  have hfinals : forall g, g ∈ [str "er2", str "er2", f, str "er4"] -> I.finals g := by
    simp [hf, I.er2, I.er4]
  have hchanged : changed [str "er2", str "er2", f, str "er4"] [[50], [50], [50], [53]] =
      [str "er2", str "er2"] ++ [withTone f 50] ++ [str "er5"] := by
    rfl
  exact hI.erWord hfinals htones hchanged (Or.inr rfl) hword hwide hexempt
    (by decide) htail (by decide +kernel)

theorem closed_of_covers (hI : I.Covers) : I.Closed where
  pause := hI.pause
  latin := fun _ hlisted hspeakable => hI.latin hlisted hspeakable
  plain := fun _ hf => (hI.ordinal hf).1
  toned := fun _ hf _ ht => hI.toned hf ht
  coloured := fun _ hf => hI.coloured hf
  colouredToned := by
    intro f hf t ht
    simp only [erTones, List.mem_cons, List.not_mem_nil, or_false] at ht
    rcases ht with rfl | rfl
    · exact hI.colouredSecond hf
    · exact hI.colouredNeutral hf

/--
On every dictionary of an inventory the ids are the ids of keys, exactly when all
names that the changes of tone and r-colouring can make are keys.
-/
theorem covers_iff_closed (I : Inventory) : I.Covers ↔ I.Closed := by
  constructor
  · exact closed_of_covers
  · exact covers_of_closed

/-- The phones of the repository lack the coloured 儿, so that some dictionary is not safe. -/
theorem not_covers_zh (I : Inventory) (h : I.phone_id_map = phone_id_map_zh_en) :
    ¬ I.Covers := by
  intro hI
  have hkey := (closed_of_covers hI).coloured (str "er2") I.er2
  unfold Key FrontEngineInterface.Key keyOf at hkey
  rw [h] at hkey
  split at hkey
  · have hname : (FrontEngineInterface.coloured (str "er2")).dropLast = str "err" := by
      decide
    rw [hname, contains_phone_id_map] at hkey
    exact absurd hkey (by decide +kernel)
  · have hname : FrontEngineInterface.coloured (str "er2") = str "err2" := by
      decide
    rw [hname, contains_phone_id_map] at hkey
    exact absurd hkey (by decide +kernel)

end Inventory

end FrontEngineInterface
end VoiceTts
