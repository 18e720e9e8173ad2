import VoiceTts.Front.Characters
import VoiceTts.Front.Tones

/-!
# The phone inventory

The keys of `phone_id_map` are the phones that have an id.  The names that
`Phone2Phoneid` looks up are made from the dictionary by changing tones and by
r-colouring, or come from `orderdict_map`, and a name that is no key is
inserted with an empty entry, which reads as the id 0.  This module follows the
lookups of a call: which names, and which words before them.
-/

namespace VoiceTts
namespace FrontEngineInterface

/-!
## Names of phones
-/

/-- The part of a phone that is looked up; with separate tones it has no tone. -/
def keyOf (_seperate_tone phone : CString) : CString :=
  if _seperate_tone = str "true" then phone.dropLast else phone

def withTone (final : CString) (t : UInt8) : CString :=
  final.dropLast ++ [t]

/-- The r-coloured form of a final. -/
def coloured (final : CString) : CString :=
  final.dropLast ++ str "r" ++ [final.getLastD 0]

theorem rhotic_eq {final : CString} (h : final ≠ []) :
    rhotic final = Except.ok (coloured final) := by
  unfold rhotic coloured
  rw [List.getLast?_eq_some_getLast h, List.getLastD_eq_getLast?,
    List.getLast?_eq_some_getLast h]
  rfl

/-- A token that can be the final of a syllable. -/
def Final (f : CString) : Prop :=
  Toned f ∧ 32 ∉ f

theorem Final.ne_nil {f : CString} (h : Final f) : f ≠ [] := by
  rcases h.1 with ⟨c, hlast, -⟩
  rintro rfl
  cases hlast

theorem Final.withTone {f : CString} (h : Final f) {t : UInt8}
    (hdigit : isdigit t = true) (hzero : t ≠ 48) : Final (withTone f t) := by
  constructor
  · exact ⟨t, by simp [FrontEngineInterface.withTone], hdigit, hzero⟩
  · unfold FrontEngineInterface.withTone
    rw [List.mem_append, List.mem_singleton, not_or]
    constructor
    · intro hmem
      exact h.2 (List.mem_of_mem_dropLast hmem)
    · rintro rfl
      exact absurd hdigit (by decide)

theorem Final.newTone {f : CString} (h : Final f) {t : UInt8} (ht : t ∈ newTones) :
    Final (FrontEngineInterface.withTone f t) := by
  have htone : forall t, t ∈ newTones -> isdigit t = true ∧ t ≠ 48 := by
    decide
  exact h.withTone (htone t ht).1 (htone t ht).2

theorem blank_coloured {f : CString} (h : f ≠ []) (hblank : 32 ∉ f) : 32 ∉ coloured f := by
  unfold coloured
  rw [List.mem_append, List.mem_append, List.mem_singleton, not_or, not_or]
  refine ⟨⟨?_, by decide⟩, ?_⟩
  · intro hmem
    exact hblank (List.mem_of_mem_dropLast hmem)
  · intro hlast
    rw [List.getLastD_eq_getLast?, List.getLast?_eq_some_getLast h] at hlast
    exact hblank (List.mem_of_getLast? ((List.getLast?_eq_some_getLast h).trans
      (congrArg some hlast.symm)))

theorem Final.coloured {f : CString} (h : Final f) : Final (coloured f) := by
  refine ⟨?_, blank_coloured h.ne_nil h.2⟩
  rcases h.1 with ⟨c, hc, hdigit⟩
  refine ⟨c, ?_, hdigit⟩
  rw [FrontEngineInterface.coloured, List.getLast?_concat, List.getLastD_eq_getLast?, hc]
  rfl

/-!
## The names that are looked up
-/

/-- A phone is a key as it is looked up. -/
def Key (mode : CString) (phone_id_map : StdMap CString CString) (phone : CString) : Prop :=
  phone_id_map.contains (keyOf mode phone) = true

/-- The lookups of some phones and words, in order, with nothing else that shows. -/
structure Spelled (mode : CString) (phones heard : List CString) (ids : List Int)
    (e e' : FrontEngineInterface) : Prop where
  ids_eq : ids = phones.map fun p => atoi (e.phone_id_map.peek (keyOf mode p))
  table : e'.phone_id_map = e.phone_id_map.touchAll (phones.map (keyOf mode))
  words : e'.word_phone_map = e.word_phone_map.touchAll heard
  cmu : forall w, e'.cmu_map.peek w = e.cmu_map.peek w
  order : forall p, e'.orderdict_map.peek p = e.orderdict_map.peek p

section Spelling

variable {st : Setup} {mode : CString} {e e1 e' : FrontEngineInterface}

theorem Spelled.refl (mode : CString) (e : FrontEngineInterface) :
    Spelled mode [] [] [] e e where
  ids_eq := rfl
  table := rfl
  words := rfl
  cmu := fun _ => rfl
  order := fun _ => rfl

theorem Spelled.append {phones phones' heard heard' : List CString} {ids ids' : List Int}
    (h : Spelled mode phones heard ids e e1)
    (h' : Spelled mode phones' heard' ids' e1 e') :
    Spelled mode (phones ++ phones') (heard ++ heard') (ids ++ ids') e e' where
  ids_eq := by
    rw [List.map_append, h.ids_eq, h'.ids_eq, h.table]
    simp only [StdMap.peek_touchAll]
  table := by
    rw [List.map_append, StdMap.touchAll_append, h'.table, h.table]
  words := by
    rw [StdMap.touchAll_append, h'.words, h.words]
  cmu := fun w => (h'.cmu w).trans (h.cmu w)
  order := fun p => (h'.order p).trans (h.order p)

/-- No lookup has inserted a name exactly when all names are keys. -/
theorem Spelled.table_eq_iff {phones heard : List CString} {ids : List Int}
    (h : Spelled mode phones heard ids e e') :
    e'.phone_id_map = e.phone_id_map ↔ forall p, p ∈ phones -> Key mode e.phone_id_map p := by
  rw [h.table, StdMap.touchAll_eq_self_iff]
  exact List.forall_mem_map

theorem idsOfPhone_spelled {phone : CString} {r : List Int × List Int}
    (h : idsOfPhone st phone e = (Except.ok r, e')) :
    Spelled st._seperate_tone [phone] [] r.1 e e' ∧
      (st._seperate_tone = str "true" -> phone ≠ []) := by
  unfold idsOfPhone at h
  by_cases hmode : st._seperate_tone = str "true"
  · have hkey : keyOf st._seperate_tone phone = phone.dropLast := if_pos hmode
    rw [if_pos hmode] at h
    cases hlast : phone.getLast? with
    | none =>
        rw [hlast] at h
        cases h
    | some c =>
        rw [hlast] at h
        cases h
        constructor
        · constructor
          · rw [List.map_singleton, hkey]
          · rw [List.map_singleton, hkey]
            rfl
          · rfl
          · intro w
            rfl
          · intro p
            rfl
        · rintro - rfl
          cases hlast
  · have hkey : keyOf st._seperate_tone phone = phone := if_neg hmode
    rw [if_neg hmode] at h
    cases h
    constructor
    · constructor
      · rw [List.map_singleton, hkey]
      · rw [List.map_singleton, hkey]
        rfl
      · rfl
      · intro w
        rfl
      · intro p
        rfl
    · intro htrue
      exact absurd htrue hmode

theorem idsOfPhones_spelled {phones : List CString} {r : List Int × List Int}
    (h : idsOfPhones st phones e = (Except.ok r, e')) :
    Spelled st._seperate_tone phones [] r.1 e e' ∧
      (st._seperate_tone = str "true" -> [] ∉ phones) := by
  induction phones generalizing e r with
  | nil =>
      cases h
      exact ⟨Spelled.refl _ _, fun _ => List.not_mem_nil⟩
  | cons phone phones ih =>
      rcases Prog.bind_eq_ok h with ⟨r1, e1, h1, hrest⟩
      rcases Prog.bind_eq_ok hrest with ⟨r2, e2, h2, hpure⟩
      cases hpure
      rcases idsOfPhone_spelled h1 with ⟨hspelled, hne⟩
      rcases ih h2 with ⟨hspelled', hne'⟩
      refine ⟨hspelled.append hspelled', ?_⟩
      intro hmode hmem
      rcases List.mem_cons.mp hmem with hnil | hmem
      · exact hne hmode hnil.symm
      · exact hne' hmode hmem

theorem wordPhone_spelled (mode word : CString) (e : FrontEngineInterface) :
    Spelled mode [] [word] [] e (wordPhone word e).2 where
  ids_eq := rfl
  table := rfl
  words := rfl
  cmu := fun _ => rfl
  order := fun _ => rfl

theorem appendPhones_spelled (mode phone : CString) (wordcut : List CString)
    (e : FrontEngineInterface) :
    Spelled mode [] wordcut [] e (appendPhones phone wordcut e).2 := by
  induction wordcut generalizing phone e with
  | nil =>
      exact Spelled.refl mode e
  | cons piece wordcut ih =>
      exact (wordPhone_spelled mode piece e).append (ih _ _)

theorem GetPhone_spelled (st : Setup) (mode word : CString) (e : FrontEngineInterface) :
    Spelled mode [] (pieces st e word) [] e (GetPhone st word e).2 := by
  unfold pieces
  cases hin : e.word_phone_map.contains word with
  | true =>
      rw [GetPhone_of_contains hin, if_pos rfl]
      have hknown : e.word_phone_map.touchAll [word] = e.word_phone_map :=
        StdMap.touch_of_contains hin
      exact { Spelled.refl mode e with words := hknown.symm }
  | false =>
      rw [GetPhone_of_not_contains hin, if_neg Bool.false_ne_true]
      cases st._jieba.CutAll word with
      | nil =>
          exact Spelled.refl mode e
      | cons piece rest =>
          exact (wordPhone_spelled mode piece e).append (appendPhones_spelled mode _ rest _)

theorem GetInitialsFinals_spelled (mode : CString) {word : CString}
    {r : List CString × List CString}
    (h : GetInitialsFinals st word e = (Except.ok r, e')) :
    Spelled mode [] (pieces st e word) [] e e' := by
  rcases Prog.bind_eq_ok h with ⟨phone, e1, hphone, hsplit⟩
  have hstate : e1 = e' := congrArg Prod.snd hsplit
  have hspelled := GetPhone_spelled st mode word e
  rw [hphone] at hspelled
  rw [← hstate]
  exact hspelled

/-- The phones of a Latin word: those of its first pronunciation, or of the model. -/
def latinNames (st : Setup) (e : FrontEngineInterface) (word : CString) : List CString :=
  if e.cmu_map.peek word = [] then st.g2pmodel word
  else Stringsplit ((Stringsplit (e.cmu_map.peek word) 124).headD []) 44

theorem latinPhones_spelled (mode : CString) {word : CString} {r : List CString}
    (h : latinPhones st word e = (Except.ok r, e')) :
    Spelled mode [] [] [] e e' ∧ r = latinNames st e word := by
  have hentry : forall s : FrontEngineInterface, Spelled mode [] [] [] e s ->
      Spelled mode [] [] [] e (cmuEntry word s).2 := fun s hs =>
    { hs with cmu := fun w => (StdMap.peek_touch _ word w).trans (hs.cmu w) }
  rcases Prog.bind_eq_ok h with ⟨entry, e1, hfirst, hrest⟩
  have hspelled1 := hentry e (Spelled.refl mode e)
  rw [hfirst] at hspelled1
  have hpeek : entry = e.cmu_map.peek word := by
    cases hfirst
    rfl
  unfold latinNames
  rw [← hpeek]
  by_cases hnil : entry = []
  · rw [if_neg (not_not.mpr hnil)] at hrest
    rw [if_pos hnil]
    cases hrest
    exact ⟨hspelled1, rfl⟩
  · rw [if_pos hnil] at hrest
    rw [if_neg hnil]
    rcases Prog.bind_eq_ok hrest with ⟨again, e2, hsecond, hrest⟩
    rcases Prog.bind_eq_ok hrest with ⟨first, e3, hword_one, hpure⟩
    have hspelled2 := hentry e1 hspelled1
    rw [hsecond] at hspelled2
    have hsame : again = entry := by
      have hagain : again = e1.cmu_map.peek word := by
        cases hsecond
        rfl
      rw [hagain, hspelled1.cmu, hpeek]
    rcases Prod.mk.inj hword_one with ⟨hfirst, rfl⟩
    cases hpure
    refine ⟨hspelled2, ?_⟩
    rw [← hsame]
    unfold elementAt at hfirst
    cases hsplit : (Stringsplit again 124)[0]? with
    | none =>
        rw [hsplit] at hfirst
        cases hfirst
    | some part =>
        rw [hsplit, Except.ok.injEq] at hfirst
        rw [List.headD_eq_head?_getD, List.head?_eq_getElem?, hsplit, hfirst]
        rfl

theorem orderEntry_spelled (mode phone : CString) (e : FrontEngineInterface) :
    Spelled mode [] [] [] e (orderEntry phone e).2 where
  ids_eq := rfl
  table := rfl
  words := rfl
  cmu := fun _ => rfl
  order := fun p => StdMap.peek_touch _ phone p

end Spelling

end FrontEngineInterface
end VoiceTts
