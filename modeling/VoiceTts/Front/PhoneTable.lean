import VoiceTts.Front.Counted
import VoiceTts.Front.Inventory

/-!
# The phones of the repository

The table `phone_id_map_zh_en.txt`, and engines that have it and some words.  They are used
with a segmenter that never cuts.
-/

namespace VoiceTts
namespace FrontEngineInterface

/-- A segmenter that never cuts, and a model with one answer. -/
def rehearsal (_seperate_tone : CString) (phones : List CString) : Setup where
  _jieba := ⟨fun s => [s], fun s => [s], fun s => [s]⟩
  g2pmodel := fun _ => phones
  _seperate_tone := _seperate_tone

theorem ModifyTone_rehearsal (mode word pos : CString) (finals : List CString) :
    ModifyTone (rehearsal mode []) word pos finals =
      ModifyTone (rehearsal [] []) word pos finals := rfl

theorem ModifyTone_unlisted (cs : List Char)
    (hsize : (Utf8.encodeChars cs).length = 6 -> cs.length = 2)
    (htail : Utf8.encodeChars (cs.drop (cs.length - 2)) ∉ must_neural_tone_words)
    (hsplit : SplitWord (rehearsal [] []) (Utf8.encodeChars (cs ++ [])) =
      Except.ok [Utf8.encodeChars cs, Utf8.encodeChars []]) (finals : List CString) :
    ModifyTone (rehearsal [] []) (Utf8.encodeChars cs) (str "x") finals =
      quietTone (rehearsal [] []) cs [] (str "x") finals := by
  have hlisted := not_listed_of_tail hsize htail
  have hunlisted : Unlisted cs [] (str "x") :=
    { twice := by
        intro j _ hrepeats
        exact absurd hrepeats.2.2 (by decide)
      word := by
        rw [List.append_nil]
        exact hlisted
      first := hlisted
      second := not_listed_of_length (by decide) }
  rw [← ModifyTone_quiet hunlisted hsplit, List.append_nil]

/-!
## The tables of the engine
-/

/-- The keys of `phone_id_map_zh_en.txt`; the id of a phone is its place. -/
def phoneNames : List String :=
  [
    "<pad>", "<unk>", "AA0", "AA1", "AA2", "AE0", "AE1", "AE2", "AH0", "AH1", "AH2",
    "AO0", "AO1", "AO2", "AW0", "AW1", "AW2", "AY0", "AY1", "AY2", "B", "CH", "D", "DH",
    "EH0", "EH1", "EH2", "ER0", "ER1", "ER2", "EY0", "EY1", "EY2", "F", "G", "HH",
    "IH0", "IH1", "IH2", "IY0", "IY1", "IY2", "JH", "K", "L", "M", "N", "NG", "OW0",
    "OW1", "OW2", "OY0", "OY1", "OY2", "P", "R", "S", "SH", "T", "TH", "UH0", "UH1",
    "UH2", "UW0", "UW1", "UW2", "V", "W", "Y", "Z", "ZH", "a1", "a2", "a3", "a4", "a5",
    "ai1", "ai2", "ai3", "ai4", "ai5", "air2", "air3", "air4", "an1", "an2", "an3",
    "an4", "an5", "ang1", "ang2", "ang3", "ang4", "ang5", "angr2", "angr4", "anr1",
    "anr3", "anr4", "ao1", "ao2", "ao3", "ao4", "ao5", "aor1", "aor3", "aor4", "aor5",
    "ar2", "ar3", "ar4", "ar5", "b", "c", "ch", "d", "e1", "e2", "e3", "e4", "e5",
    "ei1", "ei2", "ei3", "ei4", "ei5", "eir4", "en1", "en2", "en3", "en4", "en5",
    "eng1", "eng2", "eng3", "eng4", "eng5", "engr4", "enr1", "enr2", "enr3", "enr4",
    "enr5", "er1", "er2", "er3", "er4", "er5", "f", "g", "h", "i1", "i2", "i3", "i4",
    "i5", "ia1", "ia2", "ia3", "ia4", "ia5", "ian1", "ian2", "ian3", "ian4", "ian5",
    "iang1", "iang2", "iang3", "iang4", "iang5", "iangr4", "ianr1", "ianr2", "ianr3",
    "ianr4", "ianr5", "iao1", "iao2", "iao3", "iao4", "iao5", "iaor1", "iaor2", "iaor3",
    "iaor4", "iar1", "iar3", "iar4", "ie1", "ie2", "ie3", "ie4", "ie5", "ii1", "ii2",
    "ii3", "ii4", "ii5", "iii1", "iii2", "iii3", "iii4", "iii5", "iiir1", "iiir4",
    "iir2", "in1", "in2", "in3", "in4", "in5", "ing1", "ing2", "ing3", "ing4", "ing5",
    "ingr1", "ingr2", "ingr3", "ingr4", "inr1", "inr4", "io1", "io3", "io5", "iong1",
    "iong2", "iong3", "iong4", "iong5", "iou1", "iou2", "iou3", "iou4", "iou5", "iour1",
    "iour2", "iour3", "iour4", "ir1", "ir2", "ir3", "ir4", "ir5", "j", "k", "l", "m",
    "n", "o1", "o2", "o3", "o4", "o5", "ong1", "ong2", "ong3", "ong4", "ong5", "ongr4",
    "or2", "ou1", "ou2", "ou3", "ou4", "ou5", "our2", "our3", "our4", "our5", "p", "q",
    "r", "s", "sh", "sil", "sp", "spl", "spn", "t", "u1", "u2", "u3", "u4", "u5", "ua1",
    "ua2", "ua3", "ua4", "ua5", "uai1", "uai2", "uai3", "uai4", "uai5", "uair4", "uan1",
    "uan2", "uan3", "uan4", "uan5", "uang1", "uang2", "uang3", "uang4", "uang5",
    "uangr4", "uanr1", "uanr2", "uanr3", "uanr4", "uanr5", "uar1", "uar2", "uar4",
    "uei1", "uei2", "uei3", "uei4", "uei5", "ueir1", "ueir2", "ueir3", "ueir4", "uen1",
    "uen2", "uen3", "uen4", "uen5", "ueng1", "ueng2", "ueng3", "ueng4", "uenr1",
    "uenr2", "uenr3", "uenr4", "uo1", "uo2", "uo3", "uo4", "uo5", "uor1", "uor2",
    "uor3", "uor5", "ur1", "ur2", "ur3", "ur4", "ur5", "v1", "v2", "v3", "v4", "v5",
    "van1", "van2", "van3", "van4", "van5", "vanr1", "vanr2", "vanr3", "vanr4", "ve1",
    "ve2", "ve3", "ve4", "ve5", "ver3", "ver4", "vn1", "vn2", "vn3", "vn4", "vn5",
    "vnr2", "vr3", "x", "z", "zh", ",", ".", "?", "!", "<eos>"
  ]

def phone_id_map_zh_en : StdMap CString CString :=
  StdMap.empty.insertAll (phoneNames.zipIdx.map fun n => (str n.1, natDigits n.2))

theorem contains_phone_id_map (name : String) :
    phone_id_map_zh_en.contains (str name) = decide (name ∈ phoneNames) := by
  have hmem : str name ∈ phoneNames.map str ↔ name ∈ phoneNames := by
    constructor
    · intro h
      rcases List.mem_map.mp h with ⟨other, hother, heq⟩
      have hchars : other.toList = name.toList := Utf8.encodeChars_injective heq
      rw [← String.toList_injective hchars]
      exact hother
    · exact List.mem_map_of_mem
  have hkeys : (phoneNames.zipIdx.map fun n => (str n.1, natDigits n.2)).map Prod.fst =
      phoneNames.map str := by
    conv_rhs => rw [← List.zipIdx_map_fst 0 phoneNames]
    rw [List.map_map, List.map_map]
    rfl
  rw [phone_id_map_zh_en, StdMap.contains_insertAll, hkeys]
  simp only [hmem]
  exact Bool.or_false _

/-- An engine with the phones of the repository and some words. -/
def zhEngine (words : List (CString × CString)) : FrontEngineInterface where
  word_phone_map := StdMap.empty.insertAll words
  phone_id_map := phone_id_map_zh_en
  tone_id_map := StdMap.empty
  cmu_map := StdMap.empty
  orderdict_map := StdMap.empty

theorem phones_zhEngine (words : List (CString × CString)) :
    (zhEngine words).phone_id_map = phone_id_map_zh_en.touchAll [] := by
  simp only [zhEngine, StdMap.touchAll, List.foldl_nil]

end FrontEngineInterface
end VoiceTts
