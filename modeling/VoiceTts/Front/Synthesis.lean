import VoiceTts.Front.Merge
import VoiceTts.Front.Sandhi

/-!
# From sentences to ids

`Tag` and `Cut` take a sentence to tagged words, `GetWordsIds` takes tagged words
to the ids of their phones, and `GetSentenceIds` is the two in sequence.
-/

namespace VoiceTts

/-!
## Tags of the segmenter
-/

namespace PosTagger

/--
The runes of a byte string, or nothing where a sequence is cut short.  Unlike a
conversion to a wide string this accepts any continuation byte.
-/
def DecodeRunesInString : CString -> Option (List Nat)
  | [] => some []
  | b :: rest =>
      if b.toNat < 0x80 then (DecodeRunesInString rest).map (b.toNat :: ·)
      else
        match rest with
        | [] => none
        | b1 :: rest1 =>
            if b.toNat ≤ 0xdf then
              (DecodeRunesInString rest1).map
                ((b.toNat % 32 * 64 + b1.toNat % 64) :: ·)
            else
              match rest1 with
              | [] => none
              | b2 :: rest2 =>
                  if b.toNat ≤ 0xef then
                    (DecodeRunesInString rest2).map
                      ((b.toNat % 16 * 4096 + b1.toNat % 64 * 64 +
                        b2.toNat % 64) :: ·)
                  else
                    match rest2 with
                    | [] => none
                    | b3 :: rest3 =>
                        if b.toNat ≤ 0xf7 then
                          (DecodeRunesInString rest3).map
                            ((b.toNat % 8 * 262144 + b1.toNat % 64 * 4096 +
                              b2.toNat % 64 * 64 + b3.toNat % 64) :: ·)
                        else none

/-- The loop of `SpecialRule` with the pair `(m, eng)`; it stops at half the runes. -/
def countAscii (half : Nat) : Nat × Nat -> List Nat -> Nat × Nat
  | acc, [] => acc
  | acc, rune :: runes =>
      if acc.2 < half then
        if rune < 0x80 then
          countAscii half
            (if 48 ≤ rune ∧ rune ≤ 57 then acc.1 + 1 else acc.1, acc.2 + 1) runes
        else countAscii half acc runes
      else acc

def SpecialRule (unicode : List Nat) : CString :=
  let acc := countAscii (unicode.length / 2) (0, 0) unicode
  if acc.2 = 0 then str "x" else if acc.1 = acc.2 then str "m" else str "eng"

def LookupTag (word : CString) : CString :=
  match DecodeRunesInString word with
  | none => str "x"
  | some runes => SpecialRule runes

/-- `Tag` on the words of the segmenter; empty words and single blanks are skipped. -/
def Tag (words : List CString) : List (CString × CString) :=
  (words.filter fun word => decide (word ≠ [] ∧ word ≠ str " ")).map fun word =>
    (word, LookupTag word)

end PosTagger

namespace FrontEngineInterface

def isLetter (c : UInt8) : Bool :=
  decide ((97 ≤ c.toNat ∧ c.toNat ≤ 122) ∨ (65 ≤ c.toNat ∧ c.toNat ≤ 90))

def IsCheckLetter (s : CString) : Bool :=
  s.all isLetter

/-- The loop of `Cut` over the tagged words of the segmenter. -/
def relabel (t : CString × CString) : CString × CString :=
  if IsCheckLetter t.1 = true ∧ t.2 ≠ str "eng" then (t.1, str "eng") else t

/-- The segmentation that `Cut` hands to the merge passes. -/
def segment (st : Setup) (sentence : CString) : Seg :=
  (PosTagger.Tag (st._jieba.Cut sentence)).map relabel

def Cut (st : Setup) (sentence : CString) : FrontM Seg :=
  MergeforModify (GetFinals st) (segment st sentence)

/-!
## Ids of words
-/

def ToLower (s : CString) : CString :=
  s.map fun c => if 65 ≤ c.toNat ∧ c.toNat ≤ 90 then c + 32 else c

/-- One syllable: its initial, if there is one, and its final. -/
def syllable (initial final : CString) : CString :=
  if initial ≠ [] then initial ++ str " " ++ final else final

/-- The loop that puts the syllables of a word together. -/
def assemble (word_initials word_finals : List CString) : CString :=
  List.intercalate (str " ") (List.zipWith syllable word_initials word_finals)

def wordPhones (st : Setup) (word pos : CString)
    (r : List CString × List CString) : Except Error CString := do
  let word_finals <- ModifyTone st word pos r.2
  let new_initials_finals <- MergeErhua r.1 word_finals word pos
  if new_initials_finals.1.length = new_initials_finals.2.length then
    pure (assemble new_initials_finals.1 new_initials_finals.2)
  else Except.error Error.assertion

def idsOfWord (st : Setup) (word pos : CString) : FrontM (List Int × List Int) := do
  let r <- GetInitialsFinals st word
  let phone <- Prog.lift (wordPhones st word pos r)
  Phone2Phoneid st phone

def pausePhone (st : Setup) : CString :=
  if st._seperate_tone = str "true" then str "sp0" else str "sp"

/-- The phones of a Latin word: from the dictionary, or from the model. -/
def latinPhones (st : Setup) (word : CString) : FrontM (List CString) := do
  let entry <- cmuEntry word
  if entry ≠ [] then do
    let entry <- cmuEntry word
    let first <- Prog.lift (elementAt Container.word_one (Stringsplit entry 124) 0)
    pure (Stringsplit first 44)
  else pure (st.g2pmodel word)

/-- One phone of a Latin word; phones that are not in `orderdict_map` are dropped. -/
def idsOfLatinPhone (st : Setup) (phone : CString) :
    FrontM (List Int × List Int) := do
  let entry <- orderEntry phone
  if entry ≠ [] then Phone2Phoneid st phone else pure ([], [])

def idsOfLatinPhones (st : Setup) : List CString -> FrontM (List Int × List Int)
  | [] => pure ([], [])
  | phone :: word_final => do
      let r <- idsOfLatinPhone st phone
      let rs <- idsOfLatinPhones st word_final
      pure (r.1 ++ rs.1, r.2 ++ rs.2)

def idsOfToken (st : Setup) (t : CString × CString) : FrontM (List Int × List Int) :=
  if t.2 = str "x" ∧ t.1 ≠ str " " then
    if t.1 ∈ _punc_omit then pure ([], [])
    else if t.1 ∈ _punc then Phone2Phoneid st (pausePhone st)
    else idsOfWord st t.1 t.2
  else if t.1 ≠ str " " then do
    let word_final <- latinPhones st (ToLower t.1)
    idsOfLatinPhones st word_final
  else pure ([], [])

/-- The ids that `GetWordsIds` appends to `phoneids` and `toneids`. -/
def GetWordsIds (st : Setup) : Seg -> FrontM (List Int × List Int)
  | [] => pure ([], [])
  | t :: cut_result => do
      let r <- idsOfToken st t
      let rs <- GetWordsIds st cut_result
      pure (r.1 ++ rs.1, r.2 ++ rs.2)

def GetSentenceIds (st : Setup) (sentence : CString) :
    FrontM (List Int × List Int) := do
  let cut_result <- Cut st sentence
  GetWordsIds st cut_result

end FrontEngineInterface
end VoiceTts
