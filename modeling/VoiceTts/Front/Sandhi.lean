import VoiceTts.Front.Engine

/-!
# Tone changes inside a word

`ModifyTone` rewrites the tones of the finals of one word in four steps, and
`MergeErhua` folds a closing 儿 into the final before it.  A tone is the last
byte of a final.  The functions index the characters of the word and its
finals independently of each other, without checking that there are equally many.
-/

namespace VoiceTts
namespace FrontEngineInterface

/-!
## Changing one tone
-/

/-- `final.replace(final.length() - 1, 1, tone)` -/
def retone (final : CString) (tone : UInt8) : Except Error CString :=
  if final = [] then Except.error Error.out_of_range
  else Except.ok (final.dropLast ++ [tone])

def setTone (c : Container) (finals : List CString) (i : Nat) (tone : UInt8) :
    Except Error (List CString) := do
  let final <- elementAt c finals i
  let final <- retone final tone
  pure (finals.set i final)

def setLastTone (c : Container) (finals : List CString) (tone : UInt8) :
    Except Error (List CString) := do
  let final <- back c finals
  let final <- retone final tone
  pure (finals.dropLast ++ [final])

/-- `finals[i].back()` -/
def toneAt (c : Container) (finals : List CString) (i : Nat) :
    Except Error UInt8 := do
  let final <- elementAt c finals i
  back Container.final final

/-!
## 不 and 一
-/

/-- One round of the loop of `BuSandi`, e.g. 不怕: b u4 becomes b u2. -/
def buSandiStep (wordvec : List WString) (finals : List CString) (i : Nat) :
    Except Error (List CString) :=
  if wordvec[i]? = some (wstr "不") ∧ i + 1 < wordvec.length then do
    let tone <- toneAt Container.finals finals (i + 1)
    if tone = 52 then setTone Container.finals finals i 50 else pure finals
  else pure finals

def BuSandi (word : CString) (finals : List CString) :
    Except Error (List CString) := do
  let wordvec <- Word2WordVec word
  if wordvec.length = 3 ∧ wordvec[1]? = some (wstr "不") then
    setTone Container.finals finals 1 53
  else (List.range wordvec.length).foldlM (buSandiStep wordvec) finals

/-- One round of the loop of `YiSandhi`: yi2 before a fourth tone, else yi4. -/
def yiSandhiStep (wordvec : List WString) (finals : List CString) (i : Nat) :
    Except Error (List CString) :=
  if wordvec[i]? = some (wstr "一") ∧ i + 1 < wordvec.length then do
    let tone <- toneAt Container.finals finals (i + 1)
    setTone Container.finals finals i (if tone = 52 then 50 else 52)
  else pure finals

/-- `wordvec[0] == 第 && wordvec[1] == 一` -/
def isOrdinal (wordvec : List WString) : Except Error Bool := do
  let first <- elementAt Container.wordvec wordvec 0
  if first = wstr "第" then do
    let second <- elementAt Container.wordvec wordvec 1
    pure (decide (second = wstr "一"))
  else pure false

/--
A word with 一 in it that does not end in 一 is left as it is, whether it
is a sequence of digits or not: the first branch ends the chain.
-/
def YiSandhi (word : CString) (finals : List CString) :
    Except Error (List CString) := do
  let wordvec <- Word2WordVec word
  if wstr "一" ∈ wordvec ∧ wordvec.getLast? ≠ some (wstr "一") then pure finals
  else if wordvec.length = 3 ∧ wordvec[1]? = some (wstr "一") ∧
      wordvec[0]? = wordvec[2]? then
    setTone Container.finals finals 1 53
  else do
    let ordinal <- isOrdinal wordvec
    if ordinal then setTone Container.finals finals 1 49
    else (List.range wordvec.length).foldlM (yiSandhiStep wordvec) finals

/-!
## Neutral tones
-/

def reduplicationStep (wordvec : List WString) (pos : CString)
    (finals : List CString) (j : Nat) : Except Error (List CString) :=
  if 1 ≤ j ∧ wordvec[j]? = wordvec[j - 1]? ∧
      (exists c, pos.head? = some c ∧ c ∈ str "nva") then
    setTone Container.finals finals j 53
  else pure finals

/-- A character of a word stands in a wide literal. -/
def oneOf (c : Option UInt32) (chars : String) : Bool :=
  match c with
  | some c => decide (c ∈ wstr chars)
  | none => false

/-- The last two characters of a word as a narrow string. -/
def lastTwo (word_wstr : WString) : Except Error CString :=
  wstring2utf8string (word_wstr.drop (word_wstr.length - 2))

/-- The test that ends the chain and that is repeated for the parts of a word. -/
def mustBeNeutral (word : CString) (word_wstr : WString) : Except Error Bool :=
  if word ∈ must_neural_tone_words then pure true
  else if 2 ≤ word_wstr.length then do
    let tail <- lastTwo word_wstr
    pure (decide (tail ∈ must_neural_tone_words))
  else pure false

/-- The character before the first 个 counts, or the word is 个 alone. -/
def isCounted (word_wstr : WString) : Bool :=
  decide (word_wstr = wstr "个") ||
    match word_wstr.idxOf? 20010 with
    | some ge_idx =>
        decide (1 ≤ ge_idx) &&
          oneOf word_wstr[ge_idx - 1]? "几有两半多各整每做是零一二三四六七八九"
    | none => false

/-- The chain of conditions under which the last tone becomes neutral. -/
def endsNeutral (word : CString) (word_wstr : WString) (pos : CString) :
    Except Error Bool :=
  let word_num := word_wstr.length
  let last := word_wstr.getLast?
  if oneOf last "吧呢哈啊呐噻嘛吖嗨呐哦哒额滴哩哟喽啰耶喔诶" then pure true
  else if oneOf last "的地得" then pure true
  else if word_num = 1 ∧ oneOf last "了着过" = true ∧
      pos ∈ ["ul", "uz", "ug"].map str then pure true
  else if 1 < word_num ∧ oneOf last "们子" = true ∧ pos ∈ ["r", "n"].map str ∧
      word ∈ must_not_neural_tone_words then pure true
  else if 1 < word_num ∧ oneOf last "上下里" = true ∧
      pos ∈ ["s", "l", "f"].map str then pure true
  else if 1 < word_num ∧ oneOf last "来去" = true ∧
      oneOf word_wstr[word_num - 2]? "上下进出回过起开" = true then pure true
  else if isCounted word_wstr then pure true
  else mustBeNeutral word word_wstr

/-- `assign` of the finals before and behind `finals.begin() + n`. -/
def cutFinals (finals : List CString) (n : Nat) :
    Except Error (List CString × List CString) :=
  if n ≤ finals.length then Except.ok (finals.take n, finals.drop n)
  else Except.error (Error.access Container.finals)

def neutralPart (part : CString) (finals : List CString) :
    Except Error (List CString) := do
  let temp_wstr <- utf8string2wstring part
  let neutral <- mustBeNeutral part temp_wstr
  if neutral then setLastTone Container.finals_list finals 53 else pure finals

/-- The second half of `NeuralSandhi`, after the word has been split in two. -/
def neutralParts (word_list : List CString) (finals : List CString) :
    Except Error (List CString) := do
  let first <- elementAt Container.word_list word_list 0
  let second <- elementAt Container.word_list word_list 1
  let first_wstr <- utf8string2wstring first
  let parts <- cutFinals finals first_wstr.length
  let front <- neutralPart first parts.1
  let rear <- neutralPart second parts.2
  pure (front ++ rear)

/-- The part of `NeuralSandhi` that decides about the last tone of the word. -/
def neutralEnd (word : CString) (word_wstr : WString) (pos : CString)
    (finals : List CString) : Except Error (List CString) := do
  let neutral <- endsNeutral word word_wstr pos
  if neutral then setLastTone Container.finals finals 53 else pure finals

def NeuralSandhi (st : Setup) (word pos : CString) (finals : List CString) :
    Except Error (List CString) := do
  let word_wstr <- utf8string2wstring word
  let wordvec <- Word2WordVec word
  let finals <- (List.range wordvec.length).foldlM (reduplicationStep wordvec pos) finals
  let finals <- neutralEnd word word_wstr pos finals
  let word_list <- SplitWord st word
  if finals = [] then pure [] else neutralParts word_list finals

/-!
## Third tones
-/

/-- A third tone at the head of a list of finals becomes a second tone. -/
def raiseHead (finals : List CString) : Except Error (List CString) :=
  setTone Container.finals_list finals 0 50

/-- 所有 / 人: a part of two third tones. -/
def raisePair (finals : List CString) : Except Error (List CString) := do
  let flags <- AllToneThree finals
  if flags && decide (finals.length = 2) then raiseHead finals else pure finals

/-- The second part starts with a third tone and the first part ends in one. -/
def raiseEdge (front rear : List CString) : Except Error (List CString) := do
  let first <- toneAt Container.finals_list rear 0
  if first = 51 then do
    let final <- back Container.finals_list front
    let last <- back Container.final final
    if last = 51 then setLastTone Container.finals_list front 50 else pure front
  else pure front

/-- Three characters whose tones are not all third. -/
def raiseParts (front rear : List CString) : Except Error (List CString) := do
  let front <- raisePair front
  let flags <- AllToneThree rear
  if flags then do
    let rear <- raisePair rear
    pure (front ++ rear)
  else do
    let front <- raiseEdge front rear
    pure (front ++ rear)

/-- Three characters with the third tone; `n` is the length of the first part. -/
def raiseThree (n : Nat) (finals : List CString) : Except Error (List CString) :=
  if n = 2 then do
    let finals <- setTone Container.finals finals 0 50
    setTone Container.finals finals 1 50
  else if n = 1 then setTone Container.finals finals 1 50
  else pure finals

/-- One half of a word of four characters. -/
def raiseHalf (finals : List CString) : Except Error (List CString) := do
  let flags <- AllToneThree finals
  if flags then raiseHead finals else pure finals

def ThreeSandhi (st : Setup) (word : CString) (finals : List CString) :
    Except Error (List CString) := do
  let wordvec <- Word2WordVec word
  match wordvec.length with
  | 2 => do
      let flags <- AllToneThree finals
      if flags then setTone Container.finals finals 0 50 else pure finals
  | 3 => do
      let word_list <- SplitWord st word
      let flags <- AllToneThree finals
      let first <- elementAt Container.word_list word_list 0
      let first_wstr <- utf8string2wstring first
      if flags then raiseThree first_wstr.length finals
      else do
        let parts <- cutFinals finals first_wstr.length
        raiseParts parts.1 parts.2
  | 4 => do
      let parts <- cutFinals finals 2
      let front <- raiseHalf parts.1
      let rear <- raiseHalf parts.2
      pure (front ++ rear)
  | _ => pure finals

def ModifyTone (st : Setup) (word pos : CString) (finals : List CString) :
    Except Error (List CString) := do
  let finals <- BuSandi word finals
  let finals <- YiSandhi word finals
  let finals <- NeuralSandhi st word pos finals
  ThreeSandhi st word finals

/-!
## 儿
-/

/-- `final.substr(0, length - 1) + "r" + final.substr(length - 1)` -/
def rhotic (final : CString) : Except Error CString :=
  match final.getLast? with
  | some tone => Except.ok (final.dropLast ++ str "r" ++ [tone])
  | none => Except.error Error.out_of_range

/-- The condition under which the final at `i` is folded into the one before. -/
def foldsEr (word_wstr : WString) (finals new_finals : List CString) (i : Nat)
    (final : CString) : Except Error Bool :=
  if i + 1 = finals.length ∧ word_wstr[i]? = some 20799 ∧
      (final = str "er2" ∨ final = str "er5") ∧ 2 ≤ word_wstr.length then do
    let tail <- lastTwo word_wstr
    pure (decide (tail ∉ not_erhua ∧ new_finals ≠ []))
  else pure false

/-- One round of `MergeErhua` with the pair `(new_initials, new_finals)`. -/
def erhuaStep (word_wstr : WString) (initials finals : List CString)
    (acc : List CString × List CString) (i : Nat) :
    Except Error (List CString × List CString) := do
  let final <- elementAt Container.finals finals i
  let folds <- foldsEr word_wstr finals acc.2 i final
  if folds then do
    let last <- back Container.finals acc.2
    let last <- rhotic last
    pure (acc.1, acc.2.dropLast ++ [last])
  else do
    let initial <- elementAt Container.initials initials i
    pure (acc.1 ++ [initial], acc.2 ++ [final])

def MergeErhua (initials finals : List CString) (word pos : CString) :
    Except Error (List CString × List CString) := do
  let word_wstr <- utf8string2wstring word
  if word ∉ must_erhua ∧ (word ∈ not_erhua ∨ pos ∈ ["a", "j", "nr"].map str) then
    pure (initials, finals)
  else if finals.length ≠ word_wstr.length then pure (initials, finals)
  else (List.range finals.length).foldlM (erhuaStep word_wstr initials finals) ([], [])

end FrontEngineInterface
end VoiceTts
