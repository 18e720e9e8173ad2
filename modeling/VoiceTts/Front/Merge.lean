import VoiceTts.Front.Engine

/-!
# Merging the words of a segmentation

The six passes of `MergeforModify`.  Each of them walks over a list of words with
their tags and joins some words to their neighbours.  The passes that ask for
the tones of a word take the lookup as a parameter; the engine uses `GetFinals`.
-/

namespace VoiceTts
namespace FrontEngineInterface

/-- A segmentation: words with their tags. -/
abbrev Seg : Type :=
  List (CString × CString)

/-!
## Words that join by their text
-/

/-- One round of `MergeBu` with the pair `(last_word, result)`. -/
def mergeBuStep (acc : CString × Seg) (t : CString × CString) : CString × Seg :=
  let word := if acc.1 = str "不" then acc.1 ++ t.1 else t.1
  (word, if word ≠ str "不" then acc.2 ++ [(word, t.2)] else acc.2)

def MergeBu (seg_result : Seg) : Seg :=
  let r := seg_result.foldl mergeBuStep ([], [])
  if r.1 = str "不" then r.2 ++ [(r.1, str "d")] else r.2

/-- The first condition of `Mergeyi`: 一 between two equal verbs. -/
def yiBetween (seg_result : Seg) (word : CString) (i : Nat) : Except Error Bool :=
  if 1 ≤ i ∧ word = str "一" ∧ i + 1 < seg_result.length then do
    let p <- elementAt Container.seg_result seg_result (i - 1)
    let n <- elementAt Container.seg_result seg_result (i + 1)
    pure (decide (p.1 = n.1 ∧ p.2 = str "v"))
  else pure false

/-- The second condition of `Mergeyi`: a verb behind 一 and the same verb. -/
def yiRepeated (seg_result : Seg) (t : CString × CString) (i : Nat) :
    Except Error Bool :=
  if 2 ≤ i then do
    let m <- elementAt Container.seg_result seg_result (i - 1)
    let p <- elementAt Container.seg_result seg_result (i - 2)
    pure (decide (m.1 = str "一" ∧ p.1 = t.1 ∧ t.2 = str "v"))
  else pure false

def mergeyiStep (seg_result result_temp : Seg) (i : Nat) : Except Error Seg := do
  let t <- elementAt Container.seg_result seg_result i
  let between <- yiBetween seg_result t.1 i
  if between then do
    let p <- elementAt Container.result_temp result_temp (i - 1)
    pure (result_temp.set (i - 1) (p.1 ++ str "一" ++ p.1, p.2))
  else do
    let repeated <- yiRepeated seg_result t i
    pure (if repeated then result_temp else result_temp ++ [t])

/-- Append a word to the last one of `result`, or push it. -/
def joinOrPush (join : CString × CString -> CString × CString -> Bool)
    (result : Seg) (t : CString × CString) : Seg :=
  match result.getLast? with
  | some b =>
      if join b t then result.dropLast ++ [(b.1 ++ t.1, b.2)] else result ++ [t]
  | none => result ++ [t]

def Mergeyi (seg_result : Seg) : Except Error Seg := do
  let result_temp <-
    (List.range seg_result.length).foldlM (mergeyiStep seg_result) []
  pure (result_temp.foldl (joinOrPush fun b _ => decide (b.1 = str "一")) [])

def MergeReduplication (seg_result : Seg) : Seg :=
  seg_result.foldl (joinOrPush fun b t => decide (t.1 = b.1)) []

def mergeErStep (seg_result result : Seg) (i : Nat) : Except Error Seg := do
  let t <- elementAt Container.seg_result seg_result i
  if 1 ≤ i ∧ t.1 = str "儿" then do
    let b <- back Container.result result
    pure (result.dropLast ++ [(b.1 ++ t.1, b.2)])
  else pure (result ++ [t])

def MergeEr (seg_result : Seg) : Except Error Seg :=
  (List.range seg_result.length).foldlM (mergeErStep seg_result) []

/-!
## Words that join by their tones

`MergeThreeTones` and `MergeThreeTones2` differ in the question they ask about
the finals of two neighbours only.
-/

/-- Both words have the third tone throughout. -/
def bothToneThree (f g : List CString) : Except Error Bool := do
  let flags <- AllToneThree f
  if flags then AllToneThree g else pure false

/-- The last character of one word and the first of the next have the third tone. -/
def edgeToneThree (f g : List CString) : Except Error Bool :=
  match f.getLast? with
  | none => pure false
  | some last => do
      let c <- back Container.final last
      if c = 51 then
        match g.head? with
        | none => pure false
        | some first => do
            let d <- back Container.final first
            pure (decide (d = 51))
      else pure false

/-- The previous word is no reduplication and both words fit into three characters. -/
def fitsThree (prev word : CString) : Except Error Bool := do
  let twice <- IsReduplication prev
  if twice then pure false
  else do
    let u <- utf8string2wstring prev
    let v <- utf8string2wstring word
    pure (decide (u.length + v.length ≤ 3))

/-- The condition under which the word at `i` joins the one before it. -/
def joinsThree (tones : List CString -> List CString -> Except Error Bool)
    (seg_result : Seg) (finals : List (List CString)) (merge_last : List Bool)
    (t : CString × CString) (i : Nat) : Except Error Bool :=
  if t.2 = str "x" ∧ t.1 ≠ str " " ∧ 1 ≤ i then do
    let f <- elementAt Container.finals_rows finals (i - 1)
    let g <- elementAt Container.finals_rows finals i
    let three <- tones f g
    let merged <- elementAt Container.merge_last merge_last (i - 1)
    let p <- elementAt Container.seg_result seg_result (i - 1)
    if three && !merged then fitsThree p.1 t.1 else pure false
  else pure false

/-- One round of the second loop, with the pair `(result, merge_last)`. -/
def threeStep (tones : List CString -> List CString -> Except Error Bool)
    (seg_result : Seg) (finals : List (List CString)) (acc : Seg × List Bool)
    (i : Nat) : Except Error (Seg × List Bool) := do
  let t <- elementAt Container.seg_result seg_result i
  let joins <- joinsThree tones seg_result finals acc.2 t i
  if joins then do
    let b <- back Container.result acc.1
    pure (acc.1.dropLast ++ [(b.1 ++ t.1, b.2)], acc.2.set i true)
  else pure (acc.1 ++ [t], acc.2)

section Lookup

variable {σ : Type} (getFinals : CString -> Prog Error σ (List CString))

/-- The finals of one word; quotation marks and Latin words have none. -/
def finalsRow (t : CString × CString) : Prog Error σ (List CString) :=
  if t.2 = str "x" ∧ t.1 ≠ str " " ∧ t.1 ∉ _punc_omit then getFinals t.1
  else pure []

def finalsRows : Seg -> Prog Error σ (List (List CString))
  | [] => pure []
  | t :: seg_result => do
      let word_final <- finalsRow getFinals t
      let finals <- finalsRows seg_result
      pure (word_final :: finals)

/-- The common body of the two passes; a last punctuation mark is held back. -/
def mergeThree (tones : List CString -> List CString -> Except Error Bool)
    (seg_result : Seg) : Prog Error σ Seg := do
  let last <- Prog.lift (back Container.seg_result seg_result)
  let word_num :=
    if last.1 ∈ _punc then seg_result.length - 1 else seg_result.length
  let finals <- finalsRows getFinals (seg_result.take word_num)
  let r <- Prog.lift ((List.range word_num).foldlM
    (threeStep tones seg_result finals)
    ([], List.replicate seg_result.length false))
  pure (if word_num < seg_result.length then r.1 ++ [last] else r.1)

def MergeThreeTones : Seg -> Prog Error σ Seg :=
  mergeThree getFinals bothToneThree

def MergeThreeTones2 : Seg -> Prog Error σ Seg :=
  mergeThree getFinals edgeToneThree

def MergeforModify (seg_word_type : Seg) : Prog Error σ Seg := do
  let merged <- Prog.lift (Mergeyi (MergeBu seg_word_type))
  let merged <- MergeThreeTones getFinals (MergeReduplication merged)
  let merged <- MergeThreeTones2 getFinals merged
  Prog.lift (MergeEr merged)

end Lookup

end FrontEngineInterface
end VoiceTts
