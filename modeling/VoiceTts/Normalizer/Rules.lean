import VoiceTts.Normalizer.Numbers
import VoiceTts.Lib.Rewrite

/-!
# The rewrite rules of the normaliser

Each member function `Re…` of `TextNormalizer` is a loop that searches the
sentence for a pattern and replaces what it found by its reading.  A rule is
given by its pattern, the group whose span is replaced, and the body of the loop;
`g n` stands for `match[n]`.  `SentenceNormalize` runs the rules in order.
-/

namespace VoiceTts
namespace TextNormalizer

open Regex

/-!
## The vocabulary of the patterns
-/

/-- The characters that `\d` matches. -/
def isDigit (c : UInt32) : Bool :=
  decide (48 ≤ c.toNat ∧ c.toNat ≤ 57)

def digit : Regex UInt32 :=
  set isDigit

/-- The characters from `a` to `b`. -/
def range (a b : Char) : Regex UInt32 :=
  set fun c => decide (a.val ≤ c ∧ c ≤ b.val)

/-- The characters from `a` to `b` and from `c` to `d`. -/
def ranges (a b c d : Char) : Regex UInt32 :=
  set fun x => decide ((a.val ≤ x ∧ x ≤ b.val) ∨ (c.val ≤ x ∧ x ≤ d.val))

/-- One of the listed characters. -/
def cls (s : String) : Regex UInt32 :=
  set fun c => decide (c ∈ wstr s)

def lit (s : String) : Regex UInt32 :=
  word (wstr s)

/-- An alternative for each character of the string. -/
def singles (s : String) : List (Regex UInt32) :=
  s.toList.map fun c => chr c.val

/-- The loop `while (std::regex_search(sentence, match, reg))`. -/
def replaceAll {κ : Type} (rule : Rule NormM κ UInt32) (k : κ)
    (sentence : WString) : NormM WString :=
  rule.rewriteLoop sentence.length k sentence

/-- `match[n] == L"-" ? sign = "负" : sign = ""` -/
def signText (w : WString) : CString :=
  if w = wstr "-" then str "负" else []

/-- `front()` of a string; an empty one shows its terminator. -/
def front (s : CString) : UInt8 :=
  s.headD 0

/-- The end of a round: the replacement goes back into the wide sentence. -/
def replacement {κ : Type} (k : κ) (rep : CString) : NormM (κ × WString) := do
  let rep <- Prog.lift (utf8string2wstring rep)
  pure (k, rep)

/-!
## Dates and times
-/

/-- `(\d{4}|\d{2})年((0?[1-9]|1[0-2])月)?(((0?[1-9])|((1|2)[0-9])|30|31)([日号]))?` -/
def dataPattern : Regex UInt32 :=
  cat (group 1 (alt (times 4 digit) (times 2 digit)))
    [lit "年",
      opt (group 2
        (seq
          (group 3
            (alt (seq (opt (lit "0")) (range '1' '9'))
              (seq (lit "1") (range '0' '2'))))
          (lit "月"))),
      opt (group 4
        (seq
          (group 5
            (anyOf (group 6 (seq (opt (lit "0")) (range '1' '9')))
              [group 7 (seq (group 8 (alt (lit "1") (lit "2"))) (range '0' '9')),
                lit "30", lit "31"]))
          (group 9 (cls "日号"))))]

/-- `if(match[3] != L"")` -/
def addMonth (rep : CString) (month : WString) : NormM CString :=
  if month ≠ [] then do
    let text <- MultiDigit2TextW month false false
    pure (rep ++ (text ++ str "月"))
  else pure rep

/-- `if(match[5] != L"")` -/
def addDay (rep : CString) (day unit : WString) : NormM CString :=
  if day ≠ [] then do
    let text <- MultiDigit2TextW day false false
    let unit <- Prog.lift (wstring2utf8string unit)
    pure (rep ++ (text ++ unit))
  else pure rep

def dataRule : Rule NormM Unit UInt32 where
  pattern := dataPattern
  span := 0
  body := fun k g => do
    let year <- SingleDigit2TextW (g 1) false
    let rep <- addMonth (year ++ str "年") (g 3)
    let rep <- addDay rep (g 5) (g 9)
    replacement k rep

def ReData : WString -> NormM WString :=
  replaceAll dataRule ()

/-- `(\d{4})([- /.])(0[1-9]|1[012])\2(0[1-9]|[12][0-9]|3[01])` -/
def data2Pattern : Regex UInt32 :=
  cat (group 1 (times 4 digit))
    [group 2 (cls "- /."),
      group 3 (alt (seq (lit "0") (range '1' '9')) (seq (lit "1") (cls "012"))),
      backref 2,
      group 4
        (anyOf (seq (lit "0") (range '1' '9'))
          [seq (cls "12") (range '0' '9'), seq (lit "3") (cls "01")])]

def data2Rule : Rule NormM Unit UInt32 where
  pattern := data2Pattern
  span := 0
  body := fun k g => do
    let year <- SingleDigit2TextW (g 1) false
    let month <- MultiDigit2TextW (g 3) false false
    let day <- MultiDigit2TextW (g 4) false false
    replacement k
      ((year ++ str "年") ++ (month ++ str "月") ++ (day ++ str "日"))

def ReData2 : WString -> NormM WString :=
  replaceAll data2Rule ()

/-- `([0-1]?[0-9]|2[0-3]):([0-5][0-9])(:([0-5][0-9]))?` -/
def timePattern : Regex UInt32 :=
  cat
    (group 1
      (alt (seq (opt (range '0' '1')) (range '0' '9'))
        (seq (lit "2") (range '0' '3'))))
    [lit ":", group 2 (seq (range '0' '5') (range '0' '9')),
      opt (group 3
        (seq (lit ":") (group 4 (seq (range '0' '5') (range '0' '9')))))]

/-- The extra zero before a minute or a second that is written with one. -/
def zeroText (s : CString) : CString :=
  if front s = 48 then str "零" else []

def timeRule : Rule NormM Unit UInt32 where
  pattern := timePattern
  span := 0
  body := fun k g => do
    let hour <- MultiDigit2TextW (g 1) false false
    let minute_str <- Prog.lift (wstring2utf8string (g 2))
    let minute <- MultiDigit2TextW (g 2) false true
    let second_str <- Prog.lift (wstring2utf8string (g 4))
    let second <- MultiDigit2TextW (g 4) false true
    replacement k
      ((hour ++ str "点") ++ zeroText minute_str ++ (minute ++ str "分") ++
        zeroText second_str ++ (second ++ str "秒"))

def ReTime : WString -> NormM WString :=
  replaceAll timeRule ()

/-!
## Temperatures, fractions and percentages
-/

/-- `\d+(\.\d+)?` with the number of its group. -/
def decimal (n : Nat) : Regex UInt32 :=
  seq (plus digit) (opt (group n (seq (lit ".") (plus digit))))

/-- `(-?)(\d+(\.\d+)?)(°C|℃|度|摄氏度)` -/
def temperaturePattern : Regex UInt32 :=
  cat (group 1 (opt (lit "-")))
    [group 2 (decimal 3),
      group 4 (anyOf (lit "°C") [lit "℃", lit "度", lit "摄氏度"])]

def temperatureRule : Rule NormM Unit UInt32 where
  pattern := temperaturePattern
  span := 0
  body := fun k g => do
    let unit := if g 4 = wstr "摄氏度" then str "摄氏度" else str "度"
    let number <- Digits2TextW (g 2)
    replacement k (signText (g 1) ++ number ++ unit)

def ReTemperature : WString -> NormM WString :=
  replaceAll temperatureRule ()

/-- `(-?)(\d+)/(\d+)` -/
def fracPattern : Regex UInt32 :=
  cat (group 1 (opt (lit "-")))
    [group 2 (plus digit), lit "/", group 3 (plus digit)]

def fracRule : Rule NormM Unit UInt32 where
  pattern := fracPattern
  span := 0
  body := fun k g => do
    let denominator <- MultiDigit2TextW (g 3) false true
    let numerator <- MultiDigit2TextW (g 2) false true
    replacement k (signText (g 1) ++ denominator ++ str "分之" ++ numerator)

def ReFrac : WString -> NormM WString :=
  replaceAll fracRule ()

/-- `(-?)(\d+(\.\d+)?)%` -/
def percentagePattern : Regex UInt32 :=
  cat (group 1 (opt (lit "-"))) [group 2 (decimal 3), lit "%"]

def percentageRule : Rule NormM Unit UInt32 where
  pattern := percentagePattern
  span := 0
  body := fun k g => do
    let number <- Digits2TextW (g 2)
    replacement k (signText (g 1) ++ str "百分之" ++ number)

def RePercentage : WString -> NormM WString :=
  replaceAll percentageRule ()

/-!
## Telephone numbers
-/

/-- The loop that reads the parts of a number one after the other. -/
def readParts (rep : CString) : List CString -> NormM CString
  | [] => pure rep
  | part :: parts => do
      let text <- SingleDigit2Text part true
      readParts (rep ++ text) parts

/--
The common body of the two rules.  The list of parts lives outside the loop and
`Stringsplit` appends to it.
-/
def phoneBody (parts : List CString) (g : Nat -> WString) :
    NormM (List CString × WString) := do
  let text <- Prog.lift (wstring2utf8string (g 0))
  let parts := parts ++ Stringsplit text 43
  let rep <- readParts [] parts
  replacement parts rep

/-- `(\d)?((\+?86 ?)?1([38]\d|5[0-35-9]|7[678]|9[89])\d{8})(\d)?` -/
def mobilePhonePattern : Regex UInt32 :=
  cat (opt (group 1 digit))
    [group 2
      (cat (opt (group 3 (cat (opt (lit "+")) [lit "86", opt (lit " ")])))
        [lit "1",
          group 4
            (anyOf (seq (cls "38") digit)
              [seq (lit "5") (ranges '0' '3' '5' '9'),
                seq (lit "7") (cls "678"), seq (lit "9") (cls "89")]),
          times 8 digit]),
      opt (group 5 digit)]

def mobilePhoneRule : Rule NormM (List CString) UInt32 where
  pattern := mobilePhonePattern
  span := 0
  body := phoneBody

def ReMobilePhone : WString -> NormM WString :=
  replaceAll mobilePhoneRule []

/-- `(\d)?((0(10|2[1-3]|[3-9]\d{2})-?)?[1-9]\d{6,7})(\d)?` -/
def phonePattern : Regex UInt32 :=
  cat (opt (group 1 digit))
    [group 2
      (cat
        (opt (group 3
          (cat (lit "0")
            [group 4
              (anyOf (lit "10")
                [seq (lit "2") (range '1' '3'),
                  seq (range '3' '9') (times 2 digit)]),
              opt (lit "-")])))
        [range '1' '9', times 6 digit, opt digit]),
      opt (group 5 digit)]

def phoneRule : Rule NormM (List CString) UInt32 where
  pattern := phonePattern
  span := 0
  body := phoneBody

def RePhone : WString -> NormM WString :=
  replaceAll phoneRule []

/-!
## Ranges, signed and decimal numbers
-/

/-- `(-?)((\d+)(\.\d+)?)|(\.(\d+))`, its groups counted from `n`. -/
def numberAlternatives (n : Nat) : Regex UInt32 :=
  alt
    (seq (group n (opt (lit "-")))
      (group (n + 1)
        (seq (group (n + 2) (plus digit))
          (opt (group (n + 3) (seq (lit ".") (plus digit)))))))
    (group (n + 4) (seq (lit ".") (group (n + 5) (plus digit))))

/-- The body shared by the rules for numbers with groups counted from `n`. -/
def numberText (n : Nat) (g : Nat -> WString) : NormM CString := do
  let number <- Digits2TextW (if g (n + 4) ≠ [] then g (n + 4) else g (n + 1))
  pure (signText (g n) ++ number)

/-- `((-?)((\d+)(\.\d+)?)|(\.(\d+)))[-~]((-?)((\d+)(\.\d+)?)|(\.(\d+)))` -/
def rangePattern : Regex UInt32 :=
  cat (group 1 (numberAlternatives 2))
    [cls "-~", group 8 (numberAlternatives 9)]

def rangeRule : Rule NormM Unit UInt32 where
  pattern := rangePattern
  span := 0
  body := fun k g => do
    let first <- numberText 2 g
    let second <- numberText 9 g
    replacement k ((first ++ str "到") ++ second)

def ReRange : WString -> NormM WString :=
  replaceAll rangeRule ()

/-- `(-)(\d+)` -/
def intergerPattern : Regex UInt32 :=
  seq (group 1 (lit "-")) (group 2 (plus digit))

def intergerRule : Rule NormM Unit UInt32 where
  pattern := intergerPattern
  span := 0
  body := fun k g => do
    let number <- MultiDigit2TextW (g 2) false true
    replacement k (str "负" ++ number)

def ReInterger : WString -> NormM WString :=
  replaceAll intergerRule ()

/-- `(-?)((\d+)(\.\d+))|(\.(\d+))` -/
def decimalNumPattern : Regex UInt32 :=
  alt
    (seq (group 1 (opt (lit "-")))
      (group 2
        (seq (group 3 (plus digit)) (group 4 (seq (lit ".") (plus digit))))))
    (group 5 (seq (lit ".") (group 6 (plus digit))))

def decimalNumRule : Rule NormM Unit UInt32 where
  pattern := decimalNumPattern
  span := 0
  body := fun k g => do
    let rep <- numberText 1 g
    replacement k rep

def ReDecimalNum : WString -> NormM WString :=
  replaceAll decimalNumRule ()

/-!
## Quantities, codes and the remaining numbers
-/

/-- A group of alternatives followed by a common word. -/
def grouped (n : Nat) (first : String) (others : List String) (tail : String) :
    Regex UInt32 :=
  seq (group n (anyOf (lit first) (others.map lit))) (lit tail)

/--
The measure words.  The literal goes over several source lines, so that the
first alternative of each further line carries the blanks of the line break.
-/
def common_quantifiers : Regex UInt32 :=
  group 3
    (anyOf (lit "朵")
      (singles "匹张座回场尾条个首阙阵网炮顶丘棵只支袭辆挑担颗壳窠曲" ++
        [lit "     墙"] ++
        singles "群腔砣座客贯扎捆刀令打手罗坡山岭江溪钟队单双对出口头脚板跳枝件贴针线管名位身堂" ++
        [lit "     课"] ++
        singles "本页家户层丝毫厘分钱两斤担铢石钧锱忽" ++
        [grouped 4 "千" ["毫", "微"] "克"] ++
        singles "毫厘" ++
        [grouped 5 "公" [] "分"] ++
        singles "分寸尺丈里寻常铺程" ++
        [grouped 6 "千" ["分", "厘", "     毫", "微"] "米"] ++
        singles "米撮勺合升斗石盘碗碟叠桶笼盆盒杯钟斛锅簋篮盘桶罐瓶壶卮盏箩箱煲啖袋钵年月日" ++
        [lit "     季"] ++
        singles "刻时周天秒分旬纪岁世更夜春夏秋冬代伏辈丸泡粒颗幢堆条根支道面片张颗块元" ++
        [group 7 (anyOf (lit "亿")
            (["千万", "百万", "     万", "千", "百"].map lit)),
          grouped 8 "亿" ["千万", "百万", "万", "千", "百", "美", ""] "元",
          grouped 9 "亿" ["千万", "百万", "万", "千", "百", ""] "块"] ++
        singles "角毛分"))

/-- `(\d+)([多余几])?` and a measure word. -/
def positiveQuantifiersPattern : Regex UInt32 :=
  cat (group 1 (plus digit)) [opt (group 2 (cls "多余几")), common_quantifiers]

/-- Only the digits are replaced. -/
def positiveQuantifiersRule : Rule NormM Unit UInt32 where
  pattern := positiveQuantifiersPattern
  span := 1
  body := fun k g => do
    let rep <- MultiDigit2TextW (g 1) false true
    replacement k rep

def RePositiveQuantifiers : WString -> NormM WString :=
  replaceAll positiveQuantifiersRule ()

/-- `\d{3}\d*` -/
def defalutNumPattern : Regex UInt32 :=
  seq (times 3 digit) (star digit)

def defalutNumRule : Rule NormM Unit UInt32 where
  pattern := defalutNumPattern
  span := 0
  body := fun k g => do
    let rep <- SingleDigit2TextW (g 0) false
    replacement k rep

def ReDefalutNum : WString -> NormM WString :=
  replaceAll defalutNumRule ()

/-- `(-?)((\d+)(\.\d+)?)|(\.(\d+))` -/
def numberPattern : Regex UInt32 :=
  numberAlternatives 1

def numberRule : Rule NormM Unit UInt32 where
  pattern := numberPattern
  span := 0
  body := fun k g => do
    let rep <- numberText 1 g
    replacement k rep

def ReNumber : WString -> NormM WString :=
  replaceAll numberRule ()

/-!
## The whole normaliser
-/

def SentenceNormalize (sentence : WString) : NormM WString := do
  let sentence <- ReData sentence
  let sentence <- ReData2 sentence
  let sentence <- ReTime sentence
  let sentence <- ReTemperature sentence
  let sentence <- ReFrac sentence
  let sentence <- RePercentage sentence
  let sentence <- ReMobilePhone sentence
  let sentence <- RePhone sentence
  let sentence <- ReRange sentence
  let sentence <- ReInterger sentence
  let sentence <- ReDecimalNum sentence
  let sentence <- RePositiveQuantifiers sentence
  let sentence <- ReDefalutNum sentence
  ReNumber sentence

/-- `[：，；。？！,;?!]` -/
def puncPattern : Regex UInt32 :=
  cls "：，；。？！,;?!"

/-- The loop of `SplitByPunc`; each round takes a part off the front of `temp`. -/
def splitByPunc : Nat -> WString -> List WString -> List WString
  | 0, temp, sentence_part =>
      if temp ≠ [] then sentence_part ++ [temp] else sentence_part
  | n + 1, temp, sentence_part =>
      match puncPattern.search temp with
      | some mt =>
          let len := mt.position 0 + mt.length 0
          splitByPunc n (splice temp 0 len []) (sentence_part ++ [temp.take len])
      | none => if temp ≠ [] then sentence_part ++ [temp] else sentence_part

def SplitByPunc (sentence : WString) : List WString :=
  splitByPunc sentence.length sentence []

end TextNormalizer
end VoiceTts
