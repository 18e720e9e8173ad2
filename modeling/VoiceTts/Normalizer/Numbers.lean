import VoiceTts.Base.Strings
import VoiceTts.Lib.Prog
import VoiceTts.Lib.StdMap

/-!
# Reading numbers aloud

The part of `TextNormalizer` that turns digit strings into Chinese text.  Its
two maps are ordinary members of the object: every call reads them with the
subscript operator, and each reader overwrites the entry of `1` before it reads.
-/

namespace VoiceTts

structure TextNormalizer where
  digits_map : StdMap CString CString
  units_map : StdMap Int CString

abbrev NormM (α : Type) : Type :=
  Prog Error TextNormalizer α

namespace TextNormalizer

def InitMap (n : TextNormalizer) : TextNormalizer where
  digits_map :=
    n.digits_map.insertAll
      [(str "0", str "零"), (str "1", str "一"), (str "2", str "二"),
        (str "3", str "三"), (str "4", str "四"), (str "5", str "五"),
        (str "6", str "六"), (str "7", str "七"), (str "8", str "八"),
        (str "9", str "九")]
  units_map :=
    n.units_map.insertAll
      [(1, str "十"), (2, str "百"), (3, str "千"), (4, str "万"), (8, str "亿")]

def construct : TextNormalizer :=
  InitMap ⟨StdMap.empty, StdMap.empty⟩

/-- `digits_map[key]`, which inserts the key when it is missing. -/
def digitsAt (key : CString) : NormM CString :=
  fun n =>
    (Except.ok (n.digits_map.peek key),
      { n with digits_map := n.digits_map.touch key })

def unitsAt (key : Int) : NormM CString :=
  fun n =>
    (Except.ok (n.units_map.peek key),
      { n with units_map := n.units_map.touch key })

/-- The text for `1`: the second one is used for telephone numbers. -/
def oneText (alt_one : Bool) : CString :=
  if alt_one then str "幺" else str "一"

def setOne (alt_one : Bool) : NormM Unit :=
  Prog.modify fun n =>
    { n with digits_map := n.digits_map.insert (str "1") (oneText alt_one) }

/-!
## Numbers as a whole
-/

def largestUnit (len : Nat) : Nat :=
  if 1 < len ∧ len ≤ 2 then 1
  else if 2 < len ∧ len ≤ 3 then 2
  else if 3 < len ∧ len ≤ 4 then 3
  else if 4 < len ∧ len ≤ 8 then 4
  else if 8 < len then 8
  else 0

/--
The recursion of `CreateTextValue`.  Both parts of a number are shorter than
the number, so its length is enough fuel, and a string without fuel is
empty: `stoi` refuses it.
-/
def createTextValue (use_zero : Bool) : Nat -> CString -> NormM CString
  | 0, _ => Prog.fail Error.invalid_argument
  | fuel + 1, num_str => do
      let value <- Prog.lift (stoi num_str)
      let num_lstrip := to_string value
      let len := num_lstrip.length
      if len = 0 then
        pure []
      else if len = 1 then
        if use_zero && decide (len < num_str.length) then do
          let zero <- digitsAt (str "0")
          let digit <- digitsAt num_lstrip
          pure (zero ++ digit)
        else
          digitsAt num_lstrip
      else
        let largest_unit := largestUnit len
        -- `substr` from a position that wrapped around
        if num_str.length < largest_unit then
          Prog.fail Error.out_of_range
        else do
          let first_part := num_str.take (num_str.length - largest_unit)
          let second_part := num_str.drop (num_str.length - largest_unit)
          let first <- createTextValue use_zero fuel first_part
          let unit <- unitsAt largest_unit
          let second <- createTextValue use_zero fuel second_part
          pure (first ++ unit ++ second)

def CreateTextValue (num_str : CString) (use_zero : Bool) : NormM CString :=
  createTextValue use_zero num_str.length num_str

/-- `w[i]`: the position behind the last character holds the terminator. -/
def wcharAt (w : WString) (i : Nat) : Except Error UInt32 :=
  if i ≤ w.length then Except.ok (w.getD i 0)
  else Except.error (Error.access Container.result)

/-- The end of `MultiDigit2Text`, which turns `一十八` into `十八`. -/
def shortenText (text : CString) : NormM CString := do
  let result <- Prog.lift (utf8string2wstring text)
  let result_0 <- Prog.lift (wcharAt result 0)
  let result_1 <- Prog.lift (wcharAt result 1)
  let one <- digitsAt (str "1")
  let one <- Prog.lift (utf8string2wstring one)
  if [result_0] = one then do
    let ten <- unitsAt 1
    let ten <- Prog.lift (utf8string2wstring ten)
    if [result_1] = ten then
      Prog.lift (wstring2utf8string (result.drop 1))
    else
      Prog.lift (wstring2utf8string result)
  else
    Prog.lift (wstring2utf8string result)

def MultiDigit2Text (num_str : CString) (alt_one use_zero : Bool) :
    NormM CString := do
  setOne alt_one
  let text <- CreateTextValue num_str use_zero
  shortenText text

/-!
## Numbers digit by digit, and decimals
-/

/-- The loop of `SingleDigit2Text`; a character without an entry adds nothing. -/
def singleDigits (text : CString) : CString -> NormM CString
  | [] => pure text
  | c :: rest => do
      let digit <- digitsAt [c]
      singleDigits (text ++ digit) rest

def SingleDigit2Text (num_str : CString) (alt_one : Bool) : NormM CString := do
  setOne alt_one
  singleDigits [] num_str

/-- `pop_back` as long as the last character is a zero. -/
def dropTrailingZeros (s : CString) : CString :=
  (s.reverse.dropWhile fun c => decide (c = 48)).reverse

def Digits2Text (num_str : CString) : NormM CString :=
  match Stringsplit num_str 46 with
  | [integer] => MultiDigit2Text integer false true
  | [integer, decimal] => do
      let s := dropTrailingZeros decimal
      if integer = [] then do
        let fraction <- SingleDigit2Text s false
        pure (str "点" ++ fraction)
      else do
        let whole <- MultiDigit2Text integer false true
        let fraction <- SingleDigit2Text s false
        pure (whole ++ str "点" ++ fraction)
  | _ => pure (str "The value does not conform to the numeric format")

/-!
## The same on wide strings
-/

def SingleDigit2TextW (num : WString) (alt_one : Bool) : NormM CString := do
  let num_str <- Prog.lift (wstring2utf8string num)
  SingleDigit2Text num_str alt_one

def MultiDigit2TextW (num : WString) (alt_one use_zero : Bool) :
    NormM CString := do
  let num_str <- Prog.lift (wstring2utf8string num)
  MultiDigit2Text num_str alt_one use_zero

def Digits2TextW (num : WString) : NormM CString := do
  let num_str <- Prog.lift (wstring2utf8string num)
  Digits2Text num_str

end TextNormalizer
end VoiceTts
