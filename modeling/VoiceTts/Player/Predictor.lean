import Mathlib.Algebra.Order.Field.Rat

/-!
# The acoustic models and the audio track

`Predictor` holds the two models, the switch that says that they are loaded,
and the waveform of the last segment; `SpeakText` sends the segments of a text
through the models and writes the waveforms to the audio track.  Samples are
exact rational numbers here, and the models are arbitrary functions.
-/

namespace VoiceTts

/-- The characters of a Java string. -/
abbrev JString : Type :=
  List Char

inductive PowerMode where
  | LITE_POWER_HIGH
  | LITE_POWER_LOW
  | LITE_POWER_FULL
  | LITE_POWER_NO_BIND
  | LITE_POWER_RAND_HIGH
  | LITE_POWER_RAND_LOW
deriving DecidableEq

/-- The lower case of a character that is the same as an ASCII letter but for case. -/
def foldCase (c : Char) : Char :=
  if c = 'ı' ∨ c = 'İ' then 'i'
  else if c = 'ſ' then 's'
  else if c = Char.ofNat 0x212A then 'k'
  else c.toLower

def equalsIgnoreCase (s t : JString) : Bool :=
  s.map foldCase == t.map foldCase

def powerModeOf (cpuPowerMode : JString) : Option PowerMode :=
  if equalsIgnoreCase cpuPowerMode "LITE_POWER_HIGH".toList then
    some PowerMode.LITE_POWER_HIGH
  else if equalsIgnoreCase cpuPowerMode "LITE_POWER_LOW".toList then
    some PowerMode.LITE_POWER_LOW
  else if equalsIgnoreCase cpuPowerMode "LITE_POWER_FULL".toList then
    some PowerMode.LITE_POWER_FULL
  else if equalsIgnoreCase cpuPowerMode "LITE_POWER_NO_BIND".toList then
    some PowerMode.LITE_POWER_NO_BIND
  else if equalsIgnoreCase cpuPowerMode "LITE_POWER_RAND_HIGH".toList then
    some PowerMode.LITE_POWER_RAND_HIGH
  else if equalsIgnoreCase cpuPowerMode "LITE_POWER_RAND_LOW".toList then
    some PowerMode.LITE_POWER_RAND_LOW
  else none

/-- From phone ids and speaker ids to a spectrogram. -/
abbrev AcousticModel (Mel : Type) : Type :=
  List Int -> List Int -> Mel

/-- From a spectrogram to samples. -/
abbrev Vocoder (Mel : Type) : Type :=
  Mel -> List ℚ

/-- `PaddlePredictor.createPaddlePredictor` for the two kinds of models. -/
structure Paddle (Mel : Type) where
  acoustic : (file : JString) -> (threads : Int) -> PowerMode ->
    Option (AcousticModel Mel)
  vocoder : (file : JString) -> (threads : Int) -> PowerMode -> Option (Vocoder Mel)

/-- The arguments of `Predictor.init`. -/
structure Request where
  cacheDir : JString
  modelPath : JString
  AMmodelName : JString
  VOCmodelName : JString
  cpuThreadNum : Int
  cpuPowerMode : JString
  speakId : Int

structure Predictor (Mel : Type) where
  isLoaded : Bool
  cpuThreadNum : Int
  speakId : Int
  cpuPowerMode : JString
  modelPath : JString
  AMPredictor : Option (AcousticModel Mel)
  VOCPredictor : Option (Vocoder Mel)
  singlewav : Option (List ℚ)
  maxwav : ℚ
  sleeptime : Int

namespace Predictor

variable {Mel : Type}

def new : Predictor Mel where
  isLoaded := false
  cpuThreadNum := 1
  speakId := 174
  cpuPowerMode := "LITE_POWER_HIGH".toList
  modelPath := []
  AMPredictor := none
  VOCPredictor := none
  singlewav := none
  maxwav := 1 / 100
  sleeptime := 0

def releaseModel (p : Predictor Mel) : Predictor Mel :=
  { p with
    AMPredictor := none
    VOCPredictor := none
    isLoaded := false
    cpuThreadNum := 1
    cpuPowerMode := "LITE_POWER_HIGH".toList
    modelPath := []
    speakId := 174 }

/-- Assets are copied to the cache where the path is not absolute. -/
def loadModel {α : Type} (create : JString -> Int -> PowerMode -> Option α)
    (r : Request) (modelName : JString) : Option α :=
  match r.modelPath with
  | [] => none
  | c :: rest =>
      let realPath := if c ≠ '/' then r.cacheDir ++ '/' :: c :: rest else c :: rest
      match powerModeOf r.cpuPowerMode with
      | none => none
      | some mode => create (realPath ++ '/' :: modelName) r.cpuThreadNum mode

def init (paddle : Paddle Mel) (r : Request) (p : Predictor Mel) :
    Bool × Predictor Mel :=
  let p := { p.releaseModel with speakId := r.speakId }
  let p := { p with AMPredictor := loadModel paddle.acoustic r r.AMmodelName }
  if p.AMPredictor.isNone then (false, p)
  else
    let p := { p with VOCPredictor := loadModel paddle.vocoder r r.VOCmodelName }
    if p.VOCPredictor.isNone then (false, p)
    else (true, { p with isLoaded := true })

/-- The method `isLoaded`, with what it makes sure of. -/
def loaded (p : Predictor Mel) : Option (AcousticModel Mel × Vocoder Mel) :=
  match p.AMPredictor, p.VOCPredictor with
  | some am, some voc => if p.isLoaded then some (am, voc) else none
  | _, _ => none

/-- The loop that keeps the largest absolute value so far. -/
def raiseMax (maxwav : ℚ) (wav : List ℚ) : ℚ :=
  wav.foldl (fun m x =>
    let value := if x < 0 then -1 * x else x
    if value > m then value else m) maxwav

def runSegmentModel (phones : List Int) (p : Predictor Mel) :
    Bool × Predictor Mel :=
  match p.loaded with
  | none => (false, p)
  | some (am, voc) =>
      let wav := voc (am phones [p.speakId])
      (true, { p with
        sleeptime := 0
        singlewav := some wav
        maxwav := raiseMax p.maxwav wav })

end Predictor

/-!
## Samples as bytes
-/

/-- The cast of a floating point number to `short`. -/
def toShort (x : ℚ) : Int :=
  let i := max (-2147483648) (min 2147483647 (x.num.tdiv x.den))
  (i + 32768) % 65536 - 32768

def writeShort (value : Int) : List UInt8 :=
  [UInt8.ofNat (value % 256).toNat, UInt8.ofNat (value / 256 % 256).toNat]

def segToByte (data : List ℚ) (mmax : ℚ) : List UInt8 :=
  data.flatMap fun x => writeShort (toShort (x * (32767 / mmax)))

/-!
## The segments of a text
-/

/-- `trim` removes blanks and control characters at both ends. -/
def trim (s : JString) : JString :=
  let blank := fun c : Char => decide (c.val.toNat ≤ 32)
  ((s.dropWhile blank).reverse.dropWhile blank).reverse

def charSplit : JString :=
  "[：；。？！,;?!]《》（）()、#".toList

/-- The segments that are spoken; empty ones are skipped. -/
def segmentText (text : JString) : List JString :=
  let content := text.filter fun c => decide (c ≠ '\n' ∧ c ≠ '\r')
  let content := content.map fun c => if c ∈ charSplit then '，' else c
  ((content.splitOn '，').map trim).filter fun s => decide (s ≠ [])

/--
The array `ft`: the ids of `getPhoneIds`, which arrive as text between commas,
and `277` behind them; no ids at all are read as one empty number.
-/
def segmentPhones (ids : List Int) : List Int :=
  (if ids = [] then [277] else ids) ++ [277]

end VoiceTts
