import VoiceTts.Front.Engine

/-!
# Loading the dictionaries

`init` reads the configuration with `ReadConfFile` and the dictionaries with
`GenDict` and `GenTDict`.  All of them cut a line at its first separator, and
three of the four ways to cut drop the last byte of the value: they were
written for files whose lines end in a carriage return.
-/

namespace VoiceTts

/-- The files that can be opened, and their bytes. -/
abbrev Files : Type :=
  CString -> Option CString

abbrev Dictionary : Type :=
  StdMap CString CString

/-- What `std::getline` delivers until the end of the file; `line` has been read. -/
def getlines : CString -> CString -> List CString
  | line, [] => if line = [] then [] else [line]
  | line, c :: rest =>
      if c = 10 then line :: getlines [] rest else getlines (line ++ [c]) rest

/-!
## Cutting a line

A `size_t` is given here as the integer nearest to zero that it stands for, so
that arithmetic may wrap around and `npos` is `-1`.
-/

def npos : Int :=
  -1

def find_first_of (s : CString) (c : UInt8) : Int :=
  if c ∈ s then s.idxOf c else npos

/-- The position is never behind the end, where `substr` throws. -/
def substr (s : CString) (pos count : Int) : CString :=
  if count < 0 then s.drop pos.toNat else (s.drop pos.toNat).take count.toNat

namespace FrontEngineInterface

def dictLine (flag : Bool) (map : Dictionary) (line : CString) : Dictionary :=
  let pos := find_first_of line 32
  let key := substr line 0 pos
  let value :=
    if flag then substr line (pos + 1) (line.length - pos - 2)
    else substr line (pos + 1) (line.length - pos)
  map.insert key value

def GenDict (files : Files) (file : CString) (map : Dictionary) (flag : Bool) :
    Int × Dictionary :=
  match files file with
  | none => (-1, map)
  | some bytes => (0, (getlines [] bytes).foldl (dictLine flag) map)

def tabLine (map : Dictionary) (line : CString) : Dictionary :=
  let pos := find_first_of line 9
  let key := substr line 0 pos
  let value := substr line (pos + 1) (line.length - pos - 2)
  map.insert key value

def GenTDict (files : Files) (file : CString) (map : Dictionary) :
    Int × Dictionary :=
  match files file with
  | none => (-1, map)
  | some bytes => (0, (getlines [] bytes).foldl tabLine map)

def confLine (path : CString) (map : Dictionary) (line : CString) : Dictionary :=
  if substr line 0 2 = str "--" then
    let pos := find_first_of line 61
    let key := substr line 2 (pos - 2)
    let value := substr line (pos + 1) (line.length - pos - 2)
    map.insert key (path ++ value)
  else map

/-- The characters of a sentence that are in the table are replaced. -/
def Trand2Simp (trand_simp_map : Dictionary) : WString -> Except Error WString
  | [] => Except.ok []
  | c :: sentence => do
      let sigle_word <- wstring2utf8string [c]
      let simp <-
        if trand_simp_map.contains sigle_word then
          utf8string2wstring (trand_simp_map.peek sigle_word)
        else pure [c]
      let sentence_simp <- Trand2Simp trand_simp_map sentence
      pure (simp ++ sentence_simp)

end FrontEngineInterface

/-!
## Setting up the engine
-/

/-- The members that `ReadConfFile` fills in. -/
structure Configuration where
  _jieba_dict_path : CString
  _jieba_hmm_path : CString
  _jieba_user_dict_path : CString
  _jieba_idf_path : CString
  _jieba_stop_word_path : CString
  _seperate_tone : CString
  _word2phone_path : CString
  _phone2id_path : CString
  _tone2id_path : CString
  _trand2simp_path : CString
  _cmu_path : CString
  _homograph2features_path : CString
  _orderdict_path : CString

/-- The keys with which `ReadConfFile` subscripts `conf_map`, in this order. -/
def Configuration.keys : List CString :=
  [
    "jieba_dict_path", "jieba_hmm_path", "jieba_user_dict_path", "jieba_idf_path",
    "jieba_stop_word_path", "seperate_tone", "word2phone_path", "phone2id_path",
    "tone2id_path", "trand2simpd_path", "cmu_path", "homograph2features_path",
    "orderdict_path"
  ].map str

def Configuration.read (conf_map : Dictionary) : Configuration where
  _jieba_dict_path := conf_map.peek (str "jieba_dict_path")
  _jieba_hmm_path := conf_map.peek (str "jieba_hmm_path")
  _jieba_user_dict_path := conf_map.peek (str "jieba_user_dict_path")
  _jieba_idf_path := conf_map.peek (str "jieba_idf_path")
  _jieba_stop_word_path := conf_map.peek (str "jieba_stop_word_path")
  _seperate_tone := conf_map.peek (str "seperate_tone")
  _word2phone_path := conf_map.peek (str "word2phone_path")
  _phone2id_path := conf_map.peek (str "phone2id_path")
  _tone2id_path := conf_map.peek (str "tone2id_path")
  _trand2simp_path := conf_map.peek (str "trand2simpd_path")
  _cmu_path := conf_map.peek (str "cmu_path")
  _homograph2features_path := conf_map.peek (str "homograph2features_path")
  _orderdict_path := conf_map.peek (str "orderdict_path")

/-- The constructors of the two libraries that `init` calls, and the `std::sort` in use. -/
structure Libraries where
  Jieba : (dict_path hmm_path user_dict_path idf_path stop_word_path : CString) ->
    VoiceTts.Jieba
  G2pEModel : (conf_file word : CString) -> List CString
  order : LongestFirst := LongestFirst.stable

/-- The members of the front engine that `init` works on. -/
structure Members where
  _initialed : Bool
  _conf_file : CString
  conf_map : Dictionary
  conf : Configuration
  _jieba : Jieba
  g2pmodel : CString -> List CString
  order : LongestFirst
  dictionaries : FrontEngineInterface
  trand_simp_map : Dictionary
  homograph2features_map : Dictionary

namespace Members

/-- The members as the constructor leaves them to `init`. -/
def fresh (conf : CString) : Members where
  _initialed := false
  _conf_file := conf
  conf_map := StdMap.empty
  conf := Configuration.read StdMap.empty
  -- both pointers are null until `init` has read the configuration
  _jieba := ⟨fun _ => [], fun _ => [], fun _ => []⟩
  g2pmodel := fun _ => []
  order := LongestFirst.stable
  dictionaries :=
    ⟨StdMap.empty, StdMap.empty, StdMap.empty, StdMap.empty, StdMap.empty⟩
  trand_simp_map := StdMap.empty
  homograph2features_map := StdMap.empty

/-- What the calls of an engine read besides its dictionaries. -/
def setup (m : Members) : Setup where
  _jieba := m._jieba
  g2pmodel := m.g2pmodel
  _seperate_tone := m.conf._seperate_tone
  order := m.order

def conf_file_path (m : Members) : CString :=
  m._conf_file ++ str "/front.conf"

def ReadConfFile (files : Files) (m : Members) : Int × Members :=
  match files m.conf_file_path with
  | none => (-1, m)
  | some bytes =>
      let conf_map := (getlines [] bytes).foldl
        (FrontEngineInterface.confLine m._conf_file) m.conf_map
      (0, { m with
        conf_map := conf_map.touchAll Configuration.keys
        conf := Configuration.read conf_map })

/-- `if (0 != ...) return -1;` -/
def check (r : Int × Members) (rest : Members -> Int × Members) : Int × Members :=
  if r.1 ≠ 0 then (-1, r.2) else rest r.2

def load (r : Int × Dictionary) (store : Dictionary -> Members) : Int × Members :=
  (r.1, store r.2)

open FrontEngineInterface in
/-- The part of `init` that fills the dictionaries. -/
def loadDictionaries (files : Files) (m : Members) : Int × Members :=
  check (load
    (GenDict files m.conf._word2phone_path m.dictionaries.word_phone_map true)
    fun map => { m with dictionaries.word_phone_map := map }) fun m =>
  check (load
    (GenDict files m.conf._phone2id_path m.dictionaries.phone_id_map false)
    fun map => { m with dictionaries.phone_id_map := map }) fun m =>
  check
    (if m.conf._seperate_tone = str "true" then
      load (GenDict files m.conf._tone2id_path m.dictionaries.tone_id_map false)
        fun map => { m with dictionaries.tone_id_map := map }
    else (0, m)) fun m =>
  check (load (GenDict files m.conf._trand2simp_path m.trand_simp_map true)
    fun map => { m with trand_simp_map := map }) fun m =>
  check (load (GenTDict files m.conf._orderdict_path m.dictionaries.orderdict_map)
    fun map => { m with dictionaries.orderdict_map := map }) fun m =>
  check (load (GenTDict files m.conf._cmu_path m.dictionaries.cmu_map)
    fun map => { m with dictionaries.cmu_map := map }) fun m =>
  check (load
    (GenTDict files m.conf._homograph2features_path m.homograph2features_map)
    fun map => { m with homograph2features_map := map }) fun m =>
  (0, { m with _initialed := true })

def init (files : Files) (lib : Libraries) (m : Members) : Int × Members :=
  if m._initialed then (0, m)
  else
    check (m.ReadConfFile files) fun m =>
    loadDictionaries files { m with
      _jieba := lib.Jieba m.conf._jieba_dict_path m.conf._jieba_hmm_path
        m.conf._jieba_user_dict_path m.conf._jieba_idf_path
        m.conf._jieba_stop_word_path
      g2pmodel := lib.G2pEModel m._conf_file
      order := lib.order }

end Members
end VoiceTts
