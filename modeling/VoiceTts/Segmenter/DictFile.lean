import Mathlib.Data.List.Sort
import VoiceTts.Front.LineEnds
import VoiceTts.Segmenter.Dictionary

/-!
# The files of the dictionary

`Init` reads the main dictionary and the user dictionaries and puts all their words into
the trie.  Both loops take the last byte off every line: they were written for files
whose lines end in a carriage return.
-/

namespace VoiceTts
namespace Cppjieba

/-- A check or an assertion that ends the program. -/
inductive Fatal where
  | open_failed
  | split_illegal
  | no_words
  | check_failed
  | assertion
deriving DecidableEq, Repr

/-- The loop of `Split`; `sub` is the part in front of the next separator. -/
def splitFrom (pattern : CString) : CString -> CString -> List CString
  | sub, [] => if sub = [] then [] else [sub]
  | sub, c :: src =>
      if c ∈ pattern then sub :: splitFrom pattern [] src
      else splitFrom pattern (sub ++ [c]) src

/-- `limonp::Split`; behind a last separator there is no part. -/
def Split (src pattern : CString) : List CString :=
  splitFrom pattern [] src

inductive UserWordWeightOption where
  | WordWeightMin
  | WordWeightMedian
  | WordWeightMax
deriving DecidableEq

namespace DictTrie

variable {W : Type}

/-- `MakeNodeInfo` for a variable that has a value; only the word is lost when it fails. -/
def makeInto (node_info : DictUnit W) (word : CString) (weight : W) (tag : CString) :
    DictUnit W :=
  (MakeNodeInfo word weight tag).getD { node_info with word := [] }

/-- The loop of `LoadDict`, which keeps one variable for all lines. -/
def dictLines (m : Libm W) : DictUnit W -> List CString ->
    Except Fatal (List (DictUnit W))
  | _, [] => Except.ok []
  | node_info, line :: rest =>
      match Split (substr line 0 (line.length - 1)) (str " ") with
      | [word, freq, tag] => do
          let node_info := makeInto node_info word (m.atof freq) tag
          let node_infos <- dictLines m node_info rest
          pure (node_info :: node_infos)
      | _ => Except.error Fatal.split_illegal

/-- `uninit` is what the variable has in it before the first line. -/
def LoadDict (m : Libm W) (files : Files) (uninit : DictUnit W) (filePath : CString) :
    Except Fatal (List (DictUnit W)) :=
  match files filePath with
  | none => Except.error Fatal.open_failed
  | some bytes => dictLines m uninit (getlines [] bytes)

variable [Double W]

def CalcFreqSum (node_infos : List (DictUnit W)) : W :=
  node_infos.foldl (fun sum node_info => sum + node_info.weight) 0

def CalculateWeight (m : Libm W) (node_infos : List (DictUnit W)) (sum : W) :
    Except Fatal (List (DictUnit W)) :=
  if 0 < sum ∧ forall node_info, node_info ∈ node_infos -> 0 < node_info.weight then
    Except.ok (node_infos.map fun node_info =>
      { node_info with weight := m.log (m.div node_info.weight sum) })
  else Except.error Fatal.assertion

/-- `min_weight_` and `user_word_default_weight_` -/
def SetStaticWordWeights (option : UserWordWeightOption) (node_infos : List (DictUnit W)) :
    Except Fatal (W × W) :=
  match (node_infos.map DictUnit.weight).insertionSort (· ≤ ·) with
  | [] => Except.error Fatal.no_words
  | min_weight_ :: rest =>
      let x := min_weight_ :: rest
      Except.ok (min_weight_,
        match option with
        | UserWordWeightOption.WordWeightMin => min_weight_
        | UserWordWeightOption.WordWeightMedian => x.getD (x.length / 2) min_weight_
        | UserWordWeightOption.WordWeightMax => x.getD (x.length - 1) min_weight_)

/-- What `InserUserDictNode` adds for a line; any other number of columns adds no word. -/
def InserUserDictNode (m : Libm W) (freq_sum_ user_word_default_weight_ : W)
    (uninit : DictUnit W) (line : CString) : Except Fatal (DictUnit W) :=
  match Split line (str " ") with
  | [word] => Except.ok (makeInto uninit word user_word_default_weight_ [])
  | [word, tag] => Except.ok (makeInto uninit word user_word_default_weight_ tag)
  | [word, freq, tag] =>
      if 0 < freq_sum_ then
        Except.ok (makeInto uninit word
          (m.log (m.div (m.ofInt (atoi freq)) freq_sum_)) tag)
      else Except.error Fatal.assertion
  | _ => Except.ok { uninit with word := [] }

/-- The loop over the lines of a user dictionary. -/
def userLines (insert : CString -> Except Fatal (DictUnit W)) :
    List CString -> Except Fatal (List (DictUnit W))
  | [] => Except.ok []
  | line :: rest =>
      if line = [] then userLines insert rest
      else do
        let node_info <- insert (substr line 0 (line.length - 1))
        let node_infos <- userLines insert rest
        pure (node_info :: node_infos)

def userFiles (files : Files) (insert : CString -> Except Fatal (DictUnit W)) :
    List CString -> Except Fatal (List (DictUnit W))
  | [] => Except.ok []
  | file :: rest =>
      match files file with
      | none => Except.error Fatal.open_failed
      | some bytes => do
          let node_infos <- userLines insert (getlines [] bytes)
          let more <- userFiles files insert rest
          pure (node_infos ++ more)

def LoadUserDict (files : Files) (insert : CString -> Except Fatal (DictUnit W))
    (filePaths : CString) : Except Fatal (List (DictUnit W)) :=
  userFiles files insert (Split filePaths (str "|;"))

/-- The user dictionaries are read if any are named. -/
def userWords (m : Libm W) (files : Files) (freq_sum_ user_word_default_weight_ : W)
    (uninit : DictUnit W) (user_dict_paths : CString) : Except Fatal (List (DictUnit W)) :=
  if user_dict_paths = [] then Except.ok []
  else LoadUserDict files
    (InserUserDictNode m freq_sum_ user_word_default_weight_ uninit) user_dict_paths

/-- The words of one rune in the user dictionary. -/
def singleWords (node_infos : List (DictUnit W)) : List Rune :=
  node_infos.filterMap fun node_info =>
    match node_info.word with
    | [r] => some r
    | _ => none

/-- `CreateTrie` puts the words in one after the other; there must be one. -/
def CreateTrie (d : DictTrie W) (dictUnits : List (DictUnit W)) :
    Except Fatal (DictTrie W) :=
  if dictUnits = [] then Except.error Fatal.assertion
  else Except.ok (dictUnits.foldl store d)

def Init (m : Libm W) (files : Files) (uninit : DictUnit W)
    (dict_path user_dict_paths : CString)
    (user_word_weight_opt : UserWordWeightOption) : Except Fatal (DictTrie W) := do
  let loaded <- LoadDict m files uninit dict_path
  let freq_sum_ := CalcFreqSum loaded
  let static_node_infos_ <- CalculateWeight m loaded freq_sum_
  let weights <- SetStaticWordWeights user_word_weight_opt static_node_infos_
  let users <- userWords m files freq_sum_ weights.2 uninit user_dict_paths
  CreateTrie
    { bare freq_sum_ weights.1 weights.2 with
      user_dict_single_chinese_word_ := singleWords users }
    (static_node_infos_ ++ users)

end DictTrie

/-!
## Columns of a line
-/

section Columns

variable {pattern part rest : CString}

theorem splitFrom_append (h : forall c, c ∈ part -> c ∉ pattern) (sub rest : CString) :
    splitFrom pattern sub (part ++ rest) = splitFrom pattern (sub ++ part) rest := by
  induction part generalizing sub with
  | nil =>
      rw [List.nil_append, List.append_nil]
  | cons c part ih =>
      rw [List.cons_append, splitFrom, if_neg (h c (List.mem_cons_self ..)),
        ih fun d hd => h d (List.mem_cons_of_mem c hd), List.append_assoc]
      rfl

theorem Split_separator (h : forall c, c ∈ part -> c ∉ pattern) {c : UInt8}
    (hc : c ∈ pattern) : Split (part ++ c :: rest) pattern = part :: Split rest pattern := by
  rw [Split, splitFrom_append h, List.nil_append, splitFrom, if_pos hc, Split]

theorem Split_last (h : forall c, c ∈ part -> c ∉ pattern) :
    Split part pattern = if part = [] then [] else [part] := by
  have happend := splitFrom_append h [] []
  rw [List.append_nil, List.nil_append] at happend
  rw [Split, happend, splitFrom]

end Columns

theorem substr_dropLast (line : CString) : substr line 0 (line.length - 1) = line.dropLast := by
  unfold substr
  cases line with
  | nil =>
      rfl
  | cons c line =>
      have hnonneg : ¬ ((c :: line).length : Int) - 1 < 0 := by
        rw [List.length_cons]
        omega
      have hcount : (((c :: line).length : Int) - 1).toNat = (c :: line).length - 1 := by
        omega
      rw [if_neg hnonneg, hcount, List.dropLast_eq_take]
      rfl

/-- A line of the dictionary, as it is written down. -/
structure DictLine where
  word : CString
  freq : CString
  tag : CString
  runes : List Rune
  decodes : PosTagger.DecodeRunesInString word = some runes
  word_ok : 32 ∉ word ∧ 10 ∉ word
  freq_ok : 32 ∉ freq ∧ 10 ∉ freq ∧ 13 ∉ freq
  tag_ok : 32 ∉ tag ∧ 10 ∉ tag ∧ 13 ∉ tag
  tag_ne_nil : tag ≠ []

namespace DictLine

/-- The word is the key of the line, the other columns are its value. -/
def entry (l : DictLine) : Entry 32 where
  key := l.word
  value := l.freq ++ 32 :: l.tag
  key_sep := l.word_ok.1
  key_line := l.word_ok.2
  value_line := by
    have hfreq := l.freq_ok
    have htag := l.tag_ok
    constructor
    · simp [hfreq.2.1, htag.2.1]
    · simp [hfreq.2.2, htag.2.2]

def file (ending : LineEnd) (final : Bool) (lines : List DictLine) : CString :=
  writeFile [] ending final (lines.map entry)

/-- The tag that arrives: without a carriage return behind it, its last byte is gone. -/
def arrivingTag (ending : LineEnd) (final : Bool) (l : DictLine) (rest : List DictLine) :
    CString :=
  if returned ending final rest then l.tag else l.tag.dropLast

variable {W : Type}

def node (m : Libm W) (l : DictLine) : DictUnit W :=
  ⟨l.runes, m.atof l.freq, l.tag⟩

theorem getlines_file (ending : LineEnd) (final : Bool) (l : DictLine)
    (rest : List DictLine) :
    getlines [] (file ending final (l :: rest)) =
      (l.entry.text [] ++ remnant ending final rest) :: getlines [] (file ending final rest) := by
  have hlines := getlines_writeFile List.not_mem_nil (by decide) ending final l.entry
    (rest.map entry)
  have hremnant : remnant ending final (rest.map entry) = remnant ending final rest := by
    unfold remnant returned terminated
    rw [List.isEmpty_map]
  rw [hremnant] at hlines
  exact hlines

theorem Split_line (ending : LineEnd) (final : Bool) (l : DictLine) (rest : List DictLine) :
    Split (l.entry.text [] ++ remnant ending final rest).dropLast (str " ") =
      [l.word, l.freq] ++
        if l.arrivingTag ending final rest = [] then [] else [l.arrivingTag ending final rest] := by
  have hblank : (32 : UInt8) ∈ str " " := by
    decide
  have hfree : forall {t : CString}, 32 ∉ t -> forall c, c ∈ t -> c ∉ str " " := by
    intro t ht c hc hmem
    rw [List.mem_singleton.mp hmem] at hc
    exact ht hc
  have htag : 32 ∉ l.arrivingTag ending final rest := by
    unfold arrivingTag
    split
    · exact l.tag_ok.1
    · exact fun hmem => l.tag_ok.1 (List.dropLast_subset _ hmem)
  have hline : (l.entry.text [] ++ remnant ending final rest).dropLast =
      l.word ++ 32 :: (l.freq ++ 32 :: l.arrivingTag ending final rest) := by
    have hlast : (l.tag ++ remnant ending final rest).dropLast =
        l.arrivingTag ending final rest := by
      unfold arrivingTag remnant
      split
      · exact List.dropLast_concat
      · rw [List.append_nil]
    have hne : l.tag ++ remnant ending final rest ≠ [] :=
      List.append_ne_nil_of_left_ne_nil l.tag_ne_nil _
    have htext : l.entry.text [] ++ remnant ending final rest =
        (l.word ++ 32 :: (l.freq ++ [32])) ++ (l.tag ++ remnant ending final rest) := by
      simp [Entry.text, entry]
    rw [htext, List.dropLast_append_of_ne_nil hne, hlast]
    simp
  rw [hline, Split_separator (hfree l.word_ok.1) hblank,
    Split_separator (hfree l.freq_ok.1) hblank, Split_last (hfree htag)]
  rfl

def arrive (m : Libm W) (ending : LineEnd) (final : Bool) :
    List DictLine -> Except Fatal (List (DictUnit W))
  | [] => Except.ok []
  | l :: rest =>
      if l.arrivingTag ending final rest = [] then Except.error Fatal.split_illegal
      else do
        let node_infos <- arrive m ending final rest
        pure ({ l.node m with tag := l.arrivingTag ending final rest } :: node_infos)

theorem dictLines_file (m : Libm W) (ending : LineEnd) (final : Bool)
    (lines : List DictLine) (uninit : DictUnit W) :
    DictTrie.dictLines m uninit (getlines [] (file ending final lines)) =
      arrive m ending final lines := by
  induction lines generalizing uninit with
  | nil =>
      rfl
  | cons l rest ih =>
      have hnode : forall tag, DictTrie.makeInto uninit l.word (m.atof l.freq) tag =
          { l.node m with tag := tag } := by
        intro tag
        unfold DictTrie.makeInto
        rw [MakeNodeInfo_eq, l.decodes]
        rfl
      rw [getlines_file, DictTrie.dictLines, substr_dropLast, Split_line, arrive]
      by_cases hnil : l.arrivingTag ending final rest = []
      · rw [if_pos hnil, if_pos hnil]
        rfl
      · rw [if_neg hnil, if_neg hnil]
        dsimp only [List.cons_append, List.nil_append]
        rw [ih, hnode]

/-- The tag that arrives is the tag that was written, or there was no carriage return. -/
theorem arrivingTag_eq_iff (ending : LineEnd) (final : Bool) (l : DictLine)
    (rest : List DictLine) :
    l.arrivingTag ending final rest = l.tag ↔ returned ending final rest = true := by
  unfold arrivingTag
  split
  · rename_i h
    exact ⟨fun _ => h, fun _ => rfl⟩
  · rename_i h
    constructor
    · intro heq
      have hlength := congrArg List.length heq
      have hpos := List.length_pos_iff.mpr l.tag_ne_nil
      rw [List.length_dropLast] at hlength
      omega
    · exact fun h' => absurd h' h

theorem arrive_ok_iff (m : Libm W) (ending : LineEnd) (final : Bool)
    (lines : List DictLine) :
    arrive m ending final lines = Except.ok (lines.map (node m)) ↔
      lines = [] ∨ ending = LineEnd.crlf ∧ final = true := by
  induction lines with
  | nil =>
      exact ⟨fun _ => Or.inl rfl, fun _ => rfl⟩
  | cons l rest ih =>
      have hreturned : returned ending final rest = true ↔
          ending = LineEnd.crlf ∧ (final = true ∨ rest ≠ []) := by
        unfold returned terminated
        simp
      rw [arrive]
      constructor
      · intro h
        right
        split at h
        · cases h
        · cases hrest : arrive m ending final rest with
          | error err =>
              rw [hrest] at h
              cases h
          | ok nodes =>
              rw [hrest] at h
              have hcons := Except.ok.inj h
              rw [List.map_cons, List.cons_eq_cons] at hcons
              have htag := congrArg DictUnit.tag hcons.1
              have hcr := hreturned.mp ((arrivingTag_eq_iff ending final l rest).mp htag)
              rw [hrest, hcons.2] at ih
              rcases ih.mp rfl with rfl | hboth
              · exact ⟨hcr.1, hcr.2.resolve_right fun hne => hne rfl⟩
              · exact hboth
      · intro h
        have hboth := h.resolve_left (List.cons_ne_nil l rest)
        have htag := (arrivingTag_eq_iff ending final l rest).mpr
          (hreturned.mpr ⟨hboth.1, Or.inl hboth.2⟩)
        rw [htag, if_neg l.tag_ne_nil, ih.mpr (Or.inr hboth)]
        rfl

/-- A tag of one byte without a carriage return behind it ends the program. -/
theorem arrive_error_iff (m : Libm W) (ending : LineEnd) (final : Bool)
    (lines : List DictLine) :
    (exists err, arrive m ending final lines = Except.error err) ↔
      exists pre l rest, lines = pre ++ l :: rest ∧
        returned ending final rest = false ∧ l.tag.length = 1 := by
  have hnil : forall (l : DictLine) rest, l.arrivingTag ending final rest = [] ↔
      returned ending final rest = false ∧ l.tag.length = 1 := by
    intro l rest
    have hpos := List.length_pos_iff.mpr l.tag_ne_nil
    unfold arrivingTag
    split
    · rename_i h
      exact ⟨fun heq => absurd heq l.tag_ne_nil, fun h' => by rw [h] at h'; cases h'.1⟩
    · rename_i h
      rw [← List.length_eq_zero_iff, List.length_dropLast]
      exact ⟨fun heq => ⟨eq_false_of_ne_true h, by omega⟩, fun h' => by omega⟩
  induction lines with
  | nil =>
      constructor
      · rintro ⟨err, herr⟩
        cases herr
      · rintro ⟨pre, l, rest, hlines, -⟩
        exact absurd hlines.symm (List.append_ne_nil_of_right_ne_nil pre (List.cons_ne_nil l rest))
  | cons l lines ih =>
      rw [arrive]
      constructor
      · rintro ⟨err, herr⟩
        split at herr
        · rename_i htag
          exact ⟨[], l, lines, rfl, (hnil l lines).mp htag⟩
        · cases hrest : arrive m ending final lines with
          | ok nodes =>
              rw [hrest] at herr
              cases herr
          | error err' =>
              rcases ih.mp ⟨err', hrest⟩ with ⟨pre, l', rest, hlines, hshort⟩
              exact ⟨l :: pre, l', rest, by rw [hlines, List.cons_append], hshort⟩
      · rintro ⟨pre, l', rest, hlines, hshort⟩
        split
        · exact ⟨_, rfl⟩
        · rename_i htag
          cases pre with
          | nil =>
              cases hlines
              exact absurd ((hnil l lines).mpr hshort) htag
          | cons p pre =>
              rw [List.cons_append, List.cons_eq_cons] at hlines
              rcases ih.mpr ⟨pre, l', rest, hlines.2, hshort⟩ with ⟨err, herr⟩
              exact ⟨err, by rw [herr]; rfl⟩

end DictLine

namespace DictTrie

variable {W : Type}

/--
A dictionary is loaded as it was written exactly when all its lines end in a carriage
return and a line feed.  The program ends while it loads exactly when some line without
a carriage return has a tag of one byte: nothing is left of its third column.
-/
theorem LoadDict_written_iff (m : Libm W) (files : Files) (uninit : DictUnit W)
    (filePath : CString) (ending : LineEnd) (final : Bool) (lines : List DictLine)
    (hfile : files filePath = some (DictLine.file ending final lines)) :
    (LoadDict m files uninit filePath = Except.ok (lines.map (DictLine.node m)) ↔
        lines = [] ∨ ending = LineEnd.crlf ∧ final = true) ∧
      ((exists err, LoadDict m files uninit filePath = Except.error err) ↔
        exists pre l rest, lines = pre ++ l :: rest ∧
          returned ending final rest = false ∧ l.tag.length = 1) := by
  have hload : LoadDict m files uninit filePath = DictLine.arrive m ending final lines := by
    unfold LoadDict
    rw [hfile]
    exact DictLine.dictLines_file m ending final lines uninit
  rw [hload]
  exact ⟨DictLine.arrive_ok_iff m ending final lines,
    DictLine.arrive_error_iff m ending final lines⟩

/-- Numbers that are easy to compute with. -/
def wholeNumbers : Libm Int where
  log := fun x => x - 100
  div := fun x _ => x
  ofInt := id
  atof := atoi

/-- 中国 3 n -/
def countryLine : DictLine where
  word := str "中国"
  freq := str "3"
  tag := str "n"
  runes := [0x4e2d, 0x56fd]
  decodes := by decide
  word_ok := by decide
  freq_ok := by decide
  tag_ok := by decide
  tag_ne_nil := by decide

/-- A line with a tag of one byte and a line feed alone cannot be loaded. -/
theorem LoadDict_written_iff_line_feed :
    exists err, LoadDict wholeNumbers
      (fun _ => some (DictLine.file LineEnd.lf true [countryLine])) ⟨[], 0, []⟩ [] =
        Except.error err :=
  (LoadDict_written_iff wholeNumbers _ ⟨[], 0, []⟩ [] LineEnd.lf true [countryLine]
    rfl).2.mpr ⟨[], countryLine, [], rfl, rfl, rfl⟩

/-!
## What `Init` builds
-/

/-- The words of a list that are put in one after the other: the last one counts. -/
theorem Find_foldl_store (units : List (DictUnit W)) (d : DictTrie W) (k : List Rune) :
    (units.foldl store d).Find k =
      if k = [] then none
      else (units.reverse.find? fun u => decide (u.word = k)).or (d.Find k) := by
  induction units generalizing d with
  | nil =>
      rw [List.foldl_nil, List.reverse_nil, List.find?_nil, Option.none_or]
      split
      · rename_i hk
        rw [Find, if_pos hk]
      · rfl
  | cons u units ih =>
      rw [List.foldl_cons, ih, List.reverse_cons, List.find?_append, Option.or_assoc]
      split
      · rfl
      · rename_i hk
        congr 1
        rw [Find_store]
        by_cases hword : k = u.word
        · rw [if_pos ⟨hword, hk⟩, List.find?_cons_of_pos (by simpa using hword.symm)]
          rfl
        · rw [if_neg fun h => hword h.1,
            List.find?_cons_of_neg (by simpa using fun h => hword h.symm), List.find?_nil,
            Option.none_or]

theorem bare_Find (freq_sum_ min_weight_ user_word_default_weight_ : W) (k : List Rune) :
    (bare freq_sum_ min_weight_ user_word_default_weight_).Find k = none := by
  rw [Find_eq]
  exact Trie.find_empty k

theorem foldl_store_numbers (units : List (DictUnit W)) (d : DictTrie W) :
    SameNumbers d (units.foldl store d) := by
  induction units generalizing d with
  | nil =>
      exact ⟨rfl, rfl, rfl, rfl⟩
  | cons u units ih =>
      have hstore : SameNumbers d (d.store u) := ⟨rfl, rfl, rfl, rfl⟩
      exact hstore.trans (ih (d.store u))

theorem mem_singleWords (users : List (DictUnit W)) (r : Rune) :
    r ∈ singleWords users ↔ exists u, u ∈ users ∧ u.word = [r] := by
  unfold singleWords
  rw [List.mem_filterMap]
  refine exists_congr fun u => and_congr_right fun _ => ?_
  rcases u.word with _ | ⟨q, _ | ⟨q', rest⟩⟩
  · simp
  · simp
  · simp

section Loaded

variable [Double W]

/-- The least weight and the weight of user words are weights of the dictionary. -/
theorem SetStaticWordWeights_spec {option : UserWordWeightOption}
    {node_infos : List (DictUnit W)} {weights : W × W}
    (h : SetStaticWordWeights option node_infos = Except.ok weights) :
    (forall u, u ∈ node_infos -> weights.1 ≤ u.weight) ∧
      (exists u, u ∈ node_infos ∧ u.weight = weights.1) ∧
      exists u, u ∈ node_infos ∧ u.weight = weights.2 := by
  have hperm := List.perm_insertionSort (· ≤ ·) (node_infos.map DictUnit.weight)
  have hsorted := List.pairwise_insertionSort (· ≤ ·) (node_infos.map DictUnit.weight)
  have hof : forall w, w ∈ (node_infos.map DictUnit.weight).insertionSort (· ≤ ·) ->
      exists u, u ∈ node_infos ∧ u.weight = w := by
    intro w hw
    exact List.mem_map.mp (hperm.mem_iff.mp hw)
  unfold SetStaticWordWeights at h
  split at h
  · cases h
  · rename_i min_weight_ rest heq
    rw [heq] at hperm hsorted hof
    have hget : forall i, (min_weight_ :: rest).getD i min_weight_ ∈ min_weight_ :: rest := by
      intro i
      rw [List.getD_eq_getElem?_getD]
      cases hi : (min_weight_ :: rest)[i]? with
      | none =>
          exact List.mem_cons_self ..
      | some w =>
          exact List.mem_of_getElem? hi
    cases h
    refine ⟨?_, hof _ (List.mem_cons_self ..), hof _ ?_⟩
    · intro u hu
      have hmem := hperm.mem_iff.mpr (List.mem_map_of_mem (f := DictUnit.weight) hu)
      rcases List.mem_cons.mp hmem with heq' | hmem
      · exact heq'.ge
      · exact (List.pairwise_cons.mp hsorted).1 _ hmem
    · cases option with
      | WordWeightMin =>
          exact List.mem_cons_self ..
      | WordWeightMedian =>
          exact hget _
      | WordWeightMax =>
          exact hget _

/-- The units of the main dictionary with their weights. -/
def weighted (m : Libm W) (loaded : List (DictUnit W)) : List (DictUnit W) :=
  loaded.map fun node_info =>
    { node_info with weight := m.log (m.div node_info.weight (CalcFreqSum loaded)) }

/-- A dictionary with these units of its main file and of the user files. -/
structure BuiltFrom (static_ users : List (DictUnit W)) (d : DictTrie W) : Prop where
  finds : forall k, d.Find k =
    if k = [] then none else (static_ ++ users).reverse.find? fun u => decide (u.word = k)
  singles : forall r, d.IsUserDictSingleChineseWord r = true ↔
    exists u, u ∈ users ∧ u.word = [r]
  min_le : forall u, u ∈ static_ -> d.min_weight_ ≤ u.weight
  min_mem : exists u, u ∈ static_ ∧ u.weight = d.min_weight_
  default_mem : exists u, u ∈ static_ ∧ u.weight = d.user_word_default_weight_

theorem builtFrom_foldl {static_ users : List (DictUnit W)} {weights : W × W}
    {option : UserWordWeightOption} (freq_sum_ : W)
    (h : SetStaticWordWeights option static_ = Except.ok weights) :
    BuiltFrom static_ users ((static_ ++ users).foldl store
      { bare freq_sum_ weights.1 weights.2 with
        user_dict_single_chinese_word_ := singleWords users }) := by
  have hspec := SetStaticWordWeights_spec h
  have hnumbers := foldl_store_numbers (static_ ++ users)
    { bare freq_sum_ weights.1 weights.2 with
      user_dict_single_chinese_word_ := singleWords users }
  constructor
  · intro k
    rw [Find_foldl_store]
    split
    · rfl
    · exact (congrArg (Option.or _) (bare_Find freq_sum_ weights.1 weights.2 k)).trans
        Option.or_none
  · intro r
    rw [IsUserDictSingleChineseWord, hnumbers.singles, decide_eq_true_iff]
    exact mem_singleWords users r
  · rw [hnumbers.min_weight]
    exact hspec.1
  · rw [hnumbers.min_weight]
    exact hspec.2.1
  · rw [hnumbers.default_weight]
    exact hspec.2.2

/--
When `Init` returns, the dictionary finds the last unit of every word, those of the user
dictionary before all others; a rune that it does not know weighs no more than any word
of the main dictionary.
-/
theorem Init_builds (m : Libm W) (files : Files) (uninit : DictUnit W)
    (dict_path user_dict_paths : CString) (user_word_weight_opt : UserWordWeightOption)
    (d : DictTrie W)
    (h : Init m files uninit dict_path user_dict_paths user_word_weight_opt = Except.ok d) :
    exists loaded users, LoadDict m files uninit dict_path = Except.ok loaded ∧
      userWords m files d.freq_sum_ d.user_word_default_weight_ uninit user_dict_paths =
        Except.ok users ∧
      BuiltFrom (weighted m loaded) users d := by
  unfold Init at h
  cases hload : LoadDict m files uninit dict_path with
  | error err =>
      rw [hload] at h
      cases h
  | ok loaded =>
      rw [hload, ok_bind] at h
      dsimp only at h
      cases hweight : CalculateWeight m loaded (CalcFreqSum loaded) with
      | error err =>
          rw [hweight] at h
          cases h
      | ok static_ =>
          have hstatic : static_ = weighted m loaded := by
            unfold CalculateWeight at hweight
            split at hweight
            · exact (Except.ok.inj hweight).symm
            · cases hweight
          rw [hweight, ok_bind] at h
          cases hset : SetStaticWordWeights user_word_weight_opt static_ with
          | error err =>
              rw [hset] at h
              cases h
          | ok weights =>
              rw [hset, ok_bind] at h
              cases husers : userWords m files (CalcFreqSum loaded) weights.2 uninit
                  user_dict_paths with
              | error err =>
                  rw [husers] at h
                  cases h
              | ok users =>
                  rw [husers, ok_bind, CreateTrie] at h
                  split at h
                  · cases h
                  · cases h
                    have hnumbers := foldl_store_numbers (static_ ++ users)
                      { bare (CalcFreqSum loaded) weights.1 weights.2 with
                        user_dict_single_chinese_word_ := singleWords users }
                    refine ⟨loaded, users, rfl, ?_, ?_⟩
                    · rw [hnumbers.freq_sum, hnumbers.default_weight]
                      exact husers
                    · rw [← hstatic]
                      exact builtFrom_foldl (CalcFreqSum loaded) hset

end Loaded

/-- A main dictionary with 中国, and a user dictionary with 人. -/
def countryFiles : Files :=
  fun path =>
    if path = str "dict" then some (DictLine.file LineEnd.crlf true [countryLine])
    else if path = str "user" then some (str "人\r\n")
    else none

theorem Init_builds_country :
    exists d loaded users,
      LoadDict wholeNumbers countryFiles ⟨[], 0, []⟩ (str "dict") = Except.ok loaded ∧
      userWords wholeNumbers countryFiles d.freq_sum_ d.user_word_default_weight_
        ⟨[], 0, []⟩ (str "user") = Except.ok users ∧
      BuiltFrom (weighted wholeNumbers loaded) users d := by
  have hok : (Init wholeNumbers countryFiles ⟨[], 0, []⟩ (str "dict") (str "user")
      UserWordWeightOption.WordWeightMedian).toBool = true := by
    decide +kernel
  cases h : Init wholeNumbers countryFiles ⟨[], 0, []⟩ (str "dict") (str "user")
      UserWordWeightOption.WordWeightMedian with
  | error err =>
      rw [h] at hok
      cases hok
  | ok d =>
      exact ⟨d, Init_builds wholeNumbers countryFiles ⟨[], 0, []⟩ (str "dict") (str "user")
        UserWordWeightOption.WordWeightMedian d h⟩

end DictTrie

end Cppjieba
end VoiceTts
