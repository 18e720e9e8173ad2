import VoiceTts.Front.Loaders
import VoiceTts.Lib.Utf8Cut

/-!
# Line ends

What the loaders make of a file of keys and values, for both kinds of line
ends.  A loader that drops the last byte of a line loses the last byte of a value
that no carriage return follows, and the loader that keeps it keeps the carriage
return.  The table of characters, which is written with line feeds, is lost.
-/

namespace VoiceTts

/-!
## Writing a file
-/

inductive LineEnd where
  | lf
  | crlf
deriving DecidableEq

def LineEnd.bytes : LineEnd -> CString
  | lf => [10]
  | crlf => [13, 10]

/-- A key and its value, as they can stand on a line. -/
structure Entry (sep : UInt8) where
  key : CString
  value : CString
  key_sep : sep ∉ key
  key_line : 10 ∉ key
  value_line : 10 ∉ value ∧ 13 ∉ value

/-- The line of an entry, behind the mark that some files put in front of it. -/
def Entry.text {sep : UInt8} (mark : CString) (e : Entry sep) : CString :=
  mark ++ e.key ++ sep :: e.value

/-- A line end stands behind this line, if this is the rest of the file. -/
def terminated {α : Type} (final : Bool) (rest : List α) : Bool :=
  final || !rest.isEmpty

def writeFile {sep : UInt8} (mark : CString) (ending : LineEnd) (final : Bool) :
    List (Entry sep) -> CString
  | [] => []
  | e :: rest =>
      e.text mark ++ (if terminated final rest then ending.bytes else []) ++
        writeFile mark ending final rest

/-- The line arrives with a carriage return. -/
def returned {α : Type} (ending : LineEnd) (final : Bool) (rest : List α) : Bool :=
  decide (ending = LineEnd.crlf) && terminated final rest

/-- What `getline` leaves behind the value. -/
def remnant {α : Type} (ending : LineEnd) (final : Bool) (rest : List α) :
    CString :=
  if returned ending final rest then [13] else []

theorem getlines_append {line rest : CString} (hline : 10 ∉ line) (cur : CString) :
    getlines cur (line ++ rest) = getlines (cur ++ line) rest := by
  induction line generalizing cur with
  | nil =>
      simp
  | cons c line ih =>
      rw [List.mem_cons, not_or] at hline
      rw [List.cons_append, getlines, if_neg (fun h => hline.1 h.symm),
        ih hline.2, List.append_assoc]
      rfl

theorem getlines_newline (line rest : CString) :
    getlines line (10 :: rest) = line :: getlines [] rest := by
  rw [getlines, if_pos rfl]

theorem Entry.newline_notMem_text {sep : UInt8} {mark : CString} (e : Entry sep)
    (hmark : 10 ∉ mark) (hsep : sep ≠ 10) : 10 ∉ e.text mark := by
  unfold Entry.text
  simp only [List.mem_append, List.mem_cons, not_or]
  exact ⟨⟨hmark, e.key_line⟩, hsep.symm, e.value_line.1⟩

theorem getlines_writeFile {sep : UInt8} {mark : CString} (hmark : 10 ∉ mark)
    (hsep : sep ≠ 10) (ending : LineEnd) (final : Bool) (e : Entry sep)
    (rest : List (Entry sep)) :
    getlines [] (writeFile mark ending final (e :: rest)) =
      (e.text mark ++ remnant ending final rest) ::
        getlines [] (writeFile mark ending final rest) := by
  have htext := e.newline_notMem_text hmark hsep
  rw [writeFile, List.append_assoc, getlines_append htext, List.nil_append]
  cases hend : terminated final rest with
  | true =>
      cases ending with
      | lf =>
          simp only [remnant, returned, hend, LineEnd.bytes, if_true]
          exact (getlines_newline _ _).trans (by simp)
      | crlf =>
          simp only [remnant, returned, hend, LineEnd.bytes, if_true]
          change getlines (e.text mark) ([13] ++ 10 :: _) = _
          rw [getlines_append (by decide), getlines_newline]
          rfl
  | false =>
      -- only the last line has no line end, and it is not empty
      have hrest : rest = [] := by
        cases rest with
        | nil =>
            rfl
        | cons d rest =>
            simp [terminated] at hend
      subst hrest
      have hne : e.text mark ≠ [] := by
        simp [Entry.text]
      simp [remnant, returned, hend, writeFile, getlines, hne]

/-!
## Cutting a written line
-/

theorem find_first_of_append {pre : CString} {c : UInt8} (h : c ∉ pre)
    (rest : CString) : find_first_of (pre ++ c :: rest) c = pre.length := by
  unfold find_first_of
  rw [if_pos (by simp), List.idxOf_append_of_notMem h, List.idxOf_cons_self,
    Nat.add_zero]

theorem substr_key {pre : CString} (rest : CString) :
    substr (pre ++ rest) 0 pre.length = pre := by
  simp [substr]

/-- `line.size() - pos` reaches to the end of the line. -/
theorem substr_value {pre : CString} {c : UInt8} (rest : CString) :
    substr (pre ++ c :: rest) (pre.length + 1)
      ((pre ++ c :: rest).length - pre.length) = rest := by
  have hpos : (pre.length + 1 : Int).toNat = pre.length + 1 := by omega
  have hcount : ((pre ++ c :: rest).length - pre.length : Int) =
      ((rest.length + 1 : Nat) : Int) := by
    simp
  unfold substr
  rw [hcount, if_neg (by omega), hpos]
  simp

/-- `line.size() - pos - 2` stops one byte earlier, or wraps around. -/
theorem substr_value_dropLast {pre : CString} {c : UInt8} (rest : CString) :
    substr (pre ++ c :: rest) (pre.length + 1)
      ((pre ++ c :: rest).length - pre.length - 2) = rest.dropLast := by
  have hpos : (pre.length + 1 : Int).toNat = pre.length + 1 := by omega
  have hcount : ((pre ++ c :: rest).length - pre.length - 2 : Int) =
      (rest.length : Int) - 1 := by
    simp
    omega
  unfold substr
  rw [hcount, hpos]
  cases rest with
  | nil =>
      simp
  | cons d rest =>
      rw [if_neg (by simp)]
      simp [List.dropLast_eq_take]

namespace FrontEngineInterface

theorem dictLine_text {key : CString} (h : 32 ∉ key) (rest : CString)
    (map : Dictionary) (flag : Bool) :
    dictLine flag map (key ++ 32 :: rest) =
      map.insert key (if flag then rest.dropLast else rest) := by
  unfold dictLine
  simp only [find_first_of_append h, substr_key, substr_value,
    substr_value_dropLast]

theorem tabLine_text {key : CString} (h : 9 ∉ key) (rest : CString)
    (map : Dictionary) :
    tabLine map (key ++ 9 :: rest) = map.insert key rest.dropLast := by
  unfold tabLine
  simp only [find_first_of_append h, substr_key, substr_value_dropLast]

theorem confLine_text {key : CString} (h : 61 ∉ key) (path rest : CString)
    (map : Dictionary) :
    confLine path map (str "--" ++ key ++ 61 :: rest) =
      map.insert key (path ++ rest.dropLast) := by
  have hmark : str "--" = [45, 45] := by decide +kernel
  have hnot : 61 ∉ ([45, 45] ++ key : CString) := by
    rw [List.mem_append, not_or]
    exact ⟨by decide, h⟩
  have hstart : substr ([45, 45] ++ key ++ 61 :: rest) 0 2 = [45, 45] := by
    simp [substr]
  have hkey : substr ([45, 45] ++ key ++ 61 :: rest) 2
      (([45, 45] ++ key : CString).length - 2) = key := by
    have hcount : ((([45, 45] ++ key : CString).length : Nat) - 2 : Int) =
        (key.length : Int) := by
      simp
      omega
    rw [hcount]
    simp [substr]
  unfold confLine
  rw [hmark, if_pos hstart]
  simp only [find_first_of_append hnot, hkey, substr_value_dropLast]

end FrontEngineInterface

/-!
## The loaders
-/

inductive Loader where
  | GenDict (flag : Bool)
  | GenTDict
  | ReadConfFile

namespace Loader

open FrontEngineInterface

def separator : Loader -> UInt8
  | GenDict _ => 32
  | GenTDict => 9
  | ReadConfFile => 61

def mark : Loader -> CString
  | ReadConfFile => str "--"
  | _ => []

/-- The file that is read: the configuration is named by its directory. -/
def opened (path : CString) : Loader -> CString
  | ReadConfFile => path ++ str "/front.conf"
  | _ => path

/-- What the map should hold for a value. -/
def stored (path value : CString) : Loader -> CString
  | ReadConfFile => path ++ value
  | _ => value

/-- The subscripts with which the map is read afterwards. -/
def finish (map : Dictionary) : Loader -> Dictionary
  | ReadConfFile => map.touchAll Configuration.keys
  | _ => map

def run (files : Files) (path : CString) (map : Dictionary) :
    Loader -> Int × Dictionary
  | GenDict flag => FrontEngineInterface.GenDict files path map flag
  | GenTDict => FrontEngineInterface.GenTDict files path map
  | ReadConfFile =>
      let r := Members.ReadConfFile files
        { Members.fresh path with conf_map := map }
      (r.1, r.2.conf_map)

def line (path : CString) : Loader -> Dictionary -> CString -> Dictionary
  | GenDict flag => dictLine flag
  | GenTDict => tabLine
  | ReadConfFile => confLine path

/-- Only `GenDict` without its flag keeps the last byte of a line. -/
def keeps : Loader -> Bool
  | GenDict flag => !flag
  | _ => false

def cut (rest : CString) (ℓ : Loader) : CString :=
  if ℓ.keeps then rest else rest.dropLast

theorem run_eq {files : Files} {path bytes : CString} {ℓ : Loader}
    (hfile : files (ℓ.opened path) = some bytes) (map : Dictionary) :
    ℓ.run files path map =
      (0, ℓ.finish ((getlines [] bytes).foldl (ℓ.line path) map)) := by
  cases ℓ with
  | GenDict flag =>
      simp only [opened] at hfile
      simp only [run, FrontEngineInterface.GenDict, hfile, finish, line]
  | GenTDict =>
      simp only [opened] at hfile
      simp only [run, FrontEngineInterface.GenTDict, hfile, finish, line]
  | ReadConfFile =>
      have hpath : files ({ Members.fresh path with
          conf_map := map } : Members).conf_file_path = some bytes := hfile
      simp only [run, Members.ReadConfFile, hpath]
      rfl

theorem line_text (ℓ : Loader) (path : CString) (map : Dictionary)
    (e : Entry ℓ.separator) (tail : CString) :
    ℓ.line path map (e.text ℓ.mark ++ tail) =
      map.insert e.key (ℓ.stored path (ℓ.cut (e.value ++ tail))) := by
  have htext : e.text ℓ.mark ++ tail =
      ℓ.mark ++ e.key ++ ℓ.separator :: (e.value ++ tail) := by
    simp [Entry.text]
  rw [htext]
  cases ℓ with
  | GenDict flag =>
      cases flag with
      | true =>
          exact dictLine_text e.key_sep (e.value ++ tail) map true
      | false =>
          exact dictLine_text e.key_sep (e.value ++ tail) map false
  | GenTDict =>
      exact tabLine_text e.key_sep (e.value ++ tail) map
  | ReadConfFile =>
      exact confLine_text e.key_sep path (e.value ++ tail) map

/-!
## When a loader is exact
-/

/--
Each line, unless a later one has the same key: where the last byte is
dropped, a carriage return must follow the value, and where it is kept, none may.
-/
def Exact (ℓ : Loader) (ending : LineEnd) (final : Bool) :
    List (Entry ℓ.separator) -> Prop
  | [] => True
  | e :: rest =>
      (e.key ∈ rest.map Entry.key ∨
        if ℓ.keeps then returned ending final rest = false
        else returned ending final rest = true ∨ e.value = []) ∧
      Exact ℓ ending final rest

/-- The keys, what is loaded for them, and what should be loaded. -/
def arrived (ℓ : Loader) (path : CString) (ending : LineEnd) (final : Bool) :
    List (Entry ℓ.separator) -> List (CString × CString × CString)
  | [] => []
  | e :: rest =>
      (e.key, ℓ.stored path (ℓ.cut (e.value ++ remnant ending final rest)),
        ℓ.stored path e.value) :: arrived ℓ path ending final rest

theorem foldl_line_writeFile (ℓ : Loader) (path : CString) (ending : LineEnd)
    (final : Bool) (entries : List (Entry ℓ.separator)) (map : Dictionary) :
    (getlines [] (writeFile ℓ.mark ending final entries)).foldl (ℓ.line path)
        map =
      map.insertAll ((ℓ.arrived path ending final entries).map
        fun t => (t.1, t.2.1)) := by
  have hmark : 10 ∉ ℓ.mark := by
    cases ℓ with
    | GenDict flag => simp [mark]
    | GenTDict => simp [mark]
    | ReadConfFile => decide +kernel
  have hsep : ℓ.separator ≠ 10 := by
    cases ℓ <;> simp [separator]
  induction entries generalizing map with
  | nil =>
      rfl
  | cons e rest ih =>
      rw [getlines_writeFile hmark hsep, List.foldl_cons, line_text, ih]
      rfl

theorem map_arrived_wanted (ℓ : Loader) (path : CString) (ending : LineEnd)
    (final : Bool) (entries : List (Entry ℓ.separator)) :
    (ℓ.arrived path ending final entries).map (fun t => (t.1, t.2.2)) =
      entries.map fun e => (e.key, ℓ.stored path e.value) := by
  induction entries with
  | nil =>
      rfl
  | cons e rest ih =>
      rw [arrived, List.map_cons, List.map_cons, ih]

theorem map_arrived_key (ℓ : Loader) (path : CString) (ending : LineEnd)
    (final : Bool) (entries : List (Entry ℓ.separator)) :
    (ℓ.arrived path ending final entries).map Prod.fst =
      entries.map Entry.key := by
  induction entries with
  | nil =>
      rfl
  | cons e rest ih =>
      rw [arrived, List.map_cons, List.map_cons, ih]

theorem stored_inj {path v v' : CString} {ℓ : Loader} :
    ℓ.stored path v = ℓ.stored path v' ↔ v = v' := by
  cases ℓ <;> simp [stored]

theorem cut_remnant {α : Type} (ℓ : Loader) (ending : LineEnd) (final : Bool)
    (rest : List α) (value : CString) :
    ℓ.cut (value ++ remnant ending final rest) = value ↔
      if ℓ.keeps then returned ending final rest = false
      else returned ending final rest = true ∨ value = [] := by
  unfold cut remnant
  cases ℓ.keeps with
  | true =>
      cases returned ending final rest <;> simp
  | false =>
      cases returned ending final rest with
      | true =>
          simp
      | false =>
          have hlen : value.dropLast = value ↔ value = [] := by
            constructor
            · intro h
              have hlength := congrArg List.length h
              rw [List.length_dropLast] at hlength
              exact List.length_eq_zero_iff.mp (by omega)
            · rintro rfl
              rfl
          simpa using hlen

theorem settled_arrived (ℓ : Loader) (path : CString) (ending : LineEnd)
    (final : Bool) (entries : List (Entry ℓ.separator)) :
    StdMap.Settled (ℓ.arrived path ending final entries) ↔
      ℓ.Exact ending final entries := by
  induction entries with
  | nil =>
      rfl
  | cons e rest ih =>
      rw [arrived, StdMap.Settled, Exact, ih, map_arrived_key, stored_inj,
        cut_remnant]

theorem finish_inj {m m' : Dictionary} {ℓ : Loader}
    (hkeys : forall k, m.contains k = m'.contains k) :
    ℓ.finish m = ℓ.finish m' ↔ m = m' := by
  constructor
  · intro h
    cases ℓ with
    | GenDict flag =>
        exact h
    | GenTDict =>
        exact h
    | ReadConfFile =>
        exact StdMap.touchAll_inj hkeys h
  · rintro rfl
    rfl

theorem run_eq_iff {files : Files} {path : CString} {ℓ : Loader}
    {ending : LineEnd} {final : Bool} {entries : List (Entry ℓ.separator)}
    (hfile : files (ℓ.opened path) =
      some (writeFile ℓ.mark ending final entries)) (map : Dictionary) :
    ℓ.run files path map =
        (0, ℓ.finish (map.insertAll
          (entries.map fun e => (e.key, ℓ.stored path e.value)))) ↔
      ℓ.Exact ending final entries := by
  rw [run_eq hfile, Prod.mk.injEq, foldl_line_writeFile,
    ← map_arrived_wanted ℓ path ending final, ← settled_arrived ℓ path]
  have hkeys : forall k,
      (map.insertAll ((ℓ.arrived path ending final entries).map
          fun t => (t.1, t.2.1))).contains k =
        (map.insertAll ((ℓ.arrived path ending final entries).map
          fun t => (t.1, t.2.2))).contains k := by
    intro k
    rw [StdMap.contains_insertAll, StdMap.contains_insertAll, List.map_map,
      List.map_map]
    rfl
  rw [finish_inj hkeys, StdMap.insertAll_eq_iff]
  constructor
  · intro h
    exact h.2.2
  · intro h
    exact ⟨rfl, fun _ _ => rfl, h⟩

theorem find_foldl_line_last (ℓ : Loader) (path : CString) (ending : LineEnd)
    (final : Bool) (entries : List (Entry ℓ.separator)) (e : Entry ℓ.separator)
    (map : Dictionary) :
    ((getlines [] (writeFile ℓ.mark ending final (entries ++ [e]))).foldl
        (ℓ.line path) map).find e.key =
      some (ℓ.stored path
        (ℓ.cut (e.value ++ remnant ending final ([] : List CString)))) := by
  have hlast : exists before, (ℓ.arrived path ending final (entries ++ [e])).map
      (fun t => (t.1, t.2.1)) = before ++ [(e.key, ℓ.stored path
        (ℓ.cut (e.value ++ remnant ending final ([] : List CString))))] := by
    induction entries with
    | nil =>
        exact ⟨[], rfl⟩
    | cons d rest ih =>
        rcases ih with ⟨before, hbefore⟩
        rw [List.cons_append, arrived, List.map_cons, hbefore]
        exact ⟨_ :: before, rfl⟩
  rcases hlast with ⟨before, hbefore⟩
  rw [foldl_line_writeFile, hbefore, StdMap.insertAll, List.foldl_append]
  exact StdMap.find_insert_self _ _ _

end Loader

/-!
## The table of characters
-/

/-- A traditional character and its simplified counterpart, as they can be listed. -/
structure CharPair where
  traditional : Char
  simplified : Char
  traditional_ok : traditional ≠ ' ' ∧ traditional ≠ '\n'
  simplified_ok : simplified ≠ '\n' ∧ simplified ≠ '\r'

theorem notMem_encodeChars_singleton {c d : Char} (h : c ≠ d)
    (hd : d.val.toNat < 0x80) : UInt8.ofNat d.val.toNat ∉ Utf8.encodeChars [c] := by
  intro hmem
  have hbyte : (UInt8.ofNat d.val.toNat).toNat = d.val.toNat := by
    rw [UInt8.toNat_ofNat']
    omega
  rw [Utf8.encodeChars_cons, Utf8.encodeChars_nil, List.append_nil] at hmem
  have hc := Utf8.val_of_mem_utf8EncodeChar hmem (by omega)
  rw [hbyte] at hc
  exact h (Char.ext (UInt32.toNat_inj.mp hc))

namespace CharPair

def entry (p : CharPair) : Entry 32 where
  key := Utf8.encodeChars [p.traditional]
  value := Utf8.encodeChars [p.simplified]
  key_sep := notMem_encodeChars_singleton p.traditional_ok.1 (by decide)
  key_line := notMem_encodeChars_singleton p.traditional_ok.2 (by decide)
  value_line :=
    ⟨notMem_encodeChars_singleton p.simplified_ok.1 (by decide),
      notMem_encodeChars_singleton p.simplified_ok.2 (by decide)⟩

/-- The counterpart that is listed last. -/
def lookup (table : List CharPair) (c : Char) (found : Option Char) :
    Option Char :=
  table.foldl (fun d p => if p.traditional = c then some p.simplified else d) found

def simplify (table : List CharPair) (c : Char) : Char :=
  (lookup table c none).getD c

def gen_trand2simp_txt (table : List CharPair) : CString :=
  table.flatMap fun p =>
    Utf8.encodeChars [p.traditional] ++ str " " ++ Utf8.encodeChars [p.simplified] ++
      str "\n"

theorem gen_trand2simp_txt_eq (table : List CharPair) :
    gen_trand2simp_txt table =
      writeFile [] LineEnd.lf true (table.map entry) := by
  have hblank : str " " = [32] := by decide +kernel
  have hnewline : str "\n" = [10] := by decide +kernel
  induction table with
  | nil =>
      rfl
  | cons p table ih =>
      rw [gen_trand2simp_txt, List.flatMap_cons, ← gen_trand2simp_txt, ih,
        hblank, hnewline, List.map_cons, writeFile]
      simp [Entry.text, entry, terminated, LineEnd.bytes]

end CharPair

/-- Every sentence is simplified as the table says. -/
def SimplifiesAll (map : Dictionary) (table : List CharPair) : Prop :=
  forall sentence : List Char,
    FrontEngineInterface.Trand2Simp map (Utf8.units sentence) =
      Except.ok (Utf8.units (sentence.map (CharPair.simplify table)))

theorem find_insertAll_entries {c : Char} (table : List CharPair)
    {map : Dictionary} {found : Option Char}
    (h : map.find (Utf8.encodeChars [c]) =
      found.map fun d => Utf8.encodeChars [d]) :
    (map.insertAll ((table.map CharPair.entry).map
        fun e => (e.key, e.value))).find (Utf8.encodeChars [c]) =
      (CharPair.lookup table c found).map fun d => Utf8.encodeChars [d] := by
  induction table generalizing map found with
  | nil =>
      exact h
  | cons p table ih =>
      rw [List.map_cons, List.map_cons, StdMap.insertAll_cons, CharPair.lookup,
        List.foldl_cons, ← CharPair.lookup]
      apply ih
      by_cases hc : p.traditional = c
      · subst hc
        rw [if_pos rfl]
        exact StdMap.find_insert_self _ _ _
      · rw [if_neg hc, ← h]
        apply StdMap.find_insert_of_ne
        intro heq
        have hkey := Utf8.encodeChars_injective heq
        exact hc (List.cons.inj hkey).1.symm

theorem Trand2Simp_cons (map : Dictionary) (c : Char) (w : WString) :
    FrontEngineInterface.Trand2Simp map (c.val :: w) = (do
      let simp <- match map.find (Utf8.encodeChars [c]) with
        | some bytes => utf8string2wstring bytes
        | none => Except.ok [c.val]
      let rest <- FrontEngineInterface.Trand2Simp map w
      pure (simp ++ rest)) := by
  have hword : wstring2utf8string [c.val] = Except.ok (Utf8.encodeChars [c]) :=
    wstring2utf8string_units [c]
  rw [FrontEngineInterface.Trand2Simp, hword]
  cases hfind : map.find (Utf8.encodeChars [c]) with
  | none =>
      have hnot : map.contains (Utf8.encodeChars [c]) = false := by
        rw [StdMap.contains, hfind]
        rfl
      simp only [bind, Except.bind, hnot]
      rfl
  | some bytes =>
      have hin : map.contains (Utf8.encodeChars [c]) = true := by
        rw [StdMap.contains, hfind]
        rfl
      have hpeek : map.peek (Utf8.encodeChars [c]) = bytes := by
        rw [StdMap.peek, hfind]
        rfl
      simp only [bind, Except.bind, hin, hpeek]
      rfl

theorem simplifiesAll_insertAll (table : List CharPair) :
    SimplifiesAll (StdMap.empty.insertAll ((table.map CharPair.entry).map
      fun e => (e.key, e.value))) table := by
  intro sentence
  induction sentence with
  | nil =>
      rfl
  | cons c sentence ih =>
      have hempty : (StdMap.empty : Dictionary).find (Utf8.encodeChars [c]) =
          (none : Option Char).map fun d => Utf8.encodeChars [d] := rfl
      have hfind := find_insertAll_entries table hempty
      rw [Utf8.units_cons, Trand2Simp_cons, hfind, ih, List.map_cons,
        Utf8.units_cons, CharPair.simplify]
      cases CharPair.lookup table c none with
      | none =>
          rfl
      | some d =>
          simp only [Option.map_some, utf8string2wstring_encodeChars]
          rfl

theorem exact_crlf (entries : List (Entry 32)) :
    (Loader.GenDict true).Exact LineEnd.crlf true entries := by
  induction entries with
  | nil =>
      trivial
  | cons e rest ih =>
      exact ⟨Or.inr (Or.inl rfl), ih⟩

theorem not_simplifiesAll_of_last {files : Files} {path : CString}
    {ending : LineEnd} {final : Bool} {table : List CharPair} {p : CharPair}
    (hfile : files path = some (writeFile [] ending final
      ((table ++ [p]).map CharPair.entry)))
    (hend : ¬ (ending = LineEnd.crlf ∧ final = true)) :
    ¬ SimplifiesAll
      (FrontEngineInterface.GenDict files path StdMap.empty true).2
      (table ++ [p]) := by
  intro hall
  have hrun := Loader.run_eq (ℓ := Loader.GenDict true) hfile StdMap.empty
  have hmap : (FrontEngineInterface.GenDict files path StdMap.empty true).2 =
      _ := congrArg Prod.snd hrun
  have hremnant : remnant ending final ([] : List CString) = [] := by
    cases ending with
    | lf =>
        rfl
    | crlf =>
        cases final with
        | false => rfl
        | true => exact absurd ⟨rfl, rfl⟩ hend
  have hfind : (FrontEngineInterface.GenDict files path StdMap.empty true).2.find
      (Utf8.encodeChars [p.traditional]) =
        some (Utf8.encodeChars [p.simplified]).dropLast := by
    have hlast := Loader.find_foldl_line_last (Loader.GenDict true) path ending
      final (table.map CharPair.entry) p.entry StdMap.empty
    rw [hremnant, List.append_nil] at hlast
    rw [hmap, List.map_append]
    exact hlast
  have hsimplify : CharPair.simplify (table ++ [p]) p.traditional =
      p.simplified := by
    simp [CharPair.simplify, CharPair.lookup]
  have hone := hall [p.traditional]
  rw [List.map_singleton, hsimplify, Utf8.units_cons, Trand2Simp_cons,
    hfind] at hone
  have hbytes : Utf8.encodeChars [p.simplified] =
      String.utf8EncodeChar p.simplified := by
    simp
  simp only [hbytes, utf8string2wstring] at hone
  rcases Utf8.decode_dropLast_utf8EncodeChar p.simplified with h | h
  · rw [h] at hone
    cases hone
  · rw [h] at hone
    cases hone

theorem simplifiesAll_iff {files : Files} {path : CString} {ending : LineEnd}
    {final : Bool} {table : List CharPair}
    (hfile : files path = some (writeFile [] ending final
      (table.map CharPair.entry))) :
    SimplifiesAll (FrontEngineInterface.GenDict files path StdMap.empty true).2
        table ↔
      table = [] ∨ (ending = LineEnd.crlf ∧ final = true) := by
  constructor
  · intro hall
    by_cases hend : ending = LineEnd.crlf ∧ final = true
    · exact Or.inr hend
    · left
      rcases List.eq_nil_or_concat table with hnil | ⟨init, p, htable⟩
      · exact hnil
      · rw [List.concat_eq_append] at htable
        subst htable
        exact absurd hall (not_simplifiesAll_of_last hfile hend)
  · intro hcond
    have hexact : (Loader.GenDict true).Exact ending final
        (table.map CharPair.entry) := by
      rcases hcond with rfl | ⟨rfl, rfl⟩
      · trivial
      · exact exact_crlf _
    have hrun := (Loader.run_eq_iff (ℓ := Loader.GenDict true) hfile
      StdMap.empty).mpr hexact
    have hmap : (FrontEngineInterface.GenDict files path StdMap.empty true).2 =
        _ := congrArg Prod.snd hrun
    rw [hmap]
    exact simplifiesAll_insertAll table

/-!
## All loaders
-/

/-- Which files are loaded as they were written. -/
theorem loaders_exact_iff (files : Files) (path : CString) (ending : LineEnd)
    (final : Bool) :
    (forall (ℓ : Loader) (entries : List (Entry ℓ.separator)) (map : Dictionary),
      files (ℓ.opened path) = some (writeFile ℓ.mark ending final entries) ->
      (ℓ.run files path map =
          (0, ℓ.finish (map.insertAll
            (entries.map fun e => (e.key, ℓ.stored path e.value)))) ↔
        ℓ.Exact ending final entries)) ∧
    (forall table : List CharPair,
      files path =
        some (writeFile [] ending final (table.map CharPair.entry)) ->
      (SimplifiesAll
          (FrontEngineInterface.GenDict files path StdMap.empty true).2 table ↔
        table = [] ∨ (ending = LineEnd.crlf ∧ final = true))) := by
  constructor
  · intro ℓ entries map hfile
    exact Loader.run_eq_iff hfile map
  · intro table hfile
    exact simplifiesAll_iff hfile

/-- A table of one line. -/
def nation : CharPair where
  traditional := '國'
  simplified := '国'
  traditional_ok := by decide
  simplified_ok := by decide

def nationFile (ending : LineEnd) (_ : CString) : Option CString :=
  some (writeFile [] ending true [nation.entry])

theorem loaders_exact_iff_nation :
    (Loader.GenDict true).run (nationFile LineEnd.crlf) [] StdMap.empty =
      (0, StdMap.empty.insert (str "國") (str "国")) ∧
    SimplifiesAll (FrontEngineInterface.GenDict (nationFile LineEnd.crlf) []
      StdMap.empty true).2 [nation] := by
  have hexact := loaders_exact_iff (nationFile LineEnd.crlf) [] LineEnd.crlf true
  constructor
  · exact (hexact.1 (Loader.GenDict true) [nation.entry] StdMap.empty rfl).mpr
      (exact_crlf _)
  · exact (hexact.2 [nation] rfl).mpr (Or.inr ⟨rfl, rfl⟩)

/-- The file of the script loses the last byte of every character. -/
theorem gen_trand2simp_txt_truncated :
    nationFile LineEnd.lf [] = some (CharPair.gen_trand2simp_txt [nation]) ∧
    (FrontEngineInterface.GenDict (nationFile LineEnd.lf) [] StdMap.empty
      true).2.find (str "國") = some (str "国").dropLast ∧
    (str "国").dropLast ≠ str "国" ∧
    FrontEngineInterface.Trand2Simp
      (FrontEngineInterface.GenDict (nationFile LineEnd.lf) [] StdMap.empty true).2
      (wstr "國") = Except.error Error.range_error := by
  refine ⟨?_, ?_, ?_, ?_⟩
  · rw [CharPair.gen_trand2simp_txt_eq]
    rfl
  · decide +kernel
  · decide +kernel
  · decide +kernel

end VoiceTts
