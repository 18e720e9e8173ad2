import Mathlib.Data.List.DropRight
import VoiceTts.Segmenter.DictFile
import VoiceTts.Segmenter.HMMModel

/-!
# The file of the model

`LoadModel` reads nine lines: the weights of the first status, a row of weights for each
status, and the emissions of each status.  Blank lines and comments stand between them.
As in the dictionary, the last byte of every line is taken for a carriage return.
-/

namespace VoiceTts
namespace Cppjieba

/-- A byte that is no ASCII character is no space. -/
def Trim (s : CString) : CString :=
  (s.rdropWhile isspace).dropWhile isspace

def GetLine : List CString -> Option (CString × List CString)
  | [] => none
  | line :: rest =>
      let line := Trim (substr line 0 (line.length - 1))
      if line = [] ∨ line.head? = some 35 then GetLine rest else some (line, rest)

/-- A value for each status, in the order of their numbers. -/
def Status.pick {α : Type} (b e m s : α) : Status -> α
  | Status.B => b
  | Status.E => e
  | Status.M => m
  | Status.S => s

theorem Status.pick_self {α : Type} (f : Status -> α) :
    Status.pick (f Status.B) (f Status.E) (f Status.M) (f Status.S) = f := by
  funext s
  cases s with
  | B =>
      rfl
  | E =>
      rfl
  | M =>
      rfl
  | S =>
      rfl

namespace HMMModel

variable {W : Type} (m : Libm W)

/-- `XCHECK(GetLine(ifile, line))` -/
def nextLine (lines : List CString) : Except Fatal (CString × List CString) :=
  match GetLine lines with
  | none => Except.error Fatal.check_failed
  | some r => Except.ok r

def loadNumbers (line : CString) : Except Fatal (Status -> W) :=
  match Split line (str " ") with
  | [b, e, mid, s] =>
      Except.ok (Status.pick (m.atof b) (m.atof e) (m.atof mid) (m.atof s))
  | _ => Except.error Fatal.check_failed

/-- The loop of `LoadEmitProb`, which ends where a part is no rune with a number. -/
def emitParts : StdMap Rune W -> List CString -> Option (StdMap Rune W)
  | mp, [] => some mp
  | mp, part :: tmp =>
      match Split part (str ":") with
      | [key, number] =>
          match PosTagger.DecodeRunesInString key with
          | some [rune] => emitParts (mp.insert rune (m.atof number)) tmp
          | _ => none
      | _ => none

def LoadEmitProb (line : CString) : Except Fatal (StdMap Rune W) :=
  if line = [] then Except.error Fatal.check_failed
  else
    match emitParts m StdMap.empty (Split line (str ",")) with
    | some mp => Except.ok mp
    | none => Except.error Fatal.check_failed

/-- Four lines, one for each status. -/
def eachStatus {α : Type} (load : CString -> Except Fatal α) (lines : List CString) :
    Except Fatal ((Status -> α) × List CString) := do
  let b <- nextLine lines
  let forB <- load b.1
  let e <- nextLine b.2
  let forE <- load e.1
  let mid <- nextLine e.2
  let forM <- load mid.1
  let s <- nextLine mid.2
  let forS <- load s.1
  pure (Status.pick forB forE forM forS, s.2)

def LoadModel (files : Files) (filePath : CString) : Except Fatal (HMMModel W) :=
  match files filePath with
  | none => Except.error Fatal.open_failed
  | some bytes => do
      let line <- nextLine (getlines [] bytes)
      let startProb <- loadNumbers m line.1
      let trans <- eachStatus (loadNumbers m) line.2
      let emit <- eachStatus (LoadEmitProb m) trans.2
      pure ⟨startProb, trans.1, emit.1⟩

end HMMModel

/-!
## Writing a model
-/

/-- What stands between spaces, commas and colons. -/
def Cell (s : CString) : Prop :=
  s ≠ [] ∧ forall c, c ∈ s -> isspace c = false ∧ c ≠ 35 ∧ c ≠ 44 ∧ c ≠ 58

instance (s : CString) : Decidable (Cell s) :=
  inferInstanceAs (Decidable (_ ∧ _))

structure Emission where
  key : CString
  rune : Rune
  number : CString
  decodes : PosTagger.DecodeRunesInString key = some [rune]
  key_cell : Cell key
  number_cell : Cell number

structure ModelText where
  startProb : Status -> CString
  transProb : Status -> Status -> CString
  emitProb : Status -> List Emission
  start_cell : forall s, Cell (startProb s)
  trans_cell : forall s t, Cell (transProb s t)
  emit_ne_nil : forall s, emitProb s ≠ []

def numbersRow (numbers : Status -> CString) : CString :=
  (str " ").intercalate (Status.all.map numbers)

def Emission.text (e : Emission) : CString :=
  e.key ++ str ":" ++ e.number

def emissionsRow (emissions : List Emission) : CString :=
  (str ",").intercalate (emissions.map Emission.text)

/-- The nine lines of a model. -/
def ModelText.rows (t : ModelText) : List CString :=
  numbersRow t.startProb :: (Status.all.map (fun s => numbersRow (t.transProb s)) ++
    Status.all.map fun s => emissionsRow (t.emitProb s))

/-- A line that is blank, or whose first character is `#`. -/
def Comment (line : CString) : Prop :=
  10 ∉ line ∧ forall c, (line.dropWhile isspace).head? = some c -> c = 35

/-- The lines are the rows, with comments before, between and behind them. -/
inductive Annotated : List CString -> List CString -> Prop where
  | nil : Annotated [] []
  | comment {rows lines : List CString} {line : CString} :
      Comment line -> Annotated rows lines -> Annotated rows (line :: lines)
  | row {rows lines : List CString} (row : CString) :
      Annotated rows lines -> Annotated (row :: rows) (row :: lines)

theorem annotated_self (rows : List CString) : Annotated rows rows := by
  induction rows with
  | nil =>
      exact Annotated.nil
  | cons row rows ih =>
      exact Annotated.row row ih

/-- A file of lines that all end in the same way. -/
def writeLines (ending : LineEnd) (lines : List CString) : CString :=
  lines.flatMap fun line => line ++ ending.bytes

/-- What is left of a text at the end of a line. -/
def arriving : LineEnd -> CString -> CString
  | LineEnd.lf, text => text.dropLast
  | LineEnd.crlf, text => text

def arrivingNumbers (ending : LineEnd) (numbers : Status -> CString) : Status -> CString
  | Status.S => arriving ending (numbers Status.S)
  | s => numbers s

def arrivingEmissions (ending : LineEnd) : List Emission -> List (Rune × CString)
  | [] => []
  | [e] => [(e.rune, arriving ending e.number)]
  | e :: rest => (e.rune, e.number) :: arrivingEmissions ending rest

def ModelText.model {W : Type} (m : Libm W) (ending : LineEnd) (t : ModelText) :
    HMMModel W where
  startProb := fun s => m.atof (arrivingNumbers ending t.startProb s)
  transProb := fun s s' => m.atof (arrivingNumbers ending (t.transProb s) s')
  emitProbVec := fun s => StdMap.empty.insertAll
    ((arrivingEmissions ending (t.emitProb s)).map fun e => (e.1, m.atof e.2))

/-- The numbers at the ends of the nine lines. -/
def ModelText.lastNumbers (t : ModelText) : List CString :=
  t.startProb Status.S :: (Status.all.map (fun s => t.transProb s Status.S) ++
    Status.all.flatMap fun s => ((t.emitProb s).getLast?.map Emission.number).toList)

/-!
## Lines
-/

theorem arriving_append (ending : LineEnd) (s : CString) {t : CString} (ht : t ≠ []) :
    arriving ending (s ++ t) = s ++ arriving ending t := by
  cases ending with
  | lf =>
      exact List.dropLast_append_of_ne_nil ht
  | crlf =>
      rfl

theorem arriving_isPrefix (ending : LineEnd) (s : CString) : arriving ending s <+: s := by
  cases ending with
  | lf =>
      exact List.dropLast_prefix s
  | crlf =>
      exact List.prefix_refl s

theorem getlines_writeLines (ending : LineEnd) {line : CString} (hline : 10 ∉ line)
    (lines : List CString) :
    exists raw, getlines [] (writeLines ending (line :: lines)) =
        raw :: getlines [] (writeLines ending lines) ∧
      substr raw 0 (raw.length - 1) = arriving ending line := by
  have hcons : writeLines ending (line :: lines) =
      line ++ (ending.bytes ++ writeLines ending lines) := by
    rw [writeLines, List.flatMap_cons, List.append_assoc]
    rfl
  rw [hcons, getlines_append hline]
  cases ending with
  | lf =>
      exact ⟨line, getlines_newline _ _, substr_dropLast line⟩
  | crlf =>
      refine ⟨line ++ [13], ?_, ?_⟩
      · exact getlines_newline _ _
      · rw [substr_dropLast, List.dropLast_concat]
        rfl

theorem Comment.of_isPrefix {line q : CString} (h : Comment line) (hq : q <+: line) {c : UInt8}
    (hc : (q.dropWhile isspace).head? = some c) : c = 35 := by
  rcases hq with ⟨t, rfl⟩
  refine h.2 c ?_
  rw [List.dropWhile_append]
  cases hdrop : q.dropWhile isspace with
  | nil =>
      rw [hdrop] at hc
      cases hc
  | cons d rest =>
      rw [hdrop] at hc
      exact hc

theorem GetLine_comment (ending : LineEnd) {line : CString} (h : Comment line)
    (lines : List CString) :
    GetLine (getlines [] (writeLines ending (line :: lines))) =
      GetLine (getlines [] (writeLines ending lines)) := by
  rcases getlines_writeLines ending h.1 lines with ⟨raw, hraw, hcut⟩
  rw [hraw, GetLine, hcut]
  refine if_pos ?_
  cases htrim : Trim (arriving ending line) with
  | nil =>
      exact Or.inl rfl
  | cons c rest =>
      have hshorter := (List.rdropWhile_prefix isspace (arriving ending line)).trans
        (arriving_isPrefix ending line)
      refine Or.inr (congrArg some (h.of_isPrefix hshorter ?_))
      exact congrArg List.head? htrim

/-- A text that `Trim` leaves alone, and that is no comment. -/
structure Solid (s : CString) : Prop where
  first : exists c t, s = c :: t ∧ isspace c = false ∧ c ≠ 35
  last : exists u d, s = u ++ [d] ∧ isspace d = false

theorem Solid.trim {s : CString} (h : Solid s) : Trim s = s := by
  rcases h.last with ⟨u, d, hlast, hd⟩
  rcases h.first with ⟨c, t, hfirst, hc, -⟩
  have hright : s.rdropWhile isspace = s := by
    rw [hlast]
    exact List.rdropWhile_concat_neg _ _ _ (by simp [hd])
  rw [Trim, hright, hfirst]
  exact List.dropWhile_cons_of_neg (by simp [hc])

theorem GetLine_row (ending : LineEnd) {row : CString} (hline : 10 ∉ row)
    (hsolid : Solid (arriving ending row)) (lines : List CString) :
    GetLine (getlines [] (writeLines ending (row :: lines))) =
      some (arriving ending row, getlines [] (writeLines ending lines)) := by
  rcases getlines_writeLines ending hline lines with ⟨raw, hraw, hcut⟩
  rw [hraw, GetLine, hcut, hsolid.trim]
  refine if_neg ?_
  rcases hsolid.first with ⟨c, t, heq, -, hc⟩
  rw [heq]
  simp [hc]

/-- The next line that is read is the next row, whatever comments stand before it. -/
theorem nextLine_row (ending : LineEnd) {row : CString} {rows lines : List CString}
    (h : Annotated (row :: rows) lines) (hline : 10 ∉ row)
    (hsolid : Solid (arriving ending row)) :
    exists lines', Annotated rows lines' ∧
      HMMModel.nextLine (getlines [] (writeLines ending lines)) =
        Except.ok (arriving ending row, getlines [] (writeLines ending lines')) := by
  generalize hall : row :: rows = all at h
  induction h with
  | nil =>
      cases hall
  | comment hcomment _ ih =>
      rcases ih hall with ⟨lines', hrest, hnext⟩
      refine ⟨lines', hrest, ?_⟩
      unfold HMMModel.nextLine at hnext ⊢
      rw [GetLine_comment ending hcomment]
      exact hnext
  | row row' hrest =>
      cases hall
      refine ⟨_, hrest, ?_⟩
      unfold HMMModel.nextLine
      rw [GetLine_row ending hline hsolid]


/-!
## Rows
-/

section Rows

variable {W : Type} (m : Libm W) (ending : LineEnd)

/-- A row has no line feed and no `#`, and there are no spaces at its ends. -/
structure Row (row : CString) : Prop where
  line : 10 ∉ row
  solid : Solid (arriving ending row)

theorem Cell.free {s : CString} (h : Cell s) {sep : CString}
    (hsep : forall c, c ∈ sep -> c = 32 ∨ c = 44 ∨ c = 58) : forall c, c ∈ s -> c ∉ sep := by
  intro c hc hmem
  have hcell := h.2 c hc
  rcases hsep c hmem with rfl | rfl | rfl
  · exact absurd hcell.1 (by decide)
  · exact hcell.2.2.1 rfl
  · exact hcell.2.2.2 rfl

theorem Cell.newline {s : CString} (h : Cell s) : 10 ∉ s := by
  intro hmem
  exact absurd (h.2 10 hmem).1 (by decide)

theorem cell_arriving {s : CString} (h : Cell s) (hne : arriving ending s ≠ []) :
    Cell (arriving ending s) :=
  ⟨hne, fun c hc => h.2 c ((arriving_isPrefix ending s).subset hc)⟩

theorem Solid.between {s t : CString} (hs : Cell s) (ht : Cell t) (mid : CString) :
    Solid (s ++ mid ++ t) where
  first := by
    cases s with
    | nil =>
        exact absurd rfl hs.1
    | cons c s =>
        have hc := hs.2 c (List.mem_cons_self ..)
        exact ⟨c, s ++ mid ++ t, rfl, hc.1, hc.2.1⟩
  last := by
    have hlast := List.dropLast_append_getLast ht.1
    refine ⟨s ++ mid ++ t.dropLast, t.getLast ht.1, ?_, ?_⟩
    · rw [List.append_assoc _ t.dropLast, hlast]
    · exact (ht.2 _ (List.getLast_mem ht.1)).1

variable {numbers : Status -> CString}

theorem numbersRow_eq (numbers : Status -> CString) :
    numbersRow numbers = numbers Status.B ++ 32 :: (numbers Status.E ++
      32 :: (numbers Status.M ++ 32 :: numbers Status.S)) := by
  have hstr : str " " = [32] := by
    decide
  simp [numbersRow, List.intercalate, Status.all, hstr]

theorem arriving_numbersRow (h : forall s, Cell (numbers s)) :
    arriving ending (numbersRow numbers) = numbersRow (arrivingNumbers ending numbers) := by
  have hsplit : numbersRow numbers = (numbers Status.B ++ 32 :: (numbers Status.E ++
      32 :: (numbers Status.M ++ [32]))) ++ numbers Status.S := by
    rw [numbersRow_eq]
    simp
  rw [hsplit, arriving_append ending _ (h Status.S).1, numbersRow_eq]
  simp [arrivingNumbers]

theorem cell_arrivingNumbers (h : forall s, Cell (numbers s))
    (hlast : arriving ending (numbers Status.S) ≠ []) (s : Status) :
    Cell (arrivingNumbers ending numbers s) := by
  cases s with
  | B =>
      exact h Status.B
  | E =>
      exact h Status.E
  | M =>
      exact h Status.M
  | S =>
      exact cell_arriving ending (h Status.S) hlast

theorem row_numbers (h : forall s, Cell (numbers s))
    (hlast : arriving ending (numbers Status.S) ≠ []) : Row ending (numbersRow numbers) where
  line := by
    rw [numbersRow_eq]
    simp [fun s => (h s).newline]
  solid := by
    have hcells := cell_arrivingNumbers ending h hlast
    have hbetween := Solid.between (hcells Status.B) (hcells Status.S)
      (32 :: (arrivingNumbers ending numbers Status.E ++
        32 :: (arrivingNumbers ending numbers Status.M ++ [32])))
    rw [arriving_numbersRow ending h, numbersRow_eq]
    simpa using hbetween

theorem loadNumbers_row (h : forall s, Cell (numbers s)) :
    HMMModel.loadNumbers m (numbersRow numbers) =
      Except.ok fun s => m.atof (numbers s) := by
  have hfree : forall s c, c ∈ numbers s -> c ∉ str " " := fun s =>
    (h s).free fun c hc => Or.inl (List.mem_singleton.mp hc)
  have hblank : (32 : UInt8) ∈ str " " := by
    decide
  have hsplit : Split (numbersRow numbers) (str " ") =
      [numbers Status.B, numbers Status.E, numbers Status.M, numbers Status.S] := by
    rw [numbersRow_eq, Split_separator (hfree _) hblank, Split_separator (hfree _) hblank,
      Split_separator (hfree _) hblank, Split_last (hfree _), if_neg (h Status.S).1]
  unfold HMMModel.loadNumbers
  rw [hsplit]
  exact congrArg Except.ok (Status.pick_self fun s => m.atof (numbers s))

theorem numbers_arrive (h : forall s, Cell (numbers s))
    (hlast : arriving ending (numbers Status.S) ≠ []) :
    Row ending (numbersRow numbers) ∧
      HMMModel.loadNumbers m (arriving ending (numbersRow numbers)) =
        Except.ok fun s => m.atof (arrivingNumbers ending numbers s) := by
  refine ⟨row_numbers ending h hlast, ?_⟩
  rw [arriving_numbersRow ending h,
    loadNumbers_row m (cell_arrivingNumbers ending h hlast)]

variable {e : Emission} {emissions : List Emission}

theorem Emission.text_eq (e : Emission) : e.text = e.key ++ 58 :: e.number := by
  have hstr : str ":" = [58] := by
    decide
  simp [Emission.text, hstr]

theorem emissionsRow_cons (e : Emission) {emissions : List Emission} (h : emissions ≠ []) :
    emissionsRow (e :: emissions) = e.text ++ 44 :: emissionsRow emissions := by
  cases emissions with
  | nil =>
      exact absurd rfl h
  | cons e' emissions =>
      have hstr : str "," = [44] := by
        decide
      simp [emissionsRow, List.intercalate, hstr]

theorem emissionsRow_ne_nil (h : emissions ≠ []) : emissionsRow emissions ≠ [] := by
  cases emissions with
  | nil =>
      exact absurd rfl h
  | cons e emissions =>
      cases emissions with
      | nil =>
          simp [emissionsRow, List.intercalate, e.text_eq]
      | cons e' emissions =>
          rw [emissionsRow_cons e (List.cons_ne_nil _ _)]
          simp

theorem arriving_single (e : Emission) :
    arriving ending (emissionsRow [e]) = e.key ++ 58 :: arriving ending e.number := by
  have htext : emissionsRow [e] = (e.key ++ [58]) ++ e.number := by
    simp [emissionsRow, List.intercalate, e.text_eq]
  rw [htext, arriving_append ending _ e.number_cell.1, List.append_assoc]
  rfl

/-- Only the last emission of a row is at the end of the line. -/
theorem arriving_cons (e e' : Emission) (emissions : List Emission) :
    arriving ending (emissionsRow (e :: e' :: emissions)) =
      (e.key ++ 58 :: e.number) ++ 44 :: arriving ending (emissionsRow (e' :: emissions)) := by
  have hrow : emissionsRow (e :: e' :: emissions) =
      (e.key ++ 58 :: (e.number ++ [44])) ++ emissionsRow (e' :: emissions) := by
    rw [emissionsRow_cons e (List.cons_ne_nil _ _), e.text_eq]
    simp
  rw [hrow, arriving_append ending _ (emissionsRow_ne_nil (List.cons_ne_nil _ _))]
  simp

theorem arriving_emissionsRow (e : Emission) (emissions : List Emission) :
    exists mid last, (e :: emissions).getLast? = some last ∧
      arriving ending (emissionsRow (e :: emissions)) =
        e.key ++ mid ++ arriving ending last.number := by
  induction emissions generalizing e with
  | nil =>
      refine ⟨[58], e, rfl, ?_⟩
      rw [arriving_single, List.append_assoc]
      rfl
  | cons e' emissions ih =>
      rcases ih e' with ⟨mid, last, hlast, hrow⟩
      refine ⟨58 :: (e.number ++ 44 :: (e'.key ++ mid)), last, ?_, ?_⟩
      · rw [List.getLast?_cons_cons]
        exact hlast
      · rw [arriving_cons, hrow]
        simp

theorem newline_emissionsRow (e : Emission) (emissions : List Emission) :
    10 ∉ emissionsRow (e :: emissions) := by
  induction emissions generalizing e with
  | nil =>
      simp [emissionsRow, List.intercalate, e.text_eq, e.key_cell.newline,
        e.number_cell.newline]
  | cons e' emissions ih =>
      rw [emissionsRow_cons e (List.cons_ne_nil _ _), e.text_eq]
      simp [e.key_cell.newline, e.number_cell.newline, ih e']

theorem row_emissions (e : Emission) (emissions : List Emission)
    (hlast : forall last, (e :: emissions).getLast? = some last ->
      arriving ending last.number ≠ []) :
    Row ending (emissionsRow (e :: emissions)) where
  line := newline_emissionsRow e emissions
  solid := by
    rcases arriving_emissionsRow ending e emissions with ⟨mid, last, hmem, hrow⟩
    rw [hrow]
    exact Solid.between e.key_cell (cell_arriving ending last.number_cell (hlast last hmem)) mid

theorem emitParts_cons (mp : StdMap Rune W) {key number : CString} {rune : Rune}
    (hkey : Cell key) (hnumber : Cell number)
    (hdecode : PosTagger.DecodeRunesInString key = some [rune]) (tmp : List CString) :
    HMMModel.emitParts m mp ((key ++ 58 :: number) :: tmp) =
      HMMModel.emitParts m (mp.insert rune (m.atof number)) tmp := by
  have hcolon : forall c, c ∈ str ":" -> c = 32 ∨ c = 44 ∨ c = 58 := fun c hc =>
    Or.inr (Or.inr (List.mem_singleton.mp hc))
  have hsplit : Split (key ++ 58 :: number) (str ":") = [key, number] := by
    rw [Split_separator (hkey.free hcolon) (by decide), Split_last (hnumber.free hcolon),
      if_neg hnumber.1]
  rw [HMMModel.emitParts, hsplit]
  simp only [hdecode]

theorem emitParts_row (mp : StdMap Rune W) (e : Emission) (emissions : List Emission)
    (hlast : forall last, (e :: emissions).getLast? = some last ->
      arriving ending last.number ≠ []) :
    HMMModel.emitParts m mp (Split (arriving ending (emissionsRow (e :: emissions))) (str ",")) =
      some (mp.insertAll ((arrivingEmissions ending (e :: emissions)).map
        fun e => (e.1, m.atof e.2))) := by
  have hcomma : forall c, c ∈ str "," -> c = 32 ∨ c = 44 ∨ c = 58 := fun c hc =>
    Or.inr (Or.inl (List.mem_singleton.mp hc))
  have hpart : forall {key number : CString}, Cell key -> Cell number ->
      forall c, c ∈ key ++ 58 :: number -> c ∉ str "," := by
    intro key number hkey hnumber c hc
    rcases List.mem_append.mp hc with hc | hc
    · exact hkey.free hcomma c hc
    · rcases List.mem_cons.mp hc with rfl | hc
      · decide
      · exact hnumber.free hcomma c hc
  induction emissions generalizing e mp with
  | nil =>
      have hnumber := cell_arriving ending e.number_cell (hlast e rfl)
      rw [arriving_single, Split_last (hpart e.key_cell hnumber),
        if_neg (List.append_ne_nil_of_left_ne_nil e.key_cell.1 _),
        emitParts_cons m mp e.key_cell hnumber e.decodes]
      rfl
  | cons e' emissions ih =>
      have hrest : forall last, (e' :: emissions).getLast? = some last ->
          arriving ending last.number ≠ [] := by
        intro last hmem
        refine hlast last ?_
        rw [List.getLast?_cons_cons]
        exact hmem
      rw [arriving_cons, Split_separator (hpart e.key_cell e.number_cell) (by decide),
        emitParts_cons m mp e.key_cell e.number_cell e.decodes, ih _ e' hrest]
      rfl

theorem emissions_arrive (hne : emissions ≠ [])
    (hlast : forall last, emissions.getLast? = some last -> arriving ending last.number ≠ []) :
    Row ending (emissionsRow emissions) ∧
      HMMModel.LoadEmitProb m (arriving ending (emissionsRow emissions)) =
        Except.ok (StdMap.empty.insertAll ((arrivingEmissions ending emissions).map
          fun e => (e.1, m.atof e.2))) := by
  cases emissions with
  | nil =>
      exact absurd rfl hne
  | cons e emissions =>
      have hrow := row_emissions ending e emissions hlast
      have hline : arriving ending (emissionsRow (e :: emissions)) ≠ [] := by
        rcases hrow.solid.first with ⟨c, t, htext, -⟩
        rw [htext]
        exact List.cons_ne_nil c t
      refine ⟨hrow, ?_⟩
      rw [HMMModel.LoadEmitProb, if_neg hline, emitParts_row m ending _ e emissions hlast]

theorem eachStatus_rows {α : Type} {load : CString -> Except Fatal α} {row : Status -> CString}
    {value : Status -> α} (hrow : forall s, Row ending (row s))
    (hload : forall s, load (arriving ending (row s)) = Except.ok (value s))
    {rows lines : List CString} (h : Annotated (Status.all.map row ++ rows) lines) :
    exists lines', Annotated rows lines' ∧
      HMMModel.eachStatus load (getlines [] (writeLines ending lines)) =
        Except.ok (value, getlines [] (writeLines ending lines')) := by
  rcases nextLine_row ending h (hrow _).line (hrow _).solid with ⟨linesB, hB, hnextB⟩
  rcases nextLine_row ending hB (hrow _).line (hrow _).solid with ⟨linesE, hE, hnextE⟩
  rcases nextLine_row ending hE (hrow _).line (hrow _).solid with ⟨linesM, hM, hnextM⟩
  rcases nextLine_row ending hM (hrow _).line (hrow _).solid with ⟨linesS, hS, hnextS⟩
  refine ⟨linesS, hS, ?_⟩
  unfold HMMModel.eachStatus
  rw [hnextB, ok_bind, hload, ok_bind, hnextE, ok_bind, hload,
    ok_bind, hnextM, ok_bind, hload, ok_bind, hnextS, ok_bind,
    hload, ok_bind, Status.pick_self]
  rfl

theorem arriving_ne_nil {s : CString} (h : Cell s)
    (hlong : ending = LineEnd.lf -> 2 ≤ s.length) : arriving ending s ≠ [] := by
  cases ending with
  | lf =>
      intro hnil
      have hlength := congrArg List.length hnil
      have htwo := hlong rfl
      rw [arriving, List.length_dropLast, List.length_nil] at hlength
      omega
  | crlf =>
      exact h.1

end Rows

namespace HMMModel

variable {W : Type}

/-- A written model is loaded with its comments left out, and its rows are read as they
were written if the lines end in carriage returns.  With line feeds alone, as in the file
of the app, the last number of each row loses its last byte; it must have two. -/
theorem LoadModel_written (m : Libm W) (files : Files) (filePath : CString)
    (ending : LineEnd) (t : ModelText) (lines : List CString)
    (hannotated : Annotated t.rows lines)
    (hfile : files filePath = some (writeLines ending lines))
    (hlong : ending = LineEnd.lf -> forall number, number ∈ t.lastNumbers -> 2 ≤ number.length) :
    LoadModel m files filePath = Except.ok (t.model m ending) := by
  have hstart := numbers_arrive m ending t.start_cell
    (arriving_ne_nil ending (t.start_cell Status.S) fun hlf =>
      hlong hlf _ (List.mem_cons_self ..))
  have htrans := fun s => numbers_arrive m ending (t.trans_cell s)
    (arriving_ne_nil ending (t.trans_cell s Status.S) fun hlf =>
      hlong hlf _ (List.mem_cons_of_mem _ (List.mem_append_left _
        (List.mem_map_of_mem (Status.mem_all s)))))
  have hlast : forall s last, (t.emitProb s).getLast? = some last ->
      arriving ending last.number ≠ [] := by
    intro s last hlast
    refine arriving_ne_nil ending last.number_cell fun hlf => hlong hlf _ ?_
    refine List.mem_cons_of_mem _ (List.mem_append_right _ ?_)
    refine List.mem_flatMap.mpr ⟨s, Status.mem_all s, ?_⟩
    rw [hlast]
    exact List.mem_singleton_self _
  have hemit := fun s => emissions_arrive m ending (t.emit_ne_nil s) (hlast s)
  -- The three parts of the file one after the other.
  rcases nextLine_row ending hannotated hstart.1.line hstart.1.solid with
    ⟨lines₁, hlines₁, hnext⟩
  rcases eachStatus_rows ending (fun s => (htrans s).1) (fun s => (htrans s).2) hlines₁ with
    ⟨lines₂, hlines₂, heachTrans⟩
  rw [← List.append_nil (Status.all.map _)] at hlines₂
  rcases eachStatus_rows ending (fun s => (hemit s).1) (fun s => (hemit s).2) hlines₂ with
    ⟨lines₃, -, heachEmit⟩
  unfold LoadModel
  rw [hfile]
  dsimp only
  rw [hnext, ok_bind, hstart.2, ok_bind, heachTrans, ok_bind, heachEmit, ok_bind]
  rfl

/-- The emission of 中. -/
def middleEmission : Emission where
  key := str "中"
  rune := 0x4e2d
  number := str "10"
  decodes := by decide
  key_cell := by decide
  number_cell := by decide

/-- A model in which all weights are written as 10. -/
def tens : ModelText where
  startProb := fun _ => str "10"
  transProb := fun _ _ => str "10"
  emitProb := fun _ => [middleEmission]
  start_cell := fun _ => by decide
  trans_cell := fun _ _ => by decide
  emit_ne_nil := fun _ => List.cons_ne_nil _ _

/-- Behind a comment and with line feeds alone, the last weight of a row is read as 1. -/
theorem LoadModel_written_tens :
    LoadModel DictTrie.wholeNumbers
        (fun _ => some (writeLines LineEnd.lf (str "#10" :: tens.rows))) [] =
        Except.ok (tens.model DictTrie.wholeNumbers LineEnd.lf) ∧
      (tens.model DictTrie.wholeNumbers LineEnd.lf).startProb Status.M = 10 ∧
      (tens.model DictTrie.wholeNumbers LineEnd.lf).startProb Status.S = 1 := by
  have hcomment : Comment (str "#10") := by
    refine ⟨by decide, fun c hc => ?_⟩
    have hhead : ((str "#10").dropWhile isspace).head? = some 35 := by
      decide
    rw [hhead] at hc
    exact (Option.some.inj hc).symm
  have hlong : forall number, number ∈ tens.lastNumbers -> 2 ≤ number.length := by
    decide
  exact ⟨LoadModel_written DictTrie.wholeNumbers _ [] LineEnd.lf tens _
    (Annotated.comment hcomment (annotated_self tens.rows)) rfl fun _ => hlong,
    by decide, by decide⟩

end HMMModel

end Cppjieba
end VoiceTts
