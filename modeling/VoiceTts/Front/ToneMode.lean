import VoiceTts.Front.LineEnds
import VoiceTts.Front.Synthesis

/-!
# Separate tones

Whether the engine gives tone ids of their own is a setting of the configuration
file.  Every value of that file is taken for a path below its directory, so that the
setting is compared in a form in which it was not written.  In either mode the
vectors of ids keep their shape over any sequence of calls.
-/

namespace VoiceTts

open FrontEngineInterface

/-!
## What a sequence of calls appends
-/

section Shape

variable {st : Setup} {P : List Int × List Int -> Prop}

/-- What holds of the ids of every phone and is kept by appending. -/
structure IdsShape (st : Setup) (P : List Int × List Int -> Prop) : Prop where
  nil : P ([], [])
  append : forall {r s}, P r -> P s -> P (r.1 ++ s.1, r.2 ++ s.2)
  phone : forall phone e, Yields P (fun _ => True) (idsOfPhone st phone e).1

theorem yields_True {α ε : Type} (r : Except ε α) :
    Yields (fun _ => True) (fun _ => True) r := by
  cases r <;> trivial

theorem IdsShape.loop {α : Type} (h : IdsShape st P)
    (item : α -> FrontM (List Int × List Int))
    {items : List α -> FrontM (List Int × List Int)}
    (hnil : items [] = pure ([], []))
    (hcons : forall a l, items (a :: l) = (do
      let r <- item a
      let rs <- items l
      pure (r.1 ++ rs.1, r.2 ++ rs.2)))
    (hitem : forall a e, Yields P (fun _ => True) (item a e).1)
    (l : List α) (e : FrontEngineInterface) :
    Yields P (fun _ => True) (items l e).1 := by
  induction l generalizing e with
  | nil =>
      rw [hnil]
      exact h.nil
  | cons a l ih =>
      rw [hcons]
      refine Prog.yields_bind (hitem a e) ?_
      intro r e1 hr _
      refine Prog.yields_bind (ih e1) ?_
      intro rs e2 hrs _
      exact h.append hr hrs

theorem IdsShape.Phone2Phoneid (h : IdsShape st P) (phone : CString)
    (e : FrontEngineInterface) :
    Yields P (fun _ => True) (Phone2Phoneid st phone e).1 :=
  h.loop (idsOfPhone st) rfl (fun _ _ => rfl) h.phone _ e

theorem IdsShape.idsOfToken (h : IdsShape st P) (t : CString × CString)
    (e : FrontEngineInterface) :
    Yields P (fun _ => True) (idsOfToken st t e).1 := by
  unfold FrontEngineInterface.idsOfToken
  split
  · split
    · exact h.nil
    · split
      · exact h.Phone2Phoneid _ e
      · refine Prog.yields_bind (yields_True _) ?_
        intro r e1 _ _
        refine Prog.yields_bind (yields_True _) ?_
        intro phone e2 _ _
        exact h.Phone2Phoneid phone e2
  · split
    · refine Prog.yields_bind (yields_True _) ?_
      intro word_final e1 _ _
      refine h.loop (idsOfLatinPhone st) rfl (fun _ _ => rfl) ?_ word_final e1
      intro phone e2
      refine Prog.yields_bind (yields_True _) ?_
      intro entry e3 _ _
      split
      · exact h.Phone2Phoneid phone e3
      · exact h.nil
    · exact h.nil

theorem IdsShape.GetSentenceIds (h : IdsShape st P) (sentence : CString)
    (e : FrontEngineInterface) :
    Yields P (fun _ => True) (GetSentenceIds st sentence e).1 := by
  refine Prog.yields_bind (yields_True _) ?_
  intro cut_result e1 _ _
  exact h.loop (FrontEngineInterface.idsOfToken st) rfl (fun _ _ => rfl)
    h.idsOfToken cut_result e1

end Shape

/-- The dictionaries, and the vectors that all calls append to. -/
structure Session where
  dictionaries : FrontEngineInterface
  phoneids : List Int
  toneids : List Int

/-- Calls of `GetSentenceIds` one after the other; an exception ends them. -/
def converse (st : Setup) : List CString -> Session -> Except Error Session
  | [], s => Except.ok s
  | sentence :: sentences, s =>
      match GetSentenceIds st sentence s.dictionaries with
      | (Except.ok r, e) =>
          converse st sentences ⟨e, s.phoneids ++ r.1, s.toneids ++ r.2⟩
      | (Except.error err, _) => Except.error err

theorem IdsShape.converse {st : Setup} {P : List Int × List Int -> Prop}
    (h : IdsShape st P) {sentences : List CString} {s s' : Session}
    (hs : P (s.phoneids, s.toneids))
    (hrun : converse st sentences s = Except.ok s') :
    P (s'.phoneids, s'.toneids) := by
  induction sentences generalizing s with
  | nil =>
      cases hrun
      exact hs
  | cons sentence sentences ih =>
      have hcall := h.GetSentenceIds sentence s.dictionaries
      rw [VoiceTts.converse] at hrun
      rcases hresult : FrontEngineInterface.GetSentenceIds st sentence
        s.dictionaries with ⟨r, e⟩
      rw [hresult] at hcall hrun
      cases r with
      | ok r =>
          exact ih (h.append hs hcall) hrun
      | error err =>
          cases hrun

theorem idsShape_separate {st : Setup} (hst : st._seperate_tone = str "true") :
    IdsShape st fun r => r.2.length = r.1.length where
  nil := rfl
  append := by
    intro r s hr hs
    rw [List.length_append, List.length_append, hr, hs]
  phone := by
    intro phone e
    unfold idsOfPhone
    rw [if_pos hst]
    refine Prog.yields_bind (yields_True _) ?_
    intro id e1 _ _
    cases phone.getLast? with
    | none =>
        trivial
    | some c =>
        refine Prog.yields_bind (yields_True _) ?_
        intro tone e2 _ _
        rfl

theorem idsShape_joined {st : Setup} (hst : st._seperate_tone ≠ str "true") :
    IdsShape st fun r => r.2 = [] where
  nil := rfl
  append := by
    intro r s hr hs
    rw [hr, hs]
    rfl
  phone := by
    intro phone e
    unfold idsOfPhone
    rw [if_neg hst]
    refine Prog.yields_bind (yields_True _) ?_
    intro id e1 _ _
    rfl

/-!
## The setting and the file
-/

def toneKey : CString :=
  str "seperate_tone"

def toneOption : CString :=
  str "--seperate_tone"

/-- The line is about the setting, with a value or without one. -/
def isToneLine (line : CString) : Bool :=
  decide (line = toneOption) || (toneOption ++ [61]).isPrefixOf line

/-- The line that decides about the setting. -/
def toneLine (bytes : CString) : Option CString :=
  ((getlines [] bytes).filter isToneLine).getLast?

/-- The file sets `--seperate_tone=true`, with either line end. -/
def SetsSeparateTone (bytes : CString) : Prop :=
  toneLine bytes = some (toneOption ++ 61 :: str "true") ∨
    toneLine bytes = some (toneOption ++ 61 :: (str "true" ++ [13]))

/-- What the loop of `ReadConfFile` takes for the value on such a line. -/
def toneCut (line : CString) : CString :=
  if line = toneOption then toneOption.dropLast
  else (line.drop (toneOption.length + 1)).dropLast

theorem toneCut_append (v : CString) :
    toneCut (toneOption ++ 61 :: v) = v.dropLast := by
  have hne : toneOption ++ 61 :: v ≠ toneOption := by
    intro h
    have hlength := congrArg List.length h
    simp at hlength
  rw [toneCut, if_neg hne, ← List.drop_drop, List.drop_left]
  rfl

theorem isToneLine_append (v : CString) :
    isToneLine (toneOption ++ 61 :: v) = true := by
  have happ : toneOption ++ 61 :: v = toneOption ++ [61] ++ v := by
    simp
  rw [isToneLine, happ, List.isPrefixOf_iff_prefix.mpr (List.prefix_append _ _),
    Bool.or_true]

theorem isToneLine_iff {line : CString} :
    isToneLine line = true ↔
      line = toneOption ∨ exists v, line = toneOption ++ 61 :: v := by
  rw [isToneLine, Bool.or_eq_true, decide_eq_true_eq, List.isPrefixOf_iff_prefix]
  constructor
  · rintro (h | ⟨v, rfl⟩)
    · exact Or.inl h
    · exact Or.inr ⟨v, by simp⟩
  · rintro (h | ⟨v, rfl⟩)
    · exact Or.inl h
    · exact Or.inr ⟨v, by simp⟩

theorem toneOption_eq : toneOption = str "--" ++ toneKey := by
  decide +kernel

theorem equals_notMem_toneOption : 61 ∉ toneOption := by
  decide +kernel

/-- A line of the configuration without an equals sign. -/
theorem confLine_flag {key : CString} (h : 61 ∉ key) (path : CString)
    (map : Dictionary) :
    confLine path map (str "--" ++ key) =
      map.insert key (path ++ (str "--" ++ key).dropLast) := by
  have hmark : str "--" = [45, 45] := by decide +kernel
  have hnot : 61 ∉ ([45, 45] ++ key : CString) := by
    rw [List.mem_append, not_or]
    exact ⟨by decide, h⟩
  have hpos : find_first_of ([45, 45] ++ key) 61 = npos := by
    rw [find_first_of, if_neg hnot]
  have hstart : substr ([45, 45] ++ key) 0 2 = [45, 45] := by
    simp [substr]
  have hkey : substr ([45, 45] ++ key) 2 (npos - 2) = key := by
    simp [substr, npos]
  have hvalue : substr ([45, 45] ++ key) (npos + 1)
      (([45, 45] ++ key : CString).length - npos - 2) =
        ([45, 45] ++ key : CString).dropLast := by
    have hcount : ((([45, 45] ++ key : CString).length : Nat) - npos - 2 : Int) =
        ((([45, 45] ++ key : CString).length - 1 : Nat) : Int) := by
      simp [npos]
      omega
    rw [hcount, List.dropLast_eq_take, substr, if_neg (by omega)]
    rfl
  unfold confLine
  rw [hmark, if_pos hstart]
  simp only [hpos, hkey, hvalue]

theorem key_inj {key key' v v' : CString} (h : 61 ∉ key) (h' : 61 ∉ key')
    (heq : key ++ 61 :: v = key' ++ 61 :: v') : key = key' := by
  have hpos := find_first_of_append h v
  rw [heq, find_first_of_append h' v'] at hpos
  have hlength : key'.length = key.length := by omega
  exact (List.append_inj heq hlength.symm).1

theorem equals_notMem_toneKey : 61 ∉ toneKey := by
  decide +kernel

theorem find_confLine (path : CString) (map : Dictionary) (line : CString) :
    (confLine path map line).find toneKey =
      if isToneLine line then some (path ++ toneCut line)
      else map.find toneKey := by
  by_cases hstart : substr line 0 2 = str "--"
  · have hline : exists rest, line = str "--" ++ rest := by
      refine ⟨line.drop 2, ?_⟩
      have htake : line.take 2 = str "--" := by
        simpa [substr] using hstart
      rw [← htake, List.take_append_drop]
    rcases hline with ⟨rest, rfl⟩
    by_cases heq : 61 ∈ rest
    · rcases List.eq_append_cons_of_mem heq with ⟨key, v, rfl, hkey⟩
      rw [← List.append_assoc, confLine_text hkey]
      by_cases htone : key = toneKey
      · subst htone
        rw [← toneOption_eq, isToneLine_append, if_pos rfl, toneCut_append]
        exact StdMap.find_insert_self _ _ _
      · have hnot : isToneLine (str "--" ++ key ++ 61 :: v) ≠ true := by
          rw [ne_eq, isToneLine_iff]
          rintro (h | ⟨v', h⟩)
          · apply equals_notMem_toneOption
            rw [← h]
            simp
          · rw [toneOption_eq, List.append_assoc, List.append_assoc] at h
            exact htone (key_inj hkey equals_notMem_toneKey
              (List.append_cancel_left h))
        rw [if_neg hnot]
        exact StdMap.find_insert_of_ne _ _ fun h => htone h.symm
    · rw [confLine_flag heq]
      by_cases htone : rest = toneKey
      · subst htone
        rw [← toneOption_eq, toneCut, if_pos rfl,
          if_pos (isToneLine_iff.mpr (Or.inl rfl))]
        exact StdMap.find_insert_self _ _ _
      · have hnot : isToneLine (str "--" ++ rest) ≠ true := by
          rw [ne_eq, isToneLine_iff]
          rintro (h | ⟨v', h⟩)
          · rw [toneOption_eq] at h
            exact htone (List.append_cancel_left h)
          · rw [toneOption_eq, List.append_assoc] at h
            apply heq
            rw [List.append_cancel_left h]
            simp
        rw [if_neg hnot]
        exact StdMap.find_insert_of_ne _ _ fun h => htone h.symm
  · have hnot : isToneLine line ≠ true := by
      rw [ne_eq, isToneLine_iff, toneOption_eq]
      have htake : forall rest, substr (str "--" ++ rest) 0 2 = str "--" := by
        intro rest
        have hmark : str "--" = [45, 45] := by decide +kernel
        simp [substr, hmark]
      rintro (rfl | ⟨v, rfl⟩)
      · exact hstart (htake _)
      · rw [List.append_assoc] at hstart
        exact hstart (htake _)
    rw [confLine, if_neg hstart, if_neg hnot]

theorem find_foldl_confLine (path : CString) (map : Dictionary)
    (lines : List CString) :
    (lines.foldl (confLine path) map).find toneKey =
      match (lines.filter isToneLine).getLast? with
      | some line => some (path ++ toneCut line)
      | none => map.find toneKey := by
  induction lines using List.reverseRecOn with
  | nil =>
      rfl
  | append_singleton lines line ih =>
      rw [List.foldl_append, List.foldl_cons, List.foldl_nil, find_confLine, ih,
        List.filter_append, List.filter_singleton]
      by_cases h : isToneLine line = true
      · rw [if_pos h, Bool.cond_eq_ite, if_pos h]
        simp
      · rw [if_neg h, Bool.cond_eq_ite, if_neg h]
        simp

/-!
## The mode of the engine
-/

namespace Members

/-- The members that `init` sets before it loads the dictionaries. -/
def fixed (m : Members) : Configuration × Jieba × (CString -> List CString) × LongestFirst :=
  (m.conf, m._jieba, m.g2pmodel, m.order)

theorem check_fixed {r : Int × Members} {rest : Members -> Int × Members}
    {c : Configuration × Jieba × (CString -> List CString) × LongestFirst} (hr : r.2.fixed = c)
    (hrest : forall m : Members, m.fixed = c -> (rest m).2.fixed = c) :
    (check r rest).2.fixed = c := by
  unfold check
  split
  · exact hr
  · exact hrest _ hr

theorem loadDictionaries_fixed (files : Files) (m : Members) :
    (loadDictionaries files m).2.fixed = m.fixed := by
  have h : m.fixed = m.fixed := rfl
  unfold loadDictionaries
  refine check_fixed h fun m h => ?_
  refine check_fixed h fun m h => ?_
  refine check_fixed (by split <;> exact h) fun m h => ?_
  refine check_fixed h fun m h => ?_
  refine check_fixed h fun m h => ?_
  refine check_fixed h fun m h => ?_
  refine check_fixed h fun m h => ?_
  exact h

theorem init_setup {files : Files} (lib : Libraries) {dir bytes : CString}
    (hfile : files (dir ++ str "/front.conf") = some bytes) :
    exists conf : Configuration,
      conf = Configuration.read ((getlines [] bytes).foldl (confLine dir)
        StdMap.empty) ∧
      (init files lib (fresh dir)).2.setup =
        ⟨lib.Jieba conf._jieba_dict_path conf._jieba_hmm_path
            conf._jieba_user_dict_path conf._jieba_idf_path
            conf._jieba_stop_word_path,
          lib.G2pEModel dir, conf._seperate_tone, lib.order⟩ := by
  refine ⟨_, rfl, ?_⟩
  have hpath : files (fresh dir).conf_file_path = some bytes := hfile
  have hread : (fresh dir).ReadConfFile files = (0, { fresh dir with
      conf_map := ((getlines [] bytes).foldl (confLine dir)
        StdMap.empty).touchAll Configuration.keys
      conf := Configuration.read ((getlines [] bytes).foldl (confLine dir)
        StdMap.empty) }) := by
    simp only [ReadConfFile, hpath]
    rfl
  have hfixed : forall m : Members, m.setup =
      ⟨m.fixed.2.1, m.fixed.2.2.1, m.fixed.1._seperate_tone, m.fixed.2.2.2⟩ :=
    fun _ => rfl
  rw [hfixed, init, if_neg (by simp [fresh]), hread, check, if_neg (by simp),
    loadDictionaries_fixed]
  rfl

theorem init_seperate_tone {files : Files} (lib : Libraries) {dir bytes : CString}
    (hfile : files (dir ++ str "/front.conf") = some bytes) :
    (init files lib (fresh dir)).2.setup._seperate_tone =
      match toneLine bytes with
      | some line => dir ++ toneCut line
      | none => [] := by
  rcases init_setup lib hfile with ⟨conf, hconf, hsetup⟩
  rw [hsetup, hconf]
  change ((getlines [] bytes).foldl (confLine dir) StdMap.empty).peek toneKey = _
  rw [StdMap.peek, find_foldl_confLine, toneLine]
  cases ((getlines [] bytes).filter isToneLine).getLast? with
  | none => rfl
  | some line => rfl

end Members

/--
The engine that `init` sets up from the file is in the mode that the file asks
for, and calls keep the vectors of ids as this mode wants them.
-/
def FollowsSetting (dir bytes : CString) : Prop :=
  forall (files : Files) (lib : Libraries) (e : FrontEngineInterface)
    (sentences : List CString) (s : Session),
    files (dir ++ str "/front.conf") = some bytes ->
    (Members.init files lib (Members.fresh dir)).1 = 0 ->
    converse (Members.init files lib (Members.fresh dir)).2.setup sentences
      ⟨e, [], []⟩ = Except.ok s ->
    (SetsSeparateTone bytes ->
      (Members.init files lib (Members.fresh dir)).2.setup._seperate_tone =
          str "true" ∧
        s.toneids.length = s.phoneids.length) ∧
    (¬ SetsSeparateTone bytes -> s.toneids = [])

/-- The mode of the engine and the setting of the file agree. -/
def ModeAgrees (dir bytes : CString) : Prop :=
  SetsSeparateTone bytes ↔
    exists line, toneLine bytes = some line ∧ dir ++ toneCut line = str "true"

theorem init_mode_iff {files : Files} (lib : Libraries) {dir bytes : CString}
    (hfile : files (dir ++ str "/front.conf") = some bytes) :
    (Members.init files lib (Members.fresh dir)).2.setup._seperate_tone =
        str "true" ↔
      exists line, toneLine bytes = some line ∧ dir ++ toneCut line = str "true" := by
  rw [Members.init_seperate_tone lib hfile]
  cases toneLine bytes with
  | none =>
      have hne : ([] : CString) ≠ str "true" := by decide +kernel
      simpa using hne
  | some line =>
      simp

/-- A segmenter that cuts nothing, and files that are all empty but one. -/
def plainLibraries : Libraries where
  Jieba := fun _ _ _ _ _ => ⟨fun s => [s], fun s => [s], fun s => [s]⟩
  G2pEModel := fun _ _ => []

def oneFile (path bytes : CString) : Files :=
  fun file => if file = path then some bytes else some []

theorem GenDict_of_some {files : Files} (h : forall file, (files file).isSome)
    (file : CString) (map : Dictionary) (flag : Bool) :
    (GenDict files file map flag).1 = 0 := by
  rcases Option.isSome_iff_exists.mp (h file) with ⟨bytes, hbytes⟩
  simp only [GenDict, hbytes]

theorem GenTDict_of_some {files : Files} (h : forall file, (files file).isSome)
    (file : CString) (map : Dictionary) : (GenTDict files file map).1 = 0 := by
  rcases Option.isSome_iff_exists.mp (h file) with ⟨bytes, hbytes⟩
  simp only [GenTDict, hbytes]

namespace Members

theorem check_ok {r : Int × Members} {rest : Members -> Int × Members}
    (hr : r.1 = 0) (hrest : forall m, (rest m).1 = 0) : (check r rest).1 = 0 := by
  unfold check
  rw [if_neg (by simp [hr])]
  exact hrest _

theorem init_ok {files : Files} (h : forall file, (files file).isSome)
    (lib : Libraries) (m : Members) : (init files lib m).1 = 0 := by
  unfold init
  split
  · rfl
  · refine check_ok ?_ fun m => ?_
    · rcases Option.isSome_iff_exists.mp (h m.conf_file_path) with ⟨bytes, hbytes⟩
      simp only [ReadConfFile, hbytes]
    · unfold loadDictionaries
      refine check_ok (GenDict_of_some h _ _ _) fun m => ?_
      refine check_ok (GenDict_of_some h _ _ _) fun m => ?_
      refine check_ok ?_ fun m => ?_
      · split
        · exact GenDict_of_some h _ _ _
        · rfl
      refine check_ok (GenDict_of_some h _ _ _) fun m => ?_
      refine check_ok (GenTDict_of_some h _ _) fun m => ?_
      refine check_ok (GenTDict_of_some h _ _) fun m => ?_
      exact check_ok (GenTDict_of_some h _ _) fun m => rfl

end Members

/-- The engine of these libraries, in separate-tone mode. -/
def plainSetup : Setup where
  _jieba := ⟨fun s => [s], fun s => [s], fun s => [s]⟩
  g2pmodel := fun _ => []
  _seperate_tone := str "true"

def emptyDictionaries : FrontEngineInterface :=
  ⟨StdMap.empty, StdMap.empty, StdMap.empty, StdMap.empty, StdMap.empty⟩

theorem converse_comma : exists s : Session,
    converse plainSetup [str "，"] ⟨emptyDictionaries, [], []⟩ = Except.ok s ∧
      s.toneids = [0] := by
  have hcall : (GetSentenceIds plainSetup (str "，") emptyDictionaries).1 =
      Except.ok ([0], [0]) := by
    decide +kernel
  rcases hrun : GetSentenceIds plainSetup (str "，") emptyDictionaries with ⟨r, e⟩
  rw [hrun] at hcall
  change r = _ at hcall
  subst hcall
  refine ⟨⟨e, [0], [0]⟩, ?_, rfl⟩
  simp only [converse, hrun, List.nil_append]

theorem followsSetting_iff_modeAgrees (dir bytes : CString) :
    FollowsSetting dir bytes ↔ ModeAgrees dir bytes := by
  constructor
  · intro h
    have hsome : forall file,
        (oneFile (dir ++ str "/front.conf") bytes file).isSome := by
      intro file
      unfold oneFile
      split <;> rfl
    have hfile : oneFile (dir ++ str "/front.conf") bytes
        (dir ++ str "/front.conf") = some bytes := if_pos rfl
    have hinit := Members.init_ok hsome plainLibraries (Members.fresh dir)
    have hmode := init_mode_iff plainLibraries hfile
    unfold ModeAgrees
    rw [← hmode]
    constructor
    · intro hset
      exact ((h _ plainLibraries emptyDictionaries [] ⟨emptyDictionaries, [], []⟩
        hfile hinit rfl).1 hset).1
    · intro hon
      by_contra hset
      rcases Members.init_setup plainLibraries hfile with ⟨conf, _, hsetup⟩
      have hplain : (Members.init (oneFile (dir ++ str "/front.conf") bytes)
          plainLibraries (Members.fresh dir)).2.setup = plainSetup := by
        rw [hsetup] at hon ⊢
        change conf._seperate_tone = _ at hon
        rw [hon]
        rfl
      rcases converse_comma with ⟨s, hrun, htones⟩
      have hempty := (h _ plainLibraries emptyDictionaries [str "，"] s hfile hinit
        (by rw [hplain]; exact hrun)).2 hset
      rw [htones] at hempty
      cases hempty
  · intro hagrees files lib e sentences s hfile _ hrun
    have hmode := (init_mode_iff lib hfile).trans hagrees.symm
    constructor
    · intro hset
      have hon := hmode.mpr hset
      exact ⟨hon, (idsShape_separate hon).converse rfl hrun⟩
    · intro hset
      exact (idsShape_joined fun hon => hset (hmode.mp hon)).converse rfl hrun

/--
The value of the setting, if the deciding line has one: it is `true`
with a carriage return and the directory is the root, or it is something
else that does not become `true` behind the directory and without its last byte.
-/
def SettingSurvives (dir bytes : CString) : Prop :=
  forall v, toneLine bytes = some (toneOption ++ 61 :: v) ->
    (v = str "true" ++ [13] ∧ dir = []) ∨
      (v ≠ str "true" ∧ v ≠ str "true" ++ [13] ∧ dir ++ v.dropLast ≠ str "true")

theorem modeAgrees_iff (dir bytes : CString) :
    ModeAgrees dir bytes ↔ SettingSurvives dir bytes := by
  have hvalue : forall v v' : CString,
      toneOption ++ 61 :: v = toneOption ++ 61 :: v' ↔ v = v' := by
    intro v v'
    simp
  have htru : forall dir : CString,
      dir ++ (str "true").dropLast ≠ str "true" := by
    intro dir h
    have hlength := congrArg List.length h
    have hone : (str "true").length = 4 ∧ (str "true").dropLast.length = 3 := by
      decide +kernel
    rw [List.length_append, hone.1, hone.2] at hlength
    rcases List.length_eq_one_iff.mp (by omega : dir.length = 1) with ⟨c, rfl⟩
    have hdrop : (str "true").dropLast = (str "true").drop 1 :=
      congrArg (List.drop 1) h
    exact absurd hdrop (by decide +kernel)
  unfold ModeAgrees SettingSurvives SetsSeparateTone
  cases hline : toneLine bytes with
  | none =>
      simp
  | some line =>
      have htone : isToneLine line = true := by
        have hmem := List.mem_of_getLast? hline
        exact (List.mem_filter.mp hmem).2
      rcases isToneLine_iff.mp htone with rfl | ⟨v, rfl⟩
      · have hno : forall v : CString, toneOption ≠ toneOption ++ 61 :: v := by
          intro v h
          have hlength := congrArg List.length h
          simp at hlength
        have hlong : dir ++ toneCut toneOption ≠ str "true" := by
          intro h
          have hlength := congrArg List.length h
          rw [List.length_append] at hlength
          have hfourteen : (toneCut toneOption).length = 14 ∧
              (str "true").length = 4 := by
            decide +kernel
          omega
        simp [hno, hlong]
      · have hmode : (exists line, some (toneOption ++ 61 :: v) = some line ∧
            dir ++ toneCut line = str "true") ↔ dir ++ v.dropLast = str "true" := by
          simp [toneCut_append]
        simp only [Option.some.injEq, hvalue] at hmode ⊢
        rw [hmode]
        constructor
        · intro h w hw
          subst hw
          by_cases htrue : v = str "true"
          · have hon := h.mp (Or.inl htrue)
            rw [htrue] at hon
            exact absurd hon (htru dir)
          · by_cases hreturn : v = str "true" ++ [13]
            · have hon := h.mp (Or.inr hreturn)
              rw [hreturn, List.dropLast_concat] at hon
              exact Or.inl ⟨hreturn, List.append_left_eq_self.mp hon⟩
            · refine Or.inr ⟨htrue, hreturn, ?_⟩
              intro hon
              exact (h.mpr hon).elim htrue hreturn
        · intro h
          rcases h v rfl with ⟨hreturn, hdir⟩ | ⟨htrue, hreturn, hoff⟩
          · constructor
            · intro _
              rw [hreturn, List.dropLast_concat, hdir, List.nil_append]
            · intro _
              exact Or.inr hreturn
          · constructor
            · rintro (hv | hv)
              · exact absurd hv htrue
              · exact absurd hv hreturn
            · intro hon
              exact absurd hon hoff

/-- When the engine follows the setting of its configuration file. -/
theorem followsSetting_iff (dir bytes : CString) :
    FollowsSetting dir bytes ↔ SettingSurvives dir bytes :=
  (followsSetting_iff_modeAgrees dir bytes).trans (modeAgrees_iff dir bytes)

/-- In a directory with a name the setting is never seen. -/
theorem setting_lost :
    SetsSeparateTone (str "--seperate_tone=true\r\n") ∧
    ¬ FollowsSetting (str "/dict") (str "--seperate_tone=true\r\n") := by
  have hline : toneLine (str "--seperate_tone=true\r\n") =
      some (toneOption ++ 61 :: (str "true" ++ [13])) := by
    decide +kernel
  constructor
  · exact Or.inr hline
  · rw [followsSetting_iff_modeAgrees, modeAgrees_iff]
    intro h
    rcases h _ hline with ⟨_, hdir⟩ | ⟨_, hne, _⟩
    · exact absurd hdir (by decide +kernel)
    · exact hne rfl

end VoiceTts
