import VoiceTts.Front.InRange

/-!
# Words without finals

For a word without phones `ModifyTone` gets an empty list of finals.  One of its
steps tests for that, in the middle and behind other steps that do not.  Whether the
empty list is left alone depends on the word only, and here it is said for which
words it is.
-/

namespace VoiceTts
namespace FrontEngineInterface

/-!
## Steps that may leave an empty list alone
-/

/-- The result is the empty list, or an error where `P` does not hold. -/
def LeavesIf (P : Prop) (r : Except Error (List CString)) : Prop :=
  Yields (fun finals => finals = [] ∧ P) (fun _ => ¬ P) r

namespace LeavesIf

variable {P Q : Prop} {r : Except Error (List CString)}

theorem eq_ok_iff (h : LeavesIf P r) : r = Except.ok [] ↔ P := by
  cases r with
  | ok finals =>
      rw [Except.ok.injEq]
      constructor
      · intro _
        exact h.2
      · intro _
        exact h.1
  | error e =>
      constructor
      · intro hr
        cases hr
      · intro hP
        exact absurd hP h

theorem of_iff (h : LeavesIf P r) (hPQ : P ↔ Q) : LeavesIf Q r := by
  rw [← propext hPQ]
  exact h

theorem leaves (hP : P) : LeavesIf P (Except.ok []) :=
  ⟨rfl, hP⟩

theorem bind {f : List CString -> Except Error (List CString)} (h : LeavesIf P r)
    (hf : P -> LeavesIf Q (f [])) : LeavesIf (P ∧ Q) (r >>= f) := by
  cases r with
  | ok finals =>
      rcases h with ⟨hnil, hP⟩
      subst hnil
      exact (hf hP).of_iff (and_iff_right hP).symm
  | error e =>
      intro hPQ
      exact h hPQ.1

/-- A step that does not look at the finals comes first. -/
theorem after {α : Type} {x : Except Error α} {a : α}
    {f : α -> Except Error (List CString)} (hx : x = Except.ok a)
    (h : LeavesIf P (f a)) : LeavesIf P (x >>= f) := by
  rw [hx]
  exact h

theorem branch {p : Prop} [Decidable p] {x : Except Error (List CString)}
    (hx : LeavesIf False x) : LeavesIf (¬ p) (if p then x else pure []) := by
  split
  · rename_i hp
    exact hx.of_iff (iff_of_false id (not_not_intro hp))
  · rename_i hp
    exact leaves hp

theorem loop {step : List CString -> Nat -> Except Error (List CString)}
    {R : Nat -> Prop} (n : Nat) (h : forall i, i < n -> LeavesIf (R i) (step [] i)) :
    LeavesIf (forall i, i < n -> R i) ((List.range n).foldlM step []) := by
  induction n with
  | zero =>
      exact leaves fun i hi => absurd hi (Nat.not_lt_zero i)
  | succ n ih =>
      rw [List.range_succ, List.foldlM_append]
      have hfirst := ih fun i hi => h i (Nat.lt_succ_of_lt hi)
      have hlast : LeavesIf (R n) ([n].foldlM step []) := by
        rw [List.foldlM_cons]
        refine ((h n (Nat.lt_succ_self n)).bind fun _ => leaves trivial).of_iff ?_
        exact iff_of_eq (and_true (R n))
      refine (hfirst.bind fun _ => hlast).of_iff ?_
      rw [Nat.forall_lt_succ_right]

end LeavesIf

theorem setTone_nil {P : Prop} (hP : ¬ P) (c : Container) (i : Nat) (t : UInt8) :
    LeavesIf P (setTone c [] i t) :=
  hP

theorem setLastTone_nil {P : Prop} (hP : ¬ P) (c : Container) (t : UInt8) :
    LeavesIf P (setLastTone c [] t) :=
  hP

theorem mem_dropLast_iff {cs : List Char} {c : Char} :
    c ∈ cs.dropLast ↔ exists i, cs[i]? = some c ∧ i + 1 < cs.length := by
  rw [List.dropLast_eq_take, List.mem_iff_getElem?]
  constructor
  · intro h
    rcases h with ⟨i, hi⟩
    rw [List.getElem?_take] at hi
    split at hi
    · exact ⟨i, hi, by omega⟩
    · cases hi
  · intro h
    rcases h with ⟨i, hi, hlt⟩
    refine ⟨i, ?_⟩
    rw [List.getElem?_take_of_lt (by omega)]
    exact hi

theorem not_mem_dropLast_iff {cs : List Char} {c : Char} :
    c ∉ cs.dropLast ↔
      forall i, i < cs.length -> ¬ (cs[i]? = some c ∧ i + 1 < cs.length) := by
  rw [mem_dropLast_iff, not_exists]
  constructor
  · intro h i _
    exact h i
  · intro h i hi
    exact h i (Nat.lt_of_succ_lt hi.2) hi

section Word

variable {cs : List Char}

theorem buSandiStep_nil (i : Nat) :
    LeavesIf (¬ (cs[i]? = some '不' ∧ i + 1 < cs.length))
      (buSandiStep (cs.map letter) [] i) := by
  have hletter : (cs.map letter)[i]? = some (wstr "不") ↔ cs[i]? = some '不' := letter_at
  unfold buSandiStep
  simp only [length_letters, hletter]
  exact LeavesIf.branch not_false

theorem BuSandi_nil :
    LeavesIf ('不' ∉ cs.dropLast) (BuSandi (Utf8.encodeChars cs) []) := by
  have hletter : (cs.map letter)[1]? = some (wstr "不") ↔ cs[1]? = some '不' := letter_at
  unfold BuSandi
  simp only [Word2WordVec_encodeChars, ok_bind, length_letters, hletter]
  split
  · rename_i hcond
    refine setTone_nil ?_ Container.finals 1 53
    intro hno
    exact hno (mem_dropLast_iff.mpr ⟨1, hcond.2, by omega⟩)
  · exact (LeavesIf.loop cs.length fun i _ => buSandiStep_nil i).of_iff
      not_mem_dropLast_iff.symm

theorem yiSandhiStep_nil (i : Nat) :
    LeavesIf (¬ (cs[i]? = some '一' ∧ i + 1 < cs.length))
      (yiSandhiStep (cs.map letter) [] i) := by
  have hletter : (cs.map letter)[i]? = some (wstr "一") ↔ cs[i]? = some '一' := letter_at
  unfold yiSandhiStep
  simp only [length_letters, hletter]
  exact LeavesIf.branch not_false

/-- The words that `YiSandhi` does not ask for the finals of. -/
def SkipsYi (cs : List Char) : Prop :=
  ('一' ∈ cs ∧ cs.getLast? ≠ some '一') ∨
    (cs ≠ ['第'] ∧ ¬ ['第', '一'] <+: cs ∧ '一' ∉ cs.dropLast)

theorem YiSandhi_nil (hcs : cs ≠ []) :
    LeavesIf (SkipsYi cs) (YiSandhi (Utf8.encodeChars cs) []) := by
  have hmem : wstr "一" ∈ cs.map letter ↔ '一' ∈ cs := letter_mem
  have hlast : (cs.map letter).getLast? = some (wstr "一") ↔
      cs.getLast? = some '一' := letter_last
  have hmiddle : (cs.map letter)[1]? = some (wstr "一") ↔ cs[1]? = some '一' := letter_at
  unfold YiSandhi
  simp only [Word2WordVec_encodeChars, ok_bind, hmem, Ne, hlast, length_letters, hmiddle]
  split
  · rename_i hguard
    exact LeavesIf.leaves (Or.inl hguard)
  · rename_i hguard
    split
    · rename_i hcond
      refine setTone_nil ?_ Container.finals 1 53
      intro hskips
      have hrest := hskips.resolve_left hguard
      exact hrest.2.2 (mem_dropLast_iff.mpr ⟨1, hcond.2.1, by omega⟩)
    · by_cases hdi : cs = ['第']
      · subst hdi
        change ¬ SkipsYi ['第']
        intro hskips
        exact (hskips.resolve_left hguard).1 rfl
      · rw [isOrdinal_letters hcs hdi, ok_bind]
        split
        · rename_i hordinal
          refine setTone_nil ?_ Container.finals 1 49
          intro hskips
          exact (hskips.resolve_left hguard).2.1 (of_decide_eq_true hordinal)
        · rename_i hordinal
          refine (LeavesIf.loop cs.length fun i _ => yiSandhiStep_nil i).of_iff ?_
          rw [← not_mem_dropLast_iff]
          constructor
          · intro hno
            exact Or.inr ⟨hdi, fun hprefix => hordinal (decide_eq_true hprefix), hno⟩
          · intro hskips
            exact (hskips.resolve_left hguard).2.2

end Word

/-!
## The last two steps
-/

section Word

variable {cs : List Char} {pos : CString}

/-- A character follows itself in a word whose tag starts with `n`, `v`, or `a`. -/
def RepeatsAt (cs : List Char) (pos : CString) (j : Nat) : Prop :=
  1 ≤ j ∧ cs[j]? = cs[j - 1]? ∧ exists c, pos.head? = some c ∧ c ∈ str "nva"

theorem reduplicationStep_nil (j : Nat) :
    LeavesIf (¬ RepeatsAt cs pos j) (reduplicationStep (cs.map letter) pos [] j) := by
  unfold reduplicationStep RepeatsAt
  simp only [letters_eq]
  exact LeavesIf.branch (setTone_nil not_false Container.finals j 53)

theorem neutralEnd_nil :
    LeavesIf (¬ (Particle cs pos ∨ (cs = ['个'] ∨ exists k, CountsAt cs k) ∨ Listed cs))
      (neutralEnd (Utf8.encodeChars cs) (Utf8.units cs) pos []) := by
  rcases (endsNeutral_units cs pos).exists_ok with ⟨neutral, hneutral, hiff⟩
  unfold neutralEnd
  rw [hneutral, ok_bind, ← hiff]
  cases neutral with
  | true =>
      exact setLastTone_nil (fun hno => hno rfl) Container.finals 53
  | false =>
      exact LeavesIf.leaves Bool.false_ne_true

theorem NeuralSandhi_nil {st : Setup} {word_list : List CString}
    (hsplit : SplitWord st (Utf8.encodeChars cs) = Except.ok word_list) :
    LeavesIf ((forall j, j < cs.length -> ¬ RepeatsAt cs pos j) ∧
        ¬ (Particle cs pos ∨ (cs = ['个'] ∨ exists k, CountsAt cs k) ∨ Listed cs))
      (NeuralSandhi st (Utf8.encodeChars cs) pos []) := by
  unfold NeuralSandhi
  rw [utf8string2wstring_encodeChars, ok_bind, Word2WordVec_encodeChars, ok_bind,
    length_letters]
  refine (LeavesIf.loop cs.length fun j _ => reduplicationStep_nil j).bind fun _ => ?_
  refine (neutralEnd_nil.bind fun _ => ?_).of_iff (iff_of_eq (and_true _))
  exact LeavesIf.after hsplit (LeavesIf.leaves trivial)

theorem raiseThree_nil (n : Nat) : LeavesIf (n ≠ 1 ∧ n ≠ 2) (raiseThree n []) := by
  unfold raiseThree
  split
  · rename_i htwo
    exact fun hno => hno.2 htwo
  · rename_i htwo
    split
    · rename_i hone
      exact setTone_nil (fun hno => hno.1 hone) Container.finals 1 50
    · rename_i hone
      exact LeavesIf.leaves ⟨hone, htwo⟩

/-- In a word of three characters the first part is the word, or one tone is raised. -/
theorem firstPart_nil {st : Setup} (h : Searches st cs) (hthree : cs.length = 3) :
    LeavesIf (Utf8.encodeChars cs ∈ st._jieba.CutForSearch (Utf8.encodeChars cs))
      (do let word_list <- SplitWord st (Utf8.encodeChars cs)
          let first <- elementAt Container.word_list word_list 0
          let first_wstr <- utf8string2wstring first
          raiseThree first_wstr.length []) := by
  rcases h.exists_first with ⟨fs, hfirst, hne, hwithin⟩
  rw [SplitWord_eq hfirst (length_encodeChars_le hwithin), ok_bind, elementAt_frontPart,
    ok_bind, ← first_eq_iff hwithin hfirst]
  by_cases hfs : fs = cs
  · subst hfs
    rw [frontPart_self hne, utf8string2wstring_encodeChars, ok_bind]
    refine (raiseThree_nil _).of_iff ?_
    rw [Utf8.units, List.length_map, hthree]
    simp
  · unfold utf8string2wstring
    cases hw : Utf8.decode (frontPart (Utf8.encodeChars cs) (Utf8.encodeChars fs)) with
    | none =>
        exact hfs
    | some w =>
        have hlength := length_frontPart hwithin hne hfs hw
        refine (raiseThree_nil w.length).of_iff ?_
        constructor
        · intro hn
          omega
        · intro heq
          exact absurd heq hfs

theorem ThreeSandhi_nil {st : Setup} (h : Searches st cs) :
    LeavesIf (cs.length ≠ 2 ∧ cs.length ≠ 4 ∧ (cs.length = 3 ->
        Utf8.encodeChars cs ∈ st._jieba.CutForSearch (Utf8.encodeChars cs)))
      (ThreeSandhi st (Utf8.encodeChars cs) []) := by
  unfold ThreeSandhi
  rw [Word2WordVec_encodeChars, ok_bind, length_letters]
  split
  · rename_i htwo
    exact fun hno => hno.1 htwo
  · rename_i hthree
    refine (firstPart_nil h hthree).of_iff ?_
    rw [hthree]
    simp
  · rename_i hfour
    exact fun hno => hno.2.1 hfour
  · rename_i htwo hthree hfour
    exact LeavesIf.leaves ⟨htwo, hfour, fun h => absurd h hthree⟩

end Word

/-!
## The words whose finals are not touched
-/

/-- What keeps every step of `ModifyTone` away from the finals of a word. -/
structure LeftAlone (st : Setup) (cs : List Char) (pos : CString) : Prop where
  bu : '不' ∉ cs.dropLast
  yi : SkipsYi cs
  twice : forall j, j < cs.length -> ¬ RepeatsAt cs pos j
  ending : ¬ (Particle cs pos ∨ (cs = ['个'] ∨ exists k, CountsAt cs k) ∨ Listed cs)
  two : cs.length ≠ 2
  four : cs.length ≠ 4
  three : cs.length = 3 ->
    Utf8.encodeChars cs ∈ st._jieba.CutForSearch (Utf8.encodeChars cs)

theorem ModifyTone_nil {st : Setup} {cs : List Char} {pos : CString} (hcs : cs ≠ [])
    (h : Searches st cs) :
    LeavesIf (LeftAlone st cs pos) (ModifyTone st (Utf8.encodeChars cs) pos []) := by
  rcases h.exists_first with ⟨fs, hfirst, -, hwithin⟩
  have hsplit := SplitWord_eq hfirst (length_encodeChars_le hwithin)
  unfold ModifyTone
  refine (BuSandi_nil.bind fun _ => (YiSandhi_nil hcs).bind fun _ =>
    (NeuralSandhi_nil hsplit).bind fun _ => ThreeSandhi_nil h).of_iff ?_
  constructor
  · intro hall
    rcases hall with ⟨hbu, hyi, ⟨htwice, hending⟩, htwo, hfour, hthree⟩
    exact ⟨hbu, hyi, htwice, hending, htwo, hfour, hthree⟩
  · intro hall
    exact ⟨hall.bu, hall.yi, ⟨hall.twice, hall.ending⟩, hall.two, hall.four, hall.three⟩

/-- A word without finals passes through `ModifyTone` exactly when it is left alone. -/
theorem ModifyTone_no_finals_iff (st : Setup) (cs : List Char) (pos : CString)
    (hcs : cs ≠ []) (h : Searches st cs) :
    ModifyTone st (Utf8.encodeChars cs) pos [] = Except.ok [] ↔ LeftAlone st cs pos :=
  (ModifyTone_nil hcs h).eq_ok_iff

theorem searches_whole {cs : List Char} (hcs : cs ≠ []) :
    Searches (cutting [Utf8.encodeChars cs]) cs where
  ne_nil := List.cons_ne_nil _ _
  piece := by
    intro p hp
    exact ⟨cs, hcs, List.infix_rfl, List.mem_singleton.mp hp⟩

/-- 龘 is left alone. -/
theorem ModifyTone_no_finals_dragons :
    Searches (cutting [str "龘"]) ['龘'] ∧
      ModifyTone (cutting [str "龘"]) (str "龘") (str "x") [] = Except.ok [] := by
  have hsearches : Searches (cutting [str "龘"]) ['龘'] :=
    searches_whole (List.cons_ne_nil '龘' [])
  constructor
  · exact hsearches
  · refine (ModifyTone_no_finals_iff _ ['龘'] (str "x") (by decide) hsearches).mpr ?_
    constructor
    · decide
    · exact Or.inr (by decide)
    · intro j hj hrepeats
      exact absurd hrepeats.1 (Nat.not_le_of_lt hj)
    · rintro (hparticle | (hge | ⟨k, hk⟩) | hlisted)
      · exact absurd hparticle (by decide)
      · exact absurd hge (by decide)
      · have hnone : ['龘'].idxOf? '个' = none := by
          decide
        rw [CountsAt, hnone] at hk
        cases hk.1
      · exact not_listed_of_length (by decide) hlisted
    · decide
    · decide
    · decide

theorem ModifyTone_two {cs : List Char} (h : cs.length = 2) (pos : CString) :
    ModifyTone (cutting [Utf8.encodeChars cs]) (Utf8.encodeChars cs) pos [] ≠
      Except.ok [] := by
  have hne : cs ≠ [] := by
    rintro rfl
    cases h
  intro hok
  exact ((ModifyTone_nil hne (searches_whole hne)).eq_ok_iff.mp hok).two h

/--
蓝翔 is no word of the dictionary, and the empty entry that its first lookup inserts has
no finals.
-/
theorem ModifyTone_no_finals_unknown :
    Searches (cutting [str "蓝翔"]) ['蓝', '翔'] ∧
      ModifyTone (cutting [str "蓝翔"]) (str "蓝翔") (str "x") [] ≠ Except.ok [] := by
  have hword : str "蓝翔" = Utf8.encodeChars ['蓝', '翔'] := by
    decide
  rw [hword]
  exact ⟨searches_whole (List.cons_ne_nil _ _), ModifyTone_two rfl (str "x")⟩

end FrontEngineInterface
end VoiceTts
