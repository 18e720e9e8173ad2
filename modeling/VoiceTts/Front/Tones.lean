import VoiceTts.Front.Sandhi

/-!
# Finals and their tones

The steps of `ModifyTone` look at the last byte of a final and replace it, and do
nothing else with a final.  So the word and the tones decide what the steps do,
and a final keeps what stands before its tone.  Both are said by running the
steps side by side on the finals and on their tones alone.
-/

namespace VoiceTts
namespace FrontEngineInterface

/-!
## Finals that are rewritten
-/

/-- A final on its way through the steps; new tones are taken from `T`. -/
inductive Cell (T : UInt8 -> Prop) where
  | empty
  | toned (stem : CString) (was now : UInt8) (sound : now = was ∨ T now)

namespace Cell

variable {T : UInt8 -> Prop}

def before : Cell T -> CString
  | empty => []
  | toned stem was _ _ => stem ++ [was]

def final : Cell T -> CString
  | empty => []
  | toned stem _ now _ => stem ++ [now]

/-- The final without its stem. -/
def tone : Cell T -> CString
  | empty => []
  | toned _ _ now _ => [now]

def retone (c : Cell T) {t : UInt8} (ht : T t) : Cell T :=
  match c with
  | empty => empty
  | toned stem was _ _ => toned stem was t (Or.inr ht)

theorem before_retone (c : Cell T) {t : UInt8} (ht : T t) :
    (c.retone ht).before = c.before := by
  cases c with
  | empty =>
      rfl
  | toned stem was now sound =>
      rfl

theorem retone_agree (c : Cell T) {t : UInt8} (ht : T t) :
    Agree (fun f g => f = (c.retone ht).final ∧ g = (c.retone ht).tone)
      (FrontEngineInterface.retone c.final t) (FrontEngineInterface.retone c.tone t) := by
  cases c with
  | empty =>
      exact rfl
  | toned stem was now sound =>
      simp [FrontEngineInterface.retone, final, tone, retone, Agree]

theorem back_eq (c : Cell T) (k : Container) : back k c.final = back k c.tone := by
  cases c with
  | empty =>
      rfl
  | toned stem was now sound =>
      simp [back, final, tone]

/-- The cell of a final that no step has seen. -/
def fresh (T : UInt8 -> Prop) (o : CString) : Cell T :=
  match o.getLast? with
  | none => empty
  | some t => toned o.dropLast t t (Or.inl rfl)

theorem fresh_spec (T : UInt8 -> Prop) (o : CString) :
    (fresh T o).before = o ∧ (fresh T o).final = o ∧
      (fresh T o).tone = o.getLast?.toList := by
  unfold fresh
  cases hlast : o.getLast? with
  | none =>
      rw [List.getLast?_eq_none_iff] at hlast
      rw [hlast]
      exact ⟨rfl, rfl, rfl⟩
  | some t =>
      have hstem : o.dropLast ++ [t] = o := List.dropLast_append_getLast? t hlast
      exact ⟨hstem, hstem, rfl⟩

end Cell

/-- What has become of the finals `os`, with their stems and without them. -/
def Painted (T : UInt8 -> Prop) (os fs gs : List CString) : Prop :=
  exists cells : List (Cell T), cells.map Cell.before = os ∧
    cells.map Cell.final = fs ∧ cells.map Cell.tone = gs

namespace Painted

variable {T : UInt8 -> Prop} {os fs gs os' fs' gs' : List CString}

theorem start (T : UInt8 -> Prop) (os : List CString) :
    Painted T os os (os.map fun o => o.getLast?.toList) := by
  refine ⟨os.map (Cell.fresh T), ?_, ?_, ?_⟩
  · rw [List.map_map]
    exact List.map_id'' (fun o => (Cell.fresh_spec T o).1) os
  · rw [List.map_map]
    exact List.map_id'' (fun o => (Cell.fresh_spec T o).2.1) os
  · rw [List.map_map]
    exact List.map_congr_left fun o _ => (Cell.fresh_spec T o).2.2

theorem append (h : Painted T os fs gs) (h' : Painted T os' fs' gs') :
    Painted T (os ++ os') (fs ++ fs') (gs ++ gs') := by
  rcases h with ⟨cells, rfl, rfl, rfl⟩
  rcases h' with ⟨cells', rfl, rfl, rfl⟩
  exact ⟨cells ++ cells', List.map_append, List.map_append, List.map_append⟩

theorem take (h : Painted T os fs gs) (n : Nat) :
    Painted T (os.take n) (fs.take n) (gs.take n) := by
  rcases h with ⟨cells, rfl, rfl, rfl⟩
  exact ⟨cells.take n, List.map_take, List.map_take, List.map_take⟩

theorem drop (h : Painted T os fs gs) (n : Nat) :
    Painted T (os.drop n) (fs.drop n) (gs.drop n) := by
  rcases h with ⟨cells, rfl, rfl, rfl⟩
  exact ⟨cells.drop n, List.map_drop, List.map_drop, List.map_drop⟩

theorem length_eq (h : Painted T os fs gs) : fs.length = gs.length := by
  rcases h with ⟨cells, -, rfl, rfl⟩
  simp

theorem nil_iff (h : Painted T os fs gs) : fs = [] ↔ gs = [] := by
  rw [← List.length_eq_zero_iff, h.length_eq, List.length_eq_zero_iff]

/-!
## Reading and writing a tone
-/

theorem toneAt (h : Painted T os fs gs) (c : Container) (i : Nat) :
    toneAt c fs i = toneAt c gs i := by
  rcases h with ⟨cells, -, rfl, rfl⟩
  unfold FrontEngineInterface.toneAt elementAt
  rw [List.getElem?_map, List.getElem?_map]
  cases cells[i]? with
  | none =>
      rfl
  | some cell =>
      exact cell.back_eq Container.final

theorem lastTone (h : Painted T os fs gs) (c : Container) :
    (do let final <- back c fs
        back Container.final final) =
      (do let final <- back c gs
          back Container.final final : Except Error UInt8) := by
  rcases h with ⟨cells, -, rfl, rfl⟩
  unfold back
  rw [List.getLast?_map, List.getLast?_map]
  cases cells.getLast? with
  | none =>
      rfl
  | some cell =>
      exact cell.back_eq Container.final

theorem AllToneThree (h : Painted T os fs gs) : AllToneThree fs = AllToneThree gs := by
  rcases h with ⟨cells, -, rfl, rfl⟩
  induction cells with
  | nil =>
      rfl
  | cons cell cells ih =>
      rw [List.map_cons, List.map_cons, FrontEngineInterface.AllToneThree,
        FrontEngineInterface.AllToneThree, cell.back_eq, ih]

theorem setTone (h : Painted T os fs gs) (c : Container) (i : Nat) {t : UInt8}
    (ht : T t) : Agree (Painted T os) (setTone c fs i t) (setTone c gs i t) := by
  rcases h with ⟨cells, rfl, rfl, rfl⟩
  unfold FrontEngineInterface.setTone elementAt
  rw [List.getElem?_map, List.getElem?_map]
  cases hcell : cells[i]? with
  | none =>
      exact rfl
  | some cell =>
      refine (cell.retone_agree ht).bind ?_
      rintro f g ⟨rfl, rfl⟩
      refine ⟨cells.set i (cell.retone ht), ?_, List.map_set, List.map_set⟩
      rw [List.map_set, cell.before_retone]
      refine List.ext_getElem? fun j => ?_
      by_cases hj : i = j
      · subst hj
        have hi : i < (cells.map Cell.before).length := by
          rw [List.length_map]
          exact (List.getElem?_eq_some_iff.mp hcell).1
        rw [List.getElem?_set_self hi, List.getElem?_map, hcell]
        rfl
      · rw [List.getElem?_set_ne hj]

theorem setLastTone (h : Painted T os fs gs) (c : Container) {t : UInt8} (ht : T t) :
    Agree (Painted T os) (setLastTone c fs t) (setLastTone c gs t) := by
  rcases h with ⟨cells, rfl, rfl, rfl⟩
  unfold FrontEngineInterface.setLastTone back
  rw [List.getLast?_map, List.getLast?_map]
  cases hcell : cells.getLast? with
  | none =>
      exact rfl
  | some cell =>
      refine (cell.retone_agree ht).bind ?_
      rintro f g ⟨rfl, rfl⟩
      refine ⟨cells.dropLast ++ [cell.retone ht], ?_, ?_, ?_⟩
      · conv_rhs => rw [← List.dropLast_append_getLast? cell hcell]
        rw [List.map_append, List.map_append, List.map_singleton, List.map_singleton,
          cell.before_retone]
      · rw [List.map_append, List.map_dropLast]
        rfl
      · rw [List.map_append, List.map_dropLast]
        rfl

/-!
## 不 and 一
-/

theorem buSandiStep (h : Painted T os fs gs) (ht : T 50) (wordvec : List WString)
    (i : Nat) :
    Agree (Painted T os) (buSandiStep wordvec fs i) (buSandiStep wordvec gs i) := by
  unfold FrontEngineInterface.buSandiStep
  split
  · rw [h.toneAt]
    refine Agree.bind_same ?_
    intro tone
    split
    · exact h.setTone _ i ht
    · exact h
  · exact h

theorem BuSandi (h : Painted T os fs gs) (h2 : T 50) (h5 : T 53) (word : CString) :
    Agree (Painted T os) (BuSandi word fs) (BuSandi word gs) := by
  unfold FrontEngineInterface.BuSandi
  refine Agree.bind_same ?_
  intro wordvec
  split
  · exact h.setTone _ 1 h5
  · exact Agree.foldlM _ (fun i _ _ h' => h'.buSandiStep h2 wordvec i) h

theorem yiSandhiStep (h : Painted T os fs gs) (h2 : T 50) (h4 : T 52)
    (wordvec : List WString) (i : Nat) :
    Agree (Painted T os) (yiSandhiStep wordvec fs i) (yiSandhiStep wordvec gs i) := by
  unfold FrontEngineInterface.yiSandhiStep
  split
  · rw [h.toneAt]
    refine Agree.bind_same ?_
    intro tone
    refine h.setTone _ i ?_
    split
    · exact h2
    · exact h4
  · exact h

theorem YiSandhi (h : Painted T os fs gs) (h1 : T 49) (h2 : T 50) (h4 : T 52)
    (h5 : T 53) (word : CString) :
    Agree (Painted T os) (YiSandhi word fs) (YiSandhi word gs) := by
  unfold FrontEngineInterface.YiSandhi
  refine Agree.bind_same ?_
  intro wordvec
  split
  · exact h
  · split
    · exact h.setTone _ 1 h5
    · refine Agree.bind_same ?_
      intro ordinal
      split
      · exact h.setTone _ 1 h1
      · exact Agree.foldlM _ (fun i _ _ h' => h'.yiSandhiStep h2 h4 wordvec i) h

/-!
## Neutral tones
-/

theorem reduplicationStep (h : Painted T os fs gs) (h5 : T 53)
    (wordvec : List WString) (pos : CString) (j : Nat) :
    Agree (Painted T os) (reduplicationStep wordvec pos fs j)
      (reduplicationStep wordvec pos gs j) := by
  unfold FrontEngineInterface.reduplicationStep
  split
  · exact h.setTone _ j h5
  · exact h

theorem cutFinals (h : Painted T os fs gs) (n : Nat) :
    Agree (fun p q => Painted T (os.take n) p.1 q.1 ∧ Painted T (os.drop n) p.2 q.2)
      (cutFinals fs n) (cutFinals gs n) := by
  unfold FrontEngineInterface.cutFinals
  rw [h.length_eq]
  split
  · exact ⟨h.take n, h.drop n⟩
  · exact rfl

theorem neutralPart (h : Painted T os fs gs) (h5 : T 53) (part : CString) :
    Agree (Painted T os) (neutralPart part fs) (neutralPart part gs) := by
  unfold FrontEngineInterface.neutralPart
  refine Agree.bind_same ?_
  intro temp_wstr
  refine Agree.bind_same ?_
  intro neutral
  split
  · exact h.setLastTone _ h5
  · exact h

theorem parts {n : Nat} {fs fs' gs gs' : List CString}
    (h : Painted T (os.take n) fs gs) (h' : Painted T (os.drop n) fs' gs') :
    Painted T os (fs ++ fs') (gs ++ gs') := by
  have hboth := h.append h'
  rw [List.take_append_drop] at hboth
  exact hboth

theorem neutralParts (h : Painted T os fs gs) (h5 : T 53) (word_list : List CString) :
    Agree (Painted T os) (neutralParts word_list fs) (neutralParts word_list gs) := by
  unfold FrontEngineInterface.neutralParts
  refine Agree.bind_same ?_
  intro first
  refine Agree.bind_same ?_
  intro second
  refine Agree.bind_same ?_
  intro first_wstr
  refine (h.cutFinals first_wstr.length).bind ?_
  intro p q hpq
  refine (hpq.1.neutralPart h5 first).bind ?_
  intro front front' hfront
  refine (hpq.2.neutralPart h5 second).bind ?_
  intro rear rear' hrear
  exact hfront.parts hrear

theorem neutralEnd (h : Painted T os fs gs) (h5 : T 53) (word : CString)
    (word_wstr : WString) (pos : CString) :
    Agree (Painted T os) (neutralEnd word word_wstr pos fs)
      (neutralEnd word word_wstr pos gs) := by
  unfold FrontEngineInterface.neutralEnd
  refine Agree.bind_same ?_
  intro neutral
  split
  · exact h.setLastTone _ h5
  · exact h

theorem NeuralSandhi (h : Painted T os fs gs) (h5 : T 53) (st : Setup)
    (word pos : CString) :
    Agree (Painted T os) (NeuralSandhi st word pos fs) (NeuralSandhi st word pos gs) := by
  unfold FrontEngineInterface.NeuralSandhi
  refine Agree.bind_same ?_
  intro word_wstr
  refine Agree.bind_same ?_
  intro wordvec
  refine Agree.bind (R := Painted T os) ?_ ?_
  · exact Agree.foldlM _ (fun j _ _ h' => h'.reduplicationStep h5 wordvec pos j) h
  · intro fs1 gs1 h1
    refine (h1.neutralEnd h5 word word_wstr pos).bind ?_
    intro fs2 gs2 h2
    refine Agree.bind_same ?_
    intro word_list
    by_cases hnil : fs2 = []
    · have hnil' : gs2 = [] := h2.nil_iff.mp hnil
      rw [if_pos hnil, if_pos hnil']
      rw [hnil, hnil'] at h2
      exact h2
    · have hnil' : gs2 ≠ [] := fun h' => hnil (h2.nil_iff.mpr h')
      rw [if_neg hnil, if_neg hnil']
      exact h2.neutralParts h5 word_list

/-!
## Third tones
-/

theorem raisePair (h : Painted T os fs gs) (h2 : T 50) :
    Agree (Painted T os) (raisePair fs) (raisePair gs) := by
  unfold FrontEngineInterface.raisePair
  rw [h.AllToneThree, h.length_eq]
  refine Agree.bind_same ?_
  intro flags
  split
  · exact h.setTone _ 0 h2
  · exact h

theorem raiseEdge (h : Painted T os fs gs) (h' : Painted T os' fs' gs') (h2 : T 50) :
    Agree (Painted T os) (raiseEdge fs fs') (raiseEdge gs gs') := by
  unfold FrontEngineInterface.raiseEdge
  rw [h'.toneAt]
  refine Agree.bind_same ?_
  intro first
  split
  · have hlast := h.lastTone Container.finals_list
    rw [← bind_assoc, ← bind_assoc, hlast]
    refine Agree.bind_same ?_
    intro last
    split
    · exact h.setLastTone _ h2
    · exact h
  · exact h

theorem raiseParts {n : Nat} (h : Painted T (os.take n) fs gs)
    (h' : Painted T (os.drop n) fs' gs') (h2 : T 50) :
    Agree (Painted T os) (raiseParts fs fs') (raiseParts gs gs') := by
  unfold FrontEngineInterface.raiseParts
  refine (h.raisePair h2).bind ?_
  intro front front' hfront
  rw [h'.AllToneThree]
  refine Agree.bind_same ?_
  intro flags
  split
  · refine (h'.raisePair h2).bind ?_
    intro rear rear' hrear
    exact hfront.parts hrear
  · refine (hfront.raiseEdge h' h2).bind ?_
    intro front1 front1' hfront1
    exact hfront1.parts h'

theorem raiseThree (h : Painted T os fs gs) (h2 : T 50) (n : Nat) :
    Agree (Painted T os) (raiseThree n fs) (raiseThree n gs) := by
  unfold FrontEngineInterface.raiseThree
  split
  · refine (h.setTone _ 0 h2).bind ?_
    intro fs1 gs1 h1
    exact h1.setTone _ 1 h2
  · split
    · exact h.setTone _ 1 h2
    · exact h

theorem raiseHalf (h : Painted T os fs gs) (h2 : T 50) :
    Agree (Painted T os) (raiseHalf fs) (raiseHalf gs) := by
  unfold FrontEngineInterface.raiseHalf
  rw [h.AllToneThree]
  refine Agree.bind_same ?_
  intro flags
  split
  · exact h.setTone _ 0 h2
  · exact h

theorem ThreeSandhi (h : Painted T os fs gs) (h2 : T 50) (st : Setup)
    (word : CString) :
    Agree (Painted T os) (ThreeSandhi st word fs) (ThreeSandhi st word gs) := by
  unfold FrontEngineInterface.ThreeSandhi
  refine Agree.bind_same ?_
  intro wordvec
  split
  · rw [h.AllToneThree]
    refine Agree.bind_same ?_
    intro flags
    split
    · exact h.setTone _ 0 h2
    · exact h
  · rw [h.AllToneThree]
    refine Agree.bind_same ?_
    intro word_list
    refine Agree.bind_same ?_
    intro flags
    refine Agree.bind_same ?_
    intro first
    refine Agree.bind_same ?_
    intro first_wstr
    split
    · exact h.raiseThree h2 _
    · refine (h.cutFinals first_wstr.length).bind ?_
      intro p q hpq
      exact hpq.1.raiseParts hpq.2 h2
  · refine (h.cutFinals 2).bind ?_
    intro p q hpq
    refine (hpq.1.raiseHalf h2).bind ?_
    intro front front' hfront
    refine (hpq.2.raiseHalf h2).bind ?_
    intro rear rear' hrear
    exact hfront.parts hrear
  · exact h

/-- The chain of the four steps, for any set of tones that the second one keeps to. -/
theorem ModifyTone (h : Painted T os fs gs) (h2 : T 50) (h5 : T 53) (st : Setup)
    (word pos : CString)
    (hyi : forall fs gs, Painted T os fs gs ->
      Agree (Painted T os) (FrontEngineInterface.YiSandhi word fs)
        (FrontEngineInterface.YiSandhi word gs)) :
    Agree (Painted T os) (ModifyTone st word pos fs) (ModifyTone st word pos gs) := by
  unfold FrontEngineInterface.ModifyTone
  refine (h.BuSandi h2 h5 word).bind ?_
  intro fs1 gs1 h1
  refine (hyi fs1 gs1 h1).bind ?_
  intro fs2 gs2 h2'
  refine (h2'.NeuralSandhi h5 st word pos).bind ?_
  intro fs3 gs3 h3
  exact h3.ThreeSandhi h2 st word

theorem eq_zipWith (h : Painted T os fs gs) :
    fs = List.zipWith (fun o g => o.dropLast ++ g) os gs := by
  rcases h with ⟨cells, rfl, rfl, rfl⟩
  rw [List.zipWith_map, List.zipWith_self]
  refine List.map_congr_left fun cell _ => ?_
  cases cell with
  | empty =>
      rfl
  | toned stem was now sound =>
      simp [Cell.final, Cell.before, Cell.tone]

theorem before_length_eq (h : Painted T os fs gs) : fs.length = os.length := by
  rcases h with ⟨cells, rfl, rfl, -⟩
  simp

theorem mem_final (h : Painted T os fs gs) {f : CString} (hf : f ∈ fs) :
    exists o, o ∈ os ∧ (f = o ∨ exists t, T t ∧ f = o.dropLast ++ [t]) := by
  rcases h with ⟨cells, rfl, rfl, -⟩
  rcases List.mem_map.mp hf with ⟨cell, hcell, rfl⟩
  refine ⟨cell.before, List.mem_map_of_mem hcell, ?_⟩
  cases cell with
  | empty =>
      exact Or.inl rfl
  | toned stem was now sound =>
      refine sound.imp (fun hnow => ?_) fun ht => ⟨now, ht, ?_⟩
      · simp [Cell.final, Cell.before, hnow]
      · simp [Cell.final, Cell.before]

end Painted

/-- The tones of the finals decide what `ModifyTone` returns. -/
theorem ModifyTone_of_tones {st : Setup} {word pos : CString}
    {finals tones : List CString} (hne : forall f, f ∈ finals -> f ≠ [])
    (h : ModifyTone st word pos (finals.map fun f => [f.getLastD 0]) =
      Except.ok tones) :
    ModifyTone st word pos finals =
      Except.ok (List.zipWith (fun f t => f.dropLast ++ t) finals tones) := by
  have htones : (finals.map fun f => [f.getLastD 0]) =
      finals.map fun f => f.getLast?.toList := by
    refine List.map_congr_left fun f hf => ?_
    rw [List.getLastD_eq_getLast?, List.getLast?_eq_some_getLast (hne f hf)]
    rfl
  rw [htones] at h
  have hstart := Painted.start (fun _ => True) finals
  have hagree := hstart.ModifyTone trivial trivial st word pos fun _ _ h' =>
    h'.YiSandhi trivial trivial trivial trivial word
  rcases hagree.ok_right h with ⟨fs, hfs, hpainted⟩
  rw [hfs, hpainted.eq_zipWith]

/-- The tones that the steps write. -/
def newTones : List UInt8 :=
  [49, 50, 52, 53]

theorem ModifyTone_painted {st : Setup} {word pos : CString}
    {finals result : List CString}
    (h : ModifyTone st word pos finals = Except.ok result) :
    exists tones, Painted (fun t => t ∈ newTones) finals result tones := by
  have hstart := Painted.start (fun t => t ∈ newTones) finals
  have hagree := hstart.ModifyTone (by decide) (by decide) st word pos fun _ _ h' =>
    h'.YiSandhi (by decide) (by decide) (by decide) (by decide) word
  rcases hagree.ok_left h with ⟨tones, -, hpainted⟩
  exact ⟨tones, hpainted⟩

/-!
## Words with 儿 at the end
-/

theorem not_mem_of_yi {wordvec : List WString} {i : Nat}
    (h : wstr "一" ∉ wordvec) : wordvec[i]? ≠ some (wstr "一") := by
  intro hi
  exact h (List.mem_of_getElem? hi)

theorem isOrdinal_of_not_mem {wordvec : List WString} (h : wstr "一" ∉ wordvec)
    {last : WString} (hlast : wordvec.getLast? = some last) (hdi : last ≠ wstr "第") :
    isOrdinal wordvec = Except.ok false := by
  cases wordvec with
  | nil =>
      cases hlast
  | cons first rest =>
      by_cases hfirst : first = wstr "第"
      · cases rest with
        | nil =>
            rw [List.getLast?_singleton, Option.some.injEq] at hlast
            exact absurd (hlast.symm.trans hfirst) hdi
        | cons second rest =>
            have hsecond : second ≠ wstr "一" := by
              rintro rfl
              exact h (by simp)
            simp [isOrdinal, elementAt, hfirst, hsecond]
            rfl
      · change (if first = wstr "第" then _ else _) = _
        rw [if_neg hfirst]
        rfl

theorem foldlM_yiSandhiStep {wordvec : List WString} (h : wstr "一" ∉ wordvec)
    (l : List Nat) (finals : List CString) :
    l.foldlM (yiSandhiStep wordvec) finals = Except.ok finals := by
  induction l with
  | nil =>
      rfl
  | cons i l ih =>
      have hstep : yiSandhiStep wordvec finals i = Except.ok finals := by
        unfold yiSandhiStep
        rw [if_neg]
        · rfl
        · rintro ⟨hi, -⟩
          exact not_mem_of_yi h hi
      rw [List.foldlM_cons, hstep]
      exact ih

theorem YiSandhi_er {word : CString} {word_wstr : WString}
    (hword : utf8string2wstring word = Except.ok word_wstr)
    (hlast : word_wstr.getLast? = some 20799) (finals : List CString) :
    YiSandhi word finals = Except.ok finals := by
  have hvec : Word2WordVec word = Except.ok (word_wstr.map fun c => [c]) := by
    unfold Word2WordVec
    rw [hword]
    rfl
  have hlastvec : (word_wstr.map fun c => [c]).getLast? = some [20799] := by
    rw [List.getLast?_map, hlast]
    rfl
  unfold YiSandhi
  rw [hvec]
  change (if _ then _ else _) = _
  by_cases hyi : wstr "一" ∈ word_wstr.map fun c => [c]
  · rw [if_pos]
    · rfl
    · refine ⟨hyi, ?_⟩
      rw [hlastvec]
      decide
  · rw [if_neg fun hcond => hyi hcond.1, if_neg fun hcond => not_mem_of_yi hyi hcond.2.1,
      isOrdinal_of_not_mem hyi hlastvec (by decide)]
    exact foldlM_yiSandhiStep hyi _ finals

/-- The tones that the steps write in a word with 儿 at the end. -/
def erTones : List UInt8 :=
  [50, 53]

theorem ModifyTone_painted_er {st : Setup} {word pos : CString}
    {word_wstr : WString} {finals result : List CString}
    (hword : utf8string2wstring word = Except.ok word_wstr)
    (hlast : word_wstr.getLast? = some 20799)
    (h : ModifyTone st word pos finals = Except.ok result) :
    exists tones, Painted (fun t => t ∈ erTones) finals result tones := by
  have hstart := Painted.start (fun t => t ∈ erTones) finals
  have hagree := hstart.ModifyTone (by decide) (by decide) st word pos
    fun fs gs h' => by
      rw [YiSandhi_er hword hlast, YiSandhi_er hword hlast]
      exact h'
  rcases hagree.ok_left h with ⟨tones, -, hpainted⟩
  exact ⟨tones, hpainted⟩

/-!
## The fold of 儿
-/

theorem foldlM_erhuaStep {word_wstr : WString} {initials finals : List CString}
    (h : initials.length = finals.length) {i : Nat} (hi : i < finals.length) :
    (List.range i).foldlM (erhuaStep word_wstr initials finals) ([], []) =
      Except.ok (initials.take i, finals.take i) := by
  induction i with
  | zero =>
      rfl
  | succ i ih =>
      have hlt : i < finals.length := Nat.lt_of_succ_lt hi
      have hlt' : i < initials.length := by
        rw [h]
        exact hlt
      have hfinal : elementAt Container.finals finals i = Except.ok finals[i] := by
        simp [elementAt, hlt]
      have hinitial : elementAt Container.initials initials i =
          Except.ok initials[i] := by
        simp [elementAt, hlt']
      have hnot : i + 1 ≠ finals.length := Nat.ne_of_lt hi
      rw [List.range_succ, List.foldlM_append, ih hlt, List.take_succ_eq_append_getElem hlt,
        List.take_succ_eq_append_getElem hlt']
      change erhuaStep word_wstr initials finals _ i >>= pure = _
      rw [bind_pure]
      unfold erhuaStep
      rw [hfinal]
      simp only [foldsEr, hnot, false_and, if_false, hinitial]
      rfl

/-- Two lists of one length are both empty or both have a last element. -/
theorem concat_of_length_eq {α β : Type} {l : List α} {m : List β}
    (h : l.length = m.length) :
    (l = [] ∧ m = []) ∨ exists l' a m' b,
      l = l' ++ [a] ∧ m = m' ++ [b] ∧ l'.length = m'.length := by
  rcases List.eq_nil_or_concat l with rfl | ⟨l', a, rfl⟩
  · exact Or.inl ⟨rfl, List.length_eq_zero_iff.mp h.symm⟩
  · rcases List.eq_nil_or_concat m with rfl | ⟨m', b, rfl⟩
    · simp at h
    · right
      refine ⟨l', a, m', b, List.concat_eq_append, List.concat_eq_append, ?_⟩
      simpa using h

theorem foldlM_erhuaStep_concat {word_wstr : WString} {is fs : List CString}
    (h : is.length = fs.length) (initial final : CString) :
    (List.range (fs ++ [final]).length).foldlM
        (erhuaStep word_wstr (is ++ [initial]) (fs ++ [final])) ([], []) = (do
      let folds <- foldsEr word_wstr (fs ++ [final]) fs fs.length final
      if folds then do
        let last <- back Container.finals fs
        let last <- rhotic last
        pure (is, fs.dropLast ++ [last])
      else pure (is ++ [initial], fs ++ [final])) := by
  have hlen : (is ++ [initial]).length = (fs ++ [final]).length := by
    simp [h]
  have hfinal : elementAt Container.finals (fs ++ [final]) fs.length =
      Except.ok final := by
    simp [elementAt]
  have hinitial : elementAt Container.initials (is ++ [initial]) fs.length =
      Except.ok initial := by
    simp [elementAt, ← h]
  have hrange : (fs ++ [final]).length = fs.length + 1 := by
    simp
  rw [hrange, List.range_succ, List.foldlM_append, foldlM_erhuaStep hlen (by simp),
    List.take_left, ← h, List.take_left, h]
  change erhuaStep word_wstr (is ++ [initial]) (fs ++ [final]) (is, fs) fs.length
    >>= pure = _
  rw [bind_pure]
  unfold erhuaStep
  rw [hfinal, hinitial]
  rfl

/-- `MergeErhua` leaves a word alone before it looks at the finals. -/
def Exempt (word pos : CString) (word_wstr : WString) (n : Nat) : Prop :=
  (word ∉ must_erhua ∧ (word ∈ not_erhua ∨ pos ∈ ["a", "j", "nr"].map str)) ∨
    n ≠ word_wstr.length

instance (word pos : CString) (word_wstr : WString) (n : Nat) :
    Decidable (Exempt word pos word_wstr n) :=
  inferInstanceAs (Decidable (_ ∨ _))

theorem MergeErhua_of_exempt {word pos : CString} {word_wstr : WString}
    {initials finals : List CString}
    (hword : utf8string2wstring word = Except.ok word_wstr)
    (h : Exempt word pos word_wstr finals.length) :
    MergeErhua initials finals word pos = Except.ok (initials, finals) := by
  unfold MergeErhua
  rw [hword]
  change (if _ then _ else _) = _
  split
  · rfl
  · rename_i hexempt
    rw [if_pos (h.resolve_left hexempt)]
    rfl

theorem MergeErhua_of_not_exempt {word pos : CString} {word_wstr : WString}
    {initials finals : List CString}
    (hword : utf8string2wstring word = Except.ok word_wstr)
    (h : ¬ Exempt word pos word_wstr finals.length) :
    MergeErhua initials finals word pos =
      (List.range finals.length).foldlM (erhuaStep word_wstr initials finals)
        ([], []) := by
  unfold Exempt at h
  rw [not_or] at h
  unfold MergeErhua
  rw [hword]
  change (if _ then _ else _) = _
  rw [if_neg h.1, if_neg h.2]

theorem MergeErhua_keeps {initials finals : List CString} {word pos : CString}
    {word_wstr : WString} (hlen : initials.length = finals.length)
    (hword : utf8string2wstring word = Except.ok word_wstr)
    (hlast : word_wstr.getLast? ≠ some 20799) :
    MergeErhua initials finals word pos = Except.ok (initials, finals) := by
  by_cases hexempt : Exempt word pos word_wstr finals.length
  · exact MergeErhua_of_exempt hword hexempt
  · rw [MergeErhua_of_not_exempt hword hexempt]
    unfold Exempt at hexempt
    rw [not_or, not_not] at hexempt
    rcases concat_of_length_eq hlen with
      ⟨rfl, rfl⟩ | ⟨is, initial, fs, er, rfl, rfl, hlen'⟩
    · rfl
    · have hfolds : foldsEr word_wstr (fs ++ [er]) fs fs.length er =
          Except.ok false := by
        unfold foldsEr
        rw [if_neg]
        · rfl
        · rintro ⟨-, hget, -⟩
          have hn := hexempt.2
          rw [List.length_append] at hn
          rw [List.getLast?_eq_getElem?, ← hn] at hlast
          exact hlast hget
      rw [foldlM_erhuaStep_concat hlen', hfolds]
      rfl

theorem MergeErhua_rhotic {is fs : List CString} {initial final er : CString}
    {word pos : CString} {word_wstr : WString} {tail : CString}
    (hlen : is.length = (fs ++ [final]).length)
    (hword : utf8string2wstring word = Except.ok word_wstr)
    (hexempt : ¬ Exempt word pos word_wstr (fs ++ [final] ++ [er]).length)
    (her : er = str "er2" ∨ er = str "er5")
    (hlast : word_wstr.getLast? = some 20799)
    (htail : lastTwo word_wstr = Except.ok tail) (hnot : tail ∉ not_erhua) :
    MergeErhua (is ++ [initial]) (fs ++ [final] ++ [er]) word pos =
      (rhotic final).map fun last => (is, fs ++ [last]) := by
  have hn : (fs ++ [final] ++ [er]).length = word_wstr.length := by
    unfold Exempt at hexempt
    rw [not_or, not_not] at hexempt
    exact hexempt.2
  have hfolds : foldsEr word_wstr (fs ++ [final] ++ [er]) (fs ++ [final])
      (fs ++ [final]).length er = Except.ok true := by
    unfold foldsEr
    rw [if_pos]
    · rw [htail]
      change Except.ok (decide _) = _
      rw [decide_eq_true]
      exact ⟨hnot, by simp⟩
    · refine ⟨by simp, ?_, her, ?_⟩
      · rw [List.getLast?_eq_getElem?, ← hn, List.length_append] at hlast
        exact hlast
      · rw [← hn]
        simp
  rw [MergeErhua_of_not_exempt hword hexempt, foldlM_erhuaStep_concat hlen, hfolds]
  change (do
    let last <- back Container.finals (fs ++ [final])
    let last <- rhotic last
    pure (is, (fs ++ [final]).dropLast ++ [last])) = _
  have hback : back Container.finals (fs ++ [final]) = Except.ok final := by
    simp [back]
  rw [hback, List.dropLast_concat]
  change rhotic final >>= _ = _
  cases rhotic final with
  | error e =>
      rfl
  | ok last =>
      rfl

end FrontEngineInterface
end VoiceTts
