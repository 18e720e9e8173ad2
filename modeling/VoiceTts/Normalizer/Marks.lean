import VoiceTts.Normalizer.Rules

/-!
# The parts between punctuation marks

`SplitByPunc` searches its working copy for a mark, emits what goes up to that
mark, erases it and searches again; what is left at the end is a part of its own.
Nothing of the sentence is lost, and a mark stands at the end of a part only.
-/

namespace VoiceTts
namespace TextNormalizer

open Regex

def marks : WString :=
  wstr "：，；。？！,;?!"

/-- The text has no punctuation mark. -/
def Unmarked (s : WString) : Prop :=
  forall c, c ∈ s -> c ∉ marks

/-- The text ends in a mark, and this is the only one. -/
def Closed (part : WString) : Prop :=
  exists body c, part = body ++ [c] ∧ c ∈ marks ∧ Unmarked body

theorem Closed.ne_nil {part : WString} (h : Closed part) : part ≠ [] := by
  obtain ⟨body, c, rfl, -, -⟩ := h
  exact List.append_ne_nil_of_right_ne_nil body (List.cons_ne_nil c [])

/--
The loop of `SplitByPunc`, entered with the working copy `temp` and the parts so far,
ends with the parts `r`.
-/
inductive Cuts : WString -> List WString -> List WString -> Prop where
  | done {temp : WString} {parts : List WString} :
      puncPattern.search temp = none ->
      Cuts temp parts (if temp ≠ [] then parts ++ [temp] else parts)
  | round {temp : WString} {parts r : List WString} {mt : Match UInt32} :
      puncPattern.search temp = some mt ->
      Cuts (splice temp 0 (mt.position 0 + mt.length 0) [])
        (parts ++ [temp.take (mt.position 0 + mt.length 0)]) r ->
      Cuts temp parts r

theorem search_punc_none {temp : WString} :
    puncPattern.search temp = none ↔ Unmarked temp := by
  show (set _).search temp = none ↔ _
  rw [search_set_eq_none]
  exact forall_congr' fun c => forall_congr' fun _ => decide_eq_false_iff_not

theorem search_punc_some {temp : WString} {mt : Match UInt32}
    (h : puncPattern.search temp = some mt) :
    exists part, Closed part ∧ temp = part ++ mt.post ∧
      temp.take (mt.position 0 + mt.length 0) = part ∧
      splice temp 0 (mt.position 0 + mt.length 0) [] = mt.post := by
  obtain ⟨c, hc, htext, htemp, hpre⟩ := search_set_eq_some h
  have hlen : mt.position 0 + mt.length 0 = (mt.pre ++ [c]).length := by
    show mt.pre.length + mt.text.length = _
    rw [htext, List.length_append]
  have hsplit : temp = (mt.pre ++ [c]) ++ mt.post := by
    rw [htemp, List.append_assoc, List.singleton_append]
  refine ⟨mt.pre ++ [c], ⟨mt.pre, c, rfl, of_decide_eq_true hc, ?_⟩, hsplit, ?_, ?_⟩
  · intro y hy
    exact of_decide_eq_false (hpre y hy)
  · rw [hlen, hsplit, List.take_left]
  · rw [hlen, hsplit]
    simp [splice]

/-- The loop ends after at most as many rounds as the working copy has characters. -/
theorem cuts_splitByPunc :
    forall (n : Nat) (temp : WString) (parts : List WString), temp.length ≤ n ->
      Cuts temp parts (splitByPunc n temp parts) := by
  intro n
  induction n with
  | zero =>
      intro temp parts hn
      have htemp : temp = [] := List.length_eq_zero_iff.mp (Nat.le_zero.mp hn)
      subst htemp
      exact Cuts.done (search_punc_none.mpr fun _ hc => nomatch hc)
  | succ n ih =>
      intro temp parts hn
      cases hsearch : puncPattern.search temp with
      | none =>
          simp only [splitByPunc, hsearch]
          exact Cuts.done hsearch
      | some mt =>
          simp only [splitByPunc, hsearch]
          obtain ⟨part, hpart, htemp, -, hrest⟩ := search_punc_some hsearch
          refine Cuts.round hsearch (ih _ _ ?_)
          have hpos : 0 < part.length := List.length_pos_iff.mpr hpart.ne_nil
          rw [htemp, List.length_append] at hn
          rw [hrest]
          omega

/-- The text `s` in parts: closed ones, and at the end perhaps one without a mark. -/
inductive Parted : WString -> List WString -> Prop where
  | nil : Parted [] []
  | rest {s : WString} : s ≠ [] -> Unmarked s -> Parted s [s]
  | cons {part s : WString} {parts : List WString} :
      Closed part -> Parted s parts -> Parted (part ++ s) (part :: parts)

namespace Parted

variable {s : WString} {parts : List WString}

theorem flatten_eq (h : Parted s parts) : parts.flatten = s := by
  induction h with
  | nil => rfl
  | rest _ _ => exact List.flatten_singleton
  | cons _ _ ih => rw [List.flatten_cons, ih]

theorem ne_nil (h : Parted s parts) : forall part, part ∈ parts -> part ≠ [] := by
  induction h with
  | nil =>
      intro part hpart
      cases hpart
  | rest hs _ =>
      intro part hpart
      rw [List.mem_singleton.mp hpart]
      exact hs
  | cons hclosed _ ih => exact List.forall_mem_cons.mpr ⟨hclosed.ne_nil, ih⟩

theorem closed (h : Parted s parts) : forall part, part ∈ parts.dropLast -> Closed part := by
  induction h with
  | nil =>
      intro part hpart
      cases hpart
  | rest _ _ =>
      intro part hpart
      cases hpart
  | @cons part s parts hclosed htail ih =>
      cases parts with
      | nil =>
          intro _ hmem
          cases hmem
      | cons q parts => exact List.forall_mem_cons.mpr ⟨hclosed, ih⟩

theorem last (h : Parted s parts) :
    forall part, parts.getLast? = some part -> Closed part ∨ Unmarked part := by
  induction h with
  | nil =>
      intro part hpart
      cases hpart
  | rest _ hfree =>
      intro part hpart
      injection hpart with hpart
      rw [← hpart]
      exact Or.inr hfree
  | @cons part s parts hclosed htail ih =>
      cases parts with
      | nil =>
          intro q hq
          injection hq with hq
          rw [← hq]
          exact Or.inl hclosed
      | cons q parts =>
          intro q' hq'
          rw [List.getLast?_cons_cons] at hq'
          exact ih q' hq'

end Parted

/-- What the loop adds to the parts so far are the parts of its working copy. -/
theorem Cuts.parted {temp : WString} {parts r : List WString} (h : Cuts temp parts r) :
    exists tail, r = parts ++ tail ∧ Parted temp tail := by
  induction h with
  | @done temp parts hnone =>
      by_cases htemp : temp = []
      · subst htemp
        exact ⟨[], (List.append_nil parts).symm, Parted.nil⟩
      · exact ⟨[temp], if_pos htemp, Parted.rest htemp (search_punc_none.mp hnone)⟩
  | @round temp parts r mt hsome _ ih =>
      obtain ⟨tail, hr, htail⟩ := ih
      obtain ⟨part, hclosed, htemp, htake, hrest⟩ := search_punc_some hsome
      rw [hrest] at htail
      rw [htake] at hr
      refine ⟨part :: tail, ?_, ?_⟩
      · rw [hr, List.append_assoc, List.singleton_append]
      · rw [htemp]
        exact Parted.cons hclosed htail

/-- The loop ends with parts that make up the sentence and end at its marks. -/
theorem SplitByPunc_partition (sentence : WString) :
    Cuts sentence [] (SplitByPunc sentence) ∧
      (SplitByPunc sentence).flatten = sentence ∧
      (forall part, part ∈ SplitByPunc sentence -> part ≠ []) ∧
      (forall part, part ∈ (SplitByPunc sentence).dropLast -> Closed part) ∧
      (forall part, (SplitByPunc sentence).getLast? = some part ->
        Closed part ∨ Unmarked part) := by
  have hcuts : Cuts sentence [] (SplitByPunc sentence) :=
    cuts_splitByPunc sentence.length sentence [] (Nat.le_refl _)
  obtain ⟨parts, hparts, hparted⟩ := hcuts.parted
  rw [List.nil_append] at hparts
  rw [← hparts] at hparted
  exact ⟨hcuts, hparted.flatten_eq, hparted.ne_nil, hparted.closed, hparted.last⟩

end TextNormalizer
end VoiceTts
