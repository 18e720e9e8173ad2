import Mathlib.Data.List.DropRight
import VoiceTts.Base.Strings
import VoiceTts.Player.Predictor

/-!
# Phone ids on their way to the player

The ids of a segment leave the native library as text, with commas between the numbers,
and `SpeakText` reads the numbers from this text.  Nothing is lost on the way but one
thing: a segment without ids arrives as the id 277.
-/

namespace VoiceTts

def Join (ids : List Int) (connector : CString) : CString :=
  match ids with
  | [] => []
  | id :: ids => to_string id ++ ids.flatMap fun id => connector ++ to_string id

/-- The characters of a string of ASCII bytes. -/
def NewStringUTF (s : CString) : JString :=
  s.map fun b => Char.ofNat b.toNat

/-!
## Reading the text
-/

/--
`String.split`: empty strings at the end are left out, and a string without the
character is not split.
-/
def JString.split (s : JString) (c : Char) : List JString :=
  if c ∈ s then (s.splitOn c).rdropWhile fun part => decide (part = []) else [s]

def isDecimal (c : Char) : Bool :=
  decide (48 ≤ c.toNat ∧ c.toNat ≤ 57)

/-- The sign and what stands behind it. -/
def signOf : JString -> Bool × JString
  | '-' :: s => (true, s)
  | '+' :: s => (false, s)
  | s => (false, s)

/-- `Integer.valueOf`; the exception is `none`. -/
def valueOf (s : JString) : Option Int :=
  if (signOf s).2 ≠ [] ∧ (signOf s).2.all isDecimal then
    let v : Nat := Nat.ofDigits 10 ((signOf s).2.reverse.map fun c => c.toNat - 48)
    let i : Int := if (signOf s).1 then -v else v
    if -2147483648 ≤ i ∧ i ≤ 2147483647 then some i else none
  else none

/-- The array `ft` that is made of the codes of a segment. -/
def phonesOfCodes (codes : JString) : Option (List Int) := do
  let ft <- (codes.split ',').mapM fun s => if s = [] then some 277 else valueOf s
  pure (ft ++ [277])

def InInt (i : Int) : Prop :=
  -2147483648 ≤ i ∧ i ≤ 2147483647

instance (i : Int) : Decidable (InInt i) :=
  inferInstanceAs (Decidable (_ ∧ _))

/-!
## Numbers
-/

theorem toNat_decimal : forall d, d < 10 ->
    (Char.ofNat (UInt8.ofNat (48 + d)).toNat).toNat = 48 + d := by
  decide

theorem natText_spec (n : Nat) :
    NewStringUTF (natDigits n) ≠ [] ∧
      (forall c, c ∈ NewStringUTF (natDigits n) -> isDecimal c = true) ∧
      Nat.ofDigits 10 ((NewStringUTF (natDigits n)).reverse.map fun c => c.toNat - 48) =
        n := by
  unfold natDigits NewStringUTF
  by_cases hn : n = 0
  · subst hn
    decide
  · rw [if_neg hn, List.map_map]
    refine ⟨?_, ?_, ?_⟩
    · rw [ne_eq, List.map_eq_nil_iff, List.reverse_eq_nil_iff, Nat.digits_eq_nil_iff_eq_zero]
      exact hn
    · intro c hc
      rcases List.mem_map.mp hc with ⟨d, hd, rfl⟩
      have hlt := Nat.digits_lt_base (by decide) (List.mem_reverse.mp hd)
      rw [isDecimal, Function.comp_apply, toNat_decimal d hlt, decide_eq_true_eq]
      omega
    · rw [← List.map_reverse, List.reverse_reverse, List.map_map]
      have hdigits : (Nat.digits 10 n).map ((fun c : Char => c.toNat - 48) ∘
          ((fun b : UInt8 => Char.ofNat b.toNat) ∘ fun d => UInt8.ofNat (48 + d))) =
          Nat.digits 10 n := by
        refine (List.map_congr_left fun d hd => ?_).trans (List.map_id _)
        have hlt := Nat.digits_lt_base (by decide) hd
        rw [Function.comp_apply, Function.comp_apply, toNat_decimal d hlt, id]
        omega
      rw [hdigits, Nat.ofDigits_digits]

theorem signOf_digits {s : JString} (hne : s ≠ [])
    (hdigits : forall c, c ∈ s -> isDecimal c = true) : signOf s = (false, s) := by
  cases s with
  | nil =>
      exact absurd rfl hne
  | cons c s =>
      have hc := hdigits c (List.mem_cons_self ..)
      unfold signOf
      split
      · rename_i heq
        cases heq
        exact absurd hc (by decide)
      · rename_i heq
        cases heq
        exact absurd hc (by decide)
      · rfl

theorem valueOf_to_string {i : Int} (hi : InInt i) :
    valueOf (NewStringUTF (to_string i)) = some i := by
  have htext := natText_spec i.natAbs
  have hall := List.all_eq_true.mpr htext.2.1
  by_cases hneg : i < 0
  · have hsign : signOf (NewStringUTF (to_string i)) =
        (true, NewStringUTF (natDigits i.natAbs)) := by
      rw [to_string, if_pos hneg]
      rfl
    have hvalue : -(i.natAbs : Int) = i := by
      omega
    unfold valueOf
    rw [hsign, if_pos ⟨htext.1, hall⟩]
    dsimp only
    rw [htext.2.2]
    rw [if_pos rfl, hvalue]
    exact if_pos hi
  · have hsign : signOf (NewStringUTF (to_string i)) =
        (false, NewStringUTF (natDigits i.natAbs)) := by
      rw [to_string, if_neg hneg]
      exact signOf_digits htext.1 htext.2.1
    have hvalue : (i.natAbs : Int) = i := by
      omega
    unfold valueOf
    rw [hsign, if_pos ⟨htext.1, hall⟩]
    dsimp only
    rw [htext.2.2]
    rw [if_neg Bool.false_ne_true, hvalue]
    exact if_pos hi

theorem to_string_text (i : Int) :
    NewStringUTF (to_string i) ≠ [] ∧ ',' ∉ NewStringUTF (to_string i) := by
  have htext := natText_spec i.natAbs
  have hcomma : ',' ∉ NewStringUTF (natDigits i.natAbs) := by
    intro hmem
    exact absurd (htext.2.1 ',' hmem) (by decide)
  rw [to_string]
  split
  · refine ⟨List.cons_ne_nil _ _, ?_⟩
    intro hmem
    rcases List.mem_cons.mp hmem with heq | hmem
    · exact absurd heq (by decide)
    · exact hcomma hmem
  · exact ⟨htext.1, hcomma⟩

/-!
## Lists of numbers
-/

theorem NewStringUTF_Join (id : Int) (ids : List Int) :
    NewStringUTF (Join (id :: ids) (str ",")) =
      [','].intercalate ((id :: ids).map fun id => NewStringUTF (to_string id)) := by
  have hrest : forall first : JString,
      first ++ NewStringUTF (ids.flatMap fun id => str "," ++ to_string id) =
        [','].intercalate (first :: ids.map fun id => NewStringUTF (to_string id)) := by
    induction ids with
    | nil =>
        intro first
        rw [List.map_nil, List.flatMap_nil, List.intercalate_singleton]
        exact List.append_nil first
    | cons id' ids ih =>
        intro first
        rw [List.flatMap_cons, List.map_cons, List.intercalate_cons_cons, ← ih]
        unfold NewStringUTF
        rw [List.map_append, List.map_append, List.append_assoc, List.append_assoc]
        rfl
  rw [List.map_cons, ← hrest, Join]
  exact List.map_append

theorem split_intercalate {c : Char} {parts : List JString} (hne : parts ≠ [])
    (hparts : forall part, part ∈ parts -> part ≠ [] ∧ c ∉ part) :
    JString.split ([c].intercalate parts) c = parts := by
  have hsplit := List.splitOn_intercalate c (fun part hpart => (hparts part hpart).2) hne
  unfold JString.split
  split
  · rw [hsplit, List.rdropWhile_eq_self_iff]
    intro hparts' hlast
    exact (hparts _ (List.getLast_mem hparts')).1 (of_decide_eq_true hlast)
  · rename_i hnone
    rw [List.splitOn_eq_singleton hnone] at hsplit
    exact hsplit

theorem mapM_valueOf (ids : List Int) (h : forall i, i ∈ ids -> InInt i) :
    (ids.map fun id => NewStringUTF (to_string id)).mapM
        (fun s => if s = [] then some 277 else valueOf s) = some ids := by
  induction ids with
  | nil =>
      rfl
  | cons id ids ih =>
      have hrest := ih fun i hi => h i (List.mem_cons_of_mem _ hi)
      rw [List.map_cons, List.mapM_cons, hrest, if_neg (to_string_text id).1,
        valueOf_to_string (h id (List.mem_cons_self ..))]
      rfl

theorem phonesOfCodes_eq (ids : List Int) (h : forall i, i ∈ ids -> InInt i) :
    phonesOfCodes (NewStringUTF (Join ids (str ","))) = some (segmentPhones ids) := by
  cases ids with
  | nil =>
      rfl
  | cons id ids =>
      have hparts : forall part, part ∈ (id :: ids).map (fun id => NewStringUTF (to_string id)) ->
          part ≠ [] ∧ ',' ∉ part := by
        intro part hpart
        rcases List.mem_map.mp hpart with ⟨i, -, rfl⟩
        exact to_string_text i
      have hread : ((id :: ids).map fun id => NewStringUTF (to_string id)).mapM
          (fun s => if s = [] then some 277 else valueOf s) = some (id :: ids) :=
        mapM_valueOf (id :: ids) h
      rw [phonesOfCodes, NewStringUTF_Join, split_intercalate (by simp) hparts, hread]
      rfl

/--
The player reads the ids of a segment as they were written; it cannot tell a segment
without ids from one with the single id 277.
-/
theorem phonesOfCodes_Join (ids ids' : List Int) (h : forall i, i ∈ ids -> InInt i)
    (h' : forall i, i ∈ ids' -> InInt i) :
    phonesOfCodes (NewStringUTF (Join ids (str ","))) = some (segmentPhones ids) ∧
      (phonesOfCodes (NewStringUTF (Join ids (str ","))) =
          phonesOfCodes (NewStringUTF (Join ids' (str ","))) ↔
        ids = ids' ∨ (ids = [] ∧ ids' = [277]) ∨ (ids = [277] ∧ ids' = [])) := by
  rw [phonesOfCodes_eq ids h, phonesOfCodes_eq ids' h']
  refine ⟨rfl, ?_⟩
  unfold segmentPhones
  rw [Option.some.injEq, List.append_left_inj]
  by_cases hids : ids = []
  · by_cases hids' : ids' = []
    · simp [hids, hids']
    · simp [hids, hids', eq_comm]
  · by_cases hids' : ids' = []
    · simp [hids, hids']
    · simp [hids, hids']

/-- A segment of two phones, and one without any. -/
theorem phonesOfCodes_Join_pair :
    phonesOfCodes (NewStringUTF (Join [31, 168] (str ","))) = some [31, 168, 277] ∧
      (phonesOfCodes (NewStringUTF (Join [31, 168] (str ","))) =
          phonesOfCodes (NewStringUTF (Join [] (str ","))) ↔
        ([31, 168] : List Int) = [] ∨
          (([31, 168] : List Int) = [] ∧ ([] : List Int) = [277]) ∨
            (([31, 168] : List Int) = [277] ∧ ([] : List Int) = [])) :=
  phonesOfCodes_Join [31, 168] [] (by decide) (by decide)

end VoiceTts
