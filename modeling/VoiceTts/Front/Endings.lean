import VoiceTts.Front.Sandhi

/-!
# The characters of a word and its ending

The tone changes test single characters of a word.  Here their tests are said of
the characters, and not of the code units that the engine compares: first for an
element of `wordvec`, then for the chain of conditions under which
`NeuralSandhi` makes the last tone of a word neutral.
-/

namespace VoiceTts
namespace FrontEngineInterface

/-!
## The characters of a word
-/

def letter (c : Char) : WString :=
  [c.val]

theorem letter_injective : Function.Injective letter := by
  intro c d h
  exact Char.ext (List.singleton_inj.mp h)

theorem Word2WordVec_encodeChars (cs : List Char) :
    Word2WordVec (Utf8.encodeChars cs) = Except.ok (cs.map letter) := by
  unfold Word2WordVec
  rw [utf8string2wstring_encodeChars, ok_bind, Utf8.units, List.map_map]
  rfl

theorem letter_at {cs : List Char} {i : Nat} {c : Char} :
    (cs.map letter)[i]? = some (letter c) ↔ cs[i]? = some c := by
  rw [List.getElem?_map, Option.map_eq_some_iff]
  constructor
  · intro h
    rcases h with ⟨d, hd, heq⟩
    rw [hd, letter_injective heq]
  · intro h
    exact ⟨c, h, rfl⟩

theorem letters_eq {cs : List Char} {i j : Nat} :
    (cs.map letter)[i]? = (cs.map letter)[j]? ↔ cs[i]? = cs[j]? := by
  rw [List.getElem?_map, List.getElem?_map]
  exact (Option.map_injective letter_injective).eq_iff

theorem letter_mem {cs : List Char} {c : Char} :
    letter c ∈ cs.map letter ↔ c ∈ cs :=
  List.mem_map_of_injective letter_injective

theorem letter_last {cs : List Char} {c : Char} :
    (cs.map letter).getLast? = some (letter c) ↔ cs.getLast? = some c := by
  rw [List.getLast?_eq_getElem?, List.getLast?_eq_getElem?, List.length_map]
  exact letter_at

theorem length_letters (cs : List Char) : (cs.map letter).length = cs.length :=
  List.length_map letter

/-!
## Endings
-/

/-- The last character is one of `chars`. -/
def EndsIn (cs : List Char) (chars : String) : Prop :=
  exists c, c ∈ cs.getLast? ∧ c ∈ chars.toList

instance (cs : List Char) (chars : String) : Decidable (EndsIn cs chars) :=
  inferInstanceAs (Decidable (exists c, c ∈ cs.getLast? ∧ c ∈ chars.toList))

/-- The endings that take a neutral tone for what they are. -/
def Particle (cs : List Char) (pos : CString) : Prop :=
  EndsIn cs "吧呢哈啊呐噻嘛吖嗨呐哦哒额滴哩哟喽啰耶喔诶" ∨
  EndsIn cs "的地得" ∨
  (cs.length = 1 ∧ EndsIn cs "了着过" ∧ pos ∈ ["ul", "uz", "ug"].map str) ∨
  (1 < cs.length ∧ EndsIn cs "们子" ∧ pos ∈ ["r", "n"].map str ∧
    Utf8.encodeChars cs ∈ must_not_neural_tone_words) ∨
  (1 < cs.length ∧ EndsIn cs "上下里" ∧ pos ∈ ["s", "l", "f"].map str) ∨
  (1 < cs.length ∧ EndsIn cs "来去" ∧ EndsIn cs.dropLast "上下进出回过起开")

instance (cs : List Char) (pos : CString) : Decidable (Particle cs pos) :=
  inferInstanceAs (Decidable (_ ∨ _))

/-- The first 个 stands at `k` behind a character that counts. -/
def CountsAt (cs : List Char) (k : Nat) : Prop :=
  cs.idxOf? '个' = some k ∧ 1 ≤ k ∧
    EndsIn (cs.take k) "几有两半多各整每做是零一二三四六七八九"

/-- The word or its last two characters are in the table of neutral tones. -/
def Listed (cs : List Char) : Prop :=
  Utf8.encodeChars cs ∈ must_neural_tone_words ∨
    (2 ≤ cs.length ∧
      Utf8.encodeChars (cs.drop (cs.length - 2)) ∈ must_neural_tone_words)

instance (cs : List Char) : Decidable (Listed cs) :=
  inferInstanceAs (Decidable (_ ∨ _))

theorem length_of_neural {w : CString} (h : w ∈ must_neural_tone_words) :
    w.length = 6 := by
  unfold must_neural_tone_words at h
  rcases List.mem_map.mp h with ⟨s, hs, heq⟩
  have hsix : s.utf8ByteSize = 6 := by
    refine (?_ : forall s : String, s ∈ _ -> s.utf8ByteSize = 6) s hs
    decide +kernel
  rw [← heq, length_str, hsix]

theorem not_listed_of_length {cs : List Char} (h : cs.length < 2) : ¬ Listed cs := by
  intro hlisted
  cases hlisted with
  | inl hword =>
      have hsix := length_of_neural hword
      cases cs with
      | nil =>
          cases hsix
      | cons c cs =>
          have hnil : cs = [] := by
            rw [← List.length_eq_zero_iff]
            exact Nat.lt_one_iff.mp (Nat.lt_of_succ_lt_succ h)
          have hle := Char.utf8Size_le_four c
          rw [hnil, Utf8.encodeChars_cons, Utf8.encodeChars_nil, List.append_nil,
            String.length_utf8EncodeChar] at hsix
          omega
  | inr htail =>
      exact absurd htail.1 (Nat.not_le_of_lt h)

theorem not_listed_of_tail {cs : List Char}
    (hsize : (Utf8.encodeChars cs).length = 6 -> cs.length = 2)
    (htail : Utf8.encodeChars (cs.drop (cs.length - 2)) ∉ must_neural_tone_words) :
    ¬ Listed cs := by
  intro hlisted
  cases hlisted with
  | inl hword =>
      rw [hsize (length_of_neural hword), Nat.sub_self, List.drop_zero] at htail
      exact htail hword
  | inr h =>
      exact htail h.2

theorem oneOf_some (c : Char) (chars : String) :
    oneOf (some c.val) chars = true ↔ c ∈ chars.toList := by
  change decide (c.val ∈ chars.toList.map Char.val) = true ↔ _
  rw [decide_eq_true_eq]
  exact List.mem_map_of_injective fun _ _ => Char.ext

theorem oneOf_last (cs : List Char) (chars : String) :
    oneOf (Utf8.units cs).getLast? chars = true ↔ EndsIn cs chars := by
  unfold Utf8.units EndsIn
  rw [List.getLast?_map]
  cases cs.getLast? with
  | none =>
      simp [oneOf]
  | some c =>
      rw [Option.map_some, oneOf_some]
      simp

theorem oneOf_at (cs : List Char) (i : Nat) (chars : String) (hi : i < cs.length) :
    oneOf (Utf8.units cs)[i]? chars = true ↔ EndsIn (cs.take (i + 1)) chars := by
  rw [← oneOf_last, Utf8.units, Utf8.units, List.getLast?_map, List.getElem?_map,
    List.getLast?_take]
  simp [hi]

theorem idxOf_ge (cs : List Char) :
    (Utf8.units cs).idxOf? 20010 = cs.idxOf? '个' := by
  have hval : forall c : Char, (c.val == 20010) = (c == '个') := by
    intro c
    rw [Bool.eq_iff_iff, beq_iff_eq, beq_iff_eq]
    constructor
    · intro h
      exact Char.ext h
    · intro h
      rw [h]
      rfl
  unfold List.idxOf? Utf8.units
  rw [List.findIdx?_map]
  exact congrArg (fun p => List.findIdx? p cs) (funext hval)

theorem isCounted_units (cs : List Char) :
    isCounted (Utf8.units cs) = true ↔ cs = ['个'] ∨ exists k, CountsAt cs k := by
  have halone : Utf8.units cs = wstr "个" ↔ cs = ['个'] := by
    change Utf8.units cs = Utf8.units ['个'] ↔ _
    exact Utf8.units_injective
  unfold isCounted CountsAt
  rw [Bool.or_eq_true, decide_eq_true_eq, halone, idxOf_ge]
  refine or_congr_right ?_
  cases hidx : cs.idxOf? '个' with
  | none =>
      simp
  | some k =>
      have hk : k < cs.length := (List.findIdx?_eq_some_iff_getElem.mp hidx).1
      rw [Bool.and_eq_true, decide_eq_true_eq]
      constructor
      · intro h
        refine ⟨k, rfl, h.1, ?_⟩
        have hcount := (oneOf_at cs (k - 1) _ (by omega)).mp h.2
        rw [Nat.sub_add_cancel h.1] at hcount
        exact hcount
      · intro h
        rcases h with ⟨j, hj, hone, hcount⟩
        cases hj
        refine ⟨hone, (oneOf_at cs (k - 1) _ (by omega)).mpr ?_⟩
        rw [Nat.sub_add_cancel hone]
        exact hcount

theorem lastTwo_units (cs : List Char) :
    lastTwo (Utf8.units cs) =
      Except.ok (Utf8.encodeChars (cs.drop (cs.length - 2))) := by
  have hunits : (Utf8.units cs).drop ((Utf8.units cs).length - 2) =
      Utf8.units (cs.drop (cs.length - 2)) := by
    unfold Utf8.units
    rw [List.length_map, List.map_drop]
  unfold lastTwo
  rw [hunits, wstring2utf8string_units]

theorem mustBeNeutral_units (cs : List Char) :
    mustBeNeutral (Utf8.encodeChars cs) (Utf8.units cs) =
      Except.ok (decide (Listed cs)) := by
  have hlength : (Utf8.units cs).length = cs.length := List.length_map Char.val
  unfold mustBeNeutral
  rw [lastTwo_units, hlength, ok_bind]
  split
  · rename_i hword
    exact congrArg Except.ok (decide_eq_true (Or.inl hword)).symm
  · rename_i hword
    split
    · rename_i htwo
      refine congrArg Except.ok ?_
      rw [decide_eq_decide]
      constructor
      · intro htail
        exact Or.inr ⟨htwo, htail⟩
      · intro hlisted
        exact (hlisted.resolve_left hword).2
    · rename_i htwo
      refine congrArg Except.ok (decide_eq_false ?_).symm
      intro hlisted
      exact htwo (hlisted.resolve_left hword).1

/-- One condition of a chain that answers yes at the first one that holds. -/
theorem yields_chain {p q rest : Prop} [Decidable p] {r : Except Error Bool}
    (hpq : p ↔ q)
    (h : Yields (fun b => b = true ↔ rest) (fun _ : Error => False) r) :
    Yields (fun b => b = true ↔ q ∨ rest) (fun _ : Error => False)
      (if p then pure true else r) := by
  split
  · rename_i hp
    exact ⟨fun _ => Or.inl (hpq.mp hp), fun _ => rfl⟩
  · rename_i hp
    refine h.mono ?_ fun _ he => he
    intro b hb
    rw [hb, or_iff_right fun hq => hp (hpq.mpr hq)]

theorem endsNeutral_units (cs : List Char) (pos : CString) :
    Yields (fun neutral => neutral = true ↔
        Particle cs pos ∨ (cs = ['个'] ∨ exists k, CountsAt cs k) ∨ Listed cs)
      (fun _ : Error => False)
      (endsNeutral (Utf8.encodeChars cs) (Utf8.units cs) pos) := by
  have hlength : (Utf8.units cs).length = cs.length := List.length_map Char.val
  have hbefore : (1 < cs.length ∧ EndsIn cs "来去" ∧
      oneOf (Utf8.units cs)[cs.length - 2]? "上下进出回过起开" = true) ↔
      1 < cs.length ∧ EndsIn cs "来去" ∧ EndsIn cs.dropLast "上下进出回过起开" := by
    refine and_congr_right fun hone => and_congr_right fun _ => ?_
    rw [oneOf_at cs (cs.length - 2) _ (by omega), List.dropLast_eq_take,
      show cs.length - 2 + 1 = cs.length - 1 by omega]
  unfold endsNeutral Particle
  simp only [oneOf_last, mustBeNeutral_units, hlength, or_assoc]
  refine yields_chain Iff.rfl ?_
  refine yields_chain Iff.rfl ?_
  refine yields_chain Iff.rfl ?_
  refine yields_chain Iff.rfl ?_
  refine yields_chain Iff.rfl ?_
  refine yields_chain hbefore ?_
  rw [← or_assoc]
  refine yields_chain (isCounted_units cs) ?_
  exact decide_eq_true_iff

end FrontEngineInterface
end VoiceTts
