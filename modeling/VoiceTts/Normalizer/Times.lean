import VoiceTts.Normalizer.Sentences

/-!
# Minutes and seconds with a leading zero

`ReTime` puts a 零 in front of a field that is written with a zero, and the number
reader, which keeps leading zeros unless it is told otherwise, says it once more.
The comment in the source gives the reading with one 零.
-/

namespace VoiceTts
namespace Spoken

open TextNormalizer Reading

/-- A field written as a zero and the digit `d`, which is none. -/
def Padded (field : WString) (d : UInt32) : Prop :=
  field = [48, d] ∧ 49 ≤ d.toNat ∧ d.toNat ≤ 57

/-- A padded field is read with one 零 before its digit. -/
def ReadOnce (field : WString) (text : List Char) : Prop :=
  forall d, Padded field d -> text = '零' :: digitName false d.toUInt8

/--
A round of `ReTime` that reads hour, minute and second as numerals, padded minutes and
seconds with one 零, and leaves the text around the time alone.
-/
structure TimeRound (s : WString) (mt : Match UInt32) (rep s' : WString) : Prop where
  text : exists hour minute second : List Char,
    rep = Utf8.units (hour ++ '点' :: (minute ++ '分' :: (second ++ ['秒']))) ∧
      (forall x, x ∈ hour ++ minute ++ second -> x ∈ numerals) ∧
      ReadOnce (mt.group 2) minute ∧ ReadOnce (mt.group 4) second
  around : s = mt.pre ++ mt.text ++ mt.post ∧ s' = mt.pre ++ rep ++ mt.post

/-- The number reader says the zero itself. -/
theorem number_padded {field : WString} {d : UInt32} (h : Padded field d) :
    number true field = Except.ok ('零' :: digitName false d.toUInt8) := by
  have hnine : forall k, k < 9 ->
      number true [48, UInt32.ofNat (49 + k)] =
        Except.ok ('零' :: digitName false (UInt32.ofNat (49 + k)).toUInt8) := by
    decide +kernel
  obtain ⟨rfl, hlow, hhigh⟩ := h
  have hd : d = UInt32.ofNat (49 + (d.toNat - 49)) := by
    rw [Nat.add_sub_cancel' hlow, UInt32.ofNat_toNat]
  rw [hd]
  exact hnine (d.toNat - 49) (by omega)

theorem zero_padded {field : WString} {d : UInt32} (h : Padded field d) :
    zero field = ['零'] := by
  rw [h.1]
  rfl

/-- What the rule says for a minute or a second. -/
theorem not_readOnce {field : WString} {d : UInt32} (h : Padded field d) {cs : List Char}
    (hcs : number true field = Except.ok cs) : ¬ ReadOnce field (zero field ++ cs) := by
  intro honce
  have htext := honce d h
  rw [number_padded h] at hcs
  rw [zero_padded h, ← Except.ok.inj hcs] at htext
  have hlength := congrArg List.length htext
  simp only [List.length_append, List.length_cons, List.length_nil] at hlength
  omega

theorem timeText_ok {g : Nat -> WString} {cs : List Char} (h : timeText g = Except.ok cs) :
    exists hour minute second, number false (g 1) = Except.ok hour ∧
      number true (g 2) = Except.ok minute ∧ number true (g 4) = Except.ok second ∧
      cs = hour ++ '点' :: ((zero (g 2) ++ minute) ++ '分' ::
        ((zero (g 4) ++ second) ++ ['秒'])) := by
  unfold timeText at h
  cases hhour : number false (g 1) with
  | error e =>
      rw [hhour] at h
      cases h
  | ok hour =>
      cases hminute : number true (g 2) with
      | error e =>
          rw [hhour, hminute] at h
          cases h
      | ok minute =>
          cases hsecond : number true (g 4) with
          | error e =>
              rw [hhour, hminute, hsecond] at h
              cases h
          | ok second =>
              rw [hhour, hminute, hsecond] at h
              refine ⟨hour, minute, second, rfl, rfl, rfl, ?_⟩
              rw [← Except.ok.inj h]
              simp only [List.append_assoc, List.cons_append, List.nil_append]

theorem mem_zero {field : WString} {x : Char} (h : x ∈ zero field) : x ∈ numerals := by
  unfold zero at h
  split at h
  · rw [List.mem_singleton.mp h]
    decide
  · cases h

/-- The three texts can be told from what is said, as numerals contain no unit. -/
theorem time_texts_unique {a b c a' b' c' : List Char}
    (hmem : forall x, x ∈ a ++ b ++ c -> x ∈ numerals)
    (h : a ++ '点' :: (b ++ '分' :: (c ++ ['秒'])) = a' ++ '点' :: (b' ++ '分' :: (c' ++ ['秒']))) :
    b = b' ∧ c = c' := by
  have hnone : forall u : Char, u ∉ numerals -> u ∉ a ∧ u ∉ b ∧ u ∉ c := by
    intro u hu
    exact ⟨fun hx => hu (hmem u (by simp [hx])), fun hx => hu (hmem u (by simp [hx])),
      fun hx => hu (hmem u (by simp [hx]))⟩
  obtain ⟨hpa, hpb, hpc⟩ := hnone '点' (by decide)
  obtain ⟨-, hmb, hmc⟩ := hnone '分' (by decide)
  obtain ⟨-, -, hrest⟩ := (List.append_cons_inj_of_notMem hpa (by simp [hpb, hpc])).mp h
  obtain ⟨hb, -, hlast⟩ := (List.append_cons_inj_of_notMem hmb (by simp [hmc])).mp hrest
  exact ⟨hb, List.append_cancel_right hlast⟩

/-- In every round the reading is the right one exactly when no field is padded. -/
theorem ReTime_padded_iff (sentence : WString) (n : TextNormalizer) (hn : Valid n)
    (c c' : Rule.Config TextNormalizer Unit UInt32) (mt : Match UInt32) (rep : WString)
    (hreach : timeRule.Reaches ⟨(), sentence, n⟩ c) (hround : timeRule.Round c mt rep c') :
    TimeRound c.sentence mt rep c'.sentence ↔
      (forall d, ¬ Padded (mt.group 2) d) ∧ (forall d, ¬ Padded (mt.group 4) d) := by
  obtain ⟨hsearch, hbody, hsentence, -⟩ :=
    refines_time.round (refines_time.reaches hn hreach) hround
  obtain ⟨cs, hcs, hrep⟩ : exists cs, timeText mt.group = Except.ok cs ∧ rep = Utf8.units cs := by
    change timeText mt.group >>= _ = _ at hbody
    cases htext : timeText mt.group with
    | error e =>
        rw [htext] at hbody
        cases hbody
    | ok cs =>
        rw [htext] at hbody
        exact ⟨cs, rfl, (congrArg Prod.snd (Except.ok.inj hbody)).symm⟩
  obtain ⟨hour, minute, second, hhour, hminute, hsecond, rfl⟩ := timeText_ok hcs
  have hmem : forall x, x ∈ hour ++ (zero (mt.group 2) ++ minute) ++
      (zero (mt.group 4) ++ second) -> x ∈ numerals := by
    simp only [List.mem_append, or_imp, forall_and]
    exact ⟨⟨(number_ok hhour).2, fun _ => mem_zero, (number_ok hminute).2⟩,
      fun _ => mem_zero, (number_ok hsecond).2⟩
  constructor
  · intro hread
    obtain ⟨hour', minute', second', htext, -, honce2, honce4⟩ := hread.text
    rw [hrep] at htext
    obtain ⟨rfl, rfl⟩ := time_texts_unique hmem (Utf8.units_injective.mp htext)
    exact ⟨fun d hd => not_readOnce hd hminute honce2, fun d hd => not_readOnce hd hsecond honce4⟩
  · rintro ⟨hfree2, hfree4⟩
    refine ⟨⟨hour, _, _, hrep, hmem, fun d hd => absurd hd (hfree2 d),
      fun d hd => absurd hd (hfree4 d)⟩, Match.search_splits hsearch, ?_⟩
    rw [hsentence, Rule.replaced_eq rfl hsearch]

theorem search_unpadded : (timePattern.search (wstr "12:34:56")).isSome = true := by
  decide +kernel

/-- The match of a time without zeros. -/
def unpadded : Match UInt32 :=
  (timePattern.search (wstr "12:34:56")).get search_unpadded

theorem ReTime_padded_iff_unpadded :
    TimeRound (wstr "12:34:56") unpadded (wstr "十二点三十四分五十六秒")
      (timeRule.replaced (wstr "12:34:56") unpadded (wstr "十二点三十四分五十六秒")) := by
  have hfound : timePattern.search (wstr "12:34:56") = some unpadded :=
    (Option.some_get search_unpadded).symm
  have hbody : (timeRule.body () unpadded.group construct).1 =
      Except.ok ((), wstr "十二点三十四分五十六秒") := by
    decide +kernel
  have hminute : unpadded.group 2 = wstr "34" := by
    decide +kernel
  have hsecond : unpadded.group 4 = wstr "56" := by
    decide +kernel
  refine (ReTime_padded_iff (wstr "12:34:56") construct valid_construct.valid
    ⟨(), wstr "12:34:56", construct⟩ _ unpadded _ Rule.Reaches.start
    (Rule.Round.of_body hfound hbody)).mpr ⟨?_, ?_⟩
  · rintro d ⟨hd, -⟩
    rw [hminute] at hd
    exact absurd (List.cons.inj hd).1 (by decide)
  · rintro d ⟨hd, -⟩
    rw [hsecond] at hd
    exact absurd (List.cons.inj hd).1 (by decide)

/-- The time of the comment in the source is read with two zeros each. -/
theorem ReTime_documented_zeros :
    (ReTime (wstr "09:09:02") construct).1 = Except.ok (wstr "九点零零九分零零二秒") ∧
      forall mt, timePattern.search (wstr "09:09:02") = some mt ->
        ¬ TimeRound (wstr "09:09:02") mt (wstr "九点零零九分零零二秒")
          (wstr "九点零零九分零零二秒") := by
  constructor
  · decide +kernel
  · intro mt hsearch hread
    obtain ⟨hour, minute, second, htext, hmem, honce, -⟩ := hread.text
    have hsaid : wstr "九点零零九分零零二秒" = Utf8.units
        (['九'] ++ '点' :: (['零', '零', '九'] ++ '分' :: (['零', '零', '二'] ++ ['秒']))) := by
      decide +kernel
    have hsame := time_texts_unique hmem (Utf8.units_injective.mp (htext.symm.trans hsaid))
    have hgroup : (timePattern.search (wstr "09:09:02")).map (fun m => m.group 2) =
        some [48, 57] := by
      decide +kernel
    rw [hsearch] at hgroup
    have hminute := honce 57 ⟨Option.some.inj hgroup, by decide, by decide⟩
    rw [hsame.1] at hminute
    exact absurd hminute (by decide)

end Spoken
end VoiceTts
