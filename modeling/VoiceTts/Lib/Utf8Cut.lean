import VoiceTts.Lib.Utf8

/-!
# Cutting UTF-8 strings

What a cut at any byte does to an encoded text.  The decoder reads a string from
its front, so the front part of a text decodes to some of its characters or
not at all, and the first byte of a character tells how many bytes it takes.
-/

namespace VoiceTts
namespace Utf8

/-!
## Front parts
-/

theorem decode_append {u v : List UInt8} {w : List UInt32} (h : decode u = some w) :
    decode (u ++ v) = (decode v).map (w ++ ·) := by
  fun_induction decode u generalizing w with
  | case1 =>
      cases h
      simp
  | case2 b rest hb ih =>
      rcases Option.map_eq_some_iff.mp h with ⟨w', hw', rfl⟩
      rw [List.cons_append, decode_one _ hb, ih hw', Option.map_map]
      rfl
  | case4 b h1 h2 h3 b1 rest htail ih =>
      rcases Option.map_eq_some_iff.mp h with ⟨w', hw', rfl⟩
      rw [List.cons_append, List.cons_append, decode_two _ (Nat.le_of_not_lt h2) h3 htail,
        ih hw', Option.map_map]
      rfl
  | case7 b h1 h2 h3 h4 b1 b2 rest htail ih =>
      rcases Option.map_eq_some_iff.mp h with ⟨w', hw', rfl⟩
      rw [List.cons_append, List.cons_append, List.cons_append,
        decode_three _ (Nat.le_of_not_lt h3) h4 htail, ih hw', Option.map_map]
      rfl
  | case10 b h1 h2 h3 h4 h5 b1 b2 b3 rest htail ih =>
      rcases Option.map_eq_some_iff.mp h with ⟨w', hw', rfl⟩
      rw [List.cons_append, List.cons_append, List.cons_append, List.cons_append,
        decode_four _ (Nat.le_of_not_lt h4) h5 htail, ih hw', Option.map_map]
      rfl
  | case3 | case5 | case6 | case8 | case9 | case11 | case12 | case13 =>
      cases h

theorem decode_eq_nil {u : List UInt8} : decode u = some [] ↔ u = [] := by
  constructor
  · intro h
    fun_induction decode u with
    | case1 =>
        rfl
    | case2 | case4 | case7 | case10 =>
        rcases Option.map_eq_some_iff.mp h with ⟨w, -, hcons⟩
        cases hcons
    | case3 | case5 | case6 | case8 | case9 | case11 | case12 | case13 =>
        cases h
  · intro h
    subst h
    rfl

/-- A front part of a text decodes to fewer characters, or not at all. -/
theorem length_decode_lt {u v : List UInt8} {w : List UInt32} {cs : List Char}
    (h : u ++ v = encodeChars cs) (hv : v ≠ []) (hw : decode u = some w) :
    w.length < cs.length := by
  have happ : (decode v).map (w ++ ·) = some (units cs) := by
    rw [← decode_append hw, h, decode_encodeChars]
  rcases Option.map_eq_some_iff.mp happ with ⟨w', hw', hunits⟩
  have hne : w' ≠ [] := by
    intro hnil
    subst hnil
    exact hv (decode_eq_nil.mp hw')
  have hlength : w.length + w'.length = cs.length := by
    rw [← List.length_append, hunits, units, List.length_map]
  have hpos : 0 < w'.length := List.length_pos_iff.mpr hne
  omega

/-- No character is encoded inside another one. -/
theorem decode_inside {u v : List UInt8} {c : Char} (hu : u ≠ []) (hv : v ≠ [])
    (h : u ++ v = String.utf8EncodeChar c) : decode u = none := by
  cases hw : decode u with
  | none =>
      rfl
  | some w =>
      have hc : u ++ v = encodeChars [c] := by
        rw [h, encodeChars_cons, encodeChars_nil, List.append_nil]
      have hlt := length_decode_lt hc hv hw
      have hnil : w = [] := List.length_eq_zero_iff.mp (Nat.lt_one_iff.mp hlt)
      rw [hnil] at hw
      exact absurd (decode_eq_nil.mp hw) hu

/-- A character that lost its last byte is no character. -/
theorem decode_dropLast_utf8EncodeChar (c : Char) :
    decode (String.utf8EncodeChar c).dropLast = some [] ∨
      decode (String.utf8EncodeChar c).dropLast = none := by
  rcases List.eq_nil_or_concat (String.utf8EncodeChar c) with hnil | ⟨u, b, hbytes⟩
  · left
    rw [hnil]
    rfl
  · rw [List.concat_eq_append] at hbytes
    rw [hbytes, List.dropLast_concat]
    cases u with
    | nil =>
        left
        rfl
    | cons a u =>
        right
        exact decode_inside (List.cons_ne_nil a u) (List.cons_ne_nil b []) hbytes.symm

/-!
## First bytes
-/

/-- The number of bytes of the character that starts with `b`; 0 for the others. -/
def lead (b : UInt8) : Nat :=
  if b.toNat < 0x80 then 1
  else if b.toNat < 0xC0 then 0
  else if b.toNat < 0xE0 then 2
  else if b.toNat < 0xF0 then 3
  else 4

theorem lead_ofNat {n : Nat} (h : n < 256) :
    lead (UInt8.ofNat n) =
      if n < 0x80 then 1 else if n < 0xC0 then 0 else if n < 0xE0 then 2
      else if n < 0xF0 then 3 else 4 := by
  unfold lead
  rw [toNat_byte h]

theorem lead_continuation (n : Nat) : lead (UInt8.ofNat (n % 64 + 128)) = 0 := by
  rw [lead_ofNat (by omega), if_neg (by omega), if_pos (by omega)]

/-- The first byte of a character tells its length, the other bytes do not. -/
theorem utf8EncodeChar_lead (c : Char) :
    exists b rest, String.utf8EncodeChar c = b :: rest ∧
      lead b = (b :: rest).length ∧ forall x, x ∈ rest -> lead x = 0 := by
  have hlt : c.val.toNat < 0x110000 := by
    have hvalid : c.val.toNat < 0xD800 ∨
        (0xDFFF < c.val.toNat ∧ c.val.toNat < 0x110000) := c.valid
    omega
  unfold String.utf8EncodeChar
  generalize c.val.toNat = v at hlt ⊢
  dsimp only
  split
  · refine ⟨_, _, rfl, ?_, by simp⟩
    rw [lead_ofNat (by omega)]
    split_ifs <;> first | rfl | omega
  · split
    · refine ⟨_, _, rfl, ?_, ?_⟩
      · rw [lead_ofNat (by omega)]
        split_ifs <;> first | rfl | omega
      · simp only [List.mem_singleton]
        rintro x rfl
        exact lead_continuation _
    · split
      · refine ⟨_, _, rfl, ?_, ?_⟩
        · rw [lead_ofNat (by omega)]
          split_ifs <;> first | rfl | omega
        · simp only [List.mem_cons, List.not_mem_nil, or_false]
          rintro x (rfl | rfl)
          · exact lead_continuation _
          · exact lead_continuation _
      · refine ⟨_, _, rfl, ?_, ?_⟩
        · rw [lead_ofNat (by omega)]
          split_ifs <;> first | rfl | omega
        · simp only [List.mem_cons, List.not_mem_nil, or_false]
          rintro x (rfl | rfl | rfl)
          · exact lead_continuation _
          · exact lead_continuation _
          · exact lead_continuation _

end Utf8
end VoiceTts
