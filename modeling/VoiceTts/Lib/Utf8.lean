import Mathlib.Data.List.Basic
import Mathlib.Tactic.Common

/-!
# UTF-8 strings

Byte strings and strings of 32-bit code units, with the conversions between
them.  The decoder accepts exactly the well-formed UTF-8 sequences: no overlong
forms, no surrogates, nothing above `0x10FFFF`.
-/

namespace VoiceTts
namespace Utf8

def Tail (b : UInt8) : Bool :=
  decide (0x80 ≤ b.toNat ∧ b.toNat ≤ 0xBF)

/-- The bounds of the second byte after the first byte `b`. -/
def secondOk (b b1 : UInt8) : Bool :=
  if b.toNat = 0xE0 then decide (0xA0 ≤ b1.toNat ∧ b1.toNat ≤ 0xBF)
  else if b.toNat = 0xED then decide (0x80 ≤ b1.toNat ∧ b1.toNat ≤ 0x9F)
  else if b.toNat = 0xF0 then decide (0x90 ≤ b1.toNat ∧ b1.toNat ≤ 0xBF)
  else if b.toNat = 0xF4 then decide (0x80 ≤ b1.toNat ∧ b1.toNat ≤ 0x8F)
  else Tail b1

def decode : List UInt8 -> Option (List UInt32)
  | [] => some []
  | b :: rest =>
      if b.toNat < 0x80 then
        (decode rest).map (UInt32.ofNat b.toNat :: ·)
      else if b.toNat < 0xC2 then none
      else if b.toNat < 0xE0 then
        match rest with
        | b1 :: rest =>
            if Tail b1 then
              (decode rest).map
                (UInt32.ofNat ((b.toNat - 0xC0) * 64 + (b1.toNat - 0x80)) :: ·)
            else none
        | [] => none
      else if b.toNat < 0xF0 then
        match rest with
        | b1 :: b2 :: rest =>
            if secondOk b b1 && Tail b2 then
              (decode rest).map
                (UInt32.ofNat ((b.toNat - 0xE0) * 4096 +
                  (b1.toNat - 0x80) * 64 + (b2.toNat - 0x80)) :: ·)
            else none
        | _ => none
      else if b.toNat < 0xF5 then
        match rest with
        | b1 :: b2 :: b3 :: rest =>
            if secondOk b b1 && Tail b2 && Tail b3 then
              (decode rest).map
                (UInt32.ofNat ((b.toNat - 0xF0) * 262144 +
                  (b1.toNat - 0x80) * 4096 + (b2.toNat - 0x80) * 64 +
                  (b3.toNat - 0x80)) :: ·)
            else none
        | _ => none
      else none

section Decode

variable {b b1 b2 b3 : UInt8} (rest : List UInt8)

theorem decode_one (h : b.toNat < 0x80) :
    decode (b :: rest) = (decode rest).map (UInt32.ofNat b.toNat :: ·) := by
  rw [decode.eq_def]
  exact if_pos h

theorem decode_two (hlow : 0xC2 ≤ b.toNat) (hhigh : b.toNat < 0xE0)
    (htail : Tail b1 = true) :
    decode (b :: b1 :: rest) =
      (decode rest).map
        (UInt32.ofNat ((b.toNat - 0xC0) * 64 + (b1.toNat - 0x80)) :: ·) := by
  rw [decode.eq_def]
  dsimp only
  rw [if_neg (by omega), if_neg (by omega), if_pos hhigh, if_pos htail]

theorem decode_three (hlow : 0xE0 ≤ b.toNat) (hhigh : b.toNat < 0xF0)
    (htail : (secondOk b b1 && Tail b2) = true) :
    decode (b :: b1 :: b2 :: rest) =
      (decode rest).map
        (UInt32.ofNat ((b.toNat - 0xE0) * 4096 + (b1.toNat - 0x80) * 64 +
          (b2.toNat - 0x80)) :: ·) := by
  rw [decode.eq_def]
  dsimp only
  rw [if_neg (by omega), if_neg (by omega), if_neg (by omega), if_pos hhigh, if_pos htail]

theorem decode_three_none (hlow : 0xE0 ≤ b.toNat) (hhigh : b.toNat < 0xF0)
    (htail : (secondOk b b1 && Tail b2) = false) : decode (b :: b1 :: b2 :: rest) = none := by
  rw [decode.eq_def]
  dsimp only
  rw [if_neg (by omega), if_neg (by omega), if_neg (by omega), if_pos hhigh,
    if_neg (by simp [htail])]

theorem decode_four (hlow : 0xF0 ≤ b.toNat) (hhigh : b.toNat < 0xF5)
    (htail : (secondOk b b1 && Tail b2 && Tail b3) = true) :
    decode (b :: b1 :: b2 :: b3 :: rest) =
      (decode rest).map
        (UInt32.ofNat ((b.toNat - 0xF0) * 262144 + (b1.toNat - 0x80) * 4096 +
          (b2.toNat - 0x80) * 64 + (b3.toNat - 0x80)) :: ·) := by
  rw [decode.eq_def]
  dsimp only
  rw [if_neg (by omega), if_neg (by omega), if_neg (by omega), if_neg (by omega),
    if_pos hhigh, if_pos htail]

theorem toNat_byte {n : Nat} (h : n < 256) : (UInt8.ofNat n).toNat = n :=
  UInt8.toNat_ofNat_of_lt h

theorem tail_continuation (n : Nat) : Tail (UInt8.ofNat (n % 64 + 128)) = true := by
  unfold Tail
  rw [toNat_byte (by omega), decide_eq_true_eq]
  omega

end Decode

def encodeChars (cs : List Char) : List UInt8 :=
  cs.flatMap String.utf8EncodeChar

/-- The code units of a text; a unit that is no scalar value cannot be encoded. -/
def encode : List UInt32 -> Option (List UInt8)
  | [] => some []
  | c :: rest =>
      if h : c.isValidChar then
        (encode rest).map (String.utf8EncodeChar ⟨c, h⟩ ++ ·)
      else none

def units (cs : List Char) : List UInt32 :=
  cs.map Char.val

@[simp] theorem encodeChars_nil : encodeChars [] = [] := rfl

@[simp] theorem encodeChars_cons (c : Char) (cs : List Char) :
    encodeChars (c :: cs) = String.utf8EncodeChar c ++ encodeChars cs := by
  simp [encodeChars]

@[simp] theorem encodeChars_append (cs ds : List Char) :
    encodeChars (cs ++ ds) = encodeChars cs ++ encodeChars ds := by
  simp [encodeChars]

@[simp] theorem units_nil : units [] = [] := rfl

@[simp] theorem units_cons (c : Char) (cs : List Char) :
    units (c :: cs) = c.val :: units cs := rfl

@[simp] theorem units_append (cs ds : List Char) :
    units (cs ++ ds) = units cs ++ units ds := by
  simp [units]

theorem units_injective {cs ds : List Char} : units cs = units ds ↔ cs = ds := by
  have hval : Function.Injective Char.val := fun _ _ => Char.ext
  exact (List.map_injective_iff.mpr hval).eq_iff

theorem encode_units (cs : List Char) :
    encode (units cs) = some (encodeChars cs) := by
  induction cs with
  | nil => rfl
  | cons c cs ih =>
      have hvalid : c.val.isValidChar := c.valid
      simp only [units_cons, encode, hvalid, dif_pos, ih, Option.map_some,
        encodeChars_cons]

theorem encode_eq_some {w : List UInt32} {u : List UInt8} (h : encode w = some u) :
    exists cs, w = units cs ∧ u = encodeChars cs := by
  induction w generalizing u with
  | nil =>
      cases h
      exact ⟨[], rfl, rfl⟩
  | cons c w ih =>
      by_cases hc : c.isValidChar
      · simp only [encode, hc, dif_pos, Option.map_eq_some_iff] at h
        rcases h with ⟨v, hv, rfl⟩
        rcases ih hv with ⟨cs, rfl, rfl⟩
        exact ⟨⟨c, hc⟩ :: cs, rfl, by simp⟩
      · simp [encode, hc] at h

theorem decode_utf8EncodeChar (c : Char) (rest : List UInt8) :
    decode (String.utf8EncodeChar c ++ rest) =
      (decode rest).map (c.val :: ·) := by
  have hval : UInt32.ofNat c.val.toNat = c.val := UInt32.ofNat_toNat
  have hvalid : c.val.toNat < 0xD800 ∨
      (0xDFFF < c.val.toNat ∧ c.val.toNat < 0x110000) := c.valid
  generalize hv : c.val.toNat = v at hval hvalid
  unfold String.utf8EncodeChar
  simp only [hv]
  split
  · have hb : (UInt8.ofNat v).toNat = v := toNat_byte (by omega)
    rw [List.cons_append, List.nil_append, decode_one _ (by omega), hb, hval]
  · split
    · have hb : (UInt8.ofNat (v / 64 % 32 + 192)).toNat = v / 64 + 192 := by
        rw [toNat_byte (by omega)]
        omega
      have hb1 : (UInt8.ofNat (v % 64 + 128)).toNat = v % 64 + 128 := toNat_byte (by omega)
      have hsum : (v / 64 + 192 - 0xC0) * 64 + (v % 64 + 128 - 0x80) = v := by
        omega
      change decode (_ :: _ :: rest) = _
      rw [decode_two _ (by omega) (by omega) (tail_continuation v), hb, hb1, hsum, hval]
    · split
      · have hb : (UInt8.ofNat (v / 4096 % 16 + 224)).toNat = v / 4096 + 224 := by
          rw [toNat_byte (by omega)]
          omega
        have hb1 : (UInt8.ofNat (v / 64 % 64 + 128)).toNat = v / 64 % 64 + 128 :=
          toNat_byte (by omega)
        have hb2 : (UInt8.ofNat (v % 64 + 128)).toNat = v % 64 + 128 := toNat_byte (by omega)
        have hsecond : secondOk (UInt8.ofNat (v / 4096 % 16 + 224))
            (UInt8.ofNat (v / 64 % 64 + 128)) = true := by
          simp only [secondOk, Tail, hb, hb1]
          split_ifs <;> simp only [decide_eq_true_eq] <;> omega
        have hsum : (v / 4096 + 224 - 0xE0) * 4096 +
            (v / 64 % 64 + 128 - 0x80) * 64 + (v % 64 + 128 - 0x80) = v := by
          omega
        have htail := Bool.and_eq_true_iff.mpr ⟨hsecond, tail_continuation v⟩
        change decode (_ :: _ :: _ :: rest) = _
        rw [decode_three _ (by omega) (by omega) htail, hb, hb1, hb2, hsum, hval]
      · have hb : (UInt8.ofNat (v / 262144 % 8 + 240)).toNat = v / 262144 + 240 := by
          rw [toNat_byte (by omega)]
          omega
        have hb1 : (UInt8.ofNat (v / 4096 % 64 + 128)).toNat = v / 4096 % 64 + 128 :=
          toNat_byte (by omega)
        have hb2 : (UInt8.ofNat (v / 64 % 64 + 128)).toNat = v / 64 % 64 + 128 :=
          toNat_byte (by omega)
        have hb3 : (UInt8.ofNat (v % 64 + 128)).toNat = v % 64 + 128 := toNat_byte (by omega)
        have hsecond : secondOk (UInt8.ofNat (v / 262144 % 8 + 240))
            (UInt8.ofNat (v / 4096 % 64 + 128)) = true := by
          simp only [secondOk, Tail, hb, hb1]
          split_ifs <;> simp only [decide_eq_true_eq] <;> omega
        have hsum : (v / 262144 + 240 - 0xF0) * 262144 +
            (v / 4096 % 64 + 128 - 0x80) * 4096 +
            (v / 64 % 64 + 128 - 0x80) * 64 + (v % 64 + 128 - 0x80) = v := by
          omega
        have htail := Bool.and_eq_true_iff.mpr ⟨Bool.and_eq_true_iff.mpr
          ⟨hsecond, tail_continuation (v / 64)⟩, tail_continuation v⟩
        change decode (_ :: _ :: _ :: _ :: rest) = _
        rw [decode_four _ (by omega) (by omega) htail, hb, hb1, hb2, hb3, hsum, hval]

theorem decode_encodeChars_append (cs : List Char) (rest : List UInt8) :
    decode (encodeChars cs ++ rest) = (decode rest).map (units cs ++ ·) := by
  induction cs with
  | nil =>
      simp
  | cons c cs ih =>
      rw [encodeChars_cons, List.append_assoc, decode_utf8EncodeChar, ih,
        Option.map_map]
      rfl

theorem decode_encodeChars (cs : List Char) :
    decode (encodeChars cs) = some (units cs) := by
  have h := decode_encodeChars_append cs []
  simpa [decode] using h

theorem byte_eq {b : UInt8} {n : Nat} (h : n = b.toNat) : UInt8.ofNat n = b := by
  rw [h, UInt8.ofNat_toNat]

theorem secondOk_tail {b b1 : UInt8} (h : secondOk b b1 = true) :
    0x80 ≤ b1.toNat ∧ b1.toNat ≤ 0xBF ∧ (b.toNat = 0xE0 -> 0xA0 ≤ b1.toNat) ∧
      (b.toNat = 0xED -> b1.toNat ≤ 0x9F) ∧ (b.toNat = 0xF0 -> 0x90 ≤ b1.toNat) ∧
      (b.toNat = 0xF4 -> b1.toNat ≤ 0x8F) := by
  unfold secondOk Tail at h
  split_ifs at h <;> rw [decide_eq_true_eq] at h <;> omega

theorem exists_char {v : Nat} (h : v < 0xD800 ∨ (0xDFFF < v ∧ v < 0x110000)) :
    exists c : Char, c.val.toNat = v := by
  have hsize : v < UInt32.size := by
    rcases h with h | h
    · exact Nat.lt_trans h (by decide)
    · exact Nat.lt_trans h.2 (by decide)
  have hval : (UInt32.ofNat v).toNat = v := UInt32.toNat_ofNat_of_lt hsize
  have hvalid : (UInt32.ofNat v).isValidChar := by
    rw [UInt32.isValidChar, Nat.isValidChar, hval]
    exact h
  exact ⟨⟨UInt32.ofNat v, hvalid⟩, hval⟩

theorem decode_eq_some {u : List UInt8} {w : List UInt32} (h : decode u = some w) :
    exists cs, u = encodeChars cs := by
  fun_induction decode u generalizing w with
  | case1 =>
      exact ⟨[], rfl⟩
  | case2 b rest hone ih =>
      rcases Option.map_eq_some_iff.mp h with ⟨w', hrest, -⟩
      rcases ih hrest with ⟨cs, rfl⟩
      rcases exists_char (v := b.toNat) (by omega) with ⟨c, hc⟩
      refine ⟨c :: cs, ?_⟩
      rw [encodeChars_cons]
      unfold String.utf8EncodeChar
      simp only [hc]
      rw [if_pos (by omega), byte_eq rfl]
      rfl
  | case4 b hone htwo hthree b1 rest htail ih =>
      rcases Option.map_eq_some_iff.mp h with ⟨w', hrest, -⟩
      rcases ih hrest with ⟨cs, rfl⟩
      rw [Tail, decide_eq_true_eq] at htail
      rcases exists_char (v := (b.toNat - 0xC0) * 64 + (b1.toNat - 0x80)) (by omega) with
        ⟨c, hc⟩
      refine ⟨c :: cs, ?_⟩
      rw [encodeChars_cons]
      unfold String.utf8EncodeChar
      simp only [hc]
      rw [if_neg (by omega), if_pos (by omega), byte_eq (b := b) (by omega),
        byte_eq (b := b1) (by omega)]
      rfl
  | case7 b hone htwo hthree hfour b1 b2 rest htail ih =>
      rcases Option.map_eq_some_iff.mp h with ⟨w', hrest, -⟩
      rcases ih hrest with ⟨cs, rfl⟩
      rw [Bool.and_eq_true, Tail, decide_eq_true_eq] at htail
      have hsecond := secondOk_tail htail.1
      rcases exists_char (v := (b.toNat - 0xE0) * 4096 + (b1.toNat - 0x80) * 64 +
        (b2.toNat - 0x80)) (by omega) with ⟨c, hc⟩
      refine ⟨c :: cs, ?_⟩
      rw [encodeChars_cons]
      unfold String.utf8EncodeChar
      simp only [hc]
      rw [if_neg (by omega), if_neg (by omega), if_pos (by omega),
        byte_eq (b := b) (by omega), byte_eq (b := b1) (by omega),
        byte_eq (b := b2) (by omega)]
      rfl
  | case10 b hone htwo hthree hfour hfive b1 b2 b3 rest htail ih =>
      rcases Option.map_eq_some_iff.mp h with ⟨w', hrest, -⟩
      rcases ih hrest with ⟨cs, rfl⟩
      simp only [Bool.and_eq_true, Tail, decide_eq_true_eq] at htail
      have hsecond := secondOk_tail htail.1.1
      rcases exists_char (v := (b.toNat - 0xF0) * 262144 + (b1.toNat - 0x80) * 4096 +
        (b2.toNat - 0x80) * 64 + (b3.toNat - 0x80)) (by omega) with ⟨c, hc⟩
      refine ⟨c :: cs, ?_⟩
      rw [encodeChars_cons]
      unfold String.utf8EncodeChar
      simp only [hc]
      rw [if_neg (by omega), if_neg (by omega), if_neg (by omega),
        byte_eq (b := b) (by omega), byte_eq (b := b1) (by omega),
        byte_eq (b := b2) (by omega), byte_eq (b := b3) (by omega)]
      rfl
  | _ => cases h

theorem encodeChars_injective {cs ds : List Char}
    (h : encodeChars cs = encodeChars ds) : cs = ds := by
  have hdecode := congrArg decode h
  rw [decode_encodeChars, decode_encodeChars, Option.some.injEq] at hdecode
  exact units_injective.mp hdecode

/-- A byte below `0x80` only occurs as a character of its own. -/
theorem val_of_mem_utf8EncodeChar {c : Char} {b : UInt8}
    (h : b ∈ String.utf8EncodeChar c) (hb : b.toNat < 0x80) :
    c.val.toNat = b.toNat := by
  unfold String.utf8EncodeChar at h
  generalize c.val.toNat = v at h ⊢
  dsimp only at h
  split at h
  · rw [List.mem_singleton] at h
    rw [h, UInt8.toNat_ofNat']
    omega
  · exfalso
    have hlarge : exists n, 128 ≤ n ∧ n < 256 ∧ b = UInt8.ofNat n := by
      split at h
      · simp only [List.mem_cons, List.not_mem_nil, or_false] at h
        rcases h with h | h
        · exact ⟨_, by omega, by omega, h⟩
        · exact ⟨_, by omega, by omega, h⟩
      · split at h
        · simp only [List.mem_cons, List.not_mem_nil, or_false] at h
          rcases h with h | h | h
          · exact ⟨_, by omega, by omega, h⟩
          · exact ⟨_, by omega, by omega, h⟩
          · exact ⟨_, by omega, by omega, h⟩
        · simp only [List.mem_cons, List.not_mem_nil, or_false] at h
          rcases h with h | h | h | h
          · exact ⟨_, by omega, by omega, h⟩
          · exact ⟨_, by omega, by omega, h⟩
          · exact ⟨_, by omega, by omega, h⟩
          · exact ⟨_, by omega, by omega, h⟩
    rcases hlarge with ⟨n, hlow, hhigh, rfl⟩
    rw [UInt8.toNat_ofNat'] at hb
    omega

/-!
## Plain ASCII text
-/

def narrow (w : List UInt32) : List UInt8 :=
  w.map UInt32.toUInt8

def Ascii (w : List UInt32) : Prop :=
  forall c, c ∈ w -> c.toNat < 0x80

@[simp] theorem narrow_nil : narrow [] = [] := rfl

@[simp] theorem narrow_append (w v : List UInt32) :
    narrow (w ++ v) = narrow w ++ narrow v := by
  simp [narrow]

@[simp] theorem narrow_eq_nil {w : List UInt32} : narrow w = [] ↔ w = [] := by
  simp [narrow]

@[simp] theorem length_narrow (w : List UInt32) :
    (narrow w).length = w.length := by
  simp [narrow]

theorem encode_ascii {w : List UInt32} (h : Ascii w) :
    encode w = some (narrow w) := by
  induction w with
  | nil => rfl
  | cons c w ih =>
      have hc : c.toNat < 0x80 := h c (by simp)
      have hvalid : c.isValidChar := Or.inl (by omega)
      have hle : (⟨c, hvalid⟩ : Char).val.toNat ≤ 0x7f := by
        change c.toNat ≤ 0x7f
        omega
      have hchar : String.utf8EncodeChar ⟨c, hvalid⟩ = [c.toUInt8] := by
        unfold String.utf8EncodeChar
        simp only [hle, if_true]
        rfl
      have hrest := ih fun d hd => h d (List.mem_cons_of_mem c hd)
      simp only [encode, hvalid, dif_pos, hrest, Option.map_some, hchar]
      rfl

end Utf8
end VoiceTts
