import Mathlib.Data.List.TakeWhile
import Mathlib.Data.Nat.Digits.Lemmas
import VoiceTts.Lib.Utf8

/-!
# Strings and errors of the front end

The front end keeps text in `std::string`, a byte string in UTF-8, and in
`std::wstring`, a string of 32-bit code units.  This module fixes both, the
ways in which a call can fail, and the small string functions that the rest of
the front end is written with.
-/

namespace VoiceTts

abbrev CString : Type :=
  List UInt8

abbrev WString : Type :=
  List UInt32

/-!
Bytes and code units are finite types.  A quantifier over the elements of a list
of them is decided by going through the list, not through the type.
-/

instance (priority := 2000) decidableForallMem {α : Type} (p : α -> Prop)
    [DecidablePred p] (l : List α) : Decidable (forall a, a ∈ l -> p a) :=
  List.decidableBAll p l

instance (priority := 2000) decidableExistsHead {α : Type} (p : α -> Prop)
    [DecidablePred p] (o : Option α) : Decidable (exists a, o = some a ∧ p a) :=
  Option.decidableExistsMem o

instance (priority := 2000) decidableForallHead {α : Type} (p : α -> Prop)
    [DecidablePred p] (o : Option α) : Decidable (forall a, o = some a -> p a) :=
  Option.decidableForallMem o

/-!
Membership in a table of strings is decided by equality of strings, which has an
instance of its own for each of the three kinds of string.
-/

instance lawfulBEqCString : LawfulBEq CString :=
  inferInstance

instance lawfulBEqWString : LawfulBEq WString :=
  inferInstance

instance lawfulBEqChars : LawfulBEq (List Char) :=
  inferInstance

def str (s : String) : CString :=
  Utf8.encodeChars s.toList

def wstr (s : String) : WString :=
  Utf8.units s.toList

/-- The containers of the front end that are indexed without a check. -/
inductive Container where
  | seg_result
  | result_temp
  | result
  | merge_last
  | finals_rows
  | final
  | phone_vec
  | phone_token
  | wordcut
  | word_vec
  | word_list
  | wordvec
  | finals
  | finals_list
  | initials
  | pos
  | word_one
  deriving DecidableEq

/--
How a call can fail: with an exception of the standard library, with a failed
assertion, or by an access outside a container, which C++ leaves undefined.
-/
inductive Error where
  | invalid_argument
  | out_of_range
  | range_error
  | assertion
  | access (c : Container)
  deriving DecidableEq

/-!
## Conversions between narrow and wide strings
-/

def wstring2utf8string (w : WString) : Except Error CString :=
  match Utf8.encode w with
  | some s => Except.ok s
  | none => Except.error Error.range_error

def utf8string2wstring (s : CString) : Except Error WString :=
  match Utf8.decode s with
  | some w => Except.ok w
  | none => Except.error Error.range_error

/-!
## Splitting, reading and printing numbers
-/

/-- The loop of `Stringsplit`: `cur` is the part in front of the next separator. -/
def splitParts (split : UInt8) : CString -> CString -> List CString
  | _, [] => []
  | cur, c :: strs =>
      if c = split then cur :: splitParts split [] strs
      else splitParts split (cur ++ [c]) strs

/-- The parts that `Stringsplit` appends to its result. -/
def Stringsplit (s : CString) (split : UInt8) : List CString :=
  if s = [] then [] else splitParts split [] (s ++ [split])

def isspace (c : UInt8) : Bool :=
  decide (c = 32 ∨ (9 ≤ c.toNat ∧ c.toNat ≤ 13))

def isdigit (c : UInt8) : Bool :=
  decide (48 ≤ c.toNat ∧ c.toNat ≤ 57)

/-- The number that a string of digits denotes. -/
def digitsValue (s : CString) : Nat :=
  Nat.ofDigits 10 (s.reverse.map fun c => c.toNat - 48)

/-- The digits `strtol` converts, and whether a minus sign stands before them. -/
def strtolDigits (s : CString) : Bool × CString :=
  let t := s.dropWhile isspace
  match t with
  | 45 :: u => (true, u.takeWhile isdigit)
  | 43 :: u => (false, u.takeWhile isdigit)
  | u => (false, u.takeWhile isdigit)

def strtolValue (s : CString) : Int :=
  let v : Int := digitsValue (strtolDigits s).2
  if (strtolDigits s).1 then -v else v

def stoi (s : CString) : Except Error Int :=
  if (strtolDigits s).2 = [] then Except.error Error.invalid_argument
  else if -2147483648 ≤ strtolValue s ∧ strtolValue s ≤ 2147483647 then
    Except.ok (strtolValue s)
  else Except.error Error.out_of_range

/--
`atoi` gives 0 where `strtol` converts nothing.  A number that no `int` can hold is kept
here, where the behaviour of the C function is undefined.
-/
def atoi (s : CString) : Int :=
  strtolValue s

def natDigits (n : Nat) : CString :=
  if n = 0 then [48]
  else (Nat.digits 10 n).reverse.map fun d => UInt8.ofNat (48 + d)

def to_string (n : Int) : CString :=
  if n < 0 then 45 :: natDigits n.natAbs else natDigits n.natAbs

/-!
## Facts about literals and conversions
-/

/-- Literals are compared as texts; the bytes of a table need not be computed. -/
theorem str_injective : Function.Injective str := by
  intro s t h
  exact String.toList_injective (Utf8.encodeChars_injective h)

theorem length_str (s : String) : (str s).length = s.utf8ByteSize := by
  have hbytes : s.toList.utf8Encode.size = s.toByteArray.size := by
    rw [String.utf8Encode_toList]
  rw [List.utf8Encode, List.size_toByteArray] at hbytes
  exact hbytes

theorem wstring2utf8string_units (cs : List Char) :
    wstring2utf8string (Utf8.units cs) = Except.ok (Utf8.encodeChars cs) := by
  simp [wstring2utf8string, Utf8.encode_units]

theorem utf8string2wstring_encodeChars (cs : List Char) :
    utf8string2wstring (Utf8.encodeChars cs) = Except.ok (Utf8.units cs) := by
  simp [utf8string2wstring, Utf8.decode_encodeChars]

theorem wstring2utf8string_ascii {w : WString} (h : Utf8.Ascii w) :
    wstring2utf8string w = Except.ok (Utf8.narrow w) := by
  simp [wstring2utf8string, Utf8.encode_ascii h]

theorem mem_splitParts {split c : UInt8} (hne : c ≠ split) {cur s : CString}
    (h : c ∈ cur ∨ c ∈ s) :
    exists part, part ∈ splitParts split cur (s ++ [split]) ∧ c ∈ part := by
  induction s generalizing cur with
  | nil =>
      rcases h with h | h
      · exact ⟨cur, by simp [splitParts], h⟩
      · cases h
  | cons d s ih =>
      rw [List.cons_append, splitParts]
      split
      · rename_i hd
        rcases h with h | h
        · exact ⟨cur, by simp, h⟩
        · rcases List.mem_cons.mp h with rfl | h
          · exact absurd hd hne
          · rcases ih (Or.inr h) with ⟨part, hpart, hc⟩
            exact ⟨part, List.mem_cons_of_mem _ hpart, hc⟩
      · refine ih ?_
        rcases h with h | h
        · exact Or.inl (by simp [h])
        · rcases List.mem_cons.mp h with rfl | h
          · exact Or.inl (by simp)
          · exact Or.inr h

theorem mem_Stringsplit {split c : UInt8} {s : CString} (h : c ∈ s)
    (hne : c ≠ split) : exists part, part ∈ Stringsplit s split ∧ c ∈ part := by
  have hs : s ≠ [] := List.ne_nil_of_mem h
  rw [Stringsplit, if_neg hs]
  exact mem_splitParts hne (Or.inr h)

/-!
## Splitting and joining
-/

theorem splitParts_eq_splitOn (split : UInt8) (cur s : CString) :
    splitParts split cur (s ++ [split]) =
      List.splitOnPPrepend (· == split) s cur.reverse := by
  induction s generalizing cur with
  | nil =>
      simp [splitParts]
  | cons c s ih =>
      rw [List.cons_append, splitParts, List.splitOnPPrepend_cons_eq_if]
      by_cases hc : c = split
      · simp [hc, ih]
      · simp [hc, ih]

theorem Stringsplit_eq_splitOn {s : CString} (h : s ≠ []) (split : UInt8) :
    Stringsplit s split = s.splitOn split := by
  rw [Stringsplit, if_neg h, splitParts_eq_splitOn, List.splitOn_eq_splitOnP]
  rfl

/-- Only the empty part alone is lost when parts are joined and split again. -/
theorem Stringsplit_intercalate {split : UInt8} {parts : List CString}
    (hne : parts ≠ [[]]) (h : forall part, part ∈ parts -> split ∉ part) :
    Stringsplit (List.intercalate [split] parts) split = parts := by
  cases parts with
  | nil =>
      rfl
  | cons part rest =>
      have hsplit := List.splitOn_intercalate split h (by simp)
      rw [Stringsplit_eq_splitOn _ split, hsplit]
      intro hnil
      rw [hnil, List.splitOn_nil] at hsplit
      exact hne hsplit.symm

theorem notMem_of_mem_splitParts {split : UInt8} {cur s part : CString}
    (hcur : split ∉ cur) (h : part ∈ splitParts split cur s) : split ∉ part := by
  induction s generalizing cur with
  | nil =>
      simp [splitParts] at h
  | cons c s ih =>
      rw [splitParts] at h
      split at h
      · rcases List.mem_cons.mp h with rfl | h
        · exact hcur
        · exact ih (by simp) h
      · rename_i hc
        refine ih ?_ h
        intro hmem
        rcases List.mem_append.mp hmem with hmem | hmem
        · exact hcur hmem
        · exact hc (List.mem_singleton.mp hmem).symm

theorem notMem_of_mem_Stringsplit {split : UInt8} {s part : CString}
    (h : part ∈ Stringsplit s split) : split ∉ part := by
  rw [Stringsplit] at h
  split at h
  · simp at h
  · exact notMem_of_mem_splitParts (by simp) h

/-!
## Strings of digits
-/

def AllDigits (s : CString) : Prop :=
  forall c, c ∈ s -> isdigit c = true

theorem allDigits_append {s t : CString} :
    AllDigits (s ++ t) ↔ AllDigits s ∧ AllDigits t := by
  unfold AllDigits
  simp only [List.mem_append]
  constructor
  · intro h
    exact ⟨fun c hc => h c (Or.inl hc), fun c hc => h c (Or.inr hc)⟩
  · rintro ⟨hs, ht⟩ c (hc | hc)
    · exact hs c hc
    · exact ht c hc

theorem AllDigits.take {s : CString} (h : AllDigits s) (n : Nat) :
    AllDigits (s.take n) :=
  fun c hc => h c (List.mem_of_mem_take hc)

theorem AllDigits.drop {s : CString} (h : AllDigits s) (n : Nat) :
    AllDigits (s.drop n) :=
  fun c hc => h c (List.mem_of_mem_drop hc)

theorem isdigit_iff {c : UInt8} :
    isdigit c = true ↔ 48 ≤ c.toNat ∧ c.toNat ≤ 57 := by
  simp [isdigit]

theorem digitsValue_append (s t : CString) :
    digitsValue (s ++ t) = digitsValue s * 10 ^ t.length + digitsValue t := by
  simp only [digitsValue, List.reverse_append, List.map_append,
    Nat.ofDigits_append, List.length_map, List.length_reverse]
  ring

theorem digitsValue_lt {s : CString} (h : AllDigits s) :
    digitsValue s < 10 ^ s.length := by
  have hlt := Nat.ofDigits_lt_base_pow_length (b := 10)
    (l := s.reverse.map fun c => c.toNat - 48) (by omega) (by
      intro d hd
      rcases List.mem_map.mp hd with ⟨c, hc, rfl⟩
      have := isdigit_iff.mp (h c (List.mem_reverse.mp hc))
      omega)
  simpa [digitsValue] using hlt

theorem digitsValue_take_le (s : CString) (n : Nat) :
    digitsValue (s.take n) ≤ digitsValue s := by
  have happ := digitsValue_append (s.take n) (s.drop n)
  rw [List.take_append_drop] at happ
  have hpow : 0 < 10 ^ (s.drop n).length := by positivity
  nlinarith

theorem digitsValue_drop_le (s : CString) (n : Nat) :
    digitsValue (s.drop n) ≤ digitsValue s := by
  have happ := digitsValue_append (s.take n) (s.drop n)
  rw [List.take_append_drop] at happ
  omega

theorem length_natDigits_le {n k : Nat} (hk : 0 < k) (h : n < 10 ^ k) :
    (natDigits n).length ≤ k := by
  unfold natDigits
  split
  · exact hk
  · simpa using (Nat.digits_length_le_iff (by omega) n).mpr h

theorem length_natDigits_pos (n : Nat) : 0 < (natDigits n).length := by
  unfold natDigits
  split
  · simp
  · rename_i hn
    simpa [List.length_pos_iff] using Nat.digits_ne_nil_iff_ne_zero.mpr hn

theorem natDigits_of_length_eq_one {n : Nat} (h : (natDigits n).length = 1) :
    n < 10 ∧ natDigits n = [UInt8.ofNat (48 + n)] := by
  unfold natDigits at h ⊢
  split at h
  · rename_i hn
    subst hn
    exact ⟨by omega, rfl⟩
  · rename_i hn
    have hlt : n < 10 := by
      have := (Nat.digits_length_le_iff (b := 10) (k := 1) (by omega) n).mp
        (by simpa using h.le)
      omega
    simp [hn, hlt]

theorem stoi_digits {s : CString} (h : AllDigits s) (hne : s ≠ []) :
    stoi s =
      if digitsValue s ≤ 2147483647 then Except.ok (digitsValue s : Int)
      else Except.error Error.out_of_range := by
  have hdigits : strtolDigits s = (false, s) := by
    cases s with
    | nil =>
        exact absurd rfl hne
    | cons c t =>
        have hc := isdigit_iff.mp (h c (by simp))
        have hspace : isspace c = false := by
          simp only [isspace, decide_eq_false_iff_not, not_or, not_and]
          refine ⟨?_, by omega⟩
          rintro rfl
          exact absurd hc.1 (by decide)
        have htake : (c :: t).takeWhile isdigit = c :: t := by
          exact List.takeWhile_eq_self_iff.mpr h
        have hminus : c ≠ 45 := by
          rintro rfl
          exact absurd hc.1 (by decide)
        have hplus : c ≠ 43 := by
          rintro rfl
          exact absurd hc.1 (by decide)
        unfold strtolDigits
        rw [List.dropWhile_cons_of_neg (by simp [hspace])]
        dsimp only
        split
        · rename_i heq
          cases heq
          exact absurd rfl hminus
        · rename_i heq
          cases heq
          exact absurd rfl hplus
        · rw [htake]
  have hvalue : strtolValue s = (digitsValue s : Int) := by
    simp [strtolValue, hdigits]
  unfold stoi
  rw [hdigits, hvalue]
  simp only [hne, if_false]
  split <;> split <;> first | rfl | omega

end VoiceTts
