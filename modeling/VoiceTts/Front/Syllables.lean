import VoiceTts.Front.Lookups

/-!
# Phone strings and the syllables in them

A phone string is a sequence of tokens with single blanks between them: the
syllables of a word, each with or without an initial, and pauses.  The loop of
`GetInitialsFinals` reads it with one token of lookahead, and a loop of
`GetWordsIds` writes it again.  This module fixes the grammar of the tokens and
compares both loops with it.
-/

namespace VoiceTts
namespace FrontEngineInterface

/-!
## Tokens
-/

def Pause (token : CString) : Prop :=
  token = str "sp" ∨ token = str "sp0"

/-- A token that ends in one of the digits 1 to 9. -/
def Toned (token : CString) : Prop :=
  exists c, token.getLast? = some c ∧ isdigit c = true ∧ c ≠ 48

/--
The tokens that the loop accepts, with the pairs of an initial and a final that
it reads from them.
-/
inductive Splits : List CString -> List (CString × CString) -> Prop where
  | nil : Splits [] []
  | pause {token phone_vec pairs} : Pause token -> Splits phone_vec pairs ->
      Splits (token :: phone_vec) pairs
  | initial {initial final phone_vec pairs} : initial ≠ [] -> ¬ Pause initial ->
      ¬ Toned initial -> Splits phone_vec pairs ->
      Splits (initial :: final :: phone_vec) ((initial, final) :: pairs)
  | final {final phone_vec pairs} : ¬ Pause final -> Toned final ->
      Splits phone_vec pairs -> Splits (final :: phone_vec) (([], final) :: pairs)

/-- The two lists that stand for a list of pairs. -/
def initialsAndFinals (pairs : List (CString × CString)) :
    List CString × List CString :=
  (pairs.map Prod.fst, pairs.map Prod.snd)

theorem toned_iff {token : CString} {c : UInt8} (h : token.getLast? = some c) :
    Toned token ↔ ¬ (isdigit c = false ∨ c = 48) := by
  unfold Toned
  constructor
  · rintro ⟨d, hd, hdigit, hne⟩
    rw [h, Option.some.injEq] at hd
    subst hd
    rw [not_or, Bool.not_eq_false]
    exact ⟨hdigit, hne⟩
  · intro hnot
    rw [not_or, Bool.not_eq_false] at hnot
    exact ⟨c, h, hnot⟩

instance (token : CString) : Decidable (Pause token) :=
  inferInstanceAs (Decidable (token = str "sp" ∨ token = str "sp0"))

instance (token : CString) : Decidable (Toned token) :=
  match h : token.getLast? with
  | some _ => decidable_of_iff _ (toned_iff h).symm
  | none => isFalse fun ⟨c, hc, _⟩ => by
      rw [h] at hc
      cases hc

theorem initialsFinals_of_splits {phone_vec : List CString}
    {pairs : List (CString × CString)} (h : Splits phone_vec pairs) :
    initialsFinals phone_vec = Except.ok (initialsAndFinals pairs) := by
  induction h with
  | nil =>
      rfl
  | pause hpause _ ih =>
      unfold Pause at hpause
      rw [initialsFinals.eq_def]
      simp only [if_pos hpause, ih]
  | @initial initial final phone_vec pairs hne hpause htoned _ ih =>
      rcases List.eq_nil_or_concat initial with rfl | ⟨pre, c, rfl⟩
      · exact absurd rfl hne
      · have hlast : (pre.concat c).getLast? = some c := by simp
        rw [toned_iff hlast, not_not] at htoned
        unfold Pause at hpause
        rw [initialsFinals.eq_def]
        simp only [if_neg hpause, hlast, if_pos htoned, ih]
        rfl
  | @final final phone_vec pairs hpause htoned _ ih =>
      rcases htoned with ⟨c, hlast, hdigit⟩
      have htoned : Toned final := ⟨c, hlast, hdigit⟩
      rw [toned_iff hlast] at htoned
      unfold Pause at hpause
      rw [initialsFinals.eq_def]
      simp only [if_neg hpause, hlast, if_neg htoned, ih]
      rfl

theorem splits_of_initialsFinals {phone_vec : List CString}
    {r : List CString × List CString}
    (h : initialsFinals phone_vec = Except.ok r) :
    exists pairs, Splits phone_vec pairs ∧ r = initialsAndFinals pairs := by
  fun_induction initialsFinals phone_vec generalizing r with
  | case1 =>
      cases h
      exact ⟨[], Splits.nil, rfl⟩
  | case2 token phone_vec hpause ih =>
      rcases ih h with ⟨pairs, hsplits, hr⟩
      exact ⟨pairs, Splits.pause hpause hsplits, hr⟩
  | case3 =>
      cases h
  | case4 =>
      cases h
  | case5 initial hpause c hlast hdigit final phone_vec ih =>
      rcases except_map_eq_ok.mp h with ⟨r', hr', rfl⟩
      rcases ih hr' with ⟨pairs, hsplits, rfl⟩
      refine ⟨(initial, final) :: pairs, ?_, rfl⟩
      have htoned : ¬ Toned initial := by
        rw [toned_iff hlast, not_not]
        exact hdigit
      refine Splits.initial ?_ hpause htoned hsplits
      rintro rfl
      cases hlast
  | case6 final phone_vec hpause c hlast hdigit ih =>
      rcases except_map_eq_ok.mp h with ⟨r', hr', rfl⟩
      rcases ih hr' with ⟨pairs, hsplits, rfl⟩
      exact ⟨([], final) :: pairs, Splits.final hpause ((toned_iff hlast).mpr hdigit)
        hsplits, rfl⟩

theorem Splits.append {phone_vec phone_vec' : List CString}
    {pairs pairs' : List (CString × CString)} (h : Splits phone_vec pairs)
    (h' : Splits phone_vec' pairs') :
    Splits (phone_vec ++ phone_vec') (pairs ++ pairs') := by
  induction h with
  | nil =>
      exact h'
  | pause hpause _ ih =>
      exact Splits.pause hpause ih
  | initial hne hpause htoned _ ih =>
      exact Splits.initial hne hpause htoned ih
  | final hpause htoned _ ih =>
      exact Splits.final hpause htoned ih

/-!
## Phone strings
-/

/-- A syllable; `initial` is empty where there is none. -/
structure Syllable where
  initial : CString
  final : CString
  initial_blank : 32 ∉ initial
  initial_pause : ¬ Pause initial
  initial_tone : ¬ Toned initial
  final_blank : 32 ∉ final
  final_tone : Toned final

/-- A syllable, or a pause between syllables. -/
inductive Item where
  | pause (zero : Bool)
  | syllable (s : Syllable)

def Syllable.tokens (s : Syllable) : List CString :=
  if s.initial = [] then [s.final] else [s.initial, s.final]

def Item.tokens : Item -> List CString
  | pause zero => [if zero then str "sp0" else str "sp"]
  | syllable s => s.tokens

/-- Tokens with single blanks between them. -/
def joinTokens (tokens : List CString) : CString :=
  List.intercalate (str " ") tokens

theorem joinTokens_eq (tokens : List CString) :
    joinTokens tokens = List.intercalate [32] tokens := rfl

def phoneString (items : List Item) : CString :=
  joinTokens (items.flatMap Item.tokens)

def syllables : List Item -> List Syllable
  | [] => []
  | Item.pause _ :: items => syllables items
  | Item.syllable s :: items => s :: syllables items

def Syllable.pair (s : Syllable) : CString × CString :=
  (s.initial, s.final)

theorem Syllable.final_pause (s : Syllable) : ¬ Pause s.final := by
  rintro (hpause | hpause)
  · rcases s.final_tone with ⟨c, hlast, hdigit, hne⟩
    rw [hpause] at hlast
    cases hlast
    exact absurd hdigit (by decide)
  · rcases s.final_tone with ⟨c, hlast, hdigit, hne⟩
    rw [hpause] at hlast
    cases hlast
    exact hne rfl

theorem Syllable.final_ne_nil (s : Syllable) : s.final ≠ [] := by
  intro hnil
  rcases s.final_tone with ⟨c, hlast, -⟩
  rw [hnil] at hlast
  cases hlast

theorem Syllable.splits (s : Syllable) : Splits s.tokens [s.pair] := by
  unfold Syllable.tokens Syllable.pair
  split
  · rename_i hinitial
    rw [hinitial]
    exact Splits.final s.final_pause s.final_tone Splits.nil
  · rename_i hinitial
    exact Splits.initial hinitial s.initial_pause s.initial_tone Splits.nil

theorem splits_items (items : List Item) :
    Splits (items.flatMap Item.tokens) ((syllables items).map Syllable.pair) := by
  induction items with
  | nil =>
      exact Splits.nil
  | cons item items ih =>
      rw [List.flatMap_cons]
      cases item with
      | pause zero =>
          refine Splits.pause ?_ ih
          cases zero with
          | true =>
              exact Or.inr rfl
          | false =>
              exact Or.inl rfl
      | syllable s =>
          exact s.splits.append ih

theorem mem_tokens {item : Item} {token : CString} (h : token ∈ item.tokens) :
    token ≠ [] ∧ 32 ∉ token := by
  cases item with
  | pause zero =>
      rw [Item.tokens, List.mem_singleton] at h
      rw [h]
      cases zero with
      | true =>
          decide
      | false =>
          decide
  | syllable s =>
      rw [Item.tokens, Syllable.tokens] at h
      split at h
      · rw [List.mem_singleton] at h
        rw [h]
        exact ⟨s.final_ne_nil, s.final_blank⟩
      · rename_i hinitial
        rcases List.mem_pair.mp h with rfl | rfl
        · exact ⟨hinitial, s.initial_blank⟩
        · exact ⟨s.final_ne_nil, s.final_blank⟩

theorem Stringsplit_phoneString (items : List Item) :
    Stringsplit (phoneString items) 32 = items.flatMap Item.tokens := by
  have htoken : forall token, token ∈ items.flatMap Item.tokens ->
      token ≠ [] ∧ 32 ∉ token := by
    intro token htoken
    rcases List.mem_flatMap.mp htoken with ⟨item, -, hmem⟩
    exact mem_tokens hmem
  refine Stringsplit_intercalate ?_ fun token h => (htoken token h).2
  intro hnil
  exact (htoken [] (by rw [hnil]; simp)).1 rfl

theorem initialsFinals_phoneString (items : List Item) :
    initialsFinals (Stringsplit (phoneString items) 32) =
      Except.ok ((syllables items).map Syllable.initial,
        (syllables items).map Syllable.final) := by
  rw [Stringsplit_phoneString, initialsFinals_of_splits (splits_items items)]
  simp [initialsAndFinals, Syllable.pair, Function.comp_def]

theorem joinTokens_append {tokens tokens' : List CString} (h : tokens ≠ [])
    (h' : tokens' ≠ []) :
    joinTokens (tokens ++ tokens') =
      joinTokens tokens ++ str " " ++ joinTokens tokens' := by
  induction tokens with
  | nil =>
      exact absurd rfl h
  | cons token tokens ih =>
      cases tokens with
      | nil =>
          rw [List.singleton_append, joinTokens,
            List.intercalate_cons_of_ne_nil h', joinTokens, joinTokens,
            List.intercalate_singleton]
      | cons next tokens =>
          have hrest := ih (by simp)
          unfold joinTokens at hrest ⊢
          rw [List.cons_append, List.cons_append, List.intercalate_cons_cons,
            ← List.cons_append, hrest, List.intercalate_cons_cons]
          simp

/-- The tokens of an initial, which may be empty, and its final. -/
def pairTokens (p : CString × CString) : List CString :=
  if p.1 = [] then [p.2] else [p.1, p.2]

theorem pairTokens_ne_nil (p : CString × CString) : pairTokens p ≠ [] := by
  unfold pairTokens
  split
  · simp
  · simp

theorem syllable_eq (initial final : CString) :
    syllable initial final = joinTokens (pairTokens (initial, final)) := by
  unfold syllable pairTokens joinTokens
  by_cases hinitial : initial = []
  · simp [hinitial]
  · simp [hinitial, List.intercalate_cons_cons]

theorem assemble_eq (word_initials word_finals : List CString) :
    assemble word_initials word_finals =
      joinTokens ((List.zip word_initials word_finals).flatMap pairTokens) := by
  have hzip : List.zipWith syllable word_initials word_finals =
      (List.zip word_initials word_finals).map fun p => joinTokens (pairTokens p) := by
    have hsyllable : syllable = fun i f => joinTokens (pairTokens (i, f)) :=
      funext fun i => funext fun f => syllable_eq i f
    rw [hsyllable, List.zip_eq_zipWith, List.map_zipWith]
  unfold assemble
  rw [hzip]
  clear hzip
  induction List.zip word_initials word_finals with
  | nil =>
      rfl
  | cons p ps ih =>
      cases ps with
      | nil =>
          simp
      | cons next ps =>
          have hne : (next :: ps).flatMap pairTokens ≠ [] := by
            simp [pairTokens_ne_nil]
          rw [List.flatMap_cons, joinTokens_append (pairTokens_ne_nil p) hne, ← ih]
          rw [List.map_cons, List.map_cons, List.intercalate_cons_cons]

theorem assemble_syllables (ss : List Syllable) :
    assemble (ss.map Syllable.initial) (ss.map Syllable.final) =
      joinTokens (ss.flatMap Syllable.tokens) := by
  rw [assemble_eq, List.zip_map', List.flatMap_map]
  rfl

theorem flatMap_syllables (ss : List Syllable) :
    (ss.map Item.syllable).flatMap Item.tokens = ss.flatMap Syllable.tokens := by
  rw [List.flatMap_map]
  rfl

/--
A word whose phones are syllables with pauses between them is split into exactly
these syllables, and writing them again gives the phones without the pauses.
-/
theorem GetInitialsFinals_lossless (st : Setup) (word : CString)
    (e e' : FrontEngineInterface) (items : List Item)
    (h : GetPhone st word e = (Except.ok (phoneString items), e')) :
    exists word_initials word_finals,
      GetInitialsFinals st word e = (Except.ok (word_initials, word_finals), e') ∧
      List.zip word_initials word_finals = (syllables items).map Syllable.pair ∧
      word_initials.length = word_finals.length ∧
      assemble word_initials word_finals =
        phoneString ((syllables items).map Item.syllable) := by
  refine ⟨(syllables items).map Syllable.initial,
    (syllables items).map Syllable.final, ?_, ?_, ?_, ?_⟩
  · unfold GetInitialsFinals
    rw [Prog.bind_of_ok h, initialsFinals_phoneString]
    rfl
  · rw [List.zip_map']
    rfl
  · simp
  · rw [assemble_syllables, phoneString, flatMap_syllables]

/-- 玉鉴 with a pause between the characters. -/
def jadeMirror : List Item :=
  [Item.syllable {
      initial := [], final := str "v4"
      initial_blank := by decide, initial_pause := by decide
      initial_tone := by decide, final_blank := by decide
      final_tone := by decide },
    Item.pause false,
    Item.syllable {
      initial := str "j", final := str "ian4"
      initial_blank := by decide, initial_pause := by decide
      initial_tone := by decide, final_blank := by decide
      final_tone := by decide }]

theorem GetInitialsFinals_lossless_jade_mirror :
    phoneString jadeMirror = str "v4 sp j ian4" ∧
      exists word_initials word_finals e',
        GetInitialsFinals (tableSetup []) (str "玉鉴")
            (wordEngine [(str "玉鉴", str "v4 sp j ian4")]) =
          (Except.ok (word_initials, word_finals), e') ∧
        assemble word_initials word_finals = str "v4 j ian4" := by
  constructor
  · decide +kernel
  · have hphone : GetPhone (tableSetup []) (str "玉鉴")
        (wordEngine [(str "玉鉴", str "v4 sp j ian4")]) =
        (Except.ok (phoneString jadeMirror),
          (GetPhone (tableSetup []) (str "玉鉴")
            (wordEngine [(str "玉鉴", str "v4 sp j ian4")])).2) := by
      refine Prod.ext ?_ rfl
      decide +kernel
    rcases GetInitialsFinals_lossless _ _ _ _ jadeMirror hphone with
      ⟨word_initials, word_finals, hrun, -, -, hassemble⟩
    refine ⟨word_initials, word_finals, _, hrun, ?_⟩
    rw [hassemble]
    decide +kernel

end FrontEngineInterface
end VoiceTts
