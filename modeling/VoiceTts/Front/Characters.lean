import VoiceTts.Front.Syllables

/-!
# Characters and their syllables

What `GetInitialsFinals` returns for a word depends on the pieces that `GetPhone`
cuts the word into.  A piece without phones leaves an empty token behind, and
pieces that overlap give one character several syllables.
-/

namespace VoiceTts
namespace FrontEngineInterface

/-!
## The pieces of a word
-/

/-- The words of the dictionary that `GetPhone` reads for a word. -/
def pieces (st : Setup) (e : FrontEngineInterface) (word : CString) : List CString :=
  if e.word_phone_map.contains word then [word] else st._jieba.CutAll word

theorem appendPhones_result (phone : CString) (wordcut : List CString)
    (e : FrontEngineInterface) :
    (appendPhones phone wordcut e).1 =
      Except.ok (joinTokens (phone :: wordcut.map e.word_phone_map.peek)) := by
  induction wordcut generalizing phone e with
  | nil =>
      simp [appendPhones, joinTokens]
  | cons piece wordcut ih =>
      have hnext := ih (phone ++ (str " " ++ e.word_phone_map.peek piece))
        (wordPhone piece e).2
      have hpeek : (wordPhone piece e).2.word_phone_map.peek =
          e.word_phone_map.peek := by
        funext k
        exact StdMap.peek_touch _ piece k
      rw [hpeek] at hnext
      refine hnext.trans ?_
      cases wordcut with
      | nil =>
          simp [joinTokens, List.intercalate_cons_cons]
      | cons next wordcut =>
          simp [joinTokens, List.intercalate_cons_cons]

theorem GetPhone_result (st : Setup) (word : CString) (e : FrontEngineInterface)
    (h : pieces st e word ≠ []) :
    (GetPhone st word e).1 =
      Except.ok (joinTokens ((pieces st e word).map e.word_phone_map.peek)) := by
  unfold pieces at h ⊢
  cases hin : e.word_phone_map.contains word with
  | true =>
      rw [GetPhone_of_contains hin]
      simp [joinTokens]
  | false =>
      rw [hin, if_neg (by simp)] at h
      rw [GetPhone_of_not_contains hin, if_neg (by simp)]
      cases hcut : st._jieba.CutAll word with
      | nil =>
          exact absurd hcut h
      | cons piece rest =>
          have hresult := appendPhones_result (e.word_phone_map.peek piece) rest
            (wordPhone piece e).2
          have hpeek : (wordPhone piece e).2.word_phone_map.peek =
              e.word_phone_map.peek := by
            funext k
            exact StdMap.peek_touch _ piece k
          rw [hpeek] at hresult
          exact hresult

theorem GetPhone_no_pieces {st : Setup} {word : CString} {e : FrontEngineInterface}
    (h : pieces st e word = []) :
    GetPhone st word e = (Except.error (Error.access Container.wordcut), e) := by
  unfold pieces at h
  cases hin : e.word_phone_map.contains word with
  | true =>
      rw [hin] at h
      simp at h
  | false =>
      rw [hin, if_neg (by simp)] at h
      rw [GetPhone_of_not_contains hin, h]
      rfl

theorem splitOn_joinTokens {phones : List CString} (h : phones ≠ []) :
    (joinTokens phones).splitOn 32 = phones.flatMap fun p => p.splitOn 32 := by
  induction phones with
  | nil =>
      exact absurd rfl h
  | cons p phones ih =>
      cases phones with
      | nil =>
          simp [joinTokens]
      | cons q phones =>
          have hrest := ih (by simp)
          have hjoin : joinTokens (p :: q :: phones) =
              p ++ 32 :: joinTokens (q :: phones) := by
            unfold joinTokens
            rw [List.intercalate_cons_cons]
            simp [str, Utf8.encodeChars]
            rfl
          rw [hjoin, List.splitOn_append_cons_self, hrest]
          rfl

/-- The tokens that the phones of some pieces are split into. -/
def tokensOf (phones : List CString) : List CString :=
  Stringsplit (joinTokens phones) 32

theorem tokensOf_singleton (p : CString) : tokensOf [p] = Stringsplit p 32 := by
  simp [tokensOf, joinTokens]

/-- Two or more phone strings keep their tokens; an empty one becomes a token. -/
theorem tokensOf_cons_cons (p q : CString) (phones : List CString) :
    tokensOf (p :: q :: phones) =
      (p :: q :: phones).flatMap fun p => p.splitOn 32 := by
  have hne : joinTokens (p :: q :: phones) ≠ [] := by
    unfold joinTokens
    rw [List.intercalate_cons_cons]
    simp [str]
  rw [tokensOf, Stringsplit_eq_splitOn hne, splitOn_joinTokens (by simp)]

theorem GetInitialsFinals_result (st : Setup) (word : CString)
    (e : FrontEngineInterface) (h : pieces st e word ≠ []) :
    (GetInitialsFinals st word e).1 =
      initialsFinals (tokensOf ((pieces st e word).map e.word_phone_map.peek)) := by
  have hphone := GetPhone_result st word e h
  rcases hrun : GetPhone st word e with ⟨r, e'⟩
  rw [hrun] at hphone
  change r = Except.ok _ at hphone
  rw [hphone] at hrun
  unfold GetInitialsFinals
  rw [Prog.bind_of_ok hrun]
  rfl

/-!
## Pieces without phones
-/

theorem not_splits_empty {phone_vec : List CString}
    {pairs : List (CString × CString)} : ¬ Splits ([] :: phone_vec) pairs := by
  intro h
  cases h with
  | pause hpause _ =>
      exact absurd hpause (by decide)
  | initial hne _ _ _ =>
      exact hne rfl
  | final _ htoned _ =>
      exact absurd htoned (by decide)

theorem Splits.after_pause {token : CString} {phone_vec : List CString}
    {pairs : List (CString × CString)} (hpause : Pause token)
    (h : Splits (token :: phone_vec) pairs) : Splits phone_vec pairs := by
  cases h with
  | pause _ hrest =>
      exact hrest
  | initial _ hnot _ _ =>
      exact absurd hpause hnot
  | final hnot _ _ =>
      exact absurd hpause hnot

theorem Splits.after_initial {initial final : CString} {phone_vec : List CString}
    {pairs : List (CString × CString)} (hpause : ¬ Pause initial)
    (htoned : ¬ Toned initial) (h : Splits (initial :: final :: phone_vec) pairs) :
    exists rest, Splits phone_vec rest ∧ pairs = (initial, final) :: rest := by
  cases h with
  | pause hnot _ =>
      exact absurd hnot hpause
  | initial _ _ _ hrest =>
      exact ⟨_, hrest, rfl⟩
  | final _ hnot _ =>
      exact absurd hnot htoned

theorem Splits.after_final {final : CString} {phone_vec : List CString}
    {pairs : List (CString × CString)} (hpause : ¬ Pause final)
    (htoned : Toned final) (h : Splits (final :: phone_vec) pairs) :
    exists rest, Splits phone_vec rest ∧ pairs = ([], final) :: rest := by
  cases h with
  | pause hnot _ =>
      exact absurd hnot hpause
  | initial _ _ hnot _ =>
      exact absurd htoned hnot
  | final _ _ hrest =>
      exact ⟨_, hrest, rfl⟩

theorem Splits.cancel {phone_vec rest : List CString}
    {pairs all : List (CString × CString)} (h : Splits phone_vec pairs)
    (hall : Splits (phone_vec ++ rest) all) :
    exists pairs', Splits rest pairs' ∧ all = pairs ++ pairs' := by
  induction h generalizing all with
  | nil =>
      exact ⟨all, hall, rfl⟩
  | pause hpause _ ih =>
      exact ih (hall.after_pause hpause)
  | initial hne hpause htoned _ ih =>
      rcases hall.after_initial hpause htoned with ⟨tail, htail, rfl⟩
      rcases ih htail with ⟨pairs', hpairs', rfl⟩
      exact ⟨pairs', hpairs', rfl⟩
  | final hpause htoned _ ih =>
      rcases hall.after_final hpause htoned with ⟨tail, htail, rfl⟩
      rcases ih htail with ⟨pairs', hpairs', rfl⟩
      exact ⟨pairs', hpairs', rfl⟩

theorem Splits.unique {phone_vec : List CString}
    {pairs pairs' : List (CString × CString)} (h : Splits phone_vec pairs)
    (h' : Splits phone_vec pairs') : pairs = pairs' := by
  rw [← List.append_nil phone_vec] at h'
  rcases h.cancel h' with ⟨rest, hrest, rfl⟩
  cases hrest
  simp

/-- A phone string whose tokens the loop can read, with the pairs it reads. -/
def Reads (phone : CString) (pairs : List (CString × CString)) : Prop :=
  Splits (Stringsplit phone 32) pairs

theorem reads_nil {pairs : List (CString × CString)} :
    Reads [] pairs ↔ pairs = [] := by
  constructor
  · intro h
    cases h
    rfl
  · rintro rfl
    exact Splits.nil

theorem reads_of_ne_nil {phone : CString} (h : phone ≠ [])
    {pairs : List (CString × CString)} :
    Reads phone pairs ↔ Splits (phone.splitOn 32) pairs := by
  rw [Reads, Stringsplit_eq_splitOn h]

theorem splits_flatMap {phones : List CString}
    {pairss : List (List (CString × CString))} (hne : forall p, p ∈ phones -> p ≠ [])
    (h : List.Forall₂ Reads phones pairss) :
    Splits (phones.flatMap fun p => p.splitOn 32) pairss.flatten := by
  induction h with
  | nil =>
      exact Splits.nil
  | cons hp _ ih =>
      rw [reads_of_ne_nil (hne _ (by simp))] at hp
      exact hp.append (ih fun p hmem => hne p (by simp [hmem]))

/-- An empty phone string among others stops the loop. -/
theorem not_splits_flatMap {phones : List CString}
    (hreads : forall p, p ∈ phones -> p ≠ [] -> exists pairs, Reads p pairs)
    (hempty : [] ∈ phones) {all : List (CString × CString)} :
    ¬ Splits (phones.flatMap fun p => p.splitOn 32) all := by
  induction phones generalizing all with
  | nil =>
      simp at hempty
  | cons p phones ih =>
      intro hall
      rw [List.flatMap_cons] at hall
      by_cases hp : p = []
      · rw [hp, List.splitOn_nil] at hall
        exact not_splits_empty hall
      · rcases hreads p (by simp) hp with ⟨pairs, hpairs⟩
        rw [reads_of_ne_nil hp] at hpairs
        rcases hpairs.cancel hall with ⟨rest, hrest, -⟩
        refine ih (fun q hq => hreads q (by simp [hq])) ?_ hrest
        rcases List.mem_cons.mp hempty with hnil | hmem
        · exact absurd hnil.symm hp
        · exact hmem

/--
The pieces of the word that have phones give their pairs, in order, and
nothing else happens.
-/
def Aligned (st : Setup) (e : FrontEngineInterface) (word : CString) : Prop :=
  exists pairss,
    List.Forall₂ Reads
      (((pieces st e word).map e.word_phone_map.peek).filter fun p => decide (p ≠ []))
      pairss ∧
    (GetInitialsFinals st word e).1 = Except.ok (initialsAndFinals pairss.flatten)

/-- There is a single piece, or no piece is without phones. -/
def Whole (st : Setup) (e : FrontEngineInterface) (word : CString) : Prop :=
  pieces st e word ≠ [] ∧
    (forall piece, piece ∈ pieces st e word ->
      exists pairs, Reads (e.word_phone_map.peek piece) pairs) ∧
    ((pieces st e word).length = 1 ∨
      forall piece, piece ∈ pieces st e word -> e.word_phone_map.peek piece ≠ [])

theorem exists_forall₂_reads {phones : List CString}
    (h : forall p, p ∈ phones -> exists pairs, Reads p pairs) :
    exists pairss, List.Forall₂ Reads phones pairss := by
  induction phones with
  | nil =>
      exact ⟨[], List.Forall₂.nil⟩
  | cons p phones ih =>
      rcases h p (by simp) with ⟨pairs, hpairs⟩
      rcases ih fun q hq => h q (by simp [hq]) with ⟨pairss, hpairss⟩
      exact ⟨pairs :: pairss, List.Forall₂.cons hpairs hpairss⟩

theorem aligned_of_whole {st : Setup} {e : FrontEngineInterface} {word : CString}
    (h : Whole st e word) : Aligned st e word := by
  rcases h with ⟨hne, hreads, hphones⟩
  have hresult := GetInitialsFinals_result st word e hne
  unfold Aligned
  rw [hresult]
  cases hpieces : pieces st e word with
  | nil =>
      exact absurd hpieces hne
  | cons piece rest =>
      rw [hpieces] at hreads hphones
      cases rest with
      | nil =>
          rcases hreads piece (by simp) with ⟨pairs, hpairs⟩
          rw [List.map_singleton, tokensOf_singleton,
            initialsFinals_of_splits hpairs]
          by_cases hp : e.word_phone_map.peek piece = []
          · rw [hp, reads_nil] at hpairs
            refine ⟨[], ?_, ?_⟩
            · simp [hp]
            · rw [hpairs]
              rfl
          · refine ⟨[pairs], ?_, ?_⟩
            · simp [hp, hpairs]
            · simp
      | cons next rest =>
          have hall : forall p, p ∈ (piece :: next :: rest).map e.word_phone_map.peek ->
              p ≠ [] := by
            intro p hp
            rcases List.mem_map.mp hp with ⟨q, hq, rfl⟩
            exact hphones.resolve_left (by simp) q hq
          have hread : forall p,
              p ∈ (piece :: next :: rest).map e.word_phone_map.peek ->
              exists pairs, Reads p pairs := by
            intro p hp
            rcases List.mem_map.mp hp with ⟨q, hq, rfl⟩
            exact hreads q hq
          rcases exists_forall₂_reads hread with ⟨pairss, hpairss⟩
          refine ⟨pairss, ?_, ?_⟩
          · rw [List.filter_eq_self.mpr]
            · exact hpairss
            · intro p hp
              exact decide_eq_true (hall p hp)
          · have hsplits := splits_flatMap hall hpairss
            rw [List.map_cons, List.map_cons] at hsplits ⊢
            rw [tokensOf_cons_cons]
            exact initialsFinals_of_splits hsplits

theorem whole_of_ok {st : Setup} {e : FrontEngineInterface} {word : CString}
    {r : List CString × List CString}
    (hread : forall p, p ∈ (pieces st e word).map e.word_phone_map.peek -> p ≠ [] ->
      exists pairs, Reads p pairs)
    (h : (GetInitialsFinals st word e).1 = Except.ok r) : Whole st e word := by
  have hne : pieces st e word ≠ [] := by
    intro hnil
    unfold GetInitialsFinals at h
    rw [Prog.bind_of_error (GetPhone_no_pieces hnil)] at h
    cases h
  refine ⟨hne, ?_, ?_⟩
  · intro piece hpiece
    by_cases hp : e.word_phone_map.peek piece = []
    · rw [hp]
      exact ⟨[], reads_nil.mpr rfl⟩
    · exact hread _ (List.mem_map_of_mem hpiece) hp
  · rw [GetInitialsFinals_result st word e hne] at h
    rcases splits_of_initialsFinals h with ⟨all, hall, -⟩
    cases hpieces : pieces st e word with
    | nil =>
        exact absurd hpieces hne
    | cons piece rest =>
        rw [hpieces] at hread hall
        cases rest with
        | nil =>
            exact Or.inl rfl
        | cons next rest =>
            right
            intro q hq hempty
            rw [List.map_cons, List.map_cons, tokensOf_cons_cons] at hall
            refine not_splits_flatMap hread ?_ hall
            exact List.mem_map.mpr ⟨q, hq, hempty⟩

theorem whole_of_aligned {st : Setup} {e : FrontEngineInterface} {word : CString}
    (h : Aligned st e word) : Whole st e word := by
  rcases h with ⟨pairss, hreads, hresult⟩
  refine whole_of_ok ?_ hresult
  intro p hp hpne
  have hmem : p ∈ ((pieces st e word).map e.word_phone_map.peek).filter
      fun p => decide (p ≠ []) := by
    rw [List.mem_filter]
    exact ⟨hp, decide_eq_true hpne⟩
  rcases Blocks.exists_of_mem_left hreads hmem with ⟨pairs, -, hpairs⟩
  exact ⟨pairs, hpairs⟩

/--
The pairs of the pieces that have phones come out, and no empty token and no
token behind the last one is touched, exactly when the word is one piece or
none of its pieces is without phones.
-/
theorem GetInitialsFinals_aligned (st : Setup) (e : FrontEngineInterface)
    (word : CString) : Aligned st e word ↔ Whole st e word := by
  constructor
  · exact whole_of_aligned
  · exact aligned_of_whole

/-- 㐀 has no phones. -/
def rareEngine : FrontEngineInterface :=
  wordEngine [(str "你", str "n i3")]

def rareSetup : Setup where
  _jieba := {
    Cut := fun s => [s]
    CutAll := fun s => if s = str "你㐀" then [str "你", str "㐀"] else [s]
    CutForSearch := fun s => [s] }
  g2pmodel := fun _ => []
  _seperate_tone := str "false"

theorem GetInitialsFinals_not_aligned_rare :
    (GetInitialsFinals rareSetup (str "你㐀") rareEngine).1 =
        Except.error (Error.access Container.phone_token) ∧
      ¬ Aligned rareSetup rareEngine (str "你㐀") := by
  have hfault : (GetInitialsFinals rareSetup (str "你㐀") rareEngine).1 =
      Except.error (Error.access Container.phone_token) := by
    decide +kernel
  constructor
  · exact hfault
  · rintro ⟨pairss, -, hresult⟩
    rw [hfault] at hresult
    cases hresult

end FrontEngineInterface
end VoiceTts
