import VoiceTts.Front.Characters

/-!
# Words cut into all words that occur in them

`CutAll` is `FullSegment::Cut`: it lists every word of the segmenter's dictionary
that occurs in a text, whether or not the words overlap.  A word that goes
through it has one syllable for each of its characters only when the listed words
happen to be the pieces of the word.
-/

namespace VoiceTts
namespace FullSegment

def separators : List Char :=
  [' ', '\t', '\n', '，', '。']

/-- The ranges of `PreFilter`: single separators, and the text between them. -/
def ranges (text : List Char) : List (List Char) :=
  Blocks.blocks (fun cur c => decide (c ∉ separators ∧
    forall d, d ∈ cur -> d ∉ separators)) text

def slice (text : List Char) (i j : Nat) : List Char :=
  (text.drop i).take (j + 1 - i)

/--
The list `nexts` of a position: the character itself, known or not, and the
longer words of the dictionary that start here.
-/
def nexts (dict : List (List Char)) (text : List Char) (i : Nat) :
    List (Nat × Bool) :=
  (i, decide (slice text i i ∈ dict)) ::
    (((List.range text.length).filter fun j =>
      decide (i < j ∧ j - i + 1 ≤ 512 ∧ slice text i j ∈ dict)).map fun j => (j, true))

/-- The variables of the loop of `Cut`. -/
structure State where
  maxIdx : Nat
  wordLen : Nat
  res : List (List Char)

/-- One round for the word from `i` to `next.1`; an unknown one keeps `wordLen`. -/
def step (text : List Char) (alone : Bool) (i : Nat) (s : State)
    (next : Nat × Bool) : State :=
  let wordLen := if next.2 then next.1 - i + 1 else s.wordLen
  let single := alone && decide (s.maxIdx ≤ i)
  let emit := if next.2 then decide (2 ≤ wordLen) || single else single
  { maxIdx := max (i + wordLen) s.maxIdx
    wordLen := wordLen
    res := if emit then s.res ++ [slice text i next.1] else s.res }

def position (dict : List (List Char)) (text : List Char) (s : State) (i : Nat) :
    State :=
  let ns := nexts dict text i
  ns.foldl (step text (decide (ns.length = 1)) i) s

def cutRange (dict : List (List Char)) (text : List Char) : List (List Char) :=
  ((List.range text.length).foldl (position dict text) ⟨0, 0, []⟩).res

def Cut (dict : List (List Char)) (sentence : CString) : List CString :=
  match PosTagger.DecodeRunesInString sentence with
  | none => []
  | some runes =>
      ((ranges (runes.map Char.ofNat)).flatMap (cutRange dict)).map Utf8.encodeChars

/-!
## Pieces are words
-/

theorem slice_ne_nil {text : List Char} {i j : Nat} (hi : i < text.length)
    (hij : i ≤ j) : slice text i j ≠ [] := by
  intro hnil
  have hlen := congrArg List.length hnil
  simp only [slice, List.length_take, List.length_drop, List.length_nil] at hlen
  omega

theorem mem_nexts {dict : List (List Char)} {text : List Char} {i : Nat}
    {next : Nat × Bool} (h : next ∈ nexts dict text i) : i ≤ next.1 := by
  rcases List.mem_cons.mp h with rfl | h
  · exact Nat.le_refl i
  · rcases List.mem_map.mp h with ⟨j, hj, rfl⟩
    have hlt := of_decide_eq_true (List.mem_filter.mp hj).2
    exact Nat.le_of_lt hlt.1

theorem mem_step_res {text p : List Char} {alone : Bool} {i : Nat} {s : State}
    {next : Nat × Bool} (h : p ∈ (step text alone i s next).res) :
    p ∈ s.res ∨ p = slice text i next.1 := by
  simp only [step] at h
  generalize hemit : (if next.2 = true then _ else _ : Bool) = emit at h
  cases emit with
  | true =>
      rw [if_pos rfl, List.mem_append, List.mem_singleton] at h
      exact h
  | false =>
      rw [if_neg (by simp)] at h
      exact Or.inl h

theorem foldl_step_res {text : List Char} {alone : Bool} {i : Nat}
    (hi : i < text.length) (ns : List (Nat × Bool))
    (hns : forall next, next ∈ ns -> i ≤ next.1) (s : State)
    (hs : forall p, p ∈ s.res -> p ≠ []) :
    forall p, p ∈ (ns.foldl (step text alone i) s).res -> p ≠ [] := by
  induction ns generalizing s with
  | nil =>
      exact hs
  | cons next ns ih =>
      rw [List.foldl_cons]
      refine ih (fun n hn => hns n (by simp [hn])) _ ?_
      intro p hp
      rcases mem_step_res hp with hp | rfl
      · exact hs p hp
      · exact slice_ne_nil hi (hns next (by simp))

theorem cutRange_ne_nil {dict : List (List Char)} {text p : List Char}
    (h : p ∈ cutRange dict text) : p ≠ [] := by
  have hloop : forall (is : List Nat) (s : State),
      (forall i, i ∈ is -> i < text.length) -> (forall p, p ∈ s.res -> p ≠ []) ->
      forall p, p ∈ (is.foldl (position dict text) s).res -> p ≠ [] := by
    intro is
    induction is with
    | nil =>
        intro s _ hs
        exact hs
    | cons i is ih =>
        intro s his hs
        rw [List.foldl_cons]
        refine ih _ (fun j hj => his j (by simp [hj])) ?_
        exact foldl_step_res (his i (by simp)) _ (fun _ hn => mem_nexts hn) s hs
  exact hloop _ _ (fun i hi => List.mem_range.mp hi) (by simp) p h

theorem mem_Cut {dict : List (List Char)} {sentence piece : CString}
    (h : piece ∈ Cut dict sentence) :
    exists cs : List Char, cs ≠ [] ∧ piece = Utf8.encodeChars cs := by
  unfold Cut at h
  split at h
  · simp at h
  · rcases List.mem_map.mp h with ⟨cs, hcs, rfl⟩
    rcases List.mem_flatMap.mp hcs with ⟨text, -, hmem⟩
    exact ⟨cs, cutRange_ne_nil hmem, rfl⟩

end FullSegment

namespace FrontEngineInterface

open FullSegment

/-!
## One syllable for each character
-/

/-- The dictionary has the words `D`, each with one pair for each character. -/
structure Syllabic (D : CString -> Prop) (e : FrontEngineInterface) : Prop where
  keys : forall w, e.word_phone_map.contains w = true ↔ D w
  reads : forall cs : List Char, D (Utf8.encodeChars cs) ->
    exists pairs, pairs.length = cs.length ∧
      Reads (e.word_phone_map.peek (Utf8.encodeChars cs)) pairs

/--
The characters are taken one after the other, alone or in words of the
dictionary, and each of them gives one pair.
-/
def OnePerCharacter (st : Setup) (e : FrontEngineInterface) (cs : List Char) :
    Prop :=
  exists parts pairss,
    parts.flatten = cs ∧
    List.Forall₂ (fun part pairs =>
      e.word_phone_map.contains (Utf8.encodeChars part) = true ∧
      pairs.length = part.length ∧
      Reads (e.word_phone_map.peek (Utf8.encodeChars part)) pairs) parts pairss ∧
    (GetInitialsFinals st (Utf8.encodeChars cs) e).1 =
      Except.ok (initialsAndFinals pairss.flatten)

theorem encodeChars_flatten (parts : List (List Char)) :
    (parts.map Utf8.encodeChars).flatten = Utf8.encodeChars parts.flatten := by
  induction parts with
  | nil =>
      rfl
  | cons part parts ih =>
      simp [ih]

theorem exists_parts {words : List CString}
    (h : forall p, p ∈ words -> exists cs : List Char, cs ≠ [] ∧
      p = Utf8.encodeChars cs) :
    exists parts : List (List Char), words = parts.map Utf8.encodeChars ∧
      forall part, part ∈ parts -> part ≠ [] := by
  induction words with
  | nil =>
      exact ⟨[], rfl, by simp⟩
  | cons p words ih =>
      rcases h p (by simp) with ⟨cs, hcs, rfl⟩
      rcases ih fun q hq => h q (by simp [hq]) with ⟨parts, rfl, hparts⟩
      refine ⟨cs :: parts, rfl, ?_⟩
      intro part hpart
      rcases List.mem_cons.mp hpart with rfl | hpart
      · exact hcs
      · exact hparts part hpart

theorem exists_pairss {D : CString -> Prop} {e : FrontEngineInterface}
    (he : Syllabic D e) {parts : List (List Char)}
    (h : forall part, part ∈ parts -> D (Utf8.encodeChars part)) :
    exists pairss, List.Forall₂ (fun part pairs =>
      e.word_phone_map.contains (Utf8.encodeChars part) = true ∧
      pairs.length = part.length ∧
      Reads (e.word_phone_map.peek (Utf8.encodeChars part)) pairs) parts pairss := by
  induction parts with
  | nil =>
      exact ⟨[], List.Forall₂.nil⟩
  | cons part parts ih =>
      have hpart := h part (by simp)
      rcases he.reads part hpart with ⟨pairs, hlen, hreads⟩
      rcases ih fun q hq => h q (by simp [hq]) with ⟨pairss, hpairss⟩
      exact ⟨pairs :: pairss,
        List.Forall₂.cons ⟨(he.keys _).mpr hpart, hlen, hreads⟩ hpairss⟩

theorem one_per_character_of_known {st : Setup} {D : CString -> Prop}
    {e : FrontEngineInterface} (he : Syllabic D e) {cs : List Char}
    (h : D (Utf8.encodeChars cs)) : OnePerCharacter st e cs := by
  have hkey := (he.keys _).mpr h
  rcases he.reads cs h with ⟨pairs, hlen, hreads⟩
  refine ⟨[cs], [pairs], by simp, ?_, ?_⟩
  · exact List.Forall₂.cons ⟨hkey, hlen, hreads⟩ List.Forall₂.nil
  · have hpieces : pieces st e (Utf8.encodeChars cs) = [Utf8.encodeChars cs] := by
      simp [pieces, hkey]
    rw [GetInitialsFinals_result st _ e (by simp [hpieces]), hpieces,
      List.map_singleton, tokensOf_singleton, initialsFinals_of_splits hreads]
    simp

theorem one_per_character_of_parts {st : Setup} {D : CString -> Prop}
    {e : FrontEngineInterface} (he : Syllabic D e) {parts : List (List Char)}
    (hne : parts ≠ []) (hparts : forall part, part ∈ parts -> part ≠ [])
    (hD : forall part, part ∈ parts -> D (Utf8.encodeChars part))
    (hnot : e.word_phone_map.contains (Utf8.encodeChars parts.flatten) = false)
    (hcut : st._jieba.CutAll (Utf8.encodeChars parts.flatten) =
      parts.map Utf8.encodeChars) :
    OnePerCharacter st e parts.flatten := by
  rcases exists_pairss he hD with ⟨pairss, hpairss⟩
  refine ⟨parts, pairss, rfl, hpairss, ?_⟩
  have hpieces : pieces st e (Utf8.encodeChars parts.flatten) =
      parts.map Utf8.encodeChars := by
    rw [pieces, hnot, if_neg (by simp), hcut]
  have hreads : List.Forall₂ Reads
      ((parts.map Utf8.encodeChars).map e.word_phone_map.peek) pairss := by
    rw [List.map_map, List.forall₂_map_left_iff]
    exact hpairss.imp fun _ _ h => h.2.2
  have hphones : forall p,
      p ∈ (parts.map Utf8.encodeChars).map e.word_phone_map.peek -> p ≠ [] := by
    intro p hp hnil
    rw [List.map_map] at hp
    rcases List.mem_map.mp hp with ⟨part, hpart, hpeek⟩
    rcases Blocks.exists_of_mem_left hpairss hpart with ⟨pairs, -, -, hlen, hr⟩
    have hpairs : pairs = [] := by
      have hempty : e.word_phone_map.peek (Utf8.encodeChars part) = [] :=
        hpeek.trans hnil
      rw [hempty, reads_nil] at hr
      exact hr
    rw [hpairs, List.length_nil] at hlen
    exact hparts part hpart (List.length_eq_zero_iff.mp hlen.symm)
  rw [GetInitialsFinals_result st _ e (by simp [hpieces, hne]), hpieces]
  cases parts with
  | nil =>
      exact absurd rfl hne
  | cons part rest =>
      cases rest with
      | nil =>
          cases hreads with
          | cons hr hrest =>
              cases hrest
              rw [List.map_singleton, List.map_singleton, tokensOf_singleton,
                initialsFinals_of_splits hr]
              simp
      | cons next rest =>
          have hsplits := splits_flatMap hphones hreads
          rw [List.map_cons, List.map_cons, List.map_cons, List.map_cons] at hsplits ⊢
          rw [tokensOf_cons_cons]
          exact initialsFinals_of_splits hsplits

/-!
## A dictionary that tells characters apart
-/

/-- A final that only this character has. -/
def charFinal (c : Char) : CString :=
  List.replicate c.val.toNat 97 ++ [49]

def charPairs (cs : List Char) : List (CString × CString) :=
  cs.map fun c => ([], charFinal c)

theorem charFinal_injective {c d : Char} (h : charFinal c = charFinal d) : c = d := by
  have hlen := congrArg List.length h
  simp only [charFinal, List.length_append, List.length_replicate,
    List.length_singleton] at hlen
  exact Char.ext (UInt32.toNat_inj.mp (by omega))

theorem charPairs_injective {cs ds : List Char} (h : charPairs cs = charPairs ds) :
    cs = ds := by
  have hinj : Function.Injective fun c : Char => (([] : CString), charFinal c) := by
    intro c d hcd
    exact charFinal_injective (Prod.ext_iff.mp hcd).2
  exact List.map_injective_iff.mpr hinj h

theorem toned_charFinal (c : Char) : Toned (charFinal c) :=
  ⟨49, by simp [charFinal], by decide, by decide⟩

theorem not_pause_charFinal (c : Char) : ¬ Pause (charFinal c) := by
  have hlast : (charFinal c).getLast? = some 49 := by
    simp [charFinal]
  rintro (h | h)
  · rw [h] at hlast
    exact absurd hlast (by decide)
  · rw [h] at hlast
    exact absurd hlast (by decide)

theorem splits_charFinals (cs : List Char) :
    Splits (cs.map charFinal) (charPairs cs) := by
  induction cs with
  | nil =>
      exact Splits.nil
  | cons c cs ih =>
      exact Splits.final (not_pause_charFinal c) (toned_charFinal c) ih

theorem reads_charFinals (cs : List Char) :
    Reads (joinTokens (cs.map charFinal)) (charPairs cs) := by
  have hsplit : Stringsplit (joinTokens (cs.map charFinal)) 32 =
      cs.map charFinal := by
    rw [joinTokens_eq]
    refine Stringsplit_intercalate ?_ ?_
    · intro hnil
      have hmem : [] ∈ cs.map charFinal := by
        rw [hnil]
        simp
      rcases List.mem_map.mp hmem with ⟨c, -, hc⟩
      simp [charFinal] at hc
    · intro token htoken
      rcases List.mem_map.mp htoken with ⟨c, -, rfl⟩
      simp [charFinal]
  rw [Reads, hsplit]
  exact splits_charFinals cs

open Classical in
/-- The characters of a word, if it is one. -/
noncomputable def charsOf (w : CString) : List Char :=
  if h : exists cs, w = Utf8.encodeChars cs then h.choose else []

theorem charsOf_encodeChars (cs : List Char) : charsOf (Utf8.encodeChars cs) = cs := by
  have h : exists ds, Utf8.encodeChars cs = Utf8.encodeChars ds := ⟨cs, rfl⟩
  rw [charsOf, dif_pos h]
  exact (Utf8.encodeChars_injective h.choose_spec).symm

open Classical in
/-- The words `D`, in which every character sounds like no other. -/
noncomputable def spellingEngine (D : CString -> Prop) : FrontEngineInterface where
  word_phone_map := {
    find := fun w => if D w then some (joinTokens ((charsOf w).map charFinal))
      else none }
  phone_id_map := StdMap.empty
  tone_id_map := StdMap.empty
  cmu_map := StdMap.empty
  orderdict_map := StdMap.empty

theorem spelling_contains (D : CString -> Prop) (w : CString) :
    (spellingEngine D).word_phone_map.contains w = true ↔ D w := by
  by_cases hw : D w
  · simp [spellingEngine, StdMap.contains, hw]
  · simp [spellingEngine, StdMap.contains, hw]

theorem spelling_peek {D : CString -> Prop} {cs : List Char}
    (h : D (Utf8.encodeChars cs)) :
    (spellingEngine D).word_phone_map.peek (Utf8.encodeChars cs) =
      joinTokens (cs.map charFinal) := by
  simp [spellingEngine, StdMap.peek, h, charsOf_encodeChars]

theorem spelling_peek_unknown {D : CString -> Prop} {w : CString} (h : ¬ D w) :
    (spellingEngine D).word_phone_map.peek w = [] := by
  simp [spellingEngine, StdMap.peek, h]
  rfl

theorem spelling_syllabic (D : CString -> Prop) : Syllabic D (spellingEngine D) where
  keys := spelling_contains D
  reads := by
    intro cs hcs
    refine ⟨charPairs cs, by simp [charPairs], ?_⟩
    rw [spelling_peek hcs]
    exact reads_charFinals cs

theorem initialsAndFinals_injective {pairs pairs' : List (CString × CString)}
    (h : initialsAndFinals pairs = initialsAndFinals pairs') : pairs = pairs' := by
  have hfst : pairs.map Prod.fst = pairs'.map Prod.fst := congrArg Prod.fst h
  have hsnd : pairs.map Prod.snd = pairs'.map Prod.snd := congrArg Prod.snd h
  have hzip := congrArg₂ List.zip hfst hsnd
  simpa [List.zip_map'] using hzip

theorem spelling_pairs {D : CString -> Prop} {parts : List (List Char)}
    {pairss : List (List (CString × CString))}
    (h : List.Forall₂ (fun part pairs => D (Utf8.encodeChars part) ∧
      Reads ((spellingEngine D).word_phone_map.peek (Utf8.encodeChars part)) pairs)
      parts pairss) :
    pairss.flatten = charPairs parts.flatten := by
  induction h with
  | nil =>
      rfl
  | @cons part pairs parts pairss hpart _ ih =>
      have hpairs : pairs = charPairs part := by
        have hreads := hpart.2
        rw [spelling_peek hpart.1] at hreads
        exact hreads.unique (reads_charFinals part)
      rw [List.flatten_cons, List.flatten_cons, hpairs, ih]
      simp [charPairs]

/-- With that dictionary the pairs give the characters of the pieces away. -/
theorem spelling_parts {st : Setup} {D : CString -> Prop} {cs : List Char}
    (hcs : cs ≠ []) {parts : List (List Char)}
    (hpieces : pieces st (spellingEngine D) (Utf8.encodeChars cs) =
      parts.map Utf8.encodeChars)
    (hresult : (GetInitialsFinals st (Utf8.encodeChars cs) (spellingEngine D)).1 =
      Except.ok (initialsAndFinals (charPairs cs))) :
    parts.flatten = cs ∧ forall part, part ∈ parts -> D (Utf8.encodeChars part) := by
  have hread : forall w : CString, w ∈ parts.map Utf8.encodeChars ->
      (spellingEngine D).word_phone_map.peek w ≠ [] -> D w := by
    intro w _ hne
    by_contra hw
    exact hne (spelling_peek_unknown hw)
  have hwhole : Whole st (spellingEngine D) (Utf8.encodeChars cs) := by
    refine whole_of_ok ?_ hresult
    intro p hp hne
    rw [hpieces] at hp
    rcases List.mem_map.mp hp with ⟨w, hw, rfl⟩
    have hD := hread w hw hne
    rcases List.mem_map.mp hw with ⟨part, -, rfl⟩
    rw [spelling_peek hD]
    exact ⟨charPairs part, reads_charFinals part⟩
  rcases aligned_of_whole hwhole with ⟨pairss, hpairss, hresult'⟩
  rw [hresult, Except.ok.injEq] at hresult'
  have hpairs := initialsAndFinals_injective hresult'
  have hphones : forall w : CString, w ∈ parts.map Utf8.encodeChars ->
      (spellingEngine D).word_phone_map.peek w ≠ [] := by
    rcases hwhole.2.2 with hone | hall
    · rw [hpieces] at hone
      rcases List.length_eq_one_iff.mp hone with ⟨w, hw⟩
      intro w' hw' hempty
      rw [hw, List.mem_singleton] at hw'
      rw [hw'] at hempty
      rw [hpieces, hw, List.map_singleton, hempty] at hpairss
      cases hpairss
      simp [charPairs, hcs] at hpairs
    · rw [hpieces] at hall
      exact hall
  have hD : forall part, part ∈ parts -> D (Utf8.encodeChars part) := by
    intro part hpart
    have hmem := List.mem_map_of_mem (f := Utf8.encodeChars) hpart
    exact hread _ hmem (hphones _ hmem)
  have hfilter : ((parts.map Utf8.encodeChars).map
      (spellingEngine D).word_phone_map.peek).filter (fun p => decide (p ≠ [])) =
      (parts.map Utf8.encodeChars).map (spellingEngine D).word_phone_map.peek := by
    rw [List.filter_eq_self]
    intro p hp
    rcases List.mem_map.mp hp with ⟨w, hw, rfl⟩
    exact decide_eq_true (hphones w hw)
  rw [hpieces, hfilter, List.map_map, List.forall₂_map_left_iff] at hpairss
  have hboth : List.Forall₂ (fun part pairs => D (Utf8.encodeChars part) ∧
      Reads ((spellingEngine D).word_phone_map.peek (Utf8.encodeChars part)) pairs)
      parts pairss := by
    clear hfilter hpairs hresult' hwhole hread hphones hpieces
    induction hpairss with
    | nil =>
        exact List.Forall₂.nil
    | cons hpart _ ih =>
        exact List.Forall₂.cons ⟨hD _ (by simp), hpart⟩
          (ih fun part hpart => hD part (by simp [hpart]))
  rw [spelling_pairs hboth] at hpairs
  exact ⟨(charPairs_injective hpairs).symm, hD⟩

/--
Whatever the words of the dictionary sound like, as long as each has one syllable
for each of its characters, a word gets one pair for each of its characters in
order, if and only if it is a word of the dictionary or is cut into words of
the dictionary that make it up.
-/
theorem one_pair_per_character (st : Setup) (D : CString -> Prop) (cs : List Char)
    (hcs : cs ≠ [])
    (hcut : forall p, p ∈ st._jieba.CutAll (Utf8.encodeChars cs) ->
      exists ds : List Char, ds ≠ [] ∧ p = Utf8.encodeChars ds) :
    (forall e, Syllabic D e -> OnePerCharacter st e cs) ↔
      (D (Utf8.encodeChars cs) ∨
        ((st._jieba.CutAll (Utf8.encodeChars cs)).flatten = Utf8.encodeChars cs ∧
          forall p, p ∈ st._jieba.CutAll (Utf8.encodeChars cs) -> D p)) := by
  rcases exists_parts hcut with ⟨parts, hparts, hne⟩
  rw [hparts, encodeChars_flatten]
  constructor
  · intro h
    by_cases hword : D (Utf8.encodeChars cs)
    · exact Or.inl hword
    · right
      rcases h _ (spelling_syllabic D) with ⟨parts', pairss, hflat, hpairss, hresult⟩
      have hpairs : pairss.flatten = charPairs cs := by
        rw [← hflat]
        exact spelling_pairs (hpairss.imp fun _ _ hp =>
          ⟨(spelling_contains D _).mp hp.1, hp.2.2⟩)
      rw [hpairs] at hresult
      have hpieces : pieces st (spellingEngine D) (Utf8.encodeChars cs) =
          parts.map Utf8.encodeChars := by
        have hnot : (spellingEngine D).word_phone_map.contains
            (Utf8.encodeChars cs) = false := by
          rw [← Bool.not_eq_true, spelling_contains]
          exact hword
        rw [pieces, hnot, if_neg (by simp), hparts]
      rcases spelling_parts hcs hpieces hresult with ⟨hcover, hD⟩
      constructor
      · rw [hcover]
      · intro p hp
        rcases List.mem_map.mp hp with ⟨part, hpart, rfl⟩
        exact hD part hpart
  · rintro (hword | ⟨hcover, hD⟩) e he
    · exact one_per_character_of_known he hword
    · have hflat := Utf8.encodeChars_injective hcover
      cases hin : e.word_phone_map.contains (Utf8.encodeChars cs) with
      | true =>
          exact one_per_character_of_known he ((he.keys _).mp hin)
      | false =>
          rw [← hflat] at hin hparts hcs ⊢
          refine one_per_character_of_parts he ?_ hne ?_ hin hparts
          · rintro rfl
            exact hcs rfl
          · intro part hpart
            exact hD _ (List.mem_map_of_mem hpart)

/-- The segmenter and the words of 小雨伞, as the shipped tables have them. -/
def umbrella : Setup where
  _jieba := {
    Cut := fun s => [s]
    CutAll := FullSegment.Cut (["小", "雨", "伞", "买", "小雨", "雨伞"].map String.toList)
    CutForSearch := fun s => [s] }
  g2pmodel := fun _ => []
  _seperate_tone := str "false"

def umbrellaWords : List (CString × CString) :=
  [(str "小", str "x iao3"), (str "雨", str "v3"), (str "伞", str "s an3"),
    (str "买", str "m ai3"), (str "小雨", str "x iao2 v3"), (str "雨伞", str "v2 s an3")]

/-- The words of that dictionary. -/
def UmbrellaWord (w : CString) : Prop :=
  w ∈ umbrellaWords.map Prod.fst

theorem umbrella_cut (s p : CString) (hp : p ∈ umbrella._jieba.CutAll s) :
    exists ds : List Char, ds ≠ [] ∧ p = Utf8.encodeChars ds := by
  unfold umbrella at hp
  exact mem_Cut hp

theorem one_pair_per_character_buy :
    (umbrella._jieba.CutAll (Utf8.encodeChars "买雨伞".toList)).flatten =
        Utf8.encodeChars "买雨伞".toList ∧
      forall e, Syllabic UmbrellaWord e ->
        OnePerCharacter umbrella e "买雨伞".toList := by
  have hflat : (umbrella._jieba.CutAll (Utf8.encodeChars "买雨伞".toList)).flatten =
      Utf8.encodeChars "买雨伞".toList := by
    decide +kernel
  have hwords : forall p, p ∈ umbrella._jieba.CutAll
      (Utf8.encodeChars "买雨伞".toList) -> UmbrellaWord p := by
    unfold UmbrellaWord
    decide +kernel
  exact ⟨hflat, (one_pair_per_character umbrella UmbrellaWord "买雨伞".toList
    (by decide) (umbrella_cut _)).mpr (Or.inr ⟨hflat, hwords⟩)⟩

theorem syllabic_umbrella :
    Syllabic UmbrellaWord (wordEngine umbrellaWords) where
  keys := by
    intro w
    simp only [wordEngine, umbrellaWords, UmbrellaWord, StdMap.insertAll,
      StdMap.contains, StdMap.insert, StdMap.empty, List.foldl_cons, List.foldl_nil,
      List.map_cons, List.map_nil, List.mem_cons, List.not_mem_nil]
    split_ifs with h1 h2 h3 h4 h5 h6
    · simp [h1]
    · simp [h2]
    · simp [h3]
    · simp [h4]
    · simp [h5]
    · simp [h6]
    · simp [h1, h2, h3, h4, h5, h6]
  reads := by
    intro cs hcs
    have hreads : forall ds : List Char, forall r,
        initialsFinals (Stringsplit
          ((wordEngine umbrellaWords).word_phone_map.peek (Utf8.encodeChars ds)) 32) =
          Except.ok r -> r.1.length = ds.length ->
        Utf8.encodeChars cs = Utf8.encodeChars ds ->
        exists pairs, pairs.length = cs.length ∧
          Reads ((wordEngine umbrellaWords).word_phone_map.peek
            (Utf8.encodeChars cs)) pairs := by
      intro ds r hr hlen heq
      rw [heq, Utf8.encodeChars_injective heq]
      rcases splits_of_initialsFinals hr with ⟨pairs, hpairs, rfl⟩
      exact ⟨pairs, by simpa [initialsAndFinals] using hlen, hpairs⟩
    simp only [UmbrellaWord, umbrellaWords, List.map_cons, List.map_nil,
      List.mem_cons, List.not_mem_nil, or_false] at hcs
    rcases hcs with h | h | h | h | h | h
    · exact hreads "小".toList ([str "x"], [str "iao3"]) (by decide +kernel) rfl h
    · exact hreads "雨".toList ([[]], [str "v3"]) (by decide +kernel) rfl h
    · exact hreads "伞".toList ([str "s"], [str "an3"]) (by decide +kernel) rfl h
    · exact hreads "买".toList ([str "m"], [str "ai3"]) (by decide +kernel) rfl h
    · exact hreads "小雨".toList ([str "x", []], [str "iao2", str "v3"])
        (by decide +kernel) rfl h
    · exact hreads "雨伞".toList ([[], str "s"], [str "v2", str "an3"])
        (by decide +kernel) rfl h

theorem OnePerCharacter.length {st : Setup} {e : FrontEngineInterface}
    {cs : List Char} (h : OnePerCharacter st e cs) {r : List CString × List CString}
    (hr : (GetInitialsFinals st (Utf8.encodeChars cs) e).1 = Except.ok r) :
    r.1.length = cs.length := by
  rcases h with ⟨parts, pairss, rfl, hpairss, hresult⟩
  rw [hr, Except.ok.injEq] at hresult
  rw [hresult]
  change (pairss.flatten.map Prod.fst).length = parts.flatten.length
  rw [List.length_map]
  clear hr hresult
  induction hpairss with
  | nil =>
      rfl
  | cons hpart _ ih =>
      rw [List.flatten_cons, List.flatten_cons, List.length_append,
        List.length_append, hpart.2.1, ih]

/-- 小雨伞 is cut into 小雨 and 雨伞, and 雨 is read twice. -/
theorem not_one_pair_per_character_umbrella :
    Syllabic UmbrellaWord (wordEngine umbrellaWords) ∧
      (GetInitialsFinals umbrella (str "小雨伞") (wordEngine umbrellaWords)).1 =
        Except.ok ([str "x", [], [], str "s"],
          [str "iao2", str "v3", str "v2", str "an3"]) ∧
      ¬ OnePerCharacter umbrella (wordEngine umbrellaWords) "小雨伞".toList := by
  have hresult : (GetInitialsFinals umbrella (str "小雨伞")
      (wordEngine umbrellaWords)).1 =
      Except.ok ([str "x", [], [], str "s"],
        [str "iao2", str "v3", str "v2", str "an3"]) := by
    decide +kernel
  refine ⟨syllabic_umbrella, hresult, ?_⟩
  intro h
  have hword : str "小雨伞" = Utf8.encodeChars "小雨伞".toList := rfl
  rw [hword] at hresult
  exact absurd (h.length hresult) (by decide)

end FrontEngineInterface
end VoiceTts
