import VoiceTts.Segmenter.Jieba

/-!
# Ranges are cut on their own

How a range between separators is cut depends on its own runes only: a text that has no
others is cut in the same places.
-/

namespace VoiceTts
namespace Cppjieba

open Tiling PreFilter

/-- A way of cutting ranges that looks at nothing but the runes of the range. -/
def Local (cut : List RuneStr -> Range -> List WordRange) : Prop :=
  forall (runes text : List RuneStr) (range : Range), range.begin_ ≤ range.end_ ->
    range.end_ ≤ runes.length ->
    runesOf text = runesOf (slice runes range.begin_ range.end_) ->
    cut runes range = (cut text ⟨0, text.length⟩).map (Span.shift range.begin_)

/-!
## Texts with the same runes
-/

section Same

variable {runes text : List RuneStr} {b e : Nat}

theorem length_of_same (h : runesOf text = runesOf runes) : text.length = runes.length := by
  have hlength := congrArg List.length h
  rwa [List.length_map, List.length_map] at hlength

theorem slice_of_same (h : runesOf text = runesOf runes) (i j : Nat) :
    runesOf (slice text i j) = runesOf (slice runes i j) := by
  rw [runesOf, runesOf, ← slice_map, ← slice_map]
  exact congrArg (fun rs => slice rs i j) h

theorem wordAt_of_same (h : runesOf text = runesOf runes) (i j : Nat) :
    wordAt text i j = wordAt runes i j :=
  slice_of_same h i (j + 1)

theorem runeAt_eq (runes : List RuneStr) (i : Nat) :
    runeAt runes i = (runesOf runes).getD i 0 := by
  rw [runeAt, List.getD_eq_getElem?_getD, List.getD_eq_getElem?_getD, List.getElem?_map]
  cases runes[i]? with
  | none =>
      rfl
  | some r =>
      rfl

theorem length_of_range (h : runesOf text = runesOf (slice runes b e))
    (he : e ≤ runes.length) : text.length = e - b := by
  rw [length_of_same h, length_slice runes he]

theorem runeAt_of_range (h : runesOf text = runesOf (slice runes b e))
    (he : e ≤ runes.length) {i : Nat} (hi : i < text.length) :
    runeAt runes (b + i) = runeAt text i := by
  have hlength := length_of_range h he
  rw [runeAt_eq text, h, ← runeAt_eq, runeAt, runeAt, List.getD_eq_getElem?_getD,
    List.getD_eq_getElem?_getD, getElem?_slice runes (by omega)]

theorem slice_of_range (h : runesOf text = runesOf (slice runes b e))
    (he : e ≤ runes.length) (i : Nat) {j : Nat} (hj : j ≤ text.length) :
    runesOf (slice text i j) = runesOf (slice runes (b + i) (b + j)) := by
  have hlength := length_of_range h he
  by_cases hij : i < j
  · rw [slice_of_same h, slice_slice runes (by omega)]
  · have hnil : forall xs : List RuneStr, forall k l : Nat, l ≤ k -> slice xs k l = [] := by
      intro xs k l hle
      rw [slice, Nat.sub_eq_zero_of_le hle, List.take_zero]
    rw [hnil text i j (by omega), hnil runes (b + i) (b + j) (by omega)]

theorem wordAt_of_range (h : runesOf text = runesOf (slice runes b e))
    (he : e ≤ runes.length) (i : Nat) {j : Nat} (hj : j < text.length) :
    wordAt runes (b + i) (b + j) = wordAt text i j :=
  (slice_of_range h he i hj).symm

end Same

theorem shift_zero (s : Span) : s.shift 0 = s := by
  rw [Span.shift, Nat.zero_add, Nat.zero_add]

theorem map_shift (b k : Nat) (spans : List Span) :
    (spans.map (Span.shift b)).map (Span.shift k) = spans.map (Span.shift (k + b)) := by
  rw [List.map_map]
  refine List.map_congr_left fun s _ => ?_
  rw [Function.comp_apply, Span.shift, Span.shift, Span.shift, Nat.add_assoc, Nat.add_assoc]

theorem Local.part {cut : List RuneStr -> Range -> List WordRange} (hlocal : Local cut)
    {runes text : List RuneStr} {k e : Nat}
    (h : runesOf text = runesOf (slice runes k e)) (he : e ≤ runes.length) {i j : Nat}
    (hij : i ≤ j) (hj : j ≤ text.length) (hke : k ≤ e) :
    cut runes ⟨k + i, k + j⟩ = (cut text ⟨i, j⟩).map (Span.shift k) := by
  have hlength := length_of_range h he
  have hwhole := hlocal runes (slice text i j) ⟨k + i, k + j⟩ (Nat.add_le_add_left hij k)
    (show k + j ≤ runes.length by omega) (slice_of_range h he i hj)
  have hpart := hlocal text (slice text i j) ⟨i, j⟩ hij hj rfl
  rw [hwhole, hpart, map_shift]

/-!
## All words of a range
-/

section Full

variable {W : Type} {d : DictTrie W} {text text' : List RuneStr}

theorem longerAt_of_same (h : runesOf text = runesOf text') (i : Nat) :
    longerAt d text i = longerAt d text' i := by
  unfold longerAt
  rw [length_of_same h]
  congr 1
  funext j
  rw [wordAt_of_same h]

/-- The variables of the loop with all words `k` further on. -/
def FullState.shift (k : Nat) (s : FullState) : FullState :=
  { s with res := s.res.map (Span.shift k) }

theorem fullStep_shift (k i size : Nat) (s : FullState) (next : Nat × Option (DictUnit W)) :
    fullStep k i size (s.shift k) next = (fullStep 0 i size s next).shift k := by
  have hword : Span.shift k ⟨0 + i, 0 + next.1⟩ = ⟨k + i, k + next.1⟩ := by
    rw [Span.shift, Nat.zero_add, Nat.zero_add]
  unfold fullStep FullState.shift
  cases next.2 with
  | none =>
      dsimp only
      split
      · rw [List.map_append, List.map_singleton, hword]
      · rfl
  | some u =>
      dsimp only
      split
      · rw [List.map_append, List.map_singleton, hword]
      · rfl

theorem listAt_shift (h : runesOf text = runesOf text') (k : Nat) (s : FullState) (i : Nat) :
    listAt d text' k (s.shift k) i = (listAt d text 0 s i).shift k := by
  unfold listAt
  rw [wordAt_of_same h, longerAt_of_same h]
  exact List.foldl_hom (FullState.shift k) fun s next => fullStep_shift k i _ s next

theorem local_full [Zero W] (f : FullSegment W) : Local f.cutRange := by
  intro runes text range _ _ htext
  rw [f.cutRange_eq, f.cutRange_eq, slice_zero, length_of_same htext]
  dsimp only
  have hfold : forall is : List Nat, forall s : FullState,
      is.foldl (listAt f.dictTrie_ (slice runes range.begin_ range.end_) range.begin_)
          (s.shift range.begin_) =
        (is.foldl (listAt f.dictTrie_ text 0) s).shift range.begin_ :=
    fun is s => List.foldl_hom _ fun s i => listAt_shift htext range.begin_ s i
  exact congrArg FullState.res (hfold _ ⟨0, 0, []⟩)

end Full

/-!
## The most probable words
-/

section Probable

variable {W : Type} [Double W] {d : DictTrie W} {text text' : List RuneStr}

/-- An entry without its rune, which no loop reads. -/
def Dag.plain (dag : Dag W) : Dag W :=
  { dag with runestr := default }

theorem valueAt_plain (dags : List (Dag W)) (k : Nat) :
    valueAt (dags.map Dag.plain) k = valueAt dags k := by
  unfold valueAt
  rw [List.getElem?_map]
  cases dags[k]? with
  | none =>
      rfl
  | some dag =>
      rfl

theorem relax_plain (dags : List (Dag W)) (dag : Dag W) (next : Nat × Option (DictUnit W)) :
    relax d (dags.map Dag.plain) dag.plain next = (relax d dags dag next).plain := by
  have hvalue : nextValue d (dags.map Dag.plain) next = nextValue d dags next := by
    rw [nextValue, nextValue, valueAt_plain]
  have hweight : dag.plain.weight = dag.weight :=
    rfl
  unfold relax
  rw [hvalue, hweight]
  dsimp only
  split
  · rfl
  · rfl

theorem foldl_relax_plain (dags : List (Dag W)) (nexts : List (Nat × Option (DictUnit W)))
    (dag : Dag W) :
    nexts.foldl (relax d (dags.map Dag.plain)) dag.plain =
      (nexts.foldl (relax d dags) dag).plain :=
  List.foldl_hom Dag.plain fun dag next => relax_plain dags dag next

theorem calcAt_plain (dags : List (Dag W)) (i : Nat) :
    calcAt d (dags.map Dag.plain) i = (calcAt d dags i).map Dag.plain := by
  unfold calcAt
  rw [List.getElem?_map]
  cases dags[i]? with
  | none =>
      rfl
  | some dag =>
      dsimp only [Option.map_some]
      rw [List.map_set]
      exact congrArg ((dags.map Dag.plain).set i) (foldl_relax_plain dags dag.nexts
        { dag with pInfo := none, weight := MIN_DOUBLE })

theorem CalcDP_plain (dags : List (Dag W)) :
    CalcDP d (dags.map Dag.plain) = (CalcDP d dags).map Dag.plain := by
  unfold CalcDP
  rw [List.length_map]
  exact List.foldl_hom (List.map Dag.plain) fun dags i => calcAt_plain dags i

theorem FindAll_plain (h : runesOf text = runesOf text') (max_word_len : Nat) :
    (d.FindAll text max_word_len).map Dag.plain =
      (d.FindAll text' max_word_len).map Dag.plain := by
  unfold DictTrie.FindAll
  rw [List.map_map, List.map_map, length_of_same h]
  refine List.map_congr_left fun i hi => ?_
  have hlt := List.mem_range.mp hi
  have hnexts : nextsAt d max_word_len text i = nextsAt d max_word_len text' i := by
    rw [nextsAt_eq d max_word_len hlt, nextsAt_eq d max_word_len (length_of_same h ▸ hlt),
      length_of_same h, wordAt_of_same h]
    congr 2
    funext j
    rw [wordAt_of_same h]
  dsimp only [Function.comp_apply, Dag.plain]
  rw [hnexts]

omit [Double W] in
theorem CutByDag_shift {dags dags' : List (Dag W)} (hplain : dags.map Dag.plain =
    dags'.map Dag.plain) (hwords : forall dag, dag ∈ dags -> forall p, dag.pInfo = some p ->
      p.word ≠ []) (k fuel i : Nat) :
    CutByDag k dags' fuel i = (CutByDag 0 dags fuel i).map (Span.shift k) := by
  induction fuel generalizing i with
  | zero =>
      rfl
  | succ fuel ih =>
      have hget : (dags.map Dag.plain)[i]? = (dags'.map Dag.plain)[i]? := by
        rw [hplain]
      rw [List.getElem?_map, List.getElem?_map] at hget
      rw [CutByDag, CutByDag]
      cases hdag : dags[i]? with
      | none =>
          rw [hdag, Option.map_none] at hget
          rw [Option.map_eq_none_iff.mp hget.symm]
          rfl
      | some dag =>
          rw [hdag, Option.map_some] at hget
          rcases Option.map_eq_some_iff.mp hget.symm with ⟨dag', hdag', hsame⟩
          have hinfo : dag'.pInfo = dag.pInfo := by
            change dag'.plain.pInfo = dag.plain.pInfo
            rw [hsame]
          rw [hdag']
          dsimp only
          rw [hinfo]
          cases hp : dag.pInfo with
          | none =>
              dsimp only
              rw [List.map_cons, ih, Span.shift, Nat.zero_add]
          | some p =>
              have hpos := List.length_pos_iff.mpr
                (hwords dag (List.mem_of_getElem? hdag) p hp)
              have hright : k + i + p.word.length - 1 = k + (0 + i + p.word.length - 1) := by
                omega
              dsimp only
              rw [List.map_cons, ih, Span.shift, Nat.zero_add, hright, Nat.zero_add]

theorem words_of_CalcDP (text : List RuneStr) (max_word_len : Nat) :
    forall dag, dag ∈ CalcDP d (d.FindAll text max_word_len) ->
      forall p, dag.pInfo = some p -> p.word ≠ [] := by
  intro dag hdag p hp
  rcases List.getElem?_of_mem hdag with ⟨i, hi⟩
  have hnexts := (CalcDP_solved (d := d) (forward_FindAll d max_word_len text)).2 i
  have hfind : i < (d.FindAll text max_word_len).length := by
    rw [hi, Option.map_some] at hnexts
    rcases Option.map_eq_some_iff.mp hnexts.symm with ⟨dag', hdag', -⟩
    exact (List.getElem?_eq_some_iff.mp hdag').1
  have hlt : i < text.length := by
    rwa [DictTrie.FindAll, List.length_map, List.length_range] at hfind
  have hdags : (dagsOf d max_word_len text ⟨0, text.length⟩)[i]? = some dag := by
    rw [dagsOf, slice_zero]
    exact hi
  rcases chosen (Nat.le_refl text.length) (by rwa [Nat.zero_add]) hdags with ⟨j, hword, -⟩
  have hlength := hword p hp
  rw [← List.length_pos_iff]
  omega

theorem local_mp (m : MPSegment W) (max_word_len : Nat) : Local (m.cutRange max_word_len) := by
  intro runes text range _ hle htext
  have hplain := FindAll_plain (d := m.dictTrie_) htext max_word_len
  unfold MPSegment.cutRange
  dsimp only
  rw [slice_zero]
  have hlength : (CalcDP m.dictTrie_ (m.dictTrie_.FindAll
      (slice runes range.begin_ range.end_) max_word_len)).length =
      (CalcDP m.dictTrie_ (m.dictTrie_.FindAll text max_word_len)).length := by
    have hmap : forall dags : List (Dag W), (CalcDP m.dictTrie_ dags).length =
        (CalcDP m.dictTrie_ (dags.map Dag.plain)).length := by
      intro dags
      rw [CalcDP_plain, List.length_map]
    rw [hmap, hmap (m.dictTrie_.FindAll text max_word_len), hplain]
  rw [hlength]
  refine CutByDag_shift ?_ (words_of_CalcDP text max_word_len) _ _ _
  rw [← CalcDP_plain, ← CalcDP_plain, hplain]

end Probable

/-!
## Words of the model
-/

section Model

variable {W : Type} [Double W] {model : HMMModel W} {runes text : List RuneStr} {b e : Nat}

theorem Viterbi_of_same {t t' : List RuneStr} (h : runesOf t = runesOf t') :
    Viterbi model t = Viterbi model t' := by
  have hemit : forall r r' : RuneStr, r.rune = r'.rune -> forall s, model.emit s r =
      model.emit s r' := by
    intro r r' hr s
    rw [HMMModel.emit, HMMModel.emit, hr]
  have hsweep : forall (t t' : List RuneStr), runesOf t = runesOf t' ->
      forall col behind, sweep model col behind t = sweep model col behind t' := by
    intro t
    induction t with
    | nil =>
        intro t' ht col behind
        rw [List.map_eq_nil_iff.mp ht.symm]
    | cons r t ih =>
        intro t' ht col behind
        cases t' with
        | nil =>
            cases ht
        | cons r' t' =>
            rw [runesOf, runesOf, List.map_cons, List.map_cons, List.cons.injEq] at ht
            have hcolumn : nextColumn model col r = nextColumn model col r' := by
              unfold nextColumn stepValue
              simp only [hemit r r' ht.1]
            rw [sweep, sweep, hcolumn]
            exact ih t' ht.2 _ _
  cases t with
  | nil =>
      rw [List.map_eq_nil_iff.mp h.symm]
  | cons r t =>
      cases t' with
      | nil =>
          cases h
      | cons r' t' =>
          rw [runesOf, runesOf, List.map_cons, List.map_cons, List.cons.injEq] at h
          have hcolumn : startColumn model r = startColumn model r' := by
            unfold startColumn
            simp only [hemit r r' h.1]
          rw [Viterbi, Viterbi, hcolumn, hsweep t t' h.2]

theorem wordsOfStatus_shift (k : Nat) (status : List Status) (left i : Nat) :
    wordsOfStatus (k + left) (k + i) status =
      (wordsOfStatus left i status).map (Span.shift k) := by
  induction status generalizing left i with
  | nil =>
      rfl
  | cons stat status ih =>
      rw [wordsOfStatus, wordsOfStatus]
      split
      · rw [List.map_cons, ← ih]
        rfl
      · exact ih left (i + 1)

variable (htext : runesOf text = runesOf (slice runes b e)) (he : e ≤ runes.length)

include htext he

theorem InternalCut_of_range (i : Nat) {j : Nat} (hj : j ≤ text.length) :
    InternalCut model runes (b + i) (b + j) =
      (InternalCut model text i j).map (Span.shift b) := by
  unfold InternalCut
  rw [← Viterbi_of_same (slice_of_range htext he i hj)]
  exact wordsOfStatus_shift b _ i i

theorem ruleEnd_of_range (first further : Rune -> Bool) {i j : Nat} (hi : i < j)
    (hj : j ≤ text.length) :
    ruleEnd first further runes (b + i) (b + j) =
      b + ruleEnd first further text i j := by
  have hrun : forall xs : List RuneStr,
      (xs.takeWhile fun r => further r.rune).length =
        ((runesOf xs).takeWhile further).length := by
    intro xs
    rw [runesOf, List.takeWhile_map, List.length_map]
    rfl
  unfold ruleEnd
  rw [runeAt_of_range htext he (by omega), hrun, hrun,
    slice_of_range htext he (i + 1) hj]
  split
  · simp only [Nat.add_assoc]
  · rfl

theorem asciiEnd_of_range {i j : Nat} (hi : i < j) (hj : j ≤ text.length) :
    asciiEnd runes (b + i) (b + j) = b + asciiEnd text i j := by
  unfold asciiEnd SequentialLetterRule NumbersRule
  dsimp only
  rw [ruleEnd_of_range htext he _ _ hi hj, ruleEnd_of_range htext he _ _ hi hj]
  simp only [ne_eq, Nat.add_right_inj]
  split
  · rfl
  · split
    · rfl
    · rfl

theorem cutRunes_of_range {j : Nat} (hj : j ≤ text.length) (left right : Nat)
    (hright : right ≤ j) :
    cutRunes model runes (b + j) (b + left) (b + right) =
      (cutRunes model text j left right).map (Span.shift b) := by
  have hsame : (b + left ≠ b + right) = (left ≠ right) := by
    rw [ne_eq, Nat.add_right_inj]
  have hplain : (if left ≠ right then InternalCut model runes (b + left) (b + right) else []) =
      (if left ≠ right then InternalCut model text left right else []).map
        (Span.shift b) := by
    split
    · exact InternalCut_of_range htext he left (Nat.le_trans hright hj)
    · rfl
  conv_rhs => rw [cutRunes]
  rw [cutRunes]
  simp only [Nat.add_lt_add_iff_left, hsame]
  by_cases hlt : right < j
  · rw [dif_pos hlt, dif_pos hlt, runeAt_of_range htext he (by omega)]
    by_cases hascii : runeAt text right < 0x80
    · have hpos := lt_asciiEnd text right j
      have hnext := asciiEnd_le hlt hj
      have hlast : b + asciiEnd text right j - 1 = b + (asciiEnd text right j - 1) := by
        omega
      rw [if_pos hascii, if_pos hascii, asciiEnd_of_range htext he hlt hj,
        cutRunes_of_range hj _ _ hnext, hlast, hplain, List.map_append, List.map_cons]
      rfl
    · rw [if_neg hascii, if_neg hascii]
      exact cutRunes_of_range hj left (right + 1) hlt
  · rw [dif_neg hlt, dif_neg hlt, hplain]
termination_by j - right

end Model

/-!
## The mixed segmentation
-/

section Mixed

variable {W : Type} [Double W] {d : DictTrie W} {runes text : List RuneStr}

theorem hmm_of_range (h : HMMSegment W) {b e : Nat}
    (htext : runesOf text = runesOf (slice runes b e)) (he : e ≤ runes.length) (i : Nat)
    {j : Nat} (hj : j ≤ text.length) :
    h.cutRange runes ⟨b + i, b + j⟩ = (h.cutRange text ⟨i, j⟩).map (Span.shift b) := by
  by_cases hij : i ≤ j
  · exact cutRunes_of_range htext he hj i i hij
  · have hnil : forall (runes : List RuneStr) (k l : Nat), ¬ k < l ->
        cutRunes h.model_ runes l k k = [] := by
      intro runes k l hle
      rw [cutRunes, dif_neg hle, if_neg (not_not_intro rfl)]
    unfold HMMSegment.cutRange
    dsimp only
    rw [hnil runes _ _ (by omega), hnil text _ _ (by omega), List.map_nil]

theorem local_hmm (h : HMMSegment W) : Local h.cutRange := by
  intro runes text range hbe hle htext
  have hend : range.begin_ + text.length = range.end_ := by
    rw [length_of_range htext hle]
    omega
  have hrange : range = ⟨range.begin_ + 0, range.begin_ + text.length⟩ := by
    rw [hend]
    rfl
  conv_lhs => rw [hrange]
  exact hmm_of_range h htext hle 0 (Nat.le_refl _)

theorem while_map {α β : Type} {f : α -> β} {p : β -> Bool} {q : α -> Bool} (xs : List α)
    (h : forall x, x ∈ xs -> p (f x) = q x) :
    (xs.map f).takeWhile p = (xs.takeWhile q).map f ∧
      (xs.map f).dropWhile p = (xs.dropWhile q).map f := by
  induction xs with
  | nil =>
      exact ⟨rfl, rfl⟩
  | cons x xs ih =>
      have hrest := ih fun y hy => h y (List.mem_cons_of_mem _ hy)
      have hx := h x (List.mem_cons_self ..)
      rw [List.map_cons, List.takeWhile_cons, List.takeWhile_cons, List.dropWhile_cons,
        List.dropWhile_cons, hx]
      split
      · exact ⟨by rw [hrest.1, List.map_cons], hrest.2⟩
      · exact ⟨rfl, rfl⟩

/-- Words within a text. -/
def Inside (n : Nat) (words : List WordRange) : Prop :=
  forall wr, wr ∈ words -> wr.left ≤ wr.right ∧ wr.right < n

theorem inside_of_tiles {i j : Nat} {words : List WordRange} (h : Tiles i words j) :
    Inside j words :=
  fun _ hwr => (h.mem hwr).2

theorem mixWords_of_range (h : HMMSegment W) {b e : Nat}
    (htext : runesOf text = runesOf (slice runes b e)) (he : e ≤ runes.length)
    (words : List WordRange) (hinside : Inside text.length words) :
    mixWords d h runes (words.map (Span.shift b)) =
      (mixWords d h text words).map (Span.shift b) := by
  have hcollected : forall wr, wr.left ≤ wr.right ∧ wr.right < text.length ->
      collected d runes (wr.shift b) = collected d text wr := by
    intro wr hwr
    unfold collected Span.shift
    dsimp only
    rw [runeAt_of_range htext he (Nat.lt_of_le_of_lt hwr.1 hwr.2)]
    simp only [Nat.add_right_inj]
  induction hn : words.length using Nat.strong_induction_on generalizing words with
  | _ n ih =>
      cases words with
      | nil =>
          rw [List.map_nil, mixWords, mixWords, List.map_nil]
      | cons wr words =>
          have htail : Inside text.length words :=
            fun v hv => hinside v (List.mem_cons_of_mem _ hv)
          have hwhile := while_map words fun v hv => hcollected v (htail v hv)
          rw [List.length_cons] at hn
          rw [List.map_cons, mixWords, mixWords,
            hcollected wr (hinside wr (List.mem_cons_self ..))]
          split
          · have hlength := (List.dropWhile_suffix (collected d text) (l := words)).length_le
            have hrest := ih _ (by omega) (words.dropWhile (collected d text))
              (fun v hv => htail v ((List.dropWhile_suffix _).subset hv)) rfl
            have hlast : ((words.takeWhile (collected d text)).map (Span.shift b)).getLastD
                (wr.shift b) =
                ((words.takeWhile (collected d text)).getLastD wr).shift b := by
              rw [List.getLastD_eq_getLast?, List.getLastD_eq_getLast?, List.getLast?_map]
              cases (words.takeWhile (collected d text)).getLast? with
              | none =>
                  rfl
              | some last =>
                  rfl
            have hmem : (words.takeWhile (collected d text)).getLastD wr ∈ wr :: words := by
              have hget := List.mem_of_getLast? (getLast?_sequence wr
                (words.takeWhile (collected d text)))
              exact ((List.takeWhile_prefix _).sublist.cons_cons wr).subset hget
            have hbound := hinside _ hmem
            dsimp only
            rw [hwhile.1, hwhile.2, hlast, hrest, List.map_append]
            congr 1
            exact hmm_of_range h htext he wr.left (Nat.lt_of_le_of_lt hbound.1 hbound.2)
          · rw [List.map_cons, ih _ (by omega) words htail rfl]

theorem local_mix (m : MixSegment W) (hmm : Bool) : Local (m.cutRange hmm) := by
  intro runes text range hbe hle htext
  have hfirst := local_mp m.mpSeg_ MAX_WORD_LENGTH runes text range hbe hle htext
  unfold MixSegment.cutRange
  dsimp only
  rw [hfirst]
  split
  · exact mixWords_of_range m.hmmSeg_ htext hle _ (inside_of_tiles
      (m.mpSeg_.cutRange_tiles MAX_WORD_LENGTH text ⟨0, text.length⟩ (Nat.zero_le _)
        (Nat.le_refl _)).1)
  · rfl

omit [Double W] in
theorem searchWord_of_range {b e : Nat}
    (htext : runesOf text = runesOf (slice runes b e)) (he : e ≤ runes.length)
    {wr : WordRange} (hleft : wr.left ≤ wr.right) (hright : wr.right < text.length) :
    searchWord d runes (wr.shift b) = (searchWord d text wr).map (Span.shift b) := by
  have hlength : WordRange.Length (wr.shift b) = WordRange.Length wr := by
    unfold WordRange.Length Span.shift
    dsimp only
    omega
  have hsub : forall n, 0 < n -> n < WordRange.Length wr ->
      subRanges d runes (wr.shift b) n = (subRanges d text wr n).map (Span.shift b) := by
    intro n hn hlt
    have hplace : (List.range (WordRange.Length wr + 1 - n)).map (fun i =>
        (⟨(wr.shift b).left + i, (wr.shift b).left + i + n - 1⟩ : WordRange)) =
        ((List.range (WordRange.Length wr + 1 - n)).map fun i =>
          (⟨wr.left + i, wr.left + i + n - 1⟩ : WordRange)).map (Span.shift b) := by
      rw [List.map_map]
      refine List.map_congr_left fun i _ => ?_
      rw [Function.comp_apply, Span.shift, Span.shift, Span.mk.injEq]
      dsimp only
      omega
    unfold subRanges
    rw [hlength, hplace, List.filter_map]
    congr 1
    refine List.filter_congr fun g hg => ?_
    rcases List.mem_map.mp hg with ⟨i, hi, rfl⟩
    rw [List.mem_range] at hi
    unfold WordRange.Length at hi
    have hend : wr.left + i + n - 1 < text.length := by
      omega
    exact congrArg (fun word => (d.Find word).isSome)
      (wordAt_of_range htext he (wr.left + i) hend)
  unfold searchWord
  rw [hlength, List.map_append, List.map_append, List.map_singleton]
  congr 2
  · split
    · exact hsub 2 (by decide) (by assumption)
    · rfl
  · split
    · exact hsub 3 (by decide) (by assumption)
    · rfl

theorem local_query (q : QuerySegment W) (hmm : Bool) : Local (q.cutRange hmm) := by
  intro runes text range hbe hle htext
  unfold QuerySegment.cutRange
  rw [local_mix q.mixSeg_ hmm runes text range hbe hle htext, List.flatMap_map,
    List.map_flatMap]
  refine List.flatMap_congr fun wr hwr => ?_
  have htiles := @MixSegment.cutRange_tiles _ _ q.mixSeg_ hmm text ⟨0, text.length⟩
    (Nat.zero_le _) (Nat.le_refl _)
  have hbounds := htiles.mem hwr
  exact searchWord_of_range htext hle hbounds.2.1 hbounds.2.2

end Mixed

end Cppjieba
end VoiceTts
