import VoiceTts.Segmenter.Words

/-!
# All words of a range

`FullSegment` lists every word of the dictionary that occurs in a range, and the runes
that no word has led over.  The loop keeps the length of the last known word also for
runes that it does not know, which makes it lose some of them.
-/

namespace VoiceTts
namespace Cppjieba

open Tiling PreFilter

variable {W : Type}

structure FullSegment (W : Type) where
  symbols_ : List Rune
  dictTrie_ : DictTrie W

/-- The variables of the loop of `FullSegment::Cut`. -/
structure FullState where
  maxIdx : Nat
  wordLen : Nat
  res : List WordRange
deriving DecidableEq, Repr

/-- One round of the inner loop; an unknown rune keeps the last `wordLen`. -/
def fullStep (begin_ i size : Nat) (s : FullState) (next : Nat × Option (DictUnit W)) :
    FullState :=
  let alone := decide (size = 1) && decide (s.maxIdx ≤ i)
  match next.2 with
  | none =>
      { maxIdx := max (i + s.wordLen) s.maxIdx
        wordLen := s.wordLen
        res := if alone then s.res ++ [⟨begin_ + i, begin_ + next.1⟩] else s.res }
  | some du =>
      let wordLen := du.word.length
      { maxIdx := max (i + wordLen) s.maxIdx
        wordLen := wordLen
        res := if decide (2 ≤ wordLen) || alone then
            s.res ++ [⟨begin_ + i, begin_ + next.1⟩] else s.res }

/-- One round of the outer loop. -/
def fullPosition (begin_ : Nat) (dags : List (Dag W)) (s : FullState) (i : Nat) : FullState :=
  match dags[i]? with
  | none => s
  | some dag => dag.nexts.foldl (fullStep begin_ i dag.nexts.length) s

namespace FullSegment

def cutRange [Zero W] (f : FullSegment W) (runes : List RuneStr) (range : Range) :
    List WordRange :=
  let dags := f.dictTrie_.FindAll (slice runes range.begin_ range.end_) MAX_WORD_LENGTH
  ((List.range dags.length).foldl (fullPosition range.begin_ dags) ⟨0, 0, []⟩).res

def Cut [Zero W] (f : FullSegment W) (sentence : CString) : List Word :=
  cutSentence f.symbols_ f.cutRange sentence

end FullSegment

/-!
## What is listed
-/

/-- The longer words that start at a position. -/
def longerAt (d : DictTrie W) (text : List RuneStr) (i : Nat) :
    List (Nat × Option (DictUnit W)) :=
  (List.range' (i + 1) (min (text.length - (i + 1)) (MAX_WORD_LENGTH - 1))).filterMap
    fun j => (d.Find (wordAt text i j)).map fun u => (j, some u)

/-- One round of the outer loop, in terms of what the dictionary finds. -/
def listAt (d : DictTrie W) (text : List RuneStr) (begin_ : Nat) (s : FullState) (i : Nat) :
    FullState :=
  let nexts := (i, d.Find (wordAt text i i)) :: longerAt d text i
  nexts.foldl (fullStep begin_ i nexts.length) s

theorem mem_longerAt {d : DictTrie W} {text : List RuneStr} {i : Nat}
    {next : Nat × Option (DictUnit W)} (h : next ∈ longerAt d text i) :
    i < next.1 ∧ next.1 < text.length ∧
      exists u, next.2 = some u ∧ u.word.length = next.1 + 1 - i := by
  unfold longerAt at h
  rcases List.mem_filterMap.mp h with ⟨j, hj, hfind⟩
  rw [Option.map_eq_some_iff] at hfind
  rcases hfind with ⟨u, hu, rfl⟩
  rw [List.mem_range'_1] at hj
  refine ⟨by omega, by omega, u, rfl, ?_⟩
  rw [DictTrie.word_of_Find hu, wordAt, runesOf, List.length_map,
    length_slice text (show j + 1 ≤ text.length by omega)]

theorem FullSegment.cutRange_eq [Zero W] (f : FullSegment W) (runes : List RuneStr)
    (range : Range) :
    f.cutRange runes range =
      ((List.range (slice runes range.begin_ range.end_).length).foldl
        (listAt f.dictTrie_ (slice runes range.begin_ range.end_) range.begin_)
        ⟨0, 0, []⟩).res := by
  unfold cutRange
  dsimp only
  rw [DictTrie.FindAll, List.length_map, List.length_range]
  congr 1
  refine List.foldl_ext _ _ _ ?_
  intro s i hi
  have hlt := List.mem_range.mp hi
  unfold fullPosition listAt longerAt
  rw [List.getElem?_map, List.getElem?_range hlt, Option.map_some]
  dsimp only
  rw [nextsAt_eq _ _ hlt]

theorem fullStep_longer (begin_ size : Nat) {i : Nat} (s : FullState)
    {next : Nat × Option (DictUnit W)} {u : DictUnit W} (hlt : i < next.1)
    (hu : next.2 = some u) (hlength : u.word.length = next.1 + 1 - i) :
    fullStep begin_ i size s next =
      ⟨max (next.1 + 1) s.maxIdx, next.1 + 1 - i,
        s.res ++ [⟨begin_ + i, begin_ + next.1⟩]⟩ := by
  have htwo : 2 ≤ next.1 + 1 - i := by
    omega
  have hreach : i + (next.1 + 1 - i) = next.1 + 1 := by
    omega
  unfold fullStep
  rw [hu]
  dsimp only
  rw [hlength, hreach, decide_eq_true htwo, Bool.true_or, if_pos rfl]

/-- The words of a list that starts at `i`. -/
def rangesAt (begin_ i : Nat) (nexts : List (Nat × Option (DictUnit W))) :
    List WordRange :=
  nexts.map fun next => ⟨begin_ + i, begin_ + next.1⟩

/-- The longer words of a position are all listed; the last one gives the length. -/
theorem foldl_longer (begin_ i size : Nat) (nexts : List (Nat × Option (DictUnit W)))
    (hnexts : forall next, next ∈ nexts -> i < next.1 ∧
      exists u, next.2 = some u ∧ u.word.length = next.1 + 1 - i) (s : FullState) :
    (nexts.foldl (fullStep begin_ i size) s).res = s.res ++ rangesAt begin_ i nexts ∧
      (nexts.foldl (fullStep begin_ i size) s).wordLen =
        (nexts.getLast?.map fun next => next.1 + 1 - i).getD s.wordLen ∧
      forall p, p < (nexts.foldl (fullStep begin_ i size) s).maxIdx ↔
        p < s.maxIdx ∨ exists next, next ∈ nexts ∧ p ≤ next.1 := by
  induction nexts generalizing s with
  | nil =>
      refine ⟨(List.append_nil _).symm, rfl, fun p => ?_⟩
      simp only [List.foldl_nil, List.not_mem_nil, false_and, exists_false, or_false]
  | cons next nexts ih =>
      rcases hnexts next (List.mem_cons_self ..) with ⟨hlt, u, hu, hlength⟩
      rw [List.foldl_cons, fullStep_longer begin_ size s hlt hu hlength]
      have hrest := ih (fun n hn => hnexts n (List.mem_cons_of_mem _ hn))
        ⟨max (next.1 + 1) s.maxIdx, next.1 + 1 - i,
          s.res ++ [⟨begin_ + i, begin_ + next.1⟩]⟩
      dsimp only at hrest
      refine ⟨?_, ?_, fun p => ?_⟩
      · rw [hrest.1, List.append_assoc]
        rfl
      · rw [hrest.2.1, List.getLast?_cons]
        cases nexts.getLast? with
        | none =>
            rfl
        | some last =>
            rfl
      · rw [hrest.2.2, lt_max_iff, Nat.lt_succ_iff]
        constructor
        · rintro ((h | h) | ⟨n, hn, h⟩)
          · exact Or.inr ⟨next, List.mem_cons_self .., h⟩
          · exact Or.inl h
          · exact Or.inr ⟨n, List.mem_cons_of_mem _ hn, h⟩
        · rintro (h | ⟨n, hn, h⟩)
          · exact Or.inl (Or.inr h)
          · rcases List.mem_cons.mp hn with rfl | hn
            · exact Or.inl (Or.inl h)
            · exact Or.inr ⟨n, hn, h⟩

/-- The length that counts after the rune itself was looked at. -/
def lengthAt (d : DictTrie W) (text : List RuneStr) (s : FullState) (i : Nat) : Nat :=
  if d.Find (wordAt text i i) = none then s.wordLen else 1

theorem fullStep_self {d : DictTrie W} {text : List RuneStr} {i : Nat}
    (hi : i < text.length) (begin_ size : Nat) (s : FullState) :
    fullStep begin_ i size s (i, d.Find (wordAt text i i)) =
      { maxIdx := max (i + lengthAt d text s i) s.maxIdx
        wordLen := lengthAt d text s i
        res := if size = 1 ∧ s.maxIdx ≤ i then s.res ++ [⟨begin_ + i, begin_ + i⟩]
          else s.res } := by
  unfold fullStep lengthAt
  rw [← Bool.decide_and]
  cases hfind : d.Find (wordAt text i i) with
  | none =>
      simp only [if_true, decide_eq_true_eq]
  | some u =>
      have hlength : u.word.length = 1 := by
        rw [DictTrie.word_of_Find hfind, length_wordAt text hi]
        omega
      have htwo : ¬ 2 ≤ 1 := by
        decide
      simp only [hlength, reduceCtorEq, if_false, htwo, decide_false, Bool.false_or,
        decide_eq_true_eq]

section Rounds

variable {d : DictTrie W} {text : List RuneStr} {i : Nat}

/-- What a round at position `i` lists. -/
def addedAt (d : DictTrie W) (text : List RuneStr) (begin_ : Nat) (s : FullState) (i : Nat) :
    List WordRange :=
  if longerAt d text i = [] then
    if s.maxIdx ≤ i then [⟨begin_ + i, begin_ + i⟩] else []
  else rangesAt begin_ i (longerAt d text i)

/--
One round: what it lists, the length of the last word, and how far the words reach.  A
rune that is not known reaches as far as a word of the last length.
-/
theorem listAt_eq (hi : i < text.length) (begin_ : Nat) (s : FullState) :
    (listAt d text begin_ s i).res = s.res ++ addedAt d text begin_ s i ∧
      (listAt d text begin_ s i).wordLen =
        ((longerAt d text i).getLast?.map fun next => next.1 + 1 - i).getD
          (lengthAt d text s i) ∧
      forall p, p < (listAt d text begin_ s i).maxIdx ↔
        p < s.maxIdx ∨ p < i + lengthAt d text s i ∨
          exists next, next ∈ longerAt d text i ∧ p ≤ next.1 := by
  have hrest := foldl_longer begin_ i
    ((i, d.Find (wordAt text i i)) :: longerAt d text i).length (longerAt d text i)
    (fun next hnext => ⟨(mem_longerAt hnext).1, (mem_longerAt hnext).2.2⟩)
    (fullStep begin_ i ((i, d.Find (wordAt text i i)) :: longerAt d text i).length s
      (i, d.Find (wordAt text i i)))
  unfold listAt
  dsimp only
  rw [List.foldl_cons, hrest.1, hrest.2.1]
  refine ⟨?_, ?_, fun p => ?_⟩
  · rw [fullStep_self hi]
    unfold addedAt
    by_cases hnil : longerAt d text i = []
    · have hsize : ((i, d.Find (wordAt text i i)) ::
          ([] : List (Nat × Option (DictUnit W)))).length = 1 :=
        rfl
      rw [hnil, if_pos rfl, rangesAt, List.map_nil, List.append_nil]
      simp only [hsize, true_and]
      split
      · rfl
      · exact (List.append_nil _).symm
    · have hsize : ((i, d.Find (wordAt text i i)) :: longerAt d text i).length ≠ 1 := by
        rw [List.length_cons]
        have hpos := List.length_pos_iff.mpr hnil
        omega
      rw [if_neg hnil]
      dsimp only
      rw [if_neg fun h => hsize h.1]
  · rw [fullStep_self hi]
  · rw [hrest.2.2, fullStep_self hi, ← or_assoc]
    dsimp only
    rw [lt_max_iff, or_comm (a := p < s.maxIdx)]

end Rounds

/-!
## The whole range
-/

section Run

variable (d : DictTrie W) (text : List RuneStr) (begin_ : Nat)

/-- The variables before position `k`. -/
def upTo (k : Nat) : FullState :=
  (List.range k).foldl (listAt d text begin_) ⟨0, 0, []⟩

/-- The length of the last word that starts before position `k`. -/
def lastLength : Nat -> Nat
  | 0 => 0
  | k + 1 =>
      match (longerAt d text k).getLast? with
      | some next => next.1 + 1 - k
      | none => if d.Find (wordAt text k k) = none then lastLength k else 1

theorem upTo_succ (k : Nat) :
    upTo d text begin_ (k + 1) = listAt d text begin_ (upTo d text begin_ k) k := by
  rw [upTo, List.range_succ, List.foldl_append]
  rfl

variable {d text begin_}

theorem upTo_wordLen {k : Nat} (hk : k ≤ text.length) :
    (upTo d text begin_ k).wordLen = lastLength d text k := by
  induction k with
  | zero =>
      rfl
  | succ k ih =>
      rw [upTo_succ, (listAt_eq hk begin_ _).2.1, lastLength, lengthAt,
        ih (Nat.le_of_succ_le hk)]
      cases (longerAt d text k).getLast? with
      | none =>
          rfl
      | some next =>
          rfl

theorem lt_upTo_maxIdx {k : Nat} (hk : k ≤ text.length) (p : Nat) :
    p < (upTo d text begin_ k).maxIdx ↔
      exists i, i < k ∧ (p < i + lengthAt d text (upTo d text begin_ i) i ∨
        exists next, next ∈ longerAt d text i ∧ p ≤ next.1) := by
  induction k with
  | zero =>
      constructor
      · intro h
        exact absurd h (Nat.not_lt_zero p)
      · rintro ⟨i, hi, -⟩
        exact absurd hi (Nat.not_lt_zero i)
  | succ k ih =>
      rw [upTo_succ, (listAt_eq hk begin_ _).2.2, ih (Nat.le_of_succ_le hk)]
      constructor
      · rintro (⟨i, hi, h⟩ | h)
        · exact ⟨i, Nat.lt_succ_of_lt hi, h⟩
        · exact ⟨k, Nat.lt_succ_self k, h⟩
      · rintro ⟨i, hi, h⟩
        rcases Nat.lt_succ_iff_lt_or_eq.mp hi with hlt | rfl
        · exact Or.inl ⟨i, hlt, h⟩
        · exact Or.inr h

theorem upTo_res {k : Nat} (hk : k ≤ text.length) :
    (upTo d text begin_ k).res =
      (List.range k).flatMap fun i => addedAt d text begin_ (upTo d text begin_ i) i := by
  induction k with
  | zero =>
      rfl
  | succ k ih =>
      rw [upTo_succ, (listAt_eq hk begin_ _).1, ih (Nat.le_of_succ_le hk), List.range_succ,
        List.flatMap_append, List.flatMap_singleton]

theorem mem_addedAt {s : FullState} {i : Nat} {wr : WordRange}
    (h : wr ∈ addedAt d text begin_ s i) : wr.left = begin_ + i := by
  unfold addedAt rangesAt at h
  split at h
  · split at h
    · rw [List.mem_singleton.mp h]
    · cases h
  · rcases List.mem_map.mp h with ⟨next, -, rfl⟩
    rfl

theorem mem_upTo {k : Nat} (hk : k ≤ text.length) {wr : WordRange} :
    wr ∈ (upTo d text begin_ k).res ↔
      exists i, i < k ∧ wr ∈ addedAt d text begin_ (upTo d text begin_ i) i := by
  rw [upTo_res hk, List.mem_flatMap]
  refine exists_congr fun i => ?_
  rw [List.mem_range]

theorem pairwise_longerAt (d : DictTrie W) (text : List RuneStr) (i : Nat) :
    (longerAt d text i).Pairwise fun m n => m.1 < n.1 := by
  unfold longerAt
  refine List.Pairwise.filterMap _ ?_ List.pairwise_lt_range'
  intro j k hlt m hm n hn
  rcases Option.map_eq_some_iff.mp hm with ⟨u, -, rfl⟩
  rcases Option.map_eq_some_iff.mp hn with ⟨v, -, rfl⟩
  exact hlt

theorem pairwise_addedAt (s : FullState) (i : Nat) :
    (addedAt d text begin_ s i).Pairwise fun v w => v.right < w.right := by
  unfold addedAt rangesAt
  split
  · split
    · exact List.pairwise_singleton _ _
    · exact List.Pairwise.nil
  · refine List.Pairwise.map _ ?_ (pairwise_longerAt d text i)
    intro m n hlt
    exact Nat.add_lt_add_left hlt begin_

/-- The order in which words are listed: by their first runes, then by their last ones. -/
def Before (v w : WordRange) : Prop :=
  v.left < w.left ∨ v.left = w.left ∧ v.right < w.right

theorem pairwise_upTo {k : Nat} (hk : k ≤ text.length) :
    (upTo d text begin_ k).res.Pairwise Before := by
  rw [upTo_res hk, List.pairwise_flatMap]
  constructor
  · intro i _
    refine (pairwise_addedAt _ i).imp_of_mem ?_
    intro v w hv hw hlt
    exact Or.inr ⟨(mem_addedAt hv).trans (mem_addedAt hw).symm, hlt⟩
  · refine List.pairwise_lt_range.imp ?_
    intro i j hij v hv w hw
    left
    rw [mem_addedAt hv, mem_addedAt hw]
    omega

theorem mem_rangesAt {i : Nat} {wr : WordRange} :
    wr ∈ rangesAt begin_ i (longerAt d text i) ↔
      exists j, i < j ∧ j < text.length ∧ j - i + 1 ≤ MAX_WORD_LENGTH ∧
        d.Find (wordAt text i j) ≠ none ∧ wr = ⟨begin_ + i, begin_ + j⟩ := by
  unfold rangesAt longerAt
  constructor
  · intro h
    rcases List.mem_map.mp h with ⟨next, hnext, rfl⟩
    rcases List.mem_filterMap.mp hnext with ⟨j, hj, hfind⟩
    rcases Option.map_eq_some_iff.mp hfind with ⟨u, hu, rfl⟩
    rw [List.mem_range'_1] at hj
    exact ⟨j, by omega, by omega, by omega, by rw [hu]; exact Option.some_ne_none u, rfl⟩
  · rintro ⟨j, hij, hj, hlen, hfound, rfl⟩
    rcases Option.ne_none_iff_exists'.mp hfound with ⟨u, hu⟩
    refine List.mem_map.mpr ⟨(j, some u), List.mem_filterMap.mpr ⟨j, ?_, ?_⟩, rfl⟩
    · rw [List.mem_range'_1]
      omega
    · rw [hu]
      rfl

theorem mem_upTo_longer {wr : WordRange} (hlr : wr.left ≠ wr.right) :
    wr ∈ (upTo d text begin_ text.length).res ↔
      exists i j, i < j ∧ j < text.length ∧ j - i + 1 ≤ MAX_WORD_LENGTH ∧
        d.Find (wordAt text i j) ≠ none ∧ wr = ⟨begin_ + i, begin_ + j⟩ := by
  rw [mem_upTo (Nat.le_refl _)]
  constructor
  · rintro ⟨i, hi, hadded⟩
    unfold addedAt at hadded
    split at hadded
    · split at hadded
      · rw [List.mem_singleton.mp hadded] at hlr
        exact absurd rfl hlr
      · cases hadded
    · exact ⟨i, mem_rangesAt.mp hadded⟩
  · rintro ⟨i, j, hij⟩
    have hmem := mem_rangesAt.mpr ⟨j, hij⟩
    refine ⟨i, hij.1.trans hij.2.1, ?_⟩
    unfold addedAt
    rw [if_neg]
    · exact hmem
    · intro hnil
      rw [hnil] at hmem
      cases hmem

/--
A position lies in a word that is listed exactly when it lies in a longer word of the
dictionary, or no unknown rune before it reaches over it with the length of a word that
is behind.
-/
theorem covered_iff {p : Nat} (hp : p < text.length) :
    (exists wr, wr ∈ (upTo d text begin_ text.length).res ∧
        wr.left ≤ begin_ + p ∧ begin_ + p ≤ wr.right) ↔
      (exists i j, i < j ∧ j < text.length ∧ i ≤ p ∧ p ≤ j ∧ j - i + 1 ≤ MAX_WORD_LENGTH ∧
          d.Find (wordAt text i j) ≠ none) ∨
        forall q, q < p -> d.Find (wordAt text q q) = none ->
          q + lastLength d text q ≤ p := by
  have hlisted := @mem_upTo_longer W d text begin_
  constructor
  · rintro ⟨wr, hwr, hleft, hright⟩
    by_cases hlr : wr.left = wr.right
    · right
      intro q hqp hunknown
      by_contra hreach
      rcases (mem_upTo (Nat.le_refl _)).mp hwr with ⟨i, hi, hadded⟩
      have hip : i = p := by
        have hstart := mem_addedAt hadded
        omega
      subst hip
      have hmax : i < (upTo d text begin_ i).maxIdx := by
        refine (lt_upTo_maxIdx hi.le i).mpr ⟨q, hqp, Or.inl ?_⟩
        rw [lengthAt, if_pos hunknown, upTo_wordLen (hqp.trans hi).le]
        omega
      unfold addedAt at hadded
      split at hadded
      · rw [if_neg (by omega)] at hadded
        cases hadded
      · rcases mem_rangesAt.mp hadded with ⟨j, hij, -, -, -, rfl⟩
        dsimp only at hlr
        omega
    · left
      rcases (hlisted hlr).mp hwr with ⟨i, j, hij, hj, hlen, hfound, rfl⟩
      dsimp only at hleft hright
      exact ⟨i, j, hij, hj, by omega, by omega, hlen, hfound⟩
  · intro h
    by_cases hinside : exists i j, i < j ∧ j < text.length ∧ i ≤ p ∧ p ≤ j ∧
        j - i + 1 ≤ MAX_WORD_LENGTH ∧ d.Find (wordAt text i j) ≠ none
    · rcases hinside with ⟨i, j, hij, hj, hip, hpj, hlen, hfound⟩
      refine ⟨⟨begin_ + i, begin_ + j⟩, ?_, by dsimp only; omega, by dsimp only; omega⟩
      exact (hlisted (by dsimp only; omega)).mpr ⟨i, j, hij, hj, hlen, hfound, rfl⟩
    · have hreach := h.resolve_left hinside
      have hfree : forall i next, next ∈ longerAt d text i -> i ≤ p -> ¬ p ≤ next.1 := by
        intro i next hnext hip hpn
        have hmem : (⟨begin_ + i, begin_ + next.1⟩ : WordRange) ∈
            rangesAt begin_ i (longerAt d text i) := List.mem_map_of_mem hnext
        rcases mem_rangesAt.mp hmem with ⟨j, hij, hj, hlen, hfound, heq⟩
        rw [Span.mk.injEq] at heq
        exact hinside ⟨i, j, hij, hj, hip, by omega, hlen, hfound⟩
      have hnil : longerAt d text p = [] := by
        refine List.eq_nil_iff_forall_not_mem.mpr fun next hnext => ?_
        exact hfree p next hnext (Nat.le_refl p) (mem_longerAt hnext).1.le
      have hmax : (upTo d text begin_ p).maxIdx ≤ p := by
        refine Nat.not_lt.mp fun hlt => ?_
        rcases (lt_upTo_maxIdx hp.le p).mp hlt with ⟨i, hip, hself | ⟨next, hnext, hpn⟩⟩
        · unfold lengthAt at hself
          split at hself
          · rename_i hunknown
            rw [upTo_wordLen (hip.trans hp).le] at hself
            have hle := hreach i hip hunknown
            omega
          · omega
        · exact hfree i next hnext hip.le hpn
      refine ⟨⟨begin_ + p, begin_ + p⟩, (mem_upTo (Nat.le_refl _)).mpr ⟨p, hp, ?_⟩,
        Nat.le_refl _, Nat.le_refl _⟩
      unfold addedAt
      rw [if_pos hnil, if_pos hmax]
      exact List.mem_singleton_self _

end Run

/-- A longer word of the dictionary in a range. -/
structure LongerWord (d : DictTrie W) (runes : List RuneStr) (range : Range)
    (wr : WordRange) : Prop where
  left : range.begin_ ≤ wr.left
  longer : wr.left < wr.right
  right : wr.right < range.end_
  length : WordRange.Length wr ≤ MAX_WORD_LENGTH
  known : d.Find (wordAt runes wr.left wr.right) ≠ none

theorem longerWord_iff (d : DictTrie W) {runes : List RuneStr} {range : Range}
    (hle : range.end_ ≤ runes.length) (wr : WordRange) :
    LongerWord d runes range wr ↔
      exists i j, i < j ∧ j < (slice runes range.begin_ range.end_).length ∧
        j - i + 1 ≤ MAX_WORD_LENGTH ∧
        d.Find (wordAt (slice runes range.begin_ range.end_) i j) ≠ none ∧
        wr = ⟨range.begin_ + i, range.begin_ + j⟩ := by
  rw [length_slice runes hle]
  constructor
  · intro h
    have hleft := h.left
    have hlonger := h.longer
    have hright := h.right
    have hlength := h.length
    unfold WordRange.Length at hlength
    have hknown := h.known
    refine ⟨wr.left - range.begin_, wr.right - range.begin_, by omega, by omega, by omega,
      ?_, ?_⟩
    · rw [wordAt_slice (by omega), Nat.add_sub_cancel' hleft,
        Nat.add_sub_cancel' (hleft.trans hlonger.le)]
      exact hknown
    · rw [Nat.add_sub_cancel' hleft, Nat.add_sub_cancel' (hleft.trans hlonger.le)]
  · rintro ⟨i, j, hij, hj, hlen, hfound, rfl⟩
    rw [wordAt_slice (by omega)] at hfound
    refine ⟨Nat.le_add_right _ _, Nat.add_lt_add_left hij _, ?_, ?_, hfound⟩
    · dsimp only
      omega
    · unfold WordRange.Length
      dsimp only
      omega

namespace FullSegment

variable [Zero W] (f : FullSegment W) (runes : List RuneStr) (range : Range)

theorem cutRange_upTo :
    f.cutRange runes range =
      (upTo f.dictTrie_ (slice runes range.begin_ range.end_) range.begin_
        (slice runes range.begin_ range.end_).length).res :=
  f.cutRange_eq runes range

theorem mem_cutRange (hle : range.end_ ≤ runes.length) {wr : WordRange}
    (h : wr ∈ f.cutRange runes range) :
    (range.begin_ ≤ wr.left ∧ wr.left ≤ wr.right ∧ wr.right < range.end_) ∧
      (wr.left < wr.right -> LongerWord f.dictTrie_ runes range wr) := by
  rw [cutRange_upTo] at h
  have hlength := length_slice runes (i := range.begin_) hle
  by_cases hlr : wr.left = wr.right
  · rcases (mem_upTo (Nat.le_refl _)).mp h with ⟨i, hi, hadded⟩
    have hleft := mem_addedAt hadded
    exact ⟨by omega, fun hlt => absurd hlr (Nat.ne_of_lt hlt)⟩
  · have hlonger := (longerWord_iff f.dictTrie_ hle wr).mpr ((mem_upTo_longer hlr).mp h)
    exact ⟨⟨hlonger.left, hlonger.longer.le, hlonger.right⟩, fun _ => hlonger⟩

theorem cutRange_keeps : Keeps runes.length (f.cutRange runes) := by
  intro range _ hle wr hwr
  exact (f.mem_cutRange runes range hle hwr).1

/--
The words of a range are listed by their first runes and then by their last ones, so
none is listed twice; the longer ones are all longer words that the dictionary has.
-/
theorem lists_all_words (hle : range.end_ ≤ runes.length) :
    (f.cutRange runes range).Pairwise Before ∧
      (forall wr, wr ∈ f.cutRange runes range ->
        range.begin_ ≤ wr.left ∧ wr.left ≤ wr.right ∧ wr.right < range.end_) ∧
      forall wr, wr.left < wr.right ->
        (wr ∈ f.cutRange runes range ↔ LongerWord f.dictTrie_ runes range wr) := by
  refine ⟨?_, ?_, ?_⟩
  · rw [cutRange_upTo]
    exact pairwise_upTo (Nat.le_refl _)
  · intro wr hwr
    exact (f.mem_cutRange runes range hle hwr).1
  · intro wr hlr
    rw [cutRange_upTo, mem_upTo_longer (Nat.ne_of_lt hlr),
      longerWord_iff f.dictTrie_ hle]

theorem lists_all_words_chinese :
    (FullSegment.cutRange ⟨[], chineseWords⟩ chinese ⟨0, 3⟩).Pairwise Before ∧
      (forall wr, wr ∈ FullSegment.cutRange ⟨[], chineseWords⟩ chinese ⟨0, 3⟩ ->
        0 ≤ wr.left ∧ wr.left ≤ wr.right ∧ wr.right < 3) ∧
      forall wr, wr.left < wr.right ->
        (wr ∈ FullSegment.cutRange ⟨[], chineseWords⟩ chinese ⟨0, 3⟩ ↔
          LongerWord chineseWords chinese ⟨0, 3⟩ wr) :=
  lists_all_words ⟨[], chineseWords⟩ chinese ⟨0, 3⟩ (by decide)

/--
The runes that are lost: those outside of all longer words over which an unknown rune
reaches, because it is given the length of the last word before it.
-/
theorem cutRange_covers_iff (hle : range.end_ ≤ runes.length) (p : Nat)
    (hbegin : range.begin_ ≤ p) (hend : p < range.end_) :
    (exists wr, wr ∈ f.cutRange runes range ∧ wr.left ≤ p ∧ p ≤ wr.right) ↔
      (exists wr, LongerWord f.dictTrie_ runes range wr ∧ wr.left ≤ p ∧ p ≤ wr.right) ∨
        forall q, range.begin_ ≤ q -> q < p ->
          f.dictTrie_.Find (wordAt runes q q) = none ->
          q + lastLength f.dictTrie_ (slice runes range.begin_ range.end_)
            (q - range.begin_) ≤ p := by
  have hlength := length_slice runes (i := range.begin_) hle
  obtain ⟨k, rfl⟩ := Nat.exists_eq_add_of_le hbegin
  have hk : k < (slice runes range.begin_ range.end_).length := by
    omega
  rw [cutRange_upTo, covered_iff hk]
  refine or_congr ?_ ?_
  · constructor
    · rintro ⟨i, j, hij, hj, hik, hkj, hlen, hfound⟩
      refine ⟨⟨range.begin_ + i, range.begin_ + j⟩, ?_, Nat.add_le_add_left hik _,
        Nat.add_le_add_left hkj _⟩
      exact (longerWord_iff f.dictTrie_ hle _).mpr
        ⟨i, j, hij, hj, hlen, hfound, rfl⟩
    · rintro ⟨wr, hlonger, hleft, hright⟩
      rcases (longerWord_iff f.dictTrie_ hle wr).mp hlonger with
        ⟨i, j, hij, hj, hlen, hfound, rfl⟩
      dsimp only at hleft hright
      exact ⟨i, j, hij, hj, by omega, by omega, hlen, hfound⟩
  · constructor
    · intro h q hq hqk hunknown
      obtain ⟨m, rfl⟩ := Nat.exists_eq_add_of_le hq
      rw [← wordAt_slice (by omega)] at hunknown
      have hreach := h m (by omega) hunknown
      rw [Nat.add_sub_cancel_left]
      omega
    · intro h m hmk hunknown
      rw [wordAt_slice (by omega)] at hunknown
      have hreach := h (range.begin_ + m) (Nat.le_add_right _ _) (by omega) hunknown
      rw [Nat.add_sub_cancel_left] at hreach
      omega

/-- 中国人 without 国人: 人 is not listed, because 国 reaches over it. -/
theorem cutRange_covers_iff_lost :
    ¬ exists wr, wr ∈ FullSegment.cutRange ⟨[], chinaWord⟩ chinese ⟨0, 3⟩ ∧
      wr.left ≤ 2 ∧ 2 ≤ wr.right := by
  rw [cutRange_covers_iff ⟨[], chinaWord⟩ chinese ⟨0, 3⟩ (by decide) 2
    (by decide) (by decide)]
  rintro (⟨wr, hlonger, hleft, hright⟩ | hreach)
  · have hlt := hlonger.longer
    have hend := hlonger.right
    have hknown := hlonger.known
    rcases wr with ⟨l, r⟩
    dsimp only at hlt hend hknown hleft hright
    have hr : r = 2 := by
      omega
    subst hr
    interval_cases l
    · exact hknown (by decide)
    · exact hknown (by decide)
  · exact absurd (hreach 1 (by decide) (by decide) (by decide)) (by decide)

end FullSegment

end Cppjieba
end VoiceTts
