import VoiceTts.Lib.BestPath
import VoiceTts.Segmenter.Dictionary

/-!
# The most probable words

`MPSegment` takes a range apart into words of the dictionary and single runes.  From
the last position to the first it notes the best total of weights that can be
reached from there and the word to begin with; the words are then read off from
the first position on.
-/

namespace VoiceTts
namespace Cppjieba

open Tiling PreFilter

variable {W : Type} [Double W]

structure MPSegment (W : Type) where
  symbols_ : List Rune
  dictTrie_ : DictTrie W

/-- The total noted for a position; behind the last one it is 0. -/
def valueAt (dags : List (Dag W)) (k : Nat) : W :=
  match dags[k]? with
  | none => 0
  | some dag => 0 + dag.weight

/-- The weight of a word, or that of an unknown rune. -/
def nextWeight (d : DictTrie W) : Option (DictUnit W) -> W
  | some p => p.weight
  | none => d.min_weight_

/-- The total when the next word is taken. -/
def nextValue (d : DictTrie W) (dags : List (Dag W)) (next : Nat × Option (DictUnit W)) :
    W :=
  valueAt dags (next.1 + 1) + nextWeight d next.2

def relax (d : DictTrie W) (dags : List (Dag W)) (dag : Dag W)
    (next : Nat × Option (DictUnit W)) : Dag W :=
  let val := nextValue d dags next
  if dag.weight < val then { dag with pInfo := next.2, weight := val } else dag

def calcAt (d : DictTrie W) (dags : List (Dag W)) (i : Nat) : List (Dag W) :=
  match dags[i]? with
  | none => dags
  | some dag =>
      dags.set i
        (dag.nexts.foldl (relax d dags) { dag with pInfo := none, weight := MIN_DOUBLE })

def CalcDP (d : DictTrie W) (dags : List (Dag W)) : List (Dag W) :=
  (List.range dags.length).reverse.foldl (calcAt d) dags

/-- The loop of `CutByDag` from position `i` on; `fuel` bounds its rounds. -/
def CutByDag (begin_ : Nat) (dags : List (Dag W)) : Nat -> Nat -> List WordRange
  | 0, _ => []
  | fuel + 1, i =>
      match dags[i]? with
      | none => []
      | some dag =>
          match dag.pInfo with
          | some p =>
              ⟨begin_ + i, begin_ + i + p.word.length - 1⟩ ::
                CutByDag begin_ dags fuel (i + p.word.length)
          | none => ⟨begin_ + i, begin_ + i⟩ :: CutByDag begin_ dags fuel (i + 1)

namespace MPSegment

def cutRange (m : MPSegment W) (max_word_len : Nat) (runes : List RuneStr)
    (range : Range) : List WordRange :=
  let dags := CalcDP m.dictTrie_
    (m.dictTrie_.FindAll (slice runes range.begin_ range.end_) max_word_len)
  CutByDag range.begin_ dags dags.length 0

def Cut (m : MPSegment W) (sentence : CString) (max_word_len : Nat) : List Word :=
  cutSentence m.symbols_ (m.cutRange max_word_len) sentence

end MPSegment

/-!
## What the loops compute
-/

/-- The entry of a position is the best of its words, given the entries behind it. -/
def Solved (d : DictTrie W) (dags : List (Dag W)) (i : Nat) : Prop :=
  forall dag, dags[i]? = some dag ->
    dag.pInfo = (pick (nextValue d dags) MIN_DOUBLE dag.nexts).1.bind Prod.snd ∧
      dag.weight = (pick (nextValue d dags) MIN_DOUBLE dag.nexts).2

/-- Words lead forward. -/
def Forward (dags : List (Dag W)) : Prop :=
  forall (i : Nat) dag, dags[i]? = some dag -> forall next, next ∈ dag.nexts -> i ≤ next.1

section Loops

variable {d : DictTrie W} {dags dags' : List (Dag W)}

theorem foldl_relax (nexts : List (Nat × Option (DictUnit W))) (dag : Dag W)
    (best : Option (Nat × Option (DictUnit W)) × W)
    (hinfo : dag.pInfo = best.1.bind Prod.snd) (hweight : dag.weight = best.2) :
    nexts.foldl (relax d dags) dag =
      { dag with
        pInfo := (nexts.foldl (pickStep (nextValue d dags)) best).1.bind Prod.snd
        weight := (nexts.foldl (pickStep (nextValue d dags)) best).2 } := by
  induction nexts generalizing dag best with
  | nil =>
      rw [List.foldl_nil, List.foldl_nil, ← hinfo, ← hweight]
  | cons next nexts ih =>
      rw [List.foldl_cons, List.foldl_cons, relax, pickStep, hweight]
      by_cases hlt : best.2 < nextValue d dags next
      · rw [if_pos hlt, if_pos hlt]
        exact ih _ (some next, nextValue d dags next) rfl rfl
      · rw [if_neg hlt, if_neg hlt]
        exact ih dag best hinfo hweight

theorem calcAt_of_some {i : Nat} {dag : Dag W} (h : dags[i]? = some dag) :
    calcAt d dags i = dags.set i
      { dag with
        pInfo := (pick (nextValue d dags) MIN_DOUBLE dag.nexts).1.bind Prod.snd
        weight := (pick (nextValue d dags) MIN_DOUBLE dag.nexts).2 } := by
  unfold calcAt
  rw [h]
  dsimp only
  rw [foldl_relax dag.nexts { dag with pInfo := none, weight := MIN_DOUBLE }
    (none, MIN_DOUBLE) rfl rfl]
  rfl

theorem calcAt_of_none {i : Nat} (h : dags[i]? = none) : calcAt d dags i = dags := by
  unfold calcAt
  rw [h]

theorem getElem?_calcAt_of_ne {i k : Nat} (h : k ≠ i) : (calcAt d dags i)[k]? = dags[k]? := by
  cases hdag : dags[i]? with
  | none =>
      rw [calcAt_of_none hdag]
  | some dag =>
      rw [calcAt_of_some hdag, List.getElem?_set_ne h.symm]

theorem nexts_calcAt (i k : Nat) :
    ((calcAt d dags i)[k]?).map Dag.nexts = (dags[k]?).map Dag.nexts := by
  by_cases hk : k = i
  · subst hk
    cases hdag : dags[k]? with
    | none =>
        rw [calcAt_of_none hdag, hdag]
    | some dag =>
        have hlt := (List.getElem?_eq_some_iff.mp hdag).1
        rw [calcAt_of_some hdag, List.getElem?_set_self hlt]
        rfl
  · rw [getElem?_calcAt_of_ne hk]

/-- The equation of a position only reads the entries behind it. -/
theorem Solved.congr {i : Nat} (h : Solved d dags i) (hforward : Forward dags)
    (hsame : forall k, i ≤ k -> dags'[k]? = dags[k]?) : Solved d dags' i := by
  intro dag hdag
  rw [hsame i (Nat.le_refl i)] at hdag
  have hval : forall next, next ∈ dag.nexts ->
      nextValue d dags' next = nextValue d dags next := by
    intro next hnext
    have hle := hforward i dag hdag next hnext
    unfold nextValue valueAt
    rw [hsame (next.1 + 1) (by omega)]
  rw [pick_congr hval]
  exact h dag hdag

theorem solved_calcAt {i : Nat} (hforward : Forward dags) : Solved d (calcAt d dags i) i := by
  intro dag hdag
  cases hold : dags[i]? with
  | none =>
      rw [calcAt_of_none hold, hold] at hdag
      cases hdag
  | some old =>
      have hlt := (List.getElem?_eq_some_iff.mp hold).1
      have hval : forall next, next ∈ old.nexts ->
          nextValue d (calcAt d dags i) next = nextValue d dags next := by
        intro next hnext
        have hle := hforward i old hold next hnext
        unfold nextValue valueAt
        rw [getElem?_calcAt_of_ne (by omega)]
      rw [calcAt_of_some hold, List.getElem?_set_self hlt] at hdag
      cases hdag
      rw [pick_congr hval]
      exact ⟨rfl, rfl⟩

theorem Forward.calcAt (h : Forward dags) (i : Nat) : Forward (calcAt d dags i) := by
  intro k dag hdag
  have hnexts := @nexts_calcAt W _ d dags i k
  rw [hdag, Option.map_some, eq_comm, Option.map_eq_some_iff] at hnexts
  rcases hnexts with ⟨old, hold, heq⟩
  rw [← heq]
  exact h k old hold

/-- From position `k` down to the first one every entry gets its equation. -/
theorem foldl_calcAt (k : Nat) (hforward : Forward dags)
    (hsolved : forall i, k ≤ i -> Solved d dags i) :
    (forall i, Solved d ((List.range k).reverse.foldl (calcAt d) dags) i) ∧
      forall i : Nat, (((List.range k).reverse.foldl (calcAt d) dags)[i]?).map Dag.nexts =
        (dags[i]?).map Dag.nexts := by
  induction k generalizing dags with
  | zero =>
      exact ⟨fun i => hsolved i (Nat.zero_le i), fun _ => rfl⟩
  | succ k ih =>
      rw [List.range_succ, List.reverse_append, List.reverse_singleton,
        List.singleton_append, List.foldl_cons]
      have hrest := @ih (calcAt d dags k) (hforward.calcAt k) (by
        intro i hki
        rcases Nat.lt_or_eq_of_le hki with hlt | rfl
        · exact (hsolved i hlt).congr hforward fun l hl => getElem?_calcAt_of_ne (by omega)
        · exact solved_calcAt hforward)
      exact ⟨hrest.1, fun i => (hrest.2 i).trans (nexts_calcAt k i)⟩

theorem CalcDP_solved (hforward : Forward dags) :
    (forall i, Solved d (CalcDP d dags) i) ∧
      forall i : Nat, ((CalcDP d dags)[i]?).map Dag.nexts = (dags[i]?).map Dag.nexts := by
  refine foldl_calcAt dags.length hforward ?_
  intro i hi dag hdag
  rw [List.getElem?_eq_none hi] at hdag
  cases hdag

end Loops

/-!
## Words and totals
-/

/-- A single rune, or a word of the dictionary that is not too long. -/
def Admissible (d : DictTrie W) (max_word_len : Nat) (runes : List RuneStr)
    (wr : WordRange) : Prop :=
  wr.left = wr.right ∨
    wr.right - wr.left + 1 ≤ max_word_len ∧ d.Find (wordAt runes wr.left wr.right) ≠ none

/-- What the dictionary has for a range. -/
def unitAt (d : DictTrie W) (runes : List RuneStr) (wr : WordRange) :
    Option (DictUnit W) :=
  d.Find (wordAt runes wr.left wr.right)

/--
The total of a list of words, added up from the last word to the first one; nothing
counts less than `MIN_DOUBLE`.
-/
def total (d : DictTrie W) (runes : List RuneStr) (wrs : List WordRange) : W :=
  wrs.foldr (fun wr w => max MIN_DOUBLE (w + nextWeight d (unitAt d runes wr))) 0

/-- The ways to cut the runes up to `end_`: one edge for each word. -/
def wordNetwork (d : DictTrie W) (max_word_len : Nat) (runes : List RuneStr)
    (range : Range) : Network Nat WordRange W where
  edge := fun a wr =>
    range.begin_ ≤ a ∧ wr.left = a ∧ wr.left ≤ wr.right ∧ wr.right < range.end_ ∧
      Admissible d max_word_len runes wr
  target := fun wr => wr.right + 1
  gain := fun wr w => w + nextWeight d (unitAt d runes wr)
  floor := MIN_DOUBLE
  mono := fun _ _ _ h => Double.add_le_add _ _ _ h

theorem route_of_tiles {d : DictTrie W} {max_word_len : Nat} {runes : List RuneStr}
    {range : Range} {i : Nat} {wrs : List WordRange} (hi : range.begin_ ≤ i)
    (h : Tiles i wrs range.end_)
    (hwrs : forall wr, wr ∈ wrs -> Admissible d max_word_len runes wr) :
    (wordNetwork d max_word_len runes range).Route i wrs range.end_ := by
  generalize hend : range.end_ = e at h
  induction h with
  | nil i =>
      exact Network.Route.nil i
  | cons hir htail ih =>
      have hle := htail.le
      refine Network.Route.cons ?_
        (ih (by omega) (fun wr hmem => hwrs wr (List.mem_cons_of_mem _ hmem)) hend)
      exact ⟨hi, rfl, hir, by rw [hend]; exact hle, hwrs _ (List.mem_cons_self ..)⟩

theorem tiles_of_route {d : DictTrie W} {max_word_len : Nat} {runes : List RuneStr}
    {range : Range} {i j : Nat} {wrs : List WordRange}
    (h : (wordNetwork d max_word_len runes range).Route i wrs j) :
    Tiles i wrs j ∧ forall wr, wr ∈ wrs -> Admissible d max_word_len runes wr := by
  induction h with
  | nil i =>
      exact ⟨Tiles.nil i, fun wr hmem => absurd hmem List.not_mem_nil⟩
  | @cons a b wr wrs hedge _ ih =>
      rcases hedge with ⟨-, rfl, hlr, -, hadmissible⟩
      refine ⟨Tiles.cons hlr ih.1, ?_⟩
      intro wr' hmem
      rcases List.mem_cons.mp hmem with rfl | hmem
      · exact hadmissible
      · exact ih.2 wr' hmem

section Range

variable (d : DictTrie W) (max_word_len : Nat) (runes : List RuneStr) (range : Range)

/-- The entries of a range after `CalcDP`. -/
def dagsOf : List (Dag W) :=
  CalcDP d (d.FindAll (slice runes range.begin_ range.end_) max_word_len)

/-- The total noted for a position of the text. -/
def bestFrom (k : Nat) : W :=
  valueAt (dagsOf d max_word_len runes range) (k - range.begin_)

theorem forward_FindAll (text : List RuneStr) : Forward (d.FindAll text max_word_len) := by
  intro i dag hdag next hnext
  rw [DictTrie.FindAll, List.getElem?_map, Option.map_eq_some_iff] at hdag
  rcases hdag with ⟨k, hk, rfl⟩
  rcases List.getElem?_eq_some_iff.mp hk with ⟨hi, rfl⟩
  rw [List.length_range] at hi
  rw [List.getElem_range] at hnext
  rcases ((mem_nextsAt hi).mp hnext).2 with hsame | hlt
  · exact Nat.le_of_eq hsame.symm
  · exact Nat.le_of_lt hlt.1

theorem nexts_dagsOf (i : Nat) :
    ((dagsOf d max_word_len runes range)[i]?).map Dag.nexts =
      ((List.range (slice runes range.begin_ range.end_).length)[i]?).map
        (nextsAt d max_word_len (slice runes range.begin_ range.end_)) := by
  refine ((CalcDP_solved (forward_FindAll d max_word_len _)).2 i).trans ?_
  rw [DictTrie.FindAll, List.getElem?_map, Option.map_map]
  rfl

variable {d max_word_len runes range}

theorem dagsOf_get {i : Nat} (hle : range.end_ ≤ runes.length)
    (hi : range.begin_ + i < range.end_) :
    exists dag, (dagsOf d max_word_len runes range)[i]? = some dag ∧
      dag.nexts = nextsAt d max_word_len (slice runes range.begin_ range.end_) i := by
  have hnexts := nexts_dagsOf d max_word_len runes range i
  rw [length_slice runes hle, List.getElem?_range (by omega), Option.map_some,
    Option.map_eq_some_iff] at hnexts
  exact hnexts

theorem dagsOf_get_end (hle : range.end_ ≤ runes.length) :
    (dagsOf d max_word_len runes range)[range.end_ - range.begin_]? = none := by
  have hnexts := nexts_dagsOf d max_word_len runes range (range.end_ - range.begin_)
  rw [length_slice runes hle,
    List.getElem?_eq_none (Nat.le_of_eq List.length_range), Option.map_none,
    Option.map_eq_none_iff] at hnexts
  exact hnexts

theorem bestFrom_eq {i : Nat} {dag : Dag W}
    (hdag : (dagsOf d max_word_len runes range)[i]? = some dag) :
    bestFrom d max_word_len runes range (range.begin_ + i) =
      (pick (nextValue d (dagsOf d max_word_len runes range)) MIN_DOUBLE dag.nexts).2 := by
  have hsolved := (CalcDP_solved (forward_FindAll d max_word_len
    (slice runes range.begin_ range.end_))).1 i dag hdag
  unfold bestFrom valueAt
  rw [Nat.add_sub_cancel_left, hdag]
  dsimp only
  rw [Double.zero_add]
  exact hsolved.2

theorem mem_nextsAt_of_edge (hle : range.end_ ≤ runes.length) {i : Nat} {wr : WordRange}
    (h : (wordNetwork d max_word_len runes range).edge (range.begin_ + i) wr) :
    (wr.right - range.begin_, unitAt d runes wr) ∈
      nextsAt d max_word_len (slice runes range.begin_ range.end_) i := by
  rcases h with ⟨-, hleft, hlr, hright, hadmissible⟩
  have hlength := length_slice runes (i := range.begin_) hle
  have hpos : range.begin_ + (wr.right - range.begin_) = wr.right := by
    omega
  rw [mem_nextsAt (by omega), wordAt_slice (by omega), hpos, ← hleft]
  refine ⟨rfl, ?_⟩
  rcases hadmissible with hsame | ⟨hlen, hfound⟩
  · exact Or.inl (by omega)
  · by_cases hone : wr.left = wr.right
    · exact Or.inl (by omega)
    · exact Or.inr ⟨by omega, by omega, by omega, hfound⟩

theorem edge_of_mem_nextsAt (hle : range.end_ ≤ runes.length) {i j : Nat}
    {p : Option (DictUnit W)} (hi : range.begin_ + i < range.end_)
    (h : (j, p) ∈ nextsAt d max_word_len (slice runes range.begin_ range.end_) i) :
    (wordNetwork d max_word_len runes range).edge (range.begin_ + i)
        ⟨range.begin_ + i, range.begin_ + j⟩ ∧
      p = unitAt d runes ⟨range.begin_ + i, range.begin_ + j⟩ := by
  have hlength := length_slice runes (i := range.begin_) hle
  rcases (mem_nextsAt (by omega)).mp h with ⟨hp, hj⟩
  have hlt : range.begin_ + j < range.end_ := by
    omega
  rw [wordAt_slice hlt] at hp
  refine ⟨⟨by omega, rfl, ?_, hlt, ?_⟩, hp⟩
  · dsimp only
    omega
  · rcases hj with rfl | ⟨hij, -, hlen, hfound⟩
    · exact Or.inl rfl
    · refine Or.inr ⟨?_, hp ▸ hfound⟩
      dsimp only
      omega

theorem nextValue_dagsOf (j : Nat) (p : Option (DictUnit W)) :
    nextValue d (dagsOf d max_word_len runes range) (j, p) =
      bestFrom d max_word_len runes range (range.begin_ + j + 1) + nextWeight d p := by
  unfold nextValue bestFrom
  rw [Nat.add_assoc, Nat.add_sub_cancel_left]

theorem carry_eq {i j : Nat} :
    (wordNetwork d max_word_len runes range).carry ⟨range.begin_ + i, range.begin_ + j⟩
        (bestFrom d max_word_len runes range (range.begin_ + j + 1)) =
      max MIN_DOUBLE (nextValue d (dagsOf d max_word_len runes range)
        (j, unitAt d runes ⟨range.begin_ + i, range.begin_ + j⟩)) := by
  rw [nextValue_dagsOf]
  rfl

/-- No word leads to more than what is noted for the position where it starts. -/
theorem bounded_bestFrom (hle : range.end_ ≤ runes.length) (a : Nat) :
    (wordNetwork d max_word_len runes range).Bounded
      (bestFrom d max_word_len runes range) a := by
  rintro ⟨l, r⟩ hedge
  obtain ⟨hbegin, rfl, hlr, hright, -⟩ := id hedge
  obtain ⟨i, rfl⟩ := Nat.exists_eq_add_of_le hbegin
  obtain ⟨j, rfl⟩ := Nat.exists_eq_add_of_le (hbegin.trans hlr)
  have hget : exists dag, (dagsOf d max_word_len runes range)[i]? = some dag ∧
      dag.nexts = nextsAt d max_word_len (slice runes range.begin_ range.end_) i :=
    dagsOf_get hle (Nat.lt_of_le_of_lt hlr hright)
  rcases hget with ⟨dag, hdag, hnexts⟩
  have hmem := mem_nextsAt_of_edge hle hedge
  rw [← hnexts] at hmem
  dsimp only at hmem
  rw [Nat.add_sub_cancel_left] at hmem
  refine (carry_eq (d := d)).trans_le ?_
  rw [bestFrom_eq hdag]
  exact le_pick _ _ hmem

/-- One of the words that start at a position attains the total noted for it. -/
theorem exists_next {i : Nat} {dag : Dag W} (hi : i < (slice runes range.begin_ range.end_).length)
    (hnexts : dag.nexts =
      nextsAt d max_word_len (slice runes range.begin_ range.end_) i)
    (hinfo : dag.pInfo = (pick (nextValue d (dagsOf d max_word_len runes range)) MIN_DOUBLE
      dag.nexts).1.bind Prod.snd) :
    exists next, next ∈ dag.nexts ∧
      max MIN_DOUBLE (nextValue d (dagsOf d max_word_len runes range) next) =
        (pick (nextValue d (dagsOf d max_word_len runes range)) MIN_DOUBLE dag.nexts).2 ∧
      (dag.pInfo ≠ none -> next.2 = dag.pInfo) ∧ (dag.pInfo = none -> next.1 = i) := by
  cases hpick : (pick (nextValue d (dagsOf d max_word_len runes range)) MIN_DOUBLE
      dag.nexts).1 with
  | none =>
      have hself : (i, d.Find (wordAt (slice runes range.begin_ range.end_) i i)) ∈
          dag.nexts := by
        rw [hnexts, mem_nextsAt hi]
        exact ⟨rfl, Or.inl rfl⟩
      rw [hpick, Option.bind_none] at hinfo
      exact ⟨_, hself, max_floor_of_not_picked hpick hself,
        fun hne => absurd hinfo hne, fun _ => rfl⟩
  | some next =>
      have hmax := max_floor_of_picked hpick
      rw [hpick, Option.bind_some] at hinfo
      refine ⟨next, hmax.1, hmax.2, fun _ => hinfo.symm, ?_⟩
      intro hnone
      have hmem := hmax.1
      rw [hnexts, show next = (next.1, next.2) from rfl, mem_nextsAt hi] at hmem
      rcases hmem.2 with hsame | hlonger
      · exact hsame
      · exact absurd (hinfo.symm.trans hnone) hlonger.2.2.2

/-- The word that is noted for a position attains the total that is noted there. -/
theorem chosen {i : Nat} {dag : Dag W} (hle : range.end_ ≤ runes.length)
    (hi : range.begin_ + i < range.end_)
    (hdag : (dagsOf d max_word_len runes range)[i]? = some dag) :
    exists j,
      (forall p, dag.pInfo = some p -> p.word.length = j + 1 - i ∧ i ≤ j) ∧
      (dag.pInfo = none -> j = i) ∧
      (wordNetwork d max_word_len runes range).edge (range.begin_ + i)
        ⟨range.begin_ + i, range.begin_ + j⟩ ∧
      (wordNetwork d max_word_len runes range).carry ⟨range.begin_ + i, range.begin_ + j⟩
          (bestFrom d max_word_len runes range (range.begin_ + j + 1)) =
        bestFrom d max_word_len runes range (range.begin_ + i) := by
  have hget : exists dag, (dagsOf d max_word_len runes range)[i]? = some dag ∧
      dag.nexts = nextsAt d max_word_len (slice runes range.begin_ range.end_) i :=
    dagsOf_get hle hi
  rcases hget with ⟨dag', hdag', hnexts⟩
  rw [hdag] at hdag'
  cases hdag'
  have hinfo := ((CalcDP_solved (forward_FindAll d max_word_len
    (slice runes range.begin_ range.end_))).1 i dag hdag).1
  have hlength := length_slice runes (i := range.begin_) hle
  rcases exists_next (by omega) hnexts hinfo with ⟨⟨j, q⟩, hmem, hmax, hsome, hnone⟩
  rw [hnexts] at hmem
  rcases edge_of_mem_nextsAt hle hi hmem with ⟨hedge, rfl⟩
  have hlr := hedge.2.2.1
  have hright := hedge.2.2.2.1
  dsimp only at hlr hright
  refine ⟨j, ?_, hnone, hedge, ?_⟩
  · intro p hp
    have hfind : d.Find (wordAt runes (range.begin_ + i) (range.begin_ + j)) = some p :=
      (hsome (by rw [hp]; exact Option.some_ne_none p)).trans hp
    rw [DictTrie.word_of_Find hfind, length_wordAt runes (by omega)]
    omega
  · rw [carry_eq, hmax, bestFrom_eq hdag]

/-- The words that are read off are words of the network and attain what is noted. -/
theorem CutByDag_route (hle : range.end_ ≤ runes.length) (fuel i : Nat)
    (hi : range.begin_ + i ≤ range.end_) (hfuel : range.end_ - range.begin_ - i ≤ fuel) :
    (wordNetwork d max_word_len runes range).Route (range.begin_ + i)
        (CutByDag range.begin_ (dagsOf d max_word_len runes range) fuel i) range.end_ ∧
      (wordNetwork d max_word_len runes range).Tight
        (bestFrom d max_word_len runes range) (range.begin_ + i)
        (CutByDag range.begin_ (dagsOf d max_word_len runes range) fuel i) range.end_ := by
  induction fuel generalizing i with
  | zero =>
      have hend : range.begin_ + i = range.end_ := by
        omega
      rw [hend]
      exact ⟨Network.Route.nil _, Network.Tight.nil _⟩
  | succ fuel ih =>
      unfold CutByDag
      rcases Nat.lt_or_eq_of_le hi with hlt | heq
      · have hget : exists dag, (dagsOf d max_word_len runes range)[i]? = some dag ∧
            dag.nexts = nextsAt d max_word_len (slice runes range.begin_ range.end_) i :=
          dagsOf_get hle hlt
        rcases hget with ⟨dag, hdag, -⟩
        rcases chosen hle hlt hdag with ⟨j, hsome, hnone, hedge, hcarry⟩
        have hright := hedge.2.2.2.1
        dsimp only at hright
        rw [hdag]
        dsimp only
        cases hinfo : dag.pInfo with
        | none =>
            have hsame := hnone hinfo
            subst hsame
            have hrest := ih (j + 1) (by omega) (by omega)
            exact ⟨Network.Route.cons hedge hrest.1, Network.Tight.cons hcarry hrest.2⟩
        | some p =>
            have hp := hsome p hinfo
            have hnext : i + p.word.length = j + 1 := by
              omega
            have hlast : range.begin_ + i + p.word.length - 1 = range.begin_ + j := by
              omega
            have hrest := ih (j + 1) (by omega) (by omega)
            dsimp only
            rw [hnext, hlast]
            exact ⟨Network.Route.cons hedge hrest.1, Network.Tight.cons hcarry hrest.2⟩
      · have hpos : i = range.end_ - range.begin_ := by
          omega
        rw [hpos, dagsOf_get_end hle, ← hpos, heq]
        exact ⟨Network.Route.nil _, Network.Tight.nil _⟩

end Range

namespace MPSegment

variable (m : MPSegment W) (max_word_len : Nat) (runes : List RuneStr) (range : Range)

theorem cutRange_route (hbe : range.begin_ ≤ range.end_) (hle : range.end_ ≤ runes.length) :
    (wordNetwork m.dictTrie_ max_word_len runes range).Route range.begin_
        (m.cutRange max_word_len runes range) range.end_ ∧
      (wordNetwork m.dictTrie_ max_word_len runes range).Tight
        (bestFrom m.dictTrie_ max_word_len runes range) range.begin_
        (m.cutRange max_word_len runes range) range.end_ := by
  have hlength : range.end_ - range.begin_ - 0 ≤
      (dagsOf m.dictTrie_ max_word_len runes range).length := by
    by_contra hlt
    have hget : exists dag, (dagsOf m.dictTrie_ max_word_len runes range)[
          (dagsOf m.dictTrie_ max_word_len runes range).length]? = some dag ∧ _ :=
      dagsOf_get hle (by omega)
    rcases hget with ⟨dag, hdag, -⟩
    rw [List.getElem?_eq_none (Nat.le_refl _)] at hdag
    cases hdag
  exact CutByDag_route hle _ 0 hbe hlength

/-- The words cover the range; each is a single rune or a word of the dictionary. -/
theorem cutRange_tiles (hbe : range.begin_ ≤ range.end_)
    (hle : range.end_ ≤ runes.length) :
    Tiles range.begin_ (m.cutRange max_word_len runes range) range.end_ ∧
      forall wr, wr ∈ m.cutRange max_word_len runes range ->
        Admissible m.dictTrie_ max_word_len runes wr :=
  tiles_of_route (m.cutRange_route max_word_len runes range hbe hle).1

/--
The words that `CutByDag` reads off cover the range, each is a single rune or a word of
the dictionary that is not too long, and no other way to cut the range into such words
has a higher total.
-/
theorem cutRange_optimal (hbe : range.begin_ ≤ range.end_)
    (hle : range.end_ ≤ runes.length) :
    (Tiles range.begin_ (m.cutRange max_word_len runes range) range.end_ ∧
        forall wr, wr ∈ m.cutRange max_word_len runes range ->
          Admissible m.dictTrie_ max_word_len runes wr) ∧
      forall wrs, Tiles range.begin_ wrs range.end_ ->
        (forall wr, wr ∈ wrs -> Admissible m.dictTrie_ max_word_len runes wr) ->
        total m.dictTrie_ runes wrs ≤
          total m.dictTrie_ runes (m.cutRange max_word_len runes range) := by
  refine ⟨m.cutRange_tiles max_word_len runes range hbe hle, ?_⟩
  intro wrs htiles hwrs
  have hbest := Network.score_le_score (bounded_bestFrom hle)
    (m.cutRange_route max_word_len runes range htiles.le hle).2
    (route_of_tiles (Nat.le_refl _) htiles hwrs)
  have hzero : bestFrom m.dictTrie_ max_word_len runes range range.end_ = 0 := by
    unfold bestFrom valueAt
    rw [dagsOf_get_end hle]
  rw [hzero] at hbest
  exact hbest

theorem cutRange_optimal_chinese :
    (Tiles 0 (MPSegment.cutRange ⟨[], chineseWords⟩ 512 chinese ⟨0, 3⟩) 3 ∧
        forall wr, wr ∈ MPSegment.cutRange ⟨[], chineseWords⟩ 512 chinese ⟨0, 3⟩ ->
          Admissible chineseWords 512 chinese wr) ∧
      forall wrs, Tiles 0 wrs 3 ->
        (forall wr, wr ∈ wrs -> Admissible chineseWords 512 chinese wr) ->
        total chineseWords chinese wrs ≤
          total chineseWords chinese
            (MPSegment.cutRange ⟨[], chineseWords⟩ 512 chinese ⟨0, 3⟩) :=
  cutRange_optimal ⟨[], chineseWords⟩ 512 chinese ⟨0, 3⟩ (by decide) (by decide)

end MPSegment

end Cppjieba
end VoiceTts
