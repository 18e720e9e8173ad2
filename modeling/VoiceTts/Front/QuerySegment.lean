import VoiceTts.Front.FullSegment
import VoiceTts.Front.NoFinals

/-!
# Third tones and the segmentation for search

`CutForSearch` is `QuerySegment::Cut`: it lists the words of the mixed segmentation
of a text, and before a longer word the words of two and three characters that the
dictionary finds in it.  For three third tones `ThreeSandhi` needs a first part
of one or two characters, and a word that the mixed segmentation does not take
apart has none.
-/

namespace VoiceTts

/-- The mixed segmentation of a range, and what the dictionary finds. -/
structure QuerySegment where
  mixSeg_ : List Char -> List (List Char)
  Find : List Char -> Bool

namespace QuerySegment

/-- The words of `n` characters in a word. -/
def subwords (q : QuerySegment) (n : Nat) (w : List Char) : List (List Char) :=
  ((List.range (w.length + 1 - n)).map fun i => (w.drop i).take n).filter q.Find

def cutWord (q : QuerySegment) (w : List Char) : List (List Char) :=
  (if 2 < w.length then q.subwords 2 w else []) ++
    (if 3 < w.length then q.subwords 3 w else []) ++ [w]

def Cut (q : QuerySegment) (sentence : CString) : List CString :=
  match PosTagger.DecodeRunesInString sentence with
  | none => []
  | some runes =>
      ((FullSegment.ranges (runes.map Char.ofNat)).flatMap fun range =>
        (q.mixSeg_ range).flatMap q.cutWord).map Utf8.encodeChars

/-- The words of the mixed segmentation of a text. -/
def mixed (q : QuerySegment) (cs : List Char) : List (List Char) :=
  (FullSegment.ranges cs).flatMap q.mixSeg_

/-- The mixed segmentation takes every range apart into words. -/
structure Partitions (q : QuerySegment) : Prop where
  flatten : forall range, (q.mixSeg_ range).flatten = range
  ne_nil : forall range w, w ∈ q.mixSeg_ range -> w ≠ []

variable {q : QuerySegment} {cs : List Char}

theorem Cut_encodeChars (q : QuerySegment) (cs : List Char) :
    q.Cut (Utf8.encodeChars cs) =
      ((q.mixed cs).flatMap q.cutWord).map Utf8.encodeChars := by
  have hchars : (cs.map fun c => c.val.toNat).map Char.ofNat = cs := by
    rw [List.map_map]
    exact (List.map_congr_left fun c _ => Char.ofNat_toNat c).trans (List.map_id cs)
  unfold Cut mixed
  rw [PosTagger.decodeRunes_encodeChars]
  dsimp only
  rw [hchars, List.flatMap_assoc]

theorem flatten_mixed (h : q.Partitions) (cs : List Char) : (q.mixed cs).flatten = cs := by
  have hranges : (FullSegment.ranges cs).flatten = cs := Blocks.flatten_blocks _ cs
  have hall : forall ranges : List (List Char),
      (ranges.flatMap q.mixSeg_).flatten = ranges.flatten := by
    intro ranges
    induction ranges with
    | nil =>
        rfl
    | cons range ranges ih =>
        rw [List.flatMap_cons, List.flatten_append, h.flatten, ih, List.flatten_cons]
  unfold mixed
  rw [hall, hranges]

theorem ne_nil_of_mem_mixed (h : q.Partitions) {w : List Char} (hw : w ∈ q.mixed cs) :
    w ≠ [] := by
  rcases List.mem_flatMap.mp hw with ⟨range, -, hmem⟩
  exact h.ne_nil range w hmem

theorem infix_of_mem_mixed (h : q.Partitions) {w : List Char} (hw : w ∈ q.mixed cs) :
    w <:+: cs := by
  conv_rhs => rw [← flatten_mixed h cs]
  exact List.infix_of_mem_flatten hw

theorem mem_subwords {n : Nat} (hn : 0 < n) {w p : List Char}
    (hp : p ∈ q.subwords n w) : p ≠ [] ∧ p <:+: w := by
  rcases List.mem_map.mp (List.mem_filter.mp hp).1 with ⟨i, hi, rfl⟩
  have hlt := List.mem_range.mp hi
  constructor
  · rw [← List.length_pos_iff, List.length_take, List.length_drop]
    omega
  · exact (List.take_prefix n (w.drop i)).isInfix.trans (List.drop_suffix i w).isInfix

theorem mem_cutWord {w p : List Char} (hw : w ≠ []) (hp : p ∈ q.cutWord w) :
    p ≠ [] ∧ p <:+: w := by
  unfold cutWord at hp
  rcases List.mem_append.mp hp with hp | hp
  · rcases List.mem_append.mp hp with hp | hp
    · split at hp
      · exact mem_subwords (by decide) hp
      · cases hp
    · split at hp
      · exact mem_subwords (by decide) hp
      · cases hp
  · rw [List.mem_singleton.mp hp]
    exact ⟨hw, List.infix_rfl⟩

theorem cutWord_short {w : List Char} (hw : w.length ≤ 2) : q.cutWord w = [w] := by
  unfold cutWord
  rw [if_neg (by omega), if_neg (by omega)]
  rfl

theorem searches {st : Setup} (h : q.Partitions) (hst : st._jieba.CutForSearch = q.Cut)
    (hcs : cs ≠ []) : FrontEngineInterface.Searches st cs where
  ne_nil := by
    rw [hst, Cut_encodeChars]
    intro hnil
    have hflat := List.map_eq_nil_iff.mp hnil
    have hmixed : q.mixed cs = [] := by
      rw [List.eq_nil_iff_forall_not_mem]
      intro w hw
      have hmem : w ∈ (q.mixed cs).flatMap q.cutWord :=
        List.mem_flatMap.mpr ⟨w, hw, by simp [cutWord]⟩
      rw [hflat] at hmem
      cases hmem
    have hflatten := flatten_mixed h cs
    rw [hmixed] at hflatten
    exact hcs hflatten.symm
  piece := by
    intro p hp
    rw [hst, Cut_encodeChars] at hp
    rcases List.mem_map.mp hp with ⟨ps, hps, rfl⟩
    rcases List.mem_flatMap.mp hps with ⟨w, hw, hmem⟩
    have hpiece := mem_cutWord (ne_nil_of_mem_mixed h hw) hmem
    exact ⟨ps, hpiece.1, hpiece.2.trans (infix_of_mem_mixed h hw), rfl⟩

end QuerySegment

namespace FrontEngineInterface

open QuerySegment

variable {q : QuerySegment} {st : Setup}

/-!
## The first part of a word of three characters
-/

/-- Words that make up a text, of which none is empty. -/
def Divided (ws : List (List Char)) (cs : List Char) : Prop :=
  ws.flatten = cs ∧ forall w, w ∈ ws -> w ≠ []

theorem divided_nil {ws : List (List Char)} (h : Divided ws []) : ws = [] := by
  rw [List.eq_nil_iff_forall_not_mem]
  intro w hw
  exact h.2 w hw (List.flatten_eq_nil_iff.mp h.1 w hw)

theorem divided_cons {ws : List (List Char)} {c : Char} {cs : List Char}
    (h : Divided ws (c :: cs)) :
    exists w rest, ws = (c :: w) :: rest ∧
      ((w = [] ∧ Divided rest cs) ∨
        exists d ds, cs = d :: ds ∧ Divided (w :: rest) cs) := by
  rcases h with ⟨hflat, hne⟩
  cases ws with
  | nil =>
      cases hflat
  | cons w rest =>
      cases w with
      | nil =>
          exact absurd rfl (hne [] List.mem_cons_self)
      | cons d w =>
          rw [List.flatten_cons, List.cons_append, List.cons_eq_cons] at hflat
          have hrest : forall v, v ∈ rest -> v ≠ [] := fun v hv =>
            hne v (List.mem_cons_of_mem _ hv)
          refine ⟨w, rest, by rw [hflat.1], ?_⟩
          cases w with
          | nil =>
              exact Or.inl ⟨rfl, hflat.2, hrest⟩
          | cons d w =>
              right
              refine ⟨d, w ++ rest.flatten, hflat.2.symm, hflat.2, ?_⟩
              intro v hv
              cases List.mem_cons.mp hv with
              | inl hv =>
                  rw [hv]
                  exact List.cons_ne_nil d w
              | inr hv =>
                  exact hrest v hv

theorem divided_one {ws : List (List Char)} {c : Char} (h : Divided ws [c]) :
    ws = [[c]] := by
  rcases divided_cons h with ⟨w, rest, rfl, ⟨rfl, hrest⟩ | ⟨d, ds, hds, -⟩⟩
  · rw [divided_nil hrest]
  · cases hds

theorem divided_two {ws : List (List Char)} {b c : Char} (h : Divided ws [b, c]) :
    ws = [[b, c]] ∨ ws = [[b], [c]] := by
  rcases divided_cons h with ⟨w, rest, rfl, ⟨rfl, hrest⟩ | ⟨d, ds, -, hrest⟩⟩
  · right
    rw [divided_one hrest]
  · left
    rw [List.cons_eq_cons.mp (divided_one hrest) |>.1,
      List.cons_eq_cons.mp (divided_one hrest) |>.2]

theorem divided_three {ws : List (List Char)} {a b c : Char} (h : Divided ws [a, b, c]) :
    ws = [[a, b, c]] ∨ ws = [[a, b], [c]] ∨ ws = [[a], [b, c]] ∨ ws = [[a], [b], [c]] := by
  rcases divided_cons h with ⟨w, rest, rfl, ⟨rfl, hrest⟩ | ⟨d, ds, -, hrest⟩⟩
  · rcases divided_two hrest with hrest | hrest
    · rw [hrest]
      simp
    · rw [hrest]
      simp
  · rcases divided_two hrest with hrest | hrest
    · rw [(List.cons_eq_cons.mp hrest).1, (List.cons_eq_cons.mp hrest).2]
      simp
    · rw [(List.cons_eq_cons.mp hrest).1, (List.cons_eq_cons.mp hrest).2]
      simp

theorem decode_frontPart_of_edge {cs fs : List Char} (hne : fs ≠ [])
    (hedge : fs <+: cs ∨ fs <:+ cs) :
    Utf8.decode (frontPart (Utf8.encodeChars cs) (Utf8.encodeChars fs)) ≠ none := by
  unfold frontPart
  split
  · rw [Utf8.decode_encodeChars]
    exact Option.some_ne_none _
  · rename_i hstarts
    cases hedge with
    | inl hprefix =>
        exact absurd (startsWithAny_front hne hprefix) hstarts
    | inr hsuffix =>
        rcases hsuffix with ⟨as, rfl⟩
        rw [Utf8.encodeChars_append, List.length_append, Nat.add_sub_cancel, List.take_left,
          Utf8.decode_encodeChars]
        exact Option.some_ne_none _

theorem not_startsWithAny {a b : Char} (h : a.utf8Size < b.utf8Size) (cs : List Char) :
    startsWithAny (Utf8.encodeChars (a :: cs)) (Utf8.encodeChars [b]) = false := by
  rcases Utf8.utf8EncodeChar_lead a with ⟨x, xs, ha, hx, -⟩
  rcases Utf8.utf8EncodeChar_lead b with ⟨y, ys, hb, hy, hys⟩
  rw [← ha, String.length_utf8EncodeChar] at hx
  rw [← hb, String.length_utf8EncodeChar] at hy
  have hpos := Char.utf8Size_pos a
  rw [Bool.eq_false_iff, Ne, startsWithAny_iff]
  intro hstarts
  rcases hstarts with ⟨z, hz, hmem⟩
  rw [Utf8.encodeChars_cons, ha, List.cons_append, List.head?_cons, Option.some.injEq] at hz
  subst hz
  rw [Utf8.encodeChars_cons, hb, Utf8.encodeChars_nil, List.append_nil] at hmem
  cases List.mem_cons.mp hmem with
  | inl hsame =>
      rw [hsame, hy] at hx
      omega
  | inr hrest =>
      rw [hys x hrest] at hx
      omega

theorem length_encodeChars_singleton (c : Char) :
    (Utf8.encodeChars [c]).length = c.utf8Size := by
  rw [Utf8.encodeChars_cons, Utf8.encodeChars_nil, List.append_nil,
    String.length_utf8EncodeChar]

theorem decode_frontPart_middle {a b c : Char} (hab : a.utf8Size < b.utf8Size)
    (hcb : c.utf8Size < b.utf8Size) :
    Utf8.decode (frontPart (Utf8.encodeChars [a, b, c]) (Utf8.encodeChars [b])) = none := by
  have hpos := Char.utf8Size_pos c
  have hword : Utf8.encodeChars [a, b, c] =
      String.utf8EncodeChar a ++ (String.utf8EncodeChar b ++ String.utf8EncodeChar c) := by
    simp
  have hinside : Utf8.decode ((String.utf8EncodeChar b).take c.utf8Size) = none := by
    refine Utf8.decode_inside ?_ ?_ (List.take_append_drop c.utf8Size _)
    · rw [← List.length_pos_iff, List.length_take, String.length_utf8EncodeChar]
      omega
    · rw [← List.length_pos_iff, List.length_drop, String.length_utf8EncodeChar]
      omega
  have hlength : (Utf8.encodeChars [a, b, c]).length - (Utf8.encodeChars [b]).length =
      (String.utf8EncodeChar a).length + c.utf8Size := by
    rw [hword, length_encodeChars_singleton, List.length_append, List.length_append,
      String.length_utf8EncodeChar, String.length_utf8EncodeChar,
      String.length_utf8EncodeChar]
    omega
  unfold frontPart
  rw [not_startsWithAny hab, if_neg Bool.false_ne_true, hlength, hword,
    List.take_length_add_append, List.take_append_of_le_length, Utf8.decode_utf8EncodeChar,
    hinside]
  · rfl
  · rw [String.length_utf8EncodeChar]
    exact Nat.le_of_lt hcb

/--
A word of three characters whose first part does not have one or two of them: the
mixed segmentation keeps it whole, or leaves its characters single and the one in
the middle takes the most bytes.
-/
def Unsplit (q : QuerySegment) (cs : List Char) : Prop :=
  q.mixed cs = [cs] ∨
    exists a b c, cs = [a, b, c] ∧ q.mixed cs = [[a], [b], [c]] ∧
      a.utf8Size < b.utf8Size ∧ c.utf8Size < b.utf8Size

/--
`std::sort` inserts up to three strings one by one, which keeps equally long ones as
they come.
-/
def KeepsFew (o : LongestFirst) : Prop :=
  forall l, l.length ≤ 3 -> o.sort l = LongestFirst.stable.sort l

section First

variable {cs fs : List Char}

theorem CutForSearch_short (hst : st._jieba.CutForSearch = q.Cut)
    (hshort : forall w, w ∈ q.mixed cs -> w.length ≤ 2) :
    st._jieba.CutForSearch (Utf8.encodeChars cs) =
      (q.mixed cs).map Utf8.encodeChars := by
  rw [hst, Cut_encodeChars, List.flatMap_congr fun w hw => cutWord_short (hshort w hw),
    List.flatMap_singleton']

theorem mem_mixed_of_first (hst : st._jieba.CutForSearch = q.Cut)
    (hshort : forall w, w ∈ q.mixed cs -> w.length ≤ 2)
    (hfirst : firstSubword st (Utf8.encodeChars cs) = some (Utf8.encodeChars fs)) :
    fs ∈ q.mixed cs := by
  have hmem := st.order.mem_of_head? hfirst
  rw [CutForSearch_short hst hshort] at hmem
  rcases List.mem_map.mp hmem with ⟨w, hw, heq⟩
  rw [← Utf8.encodeChars_injective heq]
  exact hw

/-- Among equally long strings the one that comes first stays in front. -/
theorem length_lt_of_head?_stable {f g : CString} {l : List CString}
    (h : (LongestFirst.stable.sort (f :: l)).head? = some g) (hne : g ≠ f) :
    f.length < g.length := by
  change ((l.insertionSort fun a b => b.length ≤ a.length).orderedInsert
    (fun a b => b.length ≤ a.length) f).head? = some g at h
  cases hsort : l.insertionSort fun a b => b.length ≤ a.length with
  | nil =>
      rw [hsort] at h
      exact absurd (Option.some.inj h).symm hne
  | cons m rest =>
      rw [hsort, List.orderedInsert_cons] at h
      split at h
      · exact absurd (Option.some.inj h).symm hne
      · rename_i hlt
        rw [← Option.some.inj h]
        exact Nat.lt_of_not_le hlt

theorem frontPart_middle {a b c : Char} (hab : a.utf8Size < b.utf8Size)
    (hsame : c.utf8Size = b.utf8Size) :
    frontPart (Utf8.encodeChars [a, b, c]) (Utf8.encodeChars [b]) =
      Utf8.encodeChars [a, b] := by
  have hword : Utf8.encodeChars [a, b, c] =
      Utf8.encodeChars [a, b] ++ Utf8.encodeChars [c] :=
    Utf8.encodeChars_append [a, b] [c]
  unfold frontPart
  rw [not_startsWithAny hab, if_neg Bool.false_ne_true, hword, List.length_append,
    length_encodeChars_singleton, length_encodeChars_singleton, hsame,
    Nat.add_sub_cancel, List.take_left]

/-- With single characters the first part is lost in the case of `Unsplit` only. -/
theorem decode_frontPart_single {a b c : Char} (hst : st._jieba.CutForSearch = q.Cut)
    (hfew : KeepsFew st.order) (hmixed : q.mixed [a, b, c] = [[a], [b], [c]])
    (hfirst : firstSubword st (Utf8.encodeChars [a, b, c]) = some (Utf8.encodeChars fs)) :
    Utf8.decode (frontPart (Utf8.encodeChars [a, b, c]) (Utf8.encodeChars fs)) = none ↔
      a.utf8Size < b.utf8Size ∧ c.utf8Size < b.utf8Size := by
  have hshort : forall w, w ∈ q.mixed [a, b, c] -> w.length ≤ 2 := by
    rw [hmixed]
    simp
  have hpieces := CutForSearch_short hst hshort
  have hmem := mem_mixed_of_first hst hshort hfirst
  unfold firstSubword at hfirst
  rw [hpieces, hmixed] at hfirst
  simp only [List.map_cons, List.map_nil] at hfirst
  rw [hmixed] at hmem
  constructor
  · intro hnone
    have hne : fs ≠ [] := by
      rintro rfl
      simp at hmem
    have hfs : fs = [b] := by
      simp only [List.mem_cons, List.not_mem_nil, or_false] at hmem
      rcases hmem with rfl | rfl | rfl
      · exact absurd hnone (decode_frontPart_of_edge hne (Or.inl (by simp)))
      · rfl
      · exact absurd hnone (decode_frontPart_of_edge hne
          (Or.inr (List.suffix_append [a, b] [c])))
    subst hfs
    have hba : Utf8.encodeChars [b] ≠ Utf8.encodeChars [a] := by
      intro heq
      have hchars := Utf8.encodeChars_injective heq
      rw [List.singleton_inj] at hchars
      subst hchars
      exact decode_frontPart_of_edge hne (Or.inl (by simp)) hnone
    have hcb : (Utf8.encodeChars [c]).length ≤ (Utf8.encodeChars [b]).length :=
      st.order.le_of_head? hfirst (by simp)
    rw [hfew _ (by simp)] at hfirst
    have hab := length_lt_of_head?_stable hfirst hba
    rw [length_encodeChars_singleton, length_encodeChars_singleton] at hab hcb
    refine ⟨hab, Nat.lt_of_le_of_ne hcb fun hsame => ?_⟩
    rw [frontPart_middle hab hsame, Utf8.decode_encodeChars] at hnone
    cases hnone
  · intro hsizes
    have hlongest : (Utf8.encodeChars [b]).length ≤ (Utf8.encodeChars fs).length :=
      st.order.le_of_head? hfirst (by simp)
    have hfs : fs = [b] := by
      simp only [List.mem_cons, List.not_mem_nil, or_false] at hmem
      rcases hmem with rfl | rfl | rfl
      · rw [length_encodeChars_singleton, length_encodeChars_singleton] at hlongest
        omega
      · rfl
      · rw [length_encodeChars_singleton, length_encodeChars_singleton] at hlongest
        omega
    rw [hfs]
    exact decode_frontPart_middle hsizes.1 hsizes.2

/-- One of two words is taken, and both stand at an end. -/
theorem frontPart_pair {u v : List Char} (hst : st._jieba.CutForSearch = q.Cut)
    (hmixed : q.mixed (u ++ v) = [u, v]) (hu : u.length ∈ [1, 2]) (hv : v.length ∈ [1, 2])
    (hne : fs ≠ [])
    (hfirst : firstSubword st (Utf8.encodeChars (u ++ v)) = some (Utf8.encodeChars fs)) :
    fs ≠ u ++ v ∧
      Utf8.decode (frontPart (Utf8.encodeChars (u ++ v)) (Utf8.encodeChars fs)) ≠ none := by
  simp only [List.mem_cons, List.not_mem_nil, or_false] at hu hv
  have hshort : forall w, w ∈ q.mixed (u ++ v) -> w.length ≤ 2 := by
    rw [hmixed]
    simp only [List.mem_cons, List.not_mem_nil, or_false]
    rintro w (rfl | rfl)
    · omega
    · omega
  have hmem := mem_mixed_of_first hst hshort hfirst
  rw [hmixed] at hmem
  simp only [List.mem_cons, List.not_mem_nil, or_false] at hmem
  constructor
  · intro hwhole
    have hlength : fs.length = u.length + v.length := by
      rw [hwhole, List.length_append]
    rcases hmem with rfl | rfl
    · omega
    · omega
  · refine decode_frontPart_of_edge hne ?_
    rcases hmem with rfl | rfl
    · exact Or.inl (List.prefix_append fs v)
    · exact Or.inr (List.suffix_append u fs)

/-- The first part of a word of three characters has one or two of them. -/
theorem frontPart_three_iff {a b c : Char} (hq : q.Partitions)
    (hst : st._jieba.CutForSearch = q.Cut) (hfew : KeepsFew st.order)
    (hfirst : firstSubword st (Utf8.encodeChars [a, b, c]) = some (Utf8.encodeChars fs))
    (hwithin : fs <:+: [a, b, c]) (hne : fs ≠ []) :
    (fs ≠ [a, b, c] ∧
        Utf8.decode (frontPart (Utf8.encodeChars [a, b, c]) (Utf8.encodeChars fs)) ≠ none) ↔
      ¬ Unsplit q [a, b, c] := by
  have hdivided : Divided (q.mixed [a, b, c]) [a, b, c] :=
    ⟨flatten_mixed hq [a, b, c], fun w hw => ne_nil_of_mem_mixed hq hw⟩
  rcases divided_three hdivided with hmixed | hmixed | hmixed | hmixed
  · have hword : Utf8.encodeChars [a, b, c] ∈
        st._jieba.CutForSearch (Utf8.encodeChars [a, b, c]) := by
      rw [hst, Cut_encodeChars, hmixed]
      exact List.mem_map_of_mem (by simp [cutWord])
    constructor
    · intro hpart
      exact absurd ((first_eq_iff hwithin hfirst).mpr hword) hpart.1
    · intro hsplit
      exact absurd (Or.inl hmixed) hsplit
  · have hpart := frontPart_pair (u := [a, b]) (v := [c]) hst hmixed (by simp) (by simp)
      hne hfirst
    refine iff_of_true hpart fun hunsplit => ?_
    simp [Unsplit, hmixed] at hunsplit
  · have hpart := frontPart_pair (u := [a]) (v := [b, c]) hst hmixed (by simp) (by simp)
      hne hfirst
    refine iff_of_true hpart fun hunsplit => ?_
    simp [Unsplit, hmixed] at hunsplit
  · have hmem := mem_mixed_of_first hst (by rw [hmixed]; simp) hfirst
    have hwhole : fs ≠ [a, b, c] := by
      rintro rfl
      rw [hmixed] at hmem
      simp at hmem
    have hunsplit : Unsplit q [a, b, c] ↔
        a.utf8Size < b.utf8Size ∧ c.utf8Size < b.utf8Size := by
      constructor
      · intro h
        rcases h with hsame | ⟨x, y, z, hcs, -, hsizes⟩
        · rw [hmixed] at hsame
          simp at hsame
        · cases hcs
          exact hsizes
      · intro hsizes
        exact Or.inr ⟨a, b, c, rfl, hmixed, hsizes⟩
    rw [hunsplit, ← decode_frontPart_single hst hfew hmixed hfirst, and_iff_right hwhole]

end First

/-!
## Two third tones in a row
-/

/-- No two neighbours have the third tone. -/
def Separated (finals : List CString) : Prop :=
  finals.IsChain fun f g => ¬ (f.getLast? = some 51 ∧ g.getLast? = some 51)

theorem ne_nil_of_third {f : CString} (h : f.getLast? = some 51) : f ≠ [] := by
  rintro rfl
  cases h

theorem toned_not_third (f : CString) : (toned 50 f).getLast? ≠ some 51 := by
  simp [toned]

section Third

variable {f g h k : CString}

theorem raiseThree_separated_iff (n : Nat) (hf : f.getLast? = some 51)
    (hg : g.getLast? = some 51) (hh : h.getLast? = some 51) :
    (exists r, raiseThree n [f, g, h] = Except.ok r ∧ Separated r) ↔ n = 1 ∨ n = 2 := by
  have hfits : Fits 3 [f, g, h] := by
    constructor
    · rfl
    · simp only [List.mem_cons, List.not_mem_nil, or_false]
      rintro x (rfl | rfl | rfl)
      · exact ne_nil_of_third hf
      · exact ne_nil_of_third hg
      · exact ne_nil_of_third hh
  unfold raiseThree
  by_cases htwo : n = 2
  · rw [if_pos htwo, hfits.setTone_eq Container.finals (by decide) 50, ok_bind,
      (hfits.modify 0 50).setTone_eq Container.finals (by decide) 50]
    refine iff_of_true ⟨_, rfl, ?_⟩ (Or.inr htwo)
    change Separated [toned 50 f, toned 50 g, h]
    simp [Separated, toned_not_third, hh]
  · rw [if_neg htwo]
    by_cases hone : n = 1
    · rw [if_pos hone, hfits.setTone_eq Container.finals (by decide) 50]
      refine iff_of_true ⟨_, rfl, ?_⟩ (Or.inl hone)
      change Separated [f, toned 50 g, h]
      simp [Separated, toned_not_third, hf, hh]
    · rw [if_neg hone]
      refine iff_of_false ?_ (by simp [hone, htwo])
      rintro ⟨r, hr, hseparated⟩
      cases hr
      simp [Separated, hf, hg] at hseparated

theorem raiseHalf_pair (hf : f.getLast? = some 51) (hg : g.getLast? = some 51) :
    raiseHalf [f, g] = Except.ok [toned 50 f, g] := by
  have hthird : forall x, x ∈ [f, g] -> x.getLast? = some 51 := by
    simp only [List.mem_cons, List.not_mem_nil, or_false]
    rintro x (rfl | rfl)
    · exact hf
    · exact hg
  have hfits : Fits 2 [f, g] := ⟨rfl, fun x hx => ne_nil_of_third (hthird x hx)⟩
  unfold raiseHalf
  rw [AllToneThree_iff.mpr hthird, ok_bind, if_pos rfl]
  exact hfits.setTone_eq Container.finals_list (by decide) 50

end Third

theorem ThreeSandhi_three {finals : List CString} {cs : List Char} {f : CString}
    (hthree : cs.length = 3) (hfirst : firstSubword st (Utf8.encodeChars cs) = some f)
    (hle : f.length ≤ (Utf8.encodeChars cs).length)
    (hthird : forall f, f ∈ finals -> f.getLast? = some 51) :
    ThreeSandhi st (Utf8.encodeChars cs) finals =
      (do let first_wstr <- utf8string2wstring (frontPart (Utf8.encodeChars cs) f)
          raiseThree first_wstr.length finals) := by
  unfold ThreeSandhi
  rw [Word2WordVec_encodeChars, ok_bind, length_letters, hthree, SplitWord_eq hfirst hle,
    ok_bind, AllToneThree_iff.mpr hthird, ok_bind, elementAt_frontPart, ok_bind]
  rfl

theorem ThreeSandhi_three_iff {finals : List CString} {a b c : Char} (hq : q.Partitions)
    (hst : st._jieba.CutForSearch = q.Cut) (hfew : KeepsFew st.order)
    (hlength : finals.length = 3)
    (hthird : forall f, f ∈ finals -> f.getLast? = some 51) :
    (exists r, ThreeSandhi st (Utf8.encodeChars [a, b, c]) finals = Except.ok r ∧
      Separated r) ↔ ¬ Unsplit q [a, b, c] := by
  rcases (searches hq hst (List.cons_ne_nil a [b, c])).exists_first with
    ⟨fs, hfirst, hne, hwithin⟩
  rcases List.length_eq_three.mp hlength with ⟨f, g, h, rfl⟩
  rw [← frontPart_three_iff hq hst hfew hfirst hwithin hne,
    ThreeSandhi_three rfl hfirst (length_encodeChars_le hwithin) hthird]
  unfold utf8string2wstring
  cases hw : Utf8.decode (frontPart (Utf8.encodeChars [a, b, c]) (Utf8.encodeChars fs)) with
  | none =>
      refine iff_of_false ?_ (by simp)
      rintro ⟨r, hr, -⟩
      cases hr
  | some w =>
      have hiff := raiseThree_separated_iff w.length (hthird f (by simp)) (hthird g (by simp))
        (hthird h (by simp))
      refine hiff.trans ?_
      rw [and_iff_left (Option.some_ne_none w)]
      constructor
      · intro hn hwhole
        rw [hwhole, frontPart_self (List.cons_ne_nil a [b, c]), Utf8.decode_encodeChars,
          Option.some.injEq] at hw
        rw [← hw] at hn
        simp at hn
      · intro hwhole
        have hlength := length_frontPart hwithin hne hwhole hw
        change 0 < w.length ∧ w.length < 3 at hlength
        omega

/--
After `ThreeSandhi` no two third tones follow each other exactly in the words of two
and four characters and in those of three with a first part of one or two.
-/
theorem ThreeSandhi_separates_iff (q : QuerySegment) (st : Setup) (cs : List Char)
    (finals : List CString) (hq : q.Partitions) (hst : st._jieba.CutForSearch = q.Cut)
    (hfew : KeepsFew st.order) (hcs : cs.length ∈ [2, 3, 4]) (hlength : finals.length = cs.length)
    (hthird : forall f, f ∈ finals -> f.getLast? = some 51) :
    (exists r, ThreeSandhi st (Utf8.encodeChars cs) finals = Except.ok r ∧
        Separated r) ↔
      (cs.length = 3 -> ¬ Unsplit q cs) := by
  have hfits : Fits cs.length finals :=
    ⟨hlength, fun f hf => ne_nil_of_third (hthird f hf)⟩
  simp only [List.mem_cons, List.not_mem_nil, or_false] at hcs
  rcases hcs with htwo | hthree | hfour
  · refine iff_of_true ?_ fun hthree => by omega
    rw [htwo] at hlength hfits
    rcases List.length_eq_two.mp hlength with ⟨f, g, rfl⟩
    refine ⟨[toned 50 f, g], ?_, ?_⟩
    · unfold ThreeSandhi
      rw [Word2WordVec_encodeChars, ok_bind, length_letters, htwo,
        AllToneThree_iff.mpr hthird, ok_bind, if_pos rfl]
      exact hfits.setTone_eq Container.finals (by decide) 50
    · simp [Separated, toned_not_third]
  · rw [hthree] at hlength
    rcases List.length_eq_three.mp hthree with ⟨a, b, c, rfl⟩
    rw [ThreeSandhi_three_iff hq hst hfew hlength hthird]
    simp
  · refine iff_of_true ?_ fun hthree => by omega
    rw [hfour] at hlength
    rcases List.length_eq_four.mp hlength with ⟨f, g, h, k, rfl⟩
    refine ⟨[toned 50 f, g, toned 50 h, k], ?_, ?_⟩
    · unfold ThreeSandhi
      rw [Word2WordVec_encodeChars, ok_bind, length_letters, hfour]
      change (raiseHalf [f, g] >>= fun front => raiseHalf [h, k] >>= fun rear =>
        Except.ok (front ++ rear)) = _
      rw [raiseHalf_pair (hthird f (by simp)) (hthird g (by simp)), ok_bind,
        raiseHalf_pair (hthird h (by simp)) (hthird k (by simp))]
      rfl
    · simp [Separated, toned_not_third]

/-- 纸老虎 is taken apart, every other range is one word. -/
def paperTiger : QuerySegment where
  mixSeg_ := fun range =>
    if range = ['纸', '老', '虎'] then [['纸'], ['老', '虎']]
    else if range = [] then [] else [range]
  Find := fun w => decide (w ∈ [['老', '虎'], ['展', '览'], ['展', '览', '馆']])

theorem paperTiger_partitions : paperTiger.Partitions where
  flatten := by
    intro range
    unfold paperTiger
    dsimp only
    split
    · rename_i hrange
      rw [hrange]
      rfl
    · split
      · rename_i hrange
        rw [hrange]
        rfl
      · simp
  ne_nil := by
    intro range w hw
    unfold paperTiger at hw
    dsimp only at hw
    split at hw
    · rintro rfl
      simp at hw
    · split at hw
      · cases hw
      · rename_i hne
        rw [List.mem_singleton.mp hw]
        exact hne

def searching (q : QuerySegment) : Setup where
  _jieba :=
    { Cut := fun s => [s]
      CutAll := fun s => [s]
      CutForSearch := q.Cut }
  g2pmodel := fun _ => []
  _seperate_tone := []

/-- 纸老虎 -/
theorem ThreeSandhi_separates_paper_tiger :
    paperTiger.Partitions ∧
      exists r, ThreeSandhi (searching paperTiger) (Utf8.encodeChars ['纸', '老', '虎'])
        [str "iii3", str "ao3", str "u3"] = Except.ok r ∧ Separated r := by
  constructor
  · exact paperTiger_partitions
  · refine (ThreeSandhi_separates_iff paperTiger (searching paperTiger) ['纸', '老', '虎']
      [str "iii3", str "ao3", str "u3"] paperTiger_partitions rfl (fun _ _ => rfl)
      (by decide) (by decide) (by decide)).mpr ?_
    intro _ hunsplit
    have hmixed : paperTiger.mixed ['纸', '老', '虎'] = [['纸'], ['老', '虎']] := by
      decide
    simp [Unsplit, hmixed] at hunsplit

/-- 展览馆 is a word of the dictionary: its three third tones stay. -/
theorem ThreeSandhi_keeps_exhibition_hall :
    paperTiger.Partitions ∧ paperTiger.mixed ['展', '览', '馆'] = [['展', '览', '馆']] ∧
      ThreeSandhi (searching paperTiger) (Utf8.encodeChars ['展', '览', '馆'])
          [str "an3", str "an3", str "uan3"] =
        Except.ok [str "an3", str "an3", str "uan3"] ∧
      ¬ Separated [str "an3", str "an3", str "uan3"] := by
  constructor
  · exact paperTiger_partitions
  constructor
  · decide
  constructor
  · decide
  · intro hseparated
    have hpair := (List.isChain_cons_cons.mp hseparated).1
    exact absurd hpair (by decide)

end FrontEngineInterface

end VoiceTts
