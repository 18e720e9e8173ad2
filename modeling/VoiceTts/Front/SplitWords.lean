import VoiceTts.Front.Endings
import VoiceTts.Lib.Utf8Cut

/-!
# Cutting a word in two

`SplitWord` takes a longest piece that `CutForSearch` finds in a word and makes it the
first part or the second one.  It decides by `find_first_of`, a search for
single bytes: the piece goes to the front as soon as the first byte of the word is
among its bytes, wherever the piece stands.
-/

namespace VoiceTts
namespace FrontEngineInterface

/-!
## The piece that is taken
-/

/-- The piece that the sort puts to the front. -/
def firstSubword (st : Setup) (word : CString) : Option CString :=
  (st.order.sort (st._jieba.CutForSearch word)).head?

/-- What `CutForSearch` returns for a word: pieces of it, and at least one. -/
structure Searches (st : Setup) (cs : List Char) : Prop where
  ne_nil : st._jieba.CutForSearch (Utf8.encodeChars cs) ≠ []
  piece : forall p, p ∈ st._jieba.CutForSearch (Utf8.encodeChars cs) ->
    exists ps, ps ≠ [] ∧ ps <:+: cs ∧ p = Utf8.encodeChars ps

theorem SplitWord_eq {st : Setup} {word f : CString}
    (hfirst : firstSubword st word = some f) (hle : f.length ≤ word.length) :
    SplitWord st word =
      Except.ok (if startsWithAny word f then [f, word.drop f.length]
        else [word.take (word.length - f.length), f]) := by
  have hhead : elementAt Container.word_vec
      (st.order.sort (st._jieba.CutForSearch word)) 0 = Except.ok f := by
    have hhead? : (st.order.sort (st._jieba.CutForSearch word)).head? = some f := hfirst
    unfold elementAt
    rw [← List.head?_eq_getElem?, hhead?]
  unfold SplitWord
  dsimp only
  rw [hhead, ok_bind, if_pos hle, if_pos hle]
  split
  · rfl
  · rfl

theorem length_encodeChars_le {ps cs : List Char} (h : ps <:+: cs) :
    (Utf8.encodeChars ps).length ≤ (Utf8.encodeChars cs).length := by
  rcases h with ⟨as, bs, rfl⟩
  rw [Utf8.encodeChars_append, Utf8.encodeChars_append, List.length_append,
    List.length_append]
  omega

theorem encodeChars_eq_nil {cs : List Char} : Utf8.encodeChars cs = [] ↔ cs = [] := by
  constructor
  · intro h
    exact Utf8.encodeChars_injective h
  · intro h
    rw [h]
    rfl

theorem eq_of_length_encodeChars_le {ps cs : List Char} (h : ps <:+: cs)
    (hle : (Utf8.encodeChars cs).length ≤ (Utf8.encodeChars ps).length) : ps = cs := by
  rcases h with ⟨as, bs, rfl⟩
  rw [Utf8.encodeChars_append, Utf8.encodeChars_append, List.length_append,
    List.length_append] at hle
  have has : as = [] := by
    rw [← encodeChars_eq_nil, ← List.length_eq_zero_iff]
    omega
  have hbs : bs = [] := by
    rw [← encodeChars_eq_nil, ← List.length_eq_zero_iff]
    omega
  rw [has, hbs, List.nil_append, List.append_nil]

theorem Searches.exists_first {st : Setup} {cs : List Char} (h : Searches st cs) :
    exists fs, firstSubword st (Utf8.encodeChars cs) = some (Utf8.encodeChars fs) ∧
      fs ≠ [] ∧ fs <:+: cs := by
  cases hfirst : firstSubword st (Utf8.encodeChars cs) with
  | none =>
      exact absurd hfirst (st.order.head?_ne_none h.ne_nil)
  | some f =>
      rcases h.piece f (st.order.mem_of_head? hfirst) with ⟨fs, hne, hwithin, rfl⟩
      exact ⟨fs, rfl, hne, hwithin⟩

/-- The longest piece is the word when the word is one of the pieces. -/
theorem first_eq_iff {st : Setup} {cs fs : List Char} (hwithin : fs <:+: cs)
    (hfirst : firstSubword st (Utf8.encodeChars cs) = some (Utf8.encodeChars fs)) :
    fs = cs ↔ Utf8.encodeChars cs ∈ st._jieba.CutForSearch (Utf8.encodeChars cs) := by
  constructor
  · intro heq
    rw [← heq]
    rw [← heq] at hfirst
    exact st.order.mem_of_head? hfirst
  · intro hmem
    exact eq_of_length_encodeChars_le hwithin (st.order.le_of_head? hfirst hmem)

theorem length_front {cs fs : List Char} {w : WString} (hwithin : fs <:+: cs)
    (hne : fs ≠ []) (hfs : fs ≠ cs)
    (hw : Utf8.decode ((Utf8.encodeChars cs).take
      ((Utf8.encodeChars cs).length - (Utf8.encodeChars fs).length)) = some w) :
    0 < w.length ∧ w.length < cs.length := by
  have hle := length_encodeChars_le hwithin
  have hpos : 0 < (Utf8.encodeChars fs).length :=
    List.length_pos_iff.mpr fun hnil => hne (encodeChars_eq_nil.mp hnil)
  have hlt : (Utf8.encodeChars fs).length < (Utf8.encodeChars cs).length := by
    refine Nat.lt_of_not_le fun hge => ?_
    exact hfs (eq_of_length_encodeChars_le hwithin hge)
  constructor
  · refine List.length_pos_iff.mpr fun hnil => ?_
    rw [hnil, Utf8.decode_eq_nil, ← List.length_eq_zero_iff, List.length_take] at hw
    omega
  · refine Utf8.length_decode_lt (List.take_append_drop _ _) ?_ hw
    rw [← List.length_pos_iff, List.length_drop]
    omega

theorem startsWithAny_iff (word chars : CString) :
    startsWithAny word chars = true ↔ exists b, word.head? = some b ∧ b ∈ chars := by
  cases word with
  | nil =>
      simp [startsWithAny]
  | cons b word =>
      simp [startsWithAny]

theorem startsWithAny_front {cs fs : List Char} (hne : fs ≠ []) (h : fs <+: cs) :
    startsWithAny (Utf8.encodeChars cs) (Utf8.encodeChars fs) = true := by
  cases fs with
  | nil =>
      exact absurd rfl hne
  | cons c fs =>
      rcases h with ⟨bs, rfl⟩
      rcases Utf8.utf8EncodeChar_lead c with ⟨b, rest, hc, -, -⟩
      rw [startsWithAny_iff]
      refine ⟨b, ?_, ?_⟩
      · rw [List.cons_append, Utf8.encodeChars_cons, hc]
        rfl
      · rw [Utf8.encodeChars_cons, hc]
        simp

/-- The first one of the two parts. -/
def frontPart (word f : CString) : CString :=
  if startsWithAny word f then f else word.take (word.length - f.length)

theorem elementAt_frontPart (c : Container) (word f : CString) :
    elementAt c (if startsWithAny word f then [f, word.drop f.length]
      else [word.take (word.length - f.length), f]) 0 =
      Except.ok (frontPart word f) := by
  unfold frontPart
  split
  · rfl
  · rfl

theorem length_frontPart {cs fs : List Char} {w : WString} (hwithin : fs <:+: cs)
    (hne : fs ≠ []) (hfs : fs ≠ cs)
    (hw : Utf8.decode (frontPart (Utf8.encodeChars cs) (Utf8.encodeChars fs)) = some w) :
    0 < w.length ∧ w.length < cs.length := by
  unfold frontPart at hw
  split at hw
  · rw [Utf8.decode_encodeChars, Option.some.injEq] at hw
    rw [← hw, Utf8.units, List.length_map]
    constructor
    · exact List.length_pos_iff.mpr hne
    · refine Nat.lt_of_le_of_ne hwithin.length_le fun hlength => ?_
      exact hfs (hwithin.eq_of_length hlength)
  · exact length_front hwithin hne hfs hw

theorem frontPart_self {cs : List Char} (hcs : cs ≠ []) :
    frontPart (Utf8.encodeChars cs) (Utf8.encodeChars cs) = Utf8.encodeChars cs := by
  unfold frontPart
  rw [if_pos (startsWithAny_front hcs List.prefix_rfl)]

/-!
## When the two parts make up the word
-/

/-- `SplitWord` returns two parts of the word, cut between two characters. -/
def Divides (st : Setup) (cs : List Char) : Prop :=
  exists as bs, as ++ bs = cs ∧
    SplitWord st (Utf8.encodeChars cs) =
      Except.ok [Utf8.encodeChars as, Utf8.encodeChars bs]

/-- A piece with its place: at the front, or at the end and not taken for a front. -/
def AtEdge (cs fs : List Char) : Prop :=
  fs <+: cs ∨
    (fs <:+ cs ∧ forall b, (Utf8.encodeChars cs).head? = some b ->
      b ∉ Utf8.encodeChars fs)

/-- No piece of the word has more bytes. -/
def Longest (st : Setup) (cs fs : List Char) : Prop :=
  Utf8.encodeChars fs ∈ st._jieba.CutForSearch (Utf8.encodeChars cs) ∧
    forall p, p ∈ st._jieba.CutForSearch (Utf8.encodeChars cs) ->
      p.length ≤ (Utf8.encodeChars fs).length

/-- With the order of the pieces given, the first one decides. -/
theorem divides_iff_first {st : Setup} {cs fs : List Char} (h : Searches st cs)
    (hfirst : firstSubword st (Utf8.encodeChars cs) = some (Utf8.encodeChars fs)) :
    Divides st cs ↔ AtEdge cs fs := by
  rcases h.exists_first with ⟨fs', hfirst', hne, hwithin⟩
  have hsame : fs' = fs := by
    rw [hfirst, Option.some.injEq] at hfirst'
    exact (Utf8.encodeChars_injective hfirst').symm
  subst hsame
  unfold Divides AtEdge
  rw [SplitWord_eq hfirst (length_encodeChars_le hwithin)]
  constructor
  · intro hdivides
    rcases hdivides with ⟨as, bs, hcs, hsplit⟩
    rw [Except.ok.injEq] at hsplit
    split at hsplit
    · left
      have has : fs' = as := Utf8.encodeChars_injective (List.cons_eq_cons.mp hsplit).1
      rw [has, ← hcs]
      exact List.prefix_append as bs
    · rename_i hstarts
      right
      have hrest := (List.cons_eq_cons.mp hsplit).2
      have hbs : fs' = bs := Utf8.encodeChars_injective (List.cons_eq_cons.mp hrest).1
      constructor
      · rw [hbs, ← hcs]
        exact List.suffix_append as bs
      · intro b hb hmem
        exact hstarts ((startsWithAny_iff _ _).mpr ⟨b, hb, hmem⟩)
  · intro hcond
    cases hcond with
    | inl hprefix =>
        rw [startsWithAny_front hne hprefix]
        rcases hprefix with ⟨bs, rfl⟩
        refine ⟨fs', bs, rfl, ?_⟩
        rw [if_pos rfl, Utf8.encodeChars_append, List.drop_left]
    | inr hsuffix =>
        have hstarts : ¬ startsWithAny (Utf8.encodeChars cs) (Utf8.encodeChars fs') = true := by
          intro hstarts
          rcases (startsWithAny_iff _ _).mp hstarts with ⟨b, hb, hmem⟩
          exact hsuffix.2 b hb hmem
        rw [if_neg hstarts]
        rcases hsuffix.1 with ⟨as, rfl⟩
        refine ⟨as, fs', rfl, ?_⟩
        rw [Utf8.encodeChars_append, List.length_append, Nat.add_sub_cancel,
          List.take_left]

theorem Longest.of_first {st : Setup} {cs fs : List Char}
    (hfirst : firstSubword st (Utf8.encodeChars cs) = some (Utf8.encodeChars fs)) :
    Longest st cs fs :=
  ⟨st.order.mem_of_head? hfirst, fun _ hp => st.order.le_of_head? hfirst hp⟩

/-- Any of the longest pieces may come out in front. -/
theorem Longest.exists_order {st : Setup} {cs fs : List Char} (h : Longest st cs fs) :
    exists o : LongestFirst,
      firstSubword { st with order := o } (Utf8.encodeChars cs) =
        some (Utf8.encodeChars fs) := by
  refine ⟨LongestFirst.choosing (Utf8.encodeChars fs), ?_⟩
  unfold firstSubword LongestFirst.choosing
  dsimp only
  rw [if_pos ⟨h.1, h.2⟩, List.head?_cons]

/--
Whichever way equally long pieces are ordered, the parts make up the word, exactly when
each of the longest pieces stands at the front of the word, or at its end and without
the first byte of the word among its bytes.
-/
theorem SplitWord_divides_iff (st : Setup) (cs : List Char) (h : Searches st cs) :
    (forall o : LongestFirst, Divides { st with order := o } cs) ↔
      forall fs, Longest st cs fs -> AtEdge cs fs := by
  have hsearches : forall o : LongestFirst, Searches { st with order := o } cs :=
    fun o => ⟨h.ne_nil, h.piece⟩
  constructor
  · intro hdivides fs hlongest
    rcases hlongest.exists_order with ⟨o, hfirst⟩
    exact (divides_iff_first (hsearches o) hfirst).mp (hdivides o)
  · intro hedge o
    rcases (hsearches o).exists_first with ⟨fs, hfirst, -, -⟩
    have hlongest : Longest { st with order := o } cs fs := Longest.of_first hfirst
    exact (divides_iff_first (hsearches o) hfirst).mpr (hedge fs hlongest)

/-- A front engine whose segmenter finds these pieces. -/
def cutting (pieces : List CString) : Setup where
  _jieba :=
    { Cut := fun s => [s]
      CutAll := fun s => [s]
      CutForSearch := fun _ => pieces }
  g2pmodel := fun _ => []
  _seperate_tone := []

theorem searches_pair {first second : List Char} (hfirst : first ≠ [])
    (hsecond : second ≠ []) :
    Searches (cutting [Utf8.encodeChars first, Utf8.encodeChars second])
      (first ++ second) where
  ne_nil := List.cons_ne_nil _ _
  piece := by
    intro p hp
    cases List.mem_cons.mp hp with
    | inl hp =>
        exact ⟨first, hfirst, (List.prefix_append first second).isInfix, hp⟩
    | inr hp =>
        exact ⟨second, hsecond, (List.suffix_append first second).isInfix,
          List.mem_singleton.mp hp⟩

/-- 小雨伞 -/
theorem SplitWord_divides_umbrella :
    Searches (cutting [str "小", str "雨伞"]) ['小', '雨', '伞'] ∧
      forall o : LongestFirst,
        Divides { cutting [str "小", str "雨伞"] with order := o } ['小', '雨', '伞'] := by
  have hsearches : Searches (cutting [str "小", str "雨伞"]) ['小', '雨', '伞'] :=
    searches_pair (List.cons_ne_nil '小' []) (List.cons_ne_nil '雨' ['伞'])
  have hapart : forall b, (Utf8.encodeChars ['小', '雨', '伞']).head? = some b ->
      b ∉ Utf8.encodeChars ['雨', '伞'] := by
    intro b hb
    have hbyte : some 0xe5 = some b := hb
    cases hbyte
    decide
  constructor
  · exact hsearches
  · refine (SplitWord_divides_iff _ ['小', '雨', '伞'] hsearches).mpr ?_
    rintro fs ⟨hmem, hlongest⟩
    have hsix := hlongest (str "雨伞") (by decide)
    rcases List.mem_cons.mp hmem with hfs | hfs
    · rw [hfs] at hsix
      exact absurd hsix (by decide)
    · have hchars : fs = ['雨', '伞'] :=
        Utf8.encodeChars_injective (List.mem_singleton.mp hfs)
      rw [hchars]
      exact Or.inr ⟨by decide, hapart⟩

/-- 小 and 学 share their first byte: 小学校 becomes 学校 and 校. -/
theorem SplitWord_not_divides_school :
    Searches (cutting [str "小", str "学校"]) ['小', '学', '校'] ∧
      SplitWord (cutting [str "小", str "学校"]) (str "小学校") =
        Except.ok [str "学校", str "校"] ∧
      ¬ Divides (cutting [str "小", str "学校"]) ['小', '学', '校'] := by
  have hsplit : SplitWord (cutting [str "小", str "学校"])
      (Utf8.encodeChars ['小', '学', '校']) =
      Except.ok [Utf8.encodeChars ['学', '校'], Utf8.encodeChars ['校']] := by
    decide
  constructor
  · exact searches_pair (List.cons_ne_nil '小' []) (List.cons_ne_nil '学' ['校'])
  constructor
  · exact hsplit
  · intro hdivides
    rcases hdivides with ⟨as, bs, hcs, hparts⟩
    rw [hsplit, Except.ok.injEq, List.cons_eq_cons, List.cons_eq_cons] at hparts
    have has : ['学', '校'] = as := Utf8.encodeChars_injective hparts.1
    have hbs : ['校'] = bs := Utf8.encodeChars_injective hparts.2.1
    rw [← has, ← hbs] at hcs
    exact absurd hcs (by decide)

end FrontEngineInterface
end VoiceTts
