import VoiceTts.Lib.Pairs
import VoiceTts.Front.Coarsening

/-!
# Pairs of third tones

`MergeThreeTones` and `MergeThreeTones2` join a word to the one before it, unless that
one has been joined itself.  This module says two things of the words that come out: they
have at most two parts; and in a row of words that may be joined to the ones before them
every other one is.  The test of `MergeThreeTones` is passed by words without finals as
well.
-/

namespace VoiceTts
namespace FrontEngineInterface

open Blocks

/-!
## Words of two parts
-/

/--
A word joined to the one before it: its tag is `x`, the first one is no
reduplication, and together they have three characters at most.
-/
def Joinable (p t : CString × CString) : Prop :=
  t.2 = str "x" ∧ exists cs ds, p.1 = Utf8.encodeChars cs ∧ t.1 = Utf8.encodeChars ds ∧
    ¬ Reduplication cs ∧ cs.length + ds.length ≤ 3

/-- A word of the output is a word of the input or made of two neighbours. -/
def OneOrTwo (b : Seg) (w : CString × CString) : Prop :=
  b = [w] ∨ exists p t, b = [p, t] ∧ w = (p.1 ++ t.1, p.2) ∧ Joinable p t

/-- The output is the input with some pairs of neighbours joined, the mark at the end apart. -/
def Paired (l out : Seg) : Prop :=
  exists bs : List Seg, bs.flatten = l ∧ List.Forall₂ OneOrTwo bs out ∧
    forall last, l.getLast? = some last -> last.1 ∈ _punc -> bs.getLast? = some [last]

section Pairs

variable {tones : List CString -> List CString -> Except Error Bool}

theorem joinable_of_threeJoin {p a : (CString × CString) × List CString}
    (hp : Utf8Word p.1.1) (ha : Utf8Word a.1.1) (h : threeJoin tones [p] a = true) :
    Joinable p.1 a.1 := by
  rcases hp with ⟨cs, hcs⟩
  rcases ha with ⟨ds, hds⟩
  have hjoin := of_decide_eq_true h
  have hfits := hjoin.2.2.2
  rw [hcs, hds, fitsThree_encodeChars] at hfits
  have hboth := of_decide_eq_true (Except.ok.inj hfits)
  exact ⟨hjoin.1, cs, ds, hcs, hds, hboth⟩

/-- A block of a pass: an item of the list, or two that may be joined. -/
def OneOrJoinable (items b : List ((CString × CString) × List CString)) : Prop :=
  (exists p, p ∈ items ∧ b = [p]) ∨ exists p a, b = [p, a] ∧ Joinable p.1 a.1

theorem oneOrTwo_of_mem_blocks {l : Seg} {finals : List (List CString)}
    (hwords : forall t, t ∈ l -> Utf8Word t.1)
    {b : List ((CString × CString) × List CString)}
    (hb : b ∈ blocks (threeJoin tones) (l.zip finals)) :
    OneOrTwo (b.map Prod.fst) (itemToken b) := by
  have hword : forall a, a ∈ l.zip finals -> Utf8Word a.1.1 := by
    intro a ha
    exact hwords a.1 (List.of_mem_zip ha).1
  have hnew : forall a, a ∈ l.zip finals -> OneOrJoinable (l.zip finals) [a] := by
    intro a ha
    exact Or.inl ⟨a, ha, rfl⟩
  have hjoin : forall cur a, a ∈ l.zip finals -> OneOrJoinable (l.zip finals) cur ->
      threeJoin tones cur a = true -> OneOrJoinable (l.zip finals) (cur ++ [a]) := by
    intro cur a ha hcur hjoin
    rcases hcur with ⟨p, hp, rfl⟩ | ⟨p, c, rfl, -⟩
    · exact Or.inr ⟨p, a, rfl, joinable_of_threeJoin (hword p hp) (hword a ha) hjoin⟩
    · cases hjoin
  rcases forall_mem_blocks (l.zip finals) hnew hjoin b hb with ⟨p, -, rfl⟩ | ⟨p, a, rfl, hjoinable⟩
  · left
    simp [itemToken]
  · right
    refine ⟨p.1, a.1, rfl, ?_, hjoinable⟩
    simp [itemToken, firstToken]

theorem paired_byTones {l : Seg} {finals : List (List CString)}
    (hlen : finals.length = (body l).length)
    (hwords : forall t, t ∈ l -> Utf8Word t.1) : Paired l (byTones tones l finals) := by
  have hbody : forall t, t ∈ body l -> Utf8Word t.1 := by
    intro t ht
    apply hwords
    rw [← body_append_held l]
    exact List.mem_append_left _ ht
  refine ⟨threeBlocks tones l finals, flatten_threeBlocks tones hlen, ?_, ?_⟩
  · rw [byTones, List.forall₂_map_right_iff, List.forall₂_same]
    intro b hb
    rcases List.mem_append.mp hb with hb | hb
    · rcases List.mem_map.mp hb with ⟨items, hitems, rfl⟩
      exact oneOrTwo_of_mem_blocks hbody hitems
    · rcases List.mem_map.mp hb with ⟨t, -, rfl⟩
      left
      rw [firstToken_singleton]
  · intro last hlast hpunc
    have hheld : held l = [last] := by
      unfold held
      rw [hlast]
      exact if_pos hpunc
    rw [threeBlocks, hheld]
    simp

theorem mergeThree_paired {σ : Type} {getFinals : CString -> Prog Error σ (List CString)}
    (htones : forall f g, (forall x, x ∈ f -> x ≠ []) -> (forall x, x ∈ g -> x ≠ []) ->
      Yields (fun _ => True) (fun _ : Error => False) (tones f g))
    (hfinals : forall w s, exists finals s',
      getFinals w s = (Except.ok finals, s') ∧ forall f, f ∈ finals -> f ≠ [])
    {l : Seg} (hl : l ≠ []) (hwords : forall t, t ∈ l -> Utf8Word t.1) (s : σ) :
    exists out s', mergeThree getFinals tones l s = (Except.ok out, s') ∧
      Paired l out := by
  have hget : forall w s, Yields (fun fs => forall f, f ∈ fs -> f ≠ [])
      (fun _ : Error => False) (getFinals w s).1 := by
    intro w s
    rcases hfinals w s with ⟨finals, s', heq, hne⟩
    rw [heq]
    exact hne
  have hyields := mergeThree_yields hget htones (fun _ _ => fitsThree_utf8) hl hwords s
  rcases hyields.exists_ok with ⟨out, hout, -⟩
  have hrun : mergeThree getFinals tones l s =
      (Except.ok out, (mergeThree getFinals tones l s).2) := Prod.ext hout rfl
  rcases mergeThree_ok hrun with ⟨-, finals, -, hlen, hbyTones⟩
  refine ⟨out, _, hrun, ?_⟩
  rw [hbyTones]
  exact paired_byTones hlen hwords

end Pairs

/--
Whatever non-empty finals the lookups return, both passes return, and a word that
comes out is a word of the input or two neighbours that may be joined.
-/
theorem MergeThreeTones_paired {σ : Type}
    (getFinals : CString -> Prog Error σ (List CString))
    (hfinals : forall w s, exists finals s',
      getFinals w s = (Except.ok finals, s') ∧ forall f, f ∈ finals -> f ≠ [])
    (l : Seg) (hl : l ≠ []) (hwords : forall t, t ∈ l -> Utf8Word t.1) (s : σ) :
    (exists out s', MergeThreeTones getFinals l s = (Except.ok out, s') ∧
      Paired l out) ∧
    exists out s', MergeThreeTones2 getFinals l s = (Except.ok out, s') ∧
      Paired l out := by
  have hback : forall f : CString, f ≠ [] ->
      Yields (fun _ => True) (fun _ : Error => False) (back Container.final f) :=
    fun _ => back_of_ne_nil Container.final
  constructor
  · exact mergeThree_paired (fun _ _ => bothToneThree_yields hback) hfinals hl hwords s
  · exact mergeThree_paired (fun _ _ => edgeToneThree_yields hback) hfinals hl hwords s

theorem MergeThreeTones_paired_names :
    (exists out s', MergeThreeTones (σ := Unit) (fun _ => pure [str "i3"])
        [(str "李", str "x"), (str "美", str "x"), (str "起", str "x"), (str "。", str "x")] () =
        (Except.ok out, s') ∧
      Paired [(str "李", str "x"), (str "美", str "x"), (str "起", str "x"),
        (str "。", str "x")] out) ∧
    exists out s', MergeThreeTones2 (σ := Unit) (fun _ => pure [str "i3"])
        [(str "李", str "x"), (str "美", str "x"), (str "起", str "x"), (str "。", str "x")] () =
        (Except.ok out, s') ∧
      Paired [(str "李", str "x"), (str "美", str "x"), (str "起", str "x"),
        (str "。", str "x")] out := by
  refine MergeThreeTones_paired _ ?_ _ (by simp) ?_ ()
  · intro w s
    exact ⟨[str "i3"], s, rfl, by decide⟩
  · intro t ht
    simp only [List.mem_cons, List.not_mem_nil, or_false] at ht
    rcases ht with rfl | rfl | rfl | rfl
    · exact ⟨"李".toList, rfl⟩
    · exact ⟨"美".toList, rfl⟩
    · exact ⟨"起".toList, rfl⟩
    · exact ⟨"。".toList, rfl⟩

/-!
## Words without finals
-/

/-- A word with the finals that were looked up for it. -/
abbrev WordFinals : Type :=
  (CString × CString) × List CString

/-- The first word is no reduplication, and both have three characters at most. -/
def Short (prev word : CString) : Prop :=
  exists us vs, Utf8.decode prev = some us ∧ Utf8.decode word = some vs ∧
    (forall c, us ≠ [c, c]) ∧ us.length + vs.length ≤ 3

/-- What the pass asks of two neighbours, apart from the joins that it has made. -/
structure MayJoin (p a : WordFinals) : Prop where
  tag : a.1.2 = str "x"
  blank : a.1.1 ≠ str " "
  before : forall f, f ∈ p.2 -> f.getLast? = some 51
  behind : forall f, f ∈ a.2 -> f.getLast? = some 51
  short : Short p.1.1 a.1.1

/-- The word has finals, and all of them have the third tone. -/
def ThirdTones (a : WordFinals) : Prop :=
  a.2 ≠ [] ∧ forall f, f ∈ a.2 -> f.getLast? = some 51

theorem bothToneThree_iff {f g : List CString} :
    bothToneThree f g = Except.ok true ↔
      (forall x, x ∈ f -> x.getLast? = some 51) ∧
        forall x, x ∈ g -> x.getLast? = some 51 := by
  rw [← AllToneThree_iff, ← AllToneThree_iff]
  unfold bothToneThree
  cases AllToneThree f with
  | error e =>
      simp [bind, Except.bind]
  | ok flags =>
      rw [ok_bind]
      cases flags with
      | true =>
          simp
      | false =>
          simp [pure, Except.pure]

theorem IsReduplication_of_decode {word : CString} {us : WString}
    (h : Utf8.decode word = some us) :
    exists twice, IsReduplication word = Except.ok twice ∧
      (twice = true ↔ exists c, us = [c, c]) := by
  unfold IsReduplication utf8string2wstring
  rw [h]
  match us with
  | [] =>
      exact ⟨false, rfl, by simp⟩
  | [_] =>
      exact ⟨false, rfl, by simp⟩
  | [c, d] =>
      refine ⟨decide (c = d), rfl, ?_⟩
      rw [decide_eq_true_eq]
      constructor
      · rintro rfl
        exact ⟨c, rfl⟩
      · rintro ⟨e, heq⟩
        cases heq
        rfl
  | _ :: _ :: _ :: _ =>
      exact ⟨false, rfl, by simp⟩

theorem fitsThree_iff {prev word : CString} :
    fitsThree prev word = Except.ok true ↔ Short prev word := by
  unfold fitsThree Short
  cases hprev : Utf8.decode prev with
  | none =>
      simp [IsReduplication, utf8string2wstring, hprev, bind, Except.bind]
  | some us =>
      rcases IsReduplication_of_decode hprev with ⟨twice, htwice, hiff⟩
      rw [htwice, ok_bind]
      cases twice with
      | true =>
          rcases hiff.mp rfl with ⟨c, rfl⟩
          simp [pure, Except.pure]
      | false =>
          have hsingle : forall c, us ≠ [c, c] := by
            intro c hc
            exact Bool.false_ne_true (hiff.mpr ⟨c, hc⟩)
          cases hword : Utf8.decode word with
          | none =>
              simp [utf8string2wstring, hprev, hword, bind, Except.bind]
          | some vs =>
              simp [utf8string2wstring, hprev, hword, bind, Except.bind, pure, Except.pure,
                hsingle]

theorem threeJoin_iff {p a : WordFinals} :
    threeJoin bothToneThree [p] a = true ↔ MayJoin p a := by
  unfold threeJoin
  rw [decide_eq_true_eq, bothToneThree_iff, fitsThree_iff]
  constructor
  · rintro ⟨htag, hblank, ⟨hbefore, hbehind⟩, hshort⟩
    exact ⟨htag, hblank, hbefore, hbehind, hshort⟩
  · rintro ⟨htag, hblank, hbefore, hbehind, hshort⟩
    exact ⟨htag, hblank, ⟨hbefore, hbehind⟩, hshort⟩

instance : DecidableRel MayJoin :=
  fun _ _ => decidable_of_iff _ threeJoin_iff

/-- The pass joins a word to the one before it if that one is not joined itself. -/
theorem threeJoin_eq : threeJoin bothToneThree = pairJoin MayJoin := by
  funext cur a
  match cur with
  | [] =>
      rfl
  | [p] =>
      rw [Bool.eq_iff_iff, threeJoin_iff, pairJoin, decide_eq_true_eq]
  | _ :: _ :: _ =>
      rfl

/-- The words that come out, each as the words of the input that it is made of. -/
def joined (l : Seg) (finals : List (List CString)) : List (List WordFinals) :=
  blocks (threeJoin bothToneThree) ((body l).zip finals)

/-- Words of third tones only are joined, if in no uneven row a word has no finals. -/
theorem joined_third_iff (l : Seg) (finals : List (List CString)) :
    (forall b, b ∈ joined l finals -> b.IsChain fun p a => ThirdTones p ∧ ThirdTones a) ↔
      forall i p a, ((body l).zip finals)[i]? = some p ->
        ((body l).zip finals)[i + 1]? = some a -> p.2 = [] ∨ a.2 = [] ->
        Even (streak MayJoin ((body l).zip finals) (i + 1)) := by
  unfold joined
  rw [threeJoin_eq, isChain_blocks_iff]
  constructor
  · intro hthird i p a hp ha hempty
    rw [← Nat.not_odd_iff_even]
    intro hodd
    have hboth := hthird i p a hp ha hodd
    exact hempty.elim hboth.1.1 hboth.2.1
  · intro heven i p a hp ha hodd
    have hfull : ¬ (p.2 = [] ∨ a.2 = []) := by
      intro hempty
      exact Nat.not_odd_iff_even.mpr (heven i p a hp ha hempty) hodd
    rw [not_or] at hfull
    rw [streak_succ hp ha] at hodd
    split at hodd
    · rename_i hjoin
      exact ⟨⟨hfull.1, hjoin.before⟩, hfull.2, hjoin.behind⟩
    · cases hodd.not_two_dvd_nat (dvd_zero 2)

/--
`MergeThreeTones` returns the words of its input, some of them joined to the one before
them.  The words that it joins all have finals of the third tone exactly when a word
without finals, or the word behind it, ends no row of an uneven number of words that may
be joined to the ones before them.
-/
theorem MergeThreeTones_third_iff {σ : Type}
    (getFinals : CString -> Prog Error σ (List CString)) (l out : Seg) (s s' : σ)
    (hrun : MergeThreeTones getFinals l s = (Except.ok out, s')) :
    exists finals, finalsRows getFinals (body l) s = (Except.ok finals, s') ∧
      finals.length = (body l).length ∧
      (joined l finals).flatten = (body l).zip finals ∧
      out = (joined l finals).map itemToken ++ held l ∧
      ((forall b, b ∈ joined l finals ->
          b.IsChain fun p a => ThirdTones p ∧ ThirdTones a) ↔
        forall i p a, ((body l).zip finals)[i]? = some p ->
          ((body l).zip finals)[i + 1]? = some a -> p.2 = [] ∨ a.2 = [] ->
          Even (streak MayJoin ((body l).zip finals) (i + 1))) := by
  rcases mergeThree_ok hrun with ⟨-, finals, hrows, hlength, hout⟩
  refine ⟨finals, hrows, hlength, flatten_blocks _ _, ?_, joined_third_iff l finals⟩
  have hheld : ((held l).map fun t => [t]).map firstToken = held l := by
    rw [List.map_map]
    exact (List.map_congr_left fun t _ => firstToken_singleton t).trans (List.map_id _)
  rw [hout, byTones, threeBlocks, List.map_append, hheld, List.map_map]
  rfl

/-- 李 and 美 are joined, and both have the third tone. -/
theorem MergeThreeTones_third_names :
    exists finals, finalsRows (σ := Unit) (fun _ => pure [str "i3"])
        (body [(str "李", str "x"), (str "美", str "x")]) () = (Except.ok finals, ()) ∧
      [(str "李美", str "x")] =
        (joined [(str "李", str "x"), (str "美", str "x")] finals).map itemToken ++
          held [(str "李", str "x"), (str "美", str "x")] ∧
      forall b, b ∈ joined [(str "李", str "x"), (str "美", str "x")] finals ->
        b.IsChain fun p a => ThirdTones p ∧ ThirdTones a := by
  rcases MergeThreeTones_third_iff (fun _ => pure [str "i3"])
    [(str "李", str "x"), (str "美", str "x")] [(str "李美", str "x")] () () (by decide) with
    ⟨finals, hrows, -, -, hout, hiff⟩
  refine ⟨finals, hrows, hout, hiff.mpr ?_⟩
  have hboth : (Except.ok [[str "i3"], [str "i3"]], ()) = (Except.ok finals, ()) := hrows
  cases hboth
  intro i p a hp ha hempty
  have hnone : forall q, q ∈ (body [(str "李", str "x"), (str "美", str "x")]).zip
      [[str "i3"], [str "i3"]] -> q.2 ≠ [] := by
    decide
  exact (hempty.elim (hnone p (List.mem_of_getElem? hp))
    (hnone a (List.mem_of_getElem? ha))).elim

/--
A quotation mark has no finals and is joined to the word before it, and so is a
word to the Latin word before it.
-/
theorem MergeThreeTones_quoted :
    (MergeThreeTones (σ := Unit) (fun _ => pure [str "uo3"])
        [(str "我", str "x"), (str "“", str "x")] () =
        (Except.ok [(str "我“", str "x")], ()) ∧
      finalsRows (σ := Unit) (fun _ => pure [str "uo3"])
        (body [(str "我", str "x"), (str "“", str "x")]) () =
        (Except.ok [[str "uo3"], []], ()) ∧
      joined [(str "我", str "x"), (str "“", str "x")] [[str "uo3"], []] =
        [[((str "我", str "x"), [str "uo3"]), ((str "“", str "x"), [])]] ∧
      ¬ ThirdTones ((str "“", str "x"), [])) ∧
    MergeThreeTones (σ := Unit) (fun _ => pure [str "uo3"])
      [(str "ok", str "eng"), (str "我", str "x")] () =
      (Except.ok [(str "ok我", str "eng")], ()) := by
  refine ⟨⟨?_, ?_, ?_, ?_⟩, ?_⟩
  · decide
  · decide
  · decide
  · intro hthird
    exact hthird.1 rfl
  · decide

end FrontEngineInterface
end VoiceTts
