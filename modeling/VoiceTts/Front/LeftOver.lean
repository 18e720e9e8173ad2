import VoiceTts.Front.Coarsening

/-!
# The 不 that is left over

Read from left to right, a 不 that has not been taken itself takes the word after
it, and so does a 一.  The scan `takes` follows both at once; it tells whether
`MergeBu` ends with a 不 in its hands, and whether a 一 takes it in the
next pass.  A 不 that nothing takes goes through all other passes as it is.
-/

namespace VoiceTts
namespace FrontEngineInterface

open Blocks

/-- One word of the scan with the pair (不 is waiting, 一 is waiting). -/
def takeStep (p : Bool × Bool) (t : CString × CString) : Bool × Bool :=
  if p.1 then (false, false)
  else if t.1 = str "不" then (true, p.2)
  else (false, decide (t.1 = str "一") && !p.2)

def takes (l : Seg) : Bool × Bool :=
  l.foldl takeStep (false, false)

def NoEmpty (l : Seg) : Prop :=
  forall t, t ∈ l -> t.1 ≠ []

theorem str_bu : str "不" = [0xE4, 0xB8, 0x8D] := by
  decide

theorem str_yi : str "一" = [0xE4, 0xB8, 0x80] := by
  decide

theorem bu_append_ne_yi (v : CString) : str "不" ++ v ≠ str "一" := by
  simp [str_bu, str_yi]

theorem yi_append_ne_bu (v : CString) : str "一" ++ v ≠ str "不" := by
  simp [str_bu, str_yi]

/-- The last block of the next pass is a 一 that takes what follows. -/
def yiWaits (m : Seg) : Bool :=
  match (yiBlocks m).getLast? with
  | some cur => decide (text cur = str "一")
  | none => false

theorem yiWaits_concat (m : Seg) {t : CString × CString} (ht : t.1 ≠ []) :
    yiWaits (m ++ [t]) = (decide (t.1 = str "一") && !yiWaits m) := by
  have hblocks : yiBlocks (m ++ [t]) = addItem yiJoin (yiBlocks m) t :=
    blocks_concat yiJoin m t
  unfold yiWaits
  rw [hblocks]
  rcases addItem_cases yiJoin (yiBlocks m) t with
    ⟨hbs, h⟩ | ⟨pre, cur, hbs, hjoin, h⟩ | ⟨pre, cur, hbs, hjoin, h⟩
  · rw [h, hbs]
    simp
  · have hcur : text cur = str "一" := of_decide_eq_true hjoin
    rw [h, hbs]
    simp [hcur, ht]
  · have hcur : text cur ≠ str "一" := of_decide_eq_false hjoin
    rw [h, hbs]
    simp [hcur]

/-- The invariant of the scan: what the blocks of `MergeBu` look like so far. -/
theorem takes_cases {l : Seg} (hl : NoEmpty l) :
    ((takes l).1 = false ∧ (forall b, b ∈ buBlocks l -> text b ≠ str "不") ∧
        yiWaits ((buBlocks l).map lastToken) = (takes l).2) ∨
      ((takes l).1 = true ∧ exists pre u, buBlocks l = pre ++ [[u]] ∧
        u.1 = str "不" ∧ (forall b, b ∈ pre -> text b ≠ str "不") ∧
        yiWaits (pre.map lastToken) = (takes l).2) := by
  induction l using List.reverseRecOn with
  | nil =>
      exact Or.inl ⟨rfl, by simp [buBlocks], rfl⟩
  | append_singleton l a ih =>
      have ha : a.1 ≠ [] := hl a (by simp)
      have hblocks : buBlocks (l ++ [a]) = addItem buJoin (buBlocks l) a :=
        blocks_concat buJoin l a
      have htakes : takes (l ++ [a]) = takeStep (takes l) a := by
        simp [takes]
      rw [htakes, hblocks]
      rcases ih fun t ht => hl t (by simp [ht]) with
        ⟨hfst, hbs, hsnd⟩ | ⟨hfst, pre, u, hbs, hu, hpre, hsnd⟩
      · have hadd : addItem buJoin (buBlocks l) a = buBlocks l ++ [[a]] := by
          rcases addItem_cases buJoin (buBlocks l) a with
            ⟨hnil, h⟩ | ⟨pre, cur, hcur, hjoin, -⟩ | ⟨pre, cur, hcur, -, h⟩
          · rw [h, hnil]
            rfl
          · have hne := hbs cur (by simp [hcur])
            exact absurd (of_decide_eq_true hjoin) hne
          · rw [h, hcur]
        rw [hadd]
        by_cases hbu : a.1 = str "不"
        · right
          refine ⟨?_, buBlocks l, a, rfl, hbu, hbs, ?_⟩
          · simp [takeStep, hfst, hbu]
          · simp [takeStep, hfst, hbu, hsnd]
        · left
          refine ⟨?_, ?_, ?_⟩
          · simp [takeStep, hfst, hbu]
          · intro b hb
            rcases List.mem_append.mp hb with hb | hb
            · exact hbs b hb
            · rw [List.mem_singleton.mp hb]
              simpa using hbu
          · rw [List.map_append, List.map_singleton, lastToken_singleton,
              yiWaits_concat _ ha, hsnd]
            simp [takeStep, hfst, hbu]
      · have hadd : addItem buJoin (buBlocks l) a = pre ++ [[u] ++ [a]] := by
          rw [hbs, addItem_concat]
          simp [buJoin, hu]
        left
        rw [hadd]
        refine ⟨?_, ?_, ?_⟩
        · simp [takeStep, hfst]
        · intro b hb
          rcases List.mem_append.mp hb with hb | hb
          · exact hpre b hb
          · rw [List.mem_singleton.mp hb]
            simp [hu, ha]
        · rw [List.map_append, List.map_singleton, lastToken_concat]
          have hne : text [u] ++ a.1 ≠ [] := by simp [ha]
          rw [yiWaits_concat _ hne]
          have hyi : u.1 ++ a.1 ≠ str "一" := by
            rw [hu]
            exact bu_append_ne_yi a.1
          simp [takeStep, hfst, hyi]

/-!
## After `Mergeyi`
-/

/-- The words after `MergeBu`, but with its own tag for a 不 that is left over. -/
def keepTags (l : Seg) : Seg :=
  (buBlocks l).map lastToken

/-- The words after `MergeBu` and `Mergeyi`. -/
def afterYi (l : Seg) : Seg :=
  (yiBlocks (MergeBu l)).map firstToken

theorem MergeBu_of_not_left {l : Seg}
    (h : forall b, b ∈ buBlocks l -> text b ≠ str "不") :
    MergeBu l = keepTags l := by
  rw [MergeBu_eq, keepTags]
  apply List.map_congr_left
  intro b hb
  simp [buToken, h b hb]

theorem MergeBu_of_left {l : Seg} {pre : List Seg} {u : CString × CString}
    (hbs : buBlocks l = pre ++ [[u]]) (hu : u.1 = str "不")
    (hpre : forall b, b ∈ pre -> text b ≠ str "不") :
    MergeBu l = pre.map lastToken ++ [(str "不", str "d")] ∧
      keepTags l = pre.map lastToken ++ [u] := by
  have hmap : pre.map buToken = pre.map lastToken := by
    apply List.map_congr_left
    intro b hb
    simp [buToken, hpre b hb]
  constructor
  · rw [MergeBu_eq, hbs, List.map_append, hmap]
    simp [buToken, hu]
  · rw [keepTags, hbs, List.map_append]
    simp

/-- No block of `Mergeyi` makes a 不 out of other words. -/
theorem text_yiBlocks_ne_bu {m : Seg} (hm : forall t, t ∈ m -> t.1 ≠ str "不") :
    forall b, b ∈ yiBlocks m -> text b ≠ str "不" := by
  refine forall_mem_blocks m ?_ ?_
  · intro t ht
    simpa using hm t ht
  · intro cur t _ _ hjoin
    have hcur : text cur = str "一" := of_decide_eq_true hjoin
    rw [text_append, hcur]
    exact yi_append_ne_bu _

/--
Either the tag of a 不 that is left over makes no difference after `Mergeyi`, or
that 不 is the last word and the only one of its kind.
-/
theorem afterYi_cases {l : Seg} (hl : NoEmpty l) :
    (((takes l).1 = true -> (takes l).2 = true) ∧
        afterYi l = (yiBlocks (keepTags l)).map firstToken) ∨
      ((takes l).1 = true ∧ (takes l).2 = false ∧
        exists m u, afterYi l = m ++ [(str "不", str "d")] ∧
          (yiBlocks (keepTags l)).map firstToken = m ++ [u] ∧
          l.getLast? = some u ∧ u.1 = str "不" ∧ forall t, t ∈ m -> t.1 ≠ str "不") := by
  rcases takes_cases hl with ⟨hfst, hbs, -⟩ | ⟨hfst, pre, u, hbs, hu, hpre, hsnd⟩
  · left
    refine ⟨fun h => absurd h (by simp [hfst]), ?_⟩
    rw [afterYi, MergeBu_of_not_left hbs]
  · rcases MergeBu_of_left hbs hu hpre with ⟨hbu, hkeep⟩
    have hlast : l.getLast? = some u := by
      have hflat : (buBlocks l).flatten = l := flatten_blocks buJoin l
      rw [← hflat, hbs]
      simp
    have hblocks : forall t, yiBlocks (pre.map lastToken ++ [t]) =
        addItem yiJoin (yiBlocks (pre.map lastToken)) t :=
      fun t => blocks_concat yiJoin _ t
    unfold afterYi
    rw [hbu, hkeep, hblocks, hblocks]
    unfold yiWaits at hsnd
    rcases List.eq_nil_or_concat (yiBlocks (pre.map lastToken)) with
      hyi | ⟨ypre, cur, hyi⟩
    · right
      rw [hyi] at hsnd ⊢
      exact ⟨hfst, hsnd.symm, [], u, by simp [addItem_nil], by simp [addItem_nil],
        hlast, hu, by simp⟩
    · rw [List.concat_eq_append] at hyi
      rw [hyi] at hsnd ⊢
      rw [addItem_concat, addItem_concat]
      by_cases hcur : text cur = str "一"
      · left
        have hne : cur ≠ [] := by
          rintro rfl
          exact absurd hcur (by decide)
        refine ⟨fun _ => by simpa [hcur] using hsnd.symm, ?_⟩
        simp [yiJoin, hcur, firstToken_concat hne, hu]
      · right
        refine ⟨hfst, by simpa [hcur] using hsnd.symm,
          (ypre ++ [cur]).map firstToken, u, by simp [yiJoin, hcur],
          by simp [yiJoin, hcur], hlast, hu, ?_⟩
        intro t ht
        rcases List.mem_map.mp ht with ⟨b, hb, rfl⟩
        refine text_yiBlocks_ne_bu ?_ b (hyi ▸ hb)
        intro v hv
        rcases List.mem_map.mp hv with ⟨c, hc, rfl⟩
        exact hpre c hc

/-!
## The passes behind it
-/

theorem MergeReduplication_left {m : Seg} (hm : forall t, t ∈ m -> t.1 ≠ str "不")
    (tag : CString) :
    MergeReduplication (m ++ [(str "不", tag)]) =
      MergeReduplication m ++ [(str "不", tag)] := by
  have htext : forall b, b ∈ redupBlocks m -> text b ≠ str "不" := by
    refine forall_mem_blocks m ?_ ?_
    · intro t ht
      simpa using hm t ht
    · intro cur t _ _ hjoin hbu
      have hcur : t.1 = text cur := of_decide_eq_true hjoin
      have hlen := congrArg List.length hbu
      rw [text_append, text_cons, text_nil, List.append_nil, hcur,
        List.length_append, str_bu] at hlen
      simp only [List.length_cons, List.length_nil] at hlen
      omega
  have hblocks : redupBlocks (m ++ [(str "不", tag)]) =
      addItem redupJoin (redupBlocks m) (str "不", tag) := blocks_concat redupJoin m _
  rw [MergeReduplication_eq, MergeReduplication_eq, hblocks]
  rcases addItem_cases redupJoin (redupBlocks m) (str "不", tag) with
    ⟨hbs, h⟩ | ⟨pre, cur, hbs, hjoin, -⟩ | ⟨pre, cur, hbs, -, h⟩
  · rw [h, hbs]
    simp
  · have hcur : str "不" = text cur := of_decide_eq_true hjoin
    exact absurd hcur.symm (htext cur (by simp [hbs]))
  · rw [h, ← hbs]
    simp

theorem byTones_left (tones : List CString -> List CString -> Except Error Bool)
    (m : Seg) {finals : List (List CString)}
    (hlen : finals.length = (body (m ++ [(str "不", str "d")])).length) :
    exists m', byTones tones (m ++ [(str "不", str "d")]) finals =
      m' ++ [(str "不", str "d")] := by
  have hpunc : str "不" ∉ _punc := by decide
  have hbody : body (m ++ [(str "不", str "d")]) = m ++ [(str "不", str "d")] := by
    simp [body, hpunc]
  have hheld : held (m ++ [(str "不", str "d")]) = [] := by
    simp [held, hpunc]
  rw [hbody] at hlen
  rcases List.eq_nil_or_concat finals with rfl | ⟨fs, f, rfl⟩
  · simp at hlen
  · rw [List.concat_eq_append] at hlen ⊢
    have hlen' : m.length = fs.length := by
      simp only [List.length_append, List.length_singleton] at hlen
      omega
    have hzip : (m ++ [(str "不", str "d")]).zip (fs ++ [f]) =
        m.zip fs ++ [((str "不", str "d"), f)] := List.zip_append hlen'
    have hjoin : forall cur,
        threeJoin tones cur ((str "不", str "d"), f) = false := by
      intro cur
      unfold threeJoin
      split
      · have hx : str "d" ≠ str "x" := by decide
        simp [hx]
      · rfl
    rw [byTones, threeBlocks, hbody, hheld, hzip, blocks_concat]
    rcases addItem_cases (threeJoin tones) (blocks (threeJoin tones) (m.zip fs))
        ((str "不", str "d"), f) with
      ⟨-, h⟩ | ⟨pre, cur, -, hcur, -⟩ | ⟨pre, cur, -, -, h⟩
    · rw [h]
      exact ⟨[], by simp⟩
    · rw [hjoin cur] at hcur
      cases hcur
    · rw [h]
      exact ⟨((pre ++ [cur]).map (List.map Prod.fst)).map firstToken, by simp⟩

theorem MergeEr_left (m : Seg) (tag : CString) :
    (erBlocks (m ++ [(str "不", tag)])).map firstToken =
      (erBlocks m).map firstToken ++ [(str "不", tag)] := by
  have hblocks : erBlocks (m ++ [(str "不", tag)]) =
      addItem erJoin (erBlocks m) (str "不", tag) := blocks_concat erJoin m _
  have hjoin : forall cur, erJoin cur (str "不", tag) = false := by
    intro cur
    have hne : str "不" ≠ str "儿" := by decide
    simp [erJoin, hne]
  rw [hblocks]
  rcases addItem_cases erJoin (erBlocks m) (str "不", tag) with
    ⟨hbs, h⟩ | ⟨pre, cur, -, hcur, -⟩ | ⟨pre, cur, hbs, -, h⟩
  · rw [h, hbs]
    simp
  · rw [hjoin cur] at hcur
    cases hcur
  · rw [h, ← hbs]
    simp

end FrontEngineInterface
end VoiceTts
