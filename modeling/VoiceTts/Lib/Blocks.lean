import Mathlib.Data.List.Forall2
import Mathlib.Data.List.Induction
import Mathlib.Tactic.Common

/-!
# Joining neighbours into blocks

A pass over a list that either starts a new block with the next item or joins the
item to the block before it.  `blocks` is the list of blocks such a pass
builds; `Coarsens` compares a list with what a pass has made of its
blocks, whatever the pass was.
-/

namespace VoiceTts
namespace Blocks

variable {α β γ : Type}

/-- Join the next item to the last block, or start a block with it. -/
def addItem (join : List α -> α -> Bool) (bs : List (List α)) (a : α) :
    List (List α) :=
  match bs.getLast? with
  | some cur => if join cur a then bs.dropLast ++ [cur ++ [a]] else bs ++ [[a]]
  | none => [[a]]

def blocks (join : List α -> α -> Bool) (l : List α) : List (List α) :=
  l.foldl (addItem join) []

@[simp] theorem blocks_nil (join : List α -> α -> Bool) : blocks join [] = [] :=
  rfl

theorem blocks_concat (join : List α -> α -> Bool) (l : List α) (a : α) :
    blocks join (l ++ [a]) = addItem join (blocks join l) a := by
  simp [blocks]

theorem addItem_nil (join : List α -> α -> Bool) (a : α) :
    addItem join [] a = [[a]] := rfl

theorem addItem_concat (join : List α -> α -> Bool) (bs : List (List α))
    (cur : List α) (a : α) :
    addItem join (bs ++ [cur]) a =
      if join cur a then bs ++ [cur ++ [a]] else bs ++ [cur] ++ [[a]] := by
  simp [addItem]

/-- What a pass does to one item, said of the last block. -/
theorem addItem_cases (join : List α -> α -> Bool) (bs : List (List α)) (a : α) :
    (bs = [] ∧ addItem join bs a = [[a]]) ∨
      (exists pre cur, bs = pre ++ [cur] ∧ join cur a = true ∧
        addItem join bs a = pre ++ [cur ++ [a]]) ∨
      (exists pre cur, bs = pre ++ [cur] ∧ join cur a = false ∧
        addItem join bs a = pre ++ [cur] ++ [[a]]) := by
  rcases List.eq_nil_or_concat bs with rfl | ⟨pre, cur, rfl⟩
  · exact Or.inl ⟨rfl, rfl⟩
  · right
    rw [List.concat_eq_append, addItem_concat]
    cases hjoin : join cur a with
    | true =>
        exact Or.inl ⟨pre, cur, rfl, hjoin, rfl⟩
    | false =>
        exact Or.inr ⟨pre, cur, rfl, hjoin, rfl⟩

theorem flatten_addItem (join : List α -> α -> Bool) (bs : List (List α)) (a : α) :
    (addItem join bs a).flatten = bs.flatten ++ [a] := by
  rcases addItem_cases join bs a with
    ⟨rfl, h⟩ | ⟨pre, cur, rfl, -, h⟩ | ⟨pre, cur, rfl, -, h⟩
  · simp [h]
  · simp [h]
  · simp [h]

@[simp] theorem flatten_blocks (join : List α -> α -> Bool) (l : List α) :
    (blocks join l).flatten = l := by
  induction l using List.reverseRecOn with
  | nil =>
      rfl
  | append_singleton l a ih =>
      rw [blocks_concat, flatten_addItem, ih]

/-- The induction rule for what holds of every block. -/
theorem forall_mem_blocks {join : List α -> α -> Bool} {P : List α -> Prop}
    (l : List α) (hnew : forall a, a ∈ l -> P [a])
    (hjoin : forall cur a, a ∈ l -> P cur -> join cur a = true -> P (cur ++ [a])) :
    forall b, b ∈ blocks join l -> P b := by
  induction l using List.reverseRecOn with
  | nil =>
      intro b hb
      simp at hb
  | append_singleton l a ih =>
      have ih := ih (fun c hc => hnew c (by simp [hc]))
        (fun cur c hc => hjoin cur c (by simp [hc]))
      rw [blocks_concat]
      intro b hb
      rcases addItem_cases join (blocks join l) a with
        ⟨-, h⟩ | ⟨pre, cur, hbs, hcur, h⟩ | ⟨pre, cur, hbs, -, h⟩
      · rw [h, List.mem_singleton] at hb
        subst hb
        exact hnew a (by simp)
      · rw [hbs] at ih
        rw [h, List.mem_append, List.mem_singleton] at hb
        rcases hb with hb | rfl
        · exact ih b (by simp [hb])
        · exact hjoin cur a (by simp) (ih cur (by simp)) hcur
      · rw [h, ← hbs, List.mem_append, List.mem_singleton] at hb
        rcases hb with hb | rfl
        · exact ih b hb
        · exact hnew a (by simp)

theorem ne_nil_of_mem_blocks {join : List α -> α -> Bool} {l b : List α}
    (hb : b ∈ blocks join l) : b ≠ [] := by
  refine forall_mem_blocks l (P := fun b => b ≠ []) ?_ ?_ b hb
  · intro a _
    simp
  · intro cur a _ _ _
    simp

theorem blocks_eq_nil {join : List α -> α -> Bool} {l : List α} :
    blocks join l = [] ↔ l = [] := by
  constructor
  · intro h
    have hflat := flatten_blocks join l
    rw [h] at hflat
    exact hflat.symm
  · rintro rfl
    rfl

theorem foldl_addItem_append (join : List α -> α -> Bool) (pre : List (List α))
    {bs : List (List α)} (l : List α) (hbs : bs ≠ []) :
    l.foldl (addItem join) (pre ++ bs) = pre ++ l.foldl (addItem join) bs := by
  induction l generalizing bs with
  | nil =>
      rfl
  | cons a l ih =>
      rcases List.eq_nil_or_concat bs with rfl | ⟨front, cur, rfl⟩
      · exact absurd rfl hbs
      · rw [List.foldl_cons, List.foldl_cons, List.concat_eq_append, ← List.append_assoc,
          addItem_concat, addItem_concat]
        split
        · rw [List.append_assoc]
          exact ih (by simp)
        · rw [List.append_assoc, List.append_assoc, ← List.append_assoc front]
          exact ih (by simp)

theorem blocks_append {join : List α -> α -> Bool} {l m : List α}
    (h : forall cur, (blocks join l).getLast? = some cur -> forall a, m.head? = some a ->
      join cur a = false) :
    blocks join (l ++ m) = blocks join l ++ blocks join m := by
  cases m with
  | nil =>
      rw [List.append_nil, blocks_nil, List.append_nil]
  | cons a m =>
      have hnew : addItem join (blocks join l) a = blocks join l ++ [[a]] := by
        rcases addItem_cases join (blocks join l) a with
          ⟨hnil, hadd⟩ | ⟨pre, cur, hlast, hjoin, -⟩ | ⟨pre, cur, hlast, -, hadd⟩
        · rw [hadd, hnil]
          rfl
        · rw [h cur (by rw [hlast, List.getLast?_concat]) a rfl] at hjoin
          cases hjoin
        · rw [hadd, hlast]
      have hfold := foldl_addItem_append join (blocks join l) m (List.cons_ne_nil [a] [])
      rw [blocks, List.foldl_append, List.foldl_cons]
      change m.foldl (addItem join) (addItem join (blocks join l) a) = _
      rw [hnew, hfold]
      rfl

/-- The last item of `l` and the first one of `m` are in one block. -/
def Crosses (bs : List (List α)) (l m : List α) : Prop :=
  exists pre b c post, bs = pre ++ (b ++ c) :: post ∧ b ≠ [] ∧ c ≠ [] ∧
    pre.flatten ++ b = l ∧ c ++ post.flatten = m

theorem Crosses.map {bs : List (List α)} {l m : List α} (f : α -> β)
    (h : Crosses bs l m) : Crosses (bs.map (List.map f)) (l.map f) (m.map f) := by
  rcases h with ⟨pre, b, c, post, rfl, hb, hc, rfl, rfl⟩
  refine ⟨pre.map (List.map f), b.map f, c.map f, post.map (List.map f), ?_, ?_, ?_, ?_, ?_⟩
  · simp
  · simpa using hb
  · simpa using hc
  · rw [List.map_append, List.map_flatten]
  · rw [List.map_append, List.map_flatten]

theorem Crosses.append {bs : List (List α)} {l m : List α} (h : Crosses bs l m)
    (cs : List (List α)) : Crosses (bs ++ cs) l (m ++ cs.flatten) := by
  rcases h with ⟨pre, b, c, post, rfl, hb, hc, rfl, rfl⟩
  exact ⟨pre, b, c, post ++ cs, by simp, hb, hc, rfl, by simp⟩

theorem foldl_addItem_singleton (join : List α -> α -> Bool) (b m : List α) :
    exists c post, m.foldl (addItem join) [b] = (b ++ c) :: post ∧
      c ++ post.flatten = m := by
  induction m using List.reverseRecOn with
  | nil =>
      exact ⟨[], [], by simp⟩
  | append_singleton m a ih =>
      rcases ih with ⟨c, post, hfold, hflat⟩
      rw [List.foldl_append, hfold, ← hflat, List.foldl_cons, List.foldl_nil]
      rcases List.eq_nil_or_concat post with rfl | ⟨front, cur, rfl⟩
      · rw [← List.nil_append [b ++ c], addItem_concat]
        split
        · exact ⟨c ++ [a], [], by simp⟩
        · exact ⟨c, [[a]], by simp⟩
      · rw [List.concat_eq_append, ← List.cons_append, addItem_concat]
        split
        · exact ⟨c, front ++ [cur ++ [a]], by simp⟩
        · exact ⟨c, front ++ [cur] ++ [[a]], by simp⟩

/-- Where the last block takes the next item, the two are in one block to the end. -/
theorem crosses_blocks_append {join : List α -> α -> Bool} {l m cur : List α} {a : α}
    (hcur : (blocks join l).getLast? = some cur) (ha : m.head? = some a)
    (hjoin : join cur a = true) : Crosses (blocks join (l ++ m)) l m := by
  rcases List.getLast?_eq_some_iff.mp hcur with ⟨pre, hpre⟩
  rcases List.head?_eq_some_iff.mp ha with ⟨m, rfl⟩
  have hne : cur ≠ [] := ne_nil_of_mem_blocks (List.mem_of_getLast? hcur)
  have hadd : addItem join (blocks join l) a = pre ++ [cur ++ [a]] := by
    rw [hpre, addItem_concat, if_pos hjoin]
  have hblocks : blocks join (l ++ a :: m) =
      pre ++ m.foldl (addItem join) [cur ++ [a]] := by
    rw [← foldl_addItem_append join pre m (by simp), ← hadd, blocks, List.foldl_append]
    rfl
  rcases foldl_addItem_singleton join (cur ++ [a]) m with ⟨c, post, hfold, hflat⟩
  refine ⟨pre, cur, a :: c, post, ?_, hne, by simp, ?_, by simp [hflat]⟩
  · rw [hblocks, hfold]
    simp
  · rw [← flatten_blocks join l, hpre]
    simp

theorem blocks_single {join : List α -> α -> Bool} {l : List α}
    (h : forall cur a, (forall b, b ∈ cur -> b ∈ l) -> a ∈ l -> join cur a = true)
    (hl : l ≠ []) : blocks join l = [l] := by
  induction l using List.reverseRecOn with
  | nil =>
      exact absurd rfl hl
  | append_singleton l a ih =>
      rw [blocks_concat]
      rcases List.eq_nil_or_concat l with rfl | ⟨front, last, hfront⟩
      · rfl
      · have hne : l ≠ [] := by
          rw [hfront]
          simp
        rw [ih (fun cur b hcur hb => h cur b (fun c hc => List.mem_append_left _ (hcur c hc))
          (List.mem_append_left _ hb)) hne, ← List.nil_append [l], addItem_concat,
          if_pos (h l a (fun b hb => List.mem_append_left _ hb) (by simp))]
        rfl

theorem mem_of_mem_blocks {join : List α -> α -> Bool} {l b : List α} {a : α}
    (hb : b ∈ blocks join l) (ha : a ∈ b) : a ∈ l := by
  rw [← flatten_blocks join l]
  exact List.mem_flatten.mpr ⟨b, hb, ha⟩

/-!
## Coarsenings
-/

/-- `out` has one item for each of some blocks that make up `l`, related by `R`. -/
def Coarsens (R : List α -> β -> Prop) (l : List α) (out : List β) : Prop :=
  exists bs : List (List α), bs.flatten = l ∧ List.Forall₂ R bs out

theorem coarsens_blocks {R : List α -> β -> Prop} (join : List α -> α -> Bool)
    (f : List α -> β) (l : List α) (h : forall b, b ∈ blocks join l -> R b (f b)) :
    Coarsens R l ((blocks join l).map f) := by
  refine ⟨blocks join l, flatten_blocks join l, ?_⟩
  rw [List.forall₂_map_right_iff, List.forall₂_same]
  exact h

theorem Coarsens.mono {R R' : List α -> β -> Prop} {l : List α} {out : List β}
    (h : Coarsens R l out) (hR : forall b t, R b t -> R' b t) :
    Coarsens R' l out := by
  rcases h with ⟨bs, hbs, hR2⟩
  exact ⟨bs, hbs, hR2.imp hR⟩

theorem exists_of_mem_right {R : α -> β -> Prop} {as : List α} {bs : List β}
    (h : List.Forall₂ R as bs) {b : β} (hb : b ∈ bs) :
    exists a, a ∈ as ∧ R a b := by
  induction h with
  | nil =>
      cases hb
  | cons hab _ ih =>
      rcases List.mem_cons.mp hb with rfl | hb
      · exact ⟨_, by simp, hab⟩
      · rcases ih hb with ⟨a, ha, hR⟩
        exact ⟨a, by simp [ha], hR⟩

theorem exists_of_mem_left {R : α -> β -> Prop} {as : List α} {bs : List β}
    (h : List.Forall₂ R as bs) {a : α} (ha : a ∈ as) :
    exists b, b ∈ bs ∧ R a b :=
  exists_of_mem_right (List.Forall₂.flip h) ha

theorem forall₂_comp {R : α -> β -> Prop} {R' : β -> γ -> Prop}
    {R'' : α -> γ -> Prop} (hR : forall a b c, R a b -> R' b c -> R'' a c)
    {as : List α} {bs : List β} {cs : List γ} (h : List.Forall₂ R as bs)
    (h' : List.Forall₂ R' bs cs) : List.Forall₂ R'' as cs := by
  induction h generalizing cs with
  | nil =>
      cases h'
      exact List.Forall₂.nil
  | cons hab _ ih =>
      cases h' with
      | cons hbc hrest =>
          exact List.Forall₂.cons (hR _ _ _ hab hbc) (ih hrest)

/-- Split a list of related pairs where the right one is cut into blocks. -/
theorem forall₂_flatten_right {R : α -> β -> Prop} {as : List α}
    {bs : List (List β)} (h : List.Forall₂ R as bs.flatten) :
    exists ass : List (List α), ass.flatten = as ∧
      List.Forall₂ (List.Forall₂ R) ass bs := by
  induction bs generalizing as with
  | nil =>
      rw [List.flatten_nil] at h
      cases h
      exact ⟨[], rfl, List.Forall₂.nil⟩
  | cons b bs ih =>
      rw [List.flatten_cons] at h
      have hl := List.forall₂_take_append as b bs.flatten h
      have hr := List.forall₂_drop_append as b bs.flatten h
      rcases ih hr with ⟨ass, hass, hrel⟩
      refine ⟨as.take b.length :: ass, ?_, List.Forall₂.cons hl hrel⟩
      rw [List.flatten_cons, hass, List.take_append_drop]

/-- Two passes one after the other coarsen what the first one was given. -/
theorem Coarsens.trans {R : List α -> β -> Prop} {R' : List β -> γ -> Prop}
    {R'' : List α -> γ -> Prop} {l : List α} {mid : List β} {out : List γ}
    (h : Coarsens R l mid) (h' : Coarsens R' mid out)
    (hR : forall bs cs t, R' cs t -> List.Forall₂ R bs cs -> R'' bs.flatten t) :
    Coarsens R'' l out := by
  rcases h with ⟨bs, hbs, hrel⟩
  rcases h' with ⟨cs, hcs, hrel'⟩
  subst hcs
  rcases forall₂_flatten_right hrel with ⟨bss, hbss, hrels⟩
  refine ⟨bss.map List.flatten, ?_, ?_⟩
  · rw [← List.flatten_flatten, hbss, hbs]
  · rw [List.forall₂_map_left_iff]
    exact forall₂_comp (fun a b c hab hbc => hR a b c hbc hab) hrels hrel'

end Blocks
end VoiceTts
