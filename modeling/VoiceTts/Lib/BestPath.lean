import Mathlib.Data.List.Basic
import Mathlib.Order.MinMax
import Mathlib.Order.Monotone.Basic
import Mathlib.Tactic.Common

/-!
# Best paths

A network has edges that each take the value of their target to a value of their
source.  Values below a floor count as the floor.  When the value of every node is
the best that its edges give, then no path has a higher score than the value of the
node where it starts, and a path whose edges all attain the value has exactly that
score.  `pick` is the loop that looks for the best edge: it keeps the first of
several that are equally good.
-/

namespace VoiceTts

section Pick

variable {α W : Type} [LinearOrder W]

/-- One round: a candidate is taken when it is strictly better. -/
def pickStep (val : α -> W) (best : Option α × W) (a : α) : Option α × W :=
  if best.2 < val a then (some a, val a) else best

def pick (val : α -> W) (floor : W) (as : List α) : Option α × W :=
  as.foldl (pickStep val) (none, floor)

theorem pick_congr {val val' : α -> W} {floor : W} {as : List α}
    (h : forall a, a ∈ as -> val a = val' a) : pick val floor as = pick val' floor as := by
  unfold pick
  refine List.foldl_ext _ _ _ ?_
  intro best a ha
  rw [pickStep, pickStep, h a ha]

theorem le_pickStep (val : α -> W) (best : Option α × W) (a : α) :
    best.2 ≤ (pickStep val best a).2 ∧ val a ≤ (pickStep val best a).2 := by
  unfold pickStep
  split
  · rename_i hlt
    exact ⟨hlt.le, le_rfl⟩
  · rename_i hlt
    exact ⟨le_rfl, not_lt.mp hlt⟩

theorem le_foldl_pickStep (val : α -> W) (as : List α) (best : Option α × W) :
    best.2 ≤ (as.foldl (pickStep val) best).2 ∧
      forall a, a ∈ as -> val a ≤ (as.foldl (pickStep val) best).2 := by
  induction as generalizing best with
  | nil =>
      exact ⟨le_rfl, fun a ha => absurd ha List.not_mem_nil⟩
  | cons a as ih =>
      rw [List.foldl_cons]
      have hstep := le_pickStep val best a
      have hrest := ih (pickStep val best a)
      refine ⟨hstep.1.trans hrest.1, ?_⟩
      intro b hb
      rcases List.mem_cons.mp hb with rfl | hb
      · exact hstep.2.trans hrest.1
      · exact hrest.2 b hb

theorem foldl_pickStep_cases (val : α -> W) (as : List α) (best : Option α × W) :
    as.foldl (pickStep val) best = best ∨
      exists a, a ∈ as ∧ best.2 < val a ∧
        as.foldl (pickStep val) best = (some a, val a) := by
  induction as generalizing best with
  | nil =>
      exact Or.inl rfl
  | cons a as ih =>
      rw [List.foldl_cons]
      by_cases hlt : best.2 < val a
      · have hstep : pickStep val best a = (some a, val a) := if_pos hlt
        rw [hstep]
        refine Or.inr ?_
        rcases ih (some a, val a) with hsame | ⟨b, hb, hab, hpick⟩
        · exact ⟨a, List.mem_cons_self .., hlt, hsame⟩
        · exact ⟨b, List.mem_cons_of_mem _ hb, hlt.trans hab, hpick⟩
      · have hstep : pickStep val best a = best := if_neg hlt
        rw [hstep]
        rcases ih best with hsame | ⟨b, hb, hab, hpick⟩
        · exact Or.inl hsame
        · exact Or.inr ⟨b, List.mem_cons_of_mem _ hb, hab, hpick⟩

theorem floor_le_pick (val : α -> W) (floor : W) (as : List α) :
    floor ≤ (pick val floor as).2 :=
  (le_foldl_pickStep val as (none, floor)).1

theorem le_pick (val : α -> W) (floor : W) {as : List α} {a : α} (ha : a ∈ as) :
    max floor (val a) ≤ (pick val floor as).2 :=
  max_le (floor_le_pick val floor as) ((le_foldl_pickStep val as (none, floor)).2 a ha)

/-- What is picked has the value; nothing is picked when no value exceeds the floor. -/
theorem pick_cases (val : α -> W) (floor : W) (as : List α) :
    (pick val floor as = (none, floor) ∧ forall a, a ∈ as -> val a ≤ floor) ∨
      exists a, a ∈ as ∧ floor < val a ∧ pick val floor as = (some a, val a) := by
  rcases foldl_pickStep_cases val as (none, floor) with hsame | hpick
  · refine Or.inl ⟨hsame, ?_⟩
    intro a ha
    have hle := (le_foldl_pickStep val as (none, floor)).2 a ha
    rw [hsame] at hle
    exact hle
  · exact Or.inr hpick

theorem max_floor_of_picked {val : α -> W} {floor : W} {as : List α} {a : α}
    (h : (pick val floor as).1 = some a) :
    a ∈ as ∧ max floor (val a) = (pick val floor as).2 := by
  rcases pick_cases val floor as with ⟨hpick, -⟩ | ⟨b, hb, hlt, hpick⟩
  · rw [hpick] at h
    cases h
  · rw [hpick] at h ⊢
    cases h
    exact ⟨hb, max_eq_right hlt.le⟩

theorem max_floor_of_not_picked {val : α -> W} {floor : W} {as : List α}
    (h : (pick val floor as).1 = none) {a : α} (ha : a ∈ as) :
    max floor (val a) = (pick val floor as).2 := by
  rcases pick_cases val floor as with ⟨hpick, hle⟩ | ⟨b, hb, hlt, hpick⟩
  · rw [hpick]
    exact max_eq_left (hle a ha)
  · rw [hpick] at h
    cases h

end Pick

/-- Edges that lead from node to node and carry values back, never reversing them. -/
structure Network (N E W : Type) [LinearOrder W] where
  edge : N -> E -> Prop
  target : E -> N
  gain : E -> W -> W
  floor : W
  mono : forall e, Monotone (gain e)

namespace Network

variable {N E W : Type} [LinearOrder W]

/-- What an edge makes of the value of its target. -/
def carry (G : Network N E W) (e : E) (w : W) : W :=
  max G.floor (G.gain e w)

/-- A path of edges from a node to a node. -/
inductive Route (G : Network N E W) : N -> List E -> N -> Prop where
  | nil (a : N) : Route G a [] a
  | cons {a b : N} {e : E} {es : List E} :
      G.edge a e -> Route G (G.target e) es b -> Route G a (e :: es) b

/-- The score of a path that ends in a node of value `w`. -/
def score (G : Network N E W) (w : W) (es : List E) : W :=
  es.foldr G.carry w

/-- No edge of the node carries more than the value of the node. -/
def Bounded (G : Network N E W) (value : N -> W) (a : N) : Prop :=
  forall e, G.edge a e -> G.carry e (value (G.target e)) ≤ value a

variable {G : Network N E W} {value : N -> W}

theorem carry_mono (G : Network N E W) (e : E) : Monotone (G.carry e) := by
  intro v w hvw
  exact max_le_max le_rfl (G.mono e hvw)

theorem score_le (hvalue : forall a, Bounded G value a) {a b : N} {es : List E}
    (h : Route G a es b) : G.score (value b) es ≤ value a := by
  induction h with
  | nil a =>
      exact le_rfl
  | cons he _ ih =>
      exact (G.carry_mono _ ih).trans (hvalue _ _ he)

/-- A path whose edges all carry the value of the node they start from. -/
inductive Tight (G : Network N E W) (value : N -> W) : N -> List E -> N -> Prop where
  | nil (a : N) : Tight G value a [] a
  | cons {a b : N} {e : E} {es : List E} :
      G.carry e (value (G.target e)) = value a -> Tight G value (G.target e) es b ->
      Tight G value a (e :: es) b

theorem score_eq {a b : N} {es : List E} (h : Tight G value a es b) :
    G.score (value b) es = value a := by
  induction h with
  | nil a =>
      rfl
  | cons he _ ih =>
      rw [score, List.foldr_cons]
      exact (congrArg (G.carry _) ih).trans he

/-- A path that attains the values is at least as good as every other one. -/
theorem score_le_score (hvalue : forall a, Bounded G value a) {a b : N}
    {es es' : List E} (htight : Tight G value a es' b) (h : Route G a es b) :
    G.score (value b) es ≤ G.score (value b) es' := by
  rw [score_eq htight]
  exact score_le hvalue h

end Network

end VoiceTts
