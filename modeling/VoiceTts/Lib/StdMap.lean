import Mathlib.Tactic.Common

/-!
# Finite maps with an inserting lookup

The part of a C++ `std::map` that programs lean on: a lookup that only reads,
and the subscript operator, which inserts a default value for a key it does not
find.  A map is identified with its graph, so that two maps with the same
entries are equal.
-/

namespace VoiceTts

@[ext]
structure StdMap (κ ν : Type) where
  find : κ -> Option ν

namespace StdMap

variable {κ ν : Type}

def empty : StdMap κ ν where
  find := fun _ => none

def contains (m : StdMap κ ν) (k : κ) : Bool :=
  (m.find k).isSome

def insert [DecidableEq κ] (m : StdMap κ ν) (k : κ) (v : ν) : StdMap κ ν where
  find := fun k' => if k' = k then some v else m.find k'

/-- The value the subscript operator returns. -/
def peek [Inhabited ν] (m : StdMap κ ν) (k : κ) : ν :=
  (m.find k).getD default

/-- The map after the subscript operator: a missing key gets the default value. -/
def touch [DecidableEq κ] [Inhabited ν] (m : StdMap κ ν) (k : κ) : StdMap κ ν :=
  m.insert k (m.peek k)

/-- Insert the pairs of a list one after the other. -/
def insertAll [DecidableEq κ] (m : StdMap κ ν) (entries : List (κ × ν)) :
    StdMap κ ν :=
  entries.foldl (fun m e => m.insert e.1 e.2) m

@[simp] theorem find_empty (k : κ) : (empty : StdMap κ ν).find k = none := rfl

@[simp] theorem find_insert_self [DecidableEq κ] (m : StdMap κ ν) (k : κ) (v : ν) :
    (m.insert k v).find k = some v := by
  simp [insert]

theorem find_insert_of_ne [DecidableEq κ] (m : StdMap κ ν) {k k' : κ} (v : ν)
    (h : k' ≠ k) : (m.insert k v).find k' = m.find k' := by
  simp [insert, h]

@[simp] theorem peek_insert_self [DecidableEq κ] [Inhabited ν] (m : StdMap κ ν)
    (k : κ) (v : ν) : (m.insert k v).peek k = v := by
  simp [peek]

theorem peek_insert_of_ne [DecidableEq κ] [Inhabited ν] (m : StdMap κ ν)
    {k k' : κ} (v : ν) (h : k' ≠ k) : (m.insert k v).peek k' = m.peek k' := by
  simp [peek, find_insert_of_ne m v h]

@[simp] theorem peek_touch [DecidableEq κ] [Inhabited ν] (m : StdMap κ ν)
    (k k' : κ) : (m.touch k).peek k' = m.peek k' := by
  by_cases h : k' = k
  · subst h
    simp [touch]
  · rw [touch, peek_insert_of_ne m _ h]

theorem peek_touch_congr [DecidableEq κ] [Inhabited ν] {m m' : StdMap κ ν}
    (h : forall k, m.peek k = m'.peek k) (k k' : κ) :
    (m.touch k).peek k' = (m'.touch k).peek k' := by
  rw [peek_touch, peek_touch, h k']

theorem contains_touch [DecidableEq κ] [Inhabited ν] (m : StdMap κ ν) (k k' : κ) :
    (m.touch k).contains k' = (decide (k' = k) || m.contains k') := by
  by_cases h : k' = k
  · subst h
    simp [touch, contains]
  · simp [touch, contains, find_insert_of_ne m _ h, h]

theorem peek_of_not_contains [Inhabited ν] {m : StdMap κ ν} {k : κ}
    (h : m.contains k = false) : m.peek k = default := by
  unfold contains at h
  cases hfind : m.find k with
  | none =>
      simp [peek, hfind]
  | some v =>
      rw [hfind] at h
      cases h

theorem touch_of_contains [DecidableEq κ] [Inhabited ν] {m : StdMap κ ν} {k : κ}
    (h : m.contains k = true) : m.touch k = m := by
  apply StdMap.ext
  funext k'
  by_cases hk : k' = k
  · subst hk
    rcases Option.isSome_iff_exists.mp h with ⟨v, hv⟩
    have hpeek : m.peek k' = v := by
      simp [peek, hv]
    rw [touch, find_insert_self, hpeek, hv]
  · exact find_insert_of_ne m _ hk

/-- The second map reads like the first one and has all of its keys. -/
structure Extends [Inhabited ν] (m m' : StdMap κ ν) : Prop where
  peek : forall k, m'.peek k = m.peek k
  keys : forall k, m.contains k = true -> m'.contains k = true

theorem Extends.refl [Inhabited ν] (m : StdMap κ ν) : m.Extends m where
  peek := fun _ => rfl
  keys := fun _ h => h

theorem Extends.touch [DecidableEq κ] [Inhabited ν] {m m' : StdMap κ ν}
    (h : m.Extends m') (k : κ) : m.Extends (m'.touch k) where
  peek := by
    intro k'
    rw [peek_touch, h.peek]
  keys := by
    intro k' hk'
    rw [contains_touch, h.keys k' hk', Bool.or_true]

/-!
## Lists of insertions
-/

theorem contains_insert [DecidableEq κ] (m : StdMap κ ν) (k k' : κ) (v : ν) :
    (m.insert k v).contains k' = (decide (k' = k) || m.contains k') := by
  by_cases h : k' = k
  · subst h
    simp [contains]
  · simp [contains, find_insert_of_ne m v h, h]

theorem insertAll_cons [DecidableEq κ] (m : StdMap κ ν) (e : κ × ν)
    (entries : List (κ × ν)) :
    m.insertAll (e :: entries) = (m.insert e.1 e.2).insertAll entries := rfl

theorem contains_insertAll [DecidableEq κ] (m : StdMap κ ν)
    (entries : List (κ × ν)) (k : κ) :
    (m.insertAll entries).contains k =
      (decide (k ∈ entries.map Prod.fst) || m.contains k) := by
  induction entries generalizing m with
  | nil =>
      simp [insertAll]
  | cons e entries ih =>
      rw [insertAll_cons, ih, contains_insert]
      simp only [List.map_cons, List.mem_cons, Bool.decide_or, Bool.or_left_comm,
        Bool.or_assoc]

theorem mem_of_find_insertAll [DecidableEq κ] {m : StdMap κ ν} {entries : List (κ × ν)}
    {k : κ} {v : ν} (h : (m.insertAll entries).find k = some v) :
    (k, v) ∈ entries ∨ m.find k = some v := by
  induction entries generalizing m with
  | nil =>
      exact Or.inr h
  | cons e entries ih =>
      rcases ih h with hmem | hfind
      · exact Or.inl (List.mem_cons_of_mem e hmem)
      · by_cases hk : k = e.1
        · subst hk
          rw [find_insert_self, Option.some.injEq] at hfind
          exact Or.inl (hfind ▸ List.mem_cons_self ..)
        · rw [find_insert_of_ne m _ hk] at hfind
          exact Or.inr hfind

/-- Two values for each key, of which those that a later one replaces may differ. -/
def Settled : List (κ × ν × ν) -> Prop
  | [] => True
  | t :: rest => (t.1 ∈ rest.map Prod.fst ∨ t.2.1 = t.2.2) ∧ Settled rest

theorem insertAll_eq_iff [DecidableEq κ] (m m' : StdMap κ ν)
    (entries : List (κ × ν × ν)) :
    m.insertAll (entries.map fun t => (t.1, t.2.1)) =
        m'.insertAll (entries.map fun t => (t.1, t.2.2)) ↔
      (forall k, k ∉ entries.map Prod.fst -> m.find k = m'.find k) ∧
        Settled entries := by
  induction entries generalizing m m' with
  | nil =>
      simp [insertAll, Settled, StdMap.ext_iff, funext_iff]
  | cons t entries ih =>
      rw [List.map_cons, List.map_cons, insertAll_cons, insertAll_cons, ih]
      constructor
      · rintro ⟨hfind, hsettled⟩
        refine ⟨?_, ?_, hsettled⟩
        · intro k hk
          rw [List.map_cons, List.mem_cons, not_or] at hk
          have h := hfind k hk.2
          rw [find_insert_of_ne _ _ hk.1, find_insert_of_ne _ _ hk.1] at h
          exact h
        · by_cases hlater : t.1 ∈ entries.map Prod.fst
          · exact Or.inl hlater
          · have h := hfind t.1 hlater
            rw [find_insert_self, find_insert_self] at h
            exact Or.inr (Option.some.inj h)
      · rintro ⟨hfind, hhead, hsettled⟩
        refine ⟨?_, hsettled⟩
        intro k hk
        by_cases hkey : k = t.1
        · subst hkey
          rw [find_insert_self, find_insert_self, hhead.resolve_left hk]
        · rw [find_insert_of_ne _ _ hkey, find_insert_of_ne _ _ hkey]
          apply hfind
          rw [List.map_cons, List.mem_cons, not_or]
          exact ⟨hkey, hk⟩

/-!
## Lists of subscripts
-/

def touchAll [DecidableEq κ] [Inhabited ν] (m : StdMap κ ν) (keys : List κ) :
    StdMap κ ν :=
  keys.foldl touch m

theorem find_touch_of_contains [DecidableEq κ] [Inhabited ν] {m : StdMap κ ν}
    {k : κ} (h : m.contains k = true) (k' : κ) :
    (m.touch k').find k = m.find k := by
  by_cases hk : k = k'
  · subst hk
    rw [touch_of_contains h]
  · exact find_insert_of_ne m _ hk

theorem find_touchAll_of_contains [DecidableEq κ] [Inhabited ν]
    (keys : List κ) {m : StdMap κ ν} {k : κ} (h : m.contains k = true) :
    (m.touchAll keys).find k = m.find k := by
  induction keys generalizing m with
  | nil =>
      rfl
  | cons k' keys ih =>
      have hcontains : (m.touch k').contains k = true := by
        rw [contains_touch, h, Bool.or_true]
      exact (ih hcontains).trans (find_touch_of_contains h k')

@[simp] theorem peek_touchAll [DecidableEq κ] [Inhabited ν] (keys : List κ)
    (m : StdMap κ ν) (k : κ) : (m.touchAll keys).peek k = m.peek k := by
  induction keys generalizing m with
  | nil =>
      rfl
  | cons k' keys ih =>
      exact (ih (m.touch k')).trans (peek_touch m k' k)

theorem touchAll_inj [DecidableEq κ] [Inhabited ν] {keys : List κ}
    {m m' : StdMap κ ν} (hkeys : forall k, m.contains k = m'.contains k)
    (h : m.touchAll keys = m'.touchAll keys) : m = m' := by
  apply StdMap.ext
  funext k
  by_cases hk : m.contains k = true
  · rw [← find_touchAll_of_contains keys hk, h,
      find_touchAll_of_contains keys (by rw [← hkeys, hk])]
  · have hk' : m'.contains k ≠ true := by
      rw [← hkeys]
      exact hk
    unfold contains at hk hk'
    rw [Option.not_isSome_iff_eq_none.mp hk, Option.not_isSome_iff_eq_none.mp hk']

theorem touchAll_append [DecidableEq κ] [Inhabited ν] (m : StdMap κ ν)
    (keys keys' : List κ) :
    m.touchAll (keys ++ keys') = (m.touchAll keys).touchAll keys' :=
  List.foldl_append

theorem contains_touchAll [DecidableEq κ] [Inhabited ν] (keys : List κ)
    (m : StdMap κ ν) (k : κ) :
    (m.touchAll keys).contains k = (decide (k ∈ keys) || m.contains k) := by
  induction keys generalizing m with
  | nil =>
      simp [touchAll]
  | cons k' keys ih =>
      refine (ih (m.touch k')).trans ?_
      rw [contains_touch]
      simp only [List.mem_cons, Bool.decide_or, Bool.or_left_comm, Bool.or_assoc]

theorem touchAll_eq_self_iff [DecidableEq κ] [Inhabited ν] {keys : List κ}
    {m : StdMap κ ν} :
    m.touchAll keys = m ↔ forall k, k ∈ keys -> m.contains k = true := by
  constructor
  · intro h k hk
    rw [← h, contains_touchAll, decide_eq_true hk, Bool.true_or]
  · intro h
    induction keys with
    | nil =>
        rfl
    | cons k keys ih =>
        change (m.touch k).touchAll keys = m
        rw [touch_of_contains (h k List.mem_cons_self)]
        exact ih fun k' hk' => h k' (List.mem_cons_of_mem k hk')

end StdMap
end VoiceTts
