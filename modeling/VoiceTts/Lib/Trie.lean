import VoiceTts.Lib.StdMap

/-!
# Tries

A trie keeps a map from lists to values.  Each node has the value of the list
that leads to it, if there is one, and a map from elements to further nodes.  The
operations are specified by what `find` returns after them.
-/

namespace VoiceTts

inductive Trie (κ ν : Type) where
  | node (ptValue : Option ν) (next : StdMap κ (Trie κ ν))

namespace Trie

variable {κ ν : Type}

def empty : Trie κ ν :=
  node none StdMap.empty

def ptValue : Trie κ ν -> Option ν
  | node value _ => value

def next : Trie κ ν -> StdMap κ (Trie κ ν)
  | node _ children => children

def find : Trie κ ν -> List κ -> Option ν
  | t, [] => t.ptValue
  | t, k :: ks =>
      match t.next.find k with
      | none => none
      | some child => child.find ks

/-- Give a list a value; the nodes that lead to it are made where they are missing. -/
def insert [DecidableEq κ] : Trie κ ν -> List κ -> ν -> Trie κ ν
  | t, [], v => node (some v) t.next
  | t, k :: ks, v =>
      let child := (t.next.find k).getD empty
      node t.ptValue (t.next.insert k (child.insert ks v))

@[simp] theorem ptValue_node (value : Option ν) (children : StdMap κ (Trie κ ν)) :
    (node value children).ptValue = value := rfl

@[simp] theorem next_node (value : Option ν) (children : StdMap κ (Trie κ ν)) :
    (node value children).next = children := rfl

@[simp] theorem find_nil (t : Trie κ ν) : t.find [] = t.ptValue := rfl

theorem find_cons (t : Trie κ ν) (k : κ) (ks : List κ) :
    t.find (k :: ks) = (t.next.find k).bind fun child => child.find ks := by
  rw [find]
  cases t.next.find k with
  | none =>
      rfl
  | some child =>
      rfl

theorem find_cons_of_none {t : Trie κ ν} {k : κ} (h : t.next.find k = none)
    (ks : List κ) : t.find (k :: ks) = none := by
  rw [find_cons, h, Option.bind_none]

@[simp] theorem find_empty (ks : List κ) : (empty : Trie κ ν).find ks = none := by
  cases ks with
  | nil =>
      rfl
  | cons k ks =>
      exact find_cons_of_none rfl ks

theorem find_getD_empty (child : Option (Trie κ ν)) (ks : List κ) :
    (child.getD empty).find ks = child.bind fun t => t.find ks := by
  cases child with
  | none =>
      exact find_empty ks
  | some t =>
      rfl

@[simp] theorem find_insert_self [DecidableEq κ] (t : Trie κ ν) (ks : List κ) (v : ν) :
    (t.insert ks v).find ks = some v := by
  induction ks generalizing t with
  | nil =>
      rfl
  | cons k ks ih =>
      rw [insert, find_cons, next_node, StdMap.find_insert_self, Option.bind_some, ih]

theorem find_insert_of_ne [DecidableEq κ] (t : Trie κ ν) {ks ks' : List κ} (v : ν)
    (h : ks' ≠ ks) : (t.insert ks v).find ks' = t.find ks' := by
  induction ks generalizing t ks' with
  | nil =>
      cases ks' with
      | nil =>
          exact absurd rfl h
      | cons k' ks' =>
          rw [insert, find_cons, find_cons, next_node]
  | cons k ks ih =>
      cases ks' with
      | nil =>
          rfl
      | cons k' ks' =>
          rw [insert, find_cons, find_cons, next_node]
          by_cases hk : k' = k
          · subst hk
            have hks : ks' ≠ ks := by
              rintro rfl
              exact h rfl
            rw [StdMap.find_insert_self, Option.bind_some, ih _ hks, find_getD_empty]
          · rw [StdMap.find_insert_of_ne _ _ hk]

theorem find_insert [DecidableEq κ] (t : Trie κ ν) (ks ks' : List κ) (v : ν) :
    (t.insert ks v).find ks' = if ks' = ks then some v else t.find ks' := by
  by_cases h : ks' = ks
  · rw [if_pos h, h, find_insert_self]
  · rw [if_neg h, find_insert_of_ne t v h]

end Trie

end VoiceTts
