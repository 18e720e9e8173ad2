import Mathlib.Data.List.Basic
import Mathlib.Tactic.Common

/-!
# Backtracking regular expressions

Regular expressions with capture groups and backreferences over an arbitrary
alphabet, matched the way a backtracking engine does: `run` lists the ways to
match in the order in which the engine tries them, and `search` takes the first
way at the leftmost position that has one.
-/

namespace VoiceTts

inductive Regex (α : Type) where
  | eps : Regex α
  | set (p : α -> Bool) : Regex α
  | seq (a b : Regex α) : Regex α
  | alt (a b : Regex α) : Regex α
  | star (a : Regex α) : Regex α
  | group (n : Nat) (a : Regex α) : Regex α
  | backref (n : Nat) : Regex α

/-- What a group matched: the text, and where it starts in the subject. -/
structure Capture (α : Type) where
  position : Nat
  text : List α
  deriving DecidableEq

/-- A group that took no part in the match has no capture. -/
abbrev Captures (α : Type) : Type :=
  Nat -> Option (Capture α)

/-- One way to match: the text taken, the text left, and the captures. -/
structure Hit (α : Type) where
  taken : List α
  rest : List α
  caps : Captures α

structure Match (α : Type) where
  pre : List α
  text : List α
  post : List α
  caps : Captures α

namespace Captures

variable {α : Type}

def none : Captures α :=
  fun _ => Option.none

def record (caps : Captures α) (n : Nat) (c : Capture α) : Captures α :=
  fun k => if k = n then some c else caps k

def clear (caps : Captures α) (ns : List Nat) : Captures α :=
  fun k => if k ∈ ns then Option.none else caps k

def shift (caps : Captures α) (d : Nat) : Captures α :=
  fun k => (caps k).map fun c => { c with position := c.position + d }

/-- Every captured text consists of symbols in `A`. -/
def Within (A : α -> Prop) (caps : Captures α) : Prop :=
  forall k c, caps k = some c -> forall x, x ∈ c.text -> A x

theorem within_none (A : α -> Prop) : Within A none := by
  intro k c h
  cases h

theorem Within.record {A : α -> Prop} {caps : Captures α} (h : Within A caps)
    {n : Nat} {c : Capture α} (hc : forall x, x ∈ c.text -> A x) :
    Within A (caps.record n c) := by
  intro k c' hk
  unfold Captures.record at hk
  split at hk
  · cases hk
    exact hc
  · exact h k c' hk

theorem Within.clear {A : α -> Prop} {caps : Captures α} (h : Within A caps)
    (ns : List Nat) : Within A (caps.clear ns) := by
  intro k c hk
  unfold Captures.clear at hk
  split at hk
  · cases hk
  · exact h k c hk

@[simp] theorem record_self (caps : Captures α) (n : Nat) (c : Capture α) :
    caps.record n c n = some c := by
  simp [record]

theorem record_of_ne (caps : Captures α) {n k : Nat} (c : Capture α)
    (h : k ≠ n) : caps.record n c k = caps k := by
  simp [record, h]

theorem clear_of_notMem (caps : Captures α) {ns : List Nat} {k : Nat}
    (h : k ∉ ns) : caps.clear ns k = caps k := by
  simp [clear, h]

@[simp] theorem shift_none (d : Nat) :
    (none : Captures α).shift d = none := rfl

theorem shift_record (caps : Captures α) (n d : Nat) (c : Capture α) :
    (caps.record n c).shift d =
      (caps.shift d).record n { c with position := c.position + d } := by
  funext k
  unfold shift record
  split <;> rfl

theorem shift_clear (caps : Captures α) (ns : List Nat) (d : Nat) :
    (caps.clear ns).shift d = (caps.shift d).clear ns := by
  funext k
  unfold shift clear
  split <;> rfl

end Captures

namespace Hit

variable {α : Type}

/-- The hit `k` of what follows, seen from where the hit `h` started. -/
def append (h k : Hit α) : Hit α :=
  { taken := h.taken ++ k.taken, rest := k.rest, caps := k.caps }

def shift (h : Hit α) (d : Nat) : Hit α :=
  { h with caps := h.caps.shift d }

/-- The same hit in a subject that goes on with `t`. -/
def extend (h : Hit α) (t : List α) : Hit α :=
  { h with rest := h.rest ++ t }

@[simp] theorem append_taken (h k : Hit α) :
    (h.append k).taken = h.taken ++ k.taken := rfl

@[simp] theorem append_rest (h k : Hit α) : (h.append k).rest = k.rest := rfl

@[simp] theorem append_caps (h k : Hit α) : (h.append k).caps = k.caps := rfl

@[simp] theorem extend_taken (h : Hit α) (t : List α) :
    (h.extend t).taken = h.taken := rfl

@[simp] theorem extend_rest (h : Hit α) (t : List α) :
    (h.extend t).rest = h.rest ++ t := rfl

@[simp] theorem extend_caps (h : Hit α) (t : List α) :
    (h.extend t).caps = h.caps := rfl

@[simp] theorem shift_taken (h : Hit α) (d : Nat) :
    (h.shift d).taken = h.taken := rfl

@[simp] theorem shift_rest (h : Hit α) (d : Nat) :
    (h.shift d).rest = h.rest := rfl

@[simp] theorem shift_caps (h : Hit α) (d : Nat) :
    (h.shift d).caps = h.caps.shift d := rfl

end Hit

namespace Regex

variable {α : Type}

def chr [DecidableEq α] (x : α) : Regex α :=
  set fun y => decide (y = x)

def opt (a : Regex α) : Regex α :=
  alt a eps

def plus (a : Regex α) : Regex α :=
  seq a (star a)

def times : Nat -> Regex α -> Regex α
  | 0, _ => eps
  | 1, a => a
  | n + 2, a => seq a (times (n + 1) a)

def word [DecidableEq α] : List α -> Regex α
  | [] => eps
  | [x] => chr x
  | x :: y :: s => seq (chr x) (word (y :: s))

/-- One expression after the other. -/
def cat : Regex α -> List (Regex α) -> Regex α
  | a, [] => a
  | a, b :: rest => seq a (cat b rest)

/-- The first alternative that matches. -/
def anyOf : Regex α -> List (Regex α) -> Regex α
  | a, [] => a
  | a, b :: rest => alt a (anyOf b rest)

def groups : Regex α -> List Nat
  | eps => []
  | set _ => []
  | seq a b => groups a ++ groups b
  | alt a b => groups a ++ groups b
  | star a => groups a
  | group n a => n :: groups a
  | backref _ => []

/-- Greedy repetition; a round that takes nothing is not counted. -/
def starRun (f : Nat -> List α -> Captures α -> List (Hit α))
    (ns : List Nat) : Nat -> Nat -> List α -> Captures α -> List (Hit α)
  | 0, _, s, caps => [⟨[], s, caps⟩]
  | fuel + 1, pos, s, caps =>
      ((f pos s (caps.clear ns)).filter fun h => !h.taken.isEmpty).flatMap
          (fun h =>
            (starRun f ns fuel (pos + h.taken.length) h.rest h.caps).map
              h.append) ++
        [⟨[], s, caps⟩]

/-- All the ways to match at the head of `s`, the preferred ones first. -/
def run [DecidableEq α] :
    Regex α -> Nat -> List α -> Captures α -> List (Hit α)
  | eps, _, s, caps => [⟨[], s, caps⟩]
  | set _, _, [], _ => []
  | set p, _, x :: s, caps => if p x then [⟨[x], s, caps⟩] else []
  | seq a b, pos, s, caps =>
      (run a pos s caps).flatMap fun h =>
        (run b (pos + h.taken.length) h.rest h.caps).map h.append
  | alt a b, pos, s, caps => run a pos s caps ++ run b pos s caps
  | star a, pos, s, caps =>
      starRun (fun pos s caps => run a pos s caps) (groups a) s.length pos s caps
  | group n a, pos, s, caps =>
      (run a pos s caps).map fun h =>
        { h with caps := h.caps.record n ⟨pos, h.taken⟩ }
  | backref n, _, s, caps =>
      match caps n with
      | none => [⟨[], s, caps⟩]
      | some c =>
          if c.text.isPrefixOf s then
            [⟨c.text, s.drop c.text.length, caps⟩]
          else []

/-- The leftmost match at or after the position that `pre` ends at. -/
def searchFrom [DecidableEq α] (r : Regex α) :
    List α -> List α -> Option (Match α)
  | pre, [] =>
      match run r pre.length [] Captures.none with
      | h :: _ => some ⟨pre, h.taken, h.rest, h.caps⟩
      | [] => none
  | pre, x :: s =>
      match run r pre.length (x :: s) Captures.none with
      | h :: _ => some ⟨pre, h.taken, h.rest, h.caps⟩
      | [] => searchFrom r (pre ++ [x]) s

def search [DecidableEq α] (r : Regex α) (s : List α) : Option (Match α) :=
  searchFrom r [] s

end Regex

namespace Match

variable {α : Type}

def group (m : Match α) : Nat -> List α
  | 0 => m.text
  | n + 1 =>
      match m.caps (n + 1) with
      | some c => c.text
      | none => []

def position (m : Match α) : Nat -> Nat
  | 0 => m.pre.length
  | n + 1 =>
      match m.caps (n + 1) with
      | some c => c.position
      | none => m.pre.length + m.text.length + m.post.length

def length (m : Match α) (n : Nat) : Nat :=
  (m.group n).length

end Match
end VoiceTts
