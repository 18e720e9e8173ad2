import VoiceTts.Lib.Rewrite

/-!
# The texts of a match

`Derives` says which text an expression can take and which texts its groups
then hold.  It forgets positions and the rest of the subject, so that unfolding
it at a concrete expression gives the shape of every match.
-/

namespace VoiceTts

/-- The texts that groups hold; a group that took no part holds none. -/
abbrev Texts (α : Type) : Type :=
  Nat -> Option (List α)

namespace Texts

variable {α : Type}

def record (c : Texts α) (n : Nat) (t : List α) : Texts α :=
  fun k => if k = n then some t else c k

def clear (c : Texts α) (ns : List Nat) : Texts α :=
  fun k => if k ∈ ns then none else c k

theorem record_of_ne (c : Texts α) {n k : Nat} (t : List α) (h : k ≠ n) :
    c.record n t k = c k := by
  simp [record, h]

@[simp] theorem clear_nil (c : Texts α) : c.clear [] = c := by
  funext k
  simp [clear]

end Texts

namespace Captures

variable {α : Type}

def texts (caps : Captures α) : Texts α :=
  fun k => (caps k).map Capture.text

theorem texts_record (caps : Captures α) (n : Nat) (c : Capture α) :
    (caps.record n c).texts = caps.texts.record n c.text := by
  funext k
  unfold texts record Texts.record
  split <;> rfl

theorem texts_clear (caps : Captures α) (ns : List Nat) :
    (caps.clear ns).texts = caps.texts.clear ns := by
  funext k
  unfold texts clear Texts.clear
  split <;> rfl

end Captures

namespace Regex

variable {α : Type}

/-- One round of a repetition after the other. -/
inductive Iterates (D : List α -> Texts α -> Texts α -> Prop) :
    List α -> Texts α -> Texts α -> Prop where
  | nil {c} : Iterates D [] c c
  | cons {t u c c1 c2} :
      D t c c1 -> Iterates D u c1 c2 -> Iterates D (t ++ u) c c2

/-- The expression can take the text `t` and turn the group texts `c` into `c'`. -/
def Derives : Regex α -> List α -> Texts α -> Texts α -> Prop
  | eps, t, c, c' => t = [] ∧ c' = c
  | set p, t, c, c' => exists x, p x = true ∧ t = [x] ∧ c' = c
  | seq a b, t, c, c' =>
      exists t1 c1, Derives a t1 c c1 ∧
        exists t2, Derives b t2 c1 c' ∧ t = t1 ++ t2
  | alt a b, t, c, c' => Derives a t c c' ∨ Derives b t c c'
  | star a, t, c, c' =>
      Iterates (fun t c c' => Derives a t (c.clear (groups a)) c') t c c'
  | group n a, t, c, c' => exists c1, Derives a t c c1 ∧ c' = c1.record n t
  | backref n, t, c, c' => t = (c n).getD [] ∧ c' = c

theorem run_derives [DecidableEq α] {r : Regex α} :
    forall {pos : Nat} {s : List α} {caps : Captures α} {h : Hit α},
      h ∈ run r pos s caps -> r.Derives h.taken caps.texts h.caps.texts := by
  induction r with
  | eps =>
      intro pos s caps h hh
      rw [mem_run_eps.mp hh]
      exact ⟨rfl, rfl⟩
  | set p =>
      intro pos s caps h hh
      rcases mem_run_set.mp hh with ⟨x, t, rfl, hx, rfl⟩
      exact ⟨x, hx, rfl, rfl⟩
  | seq a b iha ihb =>
      intro pos s caps h hh
      rcases mem_run_seq.mp hh with ⟨h1, hh1, h2, hh2, rfl⟩
      exact ⟨h1.taken, h1.caps.texts, iha hh1, h2.taken, ihb hh2, rfl⟩
  | alt a b iha ihb =>
      intro pos s caps h hh
      rcases mem_run_alt.mp hh with hh | hh
      · exact Or.inl (iha hh)
      · exact Or.inr (ihb hh)
  | star a ih =>
      intro pos s caps h hh
      refine starRun_induction
        (fun _ _ caps h =>
          Derives (star a) h.taken caps.texts h.caps.texts)
        (fun _ _ _ => Iterates.nil) ?_ _ _ _ _ _ hh
      intro pos s caps h k hh _ hk
      have hround := ih hh
      rw [Captures.texts_clear] at hround
      exact Iterates.cons hround hk
  | group n a ih =>
      intro pos s caps h hh
      rcases mem_run_group.mp hh with ⟨h1, hh1, rfl⟩
      exact ⟨h1.caps.texts, ih hh1, Captures.texts_record _ _ _⟩
  | backref n =>
      intro pos s caps h hh
      rcases mem_run_backref hh with ⟨hc, rfl⟩ | ⟨c, hc, _, hh⟩
      · exact ⟨by simp [Captures.texts, hc], rfl⟩
      · rw [hh]
        exact ⟨by simp [Captures.texts, hc], rfl⟩

/-!
## Expressions of bounded size without groups
-/

/-- No repetition, no group, and symbols in `A` only. -/
def Flat (A : α -> Prop) : Regex α -> Prop
  | eps => True
  | set p => forall x, p x = true -> A x
  | seq a b => Flat A a ∧ Flat A b
  | alt a b => Flat A a ∧ Flat A b
  | star _ => False
  | group _ _ => False
  | backref _ => False

/-- The least length of a match of a flat expression. -/
def least : Regex α -> Nat
  | eps => 0
  | set _ => 1
  | seq a b => least a + least b
  | alt a b => min (least a) (least b)
  | star _ => 0
  | group _ a => least a
  | backref _ => 0

/-- The greatest length of a match of a flat expression. -/
def most : Regex α -> Nat
  | eps => 0
  | set _ => 1
  | seq a b => most a + most b
  | alt a b => max (most a) (most b)
  | star _ => 0
  | group _ a => most a
  | backref _ => 0

theorem derives_flat {A : α -> Prop} {r : Regex α} :
    r.Flat A -> forall {t : List α} {c c' : Texts α}, r.Derives t c c' ->
      (forall x, x ∈ t -> A x) ∧ r.least ≤ t.length ∧ t.length ≤ r.most ∧
        c' = c := by
  induction r with
  | eps =>
      rintro _ t c c' ⟨rfl, rfl⟩
      simp [least, most]
  | set p =>
      rintro hflat t c c' ⟨x, hx, rfl, rfl⟩
      refine ⟨?_, Nat.le_refl 1, Nat.le_refl 1, rfl⟩
      intro y hy
      rw [List.mem_singleton.mp hy]
      exact hflat x hx
  | seq a b iha ihb =>
      rintro hflat t c c' ⟨t1, c1, ha, t2, hb, rfl⟩
      rcases iha hflat.1 ha with ⟨hall1, hleast1, hmost1, rfl⟩
      rcases ihb hflat.2 hb with ⟨hall2, hleast2, hmost2, rfl⟩
      refine ⟨?_, ?_, ?_, rfl⟩
      · intro x hx
        rcases List.mem_append.mp hx with hx | hx
        · exact hall1 x hx
        · exact hall2 x hx
      · rw [List.length_append, least]
        omega
      · rw [List.length_append, most]
        omega
  | alt a b iha ihb =>
      intro hflat t c c' h
      rw [least, most]
      rcases h with h | h
      · rcases iha hflat.1 h with ⟨hall, hleast, hmost, rfl⟩
        exact ⟨hall, by omega, by omega, rfl⟩
      · rcases ihb hflat.2 h with ⟨hall, hleast, hmost, rfl⟩
        exact ⟨hall, by omega, by omega, rfl⟩
  | star a ih =>
      intro hflat
      cases hflat
  | group n a ih =>
      intro hflat
      cases hflat
  | backref n =>
      intro hflat
      cases hflat

/-!
## The derived expressions
-/

section Combinators

variable {t : List α} {c c' : Texts α}

theorem derives_star_set {p : α -> Bool} :
    (star (set p)).Derives t c c' ↔ (forall x, x ∈ t -> p x = true) ∧ c' = c := by
  constructor
  · intro h
    simp only [Derives, groups, Texts.clear_nil] at h
    induction h with
    | nil =>
        exact ⟨by simp, rfl⟩
    | cons hround _ ih =>
        rcases hround with ⟨x, hx, rfl, rfl⟩
        refine ⟨?_, ih.2⟩
        intro y hy
        rcases List.mem_append.mp hy with hy | hy
        · rw [List.mem_singleton.mp hy]
          exact hx
        · exact ih.1 y hy
  · rintro ⟨hall, rfl⟩
    simp only [Derives, groups, Texts.clear_nil]
    induction t with
    | nil =>
        exact Iterates.nil
    | cons x t ih =>
        exact Iterates.cons (t := [x]) ⟨x, hall x (by simp), rfl, rfl⟩
          (ih fun y hy => hall y (List.mem_cons_of_mem x hy))

theorem derives_plus_set {p : α -> Bool} :
    (plus (set p)).Derives t c c' ↔
      t ≠ [] ∧ (forall x, x ∈ t -> p x = true) ∧ c' = c := by
  unfold plus
  constructor
  · rintro ⟨t1, c1, ⟨x, hx, rfl, rfl⟩, t2, hstar, rfl⟩
    rcases derives_star_set.mp hstar with ⟨hall, rfl⟩
    refine ⟨by simp, ?_, rfl⟩
    intro y hy
    rcases List.mem_append.mp hy with hy | hy
    · rw [List.mem_singleton.mp hy]
      exact hx
    · exact hall y hy
  · rintro ⟨hne, hall, rfl⟩
    cases t with
    | nil =>
        exact absurd rfl hne
    | cons x t =>
        refine ⟨[x], c', ⟨x, hall x (by simp), rfl, rfl⟩, t, ?_, rfl⟩
        exact derives_star_set.mpr
          ⟨fun y hy => hall y (List.mem_cons_of_mem x hy), rfl⟩

theorem derives_times_set {p : α -> Bool} {n : Nat} :
    (times n (set p)).Derives t c c' ->
      t.length = n ∧ (forall x, x ∈ t -> p x = true) ∧ c' = c := by
  induction n generalizing t c with
  | zero =>
      rintro ⟨rfl, rfl⟩
      simp
  | succ n ih =>
      cases n with
      | zero =>
          rintro ⟨x, hx, rfl, rfl⟩
          simpa using hx
      | succ n =>
          rintro ⟨t1, c1, ⟨x, hx, rfl, rfl⟩, t2, htimes, rfl⟩
          rcases ih htimes with ⟨hlen, hall, rfl⟩
          refine ⟨by simp [hlen], ?_, rfl⟩
          intro y hy
          rcases List.mem_append.mp hy with hy | hy
          · rw [List.mem_singleton.mp hy]
            exact hx
          · exact hall y hy

theorem derives_chr [DecidableEq α] {x : α} :
    (chr x).Derives t c c' ↔ t = [x] ∧ c' = c := by
  unfold chr
  constructor
  · rintro ⟨y, hy, rfl, rfl⟩
    rw [of_decide_eq_true hy]
    exact ⟨rfl, rfl⟩
  · rintro ⟨rfl, rfl⟩
    exact ⟨x, by simp, rfl, rfl⟩

theorem derives_word [DecidableEq α] {w : List α} :
    (word w).Derives t c c' ↔ t = w ∧ c' = c := by
  induction w using word.induct generalizing t c with
  | case1 =>
      rfl
  | case2 x =>
      exact derives_chr
  | case3 x y s ih =>
      constructor
      · rintro ⟨t1, c1, hx, t2, hword, rfl⟩
        rcases derives_chr.mp hx with ⟨rfl, rfl⟩
        rcases ih.mp hword with ⟨rfl, rfl⟩
        exact ⟨rfl, rfl⟩
      · rintro ⟨rfl, rfl⟩
        exact ⟨[x], c', derives_chr.mpr ⟨rfl, rfl⟩, y :: s,
          ih.mpr ⟨rfl, rfl⟩, rfl⟩

end Combinators
end Regex

namespace Match

variable {α : Type}

theorem group_eq_texts (m : Match α) (n : Nat) :
    m.group (n + 1) = (m.caps.texts (n + 1)).getD [] := by
  simp only [group, Captures.texts]
  cases m.caps (n + 1) <;> rfl

theorem search_derives [DecidableEq α] {r : Regex α} {s : List α} {m : Match α}
    (h : r.search s = some m) :
    r.Derives m.text (fun _ => none) m.caps.texts :=
  Regex.run_derives (search_hit h)

end Match
end VoiceTts
