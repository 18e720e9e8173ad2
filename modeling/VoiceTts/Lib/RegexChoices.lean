import VoiceTts.Lib.RewriteLocal
import Mathlib.Data.List.Infix

/-!
# The texts that an expression can take

Without back references the texts that an expression takes do not depend on where
the run starts or on what was captured before.  This module tells these texts, the
preferred ones first, and finds matches from them: a search stops at the first
position where there is such a text, with the preferred one.
-/

namespace VoiceTts
namespace Regex

variable {α : Type} [DecidableEq α]

/-- The expression has no back reference. -/
def Plain : Regex α -> Prop
  | eps => True
  | set _ => True
  | seq a b => Plain a ∧ Plain b
  | alt a b => Plain a ∧ Plain b
  | star a => Plain a
  | group _ a => Plain a
  | backref _ => False

theorem plain_word (w : List α) : (word w).Plain := by
  induction w with
  | nil => exact trivial
  | cons x w ih =>
      cases w with
      | nil => exact trivial
      | cons y w => exact ⟨trivial, ih⟩

omit [DecidableEq α] in
theorem plain_anyOf {rs : List (Regex α)} :
    forall {r : Regex α}, (forall r', r' ∈ r :: rs -> r'.Plain) -> (anyOf r rs).Plain := by
  induction rs with
  | nil =>
      intro r h
      exact h r List.mem_cons_self
  | cons b rs ih =>
      intro r h
      exact ⟨h r List.mem_cons_self, ih fun r' hr' => h r' (List.mem_cons_of_mem r hr')⟩

/-- The texts taken at the head of `s`, the preferred ones first. -/
def choices (r : Regex α) (s : List α) : List (List α) :=
  (run r 0 s Captures.none).map Hit.taken

/-- The texts of a repetition; `f` gives the texts of one round. -/
def starChoices (f : List α -> List (List α)) : Nat -> List α -> List (List α)
  | 0, _ => [[]]
  | fuel + 1, s =>
      ((f s).filter fun t => !t.isEmpty).flatMap
          (fun t => (starChoices f fuel (s.drop t.length)).map fun u => t ++ u) ++ [[]]

theorem rest_eq_drop {r : Regex α} {pos : Nat} {s : List α} {caps : Captures α}
    {h : Hit α} (hh : h ∈ run r pos s caps) : h.rest = s.drop h.taken.length := by
  rw [← run_splits hh, List.drop_left]

omit [DecidableEq α] in
theorem starRun_taken {f : Nat -> List α -> Captures α -> List (Hit α)} {ns : List Nat}
    {g : List α -> List (List α)}
    (hf : forall pos s caps, (f pos s caps).map Hit.taken = g s)
    (hrest : forall pos s caps h, h ∈ f pos s caps -> h.rest = s.drop h.taken.length) :
    forall fuel pos s caps,
      (starRun f ns fuel pos s caps).map Hit.taken = starChoices g fuel s := by
  intro fuel
  induction fuel with
  | zero =>
      intro pos s caps
      rfl
  | succ fuel ih =>
      intro pos s caps
      simp only [starRun, starChoices, List.map_append, List.map_flatMap, List.map_map,
        ← hf pos s (caps.clear ns), List.filter_map, List.flatMap_map]
      congr 1
      apply List.flatMap_congr
      intro h hh
      rw [← hrest pos s _ h (List.mem_filter.mp hh).1, ← ih (pos + h.taken.length) h.rest h.caps,
        List.map_map]
      rfl

theorem run_taken {r : Regex α} (hr : r.Plain) :
    forall pos s caps, (run r pos s caps).map Hit.taken = choices r s := by
  induction r with
  | eps =>
      intro pos s caps
      rfl
  | set p =>
      intro pos s caps
      cases s with
      | nil => rfl
      | cons x t =>
          by_cases hx : p x = true
          · simp [choices, run, hx]
          · simp [choices, run, hx]
  | seq a b iha ihb =>
      intro pos s caps
      have hseq : forall pos caps, (run (seq a b) pos s caps).map Hit.taken =
          (choices a s).flatMap fun t => (choices b (s.drop t.length)).map fun u => t ++ u := by
        intro pos caps
        rw [← iha hr.1 pos s caps]
        simp only [run, List.map_flatMap, List.flatMap_map, List.map_map]
        apply List.flatMap_congr
        intro h hh
        rw [← rest_eq_drop hh, ← ihb hr.2 (pos + h.taken.length) h.rest h.caps, List.map_map]
        rfl
      exact (hseq pos caps).trans (hseq 0 Captures.none).symm
  | alt a b iha ihb =>
      intro pos s caps
      simp only [choices, run, List.map_append]
      exact congrArg₂ (· ++ ·) (iha hr.1 pos s caps) (ihb hr.2 pos s caps)
  | star a ih =>
      intro pos s caps
      have hstar : forall pos caps, (run (star a) pos s caps).map Hit.taken =
          starChoices (choices a) s.length s :=
        fun pos caps => starRun_taken (ih hr) (fun _ _ _ _ => rest_eq_drop) s.length pos s caps
      exact (hstar pos caps).trans (hstar 0 Captures.none).symm
  | group n a ih =>
      intro pos s caps
      simp only [choices, run, List.map_map]
      exact ih hr pos s caps
  | backref n => exact False.elim hr

theorem mem_choices_of_run {r : Regex α} (hr : r.Plain) {pos : Nat} {s : List α}
    {caps : Captures α} {h : Hit α} (hh : h ∈ run r pos s caps) :
    h.taken ∈ choices r s := by
  rw [← run_taken hr pos s caps]
  exact List.mem_map_of_mem hh

/-!
## One equation for each kind of expression
-/

@[simp] theorem choices_eps (s : List α) : choices eps s = [[]] := rfl

@[simp] theorem choices_set_nil (p : α -> Bool) : choices (set p) [] = [] := rfl

@[simp] theorem choices_set_cons (p : α -> Bool) (x : α) (s : List α) :
    choices (set p) (x :: s) = if p x then [[x]] else [] := by
  cases hx : p x with
  | true => simp [choices, run, hx]
  | false => simp [choices, run, hx]

theorem choices_seq (a : Regex α) {b : Regex α} (hb : b.Plain) (s : List α) :
    choices (seq a b) s =
      (choices a s).flatMap fun t => (choices b (s.drop t.length)).map fun u => t ++ u := by
  simp only [choices, run, List.map_flatMap, List.flatMap_map, List.map_map]
  apply List.flatMap_congr
  intro h hh
  rw [← rest_eq_drop hh]
  show (run b _ h.rest h.caps).map (fun k => h.taken ++ k.taken) = _
  have hmap := congrArg (List.map fun u => h.taken ++ u)
    (run_taken hb (0 + h.taken.length) h.rest h.caps)
  rw [List.map_map, choices, List.map_map] at hmap
  exact hmap

@[simp] theorem choices_alt (a b : Regex α) (s : List α) :
    choices (alt a b) s = choices a s ++ choices b s := by
  simp only [choices, run, List.map_append]

@[simp] theorem choices_group (n : Nat) (a : Regex α) (s : List α) :
    choices (group n a) s = choices a s := by
  simp only [choices, run, List.map_map]
  rfl

theorem choices_star {a : Regex α} (ha : a.Plain) (s : List α) :
    choices (star a) s = starChoices (choices a) s.length s :=
  starRun_taken (run_taken ha) (fun _ _ _ _ => rest_eq_drop) s.length 0 s Captures.none

theorem choices_opt (a : Regex α) (s : List α) : choices (opt a) s = choices a s ++ [[]] :=
  choices_alt a eps s

theorem mem_choices_seq {a b : Regex α} (hb : b.Plain) {s t : List α} :
    t ∈ choices (seq a b) s ↔
      exists u v, t = u ++ v ∧ u ∈ choices a s ∧ v ∈ choices b (s.drop u.length) := by
  rw [choices_seq a hb, List.mem_flatMap]
  constructor
  · rintro ⟨u, hu, ht⟩
    obtain ⟨v, hv, rfl⟩ := List.mem_map.mp ht
    exact ⟨u, v, rfl, hu, hv⟩
  · rintro ⟨u, v, rfl, hu, hv⟩
    exact ⟨u, hu, List.mem_map_of_mem hv⟩

/-!
## Repetitions of one symbol
-/

section Repetition

variable {p : α -> Bool}

theorem choices_star_set_cons (x : α) (s : List α) :
    choices (star (set p)) (x :: s) =
      if p x then (choices (star (set p)) s).map (fun t => x :: t) ++ [[]] else [[]] := by
  have hplain : (set p : Regex α).Plain := trivial
  rw [choices_star hplain, choices_star hplain, List.length_cons, starChoices, choices_set_cons]
  cases hx : p x with
  | true => simp
  | false => simp

theorem mem_choices_star_set {s : List α} :
    forall {t : List α}, t ∈ choices (star (set p)) s ↔ t <+: s ∧ forall x, x ∈ t -> p x = true := by
  induction s with
  | nil =>
      intro t
      have hnil : choices (star (set p)) ([] : List α) = [[]] := rfl
      rw [hnil, List.mem_singleton, List.prefix_nil]
      constructor
      · intro ht
        exact ⟨ht, ht ▸ fun _ hx => nomatch hx⟩
      · exact And.left
  | cons y s ih =>
      intro t
      rw [choices_star_set_cons]
      cases t with
      | nil =>
          have hmem : ([] : List α) ∈ if p y then
              (choices (star (set p)) s).map (fun t => y :: t) ++ [[]] else [[]] := by
            split
            · exact List.mem_append_right _ (List.mem_singleton.mpr rfl)
            · exact List.mem_singleton.mpr rfl
          exact ⟨fun _ => ⟨List.nil_prefix, fun _ hx => nomatch hx⟩, fun _ => hmem⟩
      | cons x t =>
          rw [List.cons_prefix_cons, List.forall_mem_cons]
          cases hy : p y with
          | true =>
              simp only [if_true, List.mem_append, List.mem_map, List.cons.injEq,
                List.mem_singleton, reduceCtorEq, or_false]
              constructor
              · rintro ⟨u, hu, rfl, rfl⟩
                exact ⟨⟨rfl, (ih.mp hu).1⟩, hy, (ih.mp hu).2⟩
              · rintro ⟨⟨rfl, hpre⟩, -, hall⟩
                exact ⟨t, ih.mpr ⟨hpre, hall⟩, rfl, rfl⟩
          | false =>
              simp only [Bool.false_eq_true, if_false, List.mem_singleton, reduceCtorEq, false_iff]
              rintro ⟨⟨rfl, -⟩, hx, -⟩
              rw [hy] at hx
              cases hx

theorem mem_choices_plus_set {s t : List α} :
    t ∈ choices (plus (set p)) s ↔ t ≠ [] ∧ t <+: s ∧ forall x, x ∈ t -> p x = true := by
  have hplain : (star (set p) : Regex α).Plain := trivial
  rw [plus, mem_choices_seq hplain]
  cases s with
  | nil =>
      constructor
      · rintro ⟨u, v, -, hu, -⟩
        cases hu
      · rintro ⟨hne, hpre, -⟩
        exact absurd (List.prefix_nil.mp hpre) hne
  | cons y s =>
      constructor
      · rintro ⟨u, v, rfl, hu, hv⟩
        rw [choices_set_cons] at hu
        split at hu
        case isTrue hy =>
          rw [List.mem_singleton.mp hu] at hv ⊢
          obtain ⟨hpre, hall⟩ := mem_choices_star_set.mp hv
          exact ⟨List.cons_ne_nil y v, List.cons_prefix_cons.mpr ⟨rfl, hpre⟩,
            List.forall_mem_cons.mpr ⟨hy, hall⟩⟩
        case isFalse => cases hu
      · rintro ⟨hne, hpre, hall⟩
        cases t with
        | nil => exact absurd rfl hne
        | cons x t =>
            obtain ⟨rfl, htail⟩ := List.cons_prefix_cons.mp hpre
            obtain ⟨hx, hrest⟩ := List.forall_mem_cons.mp hall
            refine ⟨[x], t, rfl, ?_, mem_choices_star_set.mpr ⟨htail, hrest⟩⟩
            rw [choices_set_cons, if_pos hx]
            exact List.mem_singleton.mpr rfl

end Repetition

/-!
## The preferred text
-/

/-- At the head of `s` the text `t` is taken. -/
def Prefers (r : Regex α) (s t : List α) : Prop :=
  (choices r s).head? = some t

section Preference

variable {a b : Regex α} {s t u : List α} {p : α -> Bool}

theorem Prefers.mem (h : Prefers a s t) : t ∈ choices a s :=
  List.mem_of_head? h

theorem prefers_set {x : α} (hx : p x = true) : Prefers (set p) (x :: s) [x] := by
  rw [Prefers, choices_set_cons, if_pos hx]
  rfl

theorem Prefers.group (h : Prefers a s t) (n : Nat) : Prefers (group n a) s t := by
  rw [Prefers, choices_group]
  exact h

theorem Prefers.left (h : Prefers a s t) (b : Regex α) : Prefers (alt a b) s t := by
  rw [Prefers, choices_alt, List.head?_append, h]
  rfl

theorem Prefers.right (ha : choices a s = []) (h : Prefers b s t) : Prefers (alt a b) s t := by
  rw [Prefers, choices_alt, ha, List.nil_append]
  exact h

theorem Prefers.seq (ha : Prefers a s t) (hb : Prefers b (s.drop t.length) u)
    (hplain : b.Plain) : Prefers (seq a b) s (t ++ u) := by
  obtain ⟨ts, hts⟩ := List.head?_eq_some_iff.mp ha
  obtain ⟨us, hus⟩ := List.head?_eq_some_iff.mp hb
  rw [Prefers, choices_seq a hplain, hts, List.flatMap_cons, hus, List.map_cons,
    List.cons_append, List.head?_cons]

/-- The first text of `a` that `b` can go on from is taken. -/
theorem Prefers.of_seq (h : Prefers (Regex.seq a b) s t) (hplain : b.Plain) :
    exists u v, t = u ++ v ∧ u ∈ choices a s ∧ Prefers b (s.drop u.length) v := by
  rw [Prefers, choices_seq a hplain] at h
  generalize choices a s = ts at h ⊢
  induction ts with
  | nil => cases h
  | cons u ts ih =>
      rw [List.flatMap_cons, List.head?_append] at h
      cases hb : (choices b (s.drop u.length)).head? with
      | some v =>
          rw [List.head?_map, hb] at h
          exact ⟨u, v, (Option.some.inj h).symm, List.mem_cons_self, hb⟩
      | none =>
          rw [List.head?_map, hb] at h
          obtain ⟨u', v, ht, hu', hv⟩ := ih h
          exact ⟨u', v, ht, List.mem_cons_of_mem u hu', hv⟩

theorem exists_prefers_opt (b : Regex α) (s : List α) : exists t, Prefers (opt b) s t := by
  cases hb : choices b s with
  | nil => exact ⟨[], Prefers.right hb rfl⟩
  | cons t ts =>
      refine ⟨t, Prefers.left ?_ eps⟩
      rw [Prefers, hb]
      rfl

/-- What can be skipped does not change the choice before it. -/
theorem Prefers.of_seq_opt (h : Prefers (Regex.seq a (opt b)) s t) (hplain : b.Plain) :
    exists u v, t = u ++ v ∧ Prefers a s u ∧ Prefers (opt b) (s.drop u.length) v := by
  rw [Prefers, choices_seq a (show (opt b).Plain from ⟨hplain, trivial⟩)] at h
  cases hts : choices a s with
  | nil =>
      rw [hts] at h
      cases h
  | cons u ts =>
      obtain ⟨v, hv⟩ := exists_prefers_opt b (s.drop u.length)
      rw [hts, List.flatMap_cons, List.head?_append, List.head?_map, hv] at h
      refine ⟨u, v, (Option.some.inj h).symm, ?_, hv⟩
      rw [Prefers, hts]
      rfl

omit [DecidableEq α] in
/-- A run of symbols in `p` ends at the first symbol that is not in `p`. -/
theorem takeWhile_run {w v : List α} (hw : forall x, x ∈ w -> p x = true)
    (hv : forall x, v.head? = some x -> p x = false) : (w ++ v).takeWhile p = w := by
  rw [List.takeWhile_append_of_pos hw]
  cases v with
  | nil => rw [List.takeWhile_nil, List.append_nil]
  | cons x v => rw [List.takeWhile_cons_of_neg (by simp [hv x rfl]), List.append_nil]

omit [DecidableEq α] in
theorem run_unique {w u v v' : List α} {x y : α} (hw : forall z, z ∈ w -> p z = true)
    (hu : forall z, z ∈ u -> p z = true) (hx : p x = false) (hy : p y = false)
    (h : w ++ x :: v = u ++ y :: v') : w = u ∧ x :: v = y :: v' := by
  have hends : forall {z : α} {t : List α}, p z = false ->
      forall c, (z :: t).head? = some c -> p c = false := by
    intro z t hz c hc
    rw [← Option.some.inj hc]
    exact hz
  have heq : w = u := by
    rw [← takeWhile_run hw (hends (t := v) hx), h, takeWhile_run hu (hends hy)]
  subst heq
  exact ⟨rfl, List.append_cancel_left h⟩

theorem prefers_star_set (s : List α) : Prefers (star (set p)) s (s.takeWhile p) := by
  induction s with
  | nil => rfl
  | cons x s ih =>
      rw [Prefers, choices_star_set_cons, List.takeWhile_cons]
      cases p x with
      | true =>
          rw [if_pos rfl, if_pos rfl, List.head?_append, List.head?_map, ih]
          rfl
      | false => rfl

theorem prefers_plus_set {x : α} (hx : p x = true) (s : List α) :
    Prefers (plus (set p)) (x :: s) ((x :: s).takeWhile p) := by
  rw [List.takeWhile_cons_of_pos hx]
  have hplain : (star (set p) : Regex α).Plain := trivial
  exact (prefers_set hx).seq (prefers_star_set s) hplain

end Preference

theorem exists_prefers {r : Regex α} {s : List α} (h : choices r s ≠ []) : exists t, Prefers r s t := by
  cases hr : choices r s with
  | nil => exact absurd hr h
  | cons t ts =>
      refine ⟨t, ?_⟩
      rw [Prefers, hr, List.head?_cons]

/-!
## Vocabularies
-/

/-- The expression takes the words `ws` and no other texts. -/
def Spells (r : Regex α) (ws : List (List α)) : Prop :=
  forall s t, t ∈ choices r s ↔ t ∈ ws ∧ t <+: s

/-- Together the alternatives take the words `ws` and no other texts. -/
def SpellsAll (rs : List (Regex α)) (ws : List (List α)) : Prop :=
  forall s t, (exists r, r ∈ rs ∧ t ∈ choices r s) ↔ t ∈ ws ∧ t <+: s

theorem choices_word (w : List α) : forall s, choices (word w) s = if w <+: s then [w] else [] := by
  induction w with
  | nil =>
      intro s
      rw [if_pos List.nil_prefix]
      rfl
  | cons x w ih =>
      intro s
      cases w with
      | nil =>
          cases s with
          | nil => rfl
          | cons y s =>
              rw [word, chr, choices_set_cons]
              by_cases hxy : y = x
              · simp [hxy]
              · simp [hxy, Ne.symm hxy]
      | cons x' w =>
          have hplain : (word (x' :: w)).Plain := plain_word (x' :: w)
          rw [word, choices_seq _ hplain]
          cases s with
          | nil => rfl
          | cons y s =>
              rw [chr, choices_set_cons]
              by_cases hxy : y = x
              · subst hxy
                simp only [decide_true, if_true, List.flatMap_cons, List.flatMap_nil,
                  List.append_nil, List.length_cons, List.length_nil, List.drop_succ_cons,
                  List.drop_zero, ih s, List.cons_prefix_cons, true_and]
                split
                case isTrue => rfl
                case isFalse => rfl
              · simp [hxy, Ne.symm hxy]

theorem spells_word (w : List α) : (word w).Spells [w] := by
  intro s t
  rw [choices_word]
  by_cases hw : w <+: s
  · rw [if_pos hw]
    constructor
    · intro ht
      rw [List.mem_singleton.mp ht]
      exact ⟨List.mem_singleton_self w, hw⟩
    · exact And.left
  · rw [if_neg hw]
    constructor
    · intro ht
      cases ht
    · rintro ⟨ht, hpre⟩
      rw [List.mem_singleton.mp ht] at hpre
      exact absurd hpre hw

theorem Spells.group {r : Regex α} {ws : List (List α)} (h : r.Spells ws) (n : Nat) :
    (group n r).Spells ws := by
  intro s t
  rw [choices_group]
  exact h s t

theorem spellsAll_nil : SpellsAll ([] : List (Regex α)) [] := by
  intro s t
  constructor
  · rintro ⟨r, hr, -⟩
    cases hr
  · rintro ⟨ht, -⟩
    cases ht

theorem SpellsAll.cons {r : Regex α} {rs : List (Regex α)} {ws ws' : List (List α)}
    (h : r.Spells ws) (hs : SpellsAll rs ws') : SpellsAll (r :: rs) (ws ++ ws') := by
  intro s t
  rw [List.mem_append, or_and_right, ← h s t, ← hs s t]
  constructor
  · rintro ⟨r', hr', ht⟩
    cases hr' with
    | head => exact Or.inl ht
    | tail _ hr' => exact Or.inr ⟨r', hr', ht⟩
  · rintro (ht | ⟨r', hr', ht⟩)
    · exact ⟨r, List.mem_cons_self, ht⟩
    · exact ⟨r', List.mem_cons_of_mem r hr', ht⟩

theorem Spells.all {r : Regex α} {ws : List (List α)} (h : r.Spells ws) :
    SpellsAll [r] ws := by
  have hall := SpellsAll.cons h spellsAll_nil
  rw [List.append_nil] at hall
  exact hall

theorem SpellsAll.append {rs rs' : List (Regex α)} {ws ws' : List (List α)}
    (h : SpellsAll rs ws) (h' : SpellsAll rs' ws') : SpellsAll (rs ++ rs') (ws ++ ws') := by
  intro s t
  rw [List.mem_append, or_and_right, ← h s t, ← h' s t, ← exists_or]
  apply exists_congr
  intro r
  rw [List.mem_append, or_and_right]

theorem spellsAll_words (ws : List (List α)) : SpellsAll (ws.map word) ws := by
  induction ws with
  | nil => exact spellsAll_nil
  | cons w ws ih => exact SpellsAll.cons (spells_word w) ih

theorem mem_choices_anyOf {rs : List (Regex α)} :
    forall {r : Regex α} {s t : List α},
      t ∈ choices (anyOf r rs) s ↔ exists r', r' ∈ r :: rs ∧ t ∈ choices r' s := by
  induction rs with
  | nil =>
      intro r s t
      constructor
      · intro ht
        exact ⟨r, List.mem_cons_self, ht⟩
      · rintro ⟨r', hr', ht⟩
        rw [List.mem_singleton.mp hr'] at ht
        exact ht
  | cons b rs ih =>
      intro r s t
      rw [anyOf, choices_alt, List.mem_append, ih]
      constructor
      · rintro (ht | ⟨r', hr', ht⟩)
        · exact ⟨r, List.mem_cons_self, ht⟩
        · exact ⟨r', List.mem_cons_of_mem r hr', ht⟩
      · rintro ⟨r', hr', ht⟩
        cases hr' with
        | head => exact Or.inl ht
        | tail _ hr' => exact Or.inr ⟨r', hr', ht⟩

theorem spells_anyOf {r : Regex α} {rs : List (Regex α)} {ws : List (List α)}
    (h : SpellsAll (r :: rs) ws) : (anyOf r rs).Spells ws := by
  intro s t
  rw [← h s t, mem_choices_anyOf]

theorem Spells.seq_word {r : Regex α} {ws : List (List α)} (h : r.Spells ws) (u : List α) :
    (Regex.seq r (word u)).Spells (ws.map fun w => w ++ u) := by
  intro s t
  rw [mem_choices_seq (plain_word u)]
  constructor
  · rintro ⟨w, v, rfl, hw, hv⟩
    obtain ⟨hmem, rest, rfl⟩ := (h s w).mp hw
    rw [List.drop_left] at hv
    obtain ⟨hu, hpre⟩ := (spells_word u rest v).mp hv
    rw [List.mem_singleton.mp hu] at hpre ⊢
    exact ⟨List.mem_map_of_mem hmem, (List.prefix_append_right_inj w).mpr hpre⟩
  · rintro ⟨ht, hpre⟩
    obtain ⟨w, hw, rfl⟩ := List.mem_map.mp ht
    obtain ⟨rest, rfl⟩ := hpre
    refine ⟨w, u, rfl, (h _ w).mpr ⟨hw, ?_⟩, ?_⟩
    · rw [List.append_assoc]
      exact List.prefix_append w (u ++ rest)
    · rw [List.append_assoc, List.drop_left]
      exact (spells_word u _ u).mpr ⟨List.mem_singleton_self u, List.prefix_append u rest⟩

theorem Spells.choices_eq_nil {r : Regex α} {ws : List (List α)} (h : r.Spells ws)
    {s : List α} : choices r s = [] ↔ forall w, w ∈ ws -> ¬ w <+: s := by
  rw [List.eq_nil_iff_forall_not_mem]
  apply forall_congr'
  intro w
  rw [h s w, not_and]

/-!
## Searching by choices
-/

theorem noHit_iff_choices {r : Regex α} {s : List α} : NoHit r s ↔ choices r s = [] :=
  List.map_eq_nil_iff.symm

theorem search_spec {r : Regex α} {s : List α} {m : Match α} (h : r.search s = some m) :
    NoHitBefore r m.pre (m.text ++ m.post) ∧ Prefers r (m.text ++ m.post) m.text := by
  obtain ⟨v, hs, hbefore, k, ks, hrun, hk⟩ := search_eq_some.mp h
  have hv : v = m.text ++ m.post := by
    have hsplit := Match.search_splits h
    rw [hs, List.append_assoc] at hsplit
    exact List.append_cancel_left hsplit
  subst hv
  injection hk with htext _ _
  refine ⟨hbefore, ?_⟩
  rw [Prefers, choices, hrun, List.map_cons, List.head?_cons, htext]

/-- A search finds the preferred text at the first position that has one. -/
theorem search_of_prefers {r : Regex α} {u v t : List α} (hbefore : NoHitBefore r u v)
    (h : Prefers r v t) :
    exists m, r.search (u ++ v) = some m ∧ m.pre = u ∧ m.text = t ∧
      m.post = v.drop t.length := by
  cases hrun : run r 0 v Captures.none with
  | nil =>
      rw [Prefers, choices, hrun] at h
      cases h
  | cons k ks =>
      rw [Prefers, choices, hrun] at h
      have ht : k.taken = t := Option.some.inj h
      have hrest : k.rest = v.drop k.taken.length :=
        rest_eq_drop (r := r) (hrun ▸ List.mem_cons_self)
      refine ⟨⟨u, k.taken, k.rest, k.caps.shift u.length⟩, ?_, rfl, ht, ?_⟩
      · exact search_eq_some.mpr ⟨v, rfl, hbefore, k, ks, hrun, rfl⟩
      · rw [← ht]
        exact hrest

theorem blocked_of_not_first {r : Regex α} (hnull : ¬ r.Nullable) {u : List α}
    (h : forall x, x ∈ u -> ¬ r.First x) : Blocked r u := by
  intro v p q hpq hq
  cases q with
  | nil => exact absurd rfl hq
  | cons x q =>
      apply noHit_of_not_first hnull
      apply h
      rw [hpq]
      exact List.mem_append_right p List.mem_cons_self

end Regex
end VoiceTts
