import VoiceTts.Lib.RegexChoices
import VoiceTts.Lib.RegexText

/-!
# Where a match begins and ends

In a run of symbols of one kind a match can begin or end anywhere.  It begins
with the run when the expression could take one more symbol in front, and it ends
with the run when the expression takes all it can.  An expression with an optional
symbol at either end reaches one symbol further than what it looks for.
-/

namespace VoiceTts
namespace Regex

variable {α : Type} [DecidableEq α]

/-!
## The ends of a run
-/

/-- The preferred text leaves no symbol in `p` directly behind it. -/
def Exhausts (p : α -> Bool) (r : Regex α) : Prop :=
  forall s t, Prefers r s t -> forall x, (s.drop t.length).head? = some x -> p x = false

/-- One more symbol in `p` in front of others in `p` can be taken as well. -/
def Lengthens (p : α -> Bool) (r : Regex α) : Prop :=
  forall x y s t, p x = true -> p y = true -> t ∈ choices r (y :: s) ->
    x :: t ∈ choices r (x :: y :: s)

section Extent

variable {p : α -> Bool} {a b : Regex α}

theorem exhausts_star_set : (star (set p)).Exhausts p := by
  intro s t ht x hx
  have htake : s.takeWhile p = t := Option.some.inj ((prefers_star_set s).symm.trans ht)
  rw [← List.takeWhile_append_dropWhile (p := p) (l := s), htake, List.drop_left] at hx
  have hnot := List.head?_dropWhile_not p s
  rw [hx] at hnot
  exact hnot

theorem Exhausts.group (h : a.Exhausts p) (n : Nat) : (group n a).Exhausts p := by
  intro s t ht
  rw [Prefers, choices_group] at ht
  exact h s t ht

theorem Exhausts.alt (ha : a.Exhausts p) (hb : b.Exhausts p) : (alt a b).Exhausts p := by
  intro s t ht
  rw [Prefers, choices_alt, List.head?_append] at ht
  cases hhead : (choices a s).head? with
  | none =>
      rw [hhead] at ht
      exact hb s t ht
  | some u =>
      rw [hhead] at ht
      have hu : u = t := Option.some.inj ht
      exact ha s t (hu ▸ hhead)

theorem Exhausts.seq (hb : b.Exhausts p) (hplain : b.Plain) (a : Regex α) :
    (seq a b).Exhausts p := by
  intro s t ht
  obtain ⟨u, v, rfl, -, hv⟩ := ht.of_seq hplain
  rw [List.length_append, ← List.drop_drop]
  exact hb _ v hv

theorem Exhausts.seq_opt (ha : a.Exhausts p) (hb : b.Exhausts p) (hplain : b.Plain) :
    (Regex.seq a (opt b)).Exhausts p := by
  intro s t ht
  obtain ⟨u, v, rfl, hu, hv⟩ := ht.of_seq_opt hplain
  rw [List.length_append, ← List.drop_drop]
  rw [Prefers, choices_opt, List.head?_append] at hv
  cases hhead : (choices b (s.drop u.length)).head? with
  | none =>
      rw [hhead] at hv
      have hnil : [] = v := Option.some.inj hv
      rw [← hnil]
      exact ha s u hu
  | some w =>
      rw [hhead] at hv
      have hw : w = v := Option.some.inj hv
      exact hb _ v (hw ▸ hhead)

theorem exhausts_plus_set : (plus (set p)).Exhausts p :=
  exhausts_star_set.seq trivial (set p)

/-- A match that ends with its preferred text is not followed by a symbol in `p`. -/
theorem Exhausts.search (h : a.Exhausts p) {s : List α} {m : Match α}
    (hm : a.search s = some m) {x : α} (hx : m.post.head? = some x) : p x = false := by
  apply h _ _ (search_spec hm).2
  rw [List.drop_left]
  exact hx

theorem lengthens_plus_set : (plus (set p)).Lengthens p := by
  intro x y s t hx _ ht
  obtain ⟨-, hpre, hall⟩ := mem_choices_plus_set.mp ht
  exact mem_choices_plus_set.mpr ⟨List.cons_ne_nil x t, List.cons_prefix_cons.mpr ⟨rfl, hpre⟩,
    List.forall_mem_cons.mpr ⟨hx, hall⟩⟩

theorem Lengthens.group (h : a.Lengthens p) (n : Nat) : (group n a).Lengthens p := by
  intro x y s t hx hy ht
  rw [choices_group] at ht ⊢
  exact h x y s t hx hy ht

theorem Lengthens.seq (h : a.Lengthens p) (hplain : b.Plain) : (seq a b).Lengthens p := by
  intro x y s t hx hy ht
  obtain ⟨u, v, rfl, hu, hv⟩ := (mem_choices_seq hplain).mp ht
  exact (mem_choices_seq hplain).mpr ⟨x :: u, v, rfl, h x y s u hx hy hu, hv⟩

theorem mem_choices_set {s t : List α} :
    t ∈ choices (set p) s ↔ exists x, p x = true ∧ t = [x] ∧ s.head? = some x := by
  cases s with
  | nil => simp
  | cons y s =>
      rw [choices_set_cons]
      cases hy : p y with
      | true =>
          simp only [if_true, List.mem_singleton, List.head?_cons, Option.some.injEq]
          constructor
          · intro ht
            exact ⟨y, hy, ht, rfl⟩
          · rintro ⟨x, -, ht, rfl⟩
            exact ht
      | false =>
          simp only [Bool.false_eq_true, if_false, List.not_mem_nil, List.head?_cons,
            Option.some.injEq, false_iff]
          rintro ⟨x, hx, -, rfl⟩
          rw [hy] at hx
          cases hx

theorem mem_choices_pair {q : α -> Bool} {s t : List α} :
    t ∈ choices (seq (set p) (set q)) s ↔
      exists x y, p x = true ∧ q y = true ∧ t = [x, y] ∧ [x, y] <+: s := by
  have hplain : (set q).Plain := trivial
  rw [mem_choices_seq hplain]
  constructor
  · rintro ⟨u, v, rfl, hu, hv⟩
    obtain ⟨x, hx, rfl, hs⟩ := mem_choices_set.mp hu
    obtain ⟨s', rfl⟩ := List.head?_eq_some_iff.mp hs
    obtain ⟨y, hy, rfl, hs'⟩ := mem_choices_set.mp hv
    obtain ⟨s'', rfl⟩ := List.head?_eq_some_iff.mp hs'
    exact ⟨x, y, hx, hy, rfl, s'', rfl⟩
  · rintro ⟨x, y, hx, hy, rfl, s', rfl⟩
    exact ⟨[x], [y], rfl, mem_choices_set.mpr ⟨x, hx, rfl, rfl⟩,
      mem_choices_set.mpr ⟨y, hy, rfl, rfl⟩⟩

theorem mem_choices_seq_opt (hplain : b.Plain) {s t : List α} :
    t ∈ choices (seq (opt a) b) s ↔ t ∈ choices (seq a b) s ∨ t ∈ choices b s := by
  rw [mem_choices_seq hplain, mem_choices_seq hplain]
  simp only [choices_opt, List.mem_append, List.mem_singleton]
  constructor
  · rintro ⟨u, v, rfl, hu | rfl, hv⟩
    · exact Or.inl ⟨u, v, rfl, hu, hv⟩
    · exact Or.inr hv
  · rintro (⟨u, v, rfl, hu, hv⟩ | ht)
    · exact ⟨u, v, rfl, Or.inl hu, hv⟩
    · exact ⟨[], t, rfl, Or.inr rfl, ht⟩

omit [DecidableEq α] in
theorem plain_times_set (p : α -> Bool) : forall n, (times n (set p)).Plain
  | 0 => trivial
  | 1 => trivial
  | n + 2 => ⟨trivial, plain_times_set p (n + 1)⟩

theorem mem_choices_times_set :
    forall {n : Nat} {s t : List α}, t ∈ choices (times (n + 1) (set p)) s ↔
      t.length = n + 1 ∧ t <+: s ∧ forall x, x ∈ t -> p x = true := by
  intro n
  induction n with
  | zero =>
      intro s t
      change t ∈ choices (set p) s ↔ _
      rw [mem_choices_set]
      constructor
      · rintro ⟨x, hx, rfl, hs⟩
        obtain ⟨s', rfl⟩ := List.head?_eq_some_iff.mp hs
        exact ⟨rfl, List.cons_prefix_cons.mpr ⟨rfl, List.nil_prefix⟩, by simpa using hx⟩
      · rintro ⟨hlength, hpre, hall⟩
        obtain ⟨x, rfl⟩ := List.length_eq_one_iff.mp hlength
        obtain ⟨s', rfl⟩ := hpre
        exact ⟨x, hall x List.mem_cons_self, rfl, rfl⟩
  | succ n ih =>
      intro s t
      change t ∈ choices (Regex.seq (set p) (times (n + 1) (set p))) s ↔ _
      rw [mem_choices_seq (plain_times_set p (n + 1))]
      constructor
      · rintro ⟨u, v, rfl, hu, hv⟩
        obtain ⟨x, hx, rfl, hs⟩ := mem_choices_set.mp hu
        obtain ⟨s', rfl⟩ := List.head?_eq_some_iff.mp hs
        obtain ⟨hlength, hpre, hall⟩ := ih.mp hv
        refine ⟨by simp [hlength], List.cons_prefix_cons.mpr ⟨rfl, hpre⟩, ?_⟩
        exact List.forall_mem_cons.mpr ⟨hx, hall⟩
      · rintro ⟨hlength, hpre, hall⟩
        cases t with
        | nil => cases hlength
        | cons x t =>
            obtain ⟨s', rfl⟩ : exists s', s = x :: s' := by
              obtain ⟨r, hr⟩ := hpre
              exact ⟨t ++ r, hr.symm⟩
            have hx := hall x List.mem_cons_self
            refine ⟨[x], t, rfl, mem_choices_set.mpr ⟨x, hx, rfl, rfl⟩, ih.mpr ?_⟩
            exact ⟨Nat.succ.inj hlength, (List.cons_prefix_cons.mp hpre).2,
              fun y hy => hall y (List.mem_cons_of_mem x hy)⟩

theorem mem_choices_at_least {n : Nat} {s t : List α} :
    t ∈ choices (Regex.seq (times (n + 1) (set p)) (star (set p))) s ↔
      n + 1 ≤ t.length ∧ t <+: s ∧ forall x, x ∈ t -> p x = true := by
  have hplain : (star (set p)).Plain := trivial
  rw [mem_choices_seq hplain]
  constructor
  · rintro ⟨u, v, rfl, hu, hv⟩
    obtain ⟨hlength, hpre, hall⟩ := mem_choices_times_set.mp hu
    obtain ⟨hpre', hall'⟩ := mem_choices_star_set.mp hv
    refine ⟨by simp [hlength], ?_, ?_⟩
    · obtain ⟨r, rfl⟩ := hpre
      rw [List.drop_left] at hpre'
      exact (List.prefix_append_right_inj u).mpr hpre'
    · intro x hx
      exact (List.mem_append.mp hx).elim (hall x) (hall' x)
  · rintro ⟨hlength, hpre, hall⟩
    refine ⟨t.take (n + 1), t.drop (n + 1), (List.take_append_drop _ t).symm, ?_, ?_⟩
    · refine mem_choices_times_set.mpr ⟨by simp [hlength], ?_, ?_⟩
      · exact (List.take_prefix _ t).trans hpre
      · intro x hx
        exact hall x (List.mem_of_mem_take hx)
    · refine mem_choices_star_set.mpr ⟨?_, fun x hx => hall x (List.mem_of_mem_drop hx)⟩
      rw [List.length_take, Nat.min_eq_left hlength]
      exact hpre.drop (n + 1)

theorem lengthens_at_least (n : Nat) :
    (Regex.seq (times (n + 1) (set p)) (star (set p))).Lengthens p := by
  intro x y s t hx _ ht
  obtain ⟨hlength, hpre, hall⟩ := mem_choices_at_least.mp ht
  refine mem_choices_at_least.mpr ⟨?_, List.cons_prefix_cons.mpr ⟨rfl, hpre⟩,
    List.forall_mem_cons.mpr ⟨hx, hall⟩⟩
  rw [List.length_cons]
  omega

/-- The second alternative cannot start with a symbol in `p`. -/
theorem Lengthens.alt (h : a.Lengthens p) (hnull : ¬ b.Nullable)
    (hfirst : forall x, b.First x -> p x = false) : (alt a b).Lengthens p := by
  intro x y s t hx hy ht
  rw [choices_alt, List.mem_append] at ht ⊢
  have hnone : choices b (y :: s) = [] := by
    apply noHit_iff_choices.mp
    apply noHit_of_not_first hnull
    intro hb
    rw [hfirst y hb] at hy
    cases hy
  rw [hnone] at ht
  cases ht with
  | inl ht => exact Or.inl (h x y s t hx hy ht)
  | inr ht => cases ht

theorem Lengthens.signed {c : α} (h : b.Lengthens p) (hc : p c = false) (hplain : b.Plain)
    (n : Nat) : (Regex.seq (Regex.group n (opt (chr c))) b).Lengthens p := by
  intro x y s t hx hy ht
  obtain ⟨u, v, rfl, hu, hv⟩ := (mem_choices_seq hplain).mp ht
  have hnil : u = [] := by
    rw [choices_group, choices_opt, chr, choices_set_cons] at hu
    have hne : y ≠ c := by
      intro hyc
      rw [hyc, hc] at hy
      cases hy
    rw [decide_eq_false hne] at hu
    exact List.mem_singleton.mp hu
  subst hnil
  refine (mem_choices_seq hplain).mpr ⟨[], x :: v, rfl, ?_, h x y s v hx hy hv⟩
  rw [choices_group, choices_opt]
  exact List.mem_append_right _ (List.mem_singleton.mpr rfl)

/-- A match that begins in `p` is not preceded by a symbol in `p`. -/
theorem Lengthens.search (h : a.Lengthens p) {s : List α} {m : Match α}
    (hm : a.search s = some m) {x y : α} {t : List α} (ht : m.text = y :: t)
    (hy : p y = true) (hx : m.pre.getLast? = some x) : p x = false := by
  cases hpx : p x with
  | false => rfl
  | true =>
      obtain ⟨hbefore, hprefers⟩ := search_spec hm
      obtain ⟨q, hq⟩ := List.getLast?_eq_some_iff.mp hx
      have hnone := noHit_iff_choices.mp (hbefore q [x] hq (List.cons_ne_nil x []))
      rw [ht, List.cons_append] at hprefers
      rw [ht, List.singleton_append, List.cons_append] at hnone
      have hmore := h x y _ _ hpx hy hprefers.mem
      rw [hnone] at hmore
      cases hmore

end Extent

/-!
## A run that another symbol closes
-/

section Closed

variable {p : α -> Bool} {a b : Regex α} {w v : List α} {x y : α}

/-- All that the expression takes is in `p`. -/
def Stays (p : α -> Bool) (r : Regex α) : Prop :=
  forall s t, t ∈ choices r s -> forall x, x ∈ t -> p x = true

/--
The symbols in `p` at the head of a match are a choice of the first part, and with
more of them in front they are none.
-/
theorem Stays.search (ha : a.Stays p) (hx : p x = false) (hb : b.Plain) {s : List α}
    {m : Match α} (h : (seq a (seq (chr x) b)).search s = some m)
    (hw : forall z, z ∈ w -> p z = true) (hy : p y = false) (htext : m.text = w ++ y :: v) :
    w ∈ choices a (w ++ (y :: v ++ m.post)) ∧
      forall q d, m.pre = q ++ d -> d ≠ [] ->
        d ++ w ∉ choices a (d ++ w ++ (y :: v ++ m.post)) := by
  have hplain : (seq (chr x) b).Plain := ⟨trivial, hb⟩
  have hsplit : m.text ++ m.post = w ++ (y :: v ++ m.post) := by
    rw [htext, List.append_assoc]
  obtain ⟨hbefore, hprefers⟩ := search_spec h
  obtain ⟨u, t, ht, hu, htail⟩ := (mem_choices_seq hplain).mp hprefers.mem
  obtain ⟨c, v', rfl, hc, -⟩ := (mem_choices_seq hb).mp htail
  obtain ⟨z, hz, rfl, -⟩ := mem_choices_set.mp hc
  have hzx : z = x := of_decide_eq_true hz
  rw [hzx, List.singleton_append] at ht htail
  obtain ⟨rfl, hrest⟩ := run_unique hw (ha _ _ hu) hy hx (htext.symm.trans ht)
  rw [hsplit] at hu htail hbefore
  refine ⟨hu, ?_⟩
  intro q d hq hd hmore
  have hnone := noHit_iff_choices.mp (hbefore q d hq hd)
  have htaken : (d ++ w) ++ x :: v' ∈ choices (seq a (seq (chr x) b))
      (d ++ (w ++ (y :: v ++ m.post))) := by
    refine (mem_choices_seq hplain).mpr ⟨d ++ w, x :: v', rfl, ?_, ?_⟩
    · rw [← List.append_assoc]
      exact hmore
    · rw [← List.append_assoc, List.drop_left]
      rwa [List.drop_left] at htail
  rw [hnone] at htaken
  cases htaken

end Closed

/-!
## Optional symbols at both ends
-/

omit [DecidableEq α] in
theorem head_flatMap {β : Type} {l : List α} {f : α -> List β} {y : β} {ys : List β}
    (h : l.flatMap f = y :: ys) : exists x zs, x ∈ l ∧ f x = y :: zs := by
  induction l with
  | nil => cases h
  | cons x l ih =>
      rw [List.flatMap_cons] at h
      cases hx : f x with
      | nil =>
          rw [hx, List.nil_append] at h
          rcases ih h with ⟨z, zs, hz, hfz⟩
          exact ⟨z, zs, List.mem_cons_of_mem x hz, hfz⟩
      | cons w ws =>
          rw [hx] at h
          injection h with hw _
          exact ⟨x, ws, List.mem_cons_self, by rw [hx, hw]⟩

/-- Behind the part for `a` the preferred hit goes on with the preferred one for `b`. -/
theorem run_seq_head {a b : Regex α} {pos : Nat} {s : List α} {caps : Captures α}
    {k : Hit α} {ks : List (Hit α)} (h : run (seq a b) pos s caps = k :: ks) :
    exists h1 h2 js, h1 ∈ run a pos s caps ∧
      run b (pos + h1.taken.length) h1.rest h1.caps = h2 :: js ∧ k = h1.append h2 := by
  rcases head_flatMap h with ⟨h1, zs, hh1, hmap⟩
  rcases List.map_eq_cons_iff.mp hmap with ⟨h2, js, hb, hk, -⟩
  exact ⟨h1, h2, js, hh1, hb, hk.symm⟩

/-- An optional symbol is taken when there is one. -/
theorem run_opt_head {p : α -> Bool} {n pos : Nat} {s : List α} {caps : Captures α}
    {k : Hit α} {ks : List (Hit α)}
    (h : run (opt (group n (set p))) pos s caps = k :: ks) :
    (exists x, p x = true ∧ k.taken = [x] ∧ k.caps = caps.record n ⟨pos, [x]⟩) ∨
      (k.taken = [] ∧ k.rest = s ∧ k.caps = caps ∧
        forall x, s.head? = some x -> p x = false) := by
  cases s with
  | nil =>
      cases h
      exact Or.inr ⟨rfl, rfl, rfl, fun _ hx => by cases hx⟩
  | cons x s =>
      cases hx : p x with
      | true =>
          left
          simp only [opt, run, hx, if_true, List.map_cons, List.map_nil,
            List.cons_append] at h
          injection h with hk _
          rw [← hk]
          exact ⟨x, hx, rfl, rfl⟩
      | false =>
          right
          simp only [opt, run, hx] at h
          cases h
          exact ⟨rfl, rfl, rfl, fun y hy => Option.some.inj hy ▸ hx⟩

/--
The groups `i` and `j` hold what a match has of the symbols in `p` around the text
that is looked for: nothing only where there is none.
-/
structure Margins (p : α -> Bool) (i j : Nat) (m : Match α) : Prop where
  left : (m.group i = [] ∧ forall x, m.pre.getLast? = some x -> p x = false) ∨
    exists x t, p x = true ∧ m.group i = [x] ∧ m.text = x :: t
  right : (m.group j = [] ∧ forall x, m.post.head? = some x -> p x = false) ∨
    exists x t, p x = true ∧ m.group j = [x] ∧ m.text = t ++ [x]

section Margins

variable {p : α -> Bool} {i j : Nat} {b : Regex α}

/-- What is looked for, with an optional symbol in front and one behind. -/
def withMargins (p : α -> Bool) (i j : Nat) (b : Regex α) : Regex α :=
  cat (opt (group i (set p))) [b, opt (group j (set p))]

/-- In front of what is looked for the optional symbol can be taken as well. -/
theorem choices_withMargins (hb : b.Plain) {x : α} (hx : p x = true) {s t : List α}
    (ht : t ∈ choices b s) : choices (withMargins p i j b) (x :: s) ≠ [] := by
  have hfirst : [x] ∈ choices (opt (group i (set p))) (x :: s) := by
    rw [choices_opt, choices_group, choices_set_cons, if_pos hx]
    exact List.mem_cons_self
  have hlast : [] ∈ choices (opt (group j (set p))) (s.drop t.length) := by
    rw [choices_opt]
    exact List.mem_append_right _ List.mem_cons_self
  have hopt : (opt (group j (set p))).Plain := ⟨trivial, trivial⟩
  have hplain : (seq b (opt (group j (set p)))).Plain := ⟨hb, hopt⟩
  have hrest : t ++ [] ∈ choices (seq b (opt (group j (set p)))) s :=
    (mem_choices_seq hopt).mpr ⟨t, [], rfl, ht, hlast⟩
  have hall : [x] ++ (t ++ []) ∈ choices (withMargins p i j b) (x :: s) :=
    (mem_choices_seq hplain).mpr ⟨[x], t ++ [], rfl, hfirst, hrest⟩
  exact List.ne_nil_of_mem hall

/-- The part that an optional symbol in front takes, and what its group holds then. -/
theorem run_opt_cases {pos : Nat} {s : List α} {caps : Captures α} {h : Hit α}
    (hh : h ∈ run (opt (group i (set p))) pos s caps) :
    (exists x, p x = true ∧ h.taken = [x] ∧ h.caps = caps.record i ⟨pos, [x]⟩) ∨
      h = ⟨[], s, caps⟩ := by
  rcases mem_run_alt.mp hh with hh | hh
  · rcases mem_run_group.mp hh with ⟨h1, hh1, rfl⟩
    rcases mem_run_set.mp hh1 with ⟨x, t, rfl, hx, rfl⟩
    exact Or.inl ⟨x, hx, rfl, rfl⟩
  · exact Or.inr (mem_run_eps.mp hh)

omit [DecidableEq α] in
theorem group_of_shift {m : Match α} {caps : Captures α} {d n : Nat}
    (h : m.caps = caps.shift d) :
    m.group (n + 1) = (caps.texts (n + 1)).getD [] := by
  rw [Match.group_eq_texts, h]
  simp only [Captures.texts, Captures.shift, Option.map_map]
  rfl

theorem margins_of_search (hb : b.Plain) (hij : i + 1 ≠ j + 1) (hi : i + 1 ∉ b.groups)
    (hj : j + 1 ∉ b.groups) {s : List α} {m : Match α}
    (h : (withMargins p (i + 1) (j + 1) b).search s = some m) :
    Margins p (i + 1) (j + 1) m := by
  obtain ⟨v, -, hbefore, k, ks, hrun, hk⟩ := search_eq_some.mp h
  obtain ⟨h1, h2, js, hh1, hrun2, rfl⟩ := run_seq_head hrun
  obtain ⟨g1, g2, js', hg1, hrun3, rfl⟩ := run_seq_head hrun2
  have htext : m.text = h1.taken ++ (g1.taken ++ g2.taken) := congrArg Hit.taken hk
  have hpost : m.post = g2.rest := congrArg Hit.rest hk
  have hgroup : forall n, m.group (n + 1) = (g2.caps.texts (n + 1)).getD [] := fun n =>
    group_of_shift (congrArg Hit.caps hk)
  have hlast := run_opt_head hrun3
  -- the core and the part behind it leave the group in front alone
  have hfront : g2.caps (i + 1) = h1.caps (i + 1) := by
    rw [← run_frame hi hg1]
    rcases hlast with ⟨x, -, -, hcaps⟩ | ⟨-, -, hcaps, -⟩
    · rw [hcaps, Captures.record_of_ne _ _ hij]
    · rw [hcaps]
  constructor
  · rcases run_opt_cases hh1 with ⟨x, hx, htaken, hcaps⟩ | rfl
    · right
      refine ⟨x, g1.taken ++ g2.taken, hx, ?_, ?_⟩
      · rw [hgroup, Captures.texts, hfront, hcaps, Captures.record_self]
        rfl
      · rw [htext, htaken]
        rfl
    · left
      refine ⟨?_, ?_⟩
      · rw [hgroup, Captures.texts, hfront]
        rfl
      · intro x hx
        cases hpx : p x with
        | false => rfl
        | true =>
            obtain ⟨q, hq⟩ := List.getLast?_eq_some_iff.mp hx
            have hnone := noHit_iff_choices.mp (hbefore q [x] hq (List.cons_ne_nil x []))
            exact absurd hnone (choices_withMargins hb hpx (mem_choices_of_run hb hg1))
  · rcases hlast with ⟨x, hx, htaken, hcaps⟩ | ⟨htaken, hrest, hcaps, hnext⟩
    · right
      refine ⟨x, h1.taken ++ g1.taken, hx, ?_, ?_⟩
      · rw [hgroup, Captures.texts, hcaps, Captures.record_self]
        rfl
      · rw [htext, htaken, List.append_assoc]
    · left
      have hnothing : h1.caps (j + 1) = none := by
        rcases run_opt_cases hh1 with ⟨x, -, -, hcaps1⟩ | rfl
        · rw [hcaps1, Captures.record_of_ne _ _ hij.symm]
          rfl
        · rfl
      refine ⟨?_, ?_⟩
      · rw [hgroup, Captures.texts, hcaps, run_frame hj hg1, hnothing]
        rfl
      · rw [hpost, hrest]
        exact hnext

end Margins

end Regex
end VoiceTts
