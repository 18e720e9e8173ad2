import VoiceTts.Lib.Regex

/-!
# Runs of a regular expression

What a run can take and capture, read off the shape of the expression: the text
taken splits the subject, its symbols come from the alphabet of the expression,
it starts with one of its first symbols, and only its own groups are recorded.
-/

namespace VoiceTts
namespace Regex

variable {α : Type} [DecidableEq α]

/-!
## Membership in a run
-/

section Equations

attribute [local simp] run

@[simp] theorem mem_run_eps {pos : Nat} {s : List α} {caps : Captures α}
    {h : Hit α} : h ∈ run eps pos s caps ↔ h = ⟨[], s, caps⟩ := by
  simp

end Equations

theorem mem_run_set {p : α -> Bool} {pos : Nat} {s : List α}
    {caps : Captures α} {h : Hit α} :
    h ∈ run (set p) pos s caps ↔
      exists x t, s = x :: t ∧ p x = true ∧ h = ⟨[x], t, caps⟩ := by
  cases s with
  | nil =>
      simp [run]
  | cons x t =>
      by_cases hx : p x = true
      · simp [run, hx]
      · simp [run, hx]

theorem mem_run_seq {a b : Regex α} {pos : Nat} {s : List α}
    {caps : Captures α} {h : Hit α} :
    h ∈ run (seq a b) pos s caps ↔
      exists h1, h1 ∈ run a pos s caps ∧
        exists h2, h2 ∈ run b (pos + h1.taken.length) h1.rest h1.caps ∧
          h = h1.append h2 := by
  simp only [run, List.mem_flatMap, List.mem_map, eq_comm]

theorem mem_run_alt {a b : Regex α} {pos : Nat} {s : List α}
    {caps : Captures α} {h : Hit α} :
    h ∈ run (alt a b) pos s caps ↔
      h ∈ run a pos s caps ∨ h ∈ run b pos s caps := by
  simp [run]

theorem mem_run_group {n : Nat} {a : Regex α} {pos : Nat} {s : List α}
    {caps : Captures α} {h : Hit α} :
    h ∈ run (group n a) pos s caps ↔
      exists h1, h1 ∈ run a pos s caps ∧
        h = { h1 with caps := h1.caps.record n ⟨pos, h1.taken⟩ } := by
  simp only [run, List.mem_map, eq_comm]

theorem mem_run_backref {n : Nat} {pos : Nat} {s : List α}
    {caps : Captures α} {h : Hit α} (hh : h ∈ run (backref n) pos s caps) :
    (caps n = none ∧ h = ⟨[], s, caps⟩) ∨
      exists c, caps n = some c ∧ c.text ++ h.rest = s ∧
        h = ⟨c.text, h.rest, caps⟩ := by
  cases hc : caps n with
  | none =>
      simp [run, hc] at hh
      exact Or.inl ⟨rfl, hh⟩
  | some c =>
      simp only [run, hc] at hh
      split at hh
      · rename_i hprefix
        rcases List.isPrefixOf_iff_prefix.mp hprefix with ⟨t, rfl⟩
        simp at hh
        subst hh
        exact Or.inr ⟨c, rfl, by simp, by simp⟩
      · cases hh

omit [DecidableEq α] in
/--
The rule for a repetition: a property of the empty repetition that one more
round at the front preserves.
-/
theorem starRun_induction {f : Nat -> List α -> Captures α -> List (Hit α)}
    {ns : List Nat} (P : Nat -> List α -> Captures α -> Hit α -> Prop)
    (hnil : forall pos s caps, P pos s caps ⟨[], s, caps⟩)
    (hcons : forall pos s caps h k,
      h ∈ f pos s (caps.clear ns) -> h.taken ≠ [] ->
        P (pos + h.taken.length) h.rest h.caps k ->
          P pos s caps (h.append k)) :
    forall fuel pos s caps h,
      h ∈ starRun f ns fuel pos s caps -> P pos s caps h := by
  intro fuel
  induction fuel with
  | zero =>
      intro pos s caps h hh
      simp only [starRun, List.mem_singleton] at hh
      rw [hh]
      exact hnil pos s caps
  | succ fuel ih =>
      intro pos s caps h hh
      simp only [starRun, List.mem_append, List.mem_flatMap, List.mem_map,
        List.mem_singleton, List.mem_filter] at hh
      rcases hh with ⟨h1, ⟨hmem, hne⟩, k, hk, rfl⟩ | rfl
      · exact hcons pos s caps h1 k hmem (by simpa using hne)
          (ih _ _ _ _ hk)
      · exact hnil pos s caps

/-!
## What a run takes
-/

theorem run_splits {r : Regex α} :
    forall {pos : Nat} {s : List α} {caps : Captures α} {h : Hit α},
      h ∈ run r pos s caps -> h.taken ++ h.rest = s := by
  induction r with
  | eps =>
      intro pos s caps h hh
      simp at hh
      simp [hh]
  | set p =>
      intro pos s caps h hh
      rcases mem_run_set.mp hh with ⟨x, t, rfl, _, rfl⟩
      rfl
  | seq a b iha ihb =>
      intro pos s caps h hh
      rcases mem_run_seq.mp hh with ⟨h1, hh1, h2, hh2, rfl⟩
      simp [List.append_assoc, ihb hh2, iha hh1]
  | alt a b iha ihb =>
      intro pos s caps h hh
      rcases mem_run_alt.mp hh with hh | hh
      · exact iha hh
      · exact ihb hh
  | star a ih =>
      intro pos s caps h hh
      exact starRun_induction (fun _ s _ h => h.taken ++ h.rest = s)
        (fun _ _ _ => rfl)
        (fun _ _ _ h k hh _ hk => by
          have hsplit := ih hh
          simp [List.append_assoc, hk, hsplit])
        _ _ _ _ _ hh
  | group n a ih =>
      intro pos s caps h hh
      rcases mem_run_group.mp hh with ⟨h1, hh1, rfl⟩
      have hsplit := ih hh1
      exact hsplit
  | backref n =>
      intro pos s caps h hh
      rcases mem_run_backref hh with ⟨_, rfl⟩ | ⟨c, _, hs, hh⟩
      · rfl
      · rw [hh]
        exact hs

/-- Every symbol the expression can take is in `A`. -/
def All (A : α -> Prop) : Regex α -> Prop
  | eps => True
  | set p => forall x, p x = true -> A x
  | seq a b => All A a ∧ All A b
  | alt a b => All A a ∧ All A b
  | star a => All A a
  | group _ a => All A a
  | backref _ => True

theorem run_all {A : α -> Prop} {r : Regex α} :
    r.All A ->
      forall {pos : Nat} {s : List α} {caps : Captures α} {h : Hit α},
        caps.Within A -> h ∈ run r pos s caps ->
          (forall x, x ∈ h.taken -> A x) ∧ h.caps.Within A := by
  induction r with
  | eps =>
      intro _ pos s caps h hcaps hh
      simp at hh
      subst hh
      exact ⟨by simp, hcaps⟩
  | set p =>
      intro hall pos s caps h hcaps hh
      rcases mem_run_set.mp hh with ⟨x, t, rfl, hx, rfl⟩
      exact ⟨by simpa using hall x hx, hcaps⟩
  | seq a b iha ihb =>
      intro hall pos s caps h hcaps hh
      rcases mem_run_seq.mp hh with ⟨h1, hh1, h2, hh2, rfl⟩
      rcases iha hall.1 hcaps hh1 with ⟨htaken1, hcaps1⟩
      rcases ihb hall.2 hcaps1 hh2 with ⟨htaken2, hcaps2⟩
      refine ⟨?_, hcaps2⟩
      intro x hx
      rcases List.mem_append.mp hx with hx | hx
      · exact htaken1 x hx
      · exact htaken2 x hx
  | alt a b iha ihb =>
      intro hall pos s caps h hcaps hh
      rcases mem_run_alt.mp hh with hh | hh
      · exact iha hall.1 hcaps hh
      · exact ihb hall.2 hcaps hh
  | star a ih =>
      intro hall pos s caps h hcaps hh
      refine starRun_induction
        (fun _ _ caps h => caps.Within A ->
          (forall x, x ∈ h.taken -> A x) ∧ h.caps.Within A)
        ?_ ?_ _ _ _ _ _ hh hcaps
      · intro pos s caps hcaps
        exact ⟨by simp, hcaps⟩
      · intro pos s caps h k hh _ hk hcaps
        rcases ih hall (hcaps.clear (groups a)) hh with ⟨htaken1, hcaps1⟩
        rcases hk hcaps1 with ⟨htaken2, hcaps2⟩
        refine ⟨?_, hcaps2⟩
        intro x hx
        rcases List.mem_append.mp hx with hx | hx
        · exact htaken1 x hx
        · exact htaken2 x hx
  | group n a ih =>
      intro hall pos s caps h hcaps hh
      rcases mem_run_group.mp hh with ⟨h1, hh1, rfl⟩
      rcases ih hall hcaps hh1 with ⟨htaken, hcaps1⟩
      exact ⟨htaken, hcaps1.record htaken⟩
  | backref n =>
      intro _ pos s caps h hcaps hh
      rcases mem_run_backref hh with ⟨_, rfl⟩ | ⟨c, hc, _, hh⟩
      · exact ⟨by simp, hcaps⟩
      · rw [hh]
        exact ⟨hcaps n c hc, hcaps⟩

theorem all_word {A : α -> Prop} {w : List α} (h : forall x, x ∈ w -> A x) :
    (word w).All A := by
  have hchr : forall x, A x -> (chr x).All A := by
    intro x hx y hy
    rw [of_decide_eq_true hy]
    exact hx
  induction w using word.induct with
  | case1 =>
      trivial
  | case2 x =>
      exact hchr x (h x (by simp))
  | case3 x y w ih =>
      exact ⟨hchr x (h x (by simp)),
        ih fun z hz => h z (List.mem_cons_of_mem x hz)⟩

omit [DecidableEq α] in
theorem all_times {A : α -> Prop} {a : Regex α} (h : a.All A) (n : Nat) :
    (times n a).All A := by
  induction n with
  | zero =>
      trivial
  | succ n ih =>
      cases n with
      | zero =>
          exact h
      | succ n =>
          exact ⟨h, ih⟩

/-- Every match takes a symbol in `P`. -/
def Must (P : α -> Prop) : Regex α -> Prop
  | eps => False
  | set p => forall x, p x = true -> P x
  | seq a b => Must P a ∨ Must P b
  | alt a b => Must P a ∧ Must P b
  | star _ => False
  | group _ a => Must P a
  | backref _ => False

theorem run_must {P : α -> Prop} {r : Regex α} :
    r.Must P ->
      forall {pos : Nat} {s : List α} {caps : Captures α} {h : Hit α},
        h ∈ run r pos s caps -> exists x, x ∈ h.taken ∧ P x := by
  induction r with
  | eps =>
      intro hmust
      cases hmust
  | set p =>
      intro hmust pos s caps h hh
      rcases mem_run_set.mp hh with ⟨x, t, rfl, hx, rfl⟩
      exact ⟨x, by simp, hmust x hx⟩
  | seq a b iha ihb =>
      intro hmust pos s caps h hh
      rcases mem_run_seq.mp hh with ⟨h1, hh1, h2, hh2, rfl⟩
      rcases hmust with hmust | hmust
      · rcases iha hmust hh1 with ⟨x, hx, hP⟩
        exact ⟨x, List.mem_append_left _ hx, hP⟩
      · rcases ihb hmust hh2 with ⟨x, hx, hP⟩
        exact ⟨x, List.mem_append_right _ hx, hP⟩
  | alt a b iha ihb =>
      intro hmust pos s caps h hh
      rcases mem_run_alt.mp hh with hh | hh
      · exact iha hmust.1 hh
      · exact ihb hmust.2 hh
  | star a ih =>
      intro hmust
      cases hmust
  | group n a ih =>
      intro hmust pos s caps h hh
      rcases mem_run_group.mp hh with ⟨h1, hh1, rfl⟩
      have htaken := ih hmust hh1
      exact htaken
  | backref n =>
      intro hmust
      cases hmust

def Nullable : Regex α -> Prop
  | eps => True
  | set _ => False
  | seq a b => Nullable a ∧ Nullable b
  | alt a b => Nullable a ∨ Nullable b
  | star _ => True
  | group _ a => Nullable a
  | backref _ => True

omit [DecidableEq α] in
theorem Must.not_nullable {P : α -> Prop} {r : Regex α} :
    r.Must P -> ¬ r.Nullable := by
  induction r with
  | eps =>
      intro hmust
      cases hmust
  | set p =>
      intro _ hnull
      exact hnull
  | seq a b iha ihb =>
      intro hmust hnull
      rcases hmust with hmust | hmust
      · exact iha hmust hnull.1
      · exact ihb hmust hnull.2
  | alt a b iha ihb =>
      intro hmust hnull
      rcases hnull with hnull | hnull
      · exact iha hmust.1 hnull
      · exact ihb hmust.2 hnull
  | star a ih =>
      intro hmust
      cases hmust
  | group n a ih =>
      intro hmust hnull
      exact ih hmust hnull
  | backref n =>
      intro hmust
      cases hmust

/-- The symbols a nonempty match can start with. -/
def First : Regex α -> α -> Prop
  | eps, _ => False
  | set p, x => p x = true
  | seq a b, x => First a x ∨ (Nullable a ∧ First b x)
  | alt a b, x => First a x ∨ First b x
  | star a, x => First a x
  | group _ a, x => First a x
  | backref _, _ => True

theorem run_first {r : Regex α} :
    forall {pos : Nat} {s : List α} {caps : Captures α} {h : Hit α},
      h ∈ run r pos s caps ->
        (h.taken = [] -> r.Nullable) ∧
          forall x t, h.taken = x :: t -> r.First x := by
  induction r with
  | eps =>
      intro pos s caps h hh
      simp at hh
      subst hh
      refine ⟨fun _ => trivial, ?_⟩
      intro x t heq
      cases heq
  | set p =>
      intro pos s caps h hh
      rcases mem_run_set.mp hh with ⟨x, t, rfl, hx, rfl⟩
      constructor
      · intro heq
        cases heq
      · intro y u heq
        cases heq
        exact hx
  | seq a b iha ihb =>
      intro pos s caps h hh
      rcases mem_run_seq.mp hh with ⟨h1, hh1, h2, hh2, rfl⟩
      have ha := iha hh1
      have hb := ihb hh2
      refine ⟨?_, ?_⟩
      · intro heq
        rcases List.append_eq_nil_iff.mp heq with ⟨h1nil, h2nil⟩
        exact ⟨ha.1 h1nil, hb.1 h2nil⟩
      · intro x t heq
        cases htaken : h1.taken with
        | nil =>
            rw [Hit.append_taken, htaken, List.nil_append] at heq
            exact Or.inr ⟨ha.1 htaken, hb.2 x t heq⟩
        | cons y u =>
            rw [Hit.append_taken, htaken, List.cons_append] at heq
            injection heq with hyx _
            subst hyx
            exact Or.inl (ha.2 y u htaken)
  | alt a b iha ihb =>
      intro pos s caps h hh
      rcases mem_run_alt.mp hh with hh | hh
      · exact ⟨fun heq => Or.inl ((iha hh).1 heq),
          fun x t heq => Or.inl ((iha hh).2 x t heq)⟩
      · exact ⟨fun heq => Or.inr ((ihb hh).1 heq),
          fun x t heq => Or.inr ((ihb hh).2 x t heq)⟩
  | star a ih =>
      intro pos s caps h hh
      refine ⟨fun _ => trivial, ?_⟩
      refine starRun_induction
        (fun _ _ _ h => forall x t, h.taken = x :: t -> First a x)
        ?_ ?_ _ _ _ _ _ hh
      · intro pos s caps x t heq
        cases heq
      · intro pos s caps h k hh hne _ x t heq
        cases htaken : h.taken with
        | nil =>
            exact absurd htaken hne
        | cons y u =>
            rw [Hit.append_taken, htaken, List.cons_append] at heq
            injection heq with hyx _
            subst hyx
            exact (ih hh).2 y u htaken
  | group n a ih =>
      intro pos s caps h hh
      rcases mem_run_group.mp hh with ⟨h1, hh1, rfl⟩
      have hfirst := ih hh1
      exact hfirst
  | backref n =>
      intro pos s caps h hh
      exact ⟨fun _ => trivial, fun _ _ _ => trivial⟩

omit [DecidableEq α] in
theorem groups_group (n : Nat) (a : Regex α) :
    (group n a).groups = n :: a.groups := by
  rw [groups]

@[simp] theorem groups_word (w : List α) : (word w).groups = [] := by
  induction w using word.induct with
  | case1 => rfl
  | case2 x => rfl
  | case3 x y w ih => exact ih

omit [DecidableEq α] in
@[simp] theorem groups_anyOf (a : Regex α) (rest : List (Regex α)) :
    (anyOf a rest).groups = a.groups ++ rest.flatMap groups := by
  induction rest generalizing a with
  | nil => simp [anyOf]
  | cons b rest ih => simp [anyOf, groups, ih]

/-- A group outside the expression keeps its capture. -/
theorem run_frame {r : Regex α} {k : Nat} :
    k ∉ r.groups ->
      forall {pos : Nat} {s : List α} {caps : Captures α} {h : Hit α},
        h ∈ run r pos s caps -> h.caps k = caps k := by
  induction r with
  | eps =>
      intro _ pos s caps h hh
      simp at hh
      rw [hh]
  | set p =>
      intro _ pos s caps h hh
      rcases mem_run_set.mp hh with ⟨x, t, rfl, hx, rfl⟩
      rfl
  | seq a b iha ihb =>
      intro hk pos s caps h hh
      simp only [groups, List.mem_append, not_or] at hk
      rcases mem_run_seq.mp hh with ⟨h1, hh1, h2, hh2, rfl⟩
      rw [Hit.append_caps, ihb hk.2 hh2, iha hk.1 hh1]
  | alt a b iha ihb =>
      intro hk pos s caps h hh
      simp only [groups, List.mem_append, not_or] at hk
      rcases mem_run_alt.mp hh with hh | hh
      · exact iha hk.1 hh
      · exact ihb hk.2 hh
  | star a ih =>
      intro hk pos s caps h hh
      refine starRun_induction (fun _ _ caps h => h.caps k = caps k)
        (fun _ _ _ => rfl) ?_ _ _ _ _ _ hh
      intro pos s caps h j hh _ hj
      have hclear : caps.clear (groups a) k = caps k :=
        Captures.clear_of_notMem _ hk
      rw [Hit.append_caps, hj, ih hk hh, hclear]
  | group n a ih =>
      intro hk pos s caps h hh
      simp only [groups, List.mem_cons, not_or] at hk
      rcases mem_run_group.mp hh with ⟨h1, hh1, rfl⟩
      change h1.caps.record n ⟨pos, h1.taken⟩ k = caps k
      rw [Captures.record_of_ne _ _ hk.1, ih hk.2 hh1]
  | backref n =>
      intro _ pos s caps h hh
      rcases mem_run_backref hh with ⟨_, rfl⟩ | ⟨c, hc, _, hh⟩
      · rfl
      · rw [hh]

/-!
## What a run can take
-/

/-- In front of `s` the expression can take `t`, whatever was captured before. -/
def Takes (r : Regex α) (t s : List α) : Prop :=
  forall pos caps, exists caps', (⟨t, s, caps'⟩ : Hit α) ∈ run r pos (t ++ s) caps

theorem takes_set {p : α -> Bool} {x : α} (h : p x = true) (s : List α) :
    (set p).Takes [x] s := by
  intro pos caps
  exact ⟨caps, mem_run_set.mpr ⟨x, s, rfl, h, rfl⟩⟩

theorem Takes.seq {a b : Regex α} {t u s : List α} (ha : a.Takes t (u ++ s))
    (hb : b.Takes u s) : (seq a b).Takes (t ++ u) s := by
  intro pos caps
  rcases ha pos caps with ⟨caps1, h1⟩
  rcases hb (pos + t.length) caps1 with ⟨caps2, h2⟩
  refine ⟨caps2, mem_run_seq.mpr ⟨⟨t, u ++ s, caps1⟩, ?_, ⟨u, s, caps2⟩, h2, rfl⟩⟩
  rw [List.append_assoc]
  exact h1

theorem Takes.left {a : Regex α} {t s : List α} (h : a.Takes t s) (b : Regex α) :
    (alt a b).Takes t s := by
  intro pos caps
  rcases h pos caps with ⟨caps', hmem⟩
  exact ⟨caps', mem_run_alt.mpr (Or.inl hmem)⟩

theorem takes_opt (a : Regex α) (s : List α) : a.opt.Takes [] s := by
  intro pos caps
  exact ⟨caps, mem_run_alt.mpr (Or.inr (mem_run_eps.mpr rfl))⟩

theorem takes_star (a : Regex α) (s : List α) : (star a).Takes [] s := by
  intro pos caps
  refine ⟨caps, ?_⟩
  rw [List.nil_append, run]
  cases s.length <;> simp [starRun]

theorem takes_times_set {p : α -> Bool} :
    forall {t : List α}, (forall x, x ∈ t -> p x = true) -> forall s : List α,
      (times t.length (set p)).Takes t s := by
  intro t
  induction t with
  | nil =>
      intro _ s pos caps
      exact ⟨caps, mem_run_eps.mpr rfl⟩
  | cons x t ih =>
      intro h s
      have hx : (set p).Takes [x] (t ++ s) := takes_set (h x List.mem_cons_self) _
      cases t with
      | nil =>
          exact hx
      | cons y t =>
          exact hx.seq (ih (fun z hz => h z (List.mem_cons_of_mem x hz)) s)

theorem Takes.group {a : Regex α} {t s : List α} (h : a.Takes t s) (n : Nat) :
    (group n a).Takes t s := by
  intro pos caps
  rcases h pos caps with ⟨caps', hmem⟩
  exact ⟨caps'.record n ⟨pos, t⟩, mem_run_group.mpr ⟨_, hmem, rfl⟩⟩

end Regex
end VoiceTts
