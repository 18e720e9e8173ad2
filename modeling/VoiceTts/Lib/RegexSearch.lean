import VoiceTts.Lib.RegexRuns

/-!
# Searching a subject

Where a search finds its match, and how it behaves when the subject is changed
around the match.  A run does not look past a symbol outside the alphabet of
the expression, so such a symbol cuts a search in two.
-/

namespace VoiceTts
namespace Regex

variable {α : Type} [DecidableEq α]

/-!
## Moving a run to another position
-/

omit [DecidableEq α] in
theorem starRun_shift {f : Nat -> List α -> Captures α -> List (Hit α)}
    {ns : List Nat} {d : Nat}
    (hf : forall pos s caps,
      f (pos + d) s (caps.shift d) = (f pos s caps).map fun h => h.shift d) :
    forall fuel pos s caps,
      starRun f ns fuel (pos + d) s (caps.shift d) =
        (starRun f ns fuel pos s caps).map fun h => h.shift d := by
  intro fuel
  induction fuel with
  | zero =>
      intro pos s caps
      rfl
  | succ fuel ih =>
      intro pos s caps
      simp only [starRun, ← Captures.shift_clear, hf, List.map_append,
        List.map_flatMap, List.filter_map, List.flatMap_map, List.map_map]
      congr 1
      apply List.flatMap_congr
      intro h _
      have hpos : pos + d + h.taken.length = pos + h.taken.length + d := by
        omega
      simp only [Hit.shift_taken, Hit.shift_rest, Hit.shift_caps, hpos, ih,
        List.map_map]
      rfl

theorem run_shift (r : Regex α) (d : Nat) :
    forall pos s caps,
      run r (pos + d) s (caps.shift d) =
        (run r pos s caps).map fun h => h.shift d := by
  induction r with
  | eps =>
      intro pos s caps
      rfl
  | set p =>
      intro pos s caps
      cases s with
      | nil => rfl
      | cons x t =>
          by_cases hx : p x = true
          · simp [run, hx, Hit.shift]
          · simp [run, hx]
  | seq a b iha ihb =>
      intro pos s caps
      simp only [run, iha, List.flatMap_map, List.map_flatMap]
      apply List.flatMap_congr
      intro h _
      have hpos : pos + d + h.taken.length = pos + h.taken.length + d := by
        omega
      simp only [Hit.shift_taken, Hit.shift_rest, Hit.shift_caps, hpos, ihb,
        List.map_map]
      rfl
  | alt a b iha ihb =>
      intro pos s caps
      simp only [run, iha, ihb, List.map_append]
  | star a ih =>
      intro pos s caps
      exact starRun_shift ih _ pos s caps
  | group n a ih =>
      intro pos s caps
      simp only [run, ih, List.map_map]
      apply List.map_congr_left
      intro h _
      simp only [Function.comp, Hit.shift, Captures.shift_record]
  | backref n =>
      intro pos s caps
      cases hc : caps n with
      | none =>
          simp [run, Captures.shift, hc, Hit.shift]
      | some c =>
          simp only [run, Captures.shift, hc, Option.map_some]
          split
          · simp [Hit.shift]
          · rfl

theorem run_at (r : Regex α) (pos : Nat) (s : List α) :
    run r pos s Captures.none =
      (run r 0 s Captures.none).map fun h => h.shift pos := by
  have h := run_shift r pos 0 s Captures.none
  rwa [Nat.zero_add, Captures.shift_none] at h

theorem run_eq_nil_at {r : Regex α} (pos : Nat) {s : List α} :
    run r pos s Captures.none = [] ↔ run r 0 s Captures.none = [] := by
  rw [run_at, List.map_eq_nil_iff]

/-!
## Cutting a run at a symbol outside the alphabet
-/

omit [DecidableEq α] in
theorem starRun_fuel {f : Nat -> List α -> Captures α -> List (Hit α)}
    (ns : List Nat)
    (hf : forall pos s caps h, h ∈ f pos s caps -> h.taken ++ h.rest = s) :
    forall fuel fuel' pos s caps,
      s.length ≤ fuel -> s.length ≤ fuel' ->
        starRun f ns fuel pos s caps = starRun f ns fuel' pos s caps := by
  have hnil : forall (pos : Nat) (caps : Captures α),
      (f pos [] (caps.clear ns)).filter (fun h => !h.taken.isEmpty) = [] := by
    intro pos caps
    rw [List.filter_eq_nil_iff]
    intro h hh
    have hsplit := hf _ _ _ _ hh
    simp [(List.append_eq_nil_iff.mp hsplit).1]
  intro fuel
  induction fuel with
  | zero =>
      intro fuel' pos s caps hs _
      have hs' : s = [] := List.length_eq_zero_iff.mp (Nat.le_zero.mp hs)
      subst hs'
      cases fuel' with
      | zero => rfl
      | succ fuel' => simp [starRun, hnil]
  | succ fuel ih =>
      intro fuel' pos s caps hs hs'
      cases fuel' with
      | zero =>
          have hsnil : s = [] := List.length_eq_zero_iff.mp (Nat.le_zero.mp hs')
          subst hsnil
          simp [starRun, hnil]
      | succ fuel' =>
          simp only [starRun]
          congr 1
          apply List.flatMap_congr
          intro h hh
          rcases List.mem_filter.mp hh with ⟨hmem, hne⟩
          have hsplit := congrArg List.length (hf _ _ _ _ hmem)
          have hpos : h.taken.length ≠ 0 := by
            simpa using hne
          rw [List.length_append] at hsplit
          rw [ih fuel' _ _ _ (by omega) (by omega)]

omit [DecidableEq α] in
theorem starRun_cut {f : Nat -> List α -> Captures α -> List (Hit α)}
    {ns : List Nat} {A : α -> Prop} {x : α} {t : List α}
    (hall : forall pos s caps h, caps.Within A -> h ∈ f pos s caps ->
      h.caps.Within A)
    (hcut : forall pos s caps, caps.Within A ->
      f pos (s ++ x :: t) caps = (f pos s caps).map fun h => h.extend (x :: t)) :
    forall fuel pos s caps, caps.Within A ->
      starRun f ns fuel pos (s ++ x :: t) caps =
        (starRun f ns fuel pos s caps).map fun h => h.extend (x :: t) := by
  intro fuel
  induction fuel with
  | zero =>
      intro pos s caps _
      rfl
  | succ fuel ih =>
      intro pos s caps hcaps
      have hclear := hcaps.clear ns
      simp only [starRun, hcut pos s _ hclear, List.map_append,
        List.map_flatMap, List.filter_map, List.flatMap_map, List.map_map]
      congr 1
      apply List.flatMap_congr
      intro h hh
      have hmem := (List.mem_filter.mp hh).1
      simp only [Hit.extend_taken, Hit.extend_rest, Hit.extend_caps,
        ih _ _ _ (hall _ _ _ _ hclear hmem), List.map_map]
      rfl

theorem isPrefixOf_append_cons {A : α -> Prop} {u s t : List α} {x : α}
    (hu : forall y, y ∈ u -> A y) (hx : ¬ A x) :
    u.isPrefixOf (s ++ x :: t) = u.isPrefixOf s := by
  induction u generalizing s with
  | nil =>
      simp
  | cons y u ih =>
      cases s with
      | nil =>
          have hyx : y ≠ x := by
            intro heq
            exact hx (heq ▸ hu y (by simp))
          simp [List.isPrefixOf, hyx]
      | cons z s =>
          simp only [List.cons_append, List.isPrefixOf]
          rw [ih (fun w hw => hu w (List.mem_cons_of_mem _ hw))]

theorem run_cut {A : α -> Prop} {r : Regex α} (hr : r.All A) {x : α}
    (hx : ¬ A x) (t : List α) :
    forall pos s caps, caps.Within A ->
      run r pos (s ++ x :: t) caps =
        (run r pos s caps).map fun h => h.extend (x :: t) := by
  induction r with
  | eps =>
      intro pos s caps _
      rfl
  | set p =>
      intro pos s caps _
      cases s with
      | nil =>
          have hpx : ¬ p x = true := fun h => hx (hr x h)
          simp [run, hpx]
      | cons y s =>
          by_cases hy : p y = true
          · simp [run, hy, Hit.extend]
          · simp [run, hy]
  | seq a b iha ihb =>
      intro pos s caps hcaps
      simp only [run, iha hr.1 pos s caps hcaps, List.flatMap_map,
        List.map_flatMap]
      apply List.flatMap_congr
      intro h hh
      simp only [Hit.extend_taken, Hit.extend_rest, Hit.extend_caps,
        ihb hr.2 _ _ _ (run_all hr.1 hcaps hh).2, List.map_map]
      rfl
  | alt a b iha ihb =>
      intro pos s caps hcaps
      simp only [run, iha hr.1 _ _ _ hcaps, ihb hr.2 _ _ _ hcaps,
        List.map_append]
  | star a ih =>
      intro pos s caps hcaps
      have hsplits : forall (pos : Nat) (s : List α) (caps : Captures α) h,
          h ∈ run a pos s caps -> h.taken ++ h.rest = s :=
        fun _ _ _ _ hh => run_splits hh
      have hfuel := starRun_fuel (groups a) hsplits s.length
        (s ++ x :: t).length pos s caps (Nat.le_refl _) (by simp)
      simp only [run]
      rw [hfuel]
      have ha : a.All A := hr
      exact starRun_cut (fun _ _ _ _ hcaps hh => (run_all ha hcaps hh).2)
        (fun pos s caps hcaps => ih hr pos s caps hcaps) _ _ _ _ hcaps
  | group n a ih =>
      intro pos s caps hcaps
      simp only [run, ih hr pos s caps hcaps, List.map_map]
      apply List.map_congr_left
      intro h _
      rfl
  | backref n =>
      intro pos s caps hcaps
      cases hc : caps n with
      | none =>
          simp [run, hc, Hit.extend]
      | some c =>
          have hprefix :=
            isPrefixOf_append_cons (s := s) (t := t) (hcaps n c hc) hx
          simp only [run, hc, hprefix]
          split
          · rename_i hpre
            rcases List.isPrefixOf_iff_prefix.mp hpre with ⟨u, rfl⟩
            simp [Hit.extend]
          · rfl

/-!
## Where a search finds its match
-/

/-- No match starts at the head of `s`. -/
def NoHit (r : Regex α) (s : List α) : Prop :=
  run r 0 s Captures.none = []

/-- No match starts at a position of `s` that the part `u` in front covers. -/
def NoHitBefore (r : Regex α) (u v : List α) : Prop :=
  forall p q, u = p ++ q -> q ≠ [] -> NoHit r (q ++ v)

def Free (r : Regex α) (s : List α) : Prop :=
  forall p q, s = p ++ q -> NoHit r q

theorem noHitBefore_nil (r : Regex α) (v : List α) : NoHitBefore r [] v := by
  intro p q heq hq
  exact absurd (List.append_eq_nil_iff.mp heq.symm).2 hq

theorem noHitBefore_cons {r : Regex α} {x : α} {u v : List α} :
    NoHitBefore r (x :: u) v ↔ NoHit r (x :: u ++ v) ∧ NoHitBefore r u v := by
  constructor
  · intro h
    refine ⟨h [] (x :: u) rfl (by simp), ?_⟩
    intro p q heq hq
    exact h (x :: p) q (by rw [heq]; rfl) hq
  · rintro ⟨hx, hu⟩ p q heq hq
    cases p with
    | nil =>
        rw [List.nil_append] at heq
        rw [← heq]
        exact hx
    | cons y p =>
        injection heq with _ heq
        exact hu p q heq hq

theorem free_cons {r : Regex α} {x : α} {s : List α} :
    Free r (x :: s) ↔ NoHit r (x :: s) ∧ Free r s := by
  constructor
  · intro h
    exact ⟨h [] _ rfl, fun p q heq => h (x :: p) q (by rw [heq]; rfl)⟩
  · rintro ⟨hx, hs⟩ p q heq
    cases p with
    | nil =>
        rw [List.nil_append] at heq
        rw [← heq]
        exact hx
    | cons y p =>
        injection heq with _ heq
        exact hs p q heq

theorem searchFrom_eq_none {r : Regex α} {s : List α} :
    forall {pre : List α}, searchFrom r pre s = none ↔ Free r s := by
  induction s with
  | nil =>
      intro pre
      have hfree : Free r [] ↔ NoHit r [] := by
        constructor
        · intro h
          exact h [] [] rfl
        · intro h p q heq
          rw [(List.append_eq_nil_iff.mp heq.symm).2]
          exact h
      rw [hfree, NoHit, ← run_eq_nil_at pre.length]
      cases hrun : run r pre.length [] Captures.none <;>
        simp [searchFrom, hrun]
  | cons x s ih =>
      intro pre
      rw [free_cons, NoHit, ← run_eq_nil_at pre.length]
      cases hrun : run r pre.length (x :: s) Captures.none with
      | nil =>
          simp [searchFrom, hrun, ih]
      | cons h hs =>
          simp [searchFrom, hrun]

theorem search_eq_none {r : Regex α} {s : List α} :
    search r s = none ↔ Free r s :=
  searchFrom_eq_none

theorem Takes.search_ne_none {r : Regex α} {t v : List α} (h : r.Takes t v) (u : List α) :
    r.search (u ++ (t ++ v)) ≠ none := by
  intro hnone
  have hfree : NoHit r (t ++ v) := search_eq_none.mp hnone u (t ++ v) rfl
  rcases h 0 Captures.none with ⟨caps, hmem⟩
  rw [hfree] at hmem
  cases hmem

/-- The first hit at the head of `s`, shifted to the position `pos`. -/
def FirstHit (r : Regex α) (pos : Nat) (s : List α) (h : Hit α) : Prop :=
  exists k ks, run r 0 s Captures.none = k :: ks ∧ h = k.shift pos

theorem searchFrom_eq_some {r : Regex α} {s : List α} {m : Match α} :
    forall {pre : List α},
      searchFrom r pre s = some m ↔
        exists u v, s = u ++ v ∧ NoHitBefore r u v ∧ m.pre = pre ++ u ∧
          FirstHit r m.pre.length v ⟨m.text, m.post, m.caps⟩ := by
  induction s with
  | nil =>
      intro pre
      cases hrun : run r 0 [] Captures.none with
      | nil =>
          simp only [searchFrom, run_at r pre.length, hrun, List.map_nil]
          constructor
          · intro h
            cases h
          · rintro ⟨u, v, heq, _, _, k, ks, hk, _⟩
            rw [(List.append_eq_nil_iff.mp heq.symm).2, hrun] at hk
            cases hk
      | cons k ks =>
          simp only [searchFrom, run_at r pre.length, hrun, List.map_cons]
          constructor
          · intro h
            injection h with h
            subst h
            exact ⟨[], [], rfl, noHitBefore_nil r [], by simp, k, ks, hrun, rfl⟩
          · rintro ⟨u, v, heq, _, hpre, k', ks', hk', hm⟩
            rcases List.append_eq_nil_iff.mp heq.symm with ⟨rfl, rfl⟩
            rw [hrun] at hk'
            injection hk' with hkk _
            subst hkk
            rw [List.append_nil] at hpre
            rw [← hpre, ← hm]
  | cons x s ih =>
      intro pre
      cases hrun : run r 0 (x :: s) Captures.none with
      | nil =>
          simp only [searchFrom, run_at r pre.length, hrun, List.map_nil, ih]
          constructor
          · rintro ⟨u, v, heq, hno, hpre, hhit⟩
            subst heq
            exact ⟨x :: u, v, rfl, noHitBefore_cons.mpr ⟨hrun, hno⟩,
              by simp [hpre], hhit⟩
          · rintro ⟨u, v, heq, hno, hpre, k, ks, hk, hm⟩
            cases u with
            | nil =>
                rw [List.nil_append] at heq
                rw [← heq, hrun] at hk
                cases hk
            | cons y u =>
                injection heq with hxy heq
                subst hxy
                exact ⟨u, v, heq, (noHitBefore_cons.mp hno).2, by simp [hpre],
                  k, ks, hk, hm⟩
      | cons k ks =>
          simp only [searchFrom, run_at r pre.length, hrun, List.map_cons]
          constructor
          · intro h
            injection h with h
            subst h
            exact ⟨[], x :: s, rfl, noHitBefore_nil r _, by simp, k, ks, hrun,
              rfl⟩
          · rintro ⟨u, v, heq, hno, hpre, k', ks', hk', hm⟩
            cases u with
            | nil =>
                rw [List.nil_append] at heq
                rw [← heq, hrun] at hk'
                injection hk' with hkk _
                subst hkk
                rw [List.append_nil] at hpre
                rw [← hpre, ← hm]
            | cons y u =>
                have hnil := (noHitBefore_cons.mp hno).1
                rw [← heq, NoHit, hrun] at hnil
                cases hnil

theorem search_eq_some {r : Regex α} {s : List α} {m : Match α} :
    search r s = some m ↔
      exists v, s = m.pre ++ v ∧ NoHitBefore r m.pre v ∧
        FirstHit r m.pre.length v ⟨m.text, m.post, m.caps⟩ := by
  rw [search, searchFrom_eq_some]
  constructor
  · rintro ⟨u, v, heq, hno, hpre, hhit⟩
    rw [List.nil_append] at hpre
    subst hpre
    exact ⟨v, heq, hno, hhit⟩
  · rintro ⟨v, heq, hno, hhit⟩
    exact ⟨m.pre, v, heq, hno, rfl, hhit⟩

/-!
## Searching for one symbol
-/

theorem noHit_set_cons {p : α -> Bool} {x : α} {t : List α} :
    NoHit (set p) (x :: t) ↔ p x = false := by
  cases hx : p x with
  | true => simp [NoHit, run, hx]
  | false => simp [NoHit, run, hx]

theorem noHitBefore_set {p : α -> Bool} {u v : List α} :
    NoHitBefore (set p) u v ↔ forall x, x ∈ u -> p x = false := by
  induction u with
  | nil =>
      constructor
      · intro _ x hx
        cases hx
      · intro _
        exact noHitBefore_nil _ v
  | cons y u ih =>
      rw [noHitBefore_cons, ih, List.cons_append, noHit_set_cons, List.forall_mem_cons]

theorem search_set_eq_none {p : α -> Bool} {s : List α} :
    (set p).search s = none ↔ forall x, x ∈ s -> p x = false := by
  rw [search_eq_none]
  induction s with
  | nil =>
      constructor
      · intro _ x hx
        cases hx
      · intro _ u v huv
        have hv : v = [] := (List.append_eq_nil_iff.mp huv.symm).2
        rw [hv]
        rfl
  | cons y s ih =>
      rw [free_cons, ih, noHit_set_cons, List.forall_mem_cons]

/-- The symbols in front of the first one that is found are others. -/
theorem search_set_eq_some {p : α -> Bool} {s : List α} {m : Match α}
    (h : (set p).search s = some m) :
    exists x, p x = true ∧ m.text = [x] ∧ s = m.pre ++ x :: m.post ∧
      forall y, y ∈ m.pre -> p y = false := by
  obtain ⟨v, hs, hbefore, k, ks, hrun, hk⟩ := search_eq_some.mp h
  have hmem : k ∈ run (set p) 0 v Captures.none := by
    rw [hrun]
    exact List.mem_cons_self
  obtain ⟨x, t, hv, hx, hkx⟩ := mem_run_set.mp hmem
  rw [hkx] at hk
  injection hk with htext hpost _
  refine ⟨x, hx, htext, ?_, noHitBefore_set.mp hbefore⟩
  rw [hs, hv, hpost]

end Regex
end VoiceTts
