import VoiceTts.Lib.Rewrite

/-!
# Search-and-replace loops act locally

A loop searches the whole sentence again after every replacement.  When the
replacements are inert for the pattern, that is, when no later match can enter
or start in one, the loop nevertheless treats the sentence as one pass from
left to right would: the texts between the matches stay as they are, and what
the loop does to one of several texts kept apart by inert blocks does not
depend on the others.
-/

namespace VoiceTts

variable {ε α : Type} [DecidableEq α]

namespace Regex

theorem run_extend {r : Regex α} (w : List α) :
    forall {pos : Nat} {s : List α} {caps : Captures α} {h : Hit α},
      h ∈ run r pos s caps -> h.extend w ∈ run r pos (s ++ w) caps := by
  induction r with
  | eps =>
      intro pos s caps h hh
      simp at hh
      simp [hh, Hit.extend]
  | set p =>
      intro pos s caps h hh
      rcases mem_run_set.mp hh with ⟨x, t, rfl, hx, rfl⟩
      exact mem_run_set.mpr ⟨x, t ++ w, rfl, hx, rfl⟩
  | seq a b iha ihb =>
      intro pos s caps h hh
      rcases mem_run_seq.mp hh with ⟨h1, hh1, h2, hh2, rfl⟩
      exact mem_run_seq.mpr ⟨_, iha hh1, _, ihb hh2, rfl⟩
  | alt a b iha ihb =>
      intro pos s caps h hh
      rcases mem_run_alt.mp hh with hh | hh
      · exact mem_run_alt.mpr (Or.inl (iha hh))
      · exact mem_run_alt.mpr (Or.inr (ihb hh))
  | star a ih =>
      intro pos s caps h hh
      have hsplits : forall (pos : Nat) (s : List α) (caps : Captures α) h,
          h ∈ run a pos s caps -> h.taken ++ h.rest = s :=
        fun _ _ _ _ hh => run_splits hh
      have hrounds : forall fuel pos s caps h,
          h ∈ starRun (fun pos s caps => run a pos s caps) (groups a) fuel
            pos s caps ->
          h.extend w ∈ starRun (fun pos s caps => run a pos s caps) (groups a)
            fuel pos (s ++ w) caps := by
        intro fuel
        induction fuel with
        | zero =>
            intro pos s caps h hh
            simp only [starRun, List.mem_singleton] at hh ⊢
            rw [hh]
            rfl
        | succ fuel ihfuel =>
            intro pos s caps h hh
            simp only [starRun, List.mem_append, List.mem_flatMap,
              List.mem_map, List.mem_singleton, List.mem_filter] at hh ⊢
            rcases hh with ⟨h1, ⟨hmem, hne⟩, k, hk, rfl⟩ | rfl
            · exact Or.inl ⟨h1.extend w, ⟨ih hmem, hne⟩, k.extend w,
                ihfuel _ _ _ _ hk, rfl⟩
            · exact Or.inr rfl
      have hfuel := starRun_fuel (groups a) hsplits s.length
        (s ++ w).length pos s caps (Nat.le_refl _) (by simp)
      simp only [run] at hh ⊢
      rw [hfuel] at hh
      exact hrounds _ _ _ _ _ hh
  | group n a ih =>
      intro pos s caps h hh
      rcases mem_run_group.mp hh with ⟨h1, hh1, rfl⟩
      exact mem_run_group.mpr ⟨_, ih hh1, rfl⟩
  | backref n =>
      intro pos s caps h hh
      rcases mem_run_backref hh with ⟨hc, rfl⟩ | ⟨c, hc, hs, hh⟩
      · simp [run, hc, Hit.extend]
      · rw [hh, ← hs]
        simp [run, hc, Hit.extend]

theorem noHit_of_append {r : Regex α} {s w : List α} (h : NoHit r (s ++ w)) :
    NoHit r s := by
  unfold NoHit at h ⊢
  cases hrun : run r 0 s Captures.none with
  | nil => rfl
  | cons k ks =>
      have hmem : k ∈ run r 0 s Captures.none := by
        rw [hrun]
        exact List.mem_cons_self
      have hext := run_extend w hmem
      rw [h] at hext
      cases hext

theorem noHit_cut {A : α -> Prop} {r : Regex α} (hr : r.All A) {s t : List α}
    {x : α} (hx : ¬ A x) (h : NoHit r s) : NoHit r (s ++ x :: t) := by
  unfold NoHit at h ⊢
  rw [run_cut hr hx t 0 s Captures.none (Captures.within_none A), h]
  rfl

theorem noHit_of_not_first {r : Regex α} (hnull : ¬ r.Nullable) {x : α}
    (hx : ¬ r.First x) (t : List α) : NoHit r (x :: t) := by
  unfold NoHit
  cases hrun : run r 0 (x :: t) Captures.none with
  | nil => rfl
  | cons k ks =>
      have hmem : k ∈ run r 0 (x :: t) Captures.none := by
        rw [hrun]
        exact List.mem_cons_self
      have hsplit := run_splits hmem
      have hfirst := run_first hmem
      cases htaken : k.taken with
      | nil =>
          exact absurd (hfirst.1 htaken) hnull
      | cons y u =>
          rw [htaken, List.cons_append] at hsplit
          injection hsplit with hyx _
          exact absurd (hyx ▸ hfirst.2 y u htaken) hx

/--
A block that no match can enter from the left or start in: its first symbol is
outside the alphabet `A` of the pattern and no symbol of it starts a match.
-/
structure Inert (r : Regex α) (A : α -> Prop) (d : List α) : Prop where
  entry : exists x t, d = x :: t ∧ ¬ A x
  start : forall x, x ∈ d -> ¬ r.First x

/-- No match starts in `p`, whatever follows. -/
def Blocked (r : Regex α) (p : List α) : Prop :=
  forall v, NoHitBefore r p v

theorem noHitBefore_append {r : Regex α} {u v w : List α} :
    NoHitBefore r (u ++ v) w ↔ NoHitBefore r u (v ++ w) ∧ NoHitBefore r v w := by
  induction u with
  | nil =>
      simp [noHitBefore_nil]
  | cons x u ih =>
      rw [List.cons_append, noHitBefore_cons, noHitBefore_cons, ih, and_assoc,
        List.cons_append, List.cons_append, List.append_assoc]

theorem blocked_of_inert {A : α -> Prop} {r : Regex α} (hr : r.All A)
    (hnull : ¬ r.Nullable) {a d : List α} (ha : Free r a) (hd : Inert r A d) :
    Blocked r (a ++ d) := by
  intro v
  rw [noHitBefore_append]
  rcases hd.entry with ⟨x, t, rfl, hx⟩
  constructor
  · intro p q heq _
    exact noHit_cut hr hx (ha p q heq)
  · intro p q heq hq
    cases q with
    | nil =>
        exact absurd rfl hq
    | cons y u =>
        have hmem : y ∈ x :: t := by
          rw [heq]
          simp
        exact noHit_of_not_first hnull (hd.start y hmem) _

theorem free_of_noHitBefore {r : Regex α} (hnull : ¬ r.Nullable)
    {u v : List α} (h : NoHitBefore r u v) : Free r u := by
  intro p q heq
  by_cases hq : q = []
  · subst hq
    unfold NoHit
    cases hrun : run r 0 [] Captures.none with
    | nil => rfl
    | cons k ks =>
        have hmem : k ∈ run r 0 [] Captures.none := by
          rw [hrun]
          exact List.mem_cons_self
        have hnil := (List.append_eq_nil_iff.mp (run_splits hmem)).1
        exact absurd ((run_first hmem).1 hnil) hnull
  · exact noHit_of_append (h p q heq hq)

/-- Behind a text without matches there is none in symbols that no match takes. -/
theorem blocked_of_foreign {A : α -> Prop} {r : Regex α} (hr : r.All A)
    (hnull : ¬ r.Nullable) {a d : List α} (ha : Free r a) (hne : d ≠ [])
    (hd : forall x, x ∈ d -> ¬ A x) : Blocked r (a ++ d) := by
  have hnil : NoHit r [] := free_of_noHitBefore hnull (noHitBefore_nil r []) [] [] rfl
  intro v
  rw [noHitBefore_append]
  constructor
  · intro p q heq _
    cases d with
    | nil => exact absurd rfl hne
    | cons x t => exact noHit_cut hr (hd x List.mem_cons_self) (ha p q heq)
  · intro p q heq hq
    cases q with
    | nil => exact absurd rfl hq
    | cons y u =>
        refine noHit_cut hr (hd y ?_) (s := []) hnil
        rw [heq]
        simp

/-!
## Searching past a block and in front of one
-/

theorem search_blocked {r : Regex α} {p : List α} (hp : Blocked r p)
    (v : List α) :
    r.search (p ++ v) =
      (r.search v).map fun m =>
        ⟨p ++ m.pre, m.text, m.post, m.caps.shift p.length⟩ := by
  cases hsearch : r.search v with
  | none =>
      rw [search_eq_none] at hsearch
      rw [Option.map_none, search_eq_none]
      intro a b heq
      by_cases hlen : a.length < p.length
      · have htake : p = a ++ p.drop a.length := by
          have h1 : a = p.take a.length := by
            have h2 := congrArg (List.take a.length) heq
            rw [List.take_left, List.take_append_of_le_length
              (Nat.le_of_lt hlen)] at h2
            exact h2.symm
          nth_rewrite 1 [← List.take_append_drop a.length p]
          rw [← h1]
        have hb : b = p.drop a.length ++ v := by
          rw [htake, List.append_assoc] at heq
          exact (List.append_cancel_left heq).symm
        have hne : p.drop a.length ≠ [] := by
          rw [ne_eq, List.drop_eq_nil_iff]
          omega
        rw [hb]
        exact hp v a _ htake hne
      · rcases List.append_eq_append_iff.mp heq with ⟨c, ha, hv⟩ | ⟨c, hpc, hb⟩
        · exact hsearch c b hv
        · have hc : c = [] := by
            have hl := congrArg List.length hpc
            rw [List.length_append] at hl
            exact List.length_eq_zero_iff.mp (by omega)
          subst hc
          rw [hb, List.nil_append]
          exact hsearch [] v rfl
  | some m =>
      rw [search_eq_some] at hsearch
      rcases hsearch with ⟨w, heq, hno, k, ks, hrun, hk⟩
      rw [Option.map_some, search_eq_some]
      refine ⟨w, by rw [heq, List.append_assoc], ?_, k, ks, hrun, ?_⟩
      · exact noHitBefore_append.mpr ⟨hp _, hno⟩
      · have htext : m.text = k.taken := congrArg Hit.taken hk
        have hpost : m.post = k.rest := congrArg Hit.rest hk
        have hcaps : m.caps = k.caps.shift m.pre.length :=
          congrArg Hit.caps hk
        have hshift : m.caps.shift p.length =
            k.caps.shift (p ++ m.pre).length := by
          rw [hcaps]
          funext n
          unfold Captures.shift
          cases k.caps n with
          | none => rfl
          | some c =>
              simp only [Option.map_some, List.length_append]
              congr 2
              omega
        simp only [hshift, htext, hpost]
        rfl

theorem search_cut {A : α -> Prop} {r : Regex α} (hr : r.All A) {x : α}
    (hx : ¬ A x) {a : List α} {m : Match α} (h : r.search a = some m)
    (t : List α) :
    r.search (a ++ x :: t) = some { m with post := m.post ++ x :: t } := by
  rcases search_eq_some.mp h with ⟨v, heq, hno, k, ks, hrun, hk⟩
  rw [search_eq_some]
  refine ⟨v ++ x :: t, by rw [heq, List.append_assoc], ?_, k.extend (x :: t),
    ks.map fun h => h.extend (x :: t), ?_, ?_⟩
  · intro p q hpq hq
    rw [← List.append_assoc]
    exact noHit_cut hr hx (hno p q hpq hq)
  · rw [run_cut hr hx t 0 v Captures.none (Captures.within_none A), hrun]
    rfl
  · have htext : m.text = k.taken := congrArg Hit.taken hk
    have hpost : m.post = k.rest := congrArg Hit.rest hk
    have hcaps : m.caps = k.caps.shift m.pre.length := congrArg Hit.caps hk
    simp only [htext, hpost, hcaps]
    rfl

/-!
## The matches of one pass, and the texts between them
-/

def foundIn (r : Regex α) : Nat -> List α -> List (Match α)
  | 0, _ => []
  | n + 1, s =>
      match r.search s with
      | none => []
      | some m => m :: foundIn r n m.post

def gapsIn (r : Regex α) : Nat -> List α -> List (List α)
  | 0, s => [s]
  | n + 1, s =>
      match r.search s with
      | none => [s]
      | some m => m.pre :: gapsIn r n m.post

/-- The successive matches, each searched after the end of the one before. -/
def found (r : Regex α) (s : List α) : List (Match α) :=
  foundIn r s.length s

/-- The texts in front of, between and after the successive matches. -/
def gaps (r : Regex α) (s : List α) : List (List α) :=
  gapsIn r s.length s

theorem mem_foundIn {r : Regex α} :
    forall {n : Nat} {s : List α} {m : Match α}, m ∈ r.foundIn n s ->
      exists t, r.search t = some m := by
  intro n
  induction n with
  | zero =>
      intro s m hm
      cases hm
  | succ n ih =>
      intro s m hm
      unfold foundIn at hm
      split at hm
      · cases hm
      · rename_i m' hsearch
        rcases List.mem_cons.mp hm with rfl | hm
        · exact ⟨s, hsearch⟩
        · exact ih hm

theorem foundIn_eq_nil {r : Regex α} (hnull : ¬ r.Nullable) {n : Nat} {s : List α}
    (hs : s.length ≤ n) : r.foundIn n s = [] ↔ r.search s = none := by
  cases n with
  | zero =>
      have hnil : s = [] := List.length_eq_zero_iff.mp (Nat.le_zero.mp hs)
      have hfree : Free r s := by
        rw [hnil]
        exact free_of_noHitBefore hnull (noHitBefore_nil r [])
      exact iff_of_true rfl (search_eq_none.mpr hfree)
  | succ n =>
      rw [foundIn]
      cases r.search s with
      | none => simp
      | some m => simp

/-- What is left of a text when the matches of several patterns are cut out in turn. -/
def remains : List (Regex α) -> List α -> List (List α)
  | [], s => [s]
  | r :: rs, s => (gaps r s).flatMap (remains rs)

theorem remains_concat (rs : List (Regex α)) (r : Regex α) (s : List α) :
    remains (rs ++ [r]) s = (remains rs s).flatMap (gaps r) := by
  induction rs generalizing s with
  | nil =>
      simp [remains]
  | cons a rs ih =>
      simp only [List.cons_append, remains, List.flatMap_assoc]
      apply List.flatMap_congr
      intro g _
      exact ih g

end Regex

namespace Match

omit [DecidableEq α] in
theorem group_shift (m : Match α) (p q : List α) (d : Nat) :
    (⟨p, m.text, q, m.caps.shift d⟩ : Match α).group = m.group := by
  funext n
  cases n with
  | zero => rfl
  | succ n =>
      simp only [group, Captures.shift]
      cases m.caps (n + 1) <;> rfl

omit [DecidableEq α] in
theorem group_post (m : Match α) (q : List α) :
    ({ m with post := q } : Match α).group = m.group := by
  funext n
  cases n <;> rfl

theorem post_length_lt {r : Regex α} (hnull : ¬ r.Nullable) {s : List α}
    {m : Match α} (h : r.search s = some m) : m.post.length < s.length := by
  have hsplit := congrArg List.length (search_splits h)
  have htext : m.text ≠ [] := by
    intro hnil
    exact hnull ((Regex.run_first (search_hit h)).1 hnil)
  have hpos : 0 < m.text.length := List.length_pos_iff.mpr htext
  simp only [List.length_append] at hsplit
  omega

end Match

namespace Regex

/-- There is no second match when nothing is found behind the first one. -/
theorem length_found_le_one {r : Regex α} (hnull : ¬ r.Nullable) {s : List α}
    {m : Match α} (h : r.search s = some m) :
    (r.found s).length ≤ 1 ↔ r.search m.post = none := by
  have hpost := Match.post_length_lt hnull h
  have hsize : s.length = s.length - 1 + 1 := by
    omega
  have hfound : r.found s = m :: r.foundIn (s.length - 1) m.post := by
    rw [found, hsize, foundIn, h]
    rfl
  rw [hfound, List.length_cons, Nat.add_one_le_iff, Nat.lt_one_iff, List.length_eq_zero_iff,
    foundIn_eq_nil hnull (by omega)]

end Regex

/-!
## Texts kept apart by blocks
-/

/-- The texts `gs` in order, with a block from `B` between each two. -/
inductive Woven (B : List α -> Prop) : List (List α) -> List α -> Prop where
  | last (g : List α) : Woven B [g] g
  | cons {g d s : List α} {gs : List (List α)} :
      B d -> Woven B gs s -> Woven B (g :: gs) (g ++ d ++ s)

omit [DecidableEq α] in
theorem Woven.append {B : List α -> Prop} {gs hs : List (List α)}
    {a b d : List α} (ha : Woven B gs a) (hd : B d) (hb : Woven B hs b) :
    Woven B (gs ++ hs) (a ++ d ++ b) := by
  induction ha with
  | last g =>
      exact Woven.cons hd hb
  | cons hd' hw ih =>
      rename_i g d' s gs
      have hres := Woven.cons (g := g) hd' ih
      simpa [List.append_assoc] using hres

namespace Rule

variable {rule : Rule (Except ε) Unit α} {A : α -> Prop}

/-- What a loop needs for its pattern to be cut at an inert block. -/
structure Local (rule : Rule (Except ε) Unit α) (A : α -> Prop) : Prop where
  span : rule.span = 0
  all : rule.pattern.All A
  proper : ¬ rule.pattern.Nullable

theorem runs_blocked (hrule : rule.Local A) {p v : List α}
    (hp : rule.pattern.Blocked p) {k : Unit} {r : Except ε (List α)}
    (h : Runs rule k v r) :
    Runs rule k (p ++ v) (r.map fun s => p ++ s) := by
  induction h with
  | done hnone =>
      apply Runs.done
      rw [Regex.search_blocked hp, hnone]
      rfl
  | stop hsome hbody =>
      apply Runs.stop
      · rw [Regex.search_blocked hp, hsome]
        rfl
      · rw [Match.group_shift]
        exact hbody
  | round hsome hbody _ ih =>
      apply Runs.round
      · rw [Regex.search_blocked hp, hsome]
        rfl
      · rw [Match.group_shift]
        exact hbody
      · rw [Rule.replaced_eq hrule.span
          (by rw [Regex.search_blocked hp, hsome]; rfl)]
        rw [Rule.replaced_eq hrule.span hsome] at ih
        simpa [List.append_assoc] using ih

/-- A loop treats the two sides of an inert block apart. -/
theorem runs_append (hrule : rule.Local A) {a d b : List α}
    (hd : rule.pattern.Inert A d) {a' : List α} {r : Except ε (List α)}
    {k : Unit} (ha : Runs rule k a (Except.ok a')) (hb : Runs rule k b r) :
    Runs rule k (a ++ d ++ b) (r.map fun s => a' ++ d ++ s) := by
  generalize hres : (Except.ok a' : Except ε (List α)) = ra at ha
  induction ha with
  | done hnone =>
      cases hres
      exact runs_blocked hrule
        (Regex.blocked_of_inert hrule.all hrule.proper
          (Regex.search_eq_none.mp hnone) hd) hb
  | stop _ _ =>
      cases hres
  | round hsome hbody _ ih =>
      have hih := ih hb hres
      rcases hd.entry with ⟨x, t, rfl, hx⟩
      have hsearch := Regex.search_cut hrule.all hx hsome (t ++ b)
      rw [← List.cons_append, ← List.append_assoc] at hsearch
      apply Runs.round hsearch
      · rw [Match.group_post]
        exact hbody
      · rw [Rule.replaced_eq hrule.span hsearch]
        rw [Rule.replaced_eq hrule.span hsome] at hih
        simpa [List.append_assoc] using hih

theorem runs_append_error (hrule : rule.Local A) {a d b : List α}
    (hd : rule.pattern.Inert A d) {e : ε} {k : Unit}
    (ha : Runs rule k a (Except.error e)) :
    Runs rule k (a ++ d ++ b) (Except.error e) := by
  rcases hd.entry with ⟨x, t, rfl, hx⟩
  generalize hres : (Except.error e : Except ε (List α)) = ra at ha
  induction ha with
  | done _ =>
      cases hres
  | stop hsome hbody =>
      cases hres
      have hsearch := Regex.search_cut hrule.all hx hsome (t ++ b)
      rw [← List.cons_append, ← List.append_assoc] at hsearch
      apply Runs.stop hsearch
      rw [Match.group_post]
      exact hbody
  | round hsome hbody _ ih =>
      have hih := ih hres
      have hsearch := Regex.search_cut hrule.all hx hsome (t ++ b)
      rw [← List.cons_append, ← List.append_assoc] at hsearch
      apply Runs.round hsearch
      · rw [Match.group_post]
        exact hbody
      · rw [Rule.replaced_eq hrule.span hsearch]
        rw [Rule.replaced_eq hrule.span hsome] at hih
        simpa [List.append_assoc] using hih

/-- The texts a round puts in are inert for the pattern and lie in `B`. -/
def Settles (rule : Rule (Except ε) Unit α) (A : α -> Prop)
    (B : List α -> Prop) : Prop :=
  forall s m rep, rule.pattern.search s = some m ->
    rule.body () m.group = Except.ok ((), rep) ->
      rule.pattern.Inert A rep ∧ B rep

theorem runs_foundIn_ok (hrule : rule.Local A) {B : List α -> Prop}
    (hB : rule.Settles A B) :
    forall n s, s.length ≤ n ->
      (forall m, m ∈ rule.pattern.foundIn n s ->
        exists rep, rule.body () m.group = Except.ok ((), rep)) ->
      exists s', Runs rule () s (Except.ok s') ∧
        Woven B (rule.pattern.gapsIn n s) s' := by
  intro n
  induction n with
  | zero =>
      intro s hs _
      have hnil : s = [] := List.length_eq_zero_iff.mp (Nat.le_zero.mp hs)
      subst hnil
      cases hsearch : rule.pattern.search [] with
      | none =>
          exact ⟨[], Runs.done hsearch, Woven.last []⟩
      | some m =>
          have hlt := Match.post_length_lt hrule.proper hsearch
          simp at hlt
  | succ n ih =>
      intro s hs hok
      cases hsearch : rule.pattern.search s with
      | none =>
          refine ⟨s, Runs.done hsearch, ?_⟩
          simp only [Regex.gapsIn, hsearch]
          exact Woven.last s
      | some m =>
          simp only [Regex.foundIn, Regex.gapsIn, hsearch] at hok ⊢
          have hlt := Match.post_length_lt hrule.proper hsearch
          rcases hok m List.mem_cons_self with ⟨rep, hrep⟩
          rcases ih m.post (by omega)
            (fun m' hm' => hok m' (List.mem_cons_of_mem _ hm')) with
            ⟨s', hruns, hwoven⟩
          rcases hB s m rep hsearch hrep with ⟨hinert, hblock⟩
          rcases Regex.search_eq_some.mp hsearch with ⟨v, _, hno, _⟩
          have hfree := Regex.free_of_noHitBefore hrule.proper hno
          have hblocked :=
            Regex.blocked_of_inert hrule.all hrule.proper hfree hinert
          refine ⟨m.pre ++ rep ++ s', ?_, Woven.cons hblock hwoven⟩
          apply Runs.round hsearch hrep
          rw [Rule.replaced_eq hrule.span hsearch]
          exact runs_blocked hrule hblocked hruns

theorem runs_foundIn_error (hrule : rule.Local A) {B : List α -> Prop}
    (hB : rule.Settles A B) {e : ε}
    (herr : forall s m e', rule.pattern.search s = some m ->
      rule.body () m.group = Except.error e' -> e' = e) :
    forall n s, s.length ≤ n ->
      (exists m e', m ∈ rule.pattern.foundIn n s ∧
        rule.body () m.group = Except.error e') ->
      Runs rule () s (Except.error e) := by
  intro n
  induction n with
  | zero =>
      rintro s _ ⟨m, e', hm, _⟩
      cases hm
  | succ n ih =>
      rintro s hs ⟨m', e', hm', hbody'⟩
      cases hsearch : rule.pattern.search s with
      | none =>
          simp [Regex.foundIn, hsearch] at hm'
      | some m =>
          simp only [Regex.foundIn, hsearch, List.mem_cons] at hm'
          have hlt := Match.post_length_lt hrule.proper hsearch
          cases hbody : rule.body () m.group with
          | error e1 =>
              have heq := herr s m e1 hsearch hbody
              subst heq
              exact Runs.stop hsearch hbody
          | ok res =>
              rcases res with ⟨⟨⟩, rep⟩
              rcases hm' with rfl | hm'
              · rw [hbody] at hbody'
                cases hbody'
              · have hruns := ih m.post (by omega) ⟨m', e', hm', hbody'⟩
                rcases hB s m rep hsearch hbody with ⟨hinert, _⟩
                rcases Regex.search_eq_some.mp hsearch with ⟨v, _, hno, _⟩
                have hfree := Regex.free_of_noHitBefore hrule.proper hno
                have hblocked :=
                  Regex.blocked_of_inert hrule.all hrule.proper hfree hinert
                apply Runs.round hsearch hbody
                rw [Rule.replaced_eq hrule.span hsearch]
                exact runs_blocked hrule hblocked hruns

/--
On texts kept apart by inert blocks the loop ends well when every match of a
single pass over each of the texts can be replaced, and it leaves the texts
between those matches, again kept apart by blocks.
-/
theorem runs_woven_ok (hrule : rule.Local A) {B : List α -> Prop}
    (hB : rule.Settles A B)
    (hinert : forall d, B d -> rule.pattern.Inert A d)
    {gs : List (List α)} {s : List α} (hs : Woven B gs s)
    (hok : forall g, g ∈ gs -> forall m, m ∈ rule.pattern.found g ->
      exists rep, rule.body () m.group = Except.ok ((), rep)) :
    exists s', Runs rule () s (Except.ok s') ∧
      Woven B (gs.flatMap rule.pattern.gaps) s' := by
  induction hs with
  | last g =>
      rcases runs_foundIn_ok hrule hB g.length g (Nat.le_refl _)
        (hok g List.mem_cons_self) with ⟨s', hruns, hwoven⟩
      refine ⟨s', hruns, ?_⟩
      simpa [Regex.gaps] using hwoven
  | cons hd hw ih =>
      rename_i g d s gs
      rcases runs_foundIn_ok hrule hB g.length g (Nat.le_refl _)
        (hok g List.mem_cons_self) with ⟨g', hruns, hwoven⟩
      rcases ih (fun g' hg' => hok g' (List.mem_cons_of_mem _ hg')) with
        ⟨s', hruns', hwoven'⟩
      refine ⟨g' ++ d ++ s',
        runs_append hrule (hinert d hd) hruns hruns', ?_⟩
      rw [List.flatMap_cons]
      exact hwoven.append hd hwoven'

theorem runs_woven_error (hrule : rule.Local A) {B : List α -> Prop}
    (hB : rule.Settles A B)
    (hinert : forall d, B d -> rule.pattern.Inert A d) {e : ε}
    (herr : forall s m e', rule.pattern.search s = some m ->
      rule.body () m.group = Except.error e' -> e' = e)
    {gs : List (List α)} {s : List α} (hs : Woven B gs s)
    (hbad : exists g m e', g ∈ gs ∧ m ∈ rule.pattern.found g ∧
      rule.body () m.group = Except.error e') :
    Runs rule () s (Except.error e) := by
  induction hs with
  | last g =>
      rcases hbad with ⟨g', m, e', hg', hm, hbody⟩
      rw [List.mem_singleton] at hg'
      subst hg'
      exact runs_foundIn_error hrule hB herr _ _ (Nat.le_refl _)
        ⟨m, e', hm, hbody⟩
  | cons hd hw ih =>
      rename_i g d s gs
      by_cases hhead : exists m e', m ∈ rule.pattern.found g ∧
          rule.body () m.group = Except.error e'
      · exact runs_append_error hrule (hinert d hd)
          (runs_foundIn_error hrule hB herr _ _ (Nat.le_refl _) hhead)
      · have hok : forall m, m ∈ rule.pattern.found g ->
            exists rep, rule.body () m.group = Except.ok ((), rep) := by
          intro m hm
          cases hbody : rule.body () m.group with
          | ok res =>
              exact ⟨res.2, rfl⟩
          | error e' =>
              exact absurd ⟨m, e', hm, hbody⟩ hhead
        rcases runs_foundIn_ok hrule hB g.length g (Nat.le_refl _) hok with
          ⟨g', hruns, _⟩
        rcases hbad with ⟨g1, m, e', hg1, hm, hbody⟩
        rcases List.mem_cons.mp hg1 with rfl | hg1
        · exact absurd ⟨m, e', hm, hbody⟩ hhead
        · exact runs_append hrule (hinert d hd) hruns
            (ih ⟨g1, m, e', hg1, hm, hbody⟩)

end Rule
end VoiceTts
