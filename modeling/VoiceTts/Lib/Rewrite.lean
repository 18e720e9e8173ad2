import VoiceTts.Lib.Prog
import VoiceTts.Lib.RegexSearch

/-!
# Search-and-replace loops

The loop that searches a sentence for a pattern, replaces what it found, and
searches the new sentence again from its start until nothing is found.  `Runs`
is the meaning of the loop, with a finite derivation for each run that ends;
`rewriteLoop` executes at most a given number of rounds.
-/

namespace VoiceTts

variable {ε σ κ α : Type}

/-- Replace the `len` symbols at `pos` by `rep`. -/
def splice (s : List α) (pos len : Nat) (rep : List α) : List α :=
  let erased := s.take pos ++ s.drop (pos + len)
  erased.take pos ++ rep ++ erased.drop pos

/--
A loop rule: the pattern, the group whose span is replaced, and what a round
computes from the texts of the groups.  `κ` is what one round hands to the next.
-/
structure Rule (m : Type -> Type) (κ α : Type) where
  pattern : Regex α
  span : Nat
  body : κ -> (Nat -> List α) -> m (κ × List α)

namespace Rule

variable [DecidableEq α]

/-- The sentence after the match `mt` of `s` has been replaced. -/
def replaced {m : Type -> Type} (rule : Rule m κ α) (s : List α)
    (mt : Match α) (rep : List α) : List α :=
  splice s (mt.position rule.span) (mt.length rule.span) rep

/-- At most `n` rounds of the loop. -/
def rewriteLoop {m : Type -> Type} [Monad m] (rule : Rule m κ α) :
    Nat -> κ -> List α -> m (List α)
  | 0, _, s => pure s
  | n + 1, k, s =>
      match rule.pattern.search s with
      | none => pure s
      | some mt => do
          let (k', rep) <- rule.body k mt.group
          rewriteLoop rule n k' (rule.replaced s mt rep)

/-- The loop, entered with `k` and the sentence `s`, ends with `r`. -/
inductive Runs (rule : Rule (Except ε) κ α) :
    κ -> List α -> Except ε (List α) -> Prop where
  | done {k s} : rule.pattern.search s = none -> Runs rule k s (Except.ok s)
  | stop {k s mt e} :
      rule.pattern.search s = some mt ->
      rule.body k mt.group = Except.error e ->
      Runs rule k s (Except.error e)
  | round {k s mt k' rep r} :
      rule.pattern.search s = some mt ->
      rule.body k mt.group = Except.ok (k', rep) ->
      Runs rule k' (rule.replaced s mt rep) r ->
      Runs rule k s r

theorem Runs.unique {rule : Rule (Except ε) κ α} {k : κ} {s : List α}
    {r r' : Except ε (List α)} (h : Runs rule k s r) (h' : Runs rule k s r') :
    r = r' := by
  induction h with
  | done hnone =>
      cases h' with
      | done _ => rfl
      | stop hsome _ => rw [hnone] at hsome; cases hsome
      | round hsome _ _ => rw [hnone] at hsome; cases hsome
  | stop hsome hbody =>
      cases h' with
      | done hnone => rw [hnone] at hsome; cases hsome
      | stop hsome' hbody' =>
          rw [hsome] at hsome'
          cases hsome'
          rw [hbody] at hbody'
          cases hbody'
          rfl
      | round hsome' hbody' _ =>
          rw [hsome] at hsome'
          cases hsome'
          rw [hbody] at hbody'
          cases hbody'
  | round hsome hbody _ ih =>
      cases h' with
      | done hnone => rw [hnone] at hsome; cases hsome
      | stop hsome' hbody' =>
          rw [hsome] at hsome'
          cases hsome'
          rw [hbody] at hbody'
          cases hbody'
      | round hsome' hbody' hrest =>
          rw [hsome] at hsome'
          cases hsome'
          rw [hbody] at hbody'
          cases hbody'
          exact ih hrest

/-- What every round preserves holds at the end of a run. -/
theorem Runs.invariant {rule : Rule (Except ε) κ α} (P : List α -> Prop)
    (hround : forall k s mt k' rep, P s -> rule.pattern.search s = some mt ->
      rule.body k mt.group = Except.ok (k', rep) ->
      P (rule.replaced s mt rep))
    {k : κ} {s s' : List α} (h : Runs rule k s (Except.ok s')) (hs : P s) :
    P s' := by
  generalize hr : (Except.ok s' : Except ε (List α)) = r at h
  induction h with
  | done _ =>
      cases hr
      exact hs
  | stop _ _ =>
      cases hr
  | round hsome hbody _ ih =>
      exact ih (hround _ _ _ _ _ hs hsome hbody) hr

theorem Runs.search_none {rule : Rule (Except ε) κ α} {k : κ}
    {s s' : List α} (h : Runs rule k s (Except.ok s')) :
    rule.pattern.search s' = none := by
  generalize hr : (Except.ok s' : Except ε (List α)) = r at h
  induction h with
  | done hnone =>
      cases hr
      exact hnone
  | stop _ _ =>
      cases hr
  | round _ _ _ ih =>
      exact ih hr

/--
A loop whose rounds all make the sentence smaller ends, and as many rounds as
the sentence is large execute it.
-/
theorem runs_rewriteLoop {rule : Rule (Except ε) κ α} (μ : List α -> Nat)
    (hround : forall k s mt k' rep, rule.pattern.search s = some mt ->
      rule.body k mt.group = Except.ok (k', rep) ->
      μ (rule.replaced s mt rep) < μ s)
    (hzero : forall s mt, rule.pattern.search s = some mt -> 0 < μ s) :
    forall n k s, μ s ≤ n -> Runs rule k s (rule.rewriteLoop n k s) := by
  intro n
  induction n with
  | zero =>
      intro k s hs
      cases hsearch : rule.pattern.search s with
      | none =>
          exact Runs.done hsearch
      | some mt =>
          have hpos := hzero s mt hsearch
          omega
  | succ n ih =>
      intro k s hs
      cases hsearch : rule.pattern.search s with
      | none =>
          simp only [rewriteLoop, hsearch]
          exact Runs.done hsearch
      | some mt =>
          cases hbody : rule.body k mt.group with
          | error e =>
              have hloop : rule.rewriteLoop (n + 1) k s = Except.error e := by
                simp only [rewriteLoop, hsearch, hbody]
                rfl
              rw [hloop]
              exact Runs.stop hsearch hbody
          | ok res =>
              rcases res with ⟨k', rep⟩
              have hloop : rule.rewriteLoop (n + 1) k s =
                  rule.rewriteLoop n k' (rule.replaced s mt rep) := by
                simp only [rewriteLoop, hsearch, hbody]
                rfl
              have hless := hround k s mt k' rep hsearch hbody
              rw [hloop]
              exact Runs.round hsearch hbody (ih k' _ (by omega))

/-- An error of the executed loop is an error of one of its rounds. -/
theorem rewriteLoop_error {rule : Rule (Except ε) κ α} (E : ε -> Prop)
    (hround : forall k s mt e, rule.pattern.search s = some mt ->
      rule.body k mt.group = Except.error e -> E e) :
    forall n k s e, rule.rewriteLoop n k s = Except.error e -> E e := by
  intro n
  induction n with
  | zero =>
      intro k s e h
      cases h
  | succ n ih =>
      intro k s e h
      cases hsearch : rule.pattern.search s with
      | none =>
          simp only [rewriteLoop, hsearch] at h
          cases h
      | some mt =>
          simp only [rewriteLoop, hsearch] at h
          cases hbody : rule.body k mt.group with
          | error e' =>
              rw [hbody] at h
              cases h
              exact hround k s mt e hsearch hbody
          | ok res =>
              rw [hbody] at h
              exact ih res.1 _ e h

/--
From every state in `I` a round of the program computes what a round of the
stateless rule gives.
-/
structure Refines (I : σ -> Prop) (rule : Rule (Prog ε σ) κ α)
    (rule' : Rule (Except ε) κ α) : Prop where
  pattern : rule.pattern = rule'.pattern
  span : rule.span = rule'.span
  body : forall k s mt, rule'.pattern.search s = some mt ->
    Prog.Computes I I (rule.body k mt.group) (rule'.body k mt.group)

theorem Refines.rewriteLoop {I : σ -> Prop}
    {rule : Rule (Prog ε σ) κ α} {rule' : Rule (Except ε) κ α}
    (h : Refines I rule rule') :
    forall n k s,
      Prog.Computes I I (rule.rewriteLoop n k s) (rule'.rewriteLoop n k s) := by
  intro n
  induction n with
  | zero =>
      intro k s
      exact Prog.computes_pure s
  | succ n ih =>
      intro k s
      simp only [Rule.rewriteLoop, h.pattern]
      cases hsearch : rule'.pattern.search s with
      | none =>
          exact Prog.computes_pure s
      | some mt =>
          apply Prog.Computes.bind (h.body k s mt hsearch)
          · rintro ⟨k', rep⟩ _
            have hrep : rule.replaced s mt rep = rule'.replaced s mt rep := by
              simp only [replaced, h.span]
            simp only [hrep]
            exact ih k' _
          · intro t ht
            exact ht

/-- A loop whose rounds never fail while `P` holds, and keep `P`, gives a sentence in `P`. -/
theorem rewriteLoop_ok {rule : Rule (Except ε) κ α} {P : List α -> Prop}
    (hround : forall k s mt, P s -> rule.pattern.search s = some mt ->
      exists k' rep, rule.body k mt.group = Except.ok (k', rep) ∧
        P (rule.replaced s mt rep)) :
    forall n k s, P s -> exists s', rule.rewriteLoop n k s = Except.ok s' ∧ P s' := by
  intro n
  induction n with
  | zero =>
      intro k s hs
      exact ⟨s, rfl, hs⟩
  | succ n ih =>
      intro k s hs
      cases hsearch : rule.pattern.search s with
      | none =>
          refine ⟨s, ?_, hs⟩
          simp only [rewriteLoop, hsearch]
          rfl
      | some mt =>
          rcases hround k s mt hs hsearch with ⟨k', rep, hbody, hrest⟩
          rcases ih k' _ hrest with ⟨s', hloop, hs'⟩
          refine ⟨s', ?_, hs'⟩
          simp only [rewriteLoop, hsearch, hbody]
          exact hloop

/-- Two loops whose bodies agree while `P` holds agree from a sentence in `P`. -/
theorem Refines.rewriteLoop_congr {I : σ -> Prop} {rule other : Rule (Prog ε σ) κ α}
    {rule' : Rule (Except ε) κ α} (h : Refines I rule rule') {P : List α -> Prop}
    (hkeep : forall k s mt k' rep, P s -> rule'.pattern.search s = some mt ->
      rule'.body k mt.group = Except.ok (k', rep) -> P (rule'.replaced s mt rep))
    (hpattern : other.pattern = rule.pattern) (hspan : other.span = rule.span)
    (hbody : forall k s mt, P s -> rule'.pattern.search s = some mt ->
      other.body k mt.group = rule.body k mt.group) :
    forall n k s t, P s -> I t ->
      other.rewriteLoop n k s t = rule.rewriteLoop n k s t := by
  intro n
  induction n with
  | zero =>
      intro k s t _ _
      rfl
  | succ n ih =>
      intro k s t hs ht
      have hrule : rule.pattern.search s = rule'.pattern.search s := by
        rw [h.pattern]
      have hother : other.pattern.search s = rule'.pattern.search s := by
        rw [hpattern, hrule]
      cases hsearch : rule'.pattern.search s with
      | none =>
          simp only [Rule.rewriteLoop, hrule, hother, hsearch]
      | some mt =>
          simp only [Rule.rewriteLoop, hrule, hother, hsearch, hbody k s mt hs hsearch]
          rcases h.body k s mt hsearch t ht with ⟨hresult, hstate⟩
          rcases hrun : rule.body k mt.group t with ⟨res, t'⟩
          rw [hrun] at hresult hstate
          cases res with
          | error e =>
              rw [Prog.bind_of_error hrun, Prog.bind_of_error hrun]
          | ok res =>
              rcases res with ⟨k', rep⟩
              rw [Prog.bind_of_ok hrun, Prog.bind_of_ok hrun]
              have hrep : other.replaced s mt rep = rule.replaced s mt rep := by
                simp only [replaced, hspan]
              have hrep' : rule.replaced s mt rep = rule'.replaced s mt rep := by
                simp only [replaced, h.span]
              simp only [hrep]
              refine ih k' _ t' ?_ hstate
              rw [hrep']
              exact hkeep k s mt k' rep hs hsearch hresult.symm

/--
The loop of a program, entered with `k`, the sentence `s` and the state `t`, ends
with a result and a state.
-/
inductive Ends (rule : Rule (Prog ε σ) κ α) :
    κ -> List α -> σ -> Except ε (List α) × σ -> Prop where
  | done {k s t} : rule.pattern.search s = none -> Ends rule k s t (Except.ok s, t)
  | stop {k s t mt e t'} :
      rule.pattern.search s = some mt ->
      rule.body k mt.group t = (Except.error e, t') ->
      Ends rule k s t (Except.error e, t')
  | round {k s t mt k' rep t' r} :
      rule.pattern.search s = some mt ->
      rule.body k mt.group t = (Except.ok (k', rep), t') ->
      Ends rule k' (rule.replaced s mt rep) t' r ->
      Ends rule k s t r

/--
The loop of a program ends when its stateless counterpart makes the sentence
smaller in each round, and as many rounds as the sentence is large execute it.
-/
theorem Refines.ends {I : σ -> Prop} {rule : Rule (Prog ε σ) κ α}
    {rule' : Rule (Except ε) κ α} (h : Refines I rule rule')
    (μ : List α -> Nat)
    (hround : forall k s mt k' rep, rule'.pattern.search s = some mt ->
      rule'.body k mt.group = Except.ok (k', rep) ->
      μ (rule'.replaced s mt rep) < μ s)
    (hzero : forall s mt, rule'.pattern.search s = some mt -> 0 < μ s) :
    forall n k s t, I t -> μ s ≤ n ->
      Ends rule k s t (rule.rewriteLoop n k s t) := by
  intro n
  induction n with
  | zero =>
      intro k s t _ hs
      cases hsearch : rule'.pattern.search s with
      | none =>
          have hsearch' : rule.pattern.search s = none := by
            rw [h.pattern, hsearch]
          exact Ends.done hsearch'
      | some mt =>
          have hpos := hzero s mt hsearch
          omega
  | succ n ih =>
      intro k s t ht hs
      cases hsearch : rule'.pattern.search s with
      | none =>
          have hsearch' : rule.pattern.search s = none := by
            rw [h.pattern, hsearch]
          simp only [Rule.rewriteLoop, hsearch']
          exact Ends.done hsearch'
      | some mt =>
          have hsearch' : rule.pattern.search s = some mt := by
            rw [h.pattern, hsearch]
          rcases h.body k s mt hsearch t ht with ⟨hresult, hstate⟩
          rcases hbody : rule.body k mt.group t with ⟨res, t'⟩
          rw [hbody] at hresult hstate
          simp only [Rule.rewriteLoop, hsearch']
          cases res with
          | error e =>
              rw [Prog.bind_of_error hbody]
              exact Ends.stop hsearch' hbody
          | ok res =>
              rcases res with ⟨k', rep⟩
              have hless := hround k s mt k' rep hsearch hresult.symm
              have hrep : rule.replaced s mt rep = rule'.replaced s mt rep := by
                simp only [replaced, h.span]
              rw [Prog.bind_of_ok hbody]
              apply Ends.round hsearch' hbody
              rw [hrep]
              exact ih k' _ t' hstate (by omega)

/-!
## Single rounds
-/

/-- Where the loop of a program is: what it hands on, the sentence and the state. -/
structure Config (σ κ α : Type) where
  carried : κ
  sentence : List α
  state : σ

/-- A round, which replaces the match `mt` by `rep`. -/
structure Round (rule : Rule (Prog ε σ) κ α) (c : Config σ κ α) (mt : Match α)
    (rep : List α) (c' : Config σ κ α) : Prop where
  found : rule.pattern.search c.sentence = some mt
  body : rule.body c.carried mt.group c.state = (Except.ok (c'.carried, rep), c'.state)
  sentence : c'.sentence = rule.replaced c.sentence mt rep

theorem Round.of_body {rule : Rule (Prog ε σ) κ α} {c : Config σ κ α} {mt : Match α}
    {k : κ} {rep : List α} (hfound : rule.pattern.search c.sentence = some mt)
    (hbody : (rule.body c.carried mt.group c.state).1 = Except.ok (k, rep)) :
    Round rule c mt rep ⟨k, rule.replaced c.sentence mt rep,
      (rule.body c.carried mt.group c.state).2⟩ :=
  ⟨hfound, Prod.ext hbody rfl, rfl⟩

/-- What the loop comes to, round after round. -/
inductive Reaches (rule : Rule (Prog ε σ) κ α) (c : Config σ κ α) :
    Config σ κ α -> Prop where
  | start : Reaches rule c c
  | round {c1 c2 : Config σ κ α} {mt : Match α} {rep : List α} :
      Reaches rule c c1 -> Round rule c1 mt rep c2 -> Reaches rule c c2

/-- Where a loop comes to, it ends as it would end from there. -/
theorem Reaches.ends {rule : Rule (Prog ε σ) κ α} {c c' : Config σ κ α}
    (h : Reaches rule c c') {r : Except ε (List α) × σ}
    (hend : Ends rule c'.carried c'.sentence c'.state r) :
    Ends rule c.carried c.sentence c.state r := by
  induction h with
  | start =>
      exact hend
  | round _ hround ih =>
      apply ih
      refine Ends.round hround.found hround.body ?_
      rw [← hround.sentence]
      exact hend

theorem Ends.unique {rule : Rule (Prog ε σ) κ α} {k : κ} {s : List α} {t : σ}
    {r r' : Except ε (List α) × σ} (h : Ends rule k s t r) (h' : Ends rule k s t r') :
    r = r' := by
  induction h with
  | done hnone =>
      cases h' with
      | done _ => rfl
      | stop hsome _ =>
          rw [hnone] at hsome
          cases hsome
      | round hsome _ _ =>
          rw [hnone] at hsome
          cases hsome
  | stop hsome hbody =>
      cases h' with
      | done hnone =>
          rw [hnone] at hsome
          cases hsome
      | stop hsome' hbody' =>
          rw [hsome] at hsome'
          cases hsome'
          rw [hbody] at hbody'
          cases hbody'
          rfl
      | round hsome' hbody' _ =>
          rw [hsome] at hsome'
          cases hsome'
          rw [hbody] at hbody'
          cases hbody'
  | round hsome hbody _ ih =>
      cases h' with
      | done hnone =>
          rw [hnone] at hsome
          cases hsome
      | stop hsome' hbody' =>
          rw [hsome] at hsome'
          cases hsome'
          rw [hbody] at hbody'
          cases hbody'
      | round hsome' hbody' hrest =>
          rw [hsome] at hsome'
          cases hsome'
          rw [hbody] at hbody'
          cases hbody'
          exact ih hrest

section Rounds

variable {I : σ -> Prop} {rule : Rule (Prog ε σ) κ α} {rule' : Rule (Except ε) κ α}
  {c c' : Config σ κ α}

/-- A round of the program is a round of its stateless counterpart. -/
theorem Refines.round (h : Refines I rule rule') {mt : Match α} {rep : List α}
    (hc : I c.state) (hround : Round rule c mt rep c') :
    rule'.pattern.search c.sentence = some mt ∧
      rule'.body c.carried mt.group = Except.ok (c'.carried, rep) ∧
      c'.sentence = rule'.replaced c.sentence mt rep ∧ I c'.state := by
  have hfound : rule'.pattern.search c.sentence = some mt := by
    rw [← h.pattern]
    exact hround.found
  obtain ⟨hresult, hstate⟩ := h.body c.carried c.sentence mt hfound c.state hc
  rw [hround.body] at hresult hstate
  refine ⟨hfound, hresult.symm, ?_, hstate⟩
  rw [hround.sentence, replaced, replaced, h.span]

/-- Where the stateless counterpart has a round, the program has it, too. -/
theorem Refines.exists_round (h : Refines I rule rule') (hc : I c.state) {mt : Match α}
    {k : κ} {rep : List α} (hsearch : rule'.pattern.search c.sentence = some mt)
    (hbody : rule'.body c.carried mt.group = Except.ok (k, rep)) :
    exists c', Round rule c mt rep c' ∧ c'.carried = k := by
  have hfound : rule.pattern.search c.sentence = some mt := by
    rw [h.pattern]
    exact hsearch
  have hresult := (h.body c.carried c.sentence mt hsearch c.state hc).1
  rw [hbody] at hresult
  exact ⟨_, Round.of_body hfound hresult, rfl⟩

theorem Refines.reaches (h : Refines I rule rule') (hc : I c.state)
    (hreach : Reaches rule c c') : I c'.state := by
  induction hreach with
  | start => exact hc
  | round _ hround ih => exact (h.round ih hround).2.2.2

end Rounds

end Rule

/-!
## What a match leaves around it
-/

namespace Match

variable [DecidableEq α]

theorem search_splits {r : Regex α} {s : List α} {m : Match α}
    (h : r.search s = some m) : s = m.pre ++ m.text ++ m.post := by
  rcases Regex.search_eq_some.mp h with ⟨v, heq, _, k, ks, hrun, hk⟩
  have hmem : k ∈ r.run 0 v Captures.none := by
    rw [hrun]
    exact List.mem_cons_self
  have hsplit := Regex.run_splits hmem
  have htext : m.text = k.taken := congrArg Hit.taken hk
  have hpost : m.post = k.rest := congrArg Hit.rest hk
  rw [heq, List.append_assoc, htext, hpost, hsplit]

theorem text_infix {r : Regex α} {s : List α} {m : Match α} (h : r.search s = some m) :
    m.text <:+: s := by
  rw [search_splits h]
  exact List.infix_append m.pre m.text m.post

theorem search_hit {r : Regex α} {s : List α} {m : Match α}
    (h : r.search s = some m) :
    (⟨m.text, m.post, m.caps⟩ : Hit α) ∈
      r.run m.pre.length (m.text ++ m.post) Captures.none := by
  rcases Regex.search_eq_some.mp h with ⟨v, heq, _, k, ks, hrun, hk⟩
  have hsplits := search_splits h
  have hv : v = m.text ++ m.post := by
    rw [heq, List.append_assoc] at hsplits
    exact List.append_cancel_left hsplits
  rw [Regex.run_at, ← hv, hrun, hk]
  simp

/-- A text without the symbols that every match takes has no match. -/
theorem search_none_of_must {r : Regex α} {P : α -> Prop} (hmust : r.Must P) {s : List α}
    (h : forall x, x ∈ s -> ¬ P x) : r.search s = none := by
  cases hsearch : r.search s with
  | none => rfl
  | some m =>
      obtain ⟨x, hx, hP⟩ := Regex.run_must hmust (search_hit hsearch)
      refine absurd hP (h x ?_)
      rw [search_splits hsearch]
      exact List.mem_append_left m.post (List.mem_append_right m.pre hx)

omit [DecidableEq α] in
theorem splice_text (m : Match α) (rep : List α) :
    splice (m.pre ++ m.text ++ m.post) m.pre.length m.text.length rep =
      m.pre ++ rep ++ m.post := by
  simp [splice]

end Match

theorem Rule.replaced_eq [DecidableEq α] {m : Type -> Type} {rule : Rule m κ α}
    (hspan : rule.span = 0) {s : List α} {mt : Match α}
    (h : rule.pattern.search s = some mt) (rep : List α) :
    rule.replaced s mt rep = mt.pre ++ rep ++ mt.post := by
  rw [Rule.replaced, hspan]
  nth_rewrite 1 [Match.search_splits h]
  exact mt.splice_text rep

end VoiceTts
