import Mathlib.Tactic.Common

/-!
# Programs with a state and errors

A small state-and-error monad and the rules used to reason about it.  Unlike a
state transformer over `Except`, the state survives an error: what a
program has written before it stops stays written.
-/

namespace VoiceTts

/-- A program over the state `σ` that returns a value or stops with an error. -/
def Prog (ε σ α : Type) : Type :=
  σ -> Except ε α × σ

namespace Prog

variable {ε σ α β : Type}

def ret (a : α) : Prog ε σ α :=
  fun s => (Except.ok a, s)

def andThen (m : Prog ε σ α) (f : α -> Prog ε σ β) : Prog ε σ β :=
  fun s =>
    match m s with
    | (Except.ok a, s') => f a s'
    | (Except.error e, s') => (Except.error e, s')

instance : Monad (Prog ε σ) where
  pure := ret
  bind := andThen

def fail (e : ε) : Prog ε σ α :=
  fun s => (Except.error e, s)

def gets (f : σ -> α) : Prog ε σ α :=
  fun s => (Except.ok (f s), s)

def modify (f : σ -> σ) : Prog ε σ Unit :=
  fun s => (Except.ok (), f s)

/-- A result that was computed without looking at the state. -/
def lift (r : Except ε α) : Prog ε σ α :=
  fun s => (r, s)

@[simp] theorem pure_apply (a : α) (s : σ) :
    (pure a : Prog ε σ α) s = (Except.ok a, s) := rfl

theorem bind_apply (m : Prog ε σ α) (f : α -> Prog ε σ β) (s : σ) :
    (m >>= f) s =
      match m s with
      | (Except.ok a, s') => f a s'
      | (Except.error e, s') => (Except.error e, s') := rfl

@[simp] theorem fail_apply (e : ε) (s : σ) :
    (fail e : Prog ε σ α) s = (Except.error e, s) := rfl

@[simp] theorem gets_apply (f : σ -> α) (s : σ) :
    (gets f : Prog ε σ α) s = (Except.ok (f s), s) := rfl

@[simp] theorem modify_apply (f : σ -> σ) (s : σ) :
    (modify f : Prog ε σ Unit) s = (Except.ok (), f s) := rfl

@[simp] theorem lift_apply (r : Except ε α) (s : σ) :
    (lift r : Prog ε σ α) s = (r, s) := rfl

theorem lift_bind_lift (r : Except ε α) (f : α -> Except ε β) :
    (lift r >>= fun a => lift (f a) : Prog ε σ β) = lift (r >>= f) := by
  cases r with
  | error e =>
      rfl
  | ok a =>
      rfl

theorem bind_of_ok {m : Prog ε σ α} {f : α -> Prog ε σ β} {s s' : σ} {a : α}
    (h : m s = (Except.ok a, s')) : (m >>= f) s = f a s' := by
  rw [bind_apply, h]

theorem bind_of_error {m : Prog ε σ α} {f : α -> Prog ε σ β} {s s' : σ} {e : ε}
    (h : m s = (Except.error e, s')) :
    (m >>= f) s = (Except.error e, s') := by
  rw [bind_apply, h]

/-- A sequence that returns has returned from each of its two parts. -/
theorem bind_eq_ok {m : Prog ε σ α} {f : α -> Prog ε σ β} {s s'' : σ} {b : β}
    (h : (m >>= f) s = (Except.ok b, s'')) :
    exists a s', m s = (Except.ok a, s') ∧ f a s' = (Except.ok b, s'') := by
  rw [bind_apply] at h
  rcases hm : m s with ⟨r, s'⟩
  rw [hm] at h
  cases r with
  | ok a =>
      exact ⟨a, s', rfl, h⟩
  | error e =>
      simp at h

instance : LawfulMonad (Prog ε σ) :=
  LawfulMonad.mk' (Prog ε σ)
    (by
      intro α x
      funext s
      change andThen x ret s = x s
      unfold andThen
      rcases x s with ⟨r, s'⟩
      cases r <;> rfl)
    (by
      intro α β x f
      rfl)
    (by
      intro α β γ x f g
      funext s
      rw [bind_apply, bind_apply, bind_apply]
      rcases x s with ⟨r, s'⟩
      cases r <;> rfl)

/-!
## Programs whose result does not depend on the state
-/

/--
From every state in `I` the program gives the result `r` and ends in
a state in `J`, whether `r` is a value or an error.
-/
def Computes (I J : σ -> Prop) (m : Prog ε σ α) (r : Except ε α) : Prop :=
  forall s, I s -> (m s).1 = r ∧ J (m s).2

theorem computes_pure {I : σ -> Prop} (a : α) :
    Computes I I (pure a : Prog ε σ α) (Except.ok a) := by
  intro s hs
  exact ⟨rfl, hs⟩

theorem computes_lift {I : σ -> Prop} (r : Except ε α) :
    Computes I I (lift r : Prog ε σ α) r := by
  intro s hs
  exact ⟨rfl, hs⟩

theorem Computes.mono {I I' J J' : σ -> Prop} {m : Prog ε σ α} {r : Except ε α}
    (h : Computes I J m r) (hI : forall s, I' s -> I s)
    (hJ : forall s, J s -> J' s) : Computes I' J' m r := by
  intro s hs
  rcases h s (hI s hs) with ⟨hr, hs'⟩
  exact ⟨hr, hJ _ hs'⟩

theorem Computes.bind {I J K : σ -> Prop} {m : Prog ε σ α}
    {f : α -> Prog ε σ β} {r : Except ε α} {g : α -> Except ε β}
    (hm : Computes I J m r)
    (hf : forall a, r = Except.ok a -> Computes J K (f a) (g a))
    (hJK : forall s, J s -> K s) :
    Computes I K (m >>= f) (r >>= g) := by
  intro s hs
  rcases hm s hs with ⟨hr, hs'⟩
  rw [bind_apply]
  rcases hms : m s with ⟨res, s'⟩
  rw [hms] at hr hs'
  simp only at hr hs'
  cases res with
  | ok a =>
      subst hr
      exact hf a rfl s' hs'
  | error e =>
      subst hr
      exact ⟨rfl, hJK s' hs'⟩

theorem Computes.bind_error {I J K : σ -> Prop} {m : Prog ε σ α}
    {f : α -> Prog ε σ β} {e : ε} (hm : Computes I J m (Except.error e))
    (hJK : forall s, J s -> K s) :
    Computes I K (m >>= f) (Except.error e) := by
  intro s hs
  rcases hm s hs with ⟨hr, hs'⟩
  rcases hms : m s with ⟨res, s'⟩
  rw [hms] at hr hs'
  simp only at hr hs'
  subst hr
  rw [bind_of_error hms]
  exact ⟨rfl, hJK s' hs'⟩

theorem Computes.bind_ok {I J K : σ -> Prop} {m : Prog ε σ α}
    {f : α -> Prog ε σ β} {a : α} {r : Except ε β}
    (hm : Computes I J m (Except.ok a)) (hf : Computes J K (f a) r) :
    Computes I K (m >>= f) r := by
  intro s hs
  rcases hm s hs with ⟨hr, hs'⟩
  rcases hms : m s with ⟨res, s'⟩
  rw [hms] at hr hs'
  simp only at hr hs'
  subst hr
  rw [bind_of_ok hms]
  exact hf s' hs'

/-- The rule for a sequence whose first part computes the image of a result. -/
theorem Computes.bind_map {γ : Type} {I J K : σ -> Prop} {m : Prog ε σ β}
    {f : β -> Prog ε σ γ} {r : Except ε α} {g : α -> β} {h : α -> Except ε γ}
    (hm : Computes I J m (r.map g))
    (hf : forall a, r = Except.ok a -> Computes J K (f (g a)) (h a))
    (hJK : forall s, J s -> K s) :
    Computes I K (m >>= f) (r >>= h) := by
  cases r with
  | error e =>
      exact Computes.bind_error hm hJK
  | ok a =>
      exact Computes.bind_ok hm (hf a rfl)

/-!
## Programs that keep an invariant
-/

/-- Whatever it returns, the program leads from states in `I` to states in `I`. -/
def Keeps (I : σ -> Prop) (m : Prog ε σ α) : Prop :=
  forall s, I s -> I (m s).2

theorem Computes.keeps {I : σ -> Prop} {m : Prog ε σ α} {r : Except ε α}
    (h : Computes I I m r) : Keeps I m := by
  intro s hs
  exact (h s hs).2

theorem keeps_pure {I : σ -> Prop} (a : α) : Keeps I (pure a : Prog ε σ α) := by
  intro s hs
  exact hs

theorem keeps_lift {I : σ -> Prop} (r : Except ε α) :
    Keeps I (lift r : Prog ε σ α) := by
  intro s hs
  exact hs

theorem Keeps.bind {I : σ -> Prop} {m : Prog ε σ α} {f : α -> Prog ε σ β}
    (hm : Keeps I m) (hf : forall a, Keeps I (f a)) : Keeps I (m >>= f) := by
  intro s hs
  have hs' := hm s hs
  rw [bind_apply]
  rcases hms : m s with ⟨r, s'⟩
  rw [hms] at hs'
  cases r with
  | ok a =>
      exact hf a s' hs'
  | error e =>
      exact hs'

/-!
## Programs that run in step
-/

section Simulation

variable {τ κ : Type} {R : σ -> τ -> Prop}

/-- From related states both programs give one result and end in related states. -/
def Simulates (R : σ -> τ -> Prop) (m : Prog ε σ α) (m' : Prog ε τ α) : Prop :=
  forall s t, R s t -> (m s).1 = (m' t).1 ∧ R (m s).2 (m' t).2

theorem simulates_pure (a : α) :
    Simulates R (pure a : Prog ε σ α) (pure a : Prog ε τ α) := by
  intro s t h
  exact ⟨rfl, h⟩

theorem simulates_lift (r : Except ε α) :
    Simulates R (lift r : Prog ε σ α) (lift r : Prog ε τ α) := by
  intro s t h
  exact ⟨rfl, h⟩

theorem Simulates.bind {m : Prog ε σ α} {m' : Prog ε τ α} {f : α -> Prog ε σ β}
    {f' : α -> Prog ε τ β} (hm : Simulates R m m')
    (hf : forall a, Simulates R (f a) (f' a)) :
    Simulates R (m >>= f) (m' >>= f') := by
  intro s t h
  have hst := hm s t h
  rw [bind_apply, bind_apply]
  rcases hms : m s with ⟨r, s'⟩
  rcases hmt : m' t with ⟨r', t'⟩
  rw [hms, hmt] at hst
  rcases hst with ⟨hr, hR⟩
  change r = r' at hr
  subst hr
  cases r with
  | ok a =>
      exact hf a s' t' hR
  | error e =>
      exact ⟨rfl, hR⟩

theorem simulates_gets {f : σ -> α} {g : τ -> α}
    (h : forall s t, R s t -> f s = g t) :
    Simulates R (gets f : Prog ε σ α) (gets g : Prog ε τ α) := by
  intro s t hst
  exact ⟨congrArg Except.ok (h s t hst), hst⟩

theorem simulates_modify {f : σ -> σ} {g : τ -> τ}
    (h : forall s t, R s t -> R (f s) (g t)) :
    Simulates R (modify f : Prog ε σ Unit) (modify g : Prog ε τ Unit) := by
  intro s t hst
  exact ⟨rfl, h s t hst⟩

/-- A write that brings two states closer together for the rest of a program. -/
theorem Simulates.after_modify {S : σ -> τ -> Prop} {f : σ -> σ} {g : τ -> τ}
    {m : Prog ε σ α} {m' : Prog ε τ α} (hm : Simulates S m m')
    (h : forall s t, R s t -> S (f s) (g t)) (hS : forall s t, S s t -> R s t) :
    Simulates R (modify f >>= fun _ => m) (modify g >>= fun _ => m') := by
  intro s t hst
  rw [bind_of_ok (modify_apply f s), bind_of_ok (modify_apply g t)]
  rcases hm _ _ (h s t hst) with ⟨hresult, hstate⟩
  exact ⟨hresult, hS _ _ hstate⟩

/-- To keep an invariant is to run in step with oneself inside of it. -/
theorem simulates_self {I : σ -> Prop} {m : Prog ε σ α} :
    Simulates (fun s t => s = t ∧ I s) m m ↔ Keeps I m := by
  constructor
  · intro h s hs
    exact (h s s ⟨rfl, hs⟩).2.2
  · rintro h s t ⟨rfl, hs⟩
    exact ⟨rfl, rfl, h s hs⟩

/-- Call a program and write down what it was called with. -/
def recording (f : κ -> Prog ε σ α) (k : κ) : Prog ε (σ × List κ) α :=
  fun s => ((f k s.1).1, ((f k s.1).2, s.2 ++ [k]))

/--
The recorded calls make no difference, and what the calls with arguments in
`H` keep is kept when all recorded arguments are in `H`.
-/
theorem recording_simulates {f : κ -> Prog ε σ α} {I : σ -> Prop} {H : κ -> Prop}
    (h : forall k, H k -> Keeps I (f k)) (k : κ) :
    Simulates (fun s t => s.1 = t ∧ ((forall k, k ∈ s.2 -> H k) -> I t))
      (recording f k) (f k) := by
  rintro s t ⟨rfl, hI⟩
  refine ⟨rfl, rfl, ?_⟩
  intro hall
  have hs : I s.1 := hI fun k hk => hall k (List.mem_append_left _ hk)
  exact h k (hall k (List.mem_append_right _ (List.mem_singleton_self k))) s.1 hs

end Simulation

end Prog

theorem ok_bind {ε α β : Type} (a : α) (f : α -> Except ε β) :
    (Except.ok a >>= f) = f a := rfl

theorem except_bind_eq_ok {ε α β : Type} {x : Except ε α} {f : α -> Except ε β}
    {b : β} :
    (x >>= f) = Except.ok b ↔ exists a, x = Except.ok a ∧ f a = Except.ok b := by
  cases x with
  | error e =>
      simp [bind, Except.bind]
  | ok a =>
      simp [bind, Except.bind]

theorem except_map_eq_ok {ε α β : Type} {x : Except ε α} {f : α -> β} {b : β} :
    x.map f = Except.ok b ↔ exists a, x = Except.ok a ∧ f a = b := by
  cases x with
  | error e =>
      simp [Except.map]
  | ok a =>
      simp [Except.map]

/-!
## Outcomes of a result

`Yields P E r` says what a result that is a value satisfies and which errors it
can be.
-/

/-- A value satisfies `P`, an error satisfies `E`. -/
def Yields {ε α : Type} (P : α -> Prop) (E : ε -> Prop) : Except ε α -> Prop
  | Except.ok a => P a
  | Except.error e => E e

namespace Yields

variable {ε α β : Type} {E : ε -> Prop}

theorem mono {P P' : α -> Prop} {E' : ε -> Prop} {r : Except ε α}
    (h : Yields P E r) (hP : forall a, P a -> P' a) (hE : forall e, E e -> E' e) :
    Yields P' E' r := by
  cases r with
  | ok a =>
      exact hP a h
  | error e =>
      exact hE e h

/-- What is to be shown of a value may use where it came from. -/
theorem mono_eq {P P' : α -> Prop} {r : Except ε α} (h : Yields P E r)
    (hP : forall a, r = Except.ok a -> P' a) : Yields P' E r := by
  cases r with
  | ok a =>
      exact hP a rfl
  | error e =>
      exact h

theorem bind {P : α -> Prop} {Q : β -> Prop} {r : Except ε α}
    {f : α -> Except ε β} (h : Yields P E r)
    (hf : forall a, P a -> Yields Q E (f a)) : Yields Q E (r >>= f) := by
  cases r with
  | ok a =>
      exact hf a h
  | error e =>
      exact h

theorem map {P : α -> Prop} {Q : β -> Prop} {r : Except ε α} {f : α -> β}
    (h : Yields P E r) (hf : forall a, P a -> Q (f a)) : Yields Q E (r.map f) := by
  cases r with
  | ok a =>
      exact hf a h
  | error e =>
      exact h

theorem of_eq_ok {P : α -> Prop} {r : Except ε α} {a : α} (h : Yields P E r)
    (hr : r = Except.ok a) : P a := by
  subst hr
  exact h

theorem exists_ok {P : α -> Prop} {r : Except ε α}
    (h : Yields P (fun _ : ε => False) r) : exists a, r = Except.ok a ∧ P a := by
  cases r with
  | ok a =>
      exact ⟨a, rfl, h⟩
  | error e =>
      exact absurd h id

/-- The rule for a counting loop: what one round keeps, all rounds keep. -/
theorem foldlM_range (step : β -> Nat -> Except ε β) (init : β)
    (Inv : Nat -> β -> Prop) (n : Nat) (hinit : Inv 0 init)
    (hstep : forall i b, i < n -> Inv i b -> Yields (Inv (i + 1)) E (step b i)) :
    Yields (Inv n) E ((List.range n).foldlM step init) := by
  induction n with
  | zero =>
      exact hinit
  | succ n ih =>
      rw [List.range_succ, List.foldlM_append]
      refine bind (ih fun i b hi => hstep i b (by omega)) fun b hb => ?_
      have hlast := hstep n b (by omega) hb
      simpa using hlast

end Yields

/-!
## Two results side by side
-/

/-- Two values that are related, or the same error twice. -/
def Agree {ε α β : Type} (R : α -> β -> Prop) : Except ε α -> Except ε β -> Prop
  | Except.ok a, Except.ok b => R a b
  | Except.error e, Except.error e' => e = e'
  | _, _ => False

namespace Agree

variable {ε α β γ δ : Type} {R : α -> β -> Prop} {S : γ -> δ -> Prop}

theorem bind {x : Except ε α} {y : Except ε β} {f : α -> Except ε γ}
    {g : β -> Except ε δ} (h : Agree R x y)
    (hfg : forall a b, R a b -> Agree S (f a) (g b)) :
    Agree S (x >>= f) (y >>= g) := by
  cases x with
  | ok a =>
      cases y with
      | ok b =>
          exact hfg a b h
      | error e =>
          exact absurd h id
  | error e =>
      cases y with
      | ok b =>
          exact absurd h id
      | error e' =>
          exact h

/-- The rule for a sequence whose first part is the same on both sides. -/
theorem bind_same {x : Except ε α} {f : α -> Except ε γ} {g : α -> Except ε δ}
    (hfg : forall a, Agree S (f a) (g a)) : Agree S (x >>= f) (x >>= g) := by
  cases x with
  | ok a =>
      exact hfg a
  | error e =>
      exact rfl

/-- The rule for two loops over the same list. -/
theorem foldlM {κ : Type} {f : α -> κ -> Except ε α} {g : β -> κ -> Except ε β}
    (l : List κ) (hfg : forall k a b, R a b -> Agree R (f a k) (g b k))
    {a : α} {b : β} (h : R a b) : Agree R (l.foldlM f a) (l.foldlM g b) := by
  induction l generalizing a b with
  | nil =>
      exact h
  | cons k l ih =>
      rw [List.foldlM_cons, List.foldlM_cons]
      exact (hfg k a b h).bind fun a' b' h' => ih h'

theorem ok_left {x : Except ε α} {y : Except ε β} {a : α} (h : Agree R x y)
    (hx : x = Except.ok a) : exists b, y = Except.ok b ∧ R a b := by
  subst hx
  cases y with
  | ok b =>
      exact ⟨b, rfl, h⟩
  | error e =>
      exact absurd h id

theorem ok_right {x : Except ε α} {y : Except ε β} {b : β} (h : Agree R x y)
    (hy : y = Except.ok b) : exists a, x = Except.ok a ∧ R a b := by
  subst hy
  cases x with
  | ok a =>
      exact ⟨a, rfl, h⟩
  | error e =>
      exact absurd h id

end Agree

/-- The rule for a sequence of programs, said of its outcomes. -/
theorem Prog.yields_bind {ε σ α β : Type} {P : α -> Prop} {Q : β -> Prop}
    {E : ε -> Prop} {m : Prog ε σ α} {f : α -> Prog ε σ β} {s : σ}
    (hm : Yields P E (m s).1)
    (hf : forall a s', P a -> m s = (Except.ok a, s') -> Yields Q E (f a s').1) :
    Yields Q E ((m >>= f) s).1 := by
  rcases hms : m s with ⟨r, s'⟩
  rw [hms] at hm
  cases r with
  | ok a =>
      rw [bind_of_ok hms]
      exact hf a s' hm hms
  | error e =>
      rw [bind_of_error hms]
      exact hm

end VoiceTts
