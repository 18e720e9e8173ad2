import VoiceTts.Segmenter.HMMSegment

/-!
# Words in a row of statuses

A word is a single `S`, or a `B` and an `E` with any number of `M` between them.  The
model says so by weights: what must not follow has one that is far below all others.
Such a step is never taken as long as there is any way at all around it.
-/

namespace VoiceTts
namespace Cppjieba

open Tiling PreFilter

namespace Status

/-- A word begins with `B` or `S`. -/
def begins : Status -> Bool
  | B => true
  | E => false
  | M => false
  | S => true

/-- What may come after a status: the rest of its word, or a new one. -/
def mayFollow (s t : Status) : Bool :=
  if s.ends then t.begins else !t.begins

/-- The two ends of a word tell the four statuses apart. -/
theorem eq_of_ends (s : Status) :
    s = if s.begins then (if s.ends then S else B) else if s.ends then E else M := by
  cases s
  all_goals rfl

end Status

variable {W : Type} [Double W]

/-- Logarithms of probabilities, where no weight of what cannot be is above `least`. -/
structure LogProbs (model : HMMModel W) (least : W) : Prop where
  start_le : forall s, model.startProb s ≤ 0
  trans_le : forall s t, model.transProb s t ≤ 0
  emit_le : forall s r, model.emit s r ≤ 0
  le_least : Double.MIN_DOUBLE ≤ least
  least_le : least ≤ 0
  start : forall s, s.begins = false -> model.startProb s ≤ least
  trans : forall s t, s.mayFollow t = false -> model.transProb s t ≤ least

/-!
## Steps that are not taken
-/

theorem add_le_left {a b : W} (h : b ≤ 0) : a + b ≤ a := by
  have hle := Double.add_le_add b 0 a h
  rw [Double.zero_add] at hle
  rw [Double.add_comm]
  exact hle

theorem add_le_right {a b : W} (h : a ≤ 0) : a + b ≤ b := by
  rw [Double.add_comm]
  exact add_le_left h

section Likely

variable {model : HMMModel W} {least : W} (h : LogProbs model least)

include h

/-- What is down at the least weight stays there. -/
theorem likelihoodFrom_least {w : W} (hw : w ≤ least) (s : Status)
    (rest : List RuneStr) (status : List Status) :
    likelihoodFrom model w s rest status ≤ least := by
  induction rest generalizing w s status with
  | nil =>
      rw [likelihoodFrom]
      · exact hw
      · intro _ _ _ _ hcons
        cases hcons
  | cons r rest ih =>
      cases status with
      | nil =>
          rw [likelihoodFrom]
          · exact hw
          · intro _ _ _ _ _ hcons
            cases hcons
      | cons t status =>
          rw [likelihoodFrom]
          refine ih (max_le h.le_least ?_) t status
          exact (add_le_left (h.emit_le t r)).trans
            ((add_le_left (h.trans_le s t)).trans hw)

/-- Statuses of some likelihood follow one another as they may. -/
theorem mayFollow_of_likely {w : W} (hw : w ≤ 0) (s : Status) (rest : List RuneStr)
    (status : List Status) (hlength : status.length = rest.length)
    (hlikely : least < likelihoodFrom model w s rest status) :
    List.IsChain (fun s t => Status.mayFollow s t = true) (s :: status) := by
  induction rest generalizing w s status with
  | nil =>
      rw [List.length_eq_zero_iff.mp hlength]
      exact List.isChain_singleton s
  | cons r rest ih =>
      cases status with
      | nil =>
          cases hlength
      | cons t status =>
          rw [likelihoodFrom] at hlikely
          have hstep : w + model.transProb s t + model.emit t r ≤ w + model.transProb s t :=
            add_le_left (h.emit_le t r)
          have hle : w + model.transProb s t ≤ 0 :=
            (add_le_left (h.trans_le s t)).trans hw
          refine List.isChain_cons_cons.mpr ⟨?_, ?_⟩
          · by_contra hnot
            have htrans := h.trans s t (eq_false_of_ne_true hnot)
            have hleast := likelihoodFrom_least h
              (max_le h.le_least (hstep.trans ((add_le_right hw).trans htrans))) t rest status
            exact absurd hlikely (not_lt_of_ge hleast)
          · exact ih (max_le (h.le_least.trans h.least_le) (hstep.trans hle)) t status
              (Nat.succ.inj hlength) hlikely

/-- A likely row of statuses begins a word and goes on as it may. -/
theorem chain_of_likely {text : List RuneStr} {status : List Status}
    (hlength : status.length = text.length)
    (hlikely : least < likelihood model text status) :
    List.IsChain (fun s t => Status.mayFollow s t = true) status ∧
      forall s, status.head? = some s -> s.begins = true := by
  cases text with
  | nil =>
      rw [List.length_eq_zero_iff.mp hlength]
      exact ⟨List.isChain_nil, fun s hs => by cases hs⟩
  | cons r rest =>
      cases status with
      | nil =>
          cases hlength
      | cons s status =>
          rw [likelihood] at hlikely
          have hstep : model.startProb s + model.emit s r ≤ model.startProb s :=
            add_le_left (h.emit_le s r)
          refine ⟨mayFollow_of_likely h (hstep.trans (h.start_le s)) s rest status
            (Nat.succ.inj hlength) hlikely, ?_⟩
          intro s' hs'
          cases hs'
          by_contra hnot
          have hleast := likelihoodFrom_least h
            (hstep.trans (h.start s (eq_false_of_ne_true hnot))) s rest status
          exact absurd hlikely (not_lt_of_ge hleast)

end Likely

/-!
## Words that are whole
-/

/-- The statuses of a word: `S`, or `B`, some `M` and `E`. -/
def Whole (st : Nat -> Status) (wr : WordRange) : Prop :=
  (wr.left = wr.right ∧ st wr.left = Status.S) ∨
    (wr.left < wr.right ∧ st wr.left = Status.B ∧ st wr.right = Status.E ∧
      forall k, wr.left < k -> k < wr.right -> st k = Status.M)

section Statuses

variable {st : Nat -> Status}

/-- Inside a word that has begun there are only `M`. -/
theorem inside_of_mayFollow {left i : Nat}
    (hbegins : (st left).begins = true)
    (hfollow : forall k, left ≤ k -> k < i -> (st k).mayFollow (st (k + 1)) = true)
    (hinside : forall k, left ≤ k -> k < i -> (st k).ends = false) :
    (left < i -> st left = Status.B ∧ (st i).begins = false) ∧
      forall k, left < k -> k < i -> st k = Status.M := by
  have hnext : forall k, left ≤ k -> k < i -> (st (k + 1)).begins = false := by
    intro k hk hki
    have hf := hfollow k hk hki
    unfold Status.mayFollow at hf
    rw [hinside k hk hki] at hf
    simpa using hf
  constructor
  · intro hlt
    constructor
    · have heq := Status.eq_of_ends (st left)
      rw [hbegins, hinside left (Nat.le_refl left) hlt] at heq
      exact heq
    · obtain ⟨d, rfl⟩ := Nat.exists_eq_add_of_lt hlt
      exact hnext (left + d) (Nat.le_add_right _ _) (Nat.lt_succ_self _)
  · intro k hk hki
    obtain ⟨d, rfl⟩ := Nat.exists_eq_add_of_lt hk
    have hb := hnext (left + d) (Nat.le_add_right _ _) (by omega)
    have heq := Status.eq_of_ends (st (left + d + 1))
    rw [hb, hinside (left + d + 1) (by omega) hki] at heq
    exact heq

theorem whole_wordsOfStatus (n : Nat) {left i : Nat} (hle : left ≤ i)
    (hbegins : 0 < n -> (st left).begins = true)
    (hfollow : forall k, left ≤ k -> k + 1 < i + n ->
      (st k).mayFollow (st (k + 1)) = true)
    (hinside : forall k, left ≤ k -> k < i -> (st k).ends = false) :
    forall wr, wr ∈ wordsOfStatus left i ((List.range' i n).map st) -> Whole st wr := by
  induction n generalizing left i with
  | zero =>
      intro wr hwr
      cases hwr
  | succ n ih =>
      rw [List.range'_succ, List.map_cons, wordsOfStatus]
      have hsum : i + 1 + n = i + (n + 1) := by
        omega
      have hsofar := inside_of_mayFollow (hbegins (Nat.succ_pos n))
        (fun k hk hki => hfollow k hk (by omega)) hinside
      split
      · rename_i hends
        intro wr hwr
        rcases List.mem_cons.mp hwr with rfl | hwr
        · rcases Nat.lt_or_eq_of_le hle with hlt | rfl
          · right
            have heq := Status.eq_of_ends (st i)
            rw [(hsofar.1 hlt).2, hends] at heq
            exact ⟨hlt, (hsofar.1 hlt).1, heq, hsofar.2⟩
          · left
            have heq := Status.eq_of_ends (st left)
            rw [hbegins (Nat.succ_pos n), hends] at heq
            exact ⟨rfl, heq⟩
        · refine ih (Nat.le_refl (i + 1)) ?_ ?_ ?_ wr hwr
          · intro hn
            have hf := hfollow i hle (by omega)
            unfold Status.mayFollow at hf
            rw [hends] at hf
            exact hf
          · intro k hk hki
            exact hfollow k (by omega) (by omega)
          · intro k hk hki
            omega
      · rename_i hends
        refine ih (Nat.le_succ_of_le hle) (fun _ => hbegins (Nat.succ_pos n)) ?_ ?_
        · intro k hk hki
          exact hfollow k hk (by omega)
        · intro k hk hki
          rcases Nat.lt_succ_iff_lt_or_eq.mp hki with hlt | rfl
          · exact hinside k hk hlt
          · exact eq_false_of_ne_true hends

end Statuses

/--
When some way to label a range is likely at all, the model cuts it into whole words: no
step that cannot be is on the path that is read back.
-/
theorem InternalCut_whole (model : HMMModel W) (least : W) (h : LogProbs model least)
    (runes : List RuneStr) (begin_ end_ : Nat) (hlt : begin_ < end_) (hle : end_ ≤ runes.length)
    (status : List Status) (hlength : status.length = end_ - begin_)
    (hlast : status.getLast? = some Status.E ∨ status.getLast? = some Status.S)
    (hlikely : least < likelihood model (slice runes begin_ end_) status) :
    forall wr, wr ∈ InternalCut model runes begin_ end_ ->
      Whole (fun k => (Viterbi model (slice runes begin_ end_)).getD (k - begin_) Status.S)
        wr := by
  have hslice := length_slice runes (i := begin_) hle
  have hne := slice_ne_nil hlt hle
  have hbest := likelihood_le_Viterbi model (slice runes begin_ end_) status
    (hlength.trans hslice.symm) hlast
  have hvlength := (Viterbi_length_last model hne).1
  have hchain := chain_of_likely h hvlength (lt_of_lt_of_le hlikely hbest)
  unfold InternalCut
  generalize Viterbi model (slice runes begin_ end_) = path at hvlength hchain ⊢
  rw [hslice] at hvlength
  have hpath : path = (List.range' begin_ (end_ - begin_)).map fun k =>
      path.getD (k - begin_) Status.S := by
    refine List.ext_getElem (by rw [List.length_map, List.length_range', hvlength]) ?_
    intro i hi _
    rw [List.getElem_map, List.getElem_range', Nat.one_mul, Nat.add_sub_cancel_left,
      List.getD_eq_getElem _ _ hi]
  have hfollow : forall k, begin_ ≤ k -> k + 1 < begin_ + (end_ - begin_) ->
      (path.getD (k - begin_) Status.S).mayFollow (path.getD (k + 1 - begin_) Status.S) =
        true := by
    intro k hk hki
    obtain ⟨d, rfl⟩ := Nat.exists_eq_add_of_le hk
    have hd : d + 1 < path.length := by
      omega
    rw [Nat.add_assoc, Nat.add_sub_cancel_left, Nat.add_sub_cancel_left,
      List.getD_eq_getElem _ _ (Nat.lt_of_succ_lt hd), List.getD_eq_getElem _ _ hd]
    exact List.isChain_iff_getElem.mp hchain.1 d hd
  have hbegins : 0 < end_ - begin_ ->
      (path.getD (begin_ - begin_) Status.S).begins = true := by
    intro hpos
    have hzero : 0 < path.length := by
      omega
    rw [Nat.sub_self, List.getD_eq_getElem _ _ hzero]
    exact hchain.2 _ (List.head?_eq_getElem? ▸ List.getElem?_eq_getElem hzero)
  have hwhole := whole_wordsOfStatus (end_ - begin_) (Nat.le_refl begin_) hbegins hfollow
    fun k hk hki => absurd hki (Nat.not_lt.mpr hk)
  rw [← hpath] at hwhole
  exact hwhole

theorem logProbs_pairModel : LogProbs pairModel Double.MIN_DOUBLE where
  start_le := by
    intro s
    cases s
    all_goals decide
  trans_le := by
    intro s t
    cases s
    all_goals cases t
    all_goals decide
  emit_le := by
    intro s r
    exact (by decide : (-2 : Int) ≤ 0)
  le_least := le_refl _
  least_le := by decide
  start := by
    intro s
    cases s
    all_goals decide
  trans := by
    intro s t
    cases s
    all_goals cases t
    all_goals decide

theorem InternalCut_whole_country :
    Double.MIN_DOUBLE < likelihood pairModel (slice country 0 2) [Status.B, Status.E] ∧
      forall wr, wr ∈ InternalCut pairModel country 0 2 ->
        Whole (fun k => (Viterbi pairModel (slice country 0 2)).getD (k - 0) Status.S) wr := by
  have hlikely : Double.MIN_DOUBLE <
      likelihood pairModel (slice country 0 2) [Status.B, Status.E] := by
    decide
  exact ⟨hlikely, InternalCut_whole pairModel _ logProbs_pairModel country 0 2 (by decide)
    (by decide) [Status.B, Status.E] rfl (Or.inl rfl) hlikely⟩

end Cppjieba
end VoiceTts
