import VoiceTts.Lib.BestPath
import VoiceTts.Segmenter.Dictionary

/-!
# The most likely statuses

A hidden Markov model gives each rune of a range one of four statuses.  `Viterbi` goes
through the runes once, keeps for each status the weight of the best sequence that
ends in it and the status before, and reads the statuses back from the last rune.
-/

namespace VoiceTts
namespace Cppjieba

open Tiling PreFilter

/-- Beginning, end and middle of a word, and a word of its own. -/
inductive Status where
  | B
  | E
  | M
  | S
deriving DecidableEq, Repr

namespace Status

/-- The statuses in the order of their numbers. -/
def all : List Status :=
  [B, E, M, S]

/-- `status % 2`: the numbers of `E` and `S` are odd. -/
def ends : Status -> Bool
  | B => false
  | E => true
  | M => false
  | S => true

theorem mem_all (s : Status) : s ∈ all := by
  cases s with
  | B =>
      decide
  | E =>
      decide
  | M =>
      decide
  | S =>
      decide

end Status

structure HMMModel (W : Type) where
  startProb : Status -> W
  transProb : Status -> Status -> W
  emitProbVec : Status -> StdMap Rune W

variable {W : Type}

/-- What `weight` and `path` have for one rune. -/
structure Column (W : Type) where
  B : W × Option Status
  E : W × Option Status
  M : W × Option Status
  S : W × Option Status

namespace Column

def get (c : Column W) : Status -> W × Option Status
  | Status.B => c.B
  | Status.E => c.E
  | Status.M => c.M
  | Status.S => c.S

def of (f : Status -> W × Option Status) : Column W where
  B := f Status.B
  E := f Status.E
  M := f Status.M
  S := f Status.S

@[simp] theorem get_of (f : Status -> W × Option Status) (s : Status) :
    (of f).get s = f s := by
  cases s with
  | B =>
      rfl
  | E =>
      rfl
  | M =>
      rfl
  | S =>
      rfl

end Column

def HMMModel.GetEmitProb (_model : HMMModel W) (mp : StdMap Rune W) (key : Rune)
    (defVal : W) : W :=
  (mp.find key).getD defVal

variable [Double W]

/-- The emission of a rune by a status; a rune that is not listed has the least one. -/
def HMMModel.emit (model : HMMModel W) (s : Status) (r : RuneStr) : W :=
  model.GetEmitProb (model.emitProbVec s) r.rune MIN_DOUBLE

def startColumn (model : HMMModel W) (r : RuneStr) : Column W :=
  Column.of fun y => (model.startProb y + model.emit y r, none)

/-- The weight of a status when `preY` comes before it. -/
def stepValue (model : HMMModel W) (old : Column W) (r : RuneStr) (y preY : Status) : W :=
  (old.get preY).1 + model.transProb preY y + model.emit y r

/-- The loop over `preY`; the path is `E` until something exceeds `MIN_DOUBLE`. -/
def nextColumn (model : HMMModel W) (old : Column W) (r : RuneStr) : Column W :=
  Column.of fun y =>
    Status.all.foldl
      (fun now preY =>
        let tmp := stepValue model old r y preY
        if now.1 < tmp then (tmp, some preY) else now)
      (MIN_DOUBLE, some Status.E)

/-- The loop over the runes; the columns before the last one stand in reverse. -/
def sweep (model : HMMModel W) :
    Column W -> List (Column W) -> List RuneStr -> Column W × List (Column W)
  | col, behind, [] => (col, behind)
  | col, behind, r :: rest => sweep model (nextColumn model col r) (col :: behind) rest

/-- The last loop: the statuses are read back along the paths. -/
def readBack : List (Column W) -> Status -> List Status -> List Status
  | [], _, status => status
  | col :: behind, stat, status =>
      readBack behind ((col.get stat).2.getD Status.E) (stat :: status)

/-- The statuses of a range; `InternalCut` has no empty one. -/
def Viterbi (model : HMMModel W) : List RuneStr -> List Status
  | [] => []
  | r :: rest =>
      let cols := sweep model (startColumn model r) [] rest
      let endE := (cols.1.get Status.E).1
      let endS := (cols.1.get Status.S).1
      readBack (cols.1 :: cols.2) (if endE ≥ endS then Status.E else Status.S) []

/-!
## The most likely statuses
-/

/-- The likelihood of statuses that go on from `s`, step by step from the left. -/
def likelihoodFrom (model : HMMModel W) : W -> Status -> List RuneStr -> List Status -> W
  | w, s, r :: rest, t :: status =>
      likelihoodFrom model (max MIN_DOUBLE (w + model.transProb s t + model.emit t r)) t
        rest status
  | w, _, _, _ => w

/-- The likelihood of statuses; after the first rune nothing counts less than `MIN_DOUBLE`. -/
def likelihood (model : HMMModel W) : List RuneStr -> List Status -> W
  | r :: rest, s :: status =>
      likelihoodFrom model (model.startProb s + model.emit s r) s rest status
  | _, _ => 0

theorem foldl_pick_status (val : Status -> W) (ys : List Status) (best : Option Status × W) :
    ys.foldl (fun now preY =>
        let tmp := val preY
        if now.1 < tmp then (tmp, some preY) else now) (best.2, some (best.1.getD Status.E)) =
      ((ys.foldl (pickStep val) best).2,
        some ((ys.foldl (pickStep val) best).1.getD Status.E)) := by
  induction ys generalizing best with
  | nil =>
      rfl
  | cons y ys ih =>
      rw [List.foldl_cons, List.foldl_cons, pickStep]
      dsimp only
      by_cases hlt : best.2 < val y
      · rw [if_pos hlt, if_pos hlt]
        exact ih (some y, val y)
      · rw [if_neg hlt, if_neg hlt]
        exact ih best

section Optimal

variable {model : HMMModel W}

theorem get_nextColumn (old : Column W) (r : RuneStr) (y : Status) :
    (nextColumn model old r).get y =
      ((pick (stepValue model old r y) MIN_DOUBLE Status.all).2,
        some ((pick (stepValue model old r y) MIN_DOUBLE Status.all).1.getD Status.E)) := by
  unfold nextColumn
  rw [Column.get_of]
  exact foldl_pick_status (stepValue model old r y) Status.all (none, MIN_DOUBLE)

/-- Each status before gives no more than the weight that is noted. -/
theorem le_nextColumn (old : Column W) (r : RuneStr) (y preY : Status) :
    max MIN_DOUBLE (stepValue model old r y preY) ≤ ((nextColumn model old r).get y).1 := by
  rw [get_nextColumn]
  exact le_pick _ _ (Status.mem_all preY)

/-- The status on the path gives the weight that is noted. -/
theorem nextColumn_attained (model : HMMModel W) (old : Column W) (r : RuneStr) (y : Status) :
    exists preY, ((nextColumn model old r).get y).2 = some preY ∧
      ((nextColumn model old r).get y).1 =
        max MIN_DOUBLE (stepValue model old r y preY) := by
  rw [get_nextColumn]
  refine ⟨_, rfl, ?_⟩
  cases hpick : (pick (stepValue model old r y) MIN_DOUBLE Status.all).1 with
  | none =>
      exact (max_floor_of_not_picked hpick (Status.mem_all Status.E)).symm
  | some preY =>
      exact (max_floor_of_picked hpick).2.symm

theorem likelihoodFrom_le (model : HMMModel W) (rest : List RuneStr) (status : List Status)
    (hlength : status.length = rest.length) (col : Column W) (behind : List (Column W))
    {w : W} {s : Status} (hw : w ≤ (col.get s).1) :
    likelihoodFrom model w s rest status ≤
      ((sweep model col behind rest).1.get (status.getLastD s)).1 := by
  induction rest generalizing status col behind w s with
  | nil =>
      rw [List.length_nil, List.length_eq_zero_iff] at hlength
      subst hlength
      exact hw
  | cons r rest ih =>
      cases status with
      | nil =>
          cases hlength
      | cons t status =>
          rw [likelihoodFrom, sweep, List.getLastD_cons]
          refine ih status (Nat.succ.inj hlength) _ _ ?_
          refine le_trans ?_ (le_nextColumn col r t s)
          exact max_le_max le_rfl
            (Double.add_le_add _ _ _ (Double.add_le_add _ _ _ hw))

omit [Double W] in
theorem readBack_append (cols : List (Column W)) (stat : Status) (status : List Status) :
    readBack cols stat status = readBack cols stat [] ++ status := by
  induction cols generalizing stat status with
  | nil =>
      rfl
  | cons col cols ih =>
      rw [readBack, readBack, ih, ih _ [stat], List.append_assoc, List.singleton_append]

theorem likelihoodFrom_concat (rest : List RuneStr) (status : List Status)
    (hlength : status.length = rest.length) (r : RuneStr) (t : Status) (w : W) (s : Status) :
    likelihoodFrom model w s (rest ++ [r]) (status ++ [t]) =
      max MIN_DOUBLE (likelihoodFrom model w s rest status +
        model.transProb (status.getLastD s) t + model.emit t r) := by
  induction rest generalizing status w s with
  | nil =>
      rw [List.length_nil, List.length_eq_zero_iff] at hlength
      subst hlength
      rfl
  | cons r' rest ih =>
      cases status with
      | nil =>
          cases hlength
      | cons s' status =>
          rw [List.cons_append, List.cons_append, likelihoodFrom, likelihoodFrom,
            List.getLastD_cons]
          exact ih status (Nat.succ.inj hlength) _ _

theorem likelihood_concat {seen : List RuneStr} {status : List Status} {s : Status}
    (hlength : status.length = seen.length) (hlast : status.getLast? = some s)
    (r : RuneStr) (t : Status) :
    likelihood model (seen ++ [r]) (status ++ [t]) =
      max MIN_DOUBLE (likelihood model seen status + model.transProb s t +
        model.emit t r) := by
  cases seen with
  | nil =>
      rw [List.length_nil, List.length_eq_zero_iff] at hlength
      subst hlength
      cases hlast
  | cons r' seen =>
      cases status with
      | nil =>
          cases hlength
      | cons s' status =>
          rw [List.getLast?_cons, Option.some.injEq, ← List.getLastD_eq_getLast?] at hlast
          rw [← hlast]
          exact likelihoodFrom_concat seen status (Nat.succ.inj hlength) r t _ s'

/-- For every last status the statuses read back have the weight that is noted. -/
def Attains (model : HMMModel W) (seen : List RuneStr) (col : Column W)
    (behind : List (Column W)) : Prop :=
  forall t, (readBack (col :: behind) t []).length = seen.length ∧
    (readBack (col :: behind) t []).getLast? = some t ∧
    likelihood model seen (readBack (col :: behind) t []) = (col.get t).1

theorem attains_start (model : HMMModel W) (r : RuneStr) :
    Attains model [r] (startColumn model r) [] := by
  intro t
  refine ⟨rfl, rfl, ?_⟩
  unfold startColumn
  rw [Column.get_of]
  rfl

theorem Attains.next {seen : List RuneStr} {col : Column W} {behind : List (Column W)}
    (h : Attains model seen col behind) (r : RuneStr) :
    Attains model (seen ++ [r]) (nextColumn model col r) (col :: behind) := by
  intro t
  rcases nextColumn_attained model col r t with ⟨s, hpath, hweight⟩
  have hback : readBack (nextColumn model col r :: col :: behind) t [] =
      readBack (col :: behind) s [] ++ [t] := by
    rw [readBack, hpath, Option.getD_some]
    exact readBack_append _ _ _
  have hold := h s
  rw [hback]
  refine ⟨?_, ?_, ?_⟩
  · rw [List.length_append, List.length_append, hold.1]
    rfl
  · rw [List.getLast?_append, List.getLast?_singleton]
    rfl
  · rw [likelihood_concat hold.1 hold.2.1, hold.2.2, hweight]
    rfl

theorem attains_sweep (rest : List RuneStr) {seen : List RuneStr} {col : Column W}
    {behind : List (Column W)} (h : Attains model seen col behind) :
    Attains model (seen ++ rest) (sweep model col behind rest).1
      (sweep model col behind rest).2 := by
  induction rest generalizing seen col behind with
  | nil =>
      rw [List.append_nil]
      exact h
  | cons r rest ih =>
      have hrest := ih (h.next r)
      rw [List.append_assoc] at hrest
      exact hrest

theorem attains_columns (model : HMMModel W) (r : RuneStr) (rest : List RuneStr) :
    Attains model (r :: rest) (sweep model (startColumn model r) [] rest).1
      (sweep model (startColumn model r) [] rest).2 :=
  attains_sweep rest (attains_start model r)

/-- The last rune of a range ends a word. -/
theorem Viterbi_length_last (model : HMMModel W) {text : List RuneStr} (h : text ≠ []) :
    (Viterbi model text).length = text.length ∧
      ((Viterbi model text).getLast? = some Status.E ∨
        (Viterbi model text).getLast? = some Status.S) := by
  cases text with
  | nil =>
      exact absurd rfl h
  | cons r rest =>
      have hattains := attains_columns model r rest
      unfold Viterbi
      dsimp only
      split
      · exact ⟨(hattains Status.E).1, Or.inl (hattains Status.E).2.1⟩
      · exact ⟨(hattains Status.S).1, Or.inr (hattains Status.S).2.1⟩

/-- No sequence of statuses in which the last rune ends a word is more likely. -/
theorem likelihood_le_Viterbi (model : HMMModel W) (text : List RuneStr)
    (status : List Status) (hlength : status.length = text.length)
    (hlast : status.getLast? = some Status.E ∨ status.getLast? = some Status.S) :
    likelihood model text status ≤ likelihood model text (Viterbi model text) := by
  cases text with
  | nil =>
      rw [List.length_nil, List.length_eq_zero_iff] at hlength
      subst hlength
      exact le_rfl
  | cons r rest =>
      cases status with
      | nil =>
          cases hlength
      | cons s status =>
          have hattains := attains_columns model r rest
          have hstart : model.startProb s + model.emit s r ≤
              ((startColumn model r).get s).1 := by
            unfold startColumn
            rw [Column.get_of]
          have hbound := likelihoodFrom_le model rest status (Nat.succ.inj hlength)
            (startColumn model r) [] hstart
          rw [List.getLast?_cons, ← List.getLastD_eq_getLast?, Option.some.injEq,
            Option.some.injEq] at hlast
          refine hbound.trans ?_
          unfold Viterbi
          dsimp only
          split
          · rename_i hge
            rw [(hattains Status.E).2.2]
            rcases hlast with hE | hS
            · rw [hE]
            · rw [hS]
              exact hge
          · rename_i hlt
            rw [(hattains Status.S).2.2]
            rcases hlast with hE | hS
            · rw [hE]
              exact (not_le.mp hlt).le
            · rw [hS]

/--
What `Viterbi` reads back has a status for each rune, the last one ends a word, and no
other row of statuses of this kind is more likely.
-/
theorem Viterbi_optimal (model : HMMModel W) (text : List RuneStr) (h : text ≠ []) :
    ((Viterbi model text).length = text.length ∧
        ((Viterbi model text).getLast? = some Status.E ∨
          (Viterbi model text).getLast? = some Status.S)) ∧
      forall status : List Status, status.length = text.length ->
        (status.getLast? = some Status.E ∨ status.getLast? = some Status.S) ->
        likelihood model text status ≤ likelihood model text (Viterbi model text) :=
  ⟨Viterbi_length_last model h, fun status hlength hlast =>
    likelihood_le_Viterbi model text status hlength hlast⟩

end Optimal

/-- The runes of 中国, and a model in which two runes make a word. -/
def country : List RuneStr :=
  [⟨0x4e2d, 0, 3, 0, 1⟩, ⟨0x56fd, 3, 3, 1, 1⟩]

def pairModel : HMMModel Int where
  startProb := fun s =>
    match s with
    | Status.B => -1
    | Status.S => -3
    | _ => MIN_DOUBLE
  transProb := fun s t =>
    match s, t with
    | Status.B, Status.E => -1
    | Status.B, Status.M => -4
    | Status.M, Status.E => -1
    | Status.M, Status.M => -4
    | Status.E, Status.B => -2
    | Status.E, Status.S => -2
    | Status.S, Status.B => -2
    | Status.S, Status.S => -2
    | _, _ => MIN_DOUBLE
  emitProbVec := fun _ => { find := fun _ => some (-2) }

theorem Viterbi_optimal_country :
    ((Viterbi pairModel country).length = 2 ∧
        ((Viterbi pairModel country).getLast? = some Status.E ∨
          (Viterbi pairModel country).getLast? = some Status.S)) ∧
      forall status : List Status, status.length = 2 ->
        (status.getLast? = some Status.E ∨ status.getLast? = some Status.S) ->
        likelihood pairModel country status ≤
          likelihood pairModel country (Viterbi pairModel country) :=
  Viterbi_optimal pairModel country (List.cons_ne_nil _ _)

end Cppjieba
end VoiceTts
