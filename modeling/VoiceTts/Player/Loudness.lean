import VoiceTts.Player.Speech
import Mathlib.Data.Rat.Floor
import Mathlib.Tactic.Linarith

/-!
# The loudest sample

`maxwav` is the largest absolute value of all samples since the predictor was
made; neither `init` nor `releaseModel` takes it back.  Scaled by it, the samples
of the last segment fit into 16 bits, so the cast in `segToByte` cuts off the
fraction and nothing else.
-/

namespace VoiceTts

variable {Mel : Type}

/-!
## Calls of a predictor
-/

/-- A call from outside; every `init` may find other model files. -/
inductive Usage (Mel : Type) where
  | init (paddle : Paddle Mel) (r : Request)
  | releaseModel
  | runSegmentModel (phones : List Int)

def Usage.apply (p : Predictor Mel) : Usage Mel -> Predictor Mel
  | init paddle r => (p.init paddle r).2
  | releaseModel => p.releaseModel
  | runSegmentModel phones => (p.runSegmentModel phones).2

/-- The predictor after a sequence of calls. -/
def Predictor.use (p : Predictor Mel) (calls : List (Usage Mel)) : Predictor Mel :=
  calls.foldl Usage.apply p

/-- No sample of the last segment is louder than `maxwav`. -/
structure Predictor.Scaled (p : Predictor Mel) : Prop where
  positive : 0 < p.maxwav
  bound : forall wav, p.singlewav = some wav -> forall x, x ∈ wav -> |x| ≤ p.maxwav

/-!
## The running maximum
-/

theorem raiseMax_cons (m x : ℚ) (wav : List ℚ) :
    Predictor.raiseMax m (x :: wav) = Predictor.raiseMax (max m |x|) wav := by
  have habs : (if x < 0 then -1 * x else x) = |x| := by
    split
    case isTrue hx => rw [neg_one_mul, abs_of_neg hx]
    case isFalse hx => rw [abs_of_nonneg (not_lt.mp hx)]
  have hmax : (if |x| > m then |x| else m) = max m |x| := by
    split
    case isTrue hx => rw [max_eq_right hx.le]
    case isFalse hx => rw [max_eq_left (not_lt.mp hx)]
  simp only [Predictor.raiseMax, List.foldl_cons, habs, hmax]

/-- The maximum only grows, and it reaches every sample. -/
theorem raiseMax_spec (wav : List ℚ) :
    forall m, m ≤ Predictor.raiseMax m wav ∧
      forall x, x ∈ wav -> |x| ≤ Predictor.raiseMax m wav := by
  induction wav with
  | nil =>
      intro m
      exact ⟨le_refl m, fun x hx => nomatch hx⟩
  | cons y wav ih =>
      intro m
      obtain ⟨hgrow, hreach⟩ := ih (max m |y|)
      rw [raiseMax_cons]
      constructor
      · exact le_trans (le_max_left m |y|) hgrow
      · intro x hx
        cases hx with
        | head => exact le_trans (le_max_right m |y|) hgrow
        | tail _ hx => exact hreach x hx

theorem Predictor.new_scaled : (Predictor.new : Predictor Mel).Scaled where
  positive := by
    show (0 : ℚ) < 1 / 100
    norm_num
  bound := by
    intro wav hwav
    cases hwav

/-- `init` leaves the waveform and the maximum alone. -/
theorem Predictor.init_frame (paddle : Paddle Mel) (r : Request) (p : Predictor Mel) :
    (p.init paddle r).2.singlewav = p.singlewav ∧ (p.init paddle r).2.maxwav = p.maxwav := by
  unfold Predictor.init
  dsimp only
  split
  case isTrue => exact ⟨rfl, rfl⟩
  case isFalse =>
    split
    case isTrue => exact ⟨rfl, rfl⟩
    case isFalse => exact ⟨rfl, rfl⟩

theorem Predictor.Scaled.of_frame {p p' : Predictor Mel} (h : p.Scaled)
    (hframe : p'.singlewav = p.singlewav ∧ p'.maxwav = p.maxwav) : p'.Scaled where
  positive := by
    rw [hframe.2]
    exact h.positive
  bound := by
    rw [hframe.1, hframe.2]
    exact h.bound

theorem Predictor.Scaled.runSegmentModel {p : Predictor Mel} (h : p.Scaled)
    (phones : List Int) : (p.runSegmentModel phones).2.Scaled := by
  unfold Predictor.runSegmentModel
  cases p.loaded with
  | none => exact h
  | some models =>
      obtain ⟨am, voc⟩ := models
      have hspec := raiseMax_spec (voc (am phones [p.speakId])) p.maxwav
      constructor
      · exact lt_of_lt_of_le h.positive hspec.1
      · intro wav hwav
        injection hwav with hwav
        rw [← hwav]
        exact hspec.2

theorem Predictor.Scaled.apply {p : Predictor Mel} (h : p.Scaled) (call : Usage Mel) :
    (call.apply p).Scaled := by
  cases call with
  | init paddle r => exact h.of_frame (p.init_frame paddle r)
  | releaseModel => exact h.of_frame ⟨rfl, rfl⟩
  | runSegmentModel phones => exact h.runSegmentModel phones

theorem Predictor.Scaled.use {p : Predictor Mel} (h : p.Scaled) (calls : List (Usage Mel)) :
    (p.use calls).Scaled := by
  induction calls generalizing p with
  | nil => exact h
  | cons call calls ih => exact ih (h.apply call)

/-!
## Samples of 16 bits
-/

/-- The integer next to `x` on the side of zero. -/
def truncated (x : ℚ) : Int :=
  if x < 0 then ⌈x⌉ else ⌊x⌋

/-- Two bytes in two's complement, the low one first. -/
def readShort (low high : UInt8) : Int :=
  ((low.toNat + 256 * high.toNat : Int) + 32768) % 65536 - 32768

def readShorts : List UInt8 -> List Int
  | low :: high :: rest => readShort low high :: readShorts rest
  | _ => []

theorem tdiv_eq_truncated (x : ℚ) : x.num.tdiv x.den = truncated x := by
  unfold truncated
  split
  case isTrue hx =>
    have hnum : 0 ≤ -x.num := by
      rw [Left.nonneg_neg_iff]
      exact (Rat.num_neg.mpr hx).le
    rw [Rat.ceil_def', ← Int.tdiv_eq_ediv_of_nonneg hnum, Int.neg_tdiv, Int.neg_neg]
  case isFalse hx =>
    rw [Rat.floor_def', Int.tdiv_eq_ediv_of_nonneg (Rat.num_nonneg.mpr (not_lt.mp hx))]

theorem truncated_mem {x : ℚ} {n : Nat} (hlow : -(n : ℚ) ≤ x) (hhigh : x ≤ n) :
    -(n : Int) ≤ truncated x ∧ truncated x ≤ n := by
  have hlow' : ((-(n : Int) : Int) : ℚ) ≤ x := by
    rw [Int.cast_neg, Int.cast_natCast]
    exact hlow
  have hhigh' : x ≤ ((n : Int) : ℚ) := by
    rw [Int.cast_natCast]
    exact hhigh
  unfold truncated
  split
  case isTrue hx =>
    exact ⟨le_trans (Int.le_floor.mpr hlow') (Int.floor_le_ceil x), Int.ceil_le.mpr hhigh'⟩
  case isFalse hx =>
    exact ⟨Int.le_floor.mpr hlow', le_trans (Int.floor_le_ceil x) (Int.ceil_le.mpr hhigh')⟩

/-- Inside of the range of `short` the cast only cuts off the fraction. -/
theorem toShort_eq {x : ℚ} (hlow : -32767 ≤ x) (hhigh : x ≤ 32767) :
    toShort x = truncated x := by
  have hmem := truncated_mem (n := 32767) hlow hhigh
  simp only [Nat.cast_ofNat] at hmem
  unfold toShort
  dsimp only
  rw [tdiv_eq_truncated]
  omega

theorem readShort_writeShort {v : Int} (hlow : -32768 ≤ v) (hhigh : v ≤ 32767) :
    exists low high, writeShort v = [low, high] ∧ readShort low high = v := by
  refine ⟨_, _, rfl, ?_⟩
  unfold readShort
  simp only [UInt8.toNat_ofNat']
  omega

theorem scaled_mem {x m : ℚ} (hm : 0 < m) (hx : |x| ≤ m) :
    -32767 ≤ x * 32767 / m ∧ x * 32767 / m ≤ 32767 := by
  obtain ⟨hlow, hhigh⟩ := abs_le.mp hx
  constructor
  · rw [le_div_iff₀ hm]
    linarith
  · rw [div_le_iff₀ hm]
    linarith

theorem segToByte_spec {m : ℚ} (hm : 0 < m) (wav : List ℚ) :
    (forall x, x ∈ wav -> |x| ≤ m) ->
      (segToByte wav m).length = 2 * wav.length ∧
        readShorts (segToByte wav m) = wav.map fun x => truncated (x * 32767 / m) := by
  induction wav with
  | nil =>
      intro _
      exact ⟨rfl, rfl⟩
  | cons x wav ih =>
      intro hbound
      obtain ⟨hx, hwav⟩ := List.forall_mem_cons.mp hbound
      obtain ⟨hlength, hread⟩ := ih hwav
      obtain ⟨hlow, hhigh⟩ := scaled_mem hm hx
      have hshort : toShort (x * (32767 / m)) = truncated (x * 32767 / m) := by
        rw [← mul_div_assoc]
        exact toShort_eq hlow hhigh
      have hmem := truncated_mem (n := 32767) hlow hhigh
      simp only [Nat.cast_ofNat] at hmem
      obtain ⟨low, high, hbytes, hvalue⟩ :=
        readShort_writeShort (v := truncated (x * 32767 / m)) (by omega) hmem.2
      have hseg : segToByte (x :: wav) m = low :: high :: segToByte wav m := by
        show writeShort (toShort (x * (32767 / m))) ++ segToByte wav m = _
        rw [hshort, hbytes]
        rfl
      rw [hseg]
      constructor
      · simp only [List.length_cons, hlength]
        omega
      · rw [readShorts, hvalue, hread, List.map_cons]

/--
After every successful call the maximum covers the samples of the segment, their
scaled values lie in the range of `short`, and the bytes hold these values.
-/
theorem runSegmentModel_scaled (calls : List (Usage Mel)) (phones : List Int)
    (p : Predictor Mel)
    (h : (Predictor.new.use calls).runSegmentModel phones = (true, p)) :
    exists wav, p.singlewav = some wav ∧ 0 < p.maxwav ∧
      (forall x, x ∈ wav -> |x| ≤ p.maxwav ∧
        -32767 ≤ x * 32767 / p.maxwav ∧ x * 32767 / p.maxwav ≤ 32767 ∧
        toShort (x * (32767 / p.maxwav)) = truncated (x * 32767 / p.maxwav)) ∧
      (segToByte wav p.maxwav).length = 2 * wav.length ∧
      readShorts (segToByte wav p.maxwav) =
        wav.map fun x => truncated (x * 32767 / p.maxwav) := by
  have hscaled : p.Scaled := by
    have hrun := (Predictor.new_scaled.use calls).runSegmentModel phones
    rw [h] at hrun
    exact hrun
  have hwav : exists wav, p.singlewav = some wav := by
    unfold Predictor.runSegmentModel at h
    cases hloaded : (Predictor.new.use calls).loaded with
    | none =>
        rw [hloaded] at h
        cases h
    | some models =>
        rw [hloaded] at h
        cases h
        exact ⟨_, rfl⟩
  obtain ⟨wav, hwav⟩ := hwav
  have hbound := hscaled.bound wav hwav
  obtain ⟨hlength, hread⟩ := segToByte_spec hscaled.positive wav hbound
  refine ⟨wav, hwav, hscaled.positive, ?_, hlength, hread⟩
  intro x hx
  obtain ⟨hlow, hhigh⟩ := scaled_mem hscaled.positive (hbound x hx)
  refine ⟨hbound x hx, hlow, hhigh, ?_⟩
  rw [← mul_div_assoc]
  exact toShort_eq hlow hhigh

/-- A loud segment, and the models loaded anew after it. -/
def reloaded : List (Usage ℚ) :=
  [Usage.init tinyPaddle tinyRequest, Usage.runSegmentModel [-7], Usage.releaseModel,
    Usage.init tinyPaddle tinyRequest]

theorem runSegmentModel_scaled_reloaded :
    ((Predictor.new.use reloaded).runSegmentModel [2]).2.maxwav = 7 / 100 ∧
      readShorts (segToByte [2 / 100]
        ((Predictor.new.use reloaded).runSegmentModel [2]).2.maxwav) = [9362] := by
  have htrue : ((Predictor.new.use reloaded).runSegmentModel [2]).1 = true := by
    decide +kernel
  have hmax : ((Predictor.new.use reloaded).runSegmentModel [2]).2.maxwav = 7 / 100 := by
    decide +kernel
  have hsingle : ((Predictor.new.use reloaded).runSegmentModel [2]).2.singlewav =
      some [2 / 100] := by
    decide +kernel
  obtain ⟨wav, hwav, -, -, -, hread⟩ := runSegmentModel_scaled reloaded [2]
    ((Predictor.new.use reloaded).runSegmentModel [2]).2 (Prod.ext htrue rfl)
  rw [hsingle] at hwav
  injection hwav with hwav
  rw [← hwav] at hread
  refine ⟨hmax, ?_⟩
  rw [hread, hmax]
  decide +kernel

end VoiceTts
