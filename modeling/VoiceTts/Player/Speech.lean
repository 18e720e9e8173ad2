import VoiceTts.Player.Predictor

/-!
# Segments and settings

While the thread of `SpeakText` sends its segments through the models, other
threads load and release them.  `runSegmentModel` says whether there was a model,
but nobody listens: after a segment without a model the waveform of an earlier
segment is written once more.
-/

namespace VoiceTts

variable {Mel : Type}

/-!
## Steps
-/

/-- The assignments that `init`, `releaseModel` and `SpeakText` make from outside. -/
inductive Assignment where
  | releaseModel
  | speakId (n : Int)
  | AMPredictor (r : Request)
  | VOCPredictor (r : Request)
  | isLoaded

def Assignment.apply (paddle : Paddle Mel) (p : Predictor Mel) :
    Assignment -> Predictor Mel
  | releaseModel => p.releaseModel
  | speakId n => { p with speakId := n }
  | AMPredictor r => { p with
      AMPredictor := Predictor.loadModel paddle.acoustic r r.AMmodelName }
  | VOCPredictor r => { p with
      VOCPredictor := Predictor.loadModel paddle.vocoder r r.VOCmodelName }
  | isLoaded => { p with isLoaded := true }

/-- A piece of audio data on the track. -/
structure Delivery where
  segment : Nat
  maxwav : ℚ
  audioData : List UInt8
deriving DecidableEq

/--
The predictor and one run of `SpeakText`.  `produced` records what the model made of
the segments so far; `pending` says that the last of them is to be written.
-/
structure World (Mel : Type) where
  predictor : Predictor Mel
  segments : List (List Int)
  produced : List (Option (List ℚ))
  pending : Bool
  alive : Bool
  written : List Delivery

/-- What the models make of a segment, if they are loaded. -/
def Predictor.output (p : Predictor Mel) (phones : List Int) :
    Option (List ℚ) :=
  p.loaded.map fun m => m.2 (m.1 phones [p.speakId])

namespace World

def start (p : Predictor Mel) (segments : List (List Int)) : World Mel where
  predictor := p
  segments := segments
  produced := []
  pending := false
  alive := true
  written := []

/-- A call of `SpeakText`; the front end gives the phone ids of each segment. -/
def SpeakText (getPhoneIds : JString -> List Int) (text : JString) (speakId : Int)
    (p : Predictor Mel) : World Mel :=
  start { p with speakId := speakId }
    ((segmentText text).map fun s => segmentPhones (getPhoneIds s))

/-- The segment that is run next, if the thread is about to run one. -/
def next (w : World Mel) : Option (List Int) :=
  if w.alive && !w.pending then w.segments[w.produced.length]? else none

/-- `runSegmentModel` on the next segment, with its result ignored. -/
def run (w : World Mel) : World Mel :=
  match w.next with
  | none => w
  | some phones => { w with
      predictor := (w.predictor.runSegmentModel phones).2
      produced := w.produced ++ [w.predictor.output phones]
      pending := true }

/-- The rest of the round; without a waveform the thread ends with an exception. -/
def deliver (w : World Mel) : World Mel :=
  if w.pending then
    match w.predictor.singlewav with
    | none => { w with pending := false, alive := false }
    | some wav => { w with
        pending := false
        written := w.written ++ [⟨w.produced.length - 1, w.predictor.maxwav,
          segToByte wav w.predictor.maxwav⟩] }
  else w

end World

inductive Action where
  | assign (a : Assignment)
  | run
  | deliver

def Action.act (paddle : Paddle Mel) (w : World Mel) : Action -> World Mel
  | assign a => { w with predictor := a.apply paddle w.predictor }
  | run => w.run
  | deliver => w.deliver

/-- The steps of all threads, in any order. -/
def interleave (paddle : Paddle Mel) (w : World Mel) (trace : List Action) :
    World Mel :=
  trace.foldl (Action.act paddle) w

theorem init_assignments (paddle : Paddle Mel) (r : Request) (p : Predictor Mel) :
    exists l : List Assignment,
      (p.init paddle r).2 = l.foldl (Assignment.apply paddle) p := by
  unfold Predictor.init
  dsimp only
  split
  · exact ⟨[Assignment.releaseModel, Assignment.speakId r.speakId,
      Assignment.AMPredictor r], rfl⟩
  · split
    · exact ⟨[Assignment.releaseModel, Assignment.speakId r.speakId,
        Assignment.AMPredictor r, Assignment.VOCPredictor r], rfl⟩
    · exact ⟨[Assignment.releaseModel, Assignment.speakId r.speakId,
        Assignment.AMPredictor r, Assignment.VOCPredictor r,
        Assignment.isLoaded], rfl⟩

/-!
## What is written
-/

/-- Only what the model made of a segment is written for it. -/
structure Faithful (w : World Mel) : Prop where
  samples : forall d, d ∈ w.written -> forall wav,
    w.produced[d.segment]? = some (some wav) ->
    d.audioData = segToByte wav d.maxwav
  silent : forall d, d ∈ w.written -> exists wav,
    w.produced[d.segment]? = some (some wav)

/-- The step does not run a segment without a model when there is an old waveform. -/
def Action.Meets (w : World Mel) : Action -> Prop
  | run => w.next.isSome -> w.predictor.loaded.isSome ∨ w.predictor.singlewav = none
  | _ => True

def MeetsAll (paddle : Paddle Mel) : World Mel -> List Action -> Prop
  | _, [] => True
  | w, a :: trace => a.Meets w ∧ MeetsAll paddle (a.act paddle w) trace

@[simp] theorem Assignment.singlewav_apply (paddle : Paddle Mel)
    (p : Predictor Mel) (a : Assignment) :
    (a.apply paddle p).singlewav = p.singlewav := by
  cases a <;> rfl

theorem Predictor.singlewav_runSegmentModel (p : Predictor Mel) (phones : List Int) :
    (p.runSegmentModel phones).2.singlewav =
      match p.output phones with
      | some wav => some wav
      | none => p.singlewav := by
  unfold Predictor.runSegmentModel Predictor.output
  cases p.loaded with
  | none => rfl
  | some m => rfl

theorem Predictor.output_isSome (p : Predictor Mel) (phones : List Int) :
    (p.output phones).isSome = p.loaded.isSome := by
  simp [Predictor.output]

/-- The written data is right, and so is the waveform that is to be written. -/
structure Inv (w : World Mel) : Prop where
  faithful : Faithful w
  waiting : w.pending = true ->
    w.produced.getLast? = some w.predictor.singlewav

theorem Inv.start (p : Predictor Mel) (segments : List (List Int)) :
    Inv (World.start p segments) := by
  constructor
  · constructor
    · intro d hd
      cases hd
    · intro d hd
      cases hd
  · intro h
    cases h

theorem Faithful.produced_append {w w' : World Mel} (h : Faithful w)
    {more : List (Option (List ℚ))} (hwritten : w'.written = w.written)
    (hproduced : w'.produced = w.produced ++ more) : Faithful w' := by
  have hkeep : forall d, d ∈ w.written -> w'.produced[d.segment]? =
      w.produced[d.segment]? := by
    intro d hd
    rcases h.silent d hd with ⟨wav, hwav⟩
    have hlt := (List.getElem?_eq_some_iff.mp hwav).1
    rw [hproduced, List.getElem?_append_left hlt]
  constructor
  · intro d hd wav hwav
    rw [hwritten] at hd
    rw [hkeep d hd] at hwav
    exact h.samples d hd wav hwav
  · intro d hd
    rw [hwritten] at hd
    rw [hkeep d hd]
    exact h.silent d hd

theorem Inv.run {w : World Mel} (h : Inv w) (hmeets : Action.run.Meets w) :
    Inv w.run := by
  unfold World.run
  cases hnext : w.next with
  | none =>
      exact h
  | some phones =>
      dsimp only
      have hcond := hmeets (by rw [hnext]; rfl)
      constructor
      · exact h.faithful.produced_append rfl rfl
      · intro _
        rw [List.getLast?_concat, Predictor.singlewav_runSegmentModel]
        cases hout : w.predictor.output phones with
        | some wav =>
            rfl
        | none =>
            have hloaded : w.predictor.loaded.isSome = false := by
              rw [← Predictor.output_isSome _ phones, hout]
              rfl
            rw [hloaded] at hcond
            rw [hcond.resolve_left (by simp)]

theorem Inv.deliver {w : World Mel} (h : Inv w) : Inv w.deliver := by
  unfold World.deliver
  split
  · rename_i hpending
    have hlast := h.waiting hpending
    cases hwav : w.predictor.singlewav with
    | none =>
        constructor
        · exact h.faithful.produced_append rfl (List.append_nil _).symm
        · intro hp
          cases hp
    | some wav =>
        rw [hwav, List.getLast?_eq_getElem?] at hlast
        constructor
        · constructor
          · intro d hd wav' hwav'
            rcases List.mem_append.mp hd with hd | hd
            · exact h.faithful.samples d hd wav' hwav'
            · rw [List.mem_singleton.mp hd] at hwav' ⊢
              rw [hlast] at hwav'
              cases hwav'
              rfl
          · intro d hd
            rcases List.mem_append.mp hd with hd | hd
            · exact h.faithful.silent d hd
            · rw [List.mem_singleton.mp hd]
              exact ⟨wav, hlast⟩
        · intro hp
          cases hp
  · exact h

theorem Inv.act {w : World Mel} (h : Inv w) (paddle : Paddle Mel) {a : Action}
    (hmeets : a.Meets w) : Inv (a.act paddle w) := by
  cases a with
  | assign a =>
      constructor
      · exact h.faithful.produced_append rfl (List.append_nil _).symm
      · intro hp
        change w.produced.getLast? = some (a.apply paddle w.predictor).singlewav
        rw [h.waiting hp, Assignment.singlewav_apply]
  | run =>
      exact h.run hmeets
  | deliver =>
      exact h.deliver

theorem Inv.interleave {w : World Mel} (h : Inv w) (paddle : Paddle Mel)
    {trace : List Action} (hmeets : MeetsAll paddle w trace) :
    Inv (interleave paddle w trace) := by
  induction trace generalizing w with
  | nil =>
      exact h
  | cons a trace ih =>
      exact ih (h.act paddle hmeets.1) hmeets.2

/-!
## An old waveform is written in the end
-/

/-- A segment without a model has been written, or is about to be. -/
def Stale (w : World Mel) : Prop :=
  exists k, w.produced[k]? = some none ∧
    ((exists d, d ∈ w.written ∧ d.segment = k) ∨
      (w.pending = true ∧ k + 1 = w.produced.length ∧
        w.predictor.singlewav ≠ none))

theorem Stale.not_faithful {w : World Mel} (h : Stale w)
    (hpending : w.pending = false) : ¬ Faithful w := by
  intro hfaithful
  rcases h with ⟨k, hk, ⟨d, hd, rfl⟩ | ⟨hp, _⟩⟩
  · rcases hfaithful.silent d hd with ⟨wav, hwav⟩
    rw [hk] at hwav
    cases hwav
  · rw [hpending] at hp
    cases hp

theorem stale_of_run {w : World Mel} (hmeets : ¬ Action.run.Meets w) :
    Stale w.run := by
  have hfails : w.next.isSome ∧
      ¬ (w.predictor.loaded.isSome ∨ w.predictor.singlewav = none) :=
    Classical.not_imp.mp hmeets
  rcases hfails with ⟨hnext, hcond⟩
  rcases Option.isSome_iff_exists.mp hnext with ⟨phones, hphones⟩
  rw [not_or] at hcond
  have hout : w.predictor.output phones = none := by
    rw [← Option.not_isSome_iff_eq_none, Predictor.output_isSome]
    exact hcond.1
  refine ⟨w.produced.length, ?_, Or.inr ⟨?_, ?_, ?_⟩⟩
  · simp [World.run, hphones, hout]
  · simp [World.run, hphones]
  · simp [World.run, hphones]
  · simp only [World.run, hphones]
    rw [Predictor.singlewav_runSegmentModel, hout]
    exact hcond.2

theorem Stale.run {w : World Mel} (h : Stale w) : Stale w.run := by
  unfold World.run
  cases hnext : w.next with
  | none =>
      exact h
  | some phones =>
      rcases h with ⟨k, hk, hwritten | ⟨hp, _⟩⟩
      · have hlt := (List.getElem?_eq_some_iff.mp hk).1
        exact ⟨k, by rw [List.getElem?_append_left hlt, hk], Or.inl hwritten⟩
      · simp [World.next, hp] at hnext

theorem Stale.deliver {w : World Mel} (h : Stale w) : Stale w.deliver := by
  unfold World.deliver
  split
  · rcases h with ⟨k, hk, ⟨d, hd, hsegment⟩ | ⟨_, hlast, hwav⟩⟩
    · cases w.predictor.singlewav with
      | none =>
          exact ⟨k, hk, Or.inl ⟨d, hd, hsegment⟩⟩
      | some wav =>
          exact ⟨k, hk, Or.inl ⟨d, List.mem_append_left _ hd, hsegment⟩⟩
    · cases hsome : w.predictor.singlewav with
      | none =>
          exact absurd hsome hwav
      | some wav =>
          refine ⟨k, hk, Or.inl ⟨_, List.mem_append_right _
            (List.mem_singleton.mpr rfl), ?_⟩⟩
          change w.produced.length - 1 = k
          omega
  · exact h

theorem Stale.act {w : World Mel} (h : Stale w) (paddle : Paddle Mel)
    (a : Action) : Stale (a.act paddle w) := by
  cases a with
  | assign a =>
      rcases h with ⟨k, hk, hwritten | ⟨hp, hlast, hwav⟩⟩
      · exact ⟨k, hk, Or.inl hwritten⟩
      · refine ⟨k, hk, Or.inr ⟨hp, hlast, ?_⟩⟩
        change (a.apply paddle w.predictor).singlewav ≠ none
        rw [Assignment.singlewav_apply]
        exact hwav
  | run =>
      exact h.run
  | deliver =>
      exact h.deliver

theorem Stale.interleave {w : World Mel} (h : Stale w) (paddle : Paddle Mel)
    (trace : List Action) : Stale (interleave paddle w trace) := by
  induction trace generalizing w with
  | nil =>
      exact h
  | cons a trace ih =>
      exact ih (h.act paddle a)

theorem stale_of_not_meetsAll {w : World Mel} (paddle : Paddle Mel)
    {trace : List Action} (h : ¬ MeetsAll paddle w trace) :
    Stale (interleave paddle w trace) := by
  induction trace generalizing w with
  | nil =>
      exact absurd trivial h
  | cons a trace ih =>
      by_cases hmeets : a.Meets w
      · exact ih fun hrest => h ⟨hmeets, hrest⟩
      · have hstale : Stale (a.act paddle w) := by
          cases a with
          | assign a => exact absurd trivial hmeets
          | run => exact stale_of_run hmeets
          | deliver => exact absurd trivial hmeets
        exact hstale.interleave paddle trace

theorem MeetsAll.take {w : World Mel} {paddle : Paddle Mel} {trace : List Action}
    (h : MeetsAll paddle w trace) (n : Nat) : MeetsAll paddle w (trace.take n) := by
  induction trace generalizing w n with
  | nil =>
      rw [List.take_nil]
      trivial
  | cons a trace ih =>
      cases n with
      | zero => trivial
      | succ n => exact ⟨h.1, ih h.2 n⟩

/--
In every interleaving, what is written is what the model made of the segment as
long as no segment is run without a model behind an old waveform; and where one
is, the old waveform is written with the end of its round.
-/
theorem SpeakText_faithful (paddle : Paddle Mel) (p : Predictor Mel)
    (getPhoneIds : JString -> List Int) (text : JString) (speakId : Int)
    (trace : List Action) :
    (MeetsAll paddle (World.SpeakText getPhoneIds text speakId p) trace ->
      forall n, Faithful (interleave paddle
        (World.SpeakText getPhoneIds text speakId p) (trace.take n))) ∧
    ((interleave paddle (World.SpeakText getPhoneIds text speakId p)
        trace).pending = false ->
      Faithful (interleave paddle (World.SpeakText getPhoneIds text speakId p)
        trace) ->
      MeetsAll paddle (World.SpeakText getPhoneIds text speakId p) trace) := by
  constructor
  · intro hmeets n
    exact ((Inv.start _ _).interleave paddle (hmeets.take n)).faithful
  · intro hpending hfaithful
    by_contra hmeets
    exact (stale_of_not_meetsAll paddle hmeets).not_faithful hpending hfaithful

/-!
## Two segments and a release between them
-/

/-- Models that make one sample of the first phone id. -/
def tinyPaddle : Paddle ℚ where
  acoustic := fun _ _ _ => some fun phones _ => phones.headD 0
  vocoder := fun _ _ _ => some fun mel => [mel / 100]

def tinyRequest : Request where
  cacheDir := []
  modelPath := "/models".toList
  AMmodelName := "am.nb".toList
  VOCmodelName := "voc.nb".toList
  cpuThreadNum := 1
  cpuPowerMode := "LITE_POWER_HIGH".toList
  speakId := 174

def tinyIds (s : JString) : List Int :=
  [s.length]

def twoSegments : World ℚ :=
  World.SpeakText tinyIds "你好，世界您好".toList 174
    (Predictor.new.init tinyPaddle tinyRequest).2

def undisturbed : List Action :=
  [Action.run, Action.deliver, Action.run, Action.deliver]

theorem SpeakText_faithful_undisturbed :
    (interleave tinyPaddle twoSegments undisturbed).written.length = 2 ∧
    Faithful (interleave tinyPaddle twoSegments undisturbed) := by
  have hmeets : MeetsAll tinyPaddle twoSegments undisturbed := by
    refine ⟨fun _ => Or.inl ?_, trivial, fun _ => Or.inl ?_, trivial, trivial⟩
    · decide +kernel
    · decide +kernel
  constructor
  · decide +kernel
  · exact (SpeakText_faithful tinyPaddle (Predictor.new.init tinyPaddle tinyRequest).2
      tinyIds "你好，世界您好".toList 174 undisturbed).1 hmeets 4

/-- The models are released between the two segments. -/
def disturbed : List Action :=
  [Action.run, Action.deliver, Action.assign Assignment.releaseModel, Action.run,
    Action.deliver]

/-- The first waveform is written for the second segment, which has no model. -/
theorem released_segment_is_written :
    (interleave tinyPaddle twoSegments disturbed).produced =
      [some [2 / 100], none] ∧
    (interleave tinyPaddle twoSegments disturbed).written =
      [⟨0, 2 / 100, [255, 127]⟩, ⟨1, 2 / 100, [255, 127]⟩] ∧
    ¬ Faithful (interleave tinyPaddle twoSegments disturbed) := by
  have hproduced : (interleave tinyPaddle twoSegments disturbed).produced =
      [some [2 / 100], none] := by
    decide +kernel
  have hwritten : (interleave tinyPaddle twoSegments disturbed).written =
      [⟨0, 2 / 100, [255, 127]⟩, ⟨1, 2 / 100, [255, 127]⟩] := by
    decide +kernel
  refine ⟨hproduced, hwritten, ?_⟩
  intro hfaithful
  rcases hfaithful.silent ⟨1, 2 / 100, [255, 127]⟩ (by simp [hwritten]) with
    ⟨wav, hwav⟩
  rw [hproduced] at hwav
  cases hwav

end VoiceTts
