import VoiceTts.Front.Characters
import VoiceTts.Front.Counted

/-!
# The buffers of `GetWordsIds`

`word_initials`, `word_finals` and `phone` are declared in front of the loop of
`GetWordsIds` and are cleared in some of its branches only.  Here the loop is
modelled with these buffers and with the two vectors that it appends to.  What is
left in the buffers never reaches the ids: two rounds that differ in their
buffers append the same.
-/

namespace VoiceTts
namespace FrontEngineInterface

open Prog

/-- The engine, the buffers, and the vectors that the caller passes. -/
structure Work where
  engine : FrontEngineInterface
  word_initials : List CString
  word_finals : List CString
  phone : CString
  phoneids : List Int
  toneids : List Int

abbrev WorkM (α : Type) : Type :=
  Prog Error Work α

def onEngine {α : Type} (m : FrontM α) : WorkM α :=
  fun w => ((m w.engine).1, { w with engine := (m w.engine).2 })

def pushPhoneid (id : Int) : WorkM Unit :=
  modify fun w => { w with phoneids := w.phoneids ++ [id] }

def pushToneid (id : Int) : WorkM Unit :=
  modify fun w => { w with toneids := w.toneids ++ [id] }

/-- One round of `Phone2Phoneid`. -/
def pushPhone (st : Setup) (temp_phone : CString) : WorkM Unit :=
  if st._seperate_tone = str "true" then do
    let id <- onEngine (phoneId temp_phone.dropLast)
    pushPhoneid (atoi id)
    match temp_phone.getLast? with
    | none => fail Error.out_of_range
    | some c => do
        let tone <- onEngine (toneId [c])
        pushToneid (atoi tone)
  else do
    let id <- onEngine (phoneId temp_phone)
    pushPhoneid (atoi id)

def pushPhones (st : Setup) : List CString -> WorkM Unit
  | [] => pure ()
  | temp_phone :: phone_vec => do
      pushPhone st temp_phone
      pushPhones st phone_vec

/-- `Phone2Phoneid(phone, phoneids, toneids)` -/
def convertPhone (st : Setup) : WorkM Unit := do
  let phone <- gets Work.phone
  pushPhones st (Stringsplit phone 32)

/-- The loop that appends the syllables of a word to `phone`; `j` counts them. -/
def appendSyllables : Nat -> CString -> List CString -> List CString -> CString
  | j, phone, initial :: word_initials, final :: word_finals =>
      let temp_phone := syllable initial final
      appendSyllables (j + 1)
        (if j = 0 then phone ++ temp_phone else phone ++ (str " " ++ temp_phone))
        word_initials word_finals
  | _, phone, _, _ => phone

def readWord (st : Setup) (word pos : CString) : WorkM Unit := do
  let r <- onEngine (GetInitialsFinals st word)
  modify fun w => { w with
    word_initials := w.word_initials ++ r.1, word_finals := w.word_finals ++ r.2 }
  let word_finals <- gets Work.word_finals
  let word_finals <- lift (ModifyTone st word pos word_finals)
  let word_initials <- gets Work.word_initials
  let new_initals_finals <- lift (MergeErhua word_initials word_finals word pos)
  modify fun w => { w with
    word_initials := new_initals_finals.1, word_finals := new_initals_finals.2 }
  if new_initals_finals.1.length = new_initals_finals.2.length then
    modify fun w => { w with
      phone := appendSyllables 0 w.phone w.word_initials w.word_finals }
  else fail Error.assertion

def readLatinPhone (st : Setup) (phone : CString) : WorkM Unit := do
  modify fun w => { w with phone := phone }
  let entry <- onEngine (orderEntry phone)
  if entry ≠ [] then convertPhone st else pure ()

def readLatin (st : Setup) : List CString -> WorkM Unit
  | [] => pure ()
  | phone :: word_final => do
      readLatinPhone st phone
      readLatin st word_final

/-- The branches that leave the phones of a word, or of a pause, in `phone`. -/
def spell (st : Setup) (t : CString × CString) : WorkM Unit :=
  if t.1 ∈ _punc then modify fun w => { w with phone := pausePhone st }
  else readWord st t.1 t.2

def round (st : Setup) (t : CString × CString) : WorkM Unit :=
  if t.2 = str "x" ∧ t.1 ≠ str " " then
    if t.1 ∈ _punc_omit then pure ()
    else do
      modify fun w => { w with word_initials := [], word_finals := [], phone := [] }
      spell st t
      convertPhone st
  else if t.1 ≠ str " " then do
    let word_final <- onEngine (latinPhones st (ToLower t.1))
    readLatin st word_final
  else pure ()

/-- `GetWordsIds(cut_result, phoneids, toneids)` -/
def GetWordsIdsInto (st : Setup) : Seg -> WorkM Unit
  | [] => pure ()
  | t :: cut_result => do
      round st t
      GetWordsIdsInto st cut_result

def start (e : FrontEngineInterface) (phoneids toneids : List Int) : Work where
  engine := e
  word_initials := []
  word_finals := []
  phone := []
  phoneids := phoneids
  toneids := toneids

theorem GetWordsIdsInto_concat (st : Setup) (c1 c2 : Seg) :
    GetWordsIdsInto st (c1 ++ c2) =
      (GetWordsIdsInto st c1 >>= fun _ => GetWordsIdsInto st c2) := by
  induction c1 with
  | nil =>
      rfl
  | cons t c1 ih =>
      simp only [List.cons_append, GetWordsIdsInto, bind_assoc, ih]

/-!
## Two runs side by side
-/

def Work.buffers (w : Work) : List CString × List CString × CString :=
  (w.word_initials, w.word_finals, w.phone)

/--
Two runs of the loop, of which the first one has the ids `phoneids` and `toneids`
in front of those of the second one.
-/
structure Alongside (R : FrontEngineInterface -> FrontEngineInterface -> Prop)
    (E : List CString × List CString × CString ->
      List CString × List CString × CString -> Prop)
    (phoneids toneids : List Int) (w w' : Work) : Prop where
  engine : R w.engine w'.engine
  buffers : E w.buffers w'.buffers
  phoneids : w.phoneids = phoneids ++ w'.phoneids
  toneids : w.toneids = toneids ++ w'.toneids

section Steps

variable {R : FrontEngineInterface -> FrontEngineInterface -> Prop}
  {E : List CString × List CString × CString ->
    List CString × List CString × CString -> Prop}
  {phoneids toneids : List Int} {st : Setup}

theorem onEngine_simulates {α : Type} {m : FrontM α} (h : Simulates R m m) :
    Simulates (Alongside R E phoneids toneids) (onEngine m) (onEngine m) := by
  intro w w' hw
  rcases h _ _ hw.engine with ⟨hresult, hengine⟩
  exact ⟨hresult, { hw with engine := hengine }⟩

theorem pushPhoneid_simulates (id : Int) :
    Simulates (Alongside R E phoneids toneids) (pushPhoneid id)
      (pushPhoneid id) := by
  refine simulates_modify ?_
  intro w w' hw
  refine { hw with phoneids := ?_ }
  change w.phoneids ++ [id] = phoneids ++ (w'.phoneids ++ [id])
  rw [hw.phoneids, List.append_assoc]

theorem pushToneid_simulates (id : Int) :
    Simulates (Alongside R E phoneids toneids) (pushToneid id)
      (pushToneid id) := by
  refine simulates_modify ?_
  intro w w' hw
  refine { hw with toneids := ?_ }
  change w.toneids ++ [id] = toneids ++ (w'.toneids ++ [id])
  rw [hw.toneids, List.append_assoc]

theorem pushPhones_simulates (hR : Respected R) (phone_vec : List CString) :
    Simulates (Alongside R E phoneids toneids) (pushPhones st phone_vec)
      (pushPhones st phone_vec) := by
  induction phone_vec with
  | nil =>
      exact simulates_pure ()
  | cons phone phone_vec ih =>
      have hphone : Simulates (Alongside R E phoneids toneids) (pushPhone st phone)
          (pushPhone st phone) := by
        unfold pushPhone
        split
        · refine (onEngine_simulates (hR.phoneId _)).bind fun id => ?_
          refine (pushPhoneid_simulates _).bind fun _ => ?_
          cases phone.getLast? with
          | none =>
              exact fun _ _ h => ⟨rfl, h⟩
          | some c =>
              exact (onEngine_simulates (hR.toneId _)).bind fun tone =>
                pushToneid_simulates _
        · exact (onEngine_simulates (hR.phoneId _)).bind fun id =>
            pushPhoneid_simulates _
      exact hphone.bind fun _ => ih

theorem convertPhone_simulates (hR : Respected R)
    (hE : forall b b', E b b' -> b.2.2 = b'.2.2) :
    Simulates (Alongside R E phoneids toneids) (convertPhone st)
      (convertPhone st) := by
  refine (simulates_gets fun w w' hw => ?_).bind fun phone =>
    pushPhones_simulates hR _
  exact hE _ _ hw.buffers

theorem Alongside.initials {w w' : Work}
    (h : Alongside R Eq phoneids toneids w w') :
    w.word_initials = w'.word_initials :=
  congrArg Prod.fst h.buffers

theorem Alongside.finals {w w' : Work} (h : Alongside R Eq phoneids toneids w w') :
    w.word_finals = w'.word_finals :=
  congrArg (fun b => b.2.1) h.buffers

theorem Alongside.phone {w w' : Work} (h : Alongside R Eq phoneids toneids w w') :
    w.phone = w'.phone :=
  congrArg (fun b => b.2.2) h.buffers

theorem Alongside.forget {w w' : Work} (h : Alongside R E phoneids toneids w w') :
    Alongside R (fun _ _ => True) phoneids toneids w w' :=
  { h with buffers := True.intro }

theorem readWord_simulates {word : CString}
    (h : Simulates R (GetPhone st word) (GetPhone st word)) (pos : CString) :
    Simulates (Alongside R Eq phoneids toneids) (readWord st word pos)
      (readWord st word pos) := by
  refine (onEngine_simulates (GetInitialsFinals_simulates h)).bind fun r => ?_
  refine (simulates_modify fun w w' hw => ?_).bind fun _ => ?_
  · refine { hw with buffers := ?_ }
    simp only [Work.buffers, hw.initials, hw.finals, hw.phone]
  refine (simulates_gets fun w w' hw => hw.finals).bind fun word_finals => ?_
  refine (simulates_lift _).bind fun word_finals => ?_
  refine (simulates_gets fun w w' hw => hw.initials).bind fun word_initials => ?_
  refine (simulates_lift _).bind fun merged => ?_
  refine (simulates_modify fun w w' hw => ?_).bind fun _ => ?_
  · refine { hw with buffers := ?_ }
    simp only [Work.buffers, hw.phone]
  split
  · refine simulates_modify fun w w' hw => ?_
    refine { hw with buffers := ?_ }
    simp only [Work.buffers, hw.initials, hw.finals, hw.phone]
  · exact fun _ _ hw => ⟨rfl, hw⟩

theorem readLatin_simulates (hR : Respected R) (word_final : List CString) :
    Simulates (Alongside R (fun _ _ => True) phoneids toneids)
      (readLatin st word_final) (readLatin st word_final) := by
  induction word_final with
  | nil =>
      exact simulates_pure ()
  | cons phone word_final ih =>
      have hphone : Simulates (Alongside R (fun _ _ => True) phoneids toneids)
          (readLatinPhone st phone) (readLatinPhone st phone) := by
        -- the phone is written in every round, so nothing else has to agree
        refine Simulates.after_modify
          (S := Alongside R (fun b b' => b.2.2 = b'.2.2) phoneids toneids) ?_ ?_ ?_
        · refine (onEngine_simulates (hR.orderEntry phone)).bind fun entry => ?_
          split
          · exact convertPhone_simulates hR fun _ _ h => h
          · exact simulates_pure ()
        · intro w w' hw
          exact { hw with buffers := rfl }
        · intro w w' hw
          exact hw.forget
      exact hphone.bind fun _ => ih

/-- A round appends the same whatever the rounds before it have left behind. -/
theorem round_simulates (hR : Respected R) {t : CString × CString}
    (h : forall w, w ∈ tokenLookups t ->
      Simulates R (GetPhone st w) (GetPhone st w)) :
    Simulates (Alongside R (fun _ _ => True) phoneids toneids) (round st t)
      (round st t) := by
  unfold round
  split
  · rename_i hx
    split
    · exact simulates_pure ()
    · rename_i homit
      refine Simulates.after_modify (S := Alongside R Eq phoneids toneids) ?_ ?_ ?_
      · refine Simulates.bind ?_ fun _ => convertPhone_simulates hR ?_
        · unfold spell
          split
          · refine simulates_modify fun w w' hw => ?_
            refine { hw with buffers := ?_ }
            simp only [Work.buffers, hw.initials, hw.finals]
          · rename_i hpunc
            refine readWord_simulates (h t.1 ?_) t.2
            simp [tokenLookups, hx, homit, hpunc]
        · intro b b' hb
          rw [hb]
      · intro w w' hw
        exact { hw with buffers := rfl }
      · intro w w' hw
        exact hw.forget
  · split
    · exact (onEngine_simulates (latinPhones_simulates hR _)).bind fun word_final =>
        readLatin_simulates hR word_final
    · exact simulates_pure ()

theorem GetWordsIdsInto_simulates (hR : Respected R) {c : Seg}
    (h : forall t, t ∈ c -> forall w, w ∈ tokenLookups t ->
      Simulates R (GetPhone st w) (GetPhone st w)) :
    Simulates (Alongside R (fun _ _ => True) phoneids toneids)
      (GetWordsIdsInto st c) (GetWordsIdsInto st c) := by
  induction c with
  | nil =>
      exact simulates_pure ()
  | cons t c ih =>
      exact (round_simulates hR (h t (by simp))).bind fun _ =>
        ih fun u hu => h u (by simp [hu])

end Steps

/-!
## One list behind another
-/

section Concat

variable {st : Setup} {e : FrontEngineInterface}

theorem harmless_of_pieces {w : CString}
    (h : forall p, p ∈ pieces st e w -> e.word_phone_map.contains p = true) :
    Harmless st e.word_phone_map w := by
  unfold pieces at h
  cases hin : e.word_phone_map.contains w with
  | true =>
      exact Or.inl hin
  | false =>
      rw [hin, if_neg (by simp)] at h
      exact Or.inr fun p hp => Or.inl (h p hp)

/-- The engine answers as before when all words it was asked for were known. -/
theorem GetWordsIdsInto_calm {c : Seg}
    (hkeys : forall t, t ∈ c -> forall w, w ∈ tokenLookups t ->
      forall p, p ∈ pieces st e w -> e.word_phone_map.contains p = true)
    (phoneids toneids : List Int) :
    Calm st e (GetWordsIdsInto st c (start e phoneids toneids)).2.engine := by
  have hphone : forall t, t ∈ c -> forall w, w ∈ tokenLookups t ->
      Simulates (fun e1 e2 => e1 = e2 ∧ Calm st e e1) (GetPhone st w)
        (GetPhone st w) := by
    intro t ht w hw
    exact simulates_self.mpr (GetPhone_calm (harmless_of_pieces (hkeys t ht w hw)))
  have hstart : Alongside (fun e1 e2 => e1 = e2 ∧ Calm st e e1) (fun _ _ => True) [] []
      (start e phoneids toneids) (start e phoneids toneids) :=
    ⟨⟨rfl, Similar.refl st e⟩, True.intro, rfl, rfl⟩
  exact (GetWordsIdsInto_simulates respected_calm hphone _ _ hstart).2.engine.2

/--
If all words that can be asked for are in the dictionary, a list of tokens behind
another one appends what it appends alone, behind the ids that are
already there, and an error is where it would be alone.
-/
theorem GetWordsIdsInto_append (st : Setup) (e : FrontEngineInterface) (c1 c2 : Seg)
    (hkeys : forall t, t ∈ c1 ++ c2 -> forall w, w ∈ tokenLookups t ->
      forall p, p ∈ pieces st e w -> e.word_phone_map.contains p = true)
    (phoneids toneids : List Int) :
    (forall err, (GetWordsIdsInto st c1 (start e [] [])).1 = Except.error err ->
      (GetWordsIdsInto st (c1 ++ c2) (start e phoneids toneids)).1 =
          Except.error err ∧
        (GetWordsIdsInto st (c1 ++ c2) (start e phoneids toneids)).2.phoneids =
          phoneids ++ (GetWordsIdsInto st c1 (start e [] [])).2.phoneids ∧
        (GetWordsIdsInto st (c1 ++ c2) (start e phoneids toneids)).2.toneids =
          toneids ++ (GetWordsIdsInto st c1 (start e [] [])).2.toneids) ∧
      ((GetWordsIdsInto st c1 (start e [] [])).1 = Except.ok () ->
        (GetWordsIdsInto st (c1 ++ c2) (start e phoneids toneids)).1 =
            (GetWordsIdsInto st c2 (start e [] [])).1 ∧
          (GetWordsIdsInto st (c1 ++ c2) (start e phoneids toneids)).2.phoneids =
            phoneids ++ (GetWordsIdsInto st c1 (start e [] [])).2.phoneids ++
              (GetWordsIdsInto st c2 (start e [] [])).2.phoneids ∧
          (GetWordsIdsInto st (c1 ++ c2) (start e phoneids toneids)).2.toneids =
            toneids ++ (GetWordsIdsInto st c1 (start e [] [])).2.toneids ++
              (GetWordsIdsInto st c2 (start e [] [])).2.toneids) := by
  have hphone : forall (c : Seg) t, t ∈ c -> forall w, w ∈ tokenLookups t ->
      Simulates (Similar st e.word_phone_map) (GetPhone st w) (GetPhone st w) :=
    fun _ _ _ w _ => GetPhone_simulates w
  have hstart : Alongside (Similar st e.word_phone_map) (fun _ _ => True) phoneids
      toneids (start e phoneids toneids) (start e [] []) :=
    ⟨Similar.refl st e, True.intro, by simp [start], by simp [start]⟩
  have hfirst := GetWordsIdsInto_simulates respected_similar (hphone c1) _ _ hstart
  have hcalm := GetWordsIdsInto_calm
    (fun t ht => hkeys t (List.mem_append_left c2 ht)) phoneids toneids
  rcases hfirst with ⟨hresult, hstate⟩
  rw [GetWordsIdsInto_concat]
  rcases hrun : GetWordsIdsInto st c1 (start e phoneids toneids) with ⟨r, w1⟩
  rw [hrun] at hresult hstate hcalm
  constructor
  · intro err herr
    rw [herr] at hresult
    change r = _ at hresult
    rw [hresult] at hrun
    rw [bind_of_error hrun]
    exact ⟨rfl, hstate.phoneids, hstate.toneids⟩
  · intro hok
    rw [hok] at hresult
    change r = _ at hresult
    rw [hresult] at hrun
    rw [bind_of_ok hrun]
    have hnext : Alongside (Similar st e.word_phone_map) (fun _ _ => True)
        w1.phoneids w1.toneids w1 (start e [] []) :=
      ⟨hcalm, True.intro, by simp [start], by simp [start]⟩
    rcases GetWordsIdsInto_simulates respected_similar (hphone c2) _ _ hnext with
      ⟨hresult2, hstate2⟩
    refine ⟨hresult2, ?_, ?_⟩
    · rw [hstate2.phoneids, hstate.phoneids]
    · rw [hstate2.toneids, hstate.toneids]

/-- 玉，鉴赏 in two lists. -/
def jade : Seg :=
  [(str "玉", str "x")]

def appreciation : Seg :=
  [(str "，", str "x"), (str "鉴赏", str "x")]

theorem jade_known : forall t, t ∈ jade ++ appreciation ->
    forall w, w ∈ tokenLookups t -> forall p, p ∈ pieces gallery galleryEngine w ->
      galleryEngine.word_phone_map.contains p = true := by
  decide +kernel

theorem readWord_ok {st : Setup} {word pos : CString} {w : Work} {e' : FrontEngineInterface}
    {r new_initals_finals : List CString × List CString} {word_finals : List CString}
    (hinitials : w.word_initials = []) (hfinals : w.word_finals = [])
    (hget : GetInitialsFinals st word w.engine = (Except.ok r, e'))
    (htones : ModifyTone st word pos r.2 = Except.ok word_finals)
    (hmerge : MergeErhua r.1 word_finals word pos = Except.ok new_initals_finals)
    (hlength : new_initals_finals.1.length = new_initals_finals.2.length) :
    readWord st word pos w =
      (Except.ok (), { w with
        engine := e'
        word_initials := new_initals_finals.1
        word_finals := new_initals_finals.2
        phone := appendSyllables 0 w.phone new_initals_finals.1 new_initals_finals.2 }) := by
  have hengine : onEngine (GetInitialsFinals st word) w =
      (Except.ok r, { w with engine := e' }) := by
    unfold onEngine
    rw [hget]
  unfold readWord
  rw [bind_of_ok hengine, bind_of_ok (modify_apply _ _), bind_of_ok (gets_apply _ _)]
  simp only [hinitials, hfinals, List.nil_append, htones]
  rw [bind_of_ok (lift_apply _ _), bind_of_ok (gets_apply _ _)]
  simp only [hmerge]
  rw [bind_of_ok (lift_apply _ _), bind_of_ok (modify_apply _ _), if_pos hlength]
  rfl

theorem round_word {st : Setup} {t : CString × CString} {w w' : Work}
    (hx : t.2 = str "x" ∧ t.1 ≠ str " ") (homit : t.1 ∉ _punc_omit) (hpunc : t.1 ∉ _punc)
    (hread : readWord st t.1 t.2
      { w with word_initials := [], word_finals := [], phone := [] } = (Except.ok (), w')) :
    round st t w = convertPhone st w' := by
  unfold round spell
  rw [if_pos hx, if_neg homit, if_neg hpunc, bind_of_ok (modify_apply _ _), bind_of_ok hread]

theorem ModifyTone_jade :
    ModifyTone gallery (str "玉") (str "x") [str "v4"] = Except.ok [str "v4"] := by
  have hlisted : ¬ Listed ['玉'] := not_listed_of_length (by decide)
  have hunlisted : Unlisted ['玉'] [] (str "x") :=
    { twice := by
        intro j _ hrepeats
        exact absurd hrepeats.2.2 (by decide)
      word := hlisted
      first := hlisted
      second := not_listed_of_length (by decide) }
  refine (ModifyTone_quiet hunlisted (by decide) [str "v4"]).trans ?_
  decide

theorem GetWordsIdsInto_singleton (st : Setup) (t : CString × CString) :
    GetWordsIdsInto st [t] = round st t :=
  bind_pure_unit

theorem GetWordsIdsInto_jade :
    (GetWordsIdsInto gallery jade (start galleryEngine [] [])).1 = Except.ok () := by
  have hget : (GetInitialsFinals gallery (str "玉") galleryEngine).1 =
      Except.ok ([[]], [str "v4"]) := by
    decide
  have hmerge : MergeErhua [[]] [str "v4"] (str "玉") (str "x") =
      Except.ok ([[]], [str "v4"]) := by
    decide +kernel
  have hround := round_word (t := (str "玉", str "x")) (w := start galleryEngine [] [])
    (by decide) (by decide) (by decide)
    (readWord_ok rfl rfl (Prod.ext hget rfl) ModifyTone_jade hmerge rfl)
  rw [jade, GetWordsIdsInto_singleton, hround]
  rfl

theorem GetWordsIdsInto_append_gallery :
    (GetWordsIdsInto gallery (jade ++ appreciation)
        (start galleryEngine [7] [])).2.phoneids =
      [7] ++
        (GetWordsIdsInto gallery jade (start galleryEngine [] [])).2.phoneids ++
        (GetWordsIdsInto gallery appreciation
          (start galleryEngine [] [])).2.phoneids := by
  exact ((GetWordsIdsInto_append gallery galleryEngine jade appreciation jade_known
    [7] []).2 GetWordsIdsInto_jade).2.1

end Concat

end FrontEngineInterface
end VoiceTts
