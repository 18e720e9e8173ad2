import VoiceTts.Front.Tags

/-!
# Lookups and the words that come after them

`GetPhone` asks `word_phone_map` for a word with `find`, but reads the pieces of a
word with the subscript operator.  A piece that was not in the dictionary
is there afterwards, without phones, and is no longer cut when it is looked up
itself.  This module says which words can be looked up without changing
what later words sound like.
-/

namespace VoiceTts
namespace FrontEngineInterface

open Prog

/-!
## Words that leave no trace

An entry without phones makes no difference for a word that would be cut into one
piece without phones anyway, as long as the same is true of that piece.
-/

/-- Words that are cut into one piece without phones, over and over. -/
def Mute (st : Setup) (m : StdMap CString CString) (word : CString) : Prop :=
  exists S : CString -> Prop, S word ∧ forall w, S w ->
    exists piece, st._jieba.CutAll w = [piece] ∧ m.peek piece = [] ∧
      (m.contains piece = true ∨ S piece)

theorem Mute.cut {st : Setup} {m : StdMap CString CString} {word : CString}
    (h : Mute st m word) :
    exists piece, st._jieba.CutAll word = [piece] ∧ m.peek piece = [] ∧
      (m.contains piece = true ∨ Mute st m piece) := by
  rcases h with ⟨S, hword, hS⟩
  rcases hS word hword with ⟨piece, hcut, hpeek, hpiece⟩
  exact ⟨piece, hcut, hpeek, hpiece.imp_right fun h => ⟨S, h, hS⟩⟩

/-- A lookup of the word adds nothing to the dictionary that can be heard. -/
def Harmless (st : Setup) (m : StdMap CString CString) (word : CString) : Prop :=
  m.contains word = true ∨ forall piece, piece ∈ st._jieba.CutAll word ->
    m.contains piece = true ∨ Mute st m piece

/-- Two engines whose dictionaries are the loaded one `m` up to mute words. -/
structure Similar (st : Setup) (m : StdMap CString CString)
    (e e' : FrontEngineInterface) : Prop where
  left : m.Extends e.word_phone_map
  right : m.Extends e'.word_phone_map
  mute : forall k, e.word_phone_map.contains k ≠ e'.word_phone_map.contains k ->
    Mute st m k
  phoneIds : forall k, e.phone_id_map.peek k = e'.phone_id_map.peek k
  toneIds : forall k, e.tone_id_map.peek k = e'.tone_id_map.peek k
  cmu : forall k, e.cmu_map.peek k = e'.cmu_map.peek k
  order : forall k, e.orderdict_map.peek k = e'.orderdict_map.peek k

section Similarity

variable {st : Setup} {m : StdMap CString CString}

theorem Similar.refl (st : Setup) (e : FrontEngineInterface) :
    Similar st e.word_phone_map e e where
  left := StdMap.Extends.refl _
  right := StdMap.Extends.refl _
  mute := fun _ h => absurd rfl h
  phoneIds := fun _ => rfl
  toneIds := fun _ => rfl
  cmu := fun _ => rfl
  order := fun _ => rfl

theorem Similar.symm {e e' : FrontEngineInterface} (h : Similar st m e e') :
    Similar st m e' e where
  left := h.right
  right := h.left
  mute := fun k hk => h.mute k hk.symm
  phoneIds := fun k => (h.phoneIds k).symm
  toneIds := fun k => (h.toneIds k).symm
  cmu := fun k => (h.cmu k).symm
  order := fun k => (h.order k).symm

theorem wordPhone_simulates (word : CString) :
    Simulates (Similar st m) (wordPhone word) (wordPhone word) := by
  intro e e' h
  refine ⟨?_, ?_⟩
  · change Except.ok (e.word_phone_map.peek word) =
      Except.ok (e'.word_phone_map.peek word)
    rw [h.left.peek, h.right.peek]
  · refine ⟨h.left.touch word, h.right.touch word, ?_, h.phoneIds, h.toneIds, h.cmu,
      h.order⟩
    intro k hk
    refine h.mute k fun heq => hk ?_
    change (e.word_phone_map.touch word).contains k =
      (e'.word_phone_map.touch word).contains k
    rw [StdMap.contains_touch, StdMap.contains_touch, heq]

theorem appendPhones_simulates (phone : CString) (wordcut : List CString) :
    Simulates (Similar st m) (appendPhones phone wordcut)
      (appendPhones phone wordcut) := by
  induction wordcut generalizing phone with
  | nil =>
      exact simulates_pure phone
  | cons piece wordcut ih =>
      exact (wordPhone_simulates piece).bind fun p => ih _

theorem phoneOfPieces_simulates (wordcut : List CString) :
    Simulates (Similar st m) (phoneOfPieces wordcut) (phoneOfPieces wordcut) := by
  cases wordcut with
  | nil =>
      exact fun _ _ h => ⟨rfl, h⟩
  | cons piece rest =>
      exact (wordPhone_simulates piece).bind fun phone =>
        appendPhones_simulates phone rest

theorem GetPhone_of_contains {word : CString} {e : FrontEngineInterface}
    (h : e.word_phone_map.contains word = true) :
    GetPhone st word e = (Except.ok (e.word_phone_map.peek word), e) := by
  have hget : GetPhone st word e = wordPhone word e := by
    unfold GetPhone
    rw [bind_of_ok (gets_apply _ e), h]
    rfl
  rw [hget, wordPhone, StdMap.touch_of_contains h]

theorem GetPhone_of_not_contains {word : CString} {e : FrontEngineInterface}
    (h : e.word_phone_map.contains word = false) :
    GetPhone st word e = phoneOfPieces (st._jieba.CutAll word) e := by
  unfold GetPhone
  rw [bind_of_ok (gets_apply _ e), h]
  rfl

theorem GetPhone_mute {word : CString} {e e' : FrontEngineInterface}
    (h : Similar st m e e') (hin : e.word_phone_map.contains word = true)
    (hout : e'.word_phone_map.contains word = false) :
    (GetPhone st word e).1 = (GetPhone st word e').1 ∧
      Similar st m (GetPhone st word e).2 (GetPhone st word e').2 := by
  have hmute : Mute st m word := h.mute word (by rw [hin, hout]; decide)
  rcases hmute.cut with ⟨piece, hcut, hpeek, hpiece⟩
  rw [GetPhone_of_contains hin, GetPhone_of_not_contains hout, hcut]
  have hsilent : e.word_phone_map.peek word = [] := by
    rw [h.left.peek, ← h.right.peek]
    exact StdMap.peek_of_not_contains hout
  refine ⟨?_, h.left, h.right.touch piece, ?_, h.phoneIds, h.toneIds, h.cmu,
    h.order⟩
  · change Except.ok (e.word_phone_map.peek word) =
      Except.ok (e'.word_phone_map.peek piece)
    rw [hsilent, h.right.peek, hpeek]
  · intro k hk
    change e.word_phone_map.contains k ≠
      (e'.word_phone_map.touch piece).contains k at hk
    rw [StdMap.contains_touch] at hk
    by_cases hkp : k = piece
    · subst hkp
      rcases hpiece with hknown | hmute
      · rw [h.left.keys k hknown] at hk
        simp at hk
      · exact hmute
    · simp only [hkp, decide_false, Bool.false_or] at hk
      exact h.mute k hk

theorem GetPhone_simulates (word : CString) :
    Simulates (Similar st m) (GetPhone st word) (GetPhone st word) := by
  intro e e' h
  cases hin : e.word_phone_map.contains word with
  | true =>
      cases hin' : e'.word_phone_map.contains word with
      | true =>
          rw [GetPhone_of_contains hin, GetPhone_of_contains hin', h.left.peek,
            h.right.peek]
          exact ⟨rfl, h⟩
      | false =>
          exact GetPhone_mute h hin hin'
  | false =>
      cases hin' : e'.word_phone_map.contains word with
      | true =>
          rcases GetPhone_mute h.symm hin' hin with ⟨hresult, hsimilar⟩
          exact ⟨hresult.symm, hsimilar.symm⟩
      | false =>
          rw [GetPhone_of_not_contains hin, GetPhone_of_not_contains hin']
          exact phoneOfPieces_simulates _ e e' h

end Similarity

/-!
## Calls that use the dictionaries through lookups

Whatever relation the subscripts and the lookups of words respect, the calls
built on them respect.
-/

section Passes

variable {σ τ : Type} {R : σ -> τ -> Prop}
  {getFinals : CString -> Prog Error σ (List CString)}
  {getFinals' : CString -> Prog Error τ (List CString)}

theorem finalsRows_simulates
    (h : forall w, Simulates R (getFinals w) (getFinals' w)) (l : Seg) :
    Simulates R (finalsRows getFinals l) (finalsRows getFinals' l) := by
  induction l with
  | nil =>
      exact simulates_pure []
  | cons t l ih =>
      have hrow : Simulates R (finalsRow getFinals t) (finalsRow getFinals' t) := by
        unfold finalsRow
        split
        · exact h t.1
        · exact simulates_pure []
      exact hrow.bind fun row => ih.bind fun rows => simulates_pure _

theorem mergeThree_simulates
    (h : forall w, Simulates R (getFinals w) (getFinals' w))
    (tones : List CString -> List CString -> Except Error Bool) (l : Seg) :
    Simulates R (mergeThree getFinals tones l) (mergeThree getFinals' tones l) := by
  refine (simulates_lift _).bind fun last => ?_
  refine (finalsRows_simulates h _).bind fun finals => ?_
  exact (simulates_lift _).bind fun r => simulates_pure _

theorem MergeforModify_simulates
    (h : forall w, Simulates R (getFinals w) (getFinals' w)) (l : Seg) :
    Simulates R (MergeforModify getFinals l) (MergeforModify getFinals' l) := by
  refine (simulates_lift _).bind fun m => ?_
  refine (mergeThree_simulates h _ _).bind fun m1 => ?_
  refine (mergeThree_simulates h _ _).bind fun m2 => ?_
  exact simulates_lift _

end Passes

/-- The subscripts of the dictionaries other than `word_phone_map`. -/
structure Respected (R : FrontEngineInterface -> FrontEngineInterface -> Prop) :
    Prop where
  phoneId : forall k, Simulates R (phoneId k) (phoneId k)
  toneId : forall k, Simulates R (toneId k) (toneId k)
  cmuEntry : forall k, Simulates R (cmuEntry k) (cmuEntry k)
  orderEntry : forall k, Simulates R (orderEntry k) (orderEntry k)

section Words

variable {st : Setup} {R : FrontEngineInterface -> FrontEngineInterface -> Prop}

theorem GetInitialsFinals_simulates {w : CString}
    (h : Simulates R (GetPhone st w) (GetPhone st w)) :
    Simulates R (GetInitialsFinals st w) (GetInitialsFinals st w) :=
  h.bind fun _ => simulates_lift _

theorem GetFinals_simulates {w : CString}
    (h : Simulates R (GetPhone st w) (GetPhone st w)) :
    Simulates R (GetFinals st w) (GetFinals st w) :=
  (GetInitialsFinals_simulates h).bind fun _ => simulates_pure _

theorem idsOfPhone_simulates (hR : Respected R) (phone : CString) :
    Simulates R (idsOfPhone st phone) (idsOfPhone st phone) := by
  unfold idsOfPhone
  split
  · refine (hR.phoneId _).bind fun id => ?_
    cases phone.getLast? with
    | none =>
        exact fun _ _ h => ⟨rfl, h⟩
    | some c =>
        exact (hR.toneId _).bind fun tone => simulates_pure _
  · exact (hR.phoneId _).bind fun id => simulates_pure _

theorem Phone2Phoneid_simulates (hR : Respected R) (phone : CString) :
    Simulates R (Phone2Phoneid st phone) (Phone2Phoneid st phone) := by
  unfold Phone2Phoneid
  induction Stringsplit phone 32 with
  | nil =>
      exact simulates_pure _
  | cons phone phone_vec ih =>
      exact (idsOfPhone_simulates hR phone).bind fun r =>
        ih.bind fun rs => simulates_pure _

theorem latinPhones_simulates (hR : Respected R) (word : CString) :
    Simulates R (latinPhones st word) (latinPhones st word) := by
  refine (hR.cmuEntry word).bind fun entry => ?_
  split
  · refine (hR.cmuEntry word).bind fun entry => ?_
    exact (simulates_lift _).bind fun first => simulates_pure _
  · exact simulates_pure _

theorem idsOfLatinPhones_simulates (hR : Respected R) (word_final : List CString) :
    Simulates R (idsOfLatinPhones st word_final)
      (idsOfLatinPhones st word_final) := by
  induction word_final with
  | nil =>
      exact simulates_pure _
  | cons phone word_final ih =>
      have hphone : Simulates R (idsOfLatinPhone st phone)
          (idsOfLatinPhone st phone) := by
        refine (hR.orderEntry phone).bind fun entry => ?_
        split
        · exact Phone2Phoneid_simulates hR phone
        · exact simulates_pure _
      exact hphone.bind fun r => ih.bind fun rs => simulates_pure _

/-- The words that one round of `GetWordsIds` looks up. -/
def tokenLookups (t : CString × CString) : List CString :=
  if t.2 = str "x" ∧ t.1 ≠ str " " ∧ t.1 ∉ _punc_omit ∧ t.1 ∉ _punc then [t.1]
  else []

theorem idsOfToken_simulates (hR : Respected R) {t : CString × CString}
    (h : forall w, w ∈ tokenLookups t -> Simulates R (GetPhone st w) (GetPhone st w)) :
    Simulates R (idsOfToken st t) (idsOfToken st t) := by
  unfold idsOfToken
  split
  · rename_i hx
    split
    · exact simulates_pure _
    · rename_i homit
      split
      · exact Phone2Phoneid_simulates hR _
      · rename_i hpunc
        have hword : t.1 ∈ tokenLookups t := by
          simp [tokenLookups, hx, homit, hpunc]
        refine (GetInitialsFinals_simulates (h t.1 hword)).bind fun r => ?_
        exact (simulates_lift _).bind fun phone => Phone2Phoneid_simulates hR phone
  · split
    · exact (latinPhones_simulates hR _).bind fun word_final =>
        idsOfLatinPhones_simulates hR word_final
    · exact simulates_pure _

theorem GetWordsIds_simulates (hR : Respected R)
    (h : forall w, Simulates R (GetPhone st w) (GetPhone st w)) (tokens : Seg) :
    Simulates R (GetWordsIds st tokens) (GetWordsIds st tokens) := by
  induction tokens with
  | nil =>
      exact simulates_pure _
  | cons t tokens ih =>
      exact (idsOfToken_simulates hR fun w _ => h w).bind fun r =>
        ih.bind fun rs => simulates_pure _

theorem GetSentenceIds_simulates (hR : Respected R)
    (h : forall w, Simulates R (GetPhone st w) (GetPhone st w))
    (sentence : CString) :
    Simulates R (GetSentenceIds st sentence) (GetSentenceIds st sentence) :=
  (MergeforModify_simulates (fun w => GetFinals_simulates (h w)) _).bind
    fun tokens => GetWordsIds_simulates hR h tokens

end Words

/-- What the other dictionaries would answer does not change by asking. -/
theorem respected_similar {st : Setup} {m : StdMap CString CString} :
    Respected (Similar st m) where
  phoneId := fun k _ _ h => ⟨congrArg Except.ok (h.phoneIds k),
    { h with phoneIds := StdMap.peek_touch_congr h.phoneIds k }⟩
  toneId := fun k _ _ h => ⟨congrArg Except.ok (h.toneIds k),
    { h with toneIds := StdMap.peek_touch_congr h.toneIds k }⟩
  cmuEntry := fun k _ _ h => ⟨congrArg Except.ok (h.cmu k),
    { h with cmu := StdMap.peek_touch_congr h.cmu k }⟩
  orderEntry := fun k _ _ h => ⟨congrArg Except.ok (h.order k),
    { h with order := StdMap.peek_touch_congr h.order k }⟩

/-!
## Calls that look up harmless words only
-/

/-- The words that `GetWordsIds` looks up, up to an error. -/
def wordLookups (st : Setup) : Seg -> FrontEngineInterface -> List CString
  | [], _ => []
  | t :: tokens, e =>
      tokenLookups t ++
        match idsOfToken st t e with
        | (Except.ok _, e') => wordLookups st tokens e'
        | (Except.error _, _) => []

/-- The words that `GetSentenceIds` looks up: in the passes over tones and after. -/
def sentenceLookups (st : Setup) (sentence : CString) (e : FrontEngineInterface) :
    List CString :=
  let r := MergeforModify (recording (GetFinals st)) (segment st sentence) (e, [])
  r.2.2 ++
    match r.1 with
    | Except.ok tokens => wordLookups st tokens r.2.1
    | Except.error _ => []

section Calm

variable {st : Setup} {e0 : FrontEngineInterface}

/-- The engine has heard nothing since it was loaded that it would repeat. -/
def Calm (st : Setup) (e0 e : FrontEngineInterface) : Prop :=
  Similar st e0.word_phone_map e e0

theorem wordPhone_calm {piece : CString}
    (h : e0.word_phone_map.contains piece = true ∨ Mute st e0.word_phone_map piece) :
    Keeps (Calm st e0) (wordPhone piece) := by
  intro e hcalm
  refine ⟨hcalm.left.touch piece, hcalm.right, ?_, hcalm.phoneIds, hcalm.toneIds,
    hcalm.cmu, hcalm.order⟩
  intro k hk
  change (e.word_phone_map.touch piece).contains k ≠
    e0.word_phone_map.contains k at hk
  rw [StdMap.contains_touch] at hk
  by_cases hkp : k = piece
  · subst hkp
    rcases h with hknown | hmute
    · rw [hknown] at hk
      simp at hk
    · exact hmute
  · simp only [hkp, decide_false, Bool.false_or] at hk
    exact hcalm.mute k hk

theorem appendPhones_calm {wordcut : List CString}
    (h : forall piece, piece ∈ wordcut ->
      e0.word_phone_map.contains piece = true ∨ Mute st e0.word_phone_map piece)
    (phone : CString) : Keeps (Calm st e0) (appendPhones phone wordcut) := by
  induction wordcut generalizing phone with
  | nil =>
      exact keeps_pure phone
  | cons piece wordcut ih =>
      refine (wordPhone_calm (h piece (by simp))).bind fun p => ?_
      exact ih (fun q hq => h q (by simp [hq])) _

theorem GetPhone_calm {word : CString}
    (h : Harmless st e0.word_phone_map word) :
    Keeps (Calm st e0) (GetPhone st word) := by
  intro e hcalm
  cases hin : e.word_phone_map.contains word with
  | true =>
      rw [GetPhone_of_contains hin]
      exact hcalm
  | false =>
      rw [GetPhone_of_not_contains hin]
      have hpieces : forall piece, piece ∈ st._jieba.CutAll word ->
          e0.word_phone_map.contains piece = true ∨
            Mute st e0.word_phone_map piece := by
        refine h.resolve_left fun hknown => ?_
        rw [hcalm.left.keys word hknown] at hin
        cases hin
      cases hcut : st._jieba.CutAll word with
      | nil =>
          exact hcalm
      | cons piece rest =>
          rw [hcut] at hpieces
          refine (wordPhone_calm (hpieces piece (by simp))).bind (fun phone => ?_) e
            hcalm
          exact appendPhones_calm (fun q hq => hpieces q (by simp [hq])) phone

theorem GetFinals_calm {word : CString} (h : Harmless st e0.word_phone_map word) :
    Keeps (Calm st e0) (GetFinals st word) :=
  simulates_self.mp (GetFinals_simulates (simulates_self.mpr (GetPhone_calm h)))

theorem respected_calm : Respected (fun e e' => e = e' ∧ Calm st e0 e) where
  phoneId := fun k => simulates_self.mpr fun _ h =>
    { h with phoneIds := fun k' => (StdMap.peek_touch _ k k').trans (h.phoneIds k') }
  toneId := fun k => simulates_self.mpr fun _ h =>
    { h with toneIds := fun k' => (StdMap.peek_touch _ k k').trans (h.toneIds k') }
  cmuEntry := fun k => simulates_self.mpr fun _ h =>
    { h with cmu := fun k' => (StdMap.peek_touch _ k k').trans (h.cmu k') }
  orderEntry := fun k => simulates_self.mpr fun _ h =>
    { h with order := fun k' => (StdMap.peek_touch _ k k').trans (h.order k') }

theorem GetWordsIds_calm {tokens : Seg} {e : FrontEngineInterface}
    (hcalm : Calm st e0 e)
    (h : forall w, w ∈ wordLookups st tokens e -> Harmless st e0.word_phone_map w) :
    Calm st e0 (GetWordsIds st tokens e).2 := by
  induction tokens generalizing e with
  | nil =>
      exact hcalm
  | cons t tokens ih =>
      have htoken : Keeps (Calm st e0) (idsOfToken st t) := by
        refine simulates_self.mp (idsOfToken_simulates respected_calm ?_)
        intro w hw
        exact simulates_self.mpr (GetPhone_calm (h w (List.mem_append_left _ hw)))
      have hnext := htoken e hcalm
      unfold wordLookups at h
      unfold GetWordsIds
      rcases hrun : idsOfToken st t e with ⟨r, e1⟩
      rw [hrun] at hnext h
      cases r with
      | error err =>
          rw [bind_of_error hrun]
          exact hnext
      | ok r =>
          have hrest := ih hnext fun w hw => h w (List.mem_append_right _ hw)
          rw [bind_of_ok hrun]
          rcases hrun' : GetWordsIds st tokens e1 with ⟨rs, e2⟩
          rw [hrun'] at hrest
          cases rs with
          | error err =>
              rw [bind_of_error hrun']
              exact hrest
          | ok rs =>
              rw [bind_of_ok hrun']
              exact hrest

theorem GetSentenceIds_calm {sentence : CString} {e : FrontEngineInterface}
    (hcalm : Calm st e0 e)
    (h : forall w, w ∈ sentenceLookups st sentence e ->
      Harmless st e0.word_phone_map w) :
    Calm st e0 (GetSentenceIds st sentence e).2 := by
  have hsim := MergeforModify_simulates
    (recording_simulates (f := GetFinals st) fun _ => GetFinals_calm)
    (segment st sentence) (e, []) e ⟨rfl, fun _ => hcalm⟩
  unfold sentenceLookups at h
  dsimp only at h
  rcases hsim with ⟨hresult, hstate, hkept⟩
  rw [hresult, hstate] at h
  have hcut : Calm st e0 (Cut st sentence e).2 :=
    hkept fun w hw => h w (List.mem_append_left _ hw)
  rcases hrun : Cut st sentence e with ⟨r, e1⟩
  have hrun' : MergeforModify (GetFinals st) (segment st sentence) e = (r, e1) := hrun
  rw [hrun'] at h
  rw [hrun] at hcut
  cases r with
  | error err =>
      rw [GetSentenceIds, bind_of_error hrun]
      exact hcut
  | ok tokens =>
      rw [GetSentenceIds, bind_of_ok hrun]
      exact GetWordsIds_calm hcut fun w hw => h w (List.mem_append_right _ hw)

end Calm

/-!
## Runs
-/

inductive Call where
  | GetPhone (word : CString)
  | GetSentenceIds (sentence : CString)

def Call.exec (st : Setup) (e : FrontEngineInterface) : Call -> FrontEngineInterface
  | Call.GetPhone word => (FrontEngineInterface.GetPhone st word e).2
  | Call.GetSentenceIds sentence =>
      (FrontEngineInterface.GetSentenceIds st sentence e).2

def Call.lookups (st : Setup) (e : FrontEngineInterface) : Call -> List CString
  | Call.GetPhone word => [word]
  | Call.GetSentenceIds sentence => sentenceLookups st sentence e

/-- The engines reached from `e0` by calls that look up harmless words only. -/
inductive HarmlessRun (st : Setup) (e0 : FrontEngineInterface) :
    FrontEngineInterface -> Prop where
  | loaded : HarmlessRun st e0 e0
  | call {e : FrontEngineInterface} : HarmlessRun st e0 e -> (c : Call) ->
      (forall w, w ∈ c.lookups st e -> Harmless st e0.word_phone_map w) ->
      HarmlessRun st e0 (c.exec st e)

theorem HarmlessRun.calm {st : Setup} {e0 e : FrontEngineInterface}
    (h : HarmlessRun st e0 e) : Calm st e0 e := by
  induction h with
  | loaded =>
      exact Similar.refl st e0
  | call _ c hc ih =>
      cases c with
      | GetPhone word =>
          exact GetPhone_calm (hc word (List.mem_singleton_self word)) _ ih
      | GetSentenceIds sentence =>
          exact GetSentenceIds_calm ih hc

/--
As long as only harmless words have been looked up, every word and every sentence
sounds as it did on the engine as it was loaded.
-/
theorem lookups_keep_pronunciation (st : Setup) (e0 e : FrontEngineInterface)
    (h : HarmlessRun st e0 e) :
    (forall word, (GetPhone st word e).1 = (GetPhone st word e0).1) ∧
      forall sentence,
        (GetSentenceIds st sentence e).1 = (GetSentenceIds st sentence e0).1 := by
  refine ⟨fun word => (GetPhone_simulates word e e0 h.calm).1, fun sentence => ?_⟩
  exact (GetSentenceIds_simulates respected_similar GetPhone_simulates sentence e e0
    h.calm).1

/-!
## Words that are not harmless
-/

section Traces

variable {st : Setup} {m : StdMap CString CString}

theorem keeps_extends_wordPhone (piece : CString) :
    Keeps (fun e => m.Extends e.word_phone_map) (wordPhone piece) :=
  fun _ h => h.touch piece

theorem keeps_extends_appendPhones (phone : CString) (wordcut : List CString) :
    Keeps (fun e => m.Extends e.word_phone_map) (appendPhones phone wordcut) := by
  induction wordcut generalizing phone with
  | nil =>
      exact keeps_pure phone
  | cons piece wordcut ih =>
      exact (keeps_extends_wordPhone piece).bind fun p => ih _

theorem contains_wordPhone (piece : CString) (e : FrontEngineInterface) :
    (wordPhone piece e).2.word_phone_map.contains piece = true := by
  change (e.word_phone_map.touch piece).contains piece = true
  rw [StdMap.contains_touch]
  simp

theorem contains_appendPhones {wordcut : List CString} {piece : CString}
    (phone : CString) (e : FrontEngineInterface)
    (h : piece ∈ wordcut ∨ e.word_phone_map.contains piece = true) :
    (appendPhones phone wordcut e).2.word_phone_map.contains piece = true := by
  induction wordcut generalizing phone e with
  | nil =>
      exact h.resolve_left (by simp)
  | cons first wordcut ih =>
      refine ih _ (wordPhone first e).2 ?_
      rcases h with h | h
      · rcases List.mem_cons.mp h with rfl | h
        · exact Or.inr (contains_wordPhone piece e)
        · exact Or.inl h
      · exact Or.inr ((keeps_extends_wordPhone first e
          (StdMap.Extends.refl _)).keys piece h)

theorem contains_phoneOfPieces {wordcut : List CString} {piece : CString}
    (h : piece ∈ wordcut) (e : FrontEngineInterface) :
    (phoneOfPieces wordcut e).2.word_phone_map.contains piece = true := by
  cases wordcut with
  | nil =>
      simp at h
  | cons first rest =>
      refine contains_appendPhones _ (wordPhone first e).2 ?_
      rcases List.mem_cons.mp h with rfl | h
      · exact Or.inr (contains_wordPhone piece e)
      · exact Or.inl h

theorem keeps_extends_phoneOfPieces (wordcut : List CString) :
    Keeps (fun e => m.Extends e.word_phone_map) (phoneOfPieces wordcut) := by
  cases wordcut with
  | nil =>
      exact fun _ h => h
  | cons first rest =>
      exact (keeps_extends_wordPhone first).bind fun phone =>
        keeps_extends_appendPhones phone rest

theorem GetPhone_silences {word piece : CString} {e : FrontEngineInterface}
    (hword : e.word_phone_map.contains word = false)
    (hpiece : piece ∈ st._jieba.CutAll word)
    (hnew : e.word_phone_map.contains piece = false) :
    (GetPhone st piece (GetPhone st word e).2).1 = Except.ok [] := by
  rw [GetPhone_of_not_contains hword,
    GetPhone_of_contains (contains_phoneOfPieces hpiece e)]
  have hextends := keeps_extends_phoneOfPieces (st._jieba.CutAll word) e
    (StdMap.Extends.refl e.word_phone_map)
  rw [hextends.peek, StdMap.peek_of_not_contains hnew]
  rfl

end Traces

/-- A segmenter that knows two titles, and the words they are made of. -/
def gallery : Setup where
  _jieba := {
    Cut := fun s => [s]
    CutAll := fun s =>
      if s = str "韩玉鉴赏" then [str "韩玉鉴赏", str "鉴赏"]
      else if s = str "玉鉴赏" then [str "玉", str "鉴赏"]
      else [s]
    CutForSearch := fun s => [s] }
  g2pmodel := fun _ => []
  _seperate_tone := str "false"

def galleryEngine : FrontEngineInterface :=
  wordEngine [(str "玉", str "v4"), (str "鉴赏", str "j ian4 sh ang3")]

theorem lookups_keep_pronunciation_gallery :
    (forall word,
      (GetPhone gallery word (GetPhone gallery (str "玉鉴赏") galleryEngine).2).1 =
        (GetPhone gallery word galleryEngine).1) ∧
    forall sentence,
      (GetSentenceIds gallery sentence
        (GetPhone gallery (str "玉鉴赏") galleryEngine).2).1 =
        (GetSentenceIds gallery sentence galleryEngine).1 := by
  refine lookups_keep_pronunciation gallery galleryEngine _
    (HarmlessRun.call HarmlessRun.loaded (Call.GetPhone (str "玉鉴赏")) ?_)
  intro w hw
  rw [List.mem_singleton.mp hw]
  refine Or.inr fun piece hpiece => Or.inl ?_
  have hcut : gallery._jieba.CutAll (str "玉鉴赏") = [str "玉", str "鉴赏"] := by
    decide +kernel
  rw [hcut] at hpiece
  simp only [List.mem_cons, List.not_mem_nil, or_false] at hpiece
  rcases hpiece with rfl | rfl
  · decide +kernel
  · decide +kernel

theorem lookups_change_pronunciation_gallery :
    ¬ forall (calls : List Call) (word : CString),
      (GetPhone gallery word (calls.foldl (Call.exec gallery) galleryEngine)).1 =
        (GetPhone gallery word galleryEngine).1 := by
  intro h
  have hagain := h [Call.GetPhone (str "韩玉鉴赏")] (str "韩玉鉴赏")
  exact absurd hagain (by decide +kernel)

end FrontEngineInterface
end VoiceTts
