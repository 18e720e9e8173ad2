import VoiceTts.Front.Buffers

/-!
# The ids without the buffers

`GetWordsIds` returns the ids that it appends and has no buffers.  The loop with
its buffers appends these ids to the vectors of the caller, and stops where
`GetWordsIds` stops.
-/

namespace VoiceTts
namespace FrontEngineInterface

open Prog

/-!
## Programs that append
-/

/-- The second program appends what the first one returns. -/
def Appends (m : FrontM (List Int × List Int)) (k : WorkM Unit) : Prop :=
  forall w, (k w).1 = (m w.engine).1.map (fun _ => ()) ∧
    (k w).2.engine = (m w.engine).2 ∧
    forall r, (m w.engine).1 = Except.ok r ->
      (k w).2.phoneids = w.phoneids ++ r.1 ∧ (k w).2.toneids = w.toneids ++ r.2

theorem appends_pure : Appends (pure ([], [])) (pure ()) := by
  intro w
  refine ⟨rfl, rfl, ?_⟩
  intro r hr
  cases hr
  simp

theorem Appends.after_engine {α : Type} {m : FrontM α}
    {f : α -> FrontM (List Int × List Int)} {k : α -> WorkM Unit}
    (h : forall a, Appends (f a) (k a)) : Appends (m >>= f) (onEngine m >>= k) := by
  intro w
  rcases hm : m w.engine with ⟨r, e⟩
  have hon : onEngine m w = (r, { w with engine := e }) := by
    simp [onEngine, hm]
  cases r with
  | error err =>
      rw [bind_of_error hm, bind_of_error hon]
      exact ⟨rfl, rfl, fun r hr => by cases hr⟩
  | ok a =>
      rw [bind_of_ok hm, bind_of_ok hon]
      exact h a { w with engine := e }

theorem Appends.seq {m m' : FrontM (List Int × List Int)} {k k' : WorkM Unit}
    (h : Appends m k) (h' : Appends m' k') :
    Appends (m >>= fun r => m' >>= fun rs => pure (r.1 ++ rs.1, r.2 ++ rs.2))
      (k >>= fun _ => k') := by
  intro w
  rcases h w with ⟨hresult, hengine, hids⟩
  rcases hm : m w.engine with ⟨r, e⟩
  rcases hk : k w with ⟨u, w1⟩
  rw [hm, hk] at hresult hengine hids
  dsimp only at hresult hengine hids
  cases r with
  | error err =>
      rw [hresult] at hk
      rw [bind_of_error hm, bind_of_error hk]
      exact ⟨rfl, hengine, fun r hr => by cases hr⟩
  | ok r =>
      rw [hresult] at hk
      rw [bind_of_ok hm, bind_of_ok hk]
      rcases hids r rfl with ⟨hphoneids, htoneids⟩
      rcases h' w1 with ⟨hresult', hengine', hids'⟩
      rw [hengine] at hresult' hengine' hids'
      rcases hm' : m' e with ⟨rs, e'⟩
      rw [hm'] at hresult' hengine' hids'
      dsimp only at hresult' hengine' hids'
      cases rs with
      | error err =>
          rw [bind_of_error hm']
          exact ⟨hresult', hengine', fun r hr => by cases hr⟩
      | ok rs =>
          rw [bind_of_ok hm']
          refine ⟨hresult', hengine', ?_⟩
          intro r' hr'
          cases hr'
          rcases hids' rs rfl with ⟨hphoneids', htoneids'⟩
          rw [hphoneids', htoneids', hphoneids, htoneids]
          simp

/-!
## Phones
-/

theorem pushPhone_appends (st : Setup) (phone : CString) :
    Appends (idsOfPhone st phone) (pushPhone st phone) := by
  intro w
  unfold idsOfPhone pushPhone
  by_cases hmode : st._seperate_tone = str "true"
  · rw [if_pos hmode, if_pos hmode]
    cases hlast : phone.getLast? with
    | none =>
        exact ⟨rfl, rfl, fun r hr => by cases hr⟩
    | some c =>
        refine ⟨rfl, rfl, ?_⟩
        intro r hr
        cases hr
        exact ⟨rfl, rfl⟩
  · rw [if_neg hmode, if_neg hmode]
    refine ⟨rfl, rfl, ?_⟩
    intro r hr
    cases hr
    exact ⟨rfl, (List.append_nil _).symm⟩

theorem pushPhones_appends (st : Setup) (phones : List CString) :
    Appends (idsOfPhones st phones) (pushPhones st phones) := by
  induction phones with
  | nil =>
      exact appends_pure
  | cons phone phones ih =>
      exact (pushPhone_appends st phone).seq ih

/-- From cleared buffers the program leaves in `phone` what the first one returns. -/
def Leaves (m : FrontM CString) (k : WorkM Unit) : Prop :=
  forall w, w.word_initials = [] -> w.word_finals = [] -> w.phone = [] ->
    (k w).1 = (m w.engine).1.map (fun _ => ()) ∧
    (k w).2.engine = (m w.engine).2 ∧
    (k w).2.phoneids = w.phoneids ∧ (k w).2.toneids = w.toneids ∧
    forall phone, (m w.engine).1 = Except.ok phone -> (k w).2.phone = phone

theorem Leaves.convertPhone {m : FrontM CString} {k : WorkM Unit} (h : Leaves m k)
    (st : Setup) :
    Appends (m >>= fun phone => Phone2Phoneid st phone)
      (modify (fun w =>
          { w with word_initials := [], word_finals := [], phone := [] }) >>= fun _ =>
        k >>= fun _ => convertPhone st) := by
  intro w
  rw [bind_of_ok (modify_apply _ w)]
  rcases h { w with word_initials := [], word_finals := [], phone := [] } rfl rfl rfl with
    ⟨hresult, hengine, hphoneids, htoneids, hphone⟩
  dsimp only at hresult hengine hphoneids htoneids hphone
  rcases hm : m w.engine with ⟨r, e⟩
  rcases hk : k { w with word_initials := [], word_finals := [], phone := [] } with
    ⟨u, w1⟩
  rw [hm, hk] at hresult hengine hphone
  rw [hk] at hphoneids htoneids
  dsimp only at hresult hengine hphoneids htoneids hphone
  cases r with
  | error err =>
      rw [hresult] at hk
      rw [bind_of_error hm, bind_of_error hk]
      exact ⟨rfl, hengine, fun r hr => by cases hr⟩
  | ok phone =>
      rw [hresult] at hk
      rw [bind_of_ok hm, bind_of_ok hk]
      have happends := pushPhones_appends st (Stringsplit phone 32) w1
      rw [hengine, hphoneids, htoneids] at happends
      have hconvert : FrontEngineInterface.convertPhone st w1 =
          pushPhones st (Stringsplit phone 32) w1 := by
        rw [← hphone phone rfl]
        rfl
      rw [hconvert]
      exact happends

/-!
## Words
-/

theorem intercalate_blank (p : CString) (l : List CString) :
    List.intercalate (str " ") (p :: l) = p ++ l.flatMap fun q => str " " ++ q := by
  induction l generalizing p with
  | nil =>
      simp
  | cons q l ih =>
      rw [List.intercalate_cons_cons, ih, List.flatMap_cons]
      simp

theorem appendSyllables_succ (j : Nat) (phone : CString) (is fs : List CString) :
    appendSyllables (j + 1) phone is fs =
      phone ++ (List.zipWith syllable is fs).flatMap fun q => str " " ++ q := by
  induction is generalizing j phone fs with
  | nil =>
      simp [appendSyllables]
  | cons initial is ih =>
      cases fs with
      | nil =>
          simp [appendSyllables]
      | cons final fs =>
          rw [appendSyllables, if_neg (Nat.succ_ne_zero j), ih, List.zipWith_cons_cons,
            List.flatMap_cons]
          simp

theorem appendSyllables_zero (is fs : List CString) :
    appendSyllables 0 [] is fs = assemble is fs := by
  unfold assemble
  cases is with
  | nil =>
      simp [appendSyllables]
  | cons initial is =>
      cases fs with
      | nil =>
          simp [appendSyllables]
      | cons final fs =>
          rw [appendSyllables, if_pos rfl, appendSyllables_succ, List.zipWith_cons_cons,
            intercalate_blank]
          rfl

theorem readWord_leaves (st : Setup) (word pos : CString) :
    Leaves (GetInitialsFinals st word >>= fun r => lift (wordPhones st word pos r))
      (readWord st word pos) := by
  rintro ⟨engine, is, fs, phone, phoneids, toneids⟩ hinitials hfinals hphone
  change is = [] at hinitials
  change fs = [] at hfinals
  change phone = [] at hphone
  subst hinitials hfinals hphone
  rcases hm : GetInitialsFinals st word engine with ⟨r, e⟩
  have hon : onEngine (GetInitialsFinals st word) ⟨engine, [], [], [], phoneids, toneids⟩ =
      (r, ⟨e, [], [], [], phoneids, toneids⟩) := by
    simp [onEngine, hm]
  unfold readWord
  cases r with
  | error err =>
      rw [bind_of_error hm, bind_of_error hon]
      exact ⟨rfl, rfl, rfl, rfl, fun phone h => by cases h⟩
  | ok r =>
      rw [bind_of_ok hm, bind_of_ok hon, bind_of_ok (modify_apply _ _),
        bind_of_ok (gets_apply _ _)]
      dsimp only [List.nil_append, lift_apply]
      cases hmodify : ModifyTone st word pos r.2 with
      | error err =>
          have hword : wordPhones st word pos r = Except.error err := by
            unfold wordPhones
            rw [hmodify]
            rfl
          rw [hword, bind_of_error (lift_apply _ _)]
          exact ⟨rfl, rfl, rfl, rfl, fun phone h => by cases h⟩
      | ok word_finals =>
          rw [bind_of_ok (lift_apply _ _), bind_of_ok (gets_apply _ _)]
          dsimp only
          cases hmerge : MergeErhua r.1 word_finals word pos with
          | error err =>
              have hword : wordPhones st word pos r = Except.error err := by
                unfold wordPhones
                rw [hmodify, ok_bind, hmerge]
                rfl
              rw [hword, bind_of_error (lift_apply _ _)]
              exact ⟨rfl, rfl, rfl, rfl, fun phone h => by cases h⟩
          | ok merged =>
              rw [bind_of_ok (lift_apply _ _), bind_of_ok (modify_apply _ _)]
              by_cases hlen : merged.1.length = merged.2.length
              · have hword : wordPhones st word pos r =
                    Except.ok (assemble merged.1 merged.2) := by
                  unfold wordPhones
                  rw [hmodify, ok_bind, hmerge, ok_bind, if_pos hlen]
                  rfl
                rw [hword, if_pos hlen]
                refine ⟨rfl, rfl, rfl, rfl, ?_⟩
                intro phone h
                cases h
                exact appendSyllables_zero merged.1 merged.2
              · have hword : wordPhones st word pos r = Except.error Error.assertion := by
                  unfold wordPhones
                  rw [hmodify, ok_bind, hmerge, ok_bind, if_neg hlen]
                rw [hword, if_neg hlen]
                exact ⟨rfl, rfl, rfl, rfl, fun phone h => by cases h⟩

theorem pause_leaves (phone : CString) :
    Leaves (pure phone) (modify fun w => { w with phone := phone }) := by
  intro w _ _ _
  refine ⟨rfl, rfl, rfl, rfl, ?_⟩
  intro p h
  cases h
  rfl

theorem spell_leaves (st : Setup) (t : CString × CString) :
    Leaves (if t.1 ∈ _punc then pure (pausePhone st)
      else GetInitialsFinals st t.1 >>= fun r => lift (wordPhones st t.1 t.2 r))
      (spell st t) := by
  unfold spell
  split
  · exact pause_leaves _
  · exact readWord_leaves st t.1 t.2

theorem readLatinPhone_appends (st : Setup) (phone : CString) :
    Appends (idsOfLatinPhone st phone) (readLatinPhone st phone) := by
  intro w
  have hentry : orderEntry phone w.engine =
      (Except.ok (w.engine.orderdict_map.peek phone), (orderEntry phone w.engine).2) := rfl
  have hon : onEngine (orderEntry phone) { w with phone := phone } =
      (Except.ok (w.engine.orderdict_map.peek phone),
        { w with phone := phone, engine := (orderEntry phone w.engine).2 }) := rfl
  unfold idsOfLatinPhone readLatinPhone
  rw [bind_of_ok hentry, bind_of_ok (modify_apply _ _), bind_of_ok hon]
  split
  · exact pushPhones_appends st (Stringsplit phone 32)
      { w with phone := phone, engine := (orderEntry phone w.engine).2 }
  · refine ⟨rfl, rfl, ?_⟩
    intro r hr
    cases hr
    simp

theorem readLatin_appends (st : Setup) (word_final : List CString) :
    Appends (idsOfLatinPhones st word_final) (readLatin st word_final) := by
  induction word_final with
  | nil =>
      exact appends_pure
  | cons phone word_final ih =>
      exact (readLatinPhone_appends st phone).seq ih

/-!
## The loop
-/

theorem round_appends (st : Setup) (t : CString × CString) :
    Appends (idsOfToken st t) (round st t) := by
  unfold idsOfToken round
  split
  · split
    · exact appends_pure
    · have hspell := (spell_leaves st t).convertPhone st
      split
      · rename_i hpunc
        rw [if_pos hpunc, pure_bind] at hspell
        exact hspell
      · rename_i hpunc
        rw [if_neg hpunc, bind_assoc] at hspell
        exact hspell
  · split
    · exact Appends.after_engine fun word_final => readLatin_appends st word_final
    · exact appends_pure

theorem GetWordsIdsInto_appends (st : Setup) (cut_result : Seg) :
    Appends (GetWordsIds st cut_result) (GetWordsIdsInto st cut_result) := by
  induction cut_result with
  | nil =>
      exact appends_pure
  | cons t cut_result ih =>
      exact (round_appends st t).seq ih

end FrontEngineInterface
end VoiceTts
