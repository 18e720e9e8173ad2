import VoiceTts.Front.Synthesis

/-!
# Phones of Latin words

`G2pEModel` spells the words that `cmu_map` does not have.  Two networks, which are
arbitrary functions here, read the letters of a word and name one phone after the other.
The tables of letters and phones are read with the subscript operator, so that a lookup
can insert an entry.
-/

namespace VoiceTts

/-- The hidden state that the encoder gives, and that the decoder passes on to itself. -/
structure Networks (H : Type) where
  encoder : List Int -> H
  decoder : (input_id : Int) -> (input_h0 : H) -> H × Int

/-- The tables; the phone of an entry that a lookup has inserted is a null pointer. -/
structure G2pEModel where
  g2ids : StdMap UInt8 Int
  ids2p : StdMap Int (Option CString)

abbrev G2pM (α : Type) : Type :=
  Prog Error G2pEModel α

namespace G2pEModel

def G2P_FLAG_START_ID : Int := 2

def G2P_FLAG_END_ID : Int := 3

def graphemes : CString :=
  str "   abcdefghijklmnopqrstuvwxyz"

def phonemes : List CString :=
  [
    "<pad>", "<unk>", "<s>", "</s>", "AA0", "AA1", "AA2", "AE0", "AE1", "AE2", "AH0", "AH1",
    "AH2", "AO0", "AO1", "AO2", "AW0", "AW1", "AW2", "AY0", "AY1", "AY2", "B", "CH", "D", "DH",
    "EH0", "EH1", "EH2", "ER0", "ER1", "ER2", "EY0", "EY1", "EY2", "F", "G", "HH", "IH0",
    "IH1", "IH2", "IY0", "IY1", "IY2", "JH", "K", "L", "M", "N", "NG", "OW0", "OW1", "OW2",
    "OY0", "OY1", "OY2", "P", "R", "S", "SH", "T", "TH", "UH0", "UH1", "UH2", "UW", "UW0",
    "UW1", "UW2", "V", "W", "Y", "Z", "ZH"
  ].map str

/-- The tables as the constructor fills them; a later place of a letter counts. -/
def construct : G2pEModel where
  g2ids := StdMap.empty.insertAll (graphemes.zipIdx.map fun g => (g.1, (g.2 : Int)))
  ids2p := StdMap.empty.insertAll (phonemes.zipIdx.map fun p => ((p.2 : Int), some p.1))

def letterId (c : UInt8) : G2pM Int :=
  fun m => (Except.ok (m.g2ids.peek c), { m with g2ids := m.g2ids.touch c })

def phoneOf (token : Int) : G2pM (Option CString) :=
  fun m => (Except.ok (m.ids2p.peek token), { m with ids2p := m.ids2p.touch token })

section Calls

variable {H : Type} (nn : Networks H)

/-- The loop of `decode`, which is left after some rounds, or at the end of the word. -/
def decodeLoop : Nat -> Int -> H -> List Int
  | 0, _, _ => []
  | rounds + 1, input_id, input_h0 =>
      let output := nn.decoder input_id input_h0
      if output.2 = G2P_FLAG_END_ID then []
      else output.2 :: decodeLoop rounds output.2 output.1

/-- `output_max_len` is lowered before it is compared. -/
def decode (encoderOutput : H) : List Int :=
  decodeLoop nn (40 - 1) G2P_FLAG_START_ID encoderOutput

def letterIds : CString -> G2pM (List Int)
  | [] => pure []
  | c :: inputText => do
      let id <- letterId c
      let inputTokens <- letterIds inputText
      pure (id :: inputTokens)

def phonesOf : List Int -> G2pM (List (Option CString))
  | [] => pure []
  | token :: outputTokens => do
      let phone <- phoneOf token
      let outputPhoneme <- phonesOf outputTokens
      pure (phone :: outputPhoneme)

def g2p (inputText : CString) : G2pM (List (Option CString)) := do
  let inputTokens <- letterIds inputText
  phonesOf (decode nn (nn.encoder (inputTokens ++ [G2P_FLAG_START_ID])))

/-- The tables after the words that were spelled so far. -/
def spelled (words : List CString) : G2pEModel :=
  words.foldl (fun m word => (g2p nn word m).2) construct

/-!
## What is spelled
-/

/-- The hidden state and the phone of a round, as if there were no end. -/
def output (input_id : Int) (input_h0 : H) : Nat -> H × Int
  | 0 => nn.decoder input_id input_h0
  | round + 1 =>
      nn.decoder (output input_id input_h0 round).2 (output input_id input_h0 round).1

/-- The phone that a round names for a word; what is no letter is read as padding. -/
def named (word : CString) (round : Nat) : Int :=
  (output nn G2P_FLAG_START_ID
    (nn.encoder (word.map construct.g2ids.peek ++ [G2P_FLAG_START_ID])) round).2

/-- The phones of a word: those of the rounds up to the end, but of 39 at most. -/
def spelling (word : CString) : List (Option CString) :=
  (((List.range 39).map (named nn word)).takeWhile
    fun token => decide (token ≠ G2P_FLAG_END_ID)).map construct.ids2p.peek

theorem output_succ (input_id : Int) (input_h0 : H) (round : Nat) :
    output nn input_id input_h0 (round + 1) =
      output nn (nn.decoder input_id input_h0).2 (nn.decoder input_id input_h0).1 round := by
  induction round with
  | zero =>
      rfl
  | succ round ih =>
      rw [output, ih]
      rfl

theorem decodeLoop_eq (rounds : Nat) (input_id : Int) (input_h0 : H) :
    decodeLoop nn rounds input_id input_h0 =
      ((List.range rounds).map fun round =>
        (output nn input_id input_h0 round).2).takeWhile
          fun token => decide (token ≠ G2P_FLAG_END_ID) := by
  induction rounds generalizing input_id input_h0 with
  | zero =>
      rfl
  | succ rounds ih =>
      have hrest : (List.range rounds).map (fun round =>
          (output nn input_id input_h0 (round + 1)).2) =
          (List.range rounds).map fun round => (output nn
            (nn.decoder input_id input_h0).2 (nn.decoder input_id input_h0).1 round).2 :=
        List.map_congr_left fun round _ => congrArg Prod.snd (output_succ nn _ _ round)
      rw [decodeLoop, List.range_succ_eq_map, List.map_cons, List.map_map]
      by_cases hend : (nn.decoder input_id input_h0).2 = G2P_FLAG_END_ID
      · rw [List.takeWhile_cons_of_neg (by simp [output, hend])]
        exact if_pos hend
      · rw [List.takeWhile_cons_of_pos (by simp [output, hend])]
        refine (if_neg hend).trans (congrArg _ ?_)
        rw [ih]
        exact congrArg _ hrest.symm

/-- The tables read as the constructor has filled them. -/
def Reads (m : G2pEModel) : Prop :=
  (forall c, m.g2ids.peek c = construct.g2ids.peek c) ∧
    forall token, m.ids2p.peek token = construct.ids2p.peek token

theorem computes_letterIds (word : CString) :
    Prog.Computes Reads Reads (letterIds word)
      (Except.ok (word.map construct.g2ids.peek)) := by
  induction word with
  | nil =>
      exact Prog.computes_pure _
  | cons c word ih =>
      have hletter : Prog.Computes Reads Reads (letterId c)
          (Except.ok (construct.g2ids.peek c)) := by
        intro m hm
        exact ⟨congrArg Except.ok (hm.1 c),
          fun c' => (StdMap.peek_touch _ _ _).trans (hm.1 c'), hm.2⟩
      exact hletter.bind_ok (ih.bind_ok (Prog.computes_pure _))

theorem computes_phonesOf (tokens : List Int) :
    Prog.Computes Reads Reads (phonesOf tokens)
      (Except.ok (tokens.map construct.ids2p.peek)) := by
  induction tokens with
  | nil =>
      exact Prog.computes_pure _
  | cons token tokens ih =>
      have hphone : Prog.Computes Reads Reads (phoneOf token)
          (Except.ok (construct.ids2p.peek token)) := by
        intro m hm
        exact ⟨congrArg Except.ok (hm.2 token), hm.1,
          fun token' => (StdMap.peek_touch _ _ _).trans (hm.2 token')⟩
      exact hphone.bind_ok (ih.bind_ok (Prog.computes_pure _))

theorem computes_g2p (word : CString) :
    Prog.Computes Reads Reads (g2p nn word) (Except.ok (spelling nn word)) := by
  refine (computes_letterIds word).bind_ok ?_
  have hdecode := decodeLoop_eq nn 39 G2P_FLAG_START_ID
    (nn.encoder (word.map construct.g2ids.peek ++ [G2P_FLAG_START_ID]))
  unfold decode
  rw [hdecode]
  exact computes_phonesOf _

theorem reads_spelled (words : List CString) : Reads (spelled nn words) := by
  have hfold : forall m, Reads m ->
      Reads (words.foldl (fun m word => (g2p nn word m).2) m) := by
    induction words with
    | nil =>
        exact fun _ hm => hm
    | cons word words ih =>
        exact fun m hm => ih _ (computes_g2p nn word m hm).2
  exact hfold construct ⟨fun _ => rfl, fun _ => rfl⟩

theorem peek_phone (token : Int) :
    construct.ids2p.peek token = none ↔ ¬ (0 ≤ token ∧ token < 74) := by
  have hkeys : forall k, k ∈ phonemes.zipIdx.map (fun p => (p.2 : Int)) ->
      0 ≤ k ∧ k < 74 := by
    decide
  have hnamed : forall n : Nat, n < 74 -> construct.ids2p.peek n ≠ none := by
    decide
  constructor
  · rintro hnone ⟨hlow, hhigh⟩
    obtain ⟨n, rfl⟩ := Int.eq_ofNat_of_zero_le hlow
    exact hnamed n (by omega) hnone
  · intro hout
    have hcontains := StdMap.contains_insertAll StdMap.empty
      (phonemes.zipIdx.map fun p => ((p.2 : Int), some p.1)) token
    rw [List.map_map] at hcontains
    refine StdMap.peek_of_not_contains (hcontains.trans ?_)
    rw [Bool.or_eq_false_iff, decide_eq_false_iff_not]
    exact ⟨fun hmem => hout (hkeys token hmem), rfl⟩

theorem mem_takeWhile_range {α : Type} (p : α -> Bool) (f : Nat -> α) (n : Nat) (a : α) :
    a ∈ ((List.range n).map f).takeWhile p ↔
      exists r, r < n ∧ (forall q, q ≤ r -> p (f q) = true) ∧ f r = a := by
  induction n generalizing f with
  | zero =>
      simp
  | succ n ih =>
      rw [List.range_succ_eq_map, List.map_cons, List.map_map]
      cases hfirst : p (f 0) with
      | false =>
          rw [List.takeWhile_cons_of_neg (by simp [hfirst])]
          constructor
          · intro hmem
            cases hmem
          · rintro ⟨r, -, hall, -⟩
            rw [hall 0 (Nat.zero_le r)] at hfirst
            cases hfirst
      | true =>
          rw [List.takeWhile_cons_of_pos hfirst, List.mem_cons, ih]
          constructor
          · rintro (rfl | ⟨r, hr, hall, rfl⟩)
            · refine ⟨0, Nat.succ_pos n, fun q hq => ?_, rfl⟩
              rw [Nat.le_zero.mp hq]
              exact hfirst
            · refine ⟨r + 1, Nat.succ_lt_succ hr, fun q hq => ?_, rfl⟩
              cases q with
              | zero =>
                  exact hfirst
              | succ q =>
                  exact hall q (Nat.le_of_succ_le_succ hq)
          · rintro ⟨r, hr, hall, rfl⟩
            cases r with
            | zero =>
                exact Or.inl rfl
            | succ r =>
                exact Or.inr ⟨r, Nat.lt_of_succ_lt_succ hr,
                  fun q hq => hall (q + 1) (Nat.succ_le_succ hq), rfl⟩

/--
Whatever was spelled before, a word is spelled with the phones that the decoder names when
it is fed with its own output: up to the end, and 39 of them at most.  One of them is a
null pointer exactly when a number outside of the table is named before the end.
-/
theorem g2p_greedy (words : List CString) (word : CString) :
    (g2p nn word (spelled nn words)).1 = Except.ok (spelling nn word) ∧
      (spelling nn word).length ≤ 39 ∧
      (none ∈ spelling nn word ↔ exists round, round < 39 ∧
        (forall r, r ≤ round -> named nn word r ≠ G2P_FLAG_END_ID) ∧
        ¬ (0 ≤ named nn word round ∧ named nn word round < 74)) := by
  refine ⟨(computes_g2p nn word _ (reads_spelled nn words)).1, ?_, ?_⟩
  · unfold spelling
    rw [List.length_map]
    refine (List.takeWhile_sublist _).length_le.trans ?_
    rw [List.length_map, List.length_range]
  · unfold spelling
    rw [List.mem_map]
    constructor
    · rintro ⟨token, htoken, hnone⟩
      rcases (mem_takeWhile_range _ _ _ _).mp htoken with ⟨round, hround, hall, rfl⟩
      exact ⟨round, hround, fun r hr => of_decide_eq_true (hall r hr),
        (peek_phone _).mp hnone⟩
    · rintro ⟨round, hround, hall, hout⟩
      refine ⟨named nn word round, (mem_takeWhile_range _ _ _ _).mpr ?_,
        (peek_phone _).mpr hout⟩
      exact ⟨round, hround, fun r hr => decide_eq_true (hall r hr), rfl⟩

end Calls

end G2pEModel
end VoiceTts
