import VoiceTts.Lib.Trie
import VoiceTts.Segmenter.Runes

/-!
# The dictionary of the segmenter

`DictTrie` keeps the words in a trie.  User words are added while the program runs:
`InsertUserWord` gives one word a unit.  `DeleteUserWord` erases the branch of the first
rune of the word and then reads the erased entry.  For a text `Find` lists the words of
the dictionary that start at each of its positions.
-/

namespace VoiceTts
namespace Cppjieba

open Tiling

/--
What the segmenter needs of double-precision numbers: a comparison and an addition
that respects it.  The laws hold for all of them that are numbers; addition is not
taken to be associative.
-/
class Double (W : Type) extends LinearOrder W, Zero W, Add W where
  MIN_DOUBLE : W
  zero_add : forall a : W, 0 + a = a
  add_comm : forall a b : W, a + b = b + a
  add_le_add : forall a b c : W, a ≤ b -> a + c ≤ b + c

export Double (MIN_DOUBLE)

/-- Whole numbers are exact. -/
instance : Double Int where
  MIN_DOUBLE := -(314 * 10 ^ 98)
  zero_add := Int.zero_add
  add_comm := Int.add_comm
  add_le_add := fun _ _ c h => Int.add_le_add_right h c

/-- The functions of the C library that weights are read and computed with. -/
structure Libm (W : Type) where
  log : W -> W
  div : W -> W -> W
  ofInt : Int -> W
  atof : CString -> W

def MAX_WORD_LENGTH : Nat := 512

structure DictUnit (W : Type) where
  word : List Rune
  weight : W
  tag : CString
deriving DecidableEq

/--
A dictionary, in which every unit stands under its own word and every branch leads to
a word.
-/
structure DictTrie (W : Type) where
  trie_ : Trie Rune (DictUnit W)
  freq_sum_ : W
  min_weight_ : W
  user_word_default_weight_ : W
  user_dict_single_chinese_word_ : List Rune
  keyed : forall k u, trie_.find k = some u -> u.word = k ∧ k ≠ []
  grown : forall r branch, trie_.next.find r = some branch ->
    exists k, trie_.find (r :: k) ≠ none

/-- The words before a place and the unit of the last one. -/
structure Dag (W : Type) where
  runestr : RuneStr
  nexts : List (Nat × Option (DictUnit W))
  pInfo : Option (DictUnit W)
  weight : W

variable {W : Type}

/-- The runes of a text. -/
abbrev runesOf (text : List RuneStr) : List Rune :=
  text.map RuneStr.rune

/-!
## User words
-/

def MakeNodeInfo (word : CString) (weight : W) (tag : CString) : Option (DictUnit W) :=
  (DecodeRunesInString word).map fun runes => ⟨runesOf runes, weight, tag⟩

def InsertNode (t : Trie Rune (DictUnit W)) (key : List Rune) (value : DictUnit W) :
    Trie Rune (DictUnit W) :=
  if key = [] then t else t.insert key value

/-- What the language leaves undefined. -/
inductive Undefined where
  | erased_entry
deriving DecidableEq

/--
Only the first rune is looked for.  Its entry is erased, and the branch to be deleted is
read from the erased entry.
-/
def DeleteNode (t : Trie Rune (DictUnit W)) :
    List Rune -> Except Undefined (Trie Rune (DictUnit W))
  | [] => Except.ok t
  | k :: _ =>
      match t.next.find k with
      | none => Except.ok t
      -- `kmIter->second` behind `erase(*citer)`
      | some _ => Except.error Undefined.erased_entry

theorem find_InsertNode (t : Trie Rune (DictUnit W)) (value : DictUnit W) (k : List Rune) :
    (InsertNode t value.word value).find k =
      if k = value.word ∧ k ≠ [] then some value else t.find k := by
  unfold InsertNode
  by_cases hkey : value.word = []
  · rw [if_pos hkey, if_neg]
    rintro ⟨hk, hne⟩
    exact hne (hk.trans hkey)
  · rw [if_neg hkey, Trie.find_insert]
    by_cases hk : k = value.word
    · rw [if_pos hk, if_pos ⟨hk, hk ▸ hkey⟩]
    · rw [if_neg hk, if_neg fun h => hk h.1]

theorem grown_InsertNode {t : Trie Rune (DictUnit W)}
    (ht : forall r branch, t.next.find r = some branch -> exists k, t.find (r :: k) ≠ none)
    (value : DictUnit W) (r : Rune) (branch : Trie Rune (DictUnit W))
    (hbranch : (InsertNode t value.word value).next.find r = some branch) :
    exists k, (InsertNode t value.word value).find (r :: k) ≠ none := by
  have hfind := find_InsertNode t value
  cases hword : value.word with
  | nil =>
      have hsame : InsertNode t [] value = t := if_pos rfl
      rw [hword, hsame] at hbranch
      rw [hsame]
      exact ht r branch hbranch
  | cons k ks =>
      by_cases hr : r = k
      · refine ⟨ks, ?_⟩
        rw [← hword, hfind, if_pos ⟨by rw [hr, hword], List.cons_ne_nil r ks⟩]
        exact Option.some_ne_none value
      · rw [hword, InsertNode, if_neg (List.cons_ne_nil k ks), Trie.insert, Trie.next_node,
          StdMap.find_insert_of_ne _ _ hr] at hbranch
        rcases ht r branch hbranch with ⟨rest, hrest⟩
        refine ⟨rest, ?_⟩
        rw [← hword, hfind, if_neg]
        · exact hrest
        · rw [hword]
          rintro ⟨heq, -⟩
          exact hr (List.cons.inj heq).1

/-- A deletion that goes through leaves the trie as it is. -/
theorem eq_of_DeleteNode {t t' : Trie Rune (DictUnit W)} {key : List Rune}
    (h : DeleteNode t key = Except.ok t') : t' = t := by
  cases key with
  | nil =>
      exact (Except.ok.inj h).symm
  | cons k key =>
      rw [DeleteNode] at h
      cases hbranch : t.next.find k with
      | none =>
          rw [hbranch] at h
          exact (Except.ok.inj h).symm
      | some branch =>
          rw [hbranch] at h
          cases h

namespace DictTrie

def Find (d : DictTrie W) (word : List Rune) : Option (DictUnit W) :=
  if word = [] then none else d.trie_.find word

theorem Find_eq (d : DictTrie W) (word : List Rune) : d.Find word = d.trie_.find word := by
  unfold Find
  split
  · rename_i hnil
    cases hfind : d.trie_.find word with
    | none =>
        rfl
    | some u =>
        exact absurd hnil (d.keyed word u hfind).2
  · rfl

theorem word_of_Find {d : DictTrie W} {word : List Rune} {u : DictUnit W}
    (h : d.Find word = some u) : u.word = word := by
  rw [Find_eq] at h
  exact (d.keyed word u h).1

def IsUserDictSingleChineseWord (d : DictTrie W) (word : Rune) : Bool :=
  decide (word ∈ d.user_dict_single_chinese_word_)

/-- The dictionary with one more unit. -/
def store (d : DictTrie W) (value : DictUnit W) : DictTrie W :=
  { d with
    trie_ := InsertNode d.trie_ value.word value
    keyed := by
      intro k u hu
      rw [find_InsertNode] at hu
      by_cases hk : k = value.word ∧ k ≠ []
      · rw [if_pos hk] at hu
        cases hu
        exact ⟨hk.1.symm, hk.2⟩
      · rw [if_neg hk] at hu
        exact d.keyed k u hu
    grown := grown_InsertNode d.grown value }

theorem Find_store (d : DictTrie W) (value : DictUnit W) (k : List Rune) :
    (d.store value).Find k =
      if k = value.word ∧ k ≠ [] then some value else d.Find k := by
  rw [Find_eq, Find_eq]
  exact find_InsertNode d.trie_ value k

/-- The body of both `InsertUserWord`. -/
def insertWeighted (d : DictTrie W) (word : CString) (weight : W) (tag : CString) :
    Bool × DictTrie W :=
  match MakeNodeInfo word weight tag with
  | none => (false, d)
  | some node_info => (true, d.store node_info)

def InsertUserWord (d : DictTrie W) (word tag : CString) : Bool × DictTrie W :=
  d.insertWeighted word d.user_word_default_weight_ tag

/-- `InsertUserWord` with a frequency; 0 stands for the weight of other user words. -/
def InsertUserWordFreq (m : Libm W) (d : DictTrie W) (word : CString) (freq : Int)
    (tag : CString) : Bool × DictTrie W :=
  d.insertWeighted word
    (if freq ≠ 0 then m.log (m.div (m.ofInt freq) d.freq_sum_)
      else d.user_word_default_weight_) tag

def DeleteUserWord (d : DictTrie W) (word tag : CString) :
    Except Undefined (Bool × DictTrie W) :=
  match MakeNodeInfo word d.user_word_default_weight_ tag with
  | none => Except.ok (false, d)
  | some node_info =>
      match h : DeleteNode d.trie_ node_info.word with
      | Except.error e => Except.error e
      | Except.ok t =>
          Except.ok (true, { d with
            trie_ := t
            keyed := eq_of_DeleteNode h ▸ d.keyed
            grown := eq_of_DeleteNode h ▸ d.grown })

end DictTrie

/-- The changes a program can make to the dictionary while it runs. -/
inductive Command where
  | insert (word tag : CString)
  | insertFreq (word : CString) (freq : Int) (tag : CString)
  | delete (word tag : CString)

def Command.run (m : Libm W) (d : DictTrie W) : Command -> Except Undefined (DictTrie W)
  | insert word tag => Except.ok (d.InsertUserWord word tag).2
  | insertFreq word freq tag => Except.ok (d.InsertUserWordFreq m word freq tag).2
  | delete word tag => (d.DeleteUserWord word tag).map Prod.snd

/-!
## Words as a plain map
-/

/-- What a dictionary is for: units that are found by their words. -/
abbrev Lexicon (W : Type) : Type :=
  List Rune -> Option (DictUnit W)

namespace Lexicon

/-- Set the unit of one word; the empty word has none, nor has one that is no text. -/
def put (map : Lexicon W) (word : CString) (weight : W) (tag : CString) : Lexicon W :=
  fun k =>
    if PosTagger.DecodeRunesInString word = some k ∧ k ≠ [] then some ⟨k, weight, tag⟩
    else map k

/-- Some word begins with the rune. -/
def Begins (map : Lexicon W) (r : Rune) : Prop :=
  exists k, map (r :: k) ≠ none

open Classical in
/--
A word cannot be taken away as long as some word begins with its first rune; otherwise
there is nothing to take away.
-/
noncomputable def takeAway (map : Lexicon W) (word : CString) :
    Except Undefined (Lexicon W) :=
  match PosTagger.DecodeRunesInString word with
  | some (r :: _) =>
      if map.Begins r then Except.error Undefined.erased_entry else Except.ok map
  | _ => Except.ok map

/-- A change of the dictionary, as far as words are concerned. -/
noncomputable def apply (m : Libm W) (freq_sum_ default_weight : W) (map : Lexicon W) :
    Command -> Except Undefined (Lexicon W)
  | Command.insert word tag => Except.ok (map.put word default_weight tag)
  | Command.insertFreq word freq tag =>
      Except.ok (map.put word
        (if freq ≠ 0 then m.log (m.div (m.ofInt freq) freq_sum_) else default_weight) tag)
  | Command.delete word _ => map.takeAway word

end Lexicon

theorem MakeNodeInfo_eq (word : CString) (weight : W) (tag : CString) :
    MakeNodeInfo word weight tag =
      (PosTagger.DecodeRunesInString word).map fun runes => ⟨runes, weight, tag⟩ := by
  rw [← map_rune_DecodeRunesInString, Option.map_map]
  rfl

namespace DictTrie

theorem Find_insertWeighted (d : DictTrie W) (word : CString) (weight : W)
    (tag : CString) :
    (d.insertWeighted word weight tag).2.Find = Lexicon.put d.Find word weight tag := by
  funext k
  unfold insertWeighted Lexicon.put
  rw [MakeNodeInfo_eq]
  cases PosTagger.DecodeRunesInString word with
  | none =>
      rw [if_neg fun h => Option.some_ne_none k h.1.symm]
      rfl
  | some runes =>
      refine (Find_store d ⟨runes, weight, tag⟩ k).trans ?_
      by_cases hk : k = runes ∧ k ≠ []
      · rw [if_pos hk, if_pos ⟨congrArg some hk.1.symm, hk.2⟩, hk.1]
      · rw [if_neg hk, if_neg fun h => hk ⟨(Option.some.inj h.1).symm, h.2⟩]

theorem begins_iff (d : DictTrie W) (r : Rune) :
    Lexicon.Begins d.Find r ↔ d.trie_.next.find r ≠ none := by
  unfold Lexicon.Begins
  constructor
  · rintro ⟨k, hk⟩ hnone
    rw [Find_eq] at hk
    exact hk (Trie.find_cons_of_none hnone k)
  · intro hne
    rcases Option.ne_none_iff_exists'.mp hne with ⟨branch, hbranch⟩
    rcases d.grown r branch hbranch with ⟨k, hk⟩
    refine ⟨k, ?_⟩
    rw [Find_eq]
    exact hk

/-- A deletion that goes through leaves the dictionary as it is. -/
theorem DeleteUserWord_eq (d : DictTrie W) (word tag : CString) :
    d.DeleteUserWord word tag =
      match PosTagger.DecodeRunesInString word with
      | none => Except.ok (false, d)
      | some runes => (DeleteNode d.trie_ runes).map fun _ => (true, d) := by
  unfold DeleteUserWord
  rw [MakeNodeInfo_eq]
  cases PosTagger.DecodeRunesInString word with
  | none =>
      rfl
  | some runes =>
      dsimp only [Option.map_some]
      split
      · rename_i e h
        rw [h]
        rfl
      · rename_i t h
        refine Eq.trans ?_ (congrArg (Except.map fun _ => (true, d)) h).symm
        have ht := eq_of_DeleteNode h
        subst ht
        rfl

theorem Find_DeleteUserWord (d : DictTrie W) (word tag : CString) :
    (d.DeleteUserWord word tag).map (fun r => r.2.Find) = Lexicon.takeAway d.Find word := by
  rw [DeleteUserWord_eq]
  unfold Lexicon.takeAway
  rcases PosTagger.DecodeRunesInString word with _ | (_ | ⟨r, runes⟩)
  · rfl
  · rfl
  · have hbegins := begins_iff d r
    dsimp only [DeleteNode]
    cases hbranch : d.trie_.next.find r with
    | none =>
        rw [if_neg fun h => hbegins.mp h hbranch]
        rfl
    | some branch =>
        rw [if_pos (hbegins.mpr (hbranch ▸ Option.some_ne_none branch))]
        rfl

end DictTrie

/-- The numbers of the dictionary, which no change of its words touches. -/
structure SameNumbers (d d' : DictTrie W) : Prop where
  freq_sum : d'.freq_sum_ = d.freq_sum_
  default_weight : d'.user_word_default_weight_ = d.user_word_default_weight_
  min_weight : d'.min_weight_ = d.min_weight_
  singles : d'.user_dict_single_chinese_word_ = d.user_dict_single_chinese_word_

theorem SameNumbers.insertWeighted (d : DictTrie W) (word : CString) (weight : W)
    (tag : CString) : SameNumbers d (d.insertWeighted word weight tag).2 := by
  unfold DictTrie.insertWeighted
  cases MakeNodeInfo word weight tag with
  | none =>
      exact ⟨rfl, rfl, rfl, rfl⟩
  | some node_info =>
      exact ⟨rfl, rfl, rfl, rfl⟩

theorem SameNumbers.deleteUserWord {d : DictTrie W} {word tag : CString}
    {r : Bool × DictTrie W} (h : d.DeleteUserWord word tag = Except.ok r) :
    SameNumbers d r.2 := by
  rw [DictTrie.DeleteUserWord_eq] at h
  split at h
  · rw [← Except.ok.inj h]
    exact ⟨rfl, rfl, rfl, rfl⟩
  · rename_i runes _
    cases hnode : DeleteNode d.trie_ runes with
    | error e =>
        rw [hnode] at h
        cases h
    | ok t =>
        rw [hnode] at h
        rw [← Except.ok.inj h]
        exact ⟨rfl, rfl, rfl, rfl⟩

theorem SameNumbers.run {m : Libm W} {d d' : DictTrie W} {cmd : Command}
    (h : cmd.run m d = Except.ok d') : SameNumbers d d' := by
  cases cmd with
  | insert word tag =>
      rw [← Except.ok.inj h]
      exact SameNumbers.insertWeighted d word _ tag
  | insertFreq word freq tag =>
      rw [← Except.ok.inj h]
      exact SameNumbers.insertWeighted d word _ tag
  | delete word tag =>
      change (d.DeleteUserWord word tag).map Prod.snd = Except.ok d' at h
      cases hdelete : d.DeleteUserWord word tag with
      | error e =>
          rw [hdelete] at h
          cases h
      | ok r =>
          rw [hdelete] at h
          rw [← Except.ok.inj h]
          exact SameNumbers.deleteUserWord hdelete

theorem Find_step (m : Libm W) (d : DictTrie W) (cmd : Command) :
    (cmd.run m d).map DictTrie.Find =
      Lexicon.apply m d.freq_sum_ d.user_word_default_weight_ d.Find cmd := by
  cases cmd with
  | insert word tag =>
      exact congrArg Except.ok (d.Find_insertWeighted word _ tag)
  | insertFreq word freq tag =>
      exact congrArg Except.ok (d.Find_insertWeighted word _ tag)
  | delete word tag =>
      refine Eq.trans ?_ (d.Find_DeleteUserWord word tag)
      change ((d.DeleteUserWord word tag).map Prod.snd).map DictTrie.Find = _
      cases d.DeleteUserWord word tag with
      | error e =>
          rfl
      | ok r =>
          rfl

theorem SameNumbers.trans {d d' d'' : DictTrie W} (h : SameNumbers d d')
    (h' : SameNumbers d' d'') : SameNumbers d d'' :=
  ⟨h'.freq_sum.trans h.freq_sum, h'.default_weight.trans h.default_weight,
    h'.min_weight.trans h.min_weight, h'.singles.trans h.singles⟩

/--
Through any sequence of changes the dictionary finds what a plain map of words would
hold.  It gets into an erased entry exactly when a word is deleted whose first rune
begins a word of the map; every other deletion changes nothing, and no change touches
the numbers that weights are computed from.
-/
theorem commands_refine (m : Libm W) (d : DictTrie W) (cmds : List Command) :
    (cmds.foldlM (Command.run m) d).map DictTrie.Find =
        cmds.foldlM (Lexicon.apply m d.freq_sum_ d.user_word_default_weight_) d.Find ∧
      forall d', cmds.foldlM (Command.run m) d = Except.ok d' -> SameNumbers d d' := by
  induction cmds generalizing d with
  | nil =>
      constructor
      · rfl
      · intro d' hd'
        rw [← Except.ok.inj hd']
        exact ⟨rfl, rfl, rfl, rfl⟩
  | cons cmd cmds ih =>
      have hstep := Find_step m d cmd
      rw [List.foldlM_cons, List.foldlM_cons, ← hstep]
      cases hrun : cmd.run m d with
      | error e =>
          constructor
          · rfl
          · intro d' hd'
            cases hd'
      | ok d' =>
          have hnumbers := SameNumbers.run hrun
          have hrest := ih d'
          rw [hnumbers.freq_sum, hnumbers.default_weight] at hrest
          exact ⟨hrest.1, fun d'' hd'' => hnumbers.trans (hrest.2 d'' hd'')⟩

/-!
## Words that start at a position
-/

/-- The inner loop of `Find`, from position `j` on with the node of the runes before. -/
def longerWords (max_word_len i : Nat) :
    Option (Trie Rune (DictUnit W)) -> Nat -> List RuneStr ->
      List (Nat × Option (DictUnit W))
  | some ptNode, j, r :: rest =>
      if j - i + 1 ≤ max_word_len then
        match ptNode.next.find r.rune with
        | none => []
        | some child =>
            (if child.ptValue.isSome then [(j, child.ptValue)] else []) ++
              longerWords max_word_len i (some child) (j + 1) rest
      else []
  | _, _, _ => []

/-- The list `nexts` of position `i`: the rune itself, then the longer words. -/
def nextsAt (d : DictTrie W) (max_word_len : Nat) (text : List RuneStr) (i : Nat) :
    List (Nat × Option (DictUnit W)) :=
  let ptNode := d.trie_.next.find (text.getD i default).rune
  (i, ptNode.bind Trie.ptValue) ::
    longerWords max_word_len i ptNode (i + 1) (text.drop (i + 1))

def DictTrie.FindAll [Zero W] (d : DictTrie W) (text : List RuneStr) (max_word_len : Nat) :
    List (Dag W) :=
  (List.range text.length).map fun i =>
    { runestr := text.getD i default
      nexts := nextsAt d max_word_len text i
      pInfo := none
      weight := 0 }

def wordAt (text : List RuneStr) (i j : Nat) : List Rune :=
  runesOf (slice text i (j + 1))

theorem length_wordAt (runes : List RuneStr) {i j : Nat} (hj : j < runes.length) :
    (wordAt runes i j).length = j + 1 - i := by
  rw [wordAt, runesOf, List.length_map, length_slice runes hj]

theorem wordAt_slice {runes : List RuneStr} {range : PreFilter.Range} {i j : Nat}
    (hj : range.begin_ + j < range.end_) :
    wordAt (slice runes range.begin_ range.end_) i j =
      wordAt runes (range.begin_ + i) (range.begin_ + j) := by
  unfold wordAt
  rw [slice_slice runes (show range.begin_ + (j + 1) ≤ range.end_ by omega), Nat.add_assoc]

theorem longerWords_none (max_word_len i j : Nat) (rest : List RuneStr) :
    longerWords max_word_len i (none : Option (Trie Rune (DictUnit W))) j rest = [] := by
  rw [longerWords]
  intro _ _ _ h
  cases h

theorem find_take_cons (node : Trie Rune (DictUnit W)) (r : RuneStr) (rest : List RuneStr)
    (n : Nat) :
    node.find (runesOf ((r :: rest).take (n + 1))) =
      (node.next.find r.rune).bind fun child => child.find (runesOf (rest.take n)) := by
  rw [List.take_succ_cons, runesOf, List.map_cons, Trie.find_cons]

theorem longerWords_eq (max_word_len : Nat) {i j : Nat} (hij : i ≤ j)
    (node : Trie Rune (DictUnit W)) (rest : List RuneStr) :
    longerWords max_word_len i (some node) j rest =
      (List.range' j (min rest.length (max_word_len - (j - i)))).filterMap fun m =>
        (node.find (runesOf (rest.take (m + 1 - j)))).map fun u => (m, some u) := by
  induction rest generalizing node j with
  | nil =>
      rw [List.length_nil, Nat.zero_min]
      rfl
  | cons r rest ih =>
      rw [longerWords]
      split
      · rename_i hlen
        have hcount : min (r :: rest).length (max_word_len - (j - i)) =
            min rest.length (max_word_len - (j + 1 - i)) + 1 := by
          rw [List.length_cons]
          omega
        have hhead : j + 1 - j = 0 + 1 := by
          omega
        have htail : forall m, m ∈ List.range' (j + 1)
              (min rest.length (max_word_len - (j + 1 - i))) ->
            (node.find (runesOf ((r :: rest).take (m + 1 - j)))).map
                (fun u => (m, some u)) =
              (node.next.find r.rune).bind fun child =>
                (child.find (runesOf (rest.take (m + 1 - (j + 1))))).map
                  fun u => (m, some u) := by
          intro m hm
          have hle := List.left_le_of_mem_range' hm
          have hpos : m + 1 - j = m + 1 - (j + 1) + 1 := by
            omega
          rw [hpos, find_take_cons, Option.map_bind]
          rfl
        rw [hcount, List.range'_succ, List.filterMap_cons, hhead, find_take_cons,
          List.filterMap_congr htail]
        cases node.next.find r.rune with
        | none =>
            exact (List.filterMap_eq_nil_iff.mpr fun _ _ => rfl).symm
        | some child =>
            dsimp only [Option.bind_some]
            rw [ih (Nat.le_succ_of_le hij), List.take_zero, runesOf, List.map_nil,
              Trie.find_nil]
            cases child.ptValue with
            | none =>
                rfl
            | some u =>
                rfl
      · rename_i hlen
        have hzero : max_word_len - (j - i) = 0 := by
          omega
        rw [hzero, Nat.min_zero]
        rfl

/--
The words that start at a position: the rune itself, known or not, and then every word
of the dictionary from there on that is not too long, the shorter ones first.
-/
theorem nextsAt_eq (d : DictTrie W) (max_word_len : Nat) {text : List RuneStr} {i : Nat}
    (hi : i < text.length) :
    nextsAt d max_word_len text i =
      (i, d.Find (wordAt text i i)) ::
        (List.range' (i + 1) (min (text.length - (i + 1)) (max_word_len - 1))).filterMap
          fun j => (d.Find (wordAt text i j)).map fun u => (j, some u) := by
  have hget := List.getElem?_eq_getElem hi
  have hword : forall j, i ≤ j -> d.Find (wordAt text i j) =
      (d.trie_.next.find (text.getD i default).rune).bind fun child =>
        child.find (runesOf ((text.drop (i + 1)).take (j - i))) := by
    intro j hij
    have hcount : j + 1 - i = j - i + 1 := by
      omega
    rw [DictTrie.Find_eq, wordAt, slice, List.drop_eq_getElem_cons hi, hcount,
      find_take_cons, List.getD_eq_getElem?_getD, hget, Option.getD_some]
  have htail : forall j, j ∈ List.range' (i + 1)
        (min (text.length - (i + 1)) (max_word_len - 1)) ->
      (d.Find (wordAt text i j)).map (fun u => (j, some u)) =
        (d.trie_.next.find (text.getD i default).rune).bind fun child =>
          (child.find (runesOf ((text.drop (i + 1)).take (j + 1 - (i + 1))))).map
            fun u => (j, some u) := by
    intro j hj
    have hle := List.left_le_of_mem_range' hj
    have hcount : j + 1 - (i + 1) = j - i := by
      omega
    rw [hword j (by omega), hcount, Option.map_bind]
    rfl
  unfold nextsAt
  rw [hword i (Nat.le_refl i), List.filterMap_congr htail, Nat.sub_self, List.take_zero]
  dsimp only
  cases d.trie_.next.find (text.getD i default).rune with
  | none =>
      have hnil := List.filterMap_eq_nil_iff.mpr
        fun (j : Nat) (_ : j ∈ List.range' (i + 1)
          (min (text.length - (i + 1)) (max_word_len - 1))) =>
            (rfl : (none : Option (Nat × Option (DictUnit W))) = none)
      dsimp only [Option.bind_none]
      rw [hnil, longerWords_none]
  | some child =>
      have hone : i + 1 - i = 1 := by
        omega
      dsimp only [Option.bind_some]
      rw [longerWords_eq max_word_len (Nat.le_succ i), List.length_drop, hone]
      rfl

theorem mem_nextsAt {d : DictTrie W} {max_word_len : Nat} {text : List RuneStr} {i j : Nat}
    {p : Option (DictUnit W)} (hi : i < text.length) :
    (j, p) ∈ nextsAt d max_word_len text i ↔
      p = d.Find (wordAt text i j) ∧
        (j = i ∨ i < j ∧ j < text.length ∧ j - i + 1 ≤ max_word_len ∧ p ≠ none) := by
  rw [nextsAt_eq d max_word_len hi, List.mem_cons, List.mem_filterMap]
  constructor
  · rintro (heq | ⟨m, hm, hfind⟩)
    · cases heq
      exact ⟨rfl, Or.inl rfl⟩
    · rw [Option.map_eq_some_iff] at hfind
      rcases hfind with ⟨u, hu, heq⟩
      cases heq
      rw [List.mem_range'_1] at hm
      refine ⟨hu.symm, Or.inr ⟨by omega, by omega, by omega, Option.some_ne_none u⟩⟩
  · rintro ⟨rfl, rfl | ⟨hij, hj, hlen, hfound⟩⟩
    · exact Or.inl rfl
    · rcases Option.ne_none_iff_exists'.mp hfound with ⟨u, hu⟩
      refine Or.inr ⟨j, ?_, ?_⟩
      · rw [List.mem_range'_1]
        omega
      · rw [hu]
        rfl

theorem pairwise_nextsAt (d : DictTrie W) (max_word_len : Nat) {text : List RuneStr}
    {i : Nat} (hi : i < text.length) :
    (nextsAt d max_word_len text i).Pairwise fun m n => m.1 < n.1 := by
  rw [nextsAt_eq d max_word_len hi, List.pairwise_cons]
  constructor
  · intro next hnext
    rcases List.mem_filterMap.mp hnext with ⟨j, hj, hfind⟩
    rcases Option.map_eq_some_iff.mp hfind with ⟨u, -, rfl⟩
    rw [List.mem_range'_1] at hj
    exact hj.1
  · refine List.Pairwise.filterMap _ ?_ List.pairwise_lt_range'
    intro j k hlt m hm n hn
    rcases Option.map_eq_some_iff.mp hm with ⟨u, -, rfl⟩
    rcases Option.map_eq_some_iff.mp hn with ⟨v, -, rfl⟩
    exact hlt

/--
One walk through the trie for each position finds exactly the words that looking up
every piece of the text would find: the rune itself, known or not, and the longer words
from there on, the shorter ones first and none twice.
-/
theorem FindAll_exact [Zero W] (d : DictTrie W) (text : List RuneStr) (max_word_len : Nat) :
    (d.FindAll text max_word_len).length = text.length ∧
      forall i dag, (d.FindAll text max_word_len)[i]? = some dag ->
        some dag.runestr = text[i]? ∧ dag.nexts.Pairwise (fun m n => m.1 < n.1) ∧
        forall j p, (j, p) ∈ dag.nexts ↔ p = d.Find (wordAt text i j) ∧
          (j = i ∨ i < j ∧ j < text.length ∧ j - i + 1 ≤ max_word_len ∧ p ≠ none) := by
  unfold DictTrie.FindAll
  constructor
  · rw [List.length_map, List.length_range]
  · intro i dag hdag
    rw [List.getElem?_map, Option.map_eq_some_iff] at hdag
    rcases hdag with ⟨k, hk, rfl⟩
    rcases List.getElem?_eq_some_iff.mp hk with ⟨hi, hget⟩
    rw [List.length_range] at hi
    rw [List.getElem_range] at hget
    subst hget
    refine ⟨?_, pairwise_nextsAt d max_word_len hi, fun j p => mem_nextsAt hi⟩
    dsimp only
    rw [List.getElem?_eq_getElem hi, List.getD_eq_getElem _ _ hi]

/-- A dictionary that has no words yet. -/
def DictTrie.bare (freq_sum_ min_weight_ user_word_default_weight_ : W) : DictTrie W where
  trie_ := Trie.empty
  freq_sum_ := freq_sum_
  min_weight_ := min_weight_
  user_word_default_weight_ := user_word_default_weight_
  user_dict_single_chinese_word_ := []
  keyed := by
    intro k u hu
    rw [Trie.find_empty] at hu
    cases hu
  grown := by
    intro r branch hbranch
    cases hbranch

/-- The runes of 中国人, and dictionaries that have 中国, and 中国 and 国人. -/
def chinese : List RuneStr :=
  [⟨0x4e2d, 0, 3, 0, 1⟩, ⟨0x56fd, 3, 3, 1, 1⟩, ⟨0x4eba, 6, 3, 2, 1⟩]

def chinaWord : DictTrie Int :=
  (DictTrie.bare 100 (-9) (-5)).store ⟨[0x4e2d, 0x56fd], -3, []⟩

def chineseWords : DictTrie Int :=
  chinaWord.store ⟨[0x56fd, 0x4eba], -4, []⟩

end Cppjieba
end VoiceTts
