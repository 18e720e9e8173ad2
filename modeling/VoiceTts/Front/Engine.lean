import Mathlib.Data.List.Sort
import VoiceTts.Base.Strings
import VoiceTts.Lib.Prog
import VoiceTts.Lib.StdMap

/-!
# The front engine and its dictionaries

The state of `FrontEngineInterface`, the constants that `init` fills in, and
the lookups that take a word to its phones: `GetPhone`, `GetInitialsFinals`,
`GetFinals`, and `Phone2Phoneid`.  The dictionaries are read with the subscript
operator, so that a lookup can insert an entry.
-/

namespace VoiceTts

/-- What the front engine uses of the word segmenter. -/
structure Jieba where
  Cut : CString -> List CString
  CutAll : CString -> List CString
  CutForSearch : CString -> List CString

/--
A `std::sort` by descending size: it rearranges the strings, and none is longer than
one before it.  How it orders equally long ones is left open.
-/
structure LongestFirst where
  sort : List CString -> List CString
  perm : forall l, (sort l).Perm l
  pairwise : forall l, (sort l).Pairwise fun a b => b.length ≤ a.length

namespace LongestFirst

/-- The sort that keeps equally long strings as they come. -/
def stable : LongestFirst where
  sort := List.insertionSort fun a b => b.length ≤ a.length
  perm := List.perm_insertionSort _
  pairwise := by
    have htotal : Std.Total fun a b : CString => b.length ≤ a.length :=
      ⟨fun a b => Nat.le_total b.length a.length⟩
    have htrans : IsTrans CString fun a b => b.length ≤ a.length :=
      ⟨fun _ _ _ hab hbc => Nat.le_trans hbc hab⟩
    exact List.pairwise_insertionSort _

/-- The sort that puts one of the longest strings to the front. -/
def choosing (f : CString) : LongestFirst where
  sort l :=
    if f ∈ l ∧ forall p, p ∈ l -> p.length ≤ f.length then f :: stable.sort (l.erase f)
    else stable.sort l
  perm := by
    intro l
    split
    · rename_i h
      exact (List.Perm.cons f (stable.perm _)).trans (List.perm_cons_erase h.1).symm
    · exact stable.perm l
  pairwise := by
    intro l
    split
    · rename_i h
      rw [List.pairwise_cons]
      refine ⟨fun p hp => ?_, stable.pairwise _⟩
      exact h.2 p (List.mem_of_mem_erase ((stable.perm _).mem_iff.mp hp))
    · exact stable.pairwise l

theorem mem_of_head? (o : LongestFirst) {l : List CString} {f : CString}
    (h : (o.sort l).head? = some f) : f ∈ l :=
  (o.perm l).mem_iff.mp (List.mem_of_mem_head? h)

theorem le_of_head? (o : LongestFirst) {l : List CString} {f p : CString}
    (h : (o.sort l).head? = some f) (hp : p ∈ l) : p.length ≤ f.length := by
  have hsorted := o.pairwise l
  have hmem := (o.perm l).mem_iff.mpr hp
  cases hsort : o.sort l with
  | nil =>
      rw [hsort] at hmem
      cases hmem
  | cons g rest =>
      rw [hsort, List.head?_cons, Option.some.injEq] at h
      rw [hsort, List.pairwise_cons] at hsorted
      rw [hsort, List.mem_cons] at hmem
      subst h
      rcases hmem with rfl | hmem
      · exact Nat.le_refl _
      · exact hsorted.1 p hmem

theorem head?_ne_none (o : LongestFirst) {l : List CString} (hl : l ≠ []) :
    (o.sort l).head? ≠ none := by
  intro hnone
  rw [List.head?_eq_none_iff] at hnone
  exact hl (hnone ▸ o.perm l).symm.eq_nil

end LongestFirst

/-- The members that `init` sets up and no call changes, and the `std::sort` in use. -/
structure Setup where
  _jieba : Jieba
  g2pmodel : CString -> List CString
  _seperate_tone : CString
  order : LongestFirst := LongestFirst.stable

structure FrontEngineInterface where
  word_phone_map : StdMap CString CString
  phone_id_map : StdMap CString CString
  tone_id_map : StdMap CString CString
  cmu_map : StdMap CString CString
  orderdict_map : StdMap CString CString

abbrev FrontM (α : Type) : Type :=
  Prog Error FrontEngineInterface α

/-- An element of a container that is indexed without a check. -/
def elementAt {α : Type} (c : Container) (l : List α) (i : Nat) : Except Error α :=
  match l[i]? with
  | some a => Except.ok a
  | none => Except.error (Error.access c)

def back {α : Type} (c : Container) (l : List α) : Except Error α :=
  match l.getLast? with
  | some a => Except.ok a
  | none => Except.error (Error.access c)

namespace FrontEngineInterface

theorem elementAt_of_lt {α : Type} (c : Container) (l : List α) {i : Nat}
    (h : i < l.length) : elementAt c l i = Except.ok l[i] := by
  simp [elementAt, h]

theorem back_concat {α : Type} (c : Container) (l : List α) (a : α) :
    back c (l ++ [a]) = Except.ok a := by
  simp [back]

theorem back_of_ne_nil {α : Type} (c : Container) {l : List α} (hl : l ≠ []) :
    Yields (fun _ => True) (fun _ : Error => False) (back c l) := by
  rcases List.eq_nil_or_concat l with rfl | ⟨pre, a, rfl⟩
  · exact absurd rfl hl
  · rw [List.concat_eq_append, back_concat]
    exact True.intro

/-!
## Constants of `init`
-/

def _punc : List CString :=
  [
    "，", "。", "、", "？", "：", "；", "~", "！", ",", ".", "?", "!", ":", ";", "/",
    "\\"
  ].map str

def _punc_omit : List CString :=
  [
    "“", "”", "\"", "\""
  ].map str

def must_erhua : List CString :=
  [
    "小院儿", "胡同儿", "范儿", "老汉儿", "撒欢儿", "寻老礼儿", "妥妥儿"
  ].map str

def not_erhua : List CString :=
  [
    "虐儿", "为儿", "护儿", "瞒儿", "救儿", "替儿", "有儿", "一儿", "我儿", "俺儿", "妻儿", "拐儿",
    "聋儿", "乞儿", "患儿", "幼儿", "孤儿", "婴儿", "婴幼儿", "连体儿", "脑瘫儿", "流浪儿", "体弱儿",
    "混血儿", "蜜雪儿", "舫儿", "祖儿", "美儿", "应采儿", "可儿", "侄儿", "孙儿", "侄孙儿", "女儿",
    "男儿", "红孩儿", "花儿", "虫儿", "马儿", "鸟儿", "猪儿", "猫儿", "狗儿"
  ].map str

def must_not_neural_tone_words : List CString :=
  [
    "男子", "女子", "分子", "原子", "量子", "莲子", "石子", "瓜子", "电子"
  ].map str

def must_neural_tone_words : List CString :=
  [
    "麻烦", "麻利", "鸳鸯", "高粱", "骨头", "骆驼", "马虎", "首饰", "馒头", "馄饨", "风筝", "难为",
    "队伍", "阔气", "闺女", "门道", "锄头", "铺盖", "铃铛", "铁匠", "钥匙", "里脊", "里头", "部分",
    "那么", "道士", "造化", "迷糊", "连累", "这么", "这个", "运气", "过去", "软和", "转悠", "踏实",
    "跳蚤", "跟头", "趔趄", "财主", "豆腐", "讲究", "记性", "记号", "认识", "规矩", "见识", "裁缝",
    "补丁", "衣裳", "衣服", "衙门", "街坊", "行李", "行当", "蛤蟆", "蘑菇", "薄荷", "葫芦", "葡萄",
    "萝卜", "荸荠", "苗条", "苗头", "苍蝇", "芝麻", "舒服", "舒坦", "舌头", "自在", "膏药", "脾气",
    "脑袋", "脊梁", "能耐", "胳膊", "胭脂", "胡萝", "胡琴", "胡同", "聪明", "耽误", "耽搁", "耷拉",
    "耳朵", "老爷", "老实", "老婆", "老头", "老太", "翻腾", "罗嗦", "罐头", "编辑", "结实", "红火",
    "累赘", "糨糊", "糊涂", "精神", "粮食", "簸箕", "篱笆", "算计", "算盘", "答应", "笤帚", "笑语",
    "笑话", "窟窿", "窝囊", "窗户", "稳当", "稀罕", "称呼", "秧歌", "秀气", "秀才", "福气", "祖宗",
    "砚台", "码头", "石榴", "石头", "石匠", "知识", "眼睛", "眯缝", "眨巴", "眉毛", "相声", "盘算",
    "白净", "痢疾", "痛快", "疟疾", "疙瘩", "疏忽", "畜生", "生意", "甘蔗", "琵琶", "琢磨", "琉璃",
    "玻璃", "玫瑰", "玄乎", "狐狸", "状元", "特务", "牲口", "牙碜", "牌楼", "爽快", "爱人", "热闹",
    "烧饼", "烟筒", "烂糊", "点心", "炊帚", "灯笼", "火候", "漂亮", "滑溜", "溜达", "温和", "清楚",
    "消息", "浪头", "活泼", "比方", "正经", "欺负", "模糊", "槟榔", "棺材", "棒槌", "棉花", "核桃",
    "栅栏", "柴火", "架势", "枕头", "枇杷", "机灵", "本事", "木头", "木匠", "朋友", "月饼", "月亮",
    "暖和", "明白", "时候", "新鲜", "故事", "收拾", "收成", "提防", "挖苦", "挑剔", "指甲", "指头",
    "拾掇", "拳头", "拨弄", "招牌", "招呼", "抬举", "护士", "折腾", "扫帚", "打量", "打算", "打点",
    "打扮", "打听", "打发", "扎实", "扁担", "戒指", "懒得", "意识", "意思", "情形", "悟性", "怪物",
    "思量", "怎么", "念头", "念叨", "快活", "忙活", "志气", "心思", "得罪", "张罗", "弟兄", "开通",
    "应酬", "庄稼", "干事", "帮手", "帐篷", "希罕", "师父", "师傅", "巴结", "巴掌", "差事", "工夫",
    "岁数", "屁股", "尾巴", "少爷", "小气", "小伙", "将就", "对头", "对付", "寡妇", "家伙", "客气",
    "实在", "官司", "学问", "学生", "字号", "嫁妆", "媳妇", "媒人", "婆家", "娘家", "委屈", "姑娘",
    "姐夫", "妯娌", "妥当", "妖精", "奴才", "女婿", "头发", "太阳", "大爷", "大方", "大意", "大夫",
    "多少", "多么", "外甥", "壮实", "地道", "地方", "在乎", "困难", "嘴巴", "嘱咐", "嘟囔", "嘀咕",
    "喜欢", "喇嘛", "喇叭", "商量", "唾沫", "哑巴", "哈欠", "哆嗦", "咳嗽", "和尚", "告诉", "告示",
    "含糊", "吓唬", "后头", "名字", "名堂", "合同", "吆喝", "叫唤", "口袋", "厚道", "厉害", "千斤",
    "包袱", "包涵", "匀称", "勤快", "动静", "动弹", "功夫", "力气", "前头", "刺猬", "刺激", "别扭",
    "利落", "利索", "利害", "分析", "出息", "凑合", "凉快", "冷战", "冤枉", "冒失", "养活", "关系",
    "先生", "兄弟", "便宜", "使唤", "佩服", "作坊", "体面", "位置", "似的", "伙计", "休息", "什么",
    "人家", "亲戚", "亲家", "交情", "云彩", "事情", "买卖", "主意", "丫头", "丧气", "两口", "东西",
    "东家", "世故", "不由", "不在", "下水", "下巴", "上头", "上司", "丈夫", "丈人", "一辈", "那个",
    "菩萨", "父亲", "母亲", "咕噜", "邋遢", "费用", "冤家", "甜头", "介绍", "荒唐", "大人", "泥鳅",
    "幸福", "熟悉", "计划", "扑腾", "蜡烛", "姥爷", "照顾", "喉咙", "吉他", "弄堂", "蚂蚱", "凤凰",
    "拖沓", "寒碜", "糟蹋", "倒腾", "报复", "逻辑", "盘缠", "喽啰", "牢骚", "咖喱", "扫把", "惦记"
  ].map str

/-!
## Subscripts

Each of these is one use of `operator[]` on a dictionary.
-/

def wordPhone (word : CString) : FrontM CString :=
  fun e => (Except.ok (e.word_phone_map.peek word),
    { e with word_phone_map := e.word_phone_map.touch word })

def phoneId (phone : CString) : FrontM CString :=
  fun e => (Except.ok (e.phone_id_map.peek phone),
    { e with phone_id_map := e.phone_id_map.touch phone })

def toneId (tone : CString) : FrontM CString :=
  fun e => (Except.ok (e.tone_id_map.peek tone),
    { e with tone_id_map := e.tone_id_map.touch tone })

def cmuEntry (word : CString) : FrontM CString :=
  fun e => (Except.ok (e.cmu_map.peek word),
    { e with cmu_map := e.cmu_map.touch word })

def orderEntry (phone : CString) : FrontM CString :=
  fun e => (Except.ok (e.orderdict_map.peek phone),
    { e with orderdict_map := e.orderdict_map.touch phone })

/-!
## From words to phones
-/

/-- The loop of `GetPhone` over the pieces after the first one. -/
def appendPhones : CString -> List CString -> FrontM CString
  | phone, [] => pure phone
  | phone, piece :: wordcut => do
      let p <- wordPhone piece
      appendPhones (phone ++ (str " " ++ p)) wordcut

/-- The branch of `GetPhone` for a word that is not in the dictionary. -/
def phoneOfPieces (wordcut : List CString) : FrontM CString :=
  match wordcut with
  | [] => Prog.fail (Error.access Container.wordcut)
  | piece :: rest => do
      let phone <- wordPhone piece
      appendPhones phone rest

def GetPhone (st : Setup) (word : CString) : FrontM CString := do
  let known <- Prog.gets fun e => e.word_phone_map.contains word
  if known then wordPhone word else phoneOfPieces (st._jieba.CutAll word)

/--
The loop of `GetInitialsFinals`.  A phone that does not end in a digit, or
that ends in `0`, is an initial, and the phone after it is its final.
-/
def initialsFinals : List CString -> Except Error (List CString × List CString)
  | [] => Except.ok ([], [])
  | phone :: phone_vec =>
      if phone = str "sp" ∨ phone = str "sp0" then initialsFinals phone_vec
      else
        match phone.getLast? with
        | none => Except.error (Error.access Container.phone_token)
        | some c =>
            if isdigit c = false ∨ c = 48 then
              match phone_vec with
              | [] => Except.error (Error.access Container.phone_vec)
              | final :: phone_vec =>
                  (initialsFinals phone_vec).map fun r =>
                    (phone :: r.1, final :: r.2)
            else
              (initialsFinals phone_vec).map fun r => ([] :: r.1, phone :: r.2)

def GetInitialsFinals (st : Setup) (word : CString) :
    FrontM (List CString × List CString) := do
  let phone <- GetPhone st word
  Prog.lift (initialsFinals (Stringsplit phone 32))

def GetFinals (st : Setup) (word : CString) : FrontM (List CString) := do
  let r <- GetInitialsFinals st word
  pure r.2

/-!
## From phones to ids
-/

/-- The id, and with separate tones the tone id, of one phone. -/
def idsOfPhone (st : Setup) (phone : CString) : FrontM (List Int × List Int) :=
  if st._seperate_tone = str "true" then do
    let id <- phoneId phone.dropLast
    match phone.getLast? with
    | none => Prog.fail Error.out_of_range
    | some c => do
        let tone <- toneId [c]
        pure ([atoi id], [atoi tone])
  else do
    let id <- phoneId phone
    pure ([atoi id], [])

def idsOfPhones (st : Setup) : List CString -> FrontM (List Int × List Int)
  | [] => pure ([], [])
  | phone :: phone_vec => do
      let r <- idsOfPhone st phone
      let rs <- idsOfPhones st phone_vec
      pure (r.1 ++ rs.1, r.2 ++ rs.2)

/-- The ids that `Phone2Phoneid` appends to `phoneid` and `toneid`. -/
def Phone2Phoneid (st : Setup) (phone : CString) : FrontM (List Int × List Int) :=
  idsOfPhones st (Stringsplit phone 32)

/-!
## Questions about a word
-/

/-- Every final has the third tone; the loop looks at the last byte of each. -/
def AllToneThree : List CString -> Except Error Bool
  | [] => Except.ok true
  | final :: finals => do
      let c <- back Container.final final
      let flags <- AllToneThree finals
      pure (decide (c = 51) && flags)

theorem AllToneThree_iff {finals : List CString} :
    AllToneThree finals = Except.ok true ↔ forall f, f ∈ finals -> f.getLast? = some 51 := by
  induction finals with
  | nil =>
      simp [AllToneThree]
  | cons f finals ih =>
      rw [List.forall_mem_cons, ← ih, AllToneThree, back]
      cases hlast : f.getLast? with
      | none =>
          simp [bind, Except.bind]
      | some c =>
          rw [ok_bind]
          cases hrest : AllToneThree finals with
          | error e =>
              simp [bind, Except.bind]
          | ok flags =>
              rw [ok_bind]
              simp [pure, Except.pure]

def IsReduplication (word : CString) : Except Error Bool := do
  let word_wstr <- utf8string2wstring word
  match word_wstr with
  | [c, d] => pure (decide (c = d))
  | _ => pure false

def Word2WordVec (word : CString) : Except Error (List WString) := do
  let word_wstr <- utf8string2wstring word
  pure (word_wstr.map fun c => [c])

/-- `word.find_first_of(chars) == 0`, a search for single bytes. -/
def startsWithAny (word chars : CString) : Bool :=
  match word with
  | [] => false
  | c :: _ => decide (c ∈ chars)

/-- Cut a word in two at one of its longest pieces. -/
def SplitWord (st : Setup) (word : CString) : Except Error (List CString) := do
  let word_vec := st.order.sort (st._jieba.CutForSearch word)
  let first_subword <- elementAt Container.word_vec word_vec 0
  if startsWithAny word first_subword then
    if first_subword.length ≤ word.length then
      pure [first_subword, word.drop first_subword.length]
    else Except.error Error.out_of_range
  else if first_subword.length ≤ word.length then
    pure [word.take (word.length - first_subword.length), first_subword]
  else pure [word, first_subword]

end FrontEngineInterface
end VoiceTts
