import VoiceTts.Base.Strings
import VoiceTts.Front.Borders
import VoiceTts.Front.Buffers
import VoiceTts.Front.Characters
import VoiceTts.Front.Coarsening
import VoiceTts.Front.Counted
import VoiceTts.Front.Coverage
import VoiceTts.Front.Endings
import VoiceTts.Front.Engine
import VoiceTts.Front.Erhua
import VoiceTts.Front.FullSegment
import VoiceTts.Front.InRange
import VoiceTts.Front.Inventory
import VoiceTts.Front.Keys
import VoiceTts.Front.Kinds
import VoiceTts.Front.LeftOver
import VoiceTts.Front.LineEnds
import VoiceTts.Front.Loaders
import VoiceTts.Front.Lookups
import VoiceTts.Front.Merge
import VoiceTts.Front.NoFinals
import VoiceTts.Front.Parts
import VoiceTts.Front.Passes
import VoiceTts.Front.PhoneTable
import VoiceTts.Front.Phonemes
import VoiceTts.Front.QuerySegment
import VoiceTts.Front.Refinement
import VoiceTts.Front.Sandhi
import VoiceTts.Front.SplitWords
import VoiceTts.Front.Syllables
import VoiceTts.Front.Synthesis
import VoiceTts.Front.Tags
import VoiceTts.Front.ThreeJoins
import VoiceTts.Front.ToneMode
import VoiceTts.Front.Tones
import VoiceTts.Front.YiMerge
import VoiceTts.Front.YiRules
import VoiceTts.Lib.BestPath
import VoiceTts.Lib.Blocks
import VoiceTts.Lib.Pairs
import VoiceTts.Lib.Prog
import VoiceTts.Lib.Regex
import VoiceTts.Lib.RegexChoices
import VoiceTts.Lib.RegexExtent
import VoiceTts.Lib.RegexRuns
import VoiceTts.Lib.RegexSearch
import VoiceTts.Lib.RegexText
import VoiceTts.Lib.Rewrite
import VoiceTts.Lib.RewriteLocal
import VoiceTts.Lib.StdMap
import VoiceTts.Lib.Tiling
import VoiceTts.Lib.Trie
import VoiceTts.Lib.Utf8
import VoiceTts.Lib.Utf8Cut
import VoiceTts.Normalizer.Absent
import VoiceTts.Normalizer.Faults
import VoiceTts.Normalizer.Fractions
import VoiceTts.Normalizer.Marks
import VoiceTts.Normalizer.Numbers
import VoiceTts.Normalizer.Numerals
import VoiceTts.Normalizer.Phones
import VoiceTts.Normalizer.Pieces
import VoiceTts.Normalizer.Quantities
import VoiceTts.Normalizer.Reading
import VoiceTts.Normalizer.Rounds
import VoiceTts.Normalizer.Rules
import VoiceTts.Normalizer.Sentences
import VoiceTts.Normalizer.Shapes
import VoiceTts.Normalizer.ShortRuns
import VoiceTts.Normalizer.Spoken
import VoiceTts.Normalizer.Times
import VoiceTts.Normalizer.Torn
import VoiceTts.Player.Answers
import VoiceTts.Player.Loudness
import VoiceTts.Player.NativeCall
import VoiceTts.Player.Predictor
import VoiceTts.Player.Speech
import VoiceTts.Player.Wire
import VoiceTts.Segmenter.CharacterLevel
import VoiceTts.Segmenter.DictFile
import VoiceTts.Segmenter.Dictionary
import VoiceTts.Segmenter.FrontEnd
import VoiceTts.Segmenter.FullSegment
import VoiceTts.Segmenter.HMMModel
import VoiceTts.Segmenter.HMMSegment
import VoiceTts.Segmenter.Jieba
import VoiceTts.Segmenter.Locality
import VoiceTts.Segmenter.MPSegment
import VoiceTts.Segmenter.MixSegment
import VoiceTts.Segmenter.ModelFile
import VoiceTts.Segmenter.Pronunciations
import VoiceTts.Segmenter.QuerySegment
import VoiceTts.Segmenter.Runes
import VoiceTts.Segmenter.Schemes
import VoiceTts.Segmenter.Separators
import VoiceTts.Segmenter.Words
