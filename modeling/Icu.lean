import Icu.UnicodeSet.UnionProof
import Icu.UnicodeSet.SpanUtf8Proof
import Icu.Utf8.Iteration
import Icu.UnicodeSet.SerializedProof
import Icu.Bocu1.RoundTrip
import Icu.Bocu1.Chunking
import Icu.Punycode.RoundTrip
import Icu.Pattern.RoundTrip
import Icu.Scsu.RoundTrip
import Icu.Utf7.RoundTrip
import Icu.UHash.Failure
import Icu.BiDi.LineHistory
import Icu.BiDi.IsolateNesting
import Icu.StrTrans.ToUtf8
import Icu.StrTrans.FromJava
import Icu.StrTrans.ToJava
import Icu.StringTrie.Codecs
import Icu.Normalizer.Append
import Icu.Rbbi.Accepts
import Icu.UnicodeSet.StringSpanProof
import Icu.UnicodeSet.Members
import Icu.UnicodeString.ValueSemantics
import Icu.UcnvU8.NextUChar
import Icu.UcnvU8.RoundTrip
import Icu.BiDi.InverseMaps
import Icu.Scsu.Offsets
import Icu.Bocu1.Order
import Icu.Utf7.Strictness
import Icu.Calendar.GregoDates
import Icu.UnicodeSet.SimpleSpanProof
import Icu.UnicodeSet.SpanNotProof
import Icu.Calendar.HebrewAdd
import Icu.Calendar.HebrewFields
import Icu.Normalizer.CompositionsOrder
import Icu.Bocsu.Run
import Icu.ArraySort.Sort
import Icu.Calendar.HebrewRoll
import Icu.Calendar.IslamicCivil
import Icu.Calendar.Persian
import Icu.Calendar.Umalqura
import Icu.Lib.OverlapChain
import Icu.Rbbi.Categories
import Icu.Rbbi.Chaining
import Icu.Rbbi.LongestMatch
import Icu.Rbbi.NoChain
import Icu.UnicodeString.Reverse
import Icu.UnicodeString.Growth
import Icu.LanguageTag.Attributes
import Icu.UString.Find
