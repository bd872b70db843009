import PgSexp.Format
import PgSexp.Hash
import PgSexp.PgHash
import PgSexp.Datum
import PgSexp.Equal
import PgSexp.ElementHash
import PgSexp.Bloom
import PgSexp.Ops
import PgSexp.Contains
import PgSexp.ContainsKey
import PgSexp.Match
import PgSexp.Gin
import PgSexp.Numeric
import PgSexp.SymbolTable
import PgSexp.Parse
import PgSexp.Print
import PgSexp.Refinement
import PgSexp.BloomSoundness
import PgSexp.KeyContainment
import PgSexp.HashConsistency
import PgSexp.Search
import PgSexp.GinKeys
import PgSexp.GinSoundness
import PgSexp.Encodings
import PgSexp.Renaming
import PgSexp.IntegerText
import PgSexp.Interning
import PgSexp.Tokens
import PgSexp.Canonical
import PgSexp.Parsed
import PgSexp.Deduplication
import PgSexp.Patterns
import PgSexp.KeyMatching
import PgSexp.Grammar
import PgSexp.RoundTrip
import PgSexp.Reachable
import PgSexp.Layout
import PgSexp.Skip
import PgSexp.Offsets
import PgSexp.Recv
import PgSexp.Varint
import PgSexp.Access
import PgSexp.StoredHash
import PgSexp.StoredEqual
import PgSexp.StoredText
import PgSexp.StoredContains
import PgSexp.StoredContainsKey
import PgSexp.StoredMatch
