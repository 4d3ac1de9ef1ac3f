import CssUrls.Proofs.Lexical.Covering
import CssUrls.Proofs.Lexical.Decoded
import CssUrls.Proofs.Text.Source
import CssUrls.Proofs.Segment.Partition
import CssUrls.Proofs.Segment.Rewriting
import CssUrls.Proofs.Segment.Tracking
import CssUrls.Text.Normal
import CssUrls.Text.Utf8
import CssUrls.Token.Kind
import CssUrls.Lexical.TokenStream
import CssUrls.Number.Layout
import CssUrls.Css.Reread
import CssUrls.Segment.Edit
import CssUrls.Segment.Event
import CssUrls.Data.Decode
import CssUrls.Data.Number
import CssUrls.Proofs.Lexical.Restart
import CssUrls.Proofs.Lexical.LineEndings
import CssUrls.Proofs.Css.TokensReread
import CssUrls.Proofs.Segment.Appending
import CssUrls.Proofs.Segment.Isolated
import CssUrls.Proofs.Segment.Normalized
import CssUrls.Proofs.Lexical.TokenFaults
import CssUrls.Proofs.Segment.Inert
import CssUrls.Proofs.Segment.Scopes
import CssUrls.Proofs.Css.Limits
import CssUrls.Proofs.Css.IntegersReread
import CssUrls.Proofs.Css.UnitsReread
import CssUrls.Proofs.Segment.UrlSpellings
import CssUrls.Proofs.Css.DecimalsReread
import CssUrls.Proofs.Lexical.UrlFunctions
import CssUrls.Text.InPlace
import CssUrls.Proofs.Text.Offsets
import CssUrls.Proofs.Segment.Occurrences
import CssUrls.Proofs.Lexical.LongestNumerals
import CssUrls.Proofs.Segment.Lookup
import CssUrls.Proofs.Css.HexEscapes
import CssUrls.Proofs.Css.Payloads
