import CssUrls.Css.Token
import CssUrls.Lexical.TokenStream

/-! Tokens written and read again. -/
namespace CssUrls.Css
open Text Lexical

/-- The tokens as one text. -/
def tokensText (tokens : List Token) : String :=
  String.join (tokens.map fun t => (writeToken t).text)

/-- The text of the tokens reads back as just these tokens. -/
def readsBack (tokens : List Token) : Bool :=
  let again := (tokenize (normalize (tokensText tokens).toList)).spans.map Span.token
  again.length == tokens.length && (again.zip tokens).all fun (a, b) => a.same b

end CssUrls.Css
