import ExprLang.Token.Cursor

namespace ExprLang

namespace TokenStream

inductive Ending where
  | eof (position : Position)
  | failed (error : LexError)
deriving DecidableEq, Repr

end TokenStream

structure TokenStream where
  tokens : List Token
  ending : TokenStream.Ending
deriving DecidableEq, Repr

namespace TokenStream

/-- Reads on from a cursor; `before` holds the tokens read so far, the last one first. -/
def collect (strict : Bool) (before : List Token) (cur : Cursor) : TokenStream :=
  match h : cur.token strict with
  | (.error e, _) => ⟨before.reverse, .failed e⟩
  | (.ok t, next) =>
    if ht : t.isEof then ⟨before.reverse, .eof t.position⟩
    else
      have : next.rest.length < cur.rest.length := Cursor.length_rest_token h (by simpa using ht)
      collect strict (t :: before) next
termination_by cur.rest.length

def ofSource (source : String) (strict : Bool) : TokenStream :=
  collect strict [] (.ofSource source)

def toExcept (s : TokenStream) : Except LexError (List Token) :=
  match s.ending with
  | .eof _ => .ok s.tokens
  | .failed e => .error e

end TokenStream

/-- The tokens of a text without the end mark. A string literal may end with the text. -/
def tokenize (source : String) : Except LexError (List Token) :=
  (TokenStream.ofSource source false).toExcept

end ExprLang
