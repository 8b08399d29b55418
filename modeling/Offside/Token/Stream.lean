import Offside.Source.Position
import Offside.Token.Lexeme

/-!
# Token streams

A source is read once, from the start to the end, into the items that matter: its tokens and its malformed number literals, each
with the position it begins at. Behind the last item the stream yields the end of the input for ever.
-/

namespace Offside

/-- A token or a malformed number literal, and the position it begins at. -/
structure Item where
  lexed : Lexed
  position : Position
deriving DecidableEq, Repr

/-- The line that an item begins on. -/
def Item.place (i : Item) : Place := i.position.place

/-- The items still to come, and the end of the source. -/
structure TokenStream where
  items : List Item
  /-- The position behind the whole source. -/
  finish : Position
  /-- The number of items, at hand without counting them. -/
  size : Nat
  size_eq : size = items.length
deriving DecidableEq, Repr

namespace TokenStream

/-- The stream without items. -/
def nil (finish : Position) : TokenStream := { items := [], finish, size := 0, size_eq := rfl }

/-- Puts an item in front of a stream. -/
def cons (item : Item) (s : TokenStream) : TokenStream :=
  { items := item :: s.items, finish := s.finish, size := s.size + 1, size_eq := by simp [s.size_eq] }

/-- The stream of the text behind a position, in at most `n` lexemes. -/
def scan : Nat → Position → TokenStream
  | 0, p => nil p
  | n + 1, p =>
    match p.ahead with
    | [] => nil p
    | c :: after =>
      let lexeme := Lexeme.first c after
      let rest := scan n (p.skip lexeme.chars.length)
      if lexeme.isTrivia then rest else rest.cons { lexed := lexeme.lexed, position := p }

/-- The stream behind a position. There are no more lexemes than characters. -/
def ofPosition (p : Position) : TokenStream := scan p.ahead.length p

/-- The stream of a source. -/
def ofSource (source : String) : TokenStream := ofPosition (.start source)

/-- The next item, and the stream behind it. -/
def next : TokenStream → Item × TokenStream
  | ⟨[], finish, size, h⟩ => ({ lexed := .token .endOfInput, position := finish }, ⟨[], finish, size, h⟩)
  | ⟨item :: items, finish, size, h⟩ => (item, ⟨items, finish, size - 1, by simp [h]⟩)

end TokenStream

end Offside
