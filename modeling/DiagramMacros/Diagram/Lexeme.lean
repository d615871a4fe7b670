import DiagramMacros.Grammar.Rule
/-!
Lexemes of a source: the calls in it, and the text between them. The search for calls halts at
backslashes and percent signs. At a percent sign it goes on after the end of the line. At a
backslash the calls are tried, and where one matches, the text before it that is in no lexeme yet
becomes a raw one. A backslash that begins no call is ordinary text together with the character
after it, unless that is a letter; but if the control word after it is a reserved keyword, it is an
error. The search is defined for any order in which the keywords are tried (`searchIn`), and takes
them in the order of `Keyword.all`.

The search works with two bytes of the source, both counted from its start: where it goes on, and
where the text begins that is in no lexeme yet. The texts of raw lexemes are cut out of the source.
-/

set_option autoImplicit false
set_option relaxedAutoImplicit false

namespace DiagramMacros

/-- A part of a source. -/
inductive Lexeme
  | raw (text : Text)
  | call (keyword : Keyword) (tree : Forest Rule)
deriving DecidableEq

namespace Lexeme

/-- The text of a lexeme. -/
def text : Lexeme → Text
  | raw text => text
  | call _ tree => tree.flatten

/-- The length of a lexeme in bytes. -/
def size (l : Lexeme) : Nat := Text.size l.text

/-- Whether a lexeme is ordinary text. -/
def isRaw : Lexeme → Bool
  | raw _ => true
  | call _ _ => false

end Lexeme

/-- A stretch of a source, in bytes. -/
structure Span where
  start : Nat
  stop : Nat
deriving DecidableEq

/-- The stretches of lexemes that follow each other from some byte on. -/
def Lexeme.spans (start : Nat) : List Lexeme → List Span
  | [] => []
  | l :: ls => ⟨start, start + l.size⟩ :: spans (start + l.size) ls

/-- A lexeme and its stretch of the source. -/
structure PlacedLexeme where
  lexeme : Lexeme
  span : Span
deriving DecidableEq

/-- The call at the start of a text, found by trying the keywords in this order: its keyword, what
it matches, and the text after it. -/
def matchCallIn (order : List Keyword) (s : Text) : Option (Keyword × Forest Rule × Text) :=
  order.findSome? fun k ↦ ((Rule.invocation k).parse s).map fun r ↦ (k, r)

/-- The call at the start of a text: its keyword, what it matches, and the text after it. -/
def matchCall? (s : Text) : Option (Keyword × Forest Rule × Text) := matchCallIn Keyword.all s

/-- The reserved keyword that is the whole control word at the start of a text, looked for in this
order. -/
def reservedIn (order : List Keyword) (s : Text) : Option Keyword :=
  (Keyword.atStartIn order s).filter Keyword.isReserved

/-- The reserved keyword that is the whole control word at the start of a text. -/
def reserved? (s : Text) : Option Keyword := reservedIn Keyword.all s

/-- Where the search for calls halts. -/
def isStop (c : Char) : Bool := c == '\\' || c == '%'

/-- The number of bytes after a backslash that belong to it: those of one character, or none before
a letter. -/
def controlSymbolSize : Text → Nat
  | c :: _ => if isLetter c then 0 else c.utf8Size
  | [] => 0

/-- A reserved keyword that begins no call, and where it stands. -/
structure LexFailure where
  keyword : Keyword
  span : Span
deriving DecidableEq

/-- The raw lexeme between two bytes of a source, if there is anything between them. -/
def rawBetween (source : Text) (start stop : Nat) : List PlacedLexeme :=
  if start < stop then [⟨.raw (source.slice start stop), start, stop⟩] else []

/-- Searches on from the byte `pos`, where the text from the byte `start` on is in no lexeme yet.
The keywords are tried in this order, and the search halts at most so many times. -/
def searchIn (order : List Keyword) (source : Text) :
    Nat → Nat → Nat → Except LexFailure (List PlacedLexeme)
  | 0, start, _ => .ok (rawBetween source start (Text.size source))
  | n + 1, start, pos =>
    let passed := Text.cutWhile (fun c ↦ !isStop c) (source.dropBytes pos)
    let found := pos + Text.size passed.1
    match passed.2 with
    | [] => .ok (rawBetween source start (Text.size source))
    | c :: s =>
      if c = '%' then
        match Text.cut? '\n' (c :: s) with
        | some (line, _) => searchIn order source n start (found + Text.size line + 1)
        | none => searchIn order source n start (Text.size source)
      else
        match matchCallIn order (c :: s) with
        | some (k, tree, _) =>
          let stop := found + Text.size tree.flatten
          (searchIn order source n stop stop).map fun ls ↦
            rawBetween source start found ++ ⟨.call k tree, found, stop⟩ :: ls
        | none =>
          match reservedIn order (c :: s) with
          | some k => .error ⟨k, found, found + 1 + Text.size k.word⟩
          | none => searchIn order source n start (found + 1 + controlSymbolSize s)

/-- The lexemes of a source with their stretches, where the keywords are tried in this order. The
search goes on after each halt, so it does not halt more often than there are characters. -/
def lexPlacedIn (order : List Keyword) (source : Text) : Except LexFailure (List PlacedLexeme) :=
  searchIn order source (source.length + 1) 0 0

/-- The lexemes of a source with their stretches. -/
def lexPlaced (source : Text) : Except LexFailure (List PlacedLexeme) :=
  lexPlacedIn Keyword.all source

/-- The lexemes of a source. -/
def lex (source : Text) : Except LexFailure (List Lexeme) :=
  (lexPlaced source).map fun ls ↦ ls.map PlacedLexeme.lexeme

end DiagramMacros
