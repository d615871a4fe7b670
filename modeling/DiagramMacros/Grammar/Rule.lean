import DiagramMacros.Grammar.Peg
import DiagramMacros.Keyword
/-!
The grammar of diagrams. Three groups of rules are entered from outside: the calls, which match at a
backslash and are told apart by their keywords; the tokens of a path, matched one after the other;
and the coordinate expressions, matched against a whole text.

A braced argument ends at its matching brace. A list of options ends at the first bracket outside
braces, and a path body at the first semicolon outside braces. Blanks between the elements of a rule
are spaces, tabs, carriage returns and line feeds.
-/

set_option autoImplicit false
set_option relaxedAutoImplicit false

namespace DiagramMacros

/-- The rules of the grammar. -/
inductive Rule
  | blank
  | braceNested
  | parenNested
  | groupBody
  | argument
  | optionsBody
  | options
  | parenBody
  | coordinateName
  | invocation (keyword : Keyword)
  | drawKeyword
  | pathBody
  | pathCoordinate
  | incrementalLine
  | relativeLine
  | lineTo
  | horizontalFirst
  | verticalFirst
  | cycle
  | pathOperator
  | nodeKeyword
  | pathNode
  | number
  | name
  | component
  | cartesian
  | polar
  | add
  | project
  | interpolate
  | mergeOperator
  | parenGroup
  | dollarGroup
  | operand
  | chain
  | merge
  | lineSeparator
  | linePair
  | intersection
  | coordinateExpression
  | endOfInput
deriving DecidableEq

namespace Rule

/-- The name of a rule in printed trees. -/
def title : Rule → Text
  | blank => "WHITESPACE"
  | braceNested => "brace_nested"
  | parenNested => "paren_nested"
  | groupBody => "group_body"
  | argument => "arg"
  | optionsBody => "options_body"
  | options => "options"
  | parenBody => "paren_body"
  | coordinateName => "coordinate_name"
  | invocation k => k.word ++ "_macro".toList
  | drawKeyword => "draw_keyword"
  | pathBody => "path_body"
  | pathCoordinate => "path_coordinate"
  | incrementalLine => "incremental_line"
  | relativeLine => "relative_line"
  | lineTo => "line_to"
  | horizontalFirst => "horizontal_first"
  | verticalFirst => "vertical_first"
  | cycle => "cycle"
  | pathOperator => "path_operator"
  | nodeKeyword => "node_keyword"
  | pathNode => "path_node"
  | number => "number"
  | name => "name"
  | component => "component"
  | cartesian => "cartesian"
  | polar => "polar"
  | add => "add"
  | project => "project"
  | interpolate => "interpolate"
  | mergeOperator => "merge_op"
  | parenGroup => "group"
  | dollarGroup => "calc"
  | operand => "operand"
  | chain => "chain"
  | merge => "merge"
  | lineSeparator => "line_sep"
  | linePair => "line_pair"
  | intersection => "intersection"
  | coordinateExpression => "coordinate_expr"
  | endOfInput => "EOI"

/-- The rules that can be asked for by name: all but the end of the input, which is always part of
another rule. -/
def named : List Rule :=
  [blank, braceNested, parenNested, groupBody, argument, optionsBody, options, parenBody,
    coordinateName] ++ Keyword.all.map invocation ++
  [drawKeyword, pathBody, pathCoordinate, incrementalLine, relativeLine, lineTo, horizontalFirst,
    verticalFirst, cycle, pathOperator, nodeKeyword, pathNode, number, name, component, cartesian,
    polar, add, project, interpolate, mergeOperator, parenGroup, dollarGroup, operand, chain, merge,
    lineSeparator, linePair, intersection, coordinateExpression]

/-- The rule asked for by a name. -/
def ofTitle? (title : Text) : Option Rule := named.find? fun r ↦ r.title == title

/-- What a rule does with the match of its body. -/
def kind : Rule → RuleKind
  | blank | braceNested | parenNested | lineSeparator => .silent
  | argument | options | pathCoordinate | interpolate => .tight
  | groupBody | optionsBody | parenBody | coordinateName | drawKeyword | pathBody | cycle
  | nodeKeyword | number | name | component => .token
  | _ => .plain

end Rule

open Peg Rule

/-- The ASCII letters and digits. -/
def isLetterOrDigit (c : Char) : Bool := isLetter c || isDigit c

/-- The letters of a word: ASCII letters, digits and the underscore. -/
def isWordLetter (c : Char) : Bool := isLetterOrDigit c || c == '_'

/-- The characters of a name after its first: those of a word, and primes. -/
def isNameLetter (c : Char) : Bool := isWordLetter c || c == '\''

/-- The blanks allowed between elements. -/
def isGap (c : Char) : Bool := c == ' ' || c == '\t' || c == '\r' || c == '\n'

/-- One character outside a list. -/
def oneExcept (excluded : Text) : Peg Rule := one fun c ↦ !excluded.contains c

/-- Text in which groups of a nesting rule are whole and no other character of a list occurs. -/
def balanced (nested : Rule) (excluded : Text) : Peg Rule :=
  star (alt (call nested) (oneExcept excluded))

/-- A call that consists of a keyword and braced arguments. -/
def keywordCall (keyword : Keyword) (arguments : Nat) : Peg Rule :=
  inOrder (lit ('\\' :: keyword.word) :: List.replicate arguments (call argument))

/-- A word that is not continued by a letter, a digit or an underscore. -/
def wholeWord (word : Text) : Peg Rule := inOrder [lit word, absent (one isWordLetter)]

/-- The body of a call. -/
def invocationBody : Keyword → Peg Rule
  | .coor => keywordCall .coor 4
  | .coordinate =>
    inOrder [lit "\\coordinate", optional (call options), lit "(", call coordinateName, lit ")",
      lit "at", lit "(", call parenBody, lit ")", lit ";"]
  | .node => keywordCall .node 3
  | .mass => keywordCall .mass 3
  | .vec => keywordCall .vec 4
  | .circle => keywordCall .circle 4
  | .pic => keywordCall .pic 5
  | .xyaxis => keywordCall .xyaxis 2
  | .grid => keywordCall .grid 1
  | .draw => inOrder [call drawKeyword, optional (call options), call pathBody, lit ";"]

/-- The body of each rule. -/
def Rule.body : Rule → Peg Rule
  | blank => one isGap
  | braceNested => inOrder [lit ['{'], balanced braceNested ['{', '}'], lit ['}']]
  | parenNested => inOrder [lit "(", balanced parenNested "()", lit ")"]
  | groupBody => balanced braceNested ['{', '}']
  | argument => inOrder [lit ['{'], call groupBody, lit ['}']]
  | optionsBody => balanced braceNested [']', '{']
  | options => inOrder [lit "[", call optionsBody, lit "]"]
  | parenBody => balanced parenNested "()"
  | coordinateName => plus (one isNameLetter)
  | invocation k => invocationBody k
  | drawKeyword => inOrder [lit "\\draw", absent (one isLetter)]
  | pathBody => balanced braceNested [';', '{']
  | pathCoordinate => inOrder [lit "(", call parenBody, lit ")"]
  | incrementalLine => inOrder [lit "--", lit "++"]
  | relativeLine => inOrder [lit "--", lit "+"]
  | lineTo => lit "--"
  | horizontalFirst => lit "-|"
  | verticalFirst => lit "|-"
  | cycle => wholeWord "cycle"
  | pathOperator =>
    firstOf [call incrementalLine, call relativeLine, call lineTo, call horizontalFirst,
      call verticalFirst, call cycle]
  | nodeKeyword => wholeWord "node"
  | pathNode => inOrder [call nodeKeyword, optional (call options), call argument]
  | number =>
    inOrder [optional (alt (lit "+") (lit "-")),
      alt (inOrder [plus (one isDigit), optional (inOrder [lit ".", star (one isDigit)])])
        (inOrder [lit ".", plus (one isDigit)]),
      optional (inOrder [anyCase "e", optional (alt (lit "+") (lit "-")), plus (one isDigit)])]
  | name => inOrder [one fun c ↦ isLetter c || c == '_', star (one isNameLetter)]
  | component => plus (oneExcept ",:()$")
  | cartesian => inOrder [call component, lit ",", call component]
  | polar => inOrder [call component, lit ":", call component]
  | add => lit "+"
  | project => lit "-|"
  | interpolate => inOrder [lit "!", call number, lit "!"]
  | mergeOperator => firstOf [call project, call add, call interpolate]
  | parenGroup =>
    inOrder [lit "(",
      firstOf [call chain, call dollarGroup, call cartesian, call polar, call name], lit ")"]
  | dollarGroup => inOrder [lit "$", alt (call chain) (call operand), lit "$"]
  | operand => firstOf [call parenGroup, call dollarGroup, call name]
  | chain => inOrder [call operand, plus (inOrder [call mergeOperator, call operand])]
  | merge => alt (call dollarGroup) (call chain)
  | lineSeparator => alt (lit "--") (lit "and")
  | linePair =>
    inOrder [call operand, call lineSeparator, call operand, lit "and", call operand,
      call lineSeparator, call operand]
  | intersection =>
    alt (inOrder [anyCase "intersection", anyCase "of", call linePair]) (call linePair)
  | coordinateExpression =>
    inOrder [empty,
      firstOf [inOrder [call cartesian, call endOfInput], inOrder [call polar, call endOfInput],
        inOrder [call merge, call endOfInput], inOrder [call intersection, call endOfInput],
        inOrder [call name, call endOfInput]]]
  | endOfInput => absent (one fun _ ↦ true)

/-- The grammar of diagrams. Five calls may be nested before a character is consumed: an expression,
a merge, a chain, an operand, and a name or a group. -/
def diagramGrammar : Grammar Rule where
  body := Rule.body
  kind := Rule.kind
  blank := isGap
  nesting := 5

/-- Matches a rule against a prefix of a text. -/
def Rule.parse (rule : Rule) (s : Text) : Match Rule := diagramGrammar.parse rule s

/-- What is inside the node of a rule at the start of a text, and what follows it. -/
def Rule.parseNode? (rule : Rule) (s : Text) : Match Rule :=
  match rule.parse s with
  | some (.node _ inside _, rest) => some (inside, rest)
  | _ => none

end DiagramMacros
