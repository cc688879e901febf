import CardQuery.Parse.Problem
import CardQuery.Proofs.Parse.HeaderCut

/-!
# Reading by recursive descent

A text can also be read by rules that call each other: a region reads expressions, an expression
its operands, an operand a term, and a term in parentheses a region again. A `Reader` stands
between two tokens, knows how many parentheses are open, and collects its remarks as it goes. A
rule gives the trees that it builds and the reader behind them.

Nothing in the rules themselves says that they come to an end. They have a limit on how often they
call each other and go round, and no result when it is reached. Each loop also has a remark for a
token that no rule takes.
-/

set_option autoImplicit false

namespace CardQuery

/-- A token as the reader sees it: where it stands, and whether a header begins with it. -/
structure MarkedToken where
  placed : PlacedToken
  header : Bool
  deriving DecidableEq, Repr

namespace MarkedToken

def token (m : MarkedToken) : Token :=
  m.placed.token

def kind (m : MarkedToken) : TokenKind :=
  m.token.kind

/-- Whether a token goes with a comparison that has no argument. -/
def followsStray (m : MarkedToken) : Bool :=
  (match m.kind with
    | .word | .minus | .literal _ => true
    | _ => false) && !m.header

end MarkedToken

/-- The tokens of a text with their places and the headers among them. -/
def marks (ts : List Token) : List MarkedToken :=
  List.zipWith MarkedToken.mk (placeTokens 0 ts)
    ((List.range ts.length).map fun i => decide (HeaderAt ts i))

/-- A message and the range it is shown at. -/
structure Remark where
  message : String
  span : Span
  deriving DecidableEq, Repr

/-- What the kind of a token is called in messages. -/
def TokenKind.label : TokenKind → String
  | .blank => "WHITESPACE"
  | .word => "WORD"
  | .literal .string => "STRING"
  | .literal .regex => "REGEX"
  | .leftParen => "L_PAREN"
  | .rightParen => "R_PAREN"
  | .minus => "MINUS"
  | .comparison .colon => "COLON"
  | .comparison .equal => "EQ"
  | .comparison .notEqual => "BANG_EQ"
  | .comparison .less => "LT"
  | .comparison .greater => "GT"
  | .comparison .lessEqual => "LT_EQ"
  | .comparison .greaterEqual => "GT_EQ"
  | .keyword .and => "AND_KW"
  | .keyword .or => "OR_KW"
  | .unknown => "ERROR"

/-- A reader between two tokens: the tokens ahead, the number of open parentheses, the byte where
the text ends, and the remarks so far. -/
structure Reader where
  ahead : List MarkedToken
  depth : Nat
  stop : Nat
  remarks : List Remark
  deriving DecidableEq, Repr

namespace Reader

/-! ## What is ahead -/

/-- The kind of the next token. -/
def kind? (r : Reader) : Option TokenKind :=
  r.ahead.head?.map MarkedToken.kind

/-- The kind of the token after the next, if it touches it. -/
def adjacent? (r : Reader) : Option TokenKind :=
  r.ahead.tail.head?.map MarkedToken.kind

def atEnd (r : Reader) : Bool :=
  r.ahead.isEmpty

def atHeader (r : Reader) : Bool :=
  r.ahead.head?.any MarkedToken.header

/-- Whether no further expression belongs to the region. -/
def atRegionEnd (r : Reader) : Bool :=
  r.atEnd || r.atHeader || (decide (0 < r.depth) && r.kind? = some .rightParen)

/-- Whether a term can begin with the next token. A parenthesis that closes nothing is read as a
term with an error. -/
def canStartTerm (r : Reader) : Bool :=
  !r.atRegionEnd &&
    match r.kind? with
    | some .word | some (.literal _) | some .minus | some .leftParen | some .unknown => true
    | some .rightParen => r.depth = 0
    | some (.comparison _) => true
    | _ => false

/-! ## Single steps -/

/-- Takes the next token. -/
def bump (r : Reader) : List Tree × Reader :=
  match r.ahead with
  | [] => ([], r)
  | m :: ahead => ([.token m.token], { r with ahead })

/-- Takes the next token as a word. -/
def bumpAsWord (r : Reader) : List Tree × Reader :=
  match r.ahead with
  | [] => ([], r)
  | m :: ahead => ([.token ⟨.word, m.token.text⟩], { r with ahead })

/-- Takes tokens as long as they are of interest. -/
def bumpWhile (p : MarkedToken → Bool) (r : Reader) : List Tree × Reader :=
  ((r.ahead.takeWhile p).map fun m => .token m.token, { r with ahead := r.ahead.dropWhile p })

def skipBlanks (r : Reader) : List Tree × Reader :=
  r.bumpWhile fun m => m.token.isBlank

/-- The range of the next token; at the end of the text, the empty range there. -/
def here (r : Reader) : Span :=
  match r.ahead with
  | [] => ⟨r.stop, r.stop⟩
  | m :: _ => m.placed.span

/-- A remark about the next token. -/
def remark (message : String) (r : Reader) : Reader :=
  { r with remarks := r.remarks ++ [⟨message, r.here⟩] }

/-- Takes the next token into an error node. -/
def errorBump (message : String) (r : Reader) : List Tree × Reader :=
  let (ts, r) := (r.remark message).bump
  ([.node .error ts], r)

/-- Takes the next token into a node of its own. -/
def tokenNode (k : NodeKind) (r : Reader) : List Tree × Reader :=
  let (ts, r) := r.bump
  ([.node k ts], r)

/-! ## Terms without parentheses -/

def literal (k : LiteralKind) (r : Reader) : List Tree × Reader :=
  if r.ahead.head?.any fun m => isClosedLiteral k m.token.text then r.tokenNode (.literal k)
  else (r.remark (Problem.unterminated k).message).tokenNode (.literal k)

/-- The value of a tag. -/
def value (r : Reader) : List Tree × Reader :=
  match r.kind? with
  | some (.literal k) => r.literal k
  | some .word | some .minus =>
    if r.atHeader then ([], r.remark Problem.missingValue.message)
    else
      let (words, r) := r.bumpWhile fun m => m.kind = .word || m.kind = .minus
      ([.node .value words], r)
  | some (.keyword _) =>
    let (word, r) := r.bumpAsWord
    ([.node .value word], r)
  | _ => ([], r.remark Problem.missingValue.message)

/-- An argument, a comparison and the value after it. -/
def tagBody (r : Reader) : List Tree × Reader :=
  let (argument, r) := r.tokenNode .argument
  let (operator, r) := r.tokenNode .operator
  let (value, r) := r.value
  (argument ++ operator ++ value, r)

/-- Whether the token after the next is a comparison. -/
def comparisonFollows (r : Reader) : Bool :=
  r.adjacent?.any TokenKind.isComparison

/-- What a minus sign stands before. -/
def signedBody (r : Reader) : List Tree × Reader :=
  match r.kind? with
  | some .word => if r.comparisonFollows then r.tagBody else r.tokenNode .argument
  | some (.literal k) => r.literal k
  | _ => ([], r.remark Problem.termAfterMinus.message)

/-- A minus sign and the term after it. -/
def signedTerm (r : Reader) : List Tree × Reader :=
  if r.adjacent? = some .leftParen then r.errorBump Problem.negatedClause.message
  else
    let (sign, r) := r.tokenNode .sign
    let (body, r) := r.signedBody
    ([.node .tag (sign ++ body)], r)

/-- A word, or the tag that it begins. -/
def wordTerm (r : Reader) : List Tree × Reader :=
  if r.comparisonFollows then
    let (parts, r) := r.tagBody
    ([.node .tag parts], r)
  else r.tokenNode .argument

/-- A comparison without an argument, and what could have been its value. -/
def strayOperator (r : Reader) : List Tree × Reader :=
  let (operator, r) := (r.remark Problem.missingArgument.message).bump
  let (value, r) := r.bumpWhile MarkedToken.followsStray
  ([.node .error (operator ++ value)], r)

/-! ## Expressions -/

/-- The reader inside a further parenthesis. -/
def enter (r : Reader) : Reader :=
  { r with depth := r.depth + 1 }

/-- The reader outside the innermost parenthesis. -/
def leave (r : Reader) : Reader :=
  { r with depth := r.depth - 1 }

/-- The parenthesis that closes a clause. -/
def closing (r : Reader) : List Tree × Reader :=
  if r.kind? = some .rightParen then r.bump else ([], r.remark Problem.missingParen.message)

/-- The operand behind a keyword. -/
def rightOperand (op : Connective) (operand : Reader → Option (List Tree × Reader))
    (r : Reader) : Option (List Tree × Reader) :=
  if r.canStartTerm then operand r else some ([], r.remark (Problem.termAfter op).message)

/-- Takes a keyword and joins the operand behind it to what is built. -/
def joinRight (op : Connective) (operand : Reader → Option (List Tree × Reader))
    (left : List Tree) (r : Reader) : Option (List Tree × Reader) := do
  let (keyword, r) := r.bump
  let (blanks, r) := r.skipBlanks
  let (right, r) ← r.rightOperand op operand
  return ([.binary op (left ++ keyword ++ blanks ++ right)], r)

/-- An expression, or a keyword where one is due. -/
def expressionOrKeyword (expression : Reader → Option (List Tree × Reader)) (r : Reader) :
    Option (List Tree × Reader) :=
  match r.kind? with
  | some (.keyword _) => some (r.errorBump Problem.termBeforeKeyword.message)
  | _ => expression r

/-- Takes a token that no rule has taken since `before`. -/
def unstick (before r : Reader) : List Tree × Reader :=
  if r.ahead.length = before.ahead.length && !r.atRegionEnd then
    r.errorBump ("unexpected token: " ++ (r.kind?.getD .unknown).label)
  else ([], r)

mutual

/-- Expressions and stray keywords, up to the end of the region. -/
def region : Nat → Reader → Option (List Tree × Reader)
  | 0, _ => none
  | limit + 1, r =>
    let (blanks, r) := r.skipBlanks
    if r.atRegionEnd then some (blanks, r)
    else do
      let (trees, r') ← r.expressionOrKeyword fun r => disjunction limit r
      let (stuck, r') := r.unstick r'
      let (more, r') ← region limit r'
      return (blanks ++ trees ++ stuck ++ more, r')

/-- Conjunctions with `or` between them. -/
def disjunction : Nat → Reader → Option (List Tree × Reader)
  | 0, _ => none
  | limit + 1, r => do
    let (left, r) ← conjunction limit r
    furtherOr limit left r

/-- What `or` joins to the trees that are built. -/
def furtherOr : Nat → List Tree → Reader → Option (List Tree × Reader)
  | 0, _, _ => none
  | limit + 1, left, r =>
    let (blanks, r) := r.skipBlanks
    if r.kind? = some (.keyword .or) then do
      let (joined, r) ← r.joinRight .or (fun r => conjunction limit r) (left ++ blanks)
      furtherOr limit joined r
    else some (left ++ blanks, r)

/-- Terms with `and` or nothing between them. -/
def conjunction : Nat → Reader → Option (List Tree × Reader)
  | 0, _ => none
  | limit + 1, r => do
    let (left, r) ← term limit r
    furtherAnd limit left r

/-- What `and` joins to the trees that are built. -/
def furtherAnd : Nat → List Tree → Reader → Option (List Tree × Reader)
  | 0, _, _ => none
  | limit + 1, left, r =>
    let (blanks, r) := r.skipBlanks
    if r.kind? = some (.keyword .and) then do
      let (joined, r) ← r.joinRight .and (fun r => term limit r) (left ++ blanks)
      furtherAnd limit joined r
    else if r.canStartTerm then do
      let (right, r) ← term limit r
      furtherAnd limit [.binary .and (left ++ blanks ++ right)] r
    else some (left ++ blanks, r)

def term : Nat → Reader → Option (List Tree × Reader)
  | 0, _ => none
  | limit + 1, r =>
    match r.kind? with
    | some .leftParen => clause limit r
    | some .minus => some r.signedTerm
    | some .word => some r.wordTerm
    | some (.literal k) => some (r.literal k)
    | some .rightParen => some (r.errorBump Problem.unmatchedParen.message)
    | some (.comparison _) => some r.strayOperator
    | none => some ([], r.remark "expected a term")
    | _ => some (r.errorBump Problem.unexpectedCharacter.message)

/-- A region in parentheses. -/
def clause : Nat → Reader → Option (List Tree × Reader)
  | 0, _ => none
  | limit + 1, r => do
    let (opening, r) := r.bump
    let (body, r) ← region limit r.enter
    let (closing, r) := r.leave.closing
    return ([.node .clause (opening ++ body ++ closing)], r)

end

/-! ## Texts -/

/-- A header and the region behind it. -/
def query (limit : Nat) (r : Reader) : Option (List Tree × Reader) := do
  let (name, r) := r.tokenNode .queryName
  let (colon, r) := if r.kind? = some (.comparison .colon) then r.bump else ([], r)
  let (blanks, r) := r.skipBlanks
  let (body, r) ← region limit r
  return ([.node .query (name ++ colon ++ blanks ++ [.node .queryBody body])], r)

/-- A query, or a token where one is due. -/
def nextQuery (limit : Nat) (r : Reader) : Option (List Tree × Reader) :=
  if r.atHeader then query limit r
  else if r.atEnd then some ([], r)
  else some (r.errorBump "expected a query")

/-- The queries up to the end of the text. -/
def queries : Nat → Reader → Option (List Tree × Reader)
  | 0, _ => none
  | limit + 1, r =>
    if r.atEnd then some ([], r)
    else do
      let (blanks, r) := r.skipBlanks
      let (trees, r) ← r.nextQuery limit
      let (more, r) ← queries limit r
      return (blanks ++ trees ++ more, r)

/-- What stands before the first header, if there is anything. -/
def domain (limit : Nat) (r : Reader) : Option (List Tree × Reader) :=
  if r.atHeader then some ([], r)
  else (region limit r).map fun (trees, r) => ([.node .domain trees], r)

def program (limit : Nat) (r : Reader) : Option (Tree × Reader) :=
  if r.ahead.any MarkedToken.header then do
    let (blanks, r) := r.skipBlanks
    let (domain, r) ← r.domain limit
    let (trees, r) ← queries limit r
    return (.node .program (blanks ++ domain ++ trees), r)
  else (region limit r).map fun (trees, r) => (.node .program trees, r)

end Reader

/-- The tree of a text and the remarks about it, read by rules that go on at most up to a limit. -/
def descend (limit : Nat) (t : Text) : Option (Tree × List Remark) :=
  (Reader.program limit ⟨marks (tokenize t), 0, t.width, []⟩).map fun (tree, r) => (tree, r.remarks)

end CardQuery
