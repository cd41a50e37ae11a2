/-! Patterns for paths and how they are written. `?` stands for a byte and `*` for any number of
them, none of them a slash; `[a-z]` and `[!a-z]` stand for a byte in or not in a set; `{a,b}` for
one of several patterns. `**` stands for any number of directories where it is a whole component,
and for two `*` elsewhere. A pattern whose brackets or braces do not match is none. -/

namespace TypeAtlas

namespace Glob

/-- A set of bytes, given by ranges of characters. -/
structure ByteSet where
  negated : Bool
  ranges : List (Char × Char)
deriving DecidableEq

inductive Token where
  | literal (c : Char)
  /-- `?` -/
  | any
  /-- `*` -/
  | star
  /-- `**` in front, with the slash behind it: nothing, or any directories. -/
  | anyFront
  /-- `/**` at the end: anything below a directory. -/
  | anyBelow
  /-- `/**` followed by a slash: a slash, or any directories between two slashes. -/
  | anyBetween
  | inSet (set : ByteSet)
  | choice (alternatives : List (List Token))

abbrev Pattern := List Token

inductive Lexeme where
  | char (c : Char)
  | inSet (set : ByteSet)

/-- The ranges of a class whose last range so far is `r`. A minus extends the last range to the
character behind it, which must not come before the range's first one. At the end of the class a
minus stands for itself. -/
def ranges (r : Char × Char) : List Char → Option (List (Char × Char))
  | [] => some [r]
  | ['-'] => some [r, ('-', '-')]
  | '-' :: c :: rest => if c < r.1 then none else ranges (r.1, c) rest
  | c :: rest => (ranges (c, c) rest).map (r :: ·)

def readClass (content : List Char) : Option ByteSet :=
  let (negated, content) :=
    match content with
    | '!' :: rest => (true, rest)
    | '^' :: rest => (true, rest)
    | _ => (false, content)
  match content with
  | [] => none
  | c :: rest => (ranges (c, c) rest).map fun ranges => { negated, ranges }

/-- Whether a closing bracket behind the text `content` of a class would be its first member. -/
def isBeginning (content : List Char) : Bool :=
  content = [] || content = ['!'] || content = ['^']

/-- Cuts a pattern into lexemes. Within a class, `content` is what has been read of it. -/
def lexemes : Option (List Char) → List Char → Option (List Lexeme)
  | none, [] => some []
  | some _, [] => none
  | none, c :: rest =>
    if c = '[' then lexemes (some []) rest else (lexemes none rest).map (.char c :: ·)
  | some content, c :: rest =>
    if c = ']' ∧ isBeginning content = false then do
      let set ← readClass content
      return .inSet set :: (← lexemes none rest)
    else lexemes (some (content ++ [c])) rest

/-- A brace that is open: the alternatives in front of the present one, and the tokens in front of
the brace, the last ones first. -/
structure Group where
  outer : List Token
  alternatives : List (List Token)

/-- `**` as a component in its own right, after the slash in front of it has been read. Next to
another `**` it adds nothing. -/
def component (closes : Bool) : List Token → List Token
  | .anyFront :: tokens => .anyFront :: tokens
  | .anyBelow :: tokens => .anyBelow :: tokens
  | _ :: tokens => (if closes then .anyBelow else .anyBetween) :: tokens
  | [] => []

/-- Reads the tokens of a pattern. `tokens` are those of the present alternative, the last one
first, and `afterSlash` says that a slash has just been read. -/
def readTokens (afterSlash : Bool) (tokens : List Token) (groups : List Group) :
    List Lexeme → Option (List Token)
  | [] => if groups.isEmpty then some tokens.reverse else none
  | .inSet set :: rest => readTokens false (.inSet set :: tokens) groups rest
  | [.char '*', .char '*'] =>
    if tokens.isEmpty then readTokens false [.anyFront] groups []
    else if afterSlash then readTokens false (component true tokens) groups []
    else readTokens false (.star :: .star :: tokens) groups []
  | .char '*' :: .char '*' :: .char '/' :: rest =>
    if tokens.isEmpty then readTokens true [.anyFront] groups rest
    else if afterSlash then readTokens true (component false tokens) groups rest
    else readTokens true (.literal '/' :: .star :: .star :: tokens) groups rest
  | .char '*' :: .char '*' :: next :: rest =>
    let closes := !groups.isEmpty && (next matches .char ',' | .char '}')
    if afterSlash && !tokens.isEmpty && closes then
      readTokens false (component true tokens) groups (next :: rest)
    else readTokens false (.star :: .star :: tokens) groups (next :: rest)
  | .char c :: rest =>
    match c, groups with
    | '*', _ => readTokens false (.star :: tokens) groups rest
    | '?', _ => readTokens false (.any :: tokens) groups rest
    | '{', _ => readTokens false [] (⟨tokens, []⟩ :: groups) rest
    | '}', [] => none
    | '}', group :: groups =>
      readTokens false (.choice (group.alternatives ++ [tokens.reverse]) :: group.outer) groups rest
    | ',', group :: groups =>
      readTokens false [] (⟨group.outer, group.alternatives ++ [tokens.reverse]⟩ :: groups) rest
    | _, _ => readTokens (c = '/') (.literal c :: tokens) groups rest

def read (text : String) : Option Pattern :=
  (lexemes none text.toList).bind (readTokens false [] [])

end Glob

end TypeAtlas
