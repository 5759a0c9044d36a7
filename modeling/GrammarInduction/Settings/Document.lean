import GrammarInduction.Settings.Basic

/-!
Settings documents in TOML. A document gives each setting at most once, numbers as integers and
policies by name; whatever else is well-formed TOML is refused all the same. A policy may also be
written as a table whose only key is the name, with an empty table or array under it.
-/
namespace GrammarInduction
namespace Document

/-- A value that some setting admits. -/
inductive Value
  | number (n : Nat)
  | text (s : String)
  /-- An empty table or array. -/
  | empty
  /-- A table with one key and nothing under it. -/
  | tag (key : String)
  deriving DecidableEq, Repr

/-- A key of one or two parts; no setting lies deeper. -/
structure Path where
  head : String
  tail : Option String
  deriving DecidableEq, Repr

inductive Statement
  | header (path : Path)
  | assign (path : Path) (value : Value)
  deriving DecidableEq, Repr

/-! ### Characters -/

/-- Line ends of two characters become one. -/
def joinLineEnds : List Char → List Char
  | '\r' :: '\n' :: cs => '\n' :: joinLineEnds cs
  | c :: cs => c :: joinLineEnds cs
  | [] => []

/-- The characters that may stand in a document: tab, line end and all that are no controls. -/
def isAllowed (c : Char) : Bool := c == '\t' || c == '\n' || (' ' ≤ c && c != '\x7f')

def isBlank (c : Char) : Bool := c == ' ' || c == '\t'

/-- The characters of a key without quotes. -/
def isBare (c : Char) : Bool := c.isAlphanum || c == '_' || c == '-'

def skipBlanks (cs : List Char) : List Char := cs.dropWhile isBlank

/-- Drops spaces, tabs, line ends and comments. -/
def skipTrivia (inComment : Bool) : List Char → List Char
  | [] => []
  | c :: cs =>
    if inComment then skipTrivia (c != '\n') cs
    else if isBlank c || c == '\n' then skipTrivia false cs
    else if c == '#' then skipTrivia true cs
    else c :: cs

/-- Reads to the end of the line, which may hold a comment. -/
def endLine? (cs : List Char) : Option (List Char) :=
  match skipBlanks cs with
  | [] => some []
  | '\n' :: rest => some rest
  | '#' :: rest => some (rest.dropWhile (· != '\n'))
  | _ => none

/-! ### Numbers -/

def digit? (base : Nat) (c : Char) : Option Nat :=
  let d :=
    if c.isDigit then c.toNat - 48
    else if 'a' ≤ c ∧ c ≤ 'f' then c.toNat - 87
    else if 'A' ≤ c ∧ c ≤ 'F' then c.toNat - 55
    else base
  if d < base then some d else none

/-- Reads digits, where an underscore may stand between two of them. -/
def digits? (base : Nat) (value : Nat) (afterDigit : Bool) : List Char → Option Nat
  | [] => if afterDigit then some value else none
  | '_' :: cs => if afterDigit then digits? base value false cs else none
  | c :: cs => do
    let d ← digit? base c
    digits? base (base * value + d) true cs

/-- Reads decimal digits without zeros in front. -/
def decimal? : List Char → Option Nat
  | ['0'] => some 0
  | '0' :: _ => none
  | cs => digits? 10 0 false cs

/-- The number that a word stands for. Only zero may be negative. -/
def number? (word : List Char) : Option Nat := do
  let n ← match word with
    | '0' :: 'x' :: cs => digits? 16 0 false cs
    | '0' :: 'o' :: cs => digits? 8 0 false cs
    | '0' :: 'b' :: cs => digits? 2 0 false cs
    | '+' :: cs => decimal? cs
    | '-' :: cs => (decimal? cs).filter (· = 0)
    | cs => decimal? cs
  if n ≤ 0x7fffffffffffffff then some n else none

/-! ### Text -/

def escape? : Char → Option Char
  | 'b' => some '\x08'
  | 't' => some '\t'
  | 'n' => some '\n'
  | 'f' => some '\x0c'
  | 'r' => some '\r'
  | '"' => some '"'
  | '\\' => some '\\'
  | _ => none

/-- The character with a code of `count` hexadecimal digits at the start of the text. -/
def coded? (count : Nat) (cs : List Char) : Option Char := do
  let ds ← (cs.take count).mapM (digit? 16)
  let code := ds.foldl (fun n d => 16 * n + d) 0
  if ds.length = count ∧ code.isValidChar then some (Char.ofNat code) else none

/-- Text up to a delimiter and what follows it. -/
abbrev Reading := Option (List Char × List Char)

def Reading.after (c : Char) (r : Reading) : Reading := r.map fun (cs, rest) => (c :: cs, rest)

/-- The text of an escape, given what follows its backslash, and the rest. -/
def readEscape? : List Char → Option (Char × List Char)
  | 'u' :: cs => (coded? 4 cs).map (·, cs.drop 4)
  | 'U' :: cs => (coded? 8 cs).map (·, cs.drop 8)
  | c :: cs => (escape? c).map (·, cs)
  | [] => none

theorem length_readEscape? {cs rest : List Char} {c : Char}
    (h : readEscape? cs = some (c, rest)) : rest.length ≤ cs.length := by
  unfold readEscape? at h
  split at h <;> simp at h
  · obtain ⟨_, _, _, rfl⟩ := h; simp; omega
  · obtain ⟨_, _, _, rfl⟩ := h; simp; omega
  · obtain ⟨_, _, _, rfl⟩ := h; simp

/-- Reads text in double quotes after the first quote. -/
def readBasic (cs : List Char) : Reading :=
  match cs with
  | [] => none
  | c :: rest =>
    if c = '"' then some ([], rest)
    else if c = '\n' then none
    else if c = '\\' then
      match _h : readEscape? rest with
      | some (e, rest') => Reading.after e (readBasic rest')
      | none => none
    else Reading.after c (readBasic rest)
termination_by cs.length
decreasing_by
  · have := length_readEscape? _h; simp; omega
  · simp

/-- Reads text in single quotes after the first quote. -/
def readLiteral : List Char → Reading
  | [] => none
  | c :: rest =>
    if c = '\x27' then some ([], rest)
    else if c = '\n' then none
    else Reading.after c (readLiteral rest)

/-- A line end right after the opening quotes does not count. -/
def dropLineEnd : List Char → List Char
  | '\n' :: cs => cs
  | cs => cs

/-- Reads the closing quotes of a text of many lines, up to two of which may belong to it. -/
def readClosing (quote : Char) (cs : List Char) : Reading :=
  let run := cs.takeWhile (· = quote)
  let inner := min (run.length - 3) 2
  if 3 ≤ run.length then some (List.replicate inner quote, cs.drop (3 + inner)) else none

/-- A backslash before a line end skips that and all blanks after it. -/
def skipLineEnd? (cs : List Char) : Option (List Char) :=
  match skipBlanks cs with
  | '\n' :: rest => some (rest.dropWhile fun c => isBlank c || c == '\n')
  | _ => none

theorem length_skipLineEnd? {cs rest : List Char} (h : skipLineEnd? cs = some rest) :
    rest.length ≤ cs.length := by
  unfold skipLineEnd? at h
  split at h <;> simp at h
  rename_i r hr
  subst h
  have h1 := (List.dropWhile_sublist (l := cs) isBlank).length_le
  have h2 := (List.dropWhile_sublist (l := r) fun c => isBlank c || c == '\n').length_le
  simp only [skipBlanks] at hr
  simp only [hr, List.length_cons] at h1
  omega

/-- Reads text of many lines in double quotes after the opening quotes. -/
def readBasicLines (cs : List Char) : Reading :=
  match cs with
  | [] => none
  | c :: rest =>
    match readClosing '"' (c :: rest) with
    | some r => some r
    | none =>
      if c = '\\' then
        match _h : skipLineEnd? rest with
        | some rest' => readBasicLines rest'
        | none =>
          match _h : readEscape? rest with
          | some (e, rest') => Reading.after e (readBasicLines rest')
          | none => none
      else Reading.after c (readBasicLines rest)
termination_by cs.length
decreasing_by
  · have := length_skipLineEnd? _h; simp; omega
  · have := length_readEscape? _h; simp; omega
  · simp

/-- Reads text of many lines in single quotes after the opening quotes. -/
def readLiteralLines : List Char → Reading
  | [] => none
  | c :: rest =>
    match readClosing '\x27' (c :: rest) with
    | some r => some r
    | none => Reading.after c (readLiteralLines rest)

/-! ### Keys and values -/

def readPart? (cs : List Char) : Option (String × List Char) :=
  let named := fun (r : List Char × List Char) => (String.ofList r.1, r.2)
  match cs with
  | '"' :: rest => (readBasic rest).map named
  | '\x27' :: rest => (readLiteral rest).map named
  | cs =>
    let word := cs.takeWhile isBare
    if word = [] then none else some (String.ofList word, cs.dropWhile isBare)

/-- Reads a key of one part, or of two with a point between them. -/
def readPath? (cs : List Char) : Option (Path × List Char) := do
  let (head, rest) ← readPart? cs
  match skipBlanks rest with
  | '.' :: rest =>
    let (tail, rest) ← readPart? (skipBlanks rest)
    return (⟨head, some tail⟩, rest)
  | _ => return (⟨head, none⟩, rest)

/-- Reads an empty table or array and returns what follows. -/
def readEmpty? : List Char → Option (List Char)
  | '\x7b' :: cs =>
    match skipBlanks cs with
    | '\x7d' :: rest => some rest
    | _ => none
  | '[' :: cs =>
    match skipTrivia false cs with
    | ']' :: rest => some rest
    | _ => none
  | _ => none

def readEquals? (cs : List Char) : Option (List Char) :=
  match skipBlanks cs with
  | '=' :: rest => some (skipBlanks rest)
  | _ => none

/-- Reads a table with one key and nothing under it, after the opening brace. -/
def readTag? (cs : List Char) : Option (Value × List Char) := do
  let (key, rest) ← readPart? (skipBlanks cs)
  let rest ← readEquals? rest
  let rest ← readEmpty? rest
  match skipBlanks rest with
  | '\x7d' :: rest => return (.tag key, rest)
  | _ => none

/-- The characters of numbers and of other words in their place. -/
def isWord (c : Char) : Bool := isBare c || c == '+' || c == '.' || c == ':'

def readValue? (cs : List Char) : Option (Value × List Char) :=
  let text := fun (r : List Char × List Char) => (Value.text (String.ofList r.1), r.2)
  match cs with
  | '"' :: '"' :: '"' :: rest => (readBasicLines (dropLineEnd rest)).map text
  | '\x27' :: '\x27' :: '\x27' :: rest => (readLiteralLines (dropLineEnd rest)).map text
  | '"' :: rest => (readBasic rest).map text
  | '\x27' :: rest => (readLiteral rest).map text
  | '\x7b' :: rest => ((readEmpty? cs).map (Value.empty, ·)).or (readTag? rest)
  | '[' :: _ => (readEmpty? cs).map (Value.empty, ·)
  | cs => (number? (cs.takeWhile isWord)).map fun n => (.number n, cs.dropWhile isWord)

/-- Reads a table header or a key with its value. -/
def readStatement? (cs : List Char) : Option (Statement × List Char) :=
  match cs with
  | '[' :: rest => do
    let (path, rest) ← readPath? (skipBlanks rest)
    match skipBlanks rest with
    | ']' :: rest => return (.header path, rest)
    | _ => none
  | cs => do
    let (path, rest) ← readPath? cs
    let rest ← readEquals? rest
    let (value, rest) ← readValue? rest
    return (.assign path value, rest)

/-- Reads statements, each on a line of its own. The fuel bounds their number. -/
def readStatements? : Nat → List Char → Option (List Statement)
  | 0, _ => none
  | fuel + 1, cs =>
    match skipTrivia false cs with
    | [] => some []
    | cs => do
      let (statement, rest) ← readStatement? cs
      let rest ← endLine? rest
      let more ← readStatements? fuel rest
      return statement :: more

/-- The statements of a document. A byte order mark in front is no part of it. -/
def statements? (source : String) : Option (List Statement) :=
  let cs := match joinLineEnds source.toList with
    | '\ufeff' :: cs => cs
    | cs => cs
  if cs.all isAllowed then readStatements? (cs.length + 1) cs else none

/-! ### Settings -/

/-- How a document speaks of a setting. -/
inductive Mention
  /-- A key with a value. -/
  | value (v : Value)
  /-- A key of two parts with nothing under it. -/
  | dotted (key : String)
  /-- The header of a table. -/
  | table
  /-- A key with nothing under it in such a table. -/
  | entry (key : String)
  /-- The header of an empty table inside. -/
  | inner (key : String)
  deriving DecidableEq, Repr

/-- The settings that a document mentions and how, in order; `scope` is the last header. -/
def mentions? (scope : Option Path) : List Statement → Option (List (String × Mention))
  | [] => some []
  | .header path :: rest => do
    let more ← mentions? (some path) rest
    match path.tail with
    | none => return (path.head, .table) :: more
    | some key => return (path.head, .inner key) :: more
  | .assign path v :: rest => do
    let here ← match scope, path.tail with
      | none, none => some (path.head, Mention.value v)
      | none, some key => if v = .empty then some (path.head, .dotted key) else none
      | some ⟨table, none⟩, none => if v = .empty then some (table, .entry path.head) else none
      | _, _ => none
    let more ← mentions? scope rest
    return here :: more

def numberOf? (default : Nat) : List Mention → Option Nat
  | [] => some default
  | [.value (.number n)] => some n
  | _ => none

def nameOf? (default : String) : List Mention → Option String
  | [] => some default
  | [.value (.text name)] => some name
  | [.value (.tag name)] => some name
  | [.dotted name] => some name
  | [.table, .entry name] => some name
  | [.inner name] => some name
  | [.table, .inner name] => some name
  | [.inner name, .table] => some name
  | _ => none

def keys : List String :=
  ["min_len", "max_len", "span_step", "pair_depth", "pair_size", "max_proposals",
    "parallel_threshold"]

/-- The settings of a document before their check. -/
def settings? (source : String) : Option Settings := do
  let found ← (statements? source).bind (mentions? none)
  if found.any fun m => m.1 ∉ keys then none
  else
    let of := fun key => (found.filter (·.1 = key)).map Prod.snd
    let usual : Settings := {}
    let minLen ← numberOf? usual.minLen (of "min_len")
    let maxLen ← numberOf? usual.maxLen (of "max_len")
    let spanStep ← nameOf? usual.spanStep.name (of "span_step")
    let pairDepth ← nameOf? usual.pairDepth.name (of "pair_depth")
    let pairSize ← nameOf? usual.pairSize.name (of "pair_size")
    let maxProposals ← numberOf? usual.maxProposals (of "max_proposals")
    let parallelThreshold ← numberOf? usual.parallelThreshold (of "parallel_threshold")
    return {
      minLen, maxLen, maxProposals, parallelThreshold
      spanStep := ← (SpanStep.ofName spanStep).toOption
      pairDepth := ← (PairPolicy.ofName pairDepth).toOption
      pairSize := ← (PairPolicy.ofName pairSize).toOption }

end Document

namespace Settings

/-- The settings that a document gives, checked. -/
def ofDocument (source : String) : Except Refusal Settings :=
  match Document.settings? source with
  | some s => s.check
  | none => .error .malformedDocument

/-- The settings that the document at a path gives, where its bytes are given unless it is
missing. -/
def ofBytes (path : String) : Option ByteArray → Except Refusal Settings
  | none => .error (.unreadableDocument path .missing)
  | some bytes =>
    match String.fromUTF8? bytes with
    | some source => ofDocument source
    | none => .error (.unreadableDocument path .notText)

end Settings
end GrammarInduction
