import Mathlib.Data.List.DropRight

/-!
# The layout document and its renderer

The printer of the formatter turns a program into a `Doc`: text, places where a line may break,
groups that break all of their places or none, and comments.  `render` lays it out in a given
width.  It keeps the documents that wait on a stack, asks of each group whether it fits the rest of
the line, and writes to `Renderer`, which holds back the `--` comments until their line ends.

A text is its characters, and a place in the output is the number of characters before it.

## Main definitions

* `Doc`, `Doc.grouped` : the documents, and the group that knows whether it holds a forced break.
* `Renderer` and its operations `text`, `comment`, `suffix`, `settleSuffixes`, `newline`,
  `blankLine`, `ownLine`, `finish`.
* `Renderer.fits`, `commentBeforeLineBreak` : the two looks ahead.
* `render` : the loop.
-/

namespace Silt.Format

/-- Columns per level of `Doc.nest`. -/
def INDENT : Nat := 2

inductive Doc
  | nil
  /-- text as it is -/
  | text (text : List Char)
  /-- a comment between two tokens, or behind the last token of a line -/
  | comment (text : List Char)
  /-- a space in a group that fits its line, a line break in one that does not -/
  | line
  /-- nothing in a group that fits, a line break in one that does not -/
  | softLine
  | hardLine
  /-- a line break and one empty line -/
  | blankLine
  /-- the unit of layout; the flag says that the content holds a forced break -/
  | group (inner : Doc) (forced : Bool)
  | nest (inner : Doc)
  | concat (parts : List Doc)
  /-- the first if the enclosing group is broken, the second if not -/
  | ifBreak (broken flat : Doc)
  /-- a comment at the end of a line: held back until the next line break of the output -/
  | lineSuffix (text : List Char)
  /-- a comment on a line of its own -/
  | ownLine (text : List Char)
  /-- what follows holds a comment of its own: the suffixes that wait are written first -/
  | settle

namespace Doc

mutual

/-- Whether the document holds a forced break outside the branches of an `ifBreak`. -/
def forcesBreak : Doc → Bool
  | hardLine | blankLine | ownLine _ => true
  | group _ forced => forced
  | nest inner => inner.forcesBreak
  | concat parts => anyForcesBreak parts
  | nil | text _ | comment _ | line | softLine | ifBreak _ _ | lineSuffix _ | settle => false

def anyForcesBreak : List Doc → Bool
  | [] => false
  | doc :: docs => doc.forcesBreak || anyForcesBreak docs

end

/-- A group that knows whether it holds a forced break. -/
def grouped (doc : Doc) : Doc :=
  group doc doc.forcesBreak

mutual

/-- The number of nodes. -/
def size : Doc → Nat
  | group inner _ | nest inner => inner.size + 1
  | concat parts => sizes parts + 1
  | ifBreak broken flat => broken.size + flat.size + 1
  | nil | text _ | comment _ | line | softLine | hardLine | blankLine | lineSuffix _ | ownLine _
  | settle => 1

def sizes : List Doc → Nat
  | [] => 0
  | doc :: docs => doc.size + sizes docs

end

end Doc

inductive Mode
  | flat
  | brk
deriving DecidableEq

/-- A document waiting to be written, with the indentation and the mode of the group it stands
in. -/
structure Cmd where
  indent : Nat
  mode : Mode
  doc : Doc

/-- A comment held back for the end of the line, and where in the output it was met. -/
structure Suffix where
  text : List Char
  place : Nat

structure Renderer where
  width : Nat
  out : List Char := []
  /-- characters on the current line, its inline comments left out -/
  col : Nat := 0
  /-- nothing is written on the current line yet -/
  atLineStart : Bool := true
  /-- the indentation the line gets when something is written -/
  indent : Nat := 0
  suffixes : List Suffix := []
  /-- a comment on its own line ends the current line -/
  lineIsClosed : Bool := false
  /-- an inline comment was the last thing written -/
  afterComment : Bool := false

/-! ### Texts -/

/-- `trim_end_matches`. -/
def trimEnd (c : Char) (text : List Char) : List Char :=
  text.rdropWhile (· == c)

/-- `trim_start_matches`. -/
def trimStart (c : Char) (text : List Char) : List Char :=
  text.dropWhile (· == c)

def spaces (n : Nat) : List Char :=
  List.replicate n ' '

/-- What stands behind the last line break: the whole text, if there is none. -/
def lastLine (text : List Char) : List Char :=
  text.rtakeWhile (· != '\n')

/-- The place where the last line starts. -/
def lineStart (text : List Char) : Nat :=
  text.length - (lastLine text).length

/-- Whether the text ends with one of the characters. -/
def endsWith (text : List Char) (chars : List Char) : Bool :=
  text.getLast?.any chars.contains

/-- Whether the text starts with one of the characters. -/
def startsWith (text : List Char) (chars : List Char) : Bool :=
  text.head?.any chars.contains

/-! ### The output -/

namespace Renderer

/-- A comment that waited, at the end of its line. -/
def endWith (r : Renderer) (suffix : Suffix) : Renderer :=
  if r.atLineStart then
    { r with out := r.out ++ spaces r.indent ++ suffix.text, atLineStart := false }
  else
    { r with out := trimEnd ' ' r.out ++ [' '] ++ suffix.text }

/-- End the current line; the next one is indented by `indent`. -/
def newline (r : Renderer) (indent : Nat) : Renderer :=
  let r := r.suffixes.foldl endWith { r with suffixes := [] }
  { r with
    out := trimEnd ' ' r.out ++ ['\n'], atLineStart := true, indent := indent, col := 0,
    lineIsClosed := false, afterComment := false }

/-- A comment that waited, written where it was met, and the line broken behind it: what was
written behind it moves to a new line. -/
def settleOne (start lineIndent : Nat) (out : List Char) (suffix : Suffix) : List Char :=
  let place := max suffix.place start
  let behind := trimStart ' ' (out.drop place)
  let kept := trimEnd ' ' (out.take place)
  let line := kept ++ (if start < kept.length then [' '] else spaces lineIndent) ++ suffix.text ++
    ['\n']
  if behind = [] then line else line ++ spaces (lineIndent + INDENT) ++ behind

/-- Write the waiting comments where they were met, and break the line behind each. -/
def settleSuffixes (r : Renderer) : Renderer :=
  let start := lineStart r.out
  let lineIndent :=
    if r.atLineStart then r.indent
    else ((r.out.drop start).takeWhile (· == ' ')).length
  let out := r.suffixes.reverse.foldl (settleOne start lineIndent) r.out
  let atLineStart := endsWith out ['\n']
  { r with
    out := out, suffixes := [], atLineStart := atLineStart,
    indent := if atLineStart then lineIndent + INDENT else r.indent,
    col := (lastLine out).length, afterComment := false }

/-- The comments that wait, if any, are written where they were met. -/
def settled (r : Renderer) : Renderer :=
  if r.suffixes.isEmpty then r else r.settleSuffixes

/-- A new line, if the current one is closed. -/
def reopen (r : Renderer) (indent : Nat) : Renderer :=
  if r.lineIsClosed then r.newline indent else r

/-- Start the line that is about to be written on. -/
def openLine (r : Renderer) (indent : Nat) : Renderer :=
  let r := r.reopen indent
  if r.atLineStart then
    { r with out := r.out ++ spaces r.indent, col := r.indent, atLineStart := false }
  else r

def push (r : Renderer) (text : List Char) : Renderer :=
  { r with
    out := r.out ++ text,
    col := if '\n' ∈ text then (lastLine text).length else r.col + text.length }

def text (r : Renderer) (text : List Char) (indent : Nat) : Renderer :=
  -- a space between the parts of a line is not worth a line of its own
  let text := if r.atLineStart || r.lineIsClosed then trimStart ' ' text else text
  if text = [] then r
  else
    -- a comment cannot be written into text that spans lines
    let r := if '\n' ∈ text then r.settled else r
    let r := r.openLine indent
    let r :=
      if r.afterComment && !startsWith text [' ', ')', ']', '}', ','] then
        { r with out := r.out ++ [' '] }
      else r
    { r with afterComment := false }.push text

def comment (r : Renderer) (text : List Char) (indent : Nat) : Renderer :=
  let r := r.settled
  -- a comment that starts a line stands at its own indentation
  let r := if r.atLineStart then { r with indent := indent } else r
  let fresh := r.atLineStart || r.lineIsClosed
  let r := r.openLine indent
  let r :=
    if !fresh && !endsWith r.out [' ', '(', '[', '{'] then { r with out := r.out ++ [' '] } else r
  { r with
    out := r.out ++ text,
    col := if '\n' ∈ text then (lastLine text).length else r.col, afterComment := true }

def suffix (r : Renderer) (text : List Char) (indent : Nat) : Renderer :=
  let r := (r.reopen indent).settled
  { r with suffixes := r.suffixes ++ [⟨text, r.out.length⟩] }

/-- A new line, unless the output stands at the start of one and nothing waits. -/
def freshLine (r : Renderer) (indent : Nat) : Renderer :=
  if !r.atLineStart || r.lineIsClosed || !r.suffixes.isEmpty then r.newline indent else r

def blankLine (r : Renderer) (indent : Nat) : Renderer :=
  let r := { r.freshLine indent with indent := indent }
  if r.out = [] ∨ ['\n', '\n'] <:+ r.out then r else { r with out := r.out ++ ['\n'] }

def ownLine (r : Renderer) (text : List Char) (indent : Nat) : Renderer :=
  let r := { r.freshLine indent with indent := indent }
  { (r.openLine indent).push text with lineIsClosed := true }

/-- The line breaks at the end made one. -/
def closeEnd (out : List Char) : List Char :=
  let kept := trimEnd '\n' out
  if kept = [] then [] else kept ++ ['\n']

def finish (r : Renderer) : List Char :=
  let r := if !r.atLineStart || !r.suffixes.isEmpty then r.newline 0 else r
  closeEnd r.out

end Renderer

/-! ### Whether a group fits -/

/-- The walk over what has to fit: what is left of the line, how deep in groups the walk is, and the
deepest level at which a line still belongs to a group that was open when a suffix was met. -/
structure Measure where
  left : Int
  depth : Int
  suffixDepth : Int

/-- No room left: the answer is no. -/
def Measure.check (m : Measure) : Except Bool Measure :=
  if m.left < 0 then .error false else .ok m

/-- A group opened inside what is measured. -/
def Measure.enter (m : Measure) : Measure :=
  if 0 ≤ m.depth then { m with depth := m.depth + 1 } else m

/-- The end of a group inside what is measured. -/
def Measure.leave (m : Measure) : Measure :=
  if 0 ≤ m.depth then
    { m with depth := m.depth - 1, suffixDepth := min m.suffixDepth (m.depth - 1) }
  else m

/-- Text on the line.  Of text that spans lines, the first has to fit, and what follows stands
behind the last. -/
def Measure.text (width : Nat) (m : Measure) (text : List Char) : Except Bool Measure :=
  if '\n' ∈ text then
    if m.left < (text.takeWhile (· != '\n')).length then .error false
    else { m with left := width - (lastLine text).length }.check
  else { m with left := m.left - text.length }.check

mutual

/-- The walk over a document; an answer ends it. -/
def measure (width : Nat) (mode : Mode) : Doc → Measure → Except Bool Measure
  | .nil, m | .settle, m | .comment _, m => m.check
  | .text text, m => m.text width text
  | .line, m =>
    if mode = .brk then .error true
    else if 0 ≤ m.depth ∧ m.depth ≤ m.suffixDepth then .error false
    else { m with left := m.left - 1 }.check
  | .softLine, m =>
    if mode = .brk then .error true
    else if 0 ≤ m.depth ∧ m.depth ≤ m.suffixDepth then .error false
    else m.check
  | .hardLine, _ | .blankLine, _ | .ownLine _, _ => .error true
  | .group inner forced, m => do
    let m ← m.enter.check
    return (← measure width (if forced then .brk else mode) inner m).leave
  | .nest inner, m => do measure width mode inner (← m.check)
  | .concat parts, m => do measureAll width mode parts (← m.check)
  | .ifBreak broken flat, m => do
    let m ← m.check
    if mode = .brk then measure width mode broken m else measure width mode flat m
  | .lineSuffix _, m =>
    if 0 ≤ m.depth then { m with suffixDepth := max m.suffixDepth m.depth }.check else m.check

def measureAll (width : Nat) (mode : Mode) : List Doc → Measure → Except Bool Measure
  | [], m => .ok m
  | doc :: docs, m => do measureAll width mode docs (← measure width mode doc m)

end

/-- The walk over what follows: no group of what is measured is open any more. -/
def measureRest (width : Nat) : List Cmd → Measure → Bool
  | [], _ => true
  | cmd :: rest, m =>
    match measure width cmd.mode cmd.doc ⟨m.left, -1, -1⟩ with
    | .error answer => answer
    | .ok m => measureRest width rest m

/-- Whether the document, on one line and followed by the rest up to its first line break, fits
what is left of the current line. -/
def Renderer.fits (r : Renderer) (doc : Doc) (rest : List Cmd) : Bool :=
  let start := if r.atLineStart then r.indent else r.col
  match measure r.width .flat doc ⟨(r.width : Int) - start, 0, -1⟩ with
  | .error answer => answer
  | .ok m => measureRest r.width rest m

mutual

/-- Whether a comment, or text that spans lines, comes before the next line break that is certain;
nothing, if the document holds neither. -/
def commentIn (broken : Bool) : Doc → Option Bool
  | .nil => none
  | .text text => if '\n' ∈ text then some true else none
  | .comment _ | .lineSuffix _ | .settle => some true
  | .line | .softLine => if broken then some false else none
  | .hardLine | .blankLine | .ownLine _ => some false
  | .group inner forced => commentIn forced inner
  | .nest inner => commentIn broken inner
  | .concat parts => commentInAny broken parts
  | .ifBreak onBreak flat => if broken then commentIn broken onBreak else commentIn broken flat

def commentInAny (broken : Bool) : List Doc → Option Bool
  | [] => none
  | doc :: docs => (commentIn broken doc).or (commentInAny broken docs)

end

/-- Whether another comment, or text that spans lines, follows in the rest before the next line
break that is certain. -/
def commentBeforeLineBreak : List Cmd → Bool
  | [] => false
  | cmd :: rest => (commentIn (cmd.mode = .brk) cmd.doc).getD (commentBeforeLineBreak rest)

/-! ### The loop -/

/-- One document taken off the stack: what it writes, and what goes on the stack for it. -/
def Renderer.visit (r : Renderer) (cmd : Cmd) (stack : List Cmd) : Renderer × List Cmd :=
  let ⟨indent, mode, doc⟩ := cmd
  match doc with
  | .nil => (r, [])
  | .text text => (r.text text indent, [])
  | .comment text => (r.comment text indent, [])
  | .line => (if mode = .brk then r.newline indent else r.text [' '] indent, [])
  | .softLine => (if mode = .brk then r.newline indent else r, [])
  | .hardLine => (r.newline indent, [])
  | .blankLine => (r.blankLine indent, [])
  | .group inner forced =>
    (r, [⟨indent, if forced || !r.fits inner stack then .brk else .flat, inner⟩])
  | .nest inner => (r, [⟨indent + INDENT, mode, inner⟩])
  | .concat parts => (r, parts.map fun part => ⟨indent, mode, part⟩)
  | .ifBreak broken flat => (r, [⟨indent, mode, if mode = .brk then broken else flat⟩])
  | .lineSuffix text =>
    let r' := r.suffix text indent
    (if commentBeforeLineBreak stack then r'.settleSuffixes else r', [])
  | .ownLine text => (r.ownLine text indent, [])
  | .settle => (r.settled, [])

/-- The documents on the stack, laid out. -/
def renderAll : Nat → List Cmd → Renderer → Renderer
  | 0, _, r => r
  | _ + 1, [], r => r
  | fuel + 1, cmd :: stack, r =>
    renderAll fuel ((r.visit cmd stack).2 ++ stack) (r.visit cmd stack).1

/-- Lay `doc` out in `width` columns.  (Each document is taken off the stack once: as many steps as
it has nodes are enough.) -/
def render (doc : Doc) (width : Nat) : List Char :=
  (renderAll doc.size [⟨0, .brk, doc⟩] { width }).finish

end Silt.Format
