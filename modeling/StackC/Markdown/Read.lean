import StackC.Markdown.Inline

/-! A reader for the part of Markdown that the documents of test cases are written in: headings,
fences and block quotes. It knows no lists, no HTML blocks and no link reference definitions, takes
a quote inside another one for text, and ends a quote at the first line without its mark. -/
namespace StackC.Markdown

/-- The text of a heading line without the marks that close it. They need a space before them. -/
def dropClosingMarks (t : Bytes) : Bytes :=
  let body := Text.trimRight (· == byte '#') t
  if body.getLast?.all isBlank then Text.trimRight isBlank body else t

/-- A heading line: one to six marks, then a blank or the end of the line. -/
def headingLine? (t : Bytes) : Option Bytes := do
  let body ← unindented? t
  let level := (body.takeWhile (· == byte '#')).length
  let rest := body.drop level
  if 1 ≤ level && level ≤ 6 && rest.head?.all isBlank
  then some (dropClosingMarks (Text.trim isBlank rest))
  else none

/-- A line of one kind of mark that turns the paragraph before it into a heading. -/
def isUnderline (t : Bytes) : Bool :=
  let marks := Text.trimRight isBlank (t.dropWhile (· == byte ' '))
  (t.takeWhile (· == byte ' ')).length < codeColumns && !marks.isEmpty &&
    (marks.all (· == byte '=') || marks.all (· == byte '-'))

/-- A line of three or more of the same mark, with blanks between them. -/
def isBreak (t : Bytes) : Bool :=
  match unindented? t with
  | none => false
  | some body =>
    let marks := body.filter fun b => !isBlank b
    3 ≤ marks.length && (ascii "*-_").any fun m => marks.all (· == m)

/-- Where the blocks at one level are read. -/
inductive Reading
  /-- Between blocks. -/
  | free
  /-- In a paragraph with these lines, the last one first. -/
  | paragraph (lines : List Bytes)
  /-- In a fence whose opening line begins at `start`, with these lines, the last one first. -/
  | code (o : Opening) (start : Nat) (lines : List CodeLine)

/-- Where a document is read: in a block quote or outside. -/
structure Place where
  nested : Bool
  reading : Reading

/-- A fence, given its lines in reverse. -/
def fenceOf (nested : Bool) (o : Opening) (start : Nat) (lines : List CodeLine) (closed : Bool) :
    Item :=
  .fence {
    language := o.language, infoStop := o.infoStop.map (start + ·), lines := lines.reverse
    closed, nested }

/-- A heading made of the lines of a paragraph, given in reverse. -/
def underlined (lines : List Bytes) : Item :=
  let text := lines.reverse.flatMap (·.dropWhile isBlank)
  .heading (plainText (Text.trimRight isBlank text))

/-- What a line is that belongs to no open fence: an item of its own, if it is one, and where it
leaves the reader. -/
def lineItems (reading : Reading) (l : Line) : List Item × Reading :=
  let paragraph : List Bytes := match reading with
    | .paragraph lines => lines
    | _ => []
  if isBlankLine l.text then ([], .free)
  else if !paragraph.isEmpty && isUnderline l.text then ([underlined paragraph], .free)
  else if isBreak l.text then ([], .free)
  else match headingLine? l.text, opening? l.text with
    | some t, _ => ([.heading (plainText t)], .free)
    | none, some o => ([], .code o l.start [])
    | none, none =>
      if paragraph.isEmpty && (unindented? l.text).isNone then ([], .free)
      else ([], .paragraph (l.text :: paragraph))

/-- Reads a line where the last one has left the reader. -/
def Place.read (p : Place) (l : Line) : List Item × Place :=
  match p.reading with
  | .code o start lines =>
    if o.closedBy l.text then ([fenceOf p.nested o start lines true], ⟨p.nested, .free⟩)
    else ([], ⟨p.nested, .code o start (o.codeLine l :: lines)⟩)
  | r =>
    let (items, next) := lineItems r l
    (items, ⟨p.nested, next⟩)

/-- The fence that is left open where the lines end. -/
def Place.finish (p : Place) : List Item :=
  match p.reading with
  | .code o start lines => [fenceOf p.nested o start lines false]
  | _ => []

/-- No fence outside of quotes is open. -/
def Place.minds (p : Place) : Bool :=
  match p.nested, p.reading with
  | false, .code _ _ _ => false
  | _, _ => true

/-- A line of a block quote without its mark. -/
def quoted? (t : Bytes) : Option Bytes := do
  let rest ← Text.after? [byte '>'] (← unindented? t)
  return (Text.after? [byte ' '] rest).getD rest

/-- The place for a line in a quote, or for one outside. A new quote begins between blocks, and so
does what follows one. -/
def Place.enter (p : Place) (nested : Bool) : Place :=
  if p.nested = nested then p else ⟨nested, .free⟩

/-- Reads a line, be it in a quote or outside. What the end of a quote leaves open goes first. -/
def Place.step (p : Place) (l : Line) : List Item × Place :=
  if p.minds then
    match quoted? l.text with
    | some inner =>
      (p.enter true).read { text := inner, start := l.start + (l.text.length - inner.length) }
    | none =>
      let (items, next) := (p.enter false).read l
      (if p.nested then p.finish ++ items else items, next)
  else p.read l

def itemsFrom (p : Place) : List Line → List Item
  | [] => p.finish
  | l :: rest =>
    let (items, next) := p.step l
    items ++ itemsFrom next rest

/-- The headings and fences of a document. -/
def read : Reader := fun doc => itemsFrom ⟨false, .free⟩ (linesOf doc)

end StackC.Markdown
